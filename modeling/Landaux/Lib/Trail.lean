import Landaux.Lib.Radix

/-!
# What a walk reads

`trail` is the list of entries that a walk reads down to its leaf. Leaves may stand above level 0:
`leaf n e` says that an entry `e` of level `n` is one. When one entry of a tree is replaced, the walks
that pass through it see the new entry, and the others read what they read before.
-/

namespace Landaux.Lib.Radix

variable {W : Type*} (R : Radix W)

def trail (leaf : Nat → W → Bool) (mem : Memory W) (v : Nat) : Nat → Nat → Option (List W)
  | 0, t => if leaf 0 (mem t (R.index v 0)) then some [mem t (R.index v 0)] else none
  | n + 1, t =>
    let e := mem t (R.index v (n + 1))
    if leaf (n + 1) e then some [e]
    else (R.next e).bind fun c => (trail leaf mem v n c).map (e :: ·)

/-- `mem'` is `mem` but for entry `i` of table `u`. -/
def Off (mem mem' : Memory W) (u i : Nat) : Prop := ∀ a j, a ≠ u ∨ j ≠ i → mem' a j = mem a j

variable {R} {leaf : Nat → W → Bool} {mem mem' : Memory W} {v w m n t u i c : Nat}

theorem trail_none (bare : leaf n (mem t (R.index v n)) = false)
    (unused : n = 0 ∨ R.next (mem t (R.index v n)) = none) : R.trail leaf mem v n t = none := by
  cases n with
  | zero => rw [trail, bare, if_neg Bool.false_ne_true]
  | succ n =>
    rw [trail]
    rw [bare, if_neg Bool.false_ne_true, unused.resolve_left (Nat.succ_ne_zero n), Option.bind_none]

theorem trail_succ (bare : leaf (n + 1) (mem t (R.index v (n + 1))) = false)
    (used : R.next (mem t (R.index v (n + 1))) = some c) : R.trail leaf mem v (n + 1) t =
      (R.trail leaf mem v n c).map (mem t (R.index v (n + 1)) :: ·) := by
  rw [trail]
  rw [bare, if_neg Bool.false_ne_true, used, Option.bind_some]

theorem Off.table (off : Off mem mem' u i) (other : t ≠ u) : mem' t = mem t :=
  funext fun j => off t j (Or.inl other)

/-- A walk only reads the tables of its tree. -/
theorem trail_congr (inside : R.Inside v n) (same : ∀ u ∈ R.tables mem n t, mem' u = mem u) :
    R.trail leaf mem' v n t = R.trail leaf mem v n t := by
  induction n generalizing t with
  | zero => rw [trail, trail, same t mem_tables_self]
  | succ n ih =>
    rw [trail, trail, same t mem_tables_self]
    split
    · rfl
    · cases used : R.next (mem t (R.index v (n + 1))) with
      | none => rfl
      | some c =>
        have below := ih (inside.mono (Nat.le_succ n)) fun u member =>
          same u (mem_tables_child (inside _ le_rfl) used member)
        rw [Option.bind_some, Option.bind_some, below]

/-- Numbers with the same path down to level `m` pass through the same table there. -/
theorem tableOf_agree (agree : ∀ k, m < k → k ≤ n → R.index w k = R.index v k) (le : m ≤ n) :
    R.tableOf mem w m n t = R.tableOf mem v m n t := by
  induction n generalizing t with
  | zero =>
    obtain rfl := Nat.le_zero.mp le
    rw [tableOf_self, tableOf_self]
  | succ n ih =>
    rcases Nat.lt_or_ge n m with top | le
    · obtain rfl : m = n + 1 := by omega
      rw [tableOf_self, tableOf_self]
    · rw [tableOf_succ le, tableOf_succ le, agree (n + 1) (by omega) le_rfl]
      congr 1
      funext c
      exact ih (fun k above below => agree k above (by omega)) le

/-- A walk whose path passes through table `u` of level `m` reads some entries above, and then what the
walk from `u` reads, whatever stands there. -/
theorem trail_along (ends : ∀ k e, leaf (k + 1) e = true → R.next e = none)
    (once : (R.tables mem n t).Nodup) (inside : R.Inside v n) (le : m ≤ n)
    (path : R.tableOf mem v m n t = some u) : ∃ upper : List W, ∀ mem', Off mem mem' u (R.index v m) →
      R.trail leaf mem' v n t = (R.trail leaf mem' v m u).map (upper ++ ·) := by
  induction n generalizing t with
  | zero =>
    obtain rfl := Nat.le_zero.mp le
    obtain rfl : t = u := by simpa [tableOf_self] using path
    exact ⟨[], fun mem' _ => by simp⟩
  | succ n ih =>
    rcases Nat.lt_or_ge n m with top | le
    · obtain rfl : m = n + 1 := by omega
      obtain rfl : t = u := by simpa [tableOf_self] using path
      exact ⟨[], fun mem' _ => by simp⟩
    · rw [tableOf_succ le] at path
      obtain ⟨c, used, path⟩ := Option.bind_eq_some_iff.mp path
      have here := inside _ (Nat.le_refl (n + 1))
      have member := tableOf_mem (inside.mono (Nat.le_succ n)) le path
      have other : t ≠ u := fun same => not_mem_child once here used (same ▸ member)
      have bare : leaf (n + 1) (mem t (R.index v (n + 1))) = false := by
        by_contra stops
        rw [ends n _ (by simpa using stops)] at used
        cases used
      obtain ⟨upper, reads⟩ := ih (child_nodup once here used) (inside.mono (Nat.le_succ n)) le path
      refine ⟨mem t (R.index v (n + 1)) :: upper, fun mem' off => ?_⟩
      have word := congrFun (off.table other) (R.index v (n + 1))
      rw [← word] at bare used
      rw [trail_succ bare used, reads mem' off, Option.map_map, word]
      rfl

/-- A walk that leaves the path of `v` before the entry replaced reads what it read before. -/
theorem trail_apart (once : (R.tables mem n t).Nodup) (inside : R.Inside v n) (inside' : R.Inside w n)
    (le : m ≤ n) (path : R.tableOf mem v m n t = some u) (off : Off mem mem' u (R.index v m))
    (apart : ∃ k, m ≤ k ∧ k ≤ n ∧ R.index w k ≠ R.index v k) :
    R.trail leaf mem' w n t = R.trail leaf mem w n t := by
  obtain ⟨k, low, high, different⟩ := apart
  induction n generalizing t with
  | zero =>
    obtain rfl := Nat.le_zero.mp le
    obtain rfl := Nat.le_zero.mp high
    obtain rfl : t = u := by simpa [tableOf_self] using path
    rw [trail, trail, off t _ (Or.inr different)]
  | succ n ih =>
    have here := inside _ (Nat.le_refl (n + 1))
    have here' := inside' _ (Nat.le_refl (n + 1))
    have word : mem' t (R.index w (n + 1)) = mem t (R.index w (n + 1)) := by
      apply off
      by_cases same : t = u
      · right
        intro clash
        rcases Nat.lt_or_ge n m with top | le
        · obtain rfl : k = n + 1 := by omega
          obtain rfl : m = n + 1 := by omega
          exact different clash
        · rw [tableOf_succ le] at path
          obtain ⟨c, used, path⟩ := Option.bind_eq_some_iff.mp path
          have member := tableOf_mem (inside.mono (Nat.le_succ n)) le path
          exact not_mem_child once here used (same ▸ member)
      · exact Or.inl same
    rw [trail, trail, word]
    split
    · rfl
    cases used : R.next (mem t (R.index w (n + 1))) with
    | none => rfl
    | some d =>
      rw [Option.bind_some, Option.bind_some]
      congr 1
      by_cases parts : R.index w (n + 1) = R.index v (n + 1)
      · -- the two paths go on together, so the entry replaced lies below
        have deeper : k ≤ n := by
          by_contra top
          obtain rfl : k = n + 1 := by omega
          exact different parts
        rw [parts] at used
        rw [tableOf_succ (by omega), used, Option.bind_some] at path
        exact ih (child_nodup once here used) (inside.mono (Nat.le_succ n))
          (inside'.mono (Nat.le_succ n)) (by omega) path deeper
      · apply trail_congr (inside'.mono (Nat.le_succ n))
        intro a below
        apply off.table
        rintro rfl
        rcases Nat.lt_or_ge n m with top | le
        · obtain rfl : m = n + 1 := by omega
          obtain rfl : t = a := by simpa [tableOf_self] using path
          exact not_mem_child once here' used below
        · rw [tableOf_succ le] at path
          obtain ⟨c, used', path⟩ := Option.bind_eq_some_iff.mp path
          have member := tableOf_mem (inside.mono (Nat.le_succ n)) le path
          have disjoint := children_disjoint once here' here parts used used'
          exact Multiset.disjoint_left.mp disjoint below member

end Landaux.Lib.Radix
