import Mathlib.Tactic

/-!
# Radix trees in memory

A table of level `n` has `width n` entries. An entry in use names a table of level `n - 1`, and at
level 0 it is a leaf. Everything counted over a tree is a `fold`: a sum with one value for each table
and one for each leaf, in a commutative monoid.
-/

namespace Landaux.Lib

/-- Word `i` of table `t`. -/
abbrev Memory (W : Type*) := Nat → Nat → W

/-- `next` is what an entry names, when it is in use. -/
structure Radix (W : Type*) where
  radix : Nat
  width : Nat → Nat
  narrow : ∀ n, width n ≤ radix
  next : W → Option Nat

namespace Radix

variable {W M : Type*} [AddCommMonoid M] (R : Radix W)

def index (v n : Nat) : Nat := v / R.radix ^ n % R.radix

/-- The path of `v` from a table of level `n` stays within the tables. -/
def Inside (v n : Nat) : Prop := ∀ k, k ≤ n → R.index v k < R.width k

/-- The sum below table `t` of level `n`. `p` is the number of the entry that names `t`, counted over
all entries of that level, so that a leaf comes with its own number. -/
def fold (mem : Memory W) (node : Nat → M) (leaf : Nat → W → M) : Nat → Nat → Nat → M
  | 0, t, p => node t + ∑ i ∈ Finset.range (R.width 0),
      match R.next (mem t i) with
      | none => 0
      | some _ => leaf (p * R.radix + i) (mem t i)
  | n + 1, t, p => node t + ∑ i ∈ Finset.range (R.width (n + 1)),
      match R.next (mem t i) with
      | none => 0
      | some c => fold mem node leaf n c (p * R.radix + i)

/-- What entry `i` of table `t` adds to the sum. -/
def slot (mem : Memory W) (node : Nat → M) (leaf : Nat → W → M) (n t p i : Nat) : M :=
  match R.next (mem t i) with
  | none => 0
  | some c =>
    match n with
    | 0 => leaf (p * R.radix + i) (mem t i)
    | n + 1 => R.fold mem node leaf n c (p * R.radix + i)

def tables (mem : Memory W) (n t : Nat) : Multiset Nat := R.fold mem (fun t => {t}) (fun _ _ => 0) n t 0

def leaves (mem : Memory W) (n t p : Nat) : Multiset (Nat × W) :=
  R.fold mem (fun _ => 0) (fun v w => {(v, w)}) n t p

/-- The table of level `m` that the path of `v` goes through. -/
def tableOf (mem : Memory W) (v m : Nat) : Nat → Nat → Option Nat
  | 0, t => if m = 0 then some t else none
  | n + 1, t =>
    if m = n + 1 then some t
    else match R.next (mem t (R.index v (n + 1))) with
      | none => none
      | some c => tableOf mem v m n c

/-- The leaf that the path of `v` ends at. -/
def walk (mem : Memory W) (v : Nat) : Nat → Nat → Option W
  | 0, t =>
    match R.next (mem t (R.index v 0)) with
    | none => none
    | some _ => some (mem t (R.index v 0))
  | n + 1, t =>
    match R.next (mem t (R.index v (n + 1))) with
    | none => none
    | some c => walk mem v n c

variable {R} {mem mem' : Memory W} {node : Nat → M} {leaf : Nat → W → M} {n m t u p i v : Nat} {w : W}

theorem fold_eq : R.fold mem node leaf n t p =
    node t + ∑ i ∈ Finset.range (R.width n), R.slot mem node leaf n t p i := by
  cases n <;> rfl

theorem slot_none (unused : R.next (mem t i) = none) : R.slot mem node leaf n t p i = 0 := by
  unfold slot
  rw [unused]

theorem slot_zero {c : Nat} (used : R.next (mem t i) = some c) :
    R.slot mem node leaf 0 t p i = leaf (p * R.radix + i) (mem t i) := by
  unfold slot
  rw [used]

theorem slot_succ {c : Nat} (used : R.next (mem t i) = some c) :
    R.slot mem node leaf (n + 1) t p i = R.fold mem node leaf n c (p * R.radix + i) := by
  unfold slot
  rw [used]

theorem fold_tables : R.fold mem (fun t => ({t} : Multiset Nat)) (fun _ _ => 0) n t p =
    R.tables mem n t := by
  unfold tables
  induction n generalizing t p with
  | zero => rfl
  | succ n ih =>
    rw [fold_eq, fold_eq]
    congr 1
    refine Finset.sum_congr rfl fun i _ => ?_
    cases used : R.next (mem t i) with
    | none => rw [slot_none used, slot_none used]
    | some c =>
      rw [slot_succ used, slot_succ used, ih (p := p * R.radix + i), ih (p := 0 * R.radix + i)]

/-- The tables below entry `i` of table `t`. -/
def tablesAt (R : Radix W) (mem : Memory W) (n t i : Nat) : Multiset Nat :=
  R.slot mem (fun t => {t}) (fun _ _ => 0) n t 0 i

/-- The leaves below entry `i` of table `t`. -/
def leavesAt (R : Radix W) (mem : Memory W) (n t p i : Nat) : Multiset (Nat × W) :=
  R.slot mem (fun _ => 0) (fun v w => {(v, w)}) n t p i

theorem tables_eq : R.tables mem n t =
    {t} + ∑ i ∈ Finset.range (R.width n), R.tablesAt mem n t i := fold_eq

theorem leaves_eq : R.leaves mem n t p =
    ∑ i ∈ Finset.range (R.width n), R.leavesAt mem n t p i := by
  unfold leaves
  rw [fold_eq, zero_add]
  rfl

/-- Without leaves the numbers play no role. -/
theorem tablesAt_eq : R.slot mem (fun t => {t}) (fun _ _ => 0) n t p i = R.tablesAt mem n t i := by
  unfold tablesAt
  cases used : R.next (mem t i) with
  | none => rw [slot_none used, slot_none used]
  | some c =>
    cases n with
    | zero => rw [slot_zero used, slot_zero used]
    | succ n => rw [slot_succ used, slot_succ used, fold_tables, fold_tables]

theorem tablesAt_none (unused : R.next (mem t i) = none) : R.tablesAt mem n t i = 0 :=
  slot_none unused

theorem tablesAt_zero : R.tablesAt mem 0 t i = 0 := by
  unfold tablesAt
  cases used : R.next (mem t i) with
  | none => rw [slot_none used]
  | some c => rw [slot_zero used]

theorem tablesAt_succ {c : Nat} (used : R.next (mem t i) = some c) :
    R.tablesAt mem (n + 1) t i = R.tables mem n c := by
  unfold tablesAt
  rw [slot_succ used, fold_tables]

theorem leavesAt_none (unused : R.next (mem t i) = none) : R.leavesAt mem n t p i = 0 :=
  slot_none unused

theorem leavesAt_zero {c : Nat} (used : R.next (mem t i) = some c) :
    R.leavesAt mem 0 t p i = {(p * R.radix + i, mem t i)} := slot_zero used

theorem leavesAt_succ {c : Nat} (used : R.next (mem t i) = some c) :
    R.leavesAt mem (n + 1) t p i = R.leaves mem n c (p * R.radix + i) := slot_succ used

theorem mem_tables_self : t ∈ R.tables mem n t := by
  rw [tables_eq]
  exact Multiset.mem_add.mpr (Or.inl (Multiset.mem_singleton_self t))

theorem mem_tables_at (inside : i < R.width n) (member : u ∈ R.tablesAt mem n t i) :
    u ∈ R.tables mem n t := by
  rw [tables_eq, Multiset.mem_add, Multiset.mem_sum]
  exact Or.inr ⟨i, Finset.mem_range.mpr inside, member⟩

theorem mem_leaves_at {x : Nat × W} (inside : i < R.width n) (member : x ∈ R.leavesAt mem n t p i) :
    x ∈ R.leaves mem n t p := by
  rw [leaves_eq, Multiset.mem_sum]
  exact ⟨i, Finset.mem_range.mpr inside, member⟩

theorem mem_tables_child {c : Nat} (inside : i < R.width (n + 1)) (used : R.next (mem t i) = some c)
    (member : u ∈ R.tables mem n c) : u ∈ R.tables mem (n + 1) t := by
  exact mem_tables_at inside (by rwa [tablesAt_succ used])

/-- A fold only reads the tables of its tree. -/
theorem fold_congr (same : ∀ u ∈ R.tables mem n t, mem' u = mem u) :
    R.fold mem' node leaf n t p = R.fold mem node leaf n t p := by
  induction n generalizing t p with
  | zero =>
    rw [fold_eq, fold_eq]
    unfold slot
    rw [same t mem_tables_self]
  | succ n ih =>
    rw [fold_eq, fold_eq]
    congr 1
    refine Finset.sum_congr rfl fun i inside => ?_
    have word : mem' t i = mem t i := by rw [same t mem_tables_self]
    cases used : R.next (mem t i) with
    | none => rw [slot_none used, slot_none (by rwa [word])]
    | some c =>
      rw [slot_succ used, slot_succ (by rwa [word])]
      exact ih fun u member => same u (mem_tables_child (Finset.mem_range.mp inside) used member)

theorem tables_congr (same : ∀ u ∈ R.tables mem n t, mem' u = mem u) :
    R.tables mem' n t = R.tables mem n t := fold_congr same

theorem leaves_congr (same : ∀ u ∈ R.tables mem n t, mem' u = mem u) :
    R.leaves mem' n t p = R.leaves mem n t p := fold_congr same

theorem slot_congr (word : mem' t i = mem t i) (same : ∀ u ∈ R.tablesAt mem n t i, mem' u = mem u) :
    R.slot mem' node leaf n t p i = R.slot mem node leaf n t p i := by
  cases used : R.next (mem t i) with
  | none => rw [slot_none used, slot_none (by rwa [word])]
  | some c =>
    cases n with
    | zero => rw [slot_zero used, slot_zero (by rwa [word]), word]
    | succ n =>
      rw [slot_succ used, slot_succ (by rwa [word])]
      rw [tablesAt_succ used] at same
      exact fold_congr same

theorem tablesAt_congr (word : mem' t i = mem t i)
    (same : ∀ u ∈ R.tablesAt mem n t i, mem' u = mem u) :
    R.tablesAt mem' n t i = R.tablesAt mem n t i := slot_congr word same

theorem leavesAt_congr (word : mem' t i = mem t i)
    (same : ∀ u ∈ R.tablesAt mem n t i, mem' u = mem u) :
    R.leavesAt mem' n t p i = R.leavesAt mem n t p i := slot_congr word same

/-! ### Trees without shared tables -/

theorem sum_disjoint {s : Finset Nat} {f : Nat → Multiset Nat} {i j : Nat}
    (once : (∑ i ∈ s, f i).Nodup) (hi : i ∈ s) (hj : j ∈ s) (different : i ≠ j) :
    Disjoint (f i) (f j) := by
  have pair : f i + f j ≤ ∑ k ∈ s, f k := by
    rw [← Finset.sum_pair different]
    exact Finset.sum_le_sum_of_subset (by
      intro k member
      rcases Finset.mem_insert.mp member with rfl | member
      · exact hi
      · exact Finset.mem_singleton.mp member ▸ hj)
  exact (Multiset.nodup_add.mp (Multiset.nodup_of_le pair once)).2.2

theorem not_mem_child {c : Nat} (once : (R.tables mem (n + 1) t).Nodup)
    (inside : i < R.width (n + 1)) (used : R.next (mem t i) = some c) : t ∉ R.tables mem n c := by
  intro member
  rw [tables_eq] at once
  have apart := (Multiset.nodup_add.mp once).2.2
  refine (Multiset.disjoint_left.mp apart) (Multiset.mem_singleton_self t) ?_
  rw [Multiset.mem_sum]
  exact ⟨i, Finset.mem_range.mpr inside, by rwa [tablesAt_succ used]⟩

theorem child_nodup {c : Nat} (once : (R.tables mem (n + 1) t).Nodup)
    (inside : i < R.width (n + 1)) (used : R.next (mem t i) = some c) : (R.tables mem n c).Nodup := by
  rw [tables_eq] at once
  have single := Finset.single_le_sum (f := R.tablesAt mem (n + 1) t)
    (fun i _ => Multiset.zero_le _) (Finset.mem_range.mpr inside)
  rw [tablesAt_succ used] at single
  exact Multiset.nodup_of_le single (Multiset.nodup_add.mp once).2.1

theorem children_disjoint {j c d : Nat} (once : (R.tables mem (n + 1) t).Nodup)
    (hi : i < R.width (n + 1)) (hj : j < R.width (n + 1)) (different : i ≠ j)
    (used : R.next (mem t i) = some c) (used' : R.next (mem t j) = some d) :
    Disjoint (R.tables mem n c) (R.tables mem n d) := by
  rw [tables_eq] at once
  have apart := sum_disjoint (Multiset.nodup_add.mp once).2.1 (Finset.mem_range.mpr hi)
    (Finset.mem_range.mpr hj) different
  rwa [tablesAt_succ used, tablesAt_succ used'] at apart

/-! ### One entry replaced -/

theorem number_eq : v / R.radix ^ (n + 1) * R.radix + R.index v n = v / R.radix ^ n := by
  unfold index
  rw [Nat.pow_succ, ← Nat.div_div_eq_div_mul]
  exact Nat.div_add_mod' _ _

theorem Inside.mono (inside : R.Inside v n) (le : m ≤ n) : R.Inside v m :=
  fun k below => inside k (le_trans below le)

theorem tableOf_self : R.tableOf mem v n n t = some t := by
  cases n with
  | zero => rfl
  | succ n => exact if_pos rfl

theorem tableOf_succ (le : m ≤ n) :
    R.tableOf mem v m (n + 1) t = (R.next (mem t (R.index v (n + 1)))).bind (R.tableOf mem v m n) := by
  rw [tableOf, if_neg (by omega)]
  cases R.next (mem t (R.index v (n + 1))) <;> rfl

theorem tableOf_mem (inside : R.Inside v n) (le : m ≤ n) (path : R.tableOf mem v m n t = some u) :
    u ∈ R.tables mem n t := by
  induction n generalizing t with
  | zero =>
    obtain rfl : m = 0 := by omega
    rw [tableOf_self] at path
    exact Option.some.inj path ▸ mem_tables_self
  | succ n ih =>
    rcases Nat.lt_or_ge n m with top | le
    · obtain rfl : m = n + 1 := by omega
      rw [tableOf_self] at path
      exact Option.some.inj path ▸ mem_tables_self
    · rw [tableOf_succ le] at path
      obtain ⟨c, used, path⟩ := Option.bind_eq_some_iff.mp path
      exact mem_tables_child (inside _ le_rfl) used (ih (inside.mono (Nat.le_succ n)) le path)

theorem sum_replace {s : Finset Nat} {f g : Nat → M} {k : Nat} (member : k ∈ s)
    (same : ∀ i ∈ s, i ≠ k → g i = f i) : ∑ i ∈ s, g i + f k = ∑ i ∈ s, f i + g k := by
  rw [← Finset.sum_erase_add s g member, ← Finset.sum_erase_add s f member,
    Finset.sum_congr rfl fun i inside => same i (Finset.mem_of_mem_erase inside)
      (Finset.ne_of_mem_erase inside)]
  exact add_right_comm _ _ _

/-- The entry for `v` in the table of level `m` on its path is replaced: the sum changes by what the
entry adds. -/
theorem fold_replace (node : Nat → M) (leaf : Nat → W → M) (once : (R.tables mem n t).Nodup)
    (inside : R.Inside v n) (le : m ≤ n) (path : R.tableOf mem v m n t = some u)
    (off : ∀ a i, a ≠ u ∨ i ≠ R.index v m → mem' a i = mem a i) :
    R.fold mem' node leaf n t (v / R.radix ^ (n + 1)) +
        R.slot mem node leaf m u (v / R.radix ^ (m + 1)) (R.index v m) =
      R.fold mem node leaf n t (v / R.radix ^ (n + 1)) +
        R.slot mem' node leaf m u (v / R.radix ^ (m + 1)) (R.index v m) := by
  induction n generalizing t with
  | zero =>
    obtain rfl : m = 0 := by omega
    obtain rfl : t = u := by simpa [tableOf_self] using path
    rw [fold_eq, fold_eq, add_assoc (node t), add_assoc (node t)]
    congr 1
    refine sum_replace (Finset.mem_range.mpr (inside _ le_rfl)) fun i _ different => ?_
    exact slot_congr (off t i (Or.inr different)) (by simp [tablesAt_zero])
  | succ n ih =>
    rw [fold_eq, fold_eq, add_assoc (node t), add_assoc (node t)]
    congr 1
    rcases Nat.lt_or_ge n m with top | le
    · obtain rfl : m = n + 1 := by omega
      obtain rfl : t = u := by simpa [tableOf_self] using path
      refine sum_replace (Finset.mem_range.mpr (inside _ le_rfl)) fun i member different => ?_
      have word := off t i (Or.inr different)
      cases used : R.next (mem t i) with
      | none => rw [slot_none used, slot_none (by rwa [word])]
      | some c =>
        rw [slot_succ used, slot_succ (by rwa [word])]
        refine fold_congr fun a below => ?_
        have apart : a ≠ t := fun same =>
          not_mem_child once (Finset.mem_range.mp member) used (same ▸ below)
        exact funext fun j => off a j (Or.inl apart)
    · rw [tableOf_succ le] at path
      obtain ⟨c, used, path⟩ := Option.bind_eq_some_iff.mp path
      have here := inside _ (Nat.le_refl (n + 1))
      have member := tableOf_mem (inside.mono (Nat.le_succ n)) le path
      have words : ∀ i, mem' t i = mem t i := fun i =>
        off t i (Or.inl fun same => not_mem_child once here used (same ▸ member))
      have ih := ih (child_nodup once here used) (inside.mono (Nat.le_succ n)) le path
      rw [← number_eq (n := n + 1), ← slot_succ used, ← slot_succ (by rwa [words])] at ih
      have others : ∀ i ∈ (Finset.range (R.width (n + 1))).erase (R.index v (n + 1)),
          R.slot mem' node leaf (n + 1) t (v / R.radix ^ (n + 1 + 1)) i =
            R.slot mem node leaf (n + 1) t (v / R.radix ^ (n + 1 + 1)) i := ?_
      · rw [← Finset.sum_erase_add _ _ (Finset.mem_range.mpr here), Finset.sum_congr rfl others,
          add_assoc, ih, ← add_assoc, Finset.sum_erase_add _ _ (Finset.mem_range.mpr here)]
      intro i kept
      cases used' : R.next (mem t i) with
      | none => rw [slot_none used', slot_none (by rwa [words])]
      | some d =>
        rw [slot_succ used', slot_succ (by rwa [words])]
        have apart := children_disjoint once here
          (Finset.mem_range.mp (Finset.mem_of_mem_erase kept)) (Finset.ne_of_mem_erase kept).symm
          used used'
        exact fold_congr fun a below => funext fun j =>
          off a j (Or.inl fun same => Multiset.disjoint_left.mp apart (same ▸ member) below)

theorem leaves_replace (once : (R.tables mem n t).Nodup)
    (inside : R.Inside v n) (le : m ≤ n) (path : R.tableOf mem v m n t = some u)
    (off : ∀ a i, a ≠ u ∨ i ≠ R.index v m → mem' a i = mem a i) :
    R.leaves mem' n t (v / R.radix ^ (n + 1)) +
        R.leavesAt mem m u (v / R.radix ^ (m + 1)) (R.index v m) =
      R.leaves mem n t (v / R.radix ^ (n + 1)) +
        R.leavesAt mem' m u (v / R.radix ^ (m + 1)) (R.index v m) :=
  fold_replace _ _ once inside le path off

theorem tables_replace (once : (R.tables mem n t).Nodup)
    (inside : R.Inside v n) (le : m ≤ n) (path : R.tableOf mem v m n t = some u)
    (off : ∀ a i, a ≠ u ∨ i ≠ R.index v m → mem' a i = mem a i) :
    R.tables mem' n t + R.tablesAt mem m u (R.index v m) =
      R.tables mem n t + R.tablesAt mem' m u (R.index v m) := by
  have whole := fold_replace (fun t => ({t} : Multiset Nat)) (fun _ _ => 0)
    once inside le path off
  rwa [fold_tables, fold_tables, tablesAt_eq, tablesAt_eq] at whole

theorem tableOf_down {c : Nat} (below : m < n) (path : R.tableOf mem v (m + 1) n t = some u)
    (used : R.next (mem u (R.index v (m + 1))) = some c) : R.tableOf mem v m n t = some c := by
  induction n generalizing t with
  | zero => omega
  | succ n ih =>
    rcases Nat.lt_or_ge m n with deep | top
    · rw [tableOf_succ (by omega)] at path ⊢
      obtain ⟨d, first, rest⟩ := Option.bind_eq_some_iff.mp path
      rw [first]
      exact ih deep rest
    · obtain rfl : m = n := by omega
      obtain rfl : t = u := by simpa [tableOf_self] using path
      rw [tableOf_succ le_rfl, used]
      exact tableOf_self

/-- A path only reads the tables of its tree. -/
theorem tableOf_congr (inside : R.Inside v n) (same : ∀ u ∈ R.tables mem n t, mem' u = mem u) :
    R.tableOf mem' v m n t = R.tableOf mem v m n t := by
  induction n generalizing t with
  | zero => rfl
  | succ n ih =>
    have here : mem' t (R.index v (n + 1)) = mem t (R.index v (n + 1)) := by
      rw [same t mem_tables_self]
    rw [tableOf, tableOf, here]
    by_cases top : m = n + 1
    · rw [if_pos top, if_pos top]
    · rw [if_neg top, if_neg top]
      cases used : R.next (mem t (R.index v (n + 1))) with
      | none => rfl
      | some c =>
        exact ih (inside.mono (Nat.le_succ n)) fun u member =>
          same u (mem_tables_child (inside _ le_rfl) used member)

/-- The path to a table does not read that table. -/
theorem tableOf_replace (once : (R.tables mem n t).Nodup)
    (inside : R.Inside v n) (le : m ≤ n) (path : R.tableOf mem v m n t = some u)
    (off : ∀ a i, a ≠ u ∨ i ≠ R.index v m → mem' a i = mem a i) :
    R.tableOf mem' v m n t = some u := by
  induction n generalizing t with
  | zero =>
    obtain rfl : m = 0 := by omega
    simpa [tableOf_self] using path
  | succ n ih =>
    rcases Nat.lt_or_ge n m with top | le
    · obtain rfl : m = n + 1 := by omega
      simpa [tableOf_self] using path
    · rw [tableOf_succ le] at path ⊢
      obtain ⟨c, used, path⟩ := Option.bind_eq_some_iff.mp path
      have here := inside _ (Nat.le_refl (n + 1))
      have member := tableOf_mem (inside.mono (Nat.le_succ n)) le path
      rw [off t _ (Or.inl fun same => not_mem_child once here used (same ▸ member)), used]
      exact ih (child_nodup once here used) (inside.mono (Nat.le_succ n)) le path

theorem tables_unused (unused : ∀ i, i < R.width n → R.next (mem t i) = none) :
    R.tables mem n t = {t} := by
  rw [tables_eq, Finset.sum_eq_zero fun i member => tablesAt_none (unused i (Finset.mem_range.mp member)),
    add_zero]

theorem leaves_unused (unused : ∀ i, i < R.width n → R.next (mem t i) = none) :
    R.leaves mem n t p = 0 := by
  rw [leaves_eq, Finset.sum_eq_zero fun i member => leavesAt_none (unused i (Finset.mem_range.mp member))]

/-! ### Leaves and walks -/

theorem leaves_zero : (v, w) ∈ R.leaves mem 0 t p ↔
    ∃ i, i < R.width 0 ∧ v = p * R.radix + i ∧ (R.next (mem t i)).isSome ∧ w = mem t i := by
  unfold leaves
  rw [fold_eq, zero_add, Multiset.mem_sum]
  constructor
  · rintro ⟨i, member, slot⟩
    cases used : R.next (mem t i) with
    | none => simp [slot_none used] at slot
    | some c =>
      rw [slot_zero used, Multiset.mem_singleton, Prod.mk.injEq] at slot
      exact ⟨i, Finset.mem_range.mp member, slot.1, by simp [used], slot.2⟩
  · rintro ⟨i, member, rfl, used, rfl⟩
    obtain ⟨c, used⟩ := Option.isSome_iff_exists.mp used
    exact ⟨i, Finset.mem_range.mpr member, by simp [slot_zero used]⟩

theorem leaves_succ : (v, w) ∈ R.leaves mem (n + 1) t p ↔
    ∃ i c, i < R.width (n + 1) ∧ R.next (mem t i) = some c ∧
      (v, w) ∈ R.leaves mem n c (p * R.radix + i) := by
  unfold leaves
  rw [fold_eq, zero_add, Multiset.mem_sum]
  constructor
  · rintro ⟨i, member, slot⟩
    cases used : R.next (mem t i) with
    | none => simp [slot_none used] at slot
    | some c =>
      rw [slot_succ used] at slot
      exact ⟨i, c, Finset.mem_range.mp member, used, slot⟩
  · rintro ⟨i, c, member, used, slot⟩
    exact ⟨i, Finset.mem_range.mpr member, by rwa [slot_succ used]⟩

theorem split_number (below : i < R.radix) (number : v / R.radix ^ n = p * R.radix + i) :
    v / R.radix ^ (n + 1) = p ∧ R.index v n = i := by
  unfold index
  rw [Nat.pow_succ, ← Nat.div_div_eq_div_mul, number, Nat.mul_comm p]
  exact ⟨by rw [Nat.mul_add_div (by omega), Nat.div_eq_of_lt below, Nat.add_zero],
    by rw [Nat.mul_add_mod, Nat.mod_eq_of_lt below]⟩

theorem inside_succ : R.Inside v (n + 1) ↔ R.Inside v n ∧ R.index v (n + 1) < R.width (n + 1) := by
  constructor
  · exact fun inside => ⟨inside.mono (Nat.le_succ n), inside _ le_rfl⟩
  · rintro ⟨inside, last⟩ k below
    rcases Nat.lt_or_ge n k with top | le
    · obtain rfl : k = n + 1 := by omega
      exact last
    · exact inside k le

/-- The leaves are what walks end at. -/
theorem mem_leaves : (v, w) ∈ R.leaves mem n t p ↔
    v / R.radix ^ (n + 1) = p ∧ R.Inside v n ∧ R.walk mem v n t = some w := by
  induction n generalizing t p with
  | zero =>
    rw [leaves_zero]
    constructor
    · rintro ⟨i, member, number, used, rfl⟩
      rw [← Nat.div_one v, ← Nat.pow_zero R.radix] at number
      obtain ⟨high, rfl⟩ := split_number (lt_of_lt_of_le member (R.narrow 0)) number
      obtain ⟨c, used⟩ := Option.isSome_iff_exists.mp used
      refine ⟨high, fun k below => ?_, by rw [walk, used]⟩
      obtain rfl := Nat.le_zero.mp below
      exact member
    · rintro ⟨rfl, inside, found⟩
      rw [walk] at found
      split at found
      · cases found
      · rename_i c used
        refine ⟨R.index v 0, inside 0 le_rfl, ?_, by simp [used], (Option.some.inj found).symm⟩
        rw [number_eq (n := 0), Nat.pow_zero, Nat.div_one]
  | succ n ih =>
    rw [leaves_succ]
    constructor
    · rintro ⟨i, c, member, used, deep⟩
      obtain ⟨number, inside, found⟩ := ih.mp deep
      obtain ⟨high, rfl⟩ := split_number (lt_of_lt_of_le member (R.narrow _)) number
      exact ⟨high, inside_succ.mpr ⟨inside, member⟩, by rw [walk, used]; exact found⟩
    · rintro ⟨rfl, inside, found⟩
      rw [walk] at found
      split at found
      · cases found
      · rename_i c used
        refine ⟨R.index v (n + 1), c, inside _ le_rfl, used, ih.mpr ⟨?_, ?_, found⟩⟩
        · rw [number_eq]
        · exact inside.mono (Nat.le_succ n)

/-- A walk is the path to a table of level 0 and the entry there. -/
theorem walk_eq : R.walk mem v n t = (R.tableOf mem v 0 n t).bind fun u =>
    (R.next (mem u (R.index v 0))).map fun _ => mem u (R.index v 0) := by
  induction n generalizing t with
  | zero =>
    rw [walk, tableOf_self, Option.bind_some]
    cases R.next (mem t (R.index v 0)) <;> rfl
  | succ n ih =>
    rw [walk, tableOf_succ (Nat.zero_le n)]
    cases R.next (mem t (R.index v (n + 1))) with
    | none => rfl
    | some c => exact ih

attribute [irreducible] tables leaves tablesAt leavesAt tableOf walk

end Radix

end Landaux.Lib
