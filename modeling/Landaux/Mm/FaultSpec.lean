import Landaux.Mm.CloneSpec

/-!
# What `find_user_pte` does

The walk down from a directory allocates the tables that are missing on the path. No leaf comes or
goes, and every other table keeps its entries.
-/

namespace Landaux
open Lib Radix

/-- `s'` is `s` with the path of page `v` complete: it ends at `table`, and `fresh` are the tables
allocated for it. -/
structure Found (s : State) (root v : Nat) (fresh : Multiset Nat) (table : Nat) (s' : State) :
    Prop where
  cloned : Cloned s (pageTables.tables s.ram 3 root) fresh 0 s'
  tables : pageTables.tables s'.ram 3 root = pageTables.tables s.ram 3 root + fresh
  leaves : pageTables.leaves s'.ram 3 root 0 = pageTables.leaves s.ram 3 root 0
  path : pageTables.tableOf s'.ram v 0 3 root = some table

/-- A tree whose tables are in use, each of them once. -/
structure Tree (s : State) (root : Nat) : Prop where
  once : (pageTables.tables s.ram 3 root).Nodup
  busy : ∀ u ∈ pageTables.tables s.ram 3 root, s.Busy u

/-- The stores that make an empty table out of page `new` and enter it. -/
def State.plant (s : State) (table i new : Nat) : State :=
  (s.zeroPage new).setWord table i
    (Pte.setFlags (Pte.setFrame 0 new) (PTE_PRESENT ||| PTE_WRITE ||| PTE_USER))

variable {s s' t : State} {root v table new n i : Nat} {fresh fresh' : Multiset Nat}

theorem zeroPage_words {u j : Nat} : (s.zeroPage new).ram u j = if u = new then 0 else s.ram u j := rfl

theorem setWord_words {e : Word} {u j : Nat} :
    (s.setWord table i e).ram u j = if u = table ∧ j = i then e else s.ram u j := rfl

theorem next_plant (small : new < 2 ^ 40) : pageTables.next
    (Pte.setFlags (Pte.setFrame 0 new) (PTE_PRESENT ||| PTE_WRITE ||| PTE_USER)) = some new := by
  refine next_eq_some.mpr ⟨?_, ?_⟩
  · rw [Pte.present_setFlags]
    decide
  · rw [Pte.frame_setFlags, Pte.frame_setFrame small]

namespace Found

theorem refl (ready : Ready s) (path : pageTables.tableOf s.ram v 0 3 root = some table) :
    Found s root v 0 table s :=
  ⟨(Cloned.refl ready).mono (by simp), by rw [add_zero], rfl, path⟩

/-- A walk after a table has been added. -/
theorem trans (ready : Ready s) (first : Cloned s (pageTables.tables s.ram 3 root) fresh 0 t)
    (tables : pageTables.tables t.ram 3 root = pageTables.tables s.ram 3 root + fresh)
    (leaves : pageTables.leaves t.ram 3 root 0 = pageTables.leaves s.ram 3 root 0)
    (rest : Found t root v fresh' table s') : Found s root v (fresh + fresh') table s' := by
  refine ⟨?_, ?_, ?_, rest.path⟩
  · have whole := first.trans rest.cloned ready.nonneg
    rw [add_zero, tables] at whole
    refine whole.mono fun f member => ?_
    simp only [Multiset.mem_add] at member ⊢
    tauto
  · rw [rest.tables, tables, add_assoc]
  · rw [rest.leaves, leaves]

end Found

/-- An empty table is added at the end of a path. -/
structure Planted (s : State) (root v n new : Nat) (s' : State) : Prop where
  cloned : Cloned s (pageTables.tables s.ram 3 root) {new} 0 s'
  tables : pageTables.tables s'.ram 3 root = pageTables.tables s.ram 3 root + {new}
  leaves : pageTables.leaves s'.ram 3 root 0 = pageTables.leaves s.ram 3 root 0
  path : pageTables.tableOf s'.ram v n 3 root = some new

theorem plant_spec (tree : Tree s root) (ready : Ready s) (lower : v < 2 ^ 35) (below : n < 3)
    (path : pageTables.tableOf s.ram v (n + 1) 3 root = some table)
    (unused : pageTables.next (s.ram table (pageTables.index v (n + 1))) = none)
    (taken : Taken s new t) :
    Planted s root v n new (t.plant table (pageTables.index v (n + 1)) new) := by
  have inside := inside_lower lower
  have member := tableOf_mem inside below path
  have notNew : ∀ u ∈ pageTables.tables s.ram 3 root, u ≠ new :=
    fun u inTree same => taken.fresh (same ▸ tree.busy u inTree)
  have apart := notNew table member
  -- first the new table alone, which is not in the tree yet
  have midSame : ∀ u ∈ pageTables.tables s.ram 3 root, (t.zeroPage new).ram u = s.ram u :=
    fun u inTree => funext fun j => by rw [zeroPage_words, if_neg (notNew u inTree), taken.ram]
  have midOnce : (pageTables.tables (t.zeroPage new).ram 3 root).Nodup := by
    rw [tables_congr midSame]
    exact tree.once
  have midPath := (tableOf_congr inside midSame).trans path
  have midUnused : pageTables.next
      ((t.zeroPage new).ram table (pageTables.index v (n + 1))) = none := by
    rwa [midSame table member]
  -- then the entry that names it
  have off : ∀ u j, u ≠ table ∨ j ≠ pageTables.index v (n + 1) →
      (t.plant table (pageTables.index v (n + 1)) new).ram u j = (t.zeroPage new).ram u j :=
    fun u j other => by rw [State.plant, setWord_words, if_neg (by tauto)]
  have used : pageTables.next ((t.plant table (pageTables.index v (n + 1)) new).ram table
      (pageTables.index v (n + 1))) = some new := by
    rw [State.plant, setWord_words, if_pos ⟨rfl, rfl⟩]
    exact next_plant (by have := taken.small; omega)
  have empty : ∀ j, pageTables.next
      ((t.plant table (pageTables.index v (n + 1)) new).ram new j) = none := fun j => by
    rw [off new j (Or.inl apart.symm), zeroPage_words, if_pos rfl]
    exact next_eq_none.mpr Pte.present_zero
  have planted : Cloned t ({table} + {new}) 0 0 (t.plant table (pageTables.index v (n + 1)) new) := by
    refine .of_ram taken.ready rfl fun u untouched => funext fun j => ?_
    simp only [Multiset.mem_add, Multiset.mem_singleton, not_or] at untouched
    rw [off u j (Or.inl untouched.1), zeroPage_words, if_neg untouched.2]
  have whole := (Cloned.of_taken taken).trans planted ready.nonneg
  have tables := tables_replace midOnce inside (by omega) midPath off
  have leaves := leaves_replace midOnce inside (by omega) midPath off
  have newPath := tableOf_replace midOnce inside (by omega) midPath off
  rw [tablesAt_none midUnused, tablesAt_succ used, tables_unused fun j _ => empty j,
    tables_congr midSame, add_zero] at tables
  rw [leavesAt_none midUnused, leavesAt_succ used, leaves_unused fun j _ => empty j,
    leaves_congr midSame, add_zero, add_zero, lower_number lower] at leaves
  refine ⟨?_, tables, leaves, tableOf_down (by omega) newPath used⟩
  rw [zero_add, add_zero, add_zero] at whole
  refine whole.mono fun u touched => ?_
  rcases Multiset.mem_add.mp touched with isTable | isNew
  · exact Or.inl (Multiset.mem_singleton.mp isTable ▸ member)
  · exact Or.inr isNew

/-! ### How many tables are missing -/

/-- The tables that the walk for page `v` from a table of level `n` has to allocate. -/
def missingTables (ram : Memory Word) (v : Nat) : Nat → Nat → Nat
  | 0, _ => 0
  | n + 1, table =>
    if Pte.present (ram table (v / 512 ^ (n + 1) % 512)) then
      missingTables ram v n (Pte.frame (ram table (v / 512 ^ (n + 1) % 512)))
    else n + 1

theorem missingTables_le {ram : Memory Word} : missingTables ram v n table ≤ n := by
  induction n generalizing table with
  | zero => exact le_rfl
  | succ n ih =>
    rw [missingTables]
    split
    · exact Nat.le_succ_of_le ih
    · exact le_rfl

/-- Below an empty table every one is missing. -/
theorem missingTables_empty {ram : Memory Word} (empty : ∀ j, ram table j = 0) :
    missingTables ram v n table = n := by
  cases n with
  | zero => rfl
  | succ n =>
    rw [missingTables, empty, Pte.present_zero]
    exact if_neg Bool.false_ne_true

theorem plant_words (apart : table ≠ new) (j : Nat) : (s.plant table i new).ram new j = 0 := by
  rw [State.plant, setWord_words, if_neg fun both => apart both.1.symm]
  exact zeroPage_words.trans (if_pos rfl)

theorem findUserPte_spec (n : Nat) (atMost : n ≤ 3) (lower : v < 2 ^ 35) : ∀ table s,
    Ready s → Tree s root → pageTables.tableOf s.ram v n 3 root = some table →
    Ends (findUserPte v n table s)
      (fun r => ∃ fresh, Found s root v fresh r.1 r.2 ∧
        fresh.card = missingTables s.ram v n table ∧
        s.room = r.2.room + missingTables s.ram v n table ∧ (fresh = 0 → r.2 = s))
      (fun e => e = .noMemory ∧ s.room < missingTables s.ram v n table) := by
  induction n with
  | zero => exact fun table s ready _ path => ⟨0, .refl ready path, rfl, rfl, fun _ => rfl⟩
  | succ n ih =>
    intro table s ready tree path
    rw [findUserPte, missingTables]
    change Ends (if Pte.present (s.ram table (pageTables.index v (n + 1))) = true then _ else _) _ _
    by_cases present : Pte.present (s.ram table (pageTables.index v (n + 1))) = true
    · have down := tableOf_down (by omega) path (next_eq_some.mpr ⟨present, rfl⟩)
      rw [if_pos present]
      simp only [if_pos (show Pte.present (s.ram table (v / 512 ^ (n + 1) % 512)) = true from present)]
      exact ih (by omega) _ s ready tree down
    · rw [if_neg present]
      simp only [if_neg (show ¬ Pte.present (s.ram table (v / 512 ^ (n + 1) % 512)) = true from present)]
      refine Ends.bind ((allocPage_spec ready).mono (fun _ h => h) fun _ never => never.elim) ?_
      rintro ⟨new, t⟩ (⟨rfl, -, full⟩ | ⟨nonzero, taken⟩)
      · exact ⟨rfl, by omega⟩
      dsimp only at nonzero taken ⊢
      rw [if_neg nonzero]
      change Ends (findUserPte v n new (t.plant table (pageTables.index v (n + 1)) new)) _ _
      have planted := plant_spec tree ready lower (by omega) path
        (by simpa [next_eq_none] using present) taken
      have apart : table ≠ new := by
        rintro rfl
        exact taken.fresh (tree.busy _ (tableOf_mem (inside_lower lower) (by omega) path))
      have empty := plant_words (s := t) (i := pageTables.index v (n + 1)) apart
      have room : s.room = (t.plant table (pageTables.index v (n + 1)) new).room + 1 := taken.room
      generalize t.plant table (pageTables.index v (n + 1)) new = s' at planted empty room ⊢
      have below : missingTables s'.ram v n new = n := missingTables_empty empty
      refine (ih (by omega) new s' planted.cloned.ready ?_ planted.path).mono ?_
        fun e ⟨why, short⟩ => ⟨why, by omega⟩
      · refine ⟨?_, fun u member => ?_⟩
        · rw [planted.tables, Multiset.nodup_add]
          refine ⟨tree.once, Multiset.nodup_singleton new, Multiset.disjoint_left.mpr ?_⟩
          intro u inTree isNew
          rw [Multiset.mem_singleton.mp isNew] at inTree
          exact taken.fresh (tree.busy new inTree)
        · rw [planted.tables] at member
          rcases Multiset.mem_add.mp member with inTree | isNew
          · exact planted.cloned.busy (tree.busy u inTree)
          · exact planted.cloned.fresh_busy isNew (ready.nonneg u)
      · rintro ⟨last, s''⟩ ⟨fresh, found, few, left, -⟩
        dsimp only at left
        refine ⟨_, found.trans ready planted.cloned planted.tables planted.leaves, ?_, ?_, ?_⟩
        · rw [Multiset.card_add, Multiset.card_singleton]
          omega
        · dsimp only
          omega
        · intro none
          have card := congrArg Multiset.card none
          simp at card

end Landaux
