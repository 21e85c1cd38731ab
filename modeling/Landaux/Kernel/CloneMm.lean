import Landaux.Kernel.Faults

/-!
# What `clone_mm` makes of a directory
-/

namespace Landaux
open Lib Radix

variable {dir : Nat} {s s' : State} {fresh : Multiset Nat}

/-- The running process has a twin on directory `dir`, and both have lost their write access. -/
structure Duplicate (s : State) (dir : Nat) (fresh : Multiset Nat) (s' : State) : Prop where
  cloned : Cloned s (s.current.tables s.ram) ({dir} + fresh) (s.current.leaves s.ram) s'
  oldTables : pageTables.tables s'.ram 3 s.current.pageDir = s.current.tables s.ram
  newTables : pageTables.tables s'.ram 3 dir = {dir} + fresh
  oldLeaves : pageTables.leaves s'.ram 3 s.current.pageDir 0 = (s.current.leaves s.ram).map cow
  newLeaves : pageTables.leaves s'.ram 3 dir 0 = (s.current.leaves s.ram).map cow

/-- The directory of the parent is as it was, and the upper halves of both are equal. -/
structure SameUpper (s : State) (dir : Nat) (s' : State) : Prop where
  parent : s'.ram s.current.pageDir = s.ram s.current.pageDir
  child : ∀ i, 256 ≤ i → s'.ram dir i = s.ram s.current.pageDir i

theorem Holds.source {static : Nat} {extra : Multiset Nat} (h : Holds static extra s) :
    Source s 3 s.current.pageDir 0 :=
  have tree := h.tree Holds.current_mem
  ⟨tree.once, tree.busy, fun _ member => h.counted (Holds.frames_mapped Holds.current_mem member)⟩

theorem cloneMm_copies (ready : Ready s) (tree : Source s 3 s.current.pageDir 0) : Ends (cloneMm s)
    (fun r => (r = (none, s) ∧ s.room = 0) ∨ ∃ dir fresh, r.1 = some (dir, s.current.areas) ∧
      Duplicate s dir fresh r.2 ∧ SameUpper s dir r.2)
    (fun e => e = .noMemory ∧ s.room < (s.current.tables s.ram).card) := by
  unfold cloneMm
  dsimp only
  refine Ends.bind ((allocPage_spec ready).mono (fun _ h => h) fun _ never => never.elim) ?_
  rintro ⟨dir, t⟩ (⟨rfl, same, full⟩ | ⟨nonzero, taken⟩)
  · rw [if_pos rfl]
    exact Or.inl ⟨congrArg _ same, full⟩
  dsimp only at nonzero taken ⊢
  rw [if_neg nonzero]
  have notDir : ∀ u, s.Busy u → u ≠ dir := fun u busy same => taken.fresh (same ▸ busy)
  have inTree : ∀ u ∈ s.current.tables s.ram, (t.copyPage dir s.current.pageDir).ram u = s.ram u :=
    fun u member => by rw [copyPage_words, if_neg (notDir u (tree.busy u member)), taken.ram]
  have copied : Cloned t {dir} 0 0 (t.copyPage dir s.current.pageDir) :=
    .of_ram taken.ready rfl fun u other => if_neg (by simpa using other)
  have upTo := (Cloned.of_taken taken).trans copied ready.nonneg
  rw [zero_add, add_zero, add_zero] at upTo
  have filled : (t.copyPage dir s.current.pageDir).ram dir =
      (t.copyPage dir s.current.pageDir).ram s.current.pageDir := by
    rw [copyPage_words, if_pos rfl, copyPage_words,
      if_neg (notDir _ (tree.busy _ mem_tables_self))]
  generalize t.copyPage dir s.current.pageDir = s₁ at *
  have tables : pageTables.tables s₁.ram 3 s.current.pageDir = s.current.tables s.ram :=
    tables_congr inTree
  have leaves : pageTables.leaves s₁.ram 3 s.current.pageDir 0 = s.current.leaves s.ram :=
    leaves_congr inTree
  have source : Source s₁ 3 s.current.pageDir 0 := by
    refine ⟨?_, fun u member => ?_, fun f member => ?_⟩
    · rw [tables]
      exact tree.once
    · rw [tables] at member
      exact upTo.busy (tree.busy u member)
    · rw [leaves] at member
      have counted := tree.counted f member
      have now := upTo.cnt f
      omega
  have notOld : dir ∉ pageTables.tables s₁.ram 3 s.current.pageDir := by
    rw [tables]
    exact fun member => notDir dir (tree.busy dir member) rfl
  have walk := cloneL4_turns upTo.ready source notOld
    (upTo.fresh_busy (Multiset.mem_singleton_self dir) (ready.nonneg dir)) filled
  refine Ends.bind (walk.mono (fun _ h => h) fun e ⟨why, short⟩ => ⟨why, ?_⟩) ?_
  · have room := upTo.room
    rw [tables] at short
    rw [Multiset.card_singleton] at room
    omega
  · rintro s₂ ⟨fresh, last⟩
    have parent := last.oldSame source notOld (by rw [width_top])
    have child := last.newWords
    rw [← width_top] at last
    obtain ⟨cloned, -⟩ := last.whole
    obtain ⟨oldLeaves, newLeaves, oldTables, newTables⟩ := twins_whole last.twins
    have dirSame := inTree _ mem_tables_self
    rw [leaves] at cloned oldLeaves newLeaves
    rw [tables] at cloned oldTables
    have whole := upTo.trans cloned ready.nonneg
    rw [zero_add] at whole
    refine Or.inr ⟨dir, fresh, congrArg some (Prod.ext rfl ?_), ⟨whole.mono fun u touched => ?_,
      oldTables, newTables, oldLeaves, newLeaves⟩, parent.trans dirSame, fun i upper => ?_⟩
    · exact congrArg Task.areas cloned.same.current |>.trans (congrArg Task.areas upTo.same.current)
    · simp only [Multiset.mem_add] at touched ⊢
      tauto
    · rw [child i upper, dirSame]

end Landaux
