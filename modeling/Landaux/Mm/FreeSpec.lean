import Landaux.Mm.CloneSpec

/-!
# What `free_mm` does

The walk only reads the tables. Each entry gives one reference back, so a subtree can be freed when
its tables and leaves account for no more than the counts are.
-/

namespace Landaux
open Lib Radix

abbrev inner (ram : Memory Word) (n t : Nat) : Multiset Nat :=
  ∑ i ∈ Finset.range (pageTables.width n), pageTables.tablesAt ram n t i

structure Freed (s : State) (tables : Multiset Nat) (leaves : Multiset (Nat × Word)) (s' : State) :
    Prop where
  ready : Ready s'
  same : SameTasks s s'
  ram : s'.ram = s.ram
  tlb : s'.tlb = s.tlb
  cnt : ∀ u, s'.cnt u + tables.count u + (frames leaves).count u = s.cnt u
  room : s.room ≤ s'.room

/-- The counts cover these tables and leaves, and the tables are referred to once. -/
structure Owed (s : State) (tables : Multiset Nat) (leaves : Multiset (Nat × Word)) : Prop where
  le : ∀ u, (tables.count u + (frames leaves).count u : Int) ≤ s.cnt u
  single : ∀ u ∈ tables, s.cnt u = 1

variable {s s' t u : State} {tables tables' : Multiset Nat} {leaves leaves' : Multiset (Nat × Word)}

namespace Freed

theorem refl (ready : Ready s) : Freed s 0 0 s :=
  ⟨ready, .refl s, rfl, rfl, by simp [frames], le_rfl⟩

theorem trans (h : Freed s tables leaves t) (k : Freed t tables' leaves' u) :
    Freed s (tables + tables') (leaves + leaves') u := by
  refine ⟨k.ready, h.same.trans k.same, k.ram.trans h.ram, k.tlb.trans h.tlb, fun f => ?_,
    h.room.trans k.room⟩
  have first := h.cnt f
  have second := k.cnt f
  rw [frames_add, Multiset.count_add, Multiset.count_add]
  push_cast
  omega

/-- One count less, for a table. -/
theorem of_table {f : Nat} (h : Counted s f (-1) t) : Freed s {f} 0 t := by
  refine ⟨h.ready, h.same, h.ram, h.tlb, fun g => ?_, h.room⟩
  rw [h.cnt, Multiset.count_singleton]
  split <;> simp [frames]

/-- One count less, for a leaf. -/
theorem of_leaf {v : Nat} {e : Word} (h : Counted s (Pte.frame e) (-1) t) : Freed s 0 {(v, e)} t := by
  refine ⟨h.ready, h.same, h.ram, h.tlb, fun g => ?_, h.room⟩
  rw [h.cnt, frames, Multiset.map_singleton, Multiset.count_singleton]
  split <;> simp

end Freed

/-- What is owed besides the part freed so far. -/
theorem Owed.rest (owed : Owed s (tables + tables') (leaves + leaves'))
    (freed : Freed s tables leaves s') : Owed s' tables' leaves' := by
  have covered : ∀ f, (tables'.count f + (frames leaves').count f : Int) ≤ s'.cnt f := by
    intro f
    have le := owed.le f
    have cnt := freed.cnt f
    rw [frames_add, Multiset.count_add, Multiset.count_add] at le
    push_cast at le
    omega
  refine ⟨covered, fun f member => ?_⟩
  have one := owed.single f (Multiset.mem_add.mpr (Or.inr member))
  have le := covered f
  have cnt := freed.cnt f
  have positive := Multiset.count_pos.mpr member
  omega

theorem Owed.part (owed : Owed s (tables + tables') (leaves + leaves')) : Owed s tables leaves := by
  refine ⟨fun f => ?_, fun f member => owed.single f (Multiset.mem_add.mpr (Or.inl member))⟩
  have le := owed.le f
  rw [frames_add, Multiset.count_add, Multiset.count_add] at le
  push_cast at le
  omega

/-- A release of level `n` gives back what is below the table, and never stops. -/
def FreeSpec (n : Nat) (f : Nat → State → Except Stop State) : Prop :=
  ∀ t p s, Ready s → Owed s (inner s.ram n t) (pageTables.leaves s.ram n t p) →
    Ends (f t s) (Freed s (inner s.ram n t) (pageTables.leaves s.ram n t p)) (fun _ => False)

/-- A loop over the entries of a table before turn `i`. -/
abbrev FreeTurn (s : State) (n t p i : Nat) (s' : State) : Prop :=
  Freed s (∑ j ∈ Finset.range i, pageTables.tablesAt s.ram n t j)
    (∑ j ∈ Finset.range i, pageTables.leavesAt s.ram n t p j) s'

/-- What entry `i` owes when the loop comes to it. -/
theorem FreeTurn.owed {n t p i : Nat} (inside : i < pageTables.width n)
    (owed : Owed s (inner s.ram n t) (pageTables.leaves s.ram n t p)) (before : FreeTurn s n t p i s') :
    Owed s' (pageTables.tablesAt s.ram n t i) (pageTables.leavesAt s.ram n t p i) := by
  have split : ∀ {α : Type} (f : Nat → Multiset α), ∃ more,
      ∑ j ∈ Finset.range (pageTables.width n), f j = ∑ j ∈ Finset.range i, f j + f i + more := by
    intro α f
    have le : ∑ j ∈ Finset.range (i + 1), f j ≤ ∑ j ∈ Finset.range (pageTables.width n), f j :=
      Finset.sum_le_sum_of_subset (Finset.range_mono inside)
    rw [Finset.sum_range_succ] at le
    obtain ⟨more, eq⟩ := Multiset.le_iff_exists_add.mp le
    exact ⟨more, eq⟩
  obtain ⟨moreTables, eq⟩ := split (pageTables.tablesAt s.ram n t)
  obtain ⟨moreLeaves, eq'⟩ := split (pageTables.leavesAt s.ram n t p)
  rw [inner, eq, leaves_eq, eq'] at owed
  exact owed.part.rest before

theorem FreeTurn.succ {n t p i : Nat} (before : FreeTurn s n t p i s')
    (here : Freed s' (pageTables.tablesAt s.ram n t i) (pageTables.leavesAt s.ram n t p i) u) :
    FreeTurn s n t p (i + 1) u := by
  unfold FreeTurn
  rw [Finset.sum_range_succ, Finset.sum_range_succ]
  exact before.trans here

theorem FreeTurn.skip {n t p i : Nat} (before : FreeTurn s n t p i s')
    (unused : pageTables.next (s.ram t i) = none) : FreeTurn s n t p (i + 1) s' := by
  refine before.succ ?_
  rw [tablesAt_none unused, leavesAt_none unused]
  exact .refl before.ready

theorem freeLeaf_spec {table p i : Nat} (inside : i < pageTables.width 0)
    (owed : Owed s (inner s.ram 0 table) (pageTables.leaves s.ram 0 table p))
    (before : FreeTurn s 0 table p i s') :
    Ends (freeLeaf table i s') (FreeTurn s 0 table p (i + 1)) (fun _ => False) := by
  have owes := FreeTurn.owed inside owed before
  have ready := before.ready
  unfold freeLeaf
  rw [before.ram]
  by_cases present : Pte.present (s.ram table i) = true
  · have used := next_eq_some.mpr ⟨present, rfl⟩
    have done : ∀ s'', Counted s' (Pte.frame (s.ram table i)) (-1) s'' →
        FreeTurn s 0 table p (i + 1) s'' := by
      intro s'' counted
      refine before.succ ?_
      rw [tablesAt_zero, leavesAt_zero used]
      exact .of_leaf counted
    rw [leavesAt_zero used] at owes
    have positive := owes.le (Pte.frame (s.ram table i))
    rw [frames, Multiset.map_singleton, Multiset.count_singleton_self] at positive
    rw [if_neg (by simp [present])]
    dsimp only
    rw [ready.count_eq (by omega)]
    dsimp only
    rw [if_neg (by omega)]
    by_cases last : s'.cnt (Pte.frame (s.ram table i)) = 1
    · rw [if_pos last]
      exact (freePage_spec ready last).mono done fun _ never => never
    · rw [if_neg last]
      exact done _ (addCount_spec _ ready (by omega) (by omega))
  · rw [if_pos (by simpa using present)]
    exact before.skip (by simpa [next_eq_none] using present)

theorem freeL1_spec : FreeSpec 0 freeL1 := by
  intro table p s ready owed
  have loop := Ends.turns (FreeTurn s 0 table p) (Freed.refl ready) (pageTables.width 0)
    fun i s' inside before => freeLeaf_spec inside owed before
  rw [width_low (by decide)] at loop
  refine loop.mono (fun s' last => ?_) fun _ never => never
  rw [inner, leaves_eq, width_low (by decide)]
  exact last

theorem freeEntry_spec {n table p i : Nat} {child : Nat → State → Except Stop State}
    (spec : FreeSpec n child) (inside : i < pageTables.width (n + 1))
    (owed : Owed s (inner s.ram (n + 1) table) (pageTables.leaves s.ram (n + 1) table p))
    (before : FreeTurn s (n + 1) table p i s') :
    Ends (freeEntry child table i s') (FreeTurn s (n + 1) table p (i + 1)) (fun _ => False) := by
  have owes := FreeTurn.owed inside owed before
  unfold freeEntry
  rw [before.ram]
  by_cases present : Pte.present (s.ram table i) = true
  · have used := next_eq_some.mpr ⟨present, rfl⟩
    rw [if_neg (by simp [present])]
    dsimp only
    generalize Pte.frame (s.ram table i) = below at used ⊢
    -- the table itself is owed last
    have parts : Owed s' (inner s.ram n below + {below})
        (pageTables.leaves s.ram n below (p * 512 + i) + 0) := by
      rw [add_zero, add_comm, ← tables_eq]
      rwa [tablesAt_succ used, leavesAt_succ used] at owes
    have walk := spec below (p * 512 + i) s' before.ready
    rw [before.ram] at walk
    refine (walk parts.part).bind fun s₁ freed => ?_
    have last := (parts.rest freed).single below (Multiset.mem_singleton_self below)
    refine (freePage_spec freed.ready last).mono (fun s₂ counted => before.succ ?_)
      fun _ never => never
    have both := freed.trans (Freed.of_table counted)
    rw [add_zero, add_comm, ← tables_eq] at both
    rwa [tablesAt_succ used, leavesAt_succ used]
  · rw [if_pos (by simpa using present)]
    exact before.skip (by simpa [next_eq_none] using present)

theorem freeLoop_spec {n : Nat} {child : Nat → State → Except Stop State} (spec : FreeSpec n child) :
    FreeSpec (n + 1) fun table => turns (freeEntry child table) (pageTables.width (n + 1)) := by
  intro table p s ready owed
  have loop := Ends.turns (FreeTurn s (n + 1) table p) (Freed.refl ready) (pageTables.width (n + 1))
    fun i s' inside before => freeEntry_spec spec inside owed before
  refine loop.mono (fun s' last => ?_) fun _ never => never
  rw [leaves_eq]
  exact last

theorem freeL2_spec : FreeSpec 1 freeL2 := by
  have loop := freeLoop_spec freeL1_spec
  rwa [width_low (by decide)] at loop

theorem freeL3_spec : FreeSpec 2 freeL3 := by
  have loop := freeLoop_spec freeL2_spec
  rwa [width_low (by decide)] at loop

/-- The loop of `free_mm` over the lower half of a directory. -/
theorem freeL4_spec : FreeSpec 3 fun table => turns (freeEntry freeL3 table) 256 := by
  have loop := freeLoop_spec freeL3_spec
  rwa [width_top] at loop

end Landaux
