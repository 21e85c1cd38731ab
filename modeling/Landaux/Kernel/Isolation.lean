import Landaux.Kernel.Accesses

/-!
# What one process does to the memory of another

Stores of user code go to frames that nothing else maps. Stores of the kernel to a buffer of its
caller do not ask for the write bit, and reach a frame that `sys_fork` has left to two processes.
-/

namespace Landaux
open Lib Radix

variable {static v i : Nat} {extra : Multiset Nat} {s t : State} {e : Event} {events : List Event}
  {p : Task} {entry w : Word}

/-- What process `p` reads at word `i` of page `v`. -/
def State.reads (s : State) (p : Task) (v i : Nat) : Option Word :=
  (pageTables.walk s.ram v 3 p.pageDir).map fun e => s.ram (Pte.frame e) i

/-- A step of the running process leaves to the others what they read. -/
def Isolated (s t : State) : Prop :=
  ∀ p ∈ s.others, p.pageDir ≠ s.current.pageDir → ∀ v i w, v < 2 ^ 35 → s.reads p v i = some w →
    t.reads p v i = some w

theorem reads_leaf (leaf : (v, entry) ∈ p.leaves s.ram) :
    s.reads p v i = some (s.ram (Pte.frame entry) i) := by
  unfold State.reads
  rw [(mem_task_leaves.mp leaf).2]
  rfl

theorem reads_some (lower : v < 2 ^ 35) (read : s.reads p v i = some w) :
    ∃ e, (v, e) ∈ p.leaves s.ram ∧ s.ram (Pte.frame e) i = w := by
  obtain ⟨e, found, word⟩ := Option.map_eq_some_iff.mp read
  exact ⟨e, mem_task_leaves.mpr ⟨lower, found⟩, word⟩

theorem Untouched.isolated (untouched : Untouched s t) : Isolated s t := by
  intro p member _ v i w lower read
  obtain ⟨e, leaf, rfl⟩ := reads_some lower read
  have tables : p.leaves t.ram = p.leaves s.ram := by
    apply Task.leaves_congr
    intro u inTree
    apply untouched
    exact Multiset.mem_add.mpr (Or.inl (mem_ownedBy.mpr ⟨p, member, Or.inl inTree⟩))
  have frame : t.ram (Pte.frame e) = s.ram (Pte.frame e) := by
    apply untouched
    exact Multiset.mem_add.mpr (Or.inr (mem_mappedBy.mpr ⟨p, member, mem_frames leaf⟩))
  rw [← tables] at leaf
  rw [reads_leaf leaf, frame]

theorem Isolated.of_ram (ram : t.ram = s.ram) : Isolated s t := by
  apply Untouched.isolated
  intro u _
  rw [ram]

end Landaux
