import Landaux.Kernel.Process
import Landaux.Mm.FrameUse

/-!
# What processes do to the frame allocator

Every event is a run of the allocator's own steps: frames are allocated and freed, and counts that are positive stay
so.
-/

namespace Landaux
open Lib

def Moved (s t : State) : Prop := ∃ events, Run Pmm.Step s.pmm events t.pmm

/-- Where a function returns, the allocator has made steps of its own. -/
def Moves (f : State → Except Stop State) : Prop := ∀ s, Ends (f s) (Moved s) fun _ => True

variable {s t u : State} {frame : Nat}

namespace Moved

theorem of_pmm (same : t.pmm = s.pmm) : Moved s t := by
  refine ⟨[], ?_⟩
  rw [same]
  exact .nil s.pmm

theorem refl : Moved s s := of_pmm rfl

theorem trans (first : Moved s t) (second : Moved t u) : Moved s u := by
  obtain ⟨events, run⟩ := first
  obtain ⟨later, rest⟩ := second
  exact ⟨events ++ later, run.append rest⟩

end Moved

/-! ### The primitives -/

theorem Moves.turns {body : Nat → State → Except Stop State} (each : ∀ i, Moves (body i)) (n : Nat) :
    Moves (turns body n) := by
  intro s
  refine Ends.turns (fun _ => Moved s) .refl n fun i t _ moved => ?_
  exact (each i t).mono (fun u next => moved.trans next) fun _ => id

/-! ### `mm.c` -/

end Landaux
