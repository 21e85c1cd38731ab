import Landaux.Kernel.FrameMoves
import Landaux.Kernel.ProcessRuns

/-!
# Who owns the frames

The frames marked in the bitmap are those of the bitmap, of the kernel, of the processes and of their tables, each
of them once, and the frames that are mapped.
-/

namespace Landaux
open Lib Radix

namespace State

end State

variable {static f : Nat} {s t u : State} {events : List Event} {early : List Nat}

/-! ### The allocator -/

theorem Holds.owned_nodup (h : Holds static 0 s) : s.owned.Nodup := by
  have once := h.once
  rwa [zero_add] at once

/-- A frame is counted when it is owned, except for that directory, or mapped. -/
theorem Holds.counted_iff (h : Holds static 0 s) : 0 < s.cnt f ↔ f ∈ s.owned.erase static ∨ f ∈ s.mapped := by
  rw [h.owned_nodup.mem_erase_iff]
  by_cases root : f = static
  · have count := h.cnt f
    have notMapped : f ∉ s.mapped := fun member => h.mapped_root member root
    have owned := Multiset.count_eq_one_of_mem h.owned_nodup h.root_owned
    rw [if_pos root, root, zero_add, owned, Multiset.count_eq_zero_of_notMem (root ▸ notMapped)] at count
    rw [root] at notMapped ⊢
    refine iff_of_false (by omega) ?_
    rintro (⟨other, -⟩ | member)
    · exact other rfl
    · exact notMapped member
  · have count := h.cnt f
    rw [if_neg root, zero_add] at count
    rw [← Multiset.count_pos, ← Multiset.count_pos]
    constructor
    · intro positive
      by_cases owned : 0 < s.owned.count f
      · exact .inl ⟨root, owned⟩
      · exact .inr (by omega)
    · omega

theorem Holds.bumped {page : Nat} (h : Holds static {page} t) (pid : Nat) :
    Holds static {page} { t with nextFreePid := pid } := by
  obtain ⟨⟨inv, pages, positive, small, nonneg⟩, low, once, cnt, apart, root, first, write, areas⟩ := h
  exact ⟨⟨inv, pages, positive, small, nonneg⟩, low, once, cnt, apart, root, first, write, areas⟩

end Landaux
