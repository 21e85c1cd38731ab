import Landaux.Kernel.BootMemory
import Landaux.Mm.HeapFit
import Landaux.Mm.MapPage

/-!
# The memory of the heap

`heap.c` over the frame allocator and `map_page`. In the memory that `kernel_start` accepts the heap does not come
near four gigabytes, whatever is asked of it.
-/

namespace Landaux
open Lib

namespace Pmm

/-- `s'` is `s` after some allocations. -/
structure Spends (s s' : State) : Prop where
  inv : Inv s'
  room : s'.room ≤ s.room
  firstFrame : s'.firstFrame = s.firstFrame
  bitmapSize : s'.bitmapSize = s.bitmapSize

variable {s t u : State} {frame : Nat}

theorem Spends.refl (inv : Inv s) : Spends s s := ⟨inv, le_rfl, rfl, rfl⟩

theorem Spends.trans (h : Spends s t) (k : Spends t u) : Spends s u :=
  ⟨k.inv, k.room.trans h.room, k.firstFrame.trans h.firstFrame, k.bitmapSize.trans h.bitmapSize⟩

theorem Spends.frames (h : Spends s t) : t.frames = s.frames := by
  unfold State.frames
  rw [h.bitmapSize]

theorem Inv.spends (inv : Inv s) (alloc : allocPhysPage s = some (frame, t)) :
    Spends s t ∧ (frame ≠ 0 → t.room + 1 = s.room) ∧ frame ≤ s.firstFrame + s.frames := by
  have after : Inv t := step_inv inv (.alloc alloc)
  rcases inv.alloc with ⟨full, eq⟩ | ⟨k, pages, inside, off, -, eq, -⟩ <;> rw [eq] at alloc
  · obtain ⟨rfl, rfl⟩ := Prod.mk.inj (Option.some.inj alloc)
    exact ⟨.refl inv, fun never => absurd rfl never, Nat.zero_le _⟩
  · obtain ⟨rfl, rfl⟩ := Prod.mk.inj (Option.some.inj alloc)
    have room := room_taken after inside off
    exact ⟨⟨after, by omega, rfl, rfl⟩, fun _ => room.symm, by omega⟩

end Pmm

variable {s t : State} {v k top : Nat} {flags : BitVec 8}

theorem mapTables_spends (n : Nat) : ∀ table s, Pmm.Inv s.pmm →
    Ends (mapTables flags v n table s) (fun r => Pmm.Spends s.pmm r.2.pmm) (fun _ => True) := by
  induction n with
  | zero => exact fun table s inv => .refl inv
  | succ n ih =>
    intro table s inv
    rw [mapTables]
    dsimp only
    split
    · exact ih _ s inv
    unfold allocPage
    cases alloc : Pmm.allocPhysPage s.pmm with
    | none => trivial
    | some r =>
      obtain ⟨new, pmm⟩ := r
      have spends := (inv.spends alloc).1
      rw [ok_bind]
      dsimp only
      split
      · trivial
      · exact (ih new _ spends.inv).mono (fun _ more => spends.trans more) fun _ _ => trivial

theorem mapKernelPage_spends (frame address : Nat) (inv : Pmm.Inv s.pmm) :
    Ends (mapKernelPage frame address s) (fun t => Pmm.Spends s.pmm t.pmm) (fun _ => True) := by
  unfold mapKernelPage mapPage
  split
  · trivial
  refine Ends.bind ((mapTables_spends 3 _ s inv).mono (fun _ h => h) fun _ h => h) ?_
  rintro ⟨table, t⟩ spends
  dsimp only
  split
  · trivial
  · exact spends

/-- The two functions as the kernel has them. Where `map_page` stops the kernel, no page is taken. -/
def heapPages : Heap.PageSource State where
  allocPhysPage s :=
    match Pmm.allocPhysPage s.pmm with
    | some (frame, pmm) => (frame, { s with pmm })
    | none => (0, s)
  mapKernelPage frame address s :=
    match mapKernelPage frame address s with
    | .ok t => t
    | .error _ => s

theorem heapPages_alloc (inv : Pmm.Inv s.pmm) : Pmm.Spends s.pmm (heapPages.allocPhysPage s).2.pmm ∧
    ((heapPages.allocPhysPage s).1 ≠ 0 → (heapPages.allocPhysPage s).2.room + 1 = s.room) ∧
      (heapPages.allocPhysPage s).1 ≤ s.pmm.firstFrame + s.pmm.frames := by
  unfold heapPages
  dsimp only
  cases alloc : Pmm.allocPhysPage s.pmm with
  | none => exact ⟨.refl inv, fun never => absurd rfl never, Nat.zero_le _⟩
  | some r => exact inv.spends alloc

theorem heapPages_map (frame address : Nat) (inv : Pmm.Inv s.pmm) :
    Pmm.Spends s.pmm (heapPages.mapKernelPage frame address s).pmm := by
  have spends := mapKernelPage_spends frame address inv
  unfold heapPages
  dsimp only
  cases result : mapKernelPage frame address s with
  | error _ => exact .refl inv
  | ok t => exact spends.of_ok result

/-- Every page that the heap grows by is one less to allocate. -/
theorem heapPages_grows (k : Nat) : ∀ top s, Pmm.Inv s.pmm → Heap.grows heapPages k top s = some t →
    Pmm.Spends s.pmm t.pmm ∧ k + t.room ≤ s.room := by
  induction k with
  | zero =>
    intro top s inv grown
    obtain rfl := Option.some.inj grown
    exact ⟨.refl inv, (Nat.zero_add _).le⟩
  | succ k ih =>
    intro top s inv grown
    obtain ⟨spends, fewer, -⟩ := heapPages_alloc inv
    rw [Heap.grows] at grown
    dsimp only at grown
    split at grown
    · cases grown
    · rename_i nonzero
      have maps := heapPages_map (heapPages.allocPhysPage s).1 top spends.inv
      obtain ⟨rest, left⟩ := ih _ _ maps.inv grown
      have room := fewer nonzero
      have kept : (heapPages.mapKernelPage (heapPages.allocPhysPage s).1 top (heapPages.allocPhysPage s).2).room ≤
          (heapPages.allocPhysPage s).2.room := maps.room
      exact ⟨(spends.trans maps).trans rest, by omega⟩

/-- The heap cannot take more pages than there are. -/
theorem limited_of_room (inv : Pmm.Inv s.pmm) (narrow : s.pmm.firstFrame + s.pmm.frames < 2 ^ 32)
    (below : top + s.room * PAGE_SIZE < HEAP_START + 2 ^ 32) : Heap.Limited heapPages top s := by
  intro k t grown
  obtain ⟨spends, left⟩ := heapPages_grows k top s inv grown
  obtain ⟨-, -, frame⟩ := heapPages_alloc spends.inv
  rw [spends.firstFrame, spends.frames] at frame
  have taken : k * PAGE_SIZE ≤ s.room * PAGE_SIZE := Nat.mul_le_mul_right _ (by omega)
  exact ⟨by omega, by omega⟩

/-- At any time after `kernel_start`, with a heap of no more than a gigabyte. -/
theorem limited_of_boot {bitmap : Bitmap} {mbi : Pmm.MultibootInfo} {imageEnd : Nat} {first : Pmm.State}
    {events : List Pmm.Event} (positive : 0 < imageEnd) (fits : Pmm.freeBase mbi imageEnd ≤ Pmm.upper mbi)
    (narrow : Pmm.upper mbi + 2 ^ 20 < 2 ^ 32) (boots : Pmm.kernelStart bitmap mbi imageEnd = some first)
    (run : Run Pmm.Step first events s.pmm) (heap : top ≤ HEAP_START + 2 ^ 30) : Heap.Limited heapPages top s := by
  obtain ⟨mapped, inv, base, size⟩ := Pmm.kernelStart_spec positive fits boots
  have total := Pmm.freeSize_eq fits
  have memory := Pmm.memory_eq mbi
  have later : Pmm.Inv s.pmm := run.invariant (P := Pmm.Inv) (fun _ _ _ inv step => Pmm.step_inv inv step) inv
  obtain ⟨same, range, -⟩ := Pmm.run_fixed run inv
  have frames := later.memory
  have most : s.room ≤ s.pmm.frames := Nat.sub_le _ _
  rw [range, size] at frames
  rw [Nat.mod_eq_of_lt narrow] at memory
  unfold roundPageDown at total
  apply limited_of_room later
  · unfold PAGE_SIZE at *
    omega
  · unfold PAGE_SIZE at *
    omega

end Landaux
