import Landaux.Kernel.ExecElf
import Landaux.Mm.PmmRuns

/-!
# The memory of the boot

What `kernel_start` makes of the numbers of the boot loader: the size that it maps and counts, and the range that it
gives to `init_pmm`. The numbers are 32 bits wide, and so are the products.
-/

namespace Landaux.Pmm
open Lib

/-- The fields of `multiboot_info_t`, and of the modules, that the range depends on. -/
structure MultibootInfo where
  flags : BitVec 32
  memUpper : BitVec 32
  modsCount : BitVec 32
  modEnd : Nat → BitVec 32

def getModulesEnd (mbi : MultibootInfo) : Nat :=
  if mbi.flags &&& 8 = 0 then 0
  else if mbi.modsCount = 0 then 0
  else roundPageUp32 (mbi.modEnd (mbi.modsCount.toNat - 1)).toNat

def upper (mbi : MultibootInfo) : Nat := (mbi.memUpper * 1024).toNat

def memory (mbi : MultibootInfo) : Nat := ((mbi.memUpper + 1024) * 1024).toNat

/-- The first byte that is free; `imageEnd` is the physical address of `_end`. -/
def freeBase (mbi : MultibootInfo) (imageEnd : Nat) : Nat :=
  if getModulesEnd mbi = 0 then roundPageUp imageEnd else getModulesEnd mbi

def freeSize (mbi : MultibootInfo) (imageEnd : Nat) : Nat :=
  roundPageDown ((upper mbi + 2 ^ 64 - freeBase mbi imageEnd) % 2 ^ 64)

/-- `kernel_start` up to `init_pmm`; `none` is a `BUG_ON`, the first in `map_memory`. -/
def kernelStart (bitmap : Bitmap) (mbi : MultibootInfo) (imageEnd : Nat) : Option State :=
  if 1024 * 1024 * 1024 < memory mbi then none
  else initPmm bitmap (freeBase mbi imageEnd) (freeSize mbi imageEnd)

variable {mbi : MultibootInfo} {imageEnd : Nat} {s s₀ s' : State} {bitmap : Bitmap} {events : List Event}

theorem memory_eq (mbi : MultibootInfo) : memory mbi = (upper mbi + 2 ^ 20) % 2 ^ 32 := by
  have small := mbi.memUpper.isLt
  have number : (1024 : BitVec 32).toNat = 1024 := rfl
  rw [memory, upper, BitVec.toNat_mul, BitVec.toNat_mul, BitVec.toNat_add, number]
  omega

theorem upper_lt (mbi : MultibootInfo) : upper mbi < 2 ^ 32 := (mbi.memUpper * 1024).isLt

theorem freeBase_aligned (mbi : MultibootInfo) (imageEnd : Nat) : freeBase mbi imageEnd % PAGE_SIZE = 0 := by
  unfold freeBase
  split
  · exact Nat.mul_mod_left _ _
  · unfold getModulesEnd
    split_ifs
    · rfl
    · rfl
    · exact (roundPageUp32_spec _).1

theorem freeSize_eq (fits : freeBase mbi imageEnd ≤ upper mbi) :
    freeBase mbi imageEnd + freeSize mbi imageEnd = roundPageDown (upper mbi) := by
  have small := upper_lt mbi
  have aligned := freeBase_aligned mbi imageEnd
  have plain : (upper mbi + 2 ^ 64 - freeBase mbi imageEnd) % 2 ^ 64 = upper mbi - freeBase mbi imageEnd := by omega
  rw [freeSize, plain]
  unfold roundPageDown PAGE_SIZE at *
  omega

theorem freeBase_pos (positive : 0 < imageEnd) : 0 < freeBase mbi imageEnd := by
  unfold freeBase
  split
  · unfold roundPageUp roundPageDown PAGE_SIZE
    omega
  · omega

theorem kernelStart_spec (positive : 0 < imageEnd) (fits : freeBase mbi imageEnd ≤ upper mbi)
    (boots : kernelStart bitmap mbi imageEnd = some s) :
    memory mbi ≤ 2 ^ 30 ∧ Inv s ∧ s.firstFrame * PAGE_SIZE = freeBase mbi imageEnd ∧
      s.memsize = freeSize mbi imageEnd := by
  have small := upper_lt mbi
  have total := freeSize_eq fits
  unfold kernelStart at boots
  split at boots
  · cases boots
  · rename_i mapped
    have sized : freeSize mbi imageEnd < 2 ^ 47 := by
      unfold roundPageDown PAGE_SIZE at total
      omega
    obtain ⟨inv, base, memory⟩ := boot_spec (freeBase_pos positive) sized boots
    have aligned := freeBase_aligned mbi imageEnd
    refine ⟨by omega, inv, ?_, memory⟩
    rw [base]
    exact Nat.div_mul_cancel (Nat.dvd_of_mod_eq_zero aligned)

/-- A frame that an allocation hands out lies behind the bitmap in the memory of the allocator. -/
theorem alloc_range {frame : Nat} (inv : Inv s) (alloc : allocPhysPage s = some (frame, s')) (nonzero : frame ≠ 0) :
    s.firstFrame * PAGE_SIZE ≤ frame * PAGE_SIZE ∧
      (frame + 1) * PAGE_SIZE ≤ s.firstFrame * PAGE_SIZE + s.memsize := by
  obtain ⟨low, high, -, -⟩ := inv.safe.lowest frame s' alloc nonzero
  have memory := inv.memory
  unfold State.frames at memory
  unfold PAGE_SIZE at *
  omega

/-- The array of `init_mm` covers the frames of the allocator exactly if the size of the memory does not wrap. Then
every frame that is ever handed out is memory that `map_memory` has mapped, above the modules or the image. -/
theorem boot_memory (positive : 0 < imageEnd) (fits : freeBase mbi imageEnd ≤ upper mbi)
    (boots : kernelStart bitmap mbi imageEnd = some s₀) :
    (s₀.firstFrame * PAGE_SIZE + s₀.memsize ≤ memory mbi ↔ upper mbi + 2 ^ 20 < 2 ^ 32) ∧
      (upper mbi + 2 ^ 20 < 2 ^ 32 → ∀ events s, Run Step s₀ events s → Safe s ∧
        (s.pages = none → Step s (.initMm (memory mbi)) (initMm s (memory mbi))) ∧
        ∀ frame, Event.alloc frame ∈ events → frame ≠ 0 →
          freeBase mbi imageEnd ≤ frame * PAGE_SIZE ∧ (frame + 1) * PAGE_SIZE ≤ memory mbi) := by
  obtain ⟨mapped, inv, base, size⟩ := kernelStart_spec positive fits boots
  have small := upper_lt mbi
  have total := freeSize_eq fits
  have wrapped := memory_eq mbi
  have covers : s₀.firstFrame * PAGE_SIZE + s₀.memsize ≤ memory mbi ↔ upper mbi + 2 ^ 20 < 2 ^ 32 := by
    rw [base, size, total]
    unfold roundPageDown PAGE_SIZE
    omega
  refine ⟨covers, fun narrow events s run => ?_⟩
  have later : Inv s := run.invariant (P := Inv) (fun _ _ _ inv step => step_inv inv step) inv
  obtain ⟨same, range, -⟩ := run_fixed run inv
  refine ⟨later.safe, fun none => ?_, fun frame member nonzero => ?_⟩
  · refine .initMm none ?_ ?_
    · rw [same, range]
      exact covers.mpr narrow
    · unfold PAGE_SIZE
      omega
  · obtain ⟨before, after, rfl⟩ := List.append_of_mem member
    obtain ⟨mid, first, rest⟩ := run.split
    have held : Inv mid := first.invariant (P := Inv) (fun _ _ _ inv step => step_inv inv step) inv
    obtain ⟨here, there, -⟩ := run_fixed first inv
    cases rest with
    | cons step _ =>
      cases step with
      | alloc alloc =>
        have inside := alloc_range held alloc nonzero
        rw [here, there, base] at inside
        have bound := covers.mpr narrow
        rw [base] at bound
        exact ⟨inside.1, inside.2.trans bound⟩

/-- 256 KB above an image that ends at 1 MB, and nothing else. -/
def smallBoot : MultibootInfo := ⟨0, 1280, 0, fun _ => 0⟩

theorem boot_memory_small : ∃ s₀, kernelStart (fun _ => 0) smallBoot 0x100000 = some s₀ ∧
    ∀ events s, Run Step s₀ events s → ∀ frame, Event.alloc frame ∈ events → frame ≠ 0 →
      0x100000 ≤ frame * PAGE_SIZE ∧ (frame + 1) * PAGE_SIZE ≤ 0x240000 := by
  obtain ⟨marked, boot, -⟩ := initPmm_spec (fun _ => 0) 0x100000 0x40000 (by decide) (by decide) (by decide)
    (by decide) fun k _ => blank_bit _ k
  have base : freeBase smallBoot 0x100000 = 0x100000 := by decide
  have size : freeSize smallBoot 0x100000 = 0x40000 := by decide
  rw [← base, ← size] at boot
  have boots := (if_neg (by decide) : kernelStart (fun _ => 0) smallBoot 0x100000 = _).trans boot
  exact ⟨_, boots, fun events s run =>
    ((boot_memory (by decide) (by decide) boots).2 (by decide) events s run).2.2⟩

end Landaux.Pmm
