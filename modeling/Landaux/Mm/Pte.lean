import Landaux.Mem
import Landaux.Lib.Radix

/-!
# Page table entries

`pte_t` as the 64-bit word that it is: the flags are its low 8 bits, the frame is bits 12 to 51. The
four levels of tables are a radix tree, and of the top one only the lower half belongs to the user.
-/

namespace Landaux
open Lib

abbrev Word := BitVec 64

def PTE_PRESENT : BitVec 8 := 0x01
def PTE_WRITE : BitVec 8 := 0x02
def PTE_USER : BitVec 8 := 0x04
def PTE_SIZE : BitVec 8 := 0x80

namespace Pte

/-- A store to the `w` bits from bit `low` on. -/
def setField (e : Word) (low : Nat) {w : Nat} (v : BitVec w) : Word :=
  e &&& ~~~((BitVec.allOnes w).setWidth 64 <<< low) ||| v.setWidth 64 <<< low

def flags (e : Word) : BitVec 8 := e.extractLsb' 0 8
def frame (e : Word) : Nat := (e.extractLsb' 12 40).toNat
def setFlags (e : Word) (f : BitVec 8) : Word := setField e 0 f
def setFrame (e : Word) (n : Nat) : Word := setField e 12 (BitVec.ofNat 40 n)

def present (e : Word) : Bool := flags e &&& PTE_PRESENT != 0
def writable (e : Word) : Bool := flags e &&& PTE_WRITE != 0
def user (e : Word) : Bool := flags e &&& PTE_USER != 0
def large (e : Word) : Bool := flags e &&& PTE_SIZE != 0

/-- `pte->flags |= PTE_WRITE` -/
def allowWrite (e : Word) : Word := setFlags e (flags e ||| PTE_WRITE)

/-- `pte->flags &= ~PTE_WRITE` -/
def denyWrite (e : Word) : Word := setFlags e (flags e &&& ~~~PTE_WRITE)

variable {e : Word} {f : BitVec 8} {n : Nat}

theorem getLsbD_setField {low w : Nat} (v : BitVec w) (i : Nat) (fits : low + w ≤ 64) :
    (setField e low v).getLsbD i =
      if low ≤ i ∧ i < low + w then v.getLsbD (i - low) else e.getLsbD i := by
  unfold setField
  by_cases field : low ≤ i ∧ i < low + w
  · rw [if_pos field]
    simp [show i < 64 by omega, show i - low < w by omega, show ¬ i < low by omega]
  · rw [if_neg field]
    by_cases high : i < 64
    · by_cases below : i < low
      · simp [high, below]
      · have past : w ≤ i - low := by omega
        simp [high, below, show ¬ i - low < w by omega, BitVec.getLsbD_of_ge v _ past]
    · simp [high, BitVec.getLsbD_of_ge e i (by omega)]

@[simp] theorem flags_setFlags : flags (setFlags e f) = f := by
  apply BitVec.eq_of_getLsbD_eq
  intro i inside
  unfold flags setFlags
  rw [BitVec.getLsbD_extractLsb', getLsbD_setField _ _ (by omega), if_pos (by omega)]
  simp [inside]

@[simp] theorem frame_setFlags : frame (setFlags e f) = frame e := by
  unfold frame setFlags
  congr 1
  apply BitVec.eq_of_getLsbD_eq
  intro i inside
  rw [BitVec.getLsbD_extractLsb', BitVec.getLsbD_extractLsb', getLsbD_setField _ _ (by omega),
    if_neg (by omega)]

@[simp] theorem flags_setFrame : flags (setFrame e n) = flags e := by
  apply BitVec.eq_of_getLsbD_eq
  intro i inside
  unfold flags setFrame
  rw [BitVec.getLsbD_extractLsb', BitVec.getLsbD_extractLsb', getLsbD_setField _ _ (by omega),
    if_neg (by omega)]

theorem frame_setFrame_mod : frame (setFrame e n) = n % 2 ^ 40 := by
  have field : (setFrame e n).extractLsb' 12 40 = BitVec.ofNat 40 n := by
    apply BitVec.eq_of_getLsbD_eq
    intro i inside
    unfold setFrame
    rw [BitVec.getLsbD_extractLsb', getLsbD_setField _ _ (by omega), if_pos (by omega),
      Nat.add_sub_cancel_left]
    simp [inside]
  unfold frame
  rw [field, BitVec.toNat_ofNat]

theorem frame_setFrame (small : n < 2 ^ 40) : frame (setFrame e n) = n := by
  rw [frame_setFrame_mod, Nat.mod_eq_of_lt small]

@[simp] theorem present_setFlags : present (setFlags e f) = (f &&& PTE_PRESENT != 0) := by
  unfold present
  rw [flags_setFlags]

@[simp] theorem present_setFrame : present (setFrame e n) = present e := by
  unfold present
  rw [flags_setFrame]

@[simp] theorem writable_setFrame : writable (setFrame e n) = writable e := by
  unfold writable
  rw [flags_setFrame]

theorem flags_bit (a : BitVec 8) :
    ((a &&& ~~~PTE_WRITE) &&& PTE_PRESENT != 0) = (a &&& PTE_PRESENT != 0) ∧
      ((a ||| PTE_WRITE) &&& PTE_PRESENT != 0) = (a &&& PTE_PRESENT != 0) ∧
      ((a &&& ~~~PTE_WRITE) &&& PTE_WRITE != 0) = false := by
  revert a
  decide

@[simp] theorem present_denyWrite : present (denyWrite e) = present e := by
  unfold denyWrite
  rw [present_setFlags, (flags_bit _).1]
  rfl

@[simp] theorem present_allowWrite : present (allowWrite e) = present e := by
  unfold allowWrite
  rw [present_setFlags, (flags_bit _).2.1]
  rfl

@[simp] theorem writable_denyWrite : writable (denyWrite e) = false := by
  unfold denyWrite writable
  rw [flags_setFlags, (flags_bit _).2.2]

@[simp] theorem frame_denyWrite : frame (denyWrite e) = frame e := frame_setFlags

@[simp] theorem frame_allowWrite : frame (allowWrite e) = frame e := frame_setFlags

@[simp] theorem present_zero : present 0 = false := by decide

end Pte

/-- The page tables below the lower half of a directory, which is a table of level 3. -/
def pageTables : Radix Word where
  radix := 512
  width n := if n = 3 then 256 else 512
  narrow n := by split <;> omega
  next e := if Pte.present e then some (Pte.frame e) else none

@[simp] theorem radix_eq : pageTables.radix = 512 := rfl

theorem width_low {n : Nat} (low : n ≠ 3) : pageTables.width n = 512 := if_neg low

theorem width_top : pageTables.width 3 = 256 := by decide

theorem next_eq_none {e : Word} : pageTables.next e = none ↔ Pte.present e = false := by
  simp [pageTables]

theorem next_eq_some {e : Word} {f : Nat} :
    pageTables.next e = some f ↔ Pte.present e = true ∧ Pte.frame e = f := by
  simp [pageTables]

/-- Every page of the lower half has its path inside the tables. -/
theorem inside_lower {v : Nat} (lower : v < 2 ^ 35) : pageTables.Inside v 3 := by
  intro k below
  unfold Radix.index
  interval_cases k <;> simp [pageTables] <;> omega

theorem lower_number {v : Nat} (lower : v < 2 ^ 35) : v / pageTables.radix ^ (3 + 1) = 0 := by
  change v / 512 ^ 4 = 0
  omega

end Landaux
