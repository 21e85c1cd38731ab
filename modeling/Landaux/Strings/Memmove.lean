import Landaux.Lib.Move

/-!
# memmove

`memmove` runs `rep movsb` upwards when the destination is below the source, and otherwise downwards from the
last byte, between `std` and `cld`. The registers are 64 bits wide and wrap: with no bytes to copy the downward
run may start at the address before 0, and an upward run may end at it.
-/

namespace Landaux.Strings
open Lib

variable {mem : Bytes} {dest src count : Nat}

def U64 : Nat := 2 ^ 64

/-- Where `movsb` leaves `rdi` and `rsi` -/
def advance (std : Bool) (reg : Nat) : Nat :=
  if std then (reg + (U64 - 1)) % U64 else (reg + 1) % U64

def repMovsb (std : Bool) : (rcx rdi rsi : Nat) → Bytes → Bytes
  | 0, _, _, mem => mem
  | rcx + 1, rdi, rsi, mem =>
    repMovsb std rcx (advance std rdi) (advance std rsi) (mem.store8 rdi (mem rsi))

def memmove (mem : Bytes) (dest src count : Nat) : Nat × Bytes :=
  if dest < src then
    (dest, repMovsb false count dest src mem)
  else
    -- `dest + count - 1`, where `count` may be 0
    (dest, repMovsb true count ((dest + count + (U64 - 1)) % U64) ((src + count + (U64 - 1)) % U64) mem)

theorem advance_up {reg : Nat} (fits : reg + 1 < U64) : advance false reg = reg + 1 := by
  rw [advance, if_neg Bool.false_ne_true, Nat.mod_eq_of_lt fits]

theorem before_succ {n : Nat} (fits : n < U64) : (n + 1 + (U64 - 1)) % U64 = n := by
  have whole : n + 1 + (U64 - 1) = n + U64 := by
    unfold U64
    omega
  rw [whole, Nat.add_mod_right, Nat.mod_eq_of_lt fits]

theorem advance_down {reg : Nat} (fits : reg < U64) : advance true (reg + 1) = reg := by
  rw [advance, if_pos rfl, before_succ fits]

/-- The registers wrap at most after the last byte. -/
theorem repMovsb_up (destFits : dest + count ≤ U64) (srcFits : src + count ≤ U64) :
    repMovsb false count dest src mem = mem.moveUp dest src count := by
  induction count generalizing mem dest src with
  | zero => rfl
  | succ n ih =>
    rw [repMovsb, Bytes.moveUp_first]
    cases n with
    | zero => rfl
    | succ k =>
      rw [advance_up (by omega), advance_up (by omega)]
      exact ih (by omega) (by omega)

theorem repMovsb_down {n : Nat} (destFits : dest + n < U64) (srcFits : src + n < U64) :
    repMovsb true (n + 1) (dest + n) (src + n) mem = mem.moveDown dest src (n + 1) := by
  induction n generalizing mem with
  | zero => rfl
  | succ k ih =>
    rw [repMovsb, Bytes.moveDown, ← Nat.add_assoc dest, ← Nat.add_assoc src, advance_down (by omega),
      advance_down (by omega)]
    exact ih (by omega) (by omega)

/-- Where no address wraps, `memmove` is the copy that the console's screen is scrolled by. -/
theorem memmove_moves (destFits : dest + count ≤ U64) (srcFits : src + count ≤ U64) :
    memmove mem dest src count = (dest, mem.memmove dest src count) := by
  unfold memmove Bytes.memmove
  split
  · rw [repMovsb_up destFits srcFits]
  · cases count with
    | zero => rfl
    | succ n =>
      rw [← Nat.add_assoc, ← Nat.add_assoc, before_succ (by omega), before_succ (by omega),
        repMovsb_down (by omega) (by omega)]

/-- `memmove` copies what was at the source before the call, wherever the two ranges lie. -/
theorem memmove_copies (destFits : dest + count ≤ U64) (srcFits : src + count ≤ U64) :
    (memmove mem dest src count).1 = dest ∧
    (∀ i < count, (memmove mem dest src count).2 (dest + i) = mem (src + i)) ∧
    ∀ y, y < dest ∨ dest + count ≤ y → (memmove mem dest src count).2 y = mem y := by
  rw [memmove_moves destFits srcFits]
  refine ⟨rfl, ?_, ?_⟩
  · intro i inside
    show mem.memmove dest src count (dest + i) = _
    rw [Bytes.memmove_apply, if_pos (by omega), Nat.add_sub_cancel_left]
  · intro y outside
    show mem.memmove dest src count y = _
    rw [Bytes.memmove_apply, if_neg (by omega)]

theorem memmove_copies_overlap :
    (memmove (fun y => .ofNat y) 4 1 8).1 = 4 ∧
    (∀ i < 8, (memmove (fun y => .ofNat y) 4 1 8).2 (4 + i) = .ofNat (1 + i)) ∧
    ∀ y, y < 4 ∨ 4 + 8 ≤ y → (memmove (fun y => .ofNat y) 4 1 8).2 y = .ofNat y :=
  memmove_copies (by decide) (by decide)

end Landaux.Strings
