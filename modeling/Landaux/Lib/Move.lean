import Landaux.Lib.Bytes

/-!
# Copies byte by byte

Bytes are moved one at a time, from the first one up or from the last one down, as `rep movsb` does.
`memmove` takes the order in which no byte is overwritten before it is read.
-/

namespace Landaux.Lib

namespace Bytes

variable {m : Bytes} {dest src count y : Nat}

def moveUp (m : Bytes) (dest src : Nat) : Nat → Bytes
  | 0 => m
  | n + 1 => (moveUp m dest src n).store8 (dest + n) (moveUp m dest src n (src + n))

def moveDown (m : Bytes) (dest src : Nat) : Nat → Bytes
  | 0 => m
  | n + 1 => moveDown (m.store8 (dest + n) (m (src + n))) dest src n

def memmove (m : Bytes) (dest src count : Nat) : Bytes :=
  if dest < src then m.moveUp dest src count else m.moveDown dest src count

def memset16 (m : Bytes) (dest value : Nat) : Nat → Bytes
  | 0 => m
  | n + 1 => ((memset16 m dest value n).store8 (dest + 2 * n) (.ofNat value)).store8 (dest + 2 * n + 1)
      (.ofNat (value / 2 ^ 8))

theorem moveUp_first {n : Nat} :
    m.moveUp dest src (n + 1) = (m.store8 dest (m src)).moveUp (dest + 1) (src + 1) n := by
  induction n with
  | zero => rfl
  | succ n ih =>
    rw [moveUp, ih, moveUp, Nat.add_right_comm dest 1, Nat.add_right_comm src 1, Nat.add_assoc dest n,
      Nat.add_assoc src n]

theorem moveUp_apply (below : dest ≤ src) :
    m.moveUp dest src count y = if dest ≤ y ∧ y < dest + count then m (src + (y - dest)) else m y := by
  induction count generalizing y with
  | zero => exact (if_neg (by omega)).symm
  | succ n ih =>
    rw [moveUp, store8]
    by_cases here : y = dest + n
    · rw [if_pos here, if_pos (by omega), ih, if_neg (by omega), here, Nat.add_sub_cancel_left]
    · rw [if_neg here, ih]
      by_cases inside : dest ≤ y ∧ y < dest + n
      · rw [if_pos inside, if_pos (by omega)]
      · rw [if_neg inside, if_neg (by omega)]

theorem moveDown_apply (above : src ≤ dest) :
    m.moveDown dest src count y = if dest ≤ y ∧ y < dest + count then m (src + (y - dest)) else m y := by
  induction count generalizing m with
  | zero => exact (if_neg (by omega)).symm
  | succ n ih =>
    rw [moveDown, ih]
    by_cases inside : dest ≤ y ∧ y < dest + n
    · rw [if_pos inside, if_pos (by omega), store8_other (by omega)]
    · rw [if_neg inside, store8]
      by_cases here : y = dest + n
      · rw [if_pos here, if_pos (by omega), here, Nat.add_sub_cancel_left]
      · rw [if_neg here, if_neg (by omega)]

/-- The ranges may overlap. -/
theorem memmove_apply :
    m.memmove dest src count y = if dest ≤ y ∧ y < dest + count then m (src + (y - dest)) else m y := by
  unfold memmove
  split
  · exact moveUp_apply (by omega)
  · exact moveDown_apply (by omega)

theorem memset16_outside {value : Nat} (outside : y < dest ∨ dest + 2 * count ≤ y) :
    m.memset16 dest value count y = m y := by
  induction count with
  | zero => rfl
  | succ n ih =>
    rw [memset16, store8_other (by omega), store8_other (by omega)]
    exact ih (by omega)

theorem memset16_low {value i : Nat} (inside : i < count) :
    m.memset16 dest value count (dest + 2 * i) = .ofNat value := by
  induction count with
  | zero => omega
  | succ n ih =>
    rw [memset16, store8_other (by omega)]
    by_cases last : i = n
    · rw [last]
      exact if_pos rfl
    · rw [store8_other (by omega)]
      exact ih (by omega)

theorem memset16_high {value i : Nat} (inside : i < count) :
    m.memset16 dest value count (dest + 2 * i + 1) = .ofNat (value / 2 ^ 8) := by
  induction count with
  | zero => omega
  | succ n ih =>
    rw [memset16]
    by_cases last : i = n
    · rw [last]
      exact if_pos rfl
    · rw [store8_other (by omega), store8_other (by omega)]
      exact ih (by omega)

end Bytes

end Landaux.Lib
