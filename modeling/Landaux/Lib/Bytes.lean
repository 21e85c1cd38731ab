import Mathlib.Tactic

/-!
# Byte memory

A memory is a function from addresses to bytes. Words of 32 bits are little-endian; `store32`
keeps the low 32 bits of the value, so arithmetic wraps at the store.
-/

namespace Landaux.Lib

abbrev Bytes := Nat → UInt8

namespace Bytes

def load32 (m : Bytes) (a : Nat) : Nat :=
  (m a).toNat + 2 ^ 8 * (m (a + 1)).toNat + 2 ^ 16 * (m (a + 2)).toNat + 2 ^ 24 * (m (a + 3)).toNat

def store8 (m : Bytes) (a : Nat) (v : UInt8) : Bytes := fun y => if y = a then v else m y

def store32 (m : Bytes) (a v : Nat) : Bytes := fun y =>
  if y = a then UInt8.ofNat v
  else if y = a + 1 then UInt8.ofNat (v / 2 ^ 8)
  else if y = a + 2 then UInt8.ofNat (v / 2 ^ 16)
  else if y = a + 3 then UInt8.ofNat (v / 2 ^ 24)
  else m y

theorem load32_congr {m m' : Bytes} {a : Nat} (same : ∀ y, a ≤ y → y < a + 4 → m' y = m y) :
    load32 m' a = load32 m a := by
  unfold load32
  rw [same a (by omega) (by omega), same (a + 1) (by omega) (by omega),
    same (a + 2) (by omega) (by omega), same (a + 3) (by omega) (by omega)]

theorem store8_other {m : Bytes} {a y : Nat} {v : UInt8} (different : y ≠ a) :
    store8 m a v y = m y := if_neg different

theorem store32_outside {m : Bytes} {a v y : Nat} (outside : y < a ∨ a + 4 ≤ y) :
    store32 m a v y = m y := by
  unfold store32
  rw [if_neg (by omega), if_neg (by omega), if_neg (by omega), if_neg (by omega)]

theorem load32_store32 (m : Bytes) (a v : Nat) : load32 (store32 m a v) a = v % 2 ^ 32 := by
  have b0 : store32 m a v a = UInt8.ofNat v := by simp [store32]
  have b1 : store32 m a v (a + 1) = UInt8.ofNat (v / 2 ^ 8) := by simp [store32]
  have b2 : store32 m a v (a + 2) = UInt8.ofNat (v / 2 ^ 16) := by simp [store32]
  have b3 : store32 m a v (a + 3) = UInt8.ofNat (v / 2 ^ 24) := by simp [store32]
  rw [load32, b0, b1, b2, b3]
  simp only [UInt8.toNat_ofNat']
  omega

theorem load32_store32_of_lt {m : Bytes} {a v : Nat} (h : v < 2 ^ 32) :
    load32 (store32 m a v) a = v := by
  rw [load32_store32, Nat.mod_eq_of_lt h]

theorem load32_store32_outside {m : Bytes} {a b v : Nat} (outside : b + 4 ≤ a ∨ a + 4 ≤ b) :
    load32 (store32 m a v) b = load32 m b :=
  load32_congr fun y _ _ => store32_outside (by omega)

/-! ### Ranges of bytes -/

def load (m : Bytes) (a n : Nat) : List UInt8 := (List.range n).map fun i => m (a + i)

def store (m : Bytes) (a : Nat) (new : List UInt8) : Bytes := fun y =>
  if a ≤ y ∧ y < a + new.length then new.getD (y - a) 0 else m y

variable {m m' : Bytes} {a b n i : Nat} {new : List UInt8}

theorem length_load : (load m a n).length = n := by
  simp [load]

theorem load_congr (same : ∀ y, a ≤ y → y < a + n → m' y = m y) : load m' a n = load m a n := by
  apply List.map_congr_left
  intro i member
  have below := List.mem_range.mp member
  exact same (a + i) (by omega) (by omega)

theorem store_outside {y : Nat} (outside : y < a ∨ a + new.length ≤ y) : store m a new y = m y :=
  if_neg (by omega)

theorem store_inside (inside : i < new.length) : store m a new (a + i) = new[i] := by
  unfold store
  rw [if_pos (by omega), Nat.add_sub_cancel_left, List.getD_eq_getElem?_getD,
    List.getElem?_eq_getElem inside, Option.getD_some]

/-- Bytes that are there already change nothing. -/
theorem store_load : store m a (load m a n) = m := by
  funext y
  by_cases inside : a ≤ y ∧ y < a + n
  · obtain ⟨k, rfl⟩ := Nat.exists_eq_add_of_le inside.1
    rw [store_inside (by rw [length_load]; omega)]
    simp [load]
  · rw [store_outside (by rw [length_load]; omega)]

end Bytes

end Landaux.Lib
