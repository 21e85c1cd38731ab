import Landaux.Lib.Bytes

/-!
# Bytes stored one after the other
-/

namespace Landaux.Lib.Bytes

variable {mem : Bytes} {chars front : List UInt8}

theorem store_nil {a : Nat} : mem.store a [] = mem := by
  funext y
  exact store_outside (by simp; omega)

theorem store_cons {a : Nat} {c : UInt8} : (mem.store8 a c).store (a + 1) chars = mem.store a (c :: chars) := by
  funext y
  obtain below | rfl | above := Nat.lt_trichotomy y a
  · rw [store_outside (.inl (by omega)), store_outside (.inl below), store8_other (by omega)]
  · rw [store_outside (.inl (by omega))]
    simp [store8, store]
  · have behind : y - a = y - (a + 1) + 1 := by omega
    unfold store
    rw [store8_other (by omega), behind, List.getD_cons_succ, List.length_cons]
    exact if_congr (by omega) rfl rfl

/-- A byte that is written behind others, or over the last of them. -/
theorem store_last {a k : Nat} {c : UInt8} (inside : k ≤ chars.length) (last : chars.length ≤ k + 1) :
    (mem.store a chars).store8 (a + k) c = mem.store a (chars.take k ++ [c]) := by
  have size : (chars.take k ++ [c]).length = k + 1 := by simp [inside]
  funext y
  obtain rfl | other := eq_or_ne y (a + k)
  · rw [store_inside (by omega)]
    simp [store8, inside]
  · rw [store8_other other]
    by_cases front : a ≤ y ∧ y < a + k
    · obtain ⟨i, rfl⟩ := Nat.exists_eq_add_of_le front.1
      rw [store_inside (by omega), store_inside (by omega), List.getElem_append_left (by simp; omega),
        List.getElem_take]
    · rw [store_outside (by omega), store_outside (by omega)]

/-- What lies there already may be stored again. -/
theorem store_append {a : Nat} (there : ∀ i (inside : i < front.length), mem (a + i) = front[i]) :
    mem.store (a + front.length) chars = mem.store a (front ++ chars) := by
  induction front generalizing mem a with
  | nil => rfl
  | cons c front ih =>
    have again : mem.store8 a c = mem := by
      funext y
      obtain rfl | other := eq_or_ne y a
      · rw [store8, if_pos rfl]
        exact (there 0 (Nat.zero_lt_succ _)).symm
      · exact store8_other other
    have rest (i : Nat) (inside : i < front.length) : mem (a + 1 + i) = front[i] := by
      rw [Nat.add_assoc, Nat.add_comm 1 i]
      exact there (i + 1) (Nat.succ_lt_succ inside)
    rw [List.length_cons, Nat.add_comm front.length 1, ← Nat.add_assoc, ih rest, List.cons_append, ← store_cons, again]

end Landaux.Lib.Bytes
