import Mathlib.Tactic

/-!
# Overwriting a part of a list

`splice l i new` puts `new` over the elements from `i` on, and makes the list longer if it has to.
-/

namespace Landaux.Lib

variable {α : Type*} {l new : List α} {i j : Nat}

def splice (l : List α) (i : Nat) (new : List α) : List α := l.take i ++ new ++ l.drop (i + new.length)

theorem length_splice (inside : i ≤ l.length) : (splice l i new).length = max l.length (i + new.length) := by
  unfold splice
  rw [List.length_append, List.length_append, List.length_take, List.length_drop]
  omega

theorem getElem?_splice (inside : i ≤ l.length) : (splice l i new)[j]? =
    if i ≤ j ∧ j < i + new.length then new[j - i]? else l[j]? := by
  have front : (l.take i).length = i := List.length_take_of_le inside
  unfold splice
  by_cases before : j < i
  · rw [if_neg (by omega), List.append_assoc, List.getElem?_append_left (by omega),
      List.getElem?_take_of_lt before]
  by_cases within : j < i + new.length
  · rw [if_pos ⟨by omega, within⟩, List.getElem?_append_left (by rw [List.length_append]; omega),
      List.getElem?_append_right (by omega), front]
  · rw [if_neg (by omega), List.getElem?_append_right (by rw [List.length_append]; omega),
      List.length_append, front, List.getElem?_drop]
    congr 1
    omega

end Landaux.Lib
