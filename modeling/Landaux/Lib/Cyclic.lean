import Mathlib.Tactic

/-!
# Circular buffers

An array of `cap` cells that holds a queue: its `len` elements start at cell `head` and go on at cell 0
after the last one. An element is added at the end, and a run of elements that does not cross the end of
the array is taken from the front.
-/

namespace Landaux.Lib

structure Cyclic (α : Type*) where
  cell : Nat → α
  head : Nat
  len : Nat

namespace Cyclic

variable {α : Type*} {cap l i j : Nat} {q : Cyclic α} {x : α}

/-- The cell of the element `i` places behind the first one. -/
def place (q : Cyclic α) (cap i : Nat) : Nat := (q.head + i) % cap

def contents (q : Cyclic α) (cap : Nat) : List α := (List.range q.len).map fun i => q.cell (q.place cap i)

def push (q : Cyclic α) (cap : Nat) (x : α) : Cyclic α :=
  { q with cell := fun y => if y = q.place cap q.len then x else q.cell y, len := q.len + 1 }

/-- The cells from the first element on, as far as they lie side by side. -/
def front (q : Cyclic α) (l : Nat) : List α := (List.range l).map fun i => q.cell (q.head + i)

def skip (q : Cyclic α) (cap l : Nat) : Cyclic α :=
  { q with head := (q.head + l) % cap, len := q.len - l }

structure Bounded (q : Cyclic α) (cap : Nat) : Prop where
  head : q.head < cap
  len : q.len ≤ cap

theorem length_contents : (q.contents cap).length = q.len := by
  simp [contents]

theorem contents_empty (empty : q.len = 0) : q.contents cap = [] := by
  rw [← List.length_eq_zero_iff, length_contents, empty]

theorem place_eq (bounded : q.Bounded cap) (below : i ≤ cap) :
    q.place cap i = if q.head + i < cap then q.head + i else q.head + i - cap := by
  have head := bounded.head
  unfold place
  split
  · rename_i inside
    exact Nat.mod_eq_of_lt inside
  · rename_i outside
    rw [Nat.mod_eq_sub_mod (by omega)]
    exact Nat.mod_eq_of_lt (by omega)

/-- Fewer than `cap` elements are in different cells. -/
theorem place_ne (bounded : q.Bounded cap) (before : i < j) (below : j < cap) : q.place cap i ≠ q.place cap j := by
  have head := bounded.head
  rw [place_eq bounded (by omega), place_eq bounded (by omega)]
  split <;> split <;> omega

theorem Bounded.push (bounded : q.Bounded cap) (room : q.len < cap) : (q.push cap x).Bounded cap :=
  ⟨bounded.head, room⟩

theorem Bounded.skip (bounded : q.Bounded cap) : (q.skip cap l).Bounded cap := by
  constructor
  · exact Nat.mod_lt _ (by have head := bounded.head; omega)
  · exact (Nat.sub_le _ _).trans bounded.len

theorem contents_push (bounded : q.Bounded cap) (room : q.len < cap) :
    (q.push cap x).contents cap = q.contents cap ++ [x] := by
  have kept : ∀ i ∈ List.range q.len, (q.push cap x).cell ((q.push cap x).place cap i) = q.cell (q.place cap i) := by
    intro i member
    exact if_neg (place_ne bounded (List.mem_range.mp member) room)
  have new : (q.push cap x).cell ((q.push cap x).place cap q.len) = x := if_pos rfl
  unfold contents
  rw [show (q.push cap x).len = q.len + 1 from rfl, List.range_succ, List.map_append, List.map_congr_left kept]
  simp [new]

theorem front_eq (bounded : q.Bounded cap) (some : l ≤ q.len) (straight : q.head + l ≤ cap) :
    q.front l = (q.contents cap).take l := by
  have len := bounded.len
  unfold front contents
  rw [← List.map_take, List.take_range, Nat.min_eq_left some]
  apply List.map_congr_left
  intro i member
  have below := List.mem_range.mp member
  rw [place_eq bounded (by omega), if_pos (by omega)]

theorem place_skip : (q.skip cap l).place cap i = q.place cap (l + i) := by
  unfold place skip
  dsimp only
  rw [Nat.mod_add_mod, Nat.add_assoc]

theorem contents_skip : (q.skip cap l).contents cap = (q.contents cap).drop l := by
  apply List.ext_getElem
  · rw [List.length_drop, length_contents, length_contents]
    rfl
  · intro i _ _
    simp only [contents, List.getElem_drop, List.getElem_map, List.getElem_range, place_skip]
    rfl

/-- What is taken and what is left is what was there. -/
theorem front_skip (bounded : q.Bounded cap) (some : l ≤ q.len) (straight : q.head + l ≤ cap) :
    q.front l ++ (q.skip cap l).contents cap = q.contents cap := by
  rw [front_eq bounded some straight, contents_skip, List.take_append_drop]

end Cyclic

end Landaux.Lib
