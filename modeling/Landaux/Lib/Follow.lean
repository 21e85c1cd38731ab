import Mathlib.Data.List.Induction
import Mathlib.Tactic.Common

/-!
# Walks along labels

`child x b` is the node at the end of the edge of `x` with label `b`. In a tree a node is reached along
one list of labels only, so that a change of one edge changes what is reached along one list.
-/

namespace Landaux.Lib

variable {α β : Type*} {child child' : α → β → Option α} {root x y z : α} {b : β} {path rest : List β}

def follow (child : α → β → Option α) (x : α) : List β → Option α
  | [] => some x
  | b :: path => (child x b).bind fun y => follow child y path

theorem follow_append : follow child x (path ++ rest) = (follow child x path).bind fun y => follow child y rest := by
  induction path generalizing x with
  | nil => rfl
  | cons b path ih =>
    rw [List.cons_append, follow, follow, Option.bind_assoc]
    congr 1
    funext y
    exact ih

theorem follow_snoc : follow child x (path ++ [b]) = (follow child x path).bind fun y => child y b := by
  rw [follow_append]
  congr 1
  funext y
  exact Option.bind_fun_some (child y b)

theorem follow_snoc_some : follow child x (path ++ [b]) = some z ↔
    ∃ y, follow child x path = some y ∧ child y b = some z := by
  rw [follow_snoc, Option.bind_eq_some_iff]

/-- What holds of the root and of the children of a node holds of each node reached. -/
theorem follow_invariant {P : α → Prop} (start : P root) (next : ∀ x b y, P x → child x b = some y → P y)
    (reached : follow child root path = some x) : P x := by
  induction path using List.reverseRecOn generalizing x with
  | nil => exact Option.some.inj reached ▸ start
  | append_singleton path b ih =>
    obtain ⟨y, before, edge⟩ := follow_snoc_some.mp reached
    exact next y b x (ih before) edge

/-- The nodes that are reached from `root` make a tree. -/
structure Rooted (child : α → β → Option α) (root : α) : Prop where
  top : ∀ path x b, follow child root path = some x → child x b ≠ some root
  unique : ∀ path rest x y b c z, follow child root path = some x → follow child root rest = some y →
    child x b = some z → child y c = some z → x = y ∧ b = c

namespace Rooted

theorem injective (tree : Rooted child root) (first : follow child root path = some x)
    (second : follow child root rest = some x) : path = rest := by
  induction path using List.reverseRecOn generalizing x rest with
  | nil =>
    obtain rfl := Option.some.inj first
    cases rest using List.reverseRecOn with
    | nil => rfl
    | append_singleton rest c =>
      obtain ⟨y, before, edge⟩ := follow_snoc_some.mp second
      exact absurd edge (tree.top rest y c before)
  | append_singleton path b ih =>
    obtain ⟨y, before, edge⟩ := follow_snoc_some.mp first
    cases rest using List.reverseRecOn with
    | nil =>
      obtain rfl := Option.some.inj second
      exact absurd edge (tree.top path y b before)
    | append_singleton rest c =>
      obtain ⟨z, before', edge'⟩ := follow_snoc_some.mp second
      obtain ⟨rfl, rfl⟩ := tree.unique path rest y z b c x before before' edge edge'
      rw [ih before before']

/-- One edge is changed, from a leaf or nothing to a leaf or nothing. -/
theorem follow_edge [DecidableEq β] (tree : Rooted child root) (found : follow child root path = some x)
    (others : ∀ rest y c, follow child root rest = some y → ¬ (y = x ∧ c = b) → child' y c = child y c)
    (before : ∀ z c, child x b = some z → child z c = none)
    (after : ∀ z c, child' x b = some z → child' z c = none) :
    follow child' root rest = if rest = path ++ [b] then child' x b else follow child root rest := by
  induction rest using List.reverseRecOn with
  | nil =>
    rw [if_neg (by simp)]
    rfl
  | append_singleton rest c ih =>
    rw [follow_snoc, ih]
    by_cases edge : rest = path ++ [b]
    · have longer : rest ++ [c] ≠ path ++ [b] := fun same => by
        have lengths := congrArg List.length same
        rw [edge] at lengths
        simp at lengths
      rw [if_pos edge, if_neg longer, edge, follow_snoc, follow_snoc, found]
      dsimp only [Option.bind_some]
      cases hit : child' x b with
      | none =>
        cases hit' : child x b with
        | none => rfl
        | some z => exact (before z c hit').symm
      | some z =>
        refine (after z c hit).trans ?_
        cases hit' : child x b with
        | none => rfl
        | some z => exact (before z c hit').symm
    · rw [if_neg edge, follow_snoc]
      cases reached : follow child root rest with
      | none =>
        have elsewhere : rest ++ [c] ≠ path ++ [b] := fun same => by
          obtain ⟨rfl, -⟩ := List.append_inj' same rfl
          rw [found] at reached
          cases reached
        rw [if_neg elsewhere]
        rfl
      | some y =>
        dsimp only [Option.bind_some]
        by_cases here : y = x ∧ c = b
        · obtain ⟨rfl, rfl⟩ := here
          rw [if_pos (by rw [tree.injective reached found])]
        · have elsewhere : rest ++ [c] ≠ path ++ [b] := fun same => by
            obtain ⟨rfl, last⟩ := List.append_inj' same rfl
            rw [found] at reached
            exact here ⟨(Option.some.inj reached).symm, (List.cons.inj last).1⟩
          rw [if_neg elsewhere]
          exact others rest y c reached here

end Rooted

end Landaux.Lib
