import Landaux.Fs.PathSpec

/-!
# Components of a path

`get_next_component` delivers the parts of a path between slashes one by one, without the empty ones.
-/

namespace Landaux

variable {path rest : List UInt8} {name : Name}

def components (path : List UInt8) : List Name := (path.splitOn slash).filter (· ≠ [])

def Trailing (path : List UInt8) : Prop := path.getLast? = some slash

instance (path : List UInt8) : Decidable (Trailing path) := inferInstanceAs (Decidable (_ = _))

theorem components_nil : components [] = [] := rfl

theorem components_slash : components (slash :: path) = components path := by
  unfold components
  rw [List.splitOn_cons_eq_if_modifyHead, if_pos (beq_self_eq_true slash), List.filter_cons_of_neg (by simp)]

theorem components_dropWhile : components (path.dropWhile (· = slash)) = components path := by
  induction path with
  | nil => rfl
  | cons b path ih =>
    by_cases same : b = slash
    · rw [List.dropWhile_cons_of_pos (by simpa using same), ih, same, components_slash]
    · rw [List.dropWhile_cons_of_neg (by simpa using same)]

theorem components_plain (plain : slash ∉ name) (nonempty : name ≠ []) : components name = [name] := by
  unfold components
  rw [List.splitOn_eq_singleton plain, List.filter_cons_of_pos (by simpa using nonempty), List.filter_nil]

theorem components_cons (plain : slash ∉ name) (nonempty : name ≠ []) :
    components (name ++ slash :: rest) = name :: components rest := by
  unfold components
  rw [List.splitOn_append_cons_self_of_not_mem plain, List.filter_cons_of_pos (by simpa using nonempty)]

theorem components_nonempty (member : name ∈ components path) : name ≠ [] := by
  have kept := (List.mem_filter.mp member).2
  simpa using kept

theorem splitOn_length (path : List UInt8) : ∀ name ∈ path.splitOn slash, name.length ≤ path.length := by
  induction path with
  | nil =>
    intro name member
    rw [List.splitOn_nil, List.mem_singleton] at member
    rw [member]
  | cons b path ih =>
    intro name member
    rw [List.splitOn_cons_eq_if_modifyHead] at member
    rw [List.length_cons]
    split at member
    · rcases List.mem_cons.mp member with rfl | later
      · exact Nat.zero_le _
      · exact (ih name later).trans (Nat.le_succ _)
    · cases parts : path.splitOn slash with
      | nil =>
        rw [parts] at member
        exact absurd member List.not_mem_nil
      | cons first parts' =>
        rw [parts] at member ih
        rcases List.mem_cons.mp member with rfl | later
        · exact Nat.succ_le_succ (ih first List.mem_cons_self)
        · exact (ih name (List.mem_cons_of_mem _ later)).trans (Nat.le_succ _)

theorem components_length (member : name ∈ components path) : name.length ≤ path.length :=
  splitOn_length path name (List.mem_filter.mp member).1

/-- What the next component of a path is. -/
inductive Delivers (path : List UInt8) : Comp × Name × List UInt8 → Prop where
  | last {name : Name} (only : components path = [name]) (plain : ¬ Trailing path) : Delivers path (.last, name, [])
  | lastSlash {name : Name} (only : components path = [name]) (trailing : Trailing path) :
      Delivers path (.lastSlash, name, [])
  | norm {name : Name} {rest : List UInt8} (first : components path = name :: components rest)
      (starts : Starts rest) (trailing : Trailing rest ↔ Trailing path) (shorter : rest.length < path.length) :
      Delivers path (.norm, name, rest)

theorem getNextComponent_delivers (starts : Starts path) : Delivers path (getNextComponent true path) := by
  obtain ⟨nonempty, head⟩ := starts
  have plain : slash ∉ path.takeWhile (· ≠ slash) := fun member => by
    have kept := List.mem_takeWhile_imp member
    simp at kept
  have whole := List.takeWhile_append_dropWhile (p := fun b => decide (b ≠ slash)) (l := path)
  have named : path.takeWhile (· ≠ slash) ≠ [] := by
    cases path with
    | nil => exact absurd rfl nonempty
    | cons b path =>
      have first : b ≠ slash := fun same => head (by rw [same]; rfl)
      rw [List.takeWhile_cons_of_pos (by simpa using first)]
      exact List.cons_ne_nil _ _
  unfold getNextComponent
  rw [if_neg (by simpa using nonempty)]
  dsimp only
  generalize path.takeWhile (· ≠ slash) = name at plain whole named ⊢
  cases after : path.dropWhile (· ≠ slash) with
  | nil =>
    rw [if_pos rfl]
    rw [after, List.append_nil] at whole
    subst whole
    exact .last (components_plain plain named) fun trailing => plain (List.mem_of_getLast? trailing)
  | cons b q =>
    obtain rfl : b = slash := by
      have first := List.head?_dropWhile_not (fun b => decide (b ≠ slash)) path
      rw [after] at first
      simpa using first
    rw [if_neg (List.cons_ne_nil _ _), List.dropWhile_cons_of_pos (by simp)]
    rw [after] at whole
    have first : components path = name :: components (q.dropWhile (· = slash)) := by
      rw [← whole, components_cons plain named, components_dropWhile]
    by_cases done : q.dropWhile (· = slash) = []
    · rw [if_pos done]
      rw [done, components_nil] at first
      refine .lastSlash first ?_
      unfold Trailing
      rw [← whole, List.getLast?_append_of_ne_nil _ (List.cons_ne_nil _ _), List.getLast?_cons]
      congr 1
      cases last : q.getLast? with
      | none => rfl
      | some b =>
        have all := List.dropWhile_eq_nil_iff.mp done b (List.mem_of_getLast? last)
        simpa using all
    · rw [if_neg done]
      have split := List.takeWhile_append_dropWhile (p := fun b => decide (b = slash)) (l := q)
      refine .norm first (starts_dropWhile done) ?_ ?_
      · unfold Trailing
        have same : (slash :: q).getLast? = (q.dropWhile (· = slash)).getLast? := by
          conv_lhs => rw [← split]
          rw [← List.cons_append, List.getLast?_append_of_ne_nil _ done]
        rw [← whole, List.getLast?_append_of_ne_nil _ (List.cons_ne_nil _ _), same]
      · rw [← whole, List.length_append, List.length_cons]
        have shorter := List.length_dropWhile_le (fun b => decide (b = slash)) q
        omega

theorem Starts.components_ne_nil (starts : Starts path) : components path ≠ [] := by
  have delivers := getNextComponent_delivers starts
  generalize getNextComponent true path = next at delivers
  cases delivers with
  | last only | lastSlash only =>
    rw [only]
    exact List.cons_ne_nil _ _
  | norm first =>
    rw [first]
    exact List.cons_ne_nil _ _

end Landaux
