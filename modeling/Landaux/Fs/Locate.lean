import Landaux.Fs.Tree
import Landaux.Lib.Follow

/-!
# Lookups in the tree

The tree of names that the dentries make, and what a lookup finds in it.
-/

namespace Landaux
open Lib Vfs

variable {s t : Vfs} {d x : Nat} {name : Name} {dir : List Name} {path : List UInt8} {a : Answers}
  {flags : BitVec 8}

namespace Vfs

def item (s : Vfs) (x : Nat) : Item :=
  match (s.node x).kind with
  | .file => .file
  | .dir => .dir ((s.node x).children.map fun c => (s.node c).name)

def tree (s : Vfs) : NameTree := fun path => (follow s.child s.root path).map s.item

/-- The directory at `path` from `x` on, or the error of a walk there. -/
def way (s : Vfs) (x : Nat) (path : List Name) : Except Int Nat :=
  if path.inits.any fun q => (follow s.child x q).any fun y => (s.node y).kind = .file then .error (-ENOTDIR)
  else match follow s.child x path with
    | none => .error (-ENOENT)
    | some d => .ok d

/-- What a lookup does with its last component, when no slash follows. -/
def lastStep (s : Vfs) (flags : BitVec 8) (d : Nat) (name : Name) : Except Int (Nat × Name) :=
  if flags &&& LAST_RETURN ≠ 0 then .ok (d, name)
  else match s.child d name with
    | none => if flags &&& LAST_MUST_NOT_EXIST ≠ 0 then .ok (d, name) else .error (-ENOENT)
    | some new =>
      if flags &&& LAST_MUST_NOT_EXIST ≠ 0 then .error (-EEXIST)
      else if (s.node new).kind ≠ .dir ∧ flags &&& LAST_MUST_BE_DIR ≠ 0 then .error (-ENOTDIR)
      else .ok (new, name)

end Vfs

theorem isLast_last : isLast .last flags := Or.inl rfl

theorem not_isLast_norm : ¬ isLast .norm flags := by
  unfold isLast
  simp

theorem way_nil (kind : (s.node x).kind = .dir) : s.way x [] = .ok x := by
  have plain : ([] : List Name).inits.any (fun q => (follow s.child x q).any fun y => (s.node y).kind = .file) =
      false := by
    simp [follow, kind]
  unfold way
  rw [plain]
  rfl

/-- The first step of a walk to a directory. -/
theorem way_cons (kind : (s.node x).kind = .dir) : s.way x (name :: dir) = match s.child x name with
    | none => .error (-ENOENT)
    | some y => if (s.node y).kind = .file then .error (-ENOTDIR) else s.way y dir := by
  unfold way
  rw [List.inits_cons, List.any_cons, List.any_map]
  have here : (follow s.child x []).any (fun y => decide ((s.node y).kind = .file)) = false := by
    simp [follow, kind]
  rw [here, Bool.false_or]
  cases found : s.child x name with
  | none =>
    have none : ∀ q, follow s.child x (name :: q) = none := fun q => by rw [follow, found]; rfl
    simp [Function.comp_def, none]
  | some y =>
    have some : ∀ q, follow s.child x (name :: q) = follow s.child y q := fun q => by rw [follow, found]; rfl
    simp only [Function.comp_def, some]
    by_cases file : (s.node y).kind = .file
    · have member : ([] : List Name) ∈ dir.inits := List.mem_inits _ _ |>.mpr (List.nil_prefix)
      rw [if_pos file, if_pos]
      exact List.any_eq_true.mpr ⟨[], member, by simp [follow, file]⟩
    · rw [if_neg file]

/-- A new name can be followed by slashes. -/
theorem isLast_lastSlash (creates : flags &&& LAST_MUST_NOT_EXIST ≠ 0) : isLast .lastSlash flags := by
  refine Or.inr ⟨rfl, fun none => creates ?_⟩
  rw [show LAST_MUST_NOT_EXIST = ~~~LAST_NO_SLASHES &&& LAST_MUST_NOT_EXIST by decide, ← BitVec.and_assoc, none]
  rfl

theorem locate_way (granted : ∀ i, a.name i = true) (fuel : Nat) : ∀ i path x dir, Starts path →
    components path = dir ++ [name] → ¬ Trailing path ∨ flags &&& LAST_MUST_NOT_EXIST ≠ 0 →
    (s.node x).kind = .dir → path.length ≤ fuel →
    locate s a flags fuel i path x = (s.way x dir).bind fun d => s.lastStep flags d name := by
  induction fuel with
  | zero =>
    intro i path x dir starts _ _ _ short
    exact absurd (List.eq_nil_of_length_eq_zero (Nat.le_zero.mp short)) starts.1
  | succ fuel ih =>
    intro i path x dir starts comps plain kind length
    rw [locate, granted i]
    have delivers := getNextComponent_delivers starts
    generalize getNextComponent true path = next at delivers ⊢
    cases delivers with
    | last only =>
      obtain ⟨rfl, same⟩ := List.append_inj' (comps.symm.trans only : dir ++ [name] = [] ++ [_]) rfl
      obtain rfl := List.singleton_inj.mp same
      rw [way_nil kind]
      dsimp only [Except.bind]
      unfold lastStep
      rw [if_neg (by decide)]
      simp only [isLast_last, true_and]
      by_cases returns : flags &&& LAST_RETURN ≠ 0
      · rw [if_pos returns, if_pos returns]
      rw [if_neg returns, if_neg returns]
      cases s.child x name with
      | none => rfl
      | some new =>
        dsimp only
        by_cases exists' : flags &&& LAST_MUST_NOT_EXIST ≠ 0
        · rw [if_pos exists', if_pos exists']
        rw [if_neg exists', if_neg exists']
        by_cases file : (s.node new).kind ≠ .dir
        · simp [file]
        · simp [file]
    | lastSlash only trailing =>
      obtain ⟨rfl, same⟩ := List.append_inj' (comps.symm.trans only : dir ++ [name] = [] ++ [_]) rfl
      obtain rfl := List.singleton_inj.mp same
      have creates := plain.resolve_left (not_not.mpr trailing)
      have last := isLast_lastSlash creates
      rw [way_nil kind]
      dsimp only [Except.bind]
      unfold lastStep
      rw [if_neg (by decide)]
      by_cases returns : flags &&& LAST_RETURN ≠ 0
      · rw [if_pos ⟨last, returns⟩, if_pos returns]
      rw [if_neg fun both => returns both.2, if_neg returns]
      cases s.child x name with
      | none =>
        dsimp only
        rw [if_pos ⟨last, creates⟩, if_pos creates]
      | some new =>
        dsimp only
        rw [if_pos ⟨last, creates⟩, if_pos creates]
    | norm first starts' trailing shorter =>
      rename_i b rest
      have split := comps.symm.trans first
      cases dir with
      | nil =>
        have none := (List.cons.inj split).2
        exact absurd none.symm starts'.components_ne_nil
      | cons c dir =>
        obtain ⟨rfl, tail⟩ := List.cons.inj split
        dsimp only
        rw [way_cons kind, if_neg (by decide), if_neg fun both => not_isLast_norm both.1]
        cases s.child x c with
        | none =>
          dsimp only
          rw [if_neg fun both => not_isLast_norm both.1]
          rfl
        | some y =>
          dsimp only
          rw [if_neg fun both => not_isLast_norm both.1]
          cases file : (s.node y).kind with
          | file =>
            rw [if_pos (by decide), if_pos (Or.inl rfl), if_pos rfl]
            rfl
          | dir =>
            rw [if_neg (not_not.mpr rfl), if_neg (by simp), if_neg (by decide)]
            exact ih (i + 1) rest y dir starts' tail.symm (plain.imp_left (mt trailing.mp)) file (by omega)

theorem trailing_dropWhile (nonempty : path.dropWhile (· = slash) ≠ []) :
    Trailing (path.dropWhile (· = slash)) ↔ Trailing path := by
  have whole := List.takeWhile_append_dropWhile (p := fun b => decide (b = slash)) (l := path)
  have same : path.getLast? = (path.dropWhile (· = slash)).getLast? := by
    conv_lhs => rw [← whole]
    rw [List.getLast?_append_of_ne_nil _ nonempty]
  unfold Trailing
  rw [same]

theorem absolute_of_components (head : path.head? = some slash) (comps : components path ≠ []) : Absolute path := by
  refine ⟨head, fun none => comps ?_⟩
  rw [← components_dropWhile, none, components_nil]

/-- A lookup of a path that does not end in a slash, or of a new name: a walk to the directory, and the last
step. -/
theorem target_way (granted : ∀ i, a.name i = true) (absolute : Absolute path)
    (comps : components path = dir ++ [name]) (plain : ¬ Trailing path ∨ flags &&& LAST_MUST_NOT_EXIST ≠ 0)
    (top : (s.node s.root).kind = .dir) :
    s.target a flags path = (s.way s.root dir).bind fun d => s.lastStep flags d name := by
  have starts := starts_dropWhile absolute.component
  have plain' : ¬ Trailing (path.dropWhile (· = slash)) ∨ flags &&& LAST_MUST_NOT_EXIST ≠ 0 := by
    rw [trailing_dropWhile absolute.component]
    exact plain
  exact locate_way granted _ 0 _ _ dir starts (components_dropWhile.trans comps) plain' top le_rfl

/-! ### The tree of names -/

theorem item_file : s.item x = .file ↔ (s.node x).kind = .file := by
  unfold item
  cases (s.node x).kind <;> simp

theorem item_kind : (s.item x).kind = (s.node x).kind := by
  unfold item
  cases (s.node x).kind <;> rfl

theorem item_dir (kind : (s.node x).kind = .dir) :
    s.item x = .dir ((s.node x).children.map fun c => (s.node c).name) := by
  unfold item
  rw [kind]

theorem way_ok (found : s.way x dir = .ok d) : follow s.child x dir = some d ∧ (s.node d).kind = .dir := by
  unfold way at found
  split at found
  · cases found
  · rename_i plain
    cases reached : follow s.child x dir with
    | none =>
      rw [reached] at found
      cases found
    | some y =>
      rw [reached] at found
      cases found
      refine ⟨rfl, ?_⟩
      cases kind : (s.node d).kind with
      | dir => rfl
      | file =>
        refine absurd (List.any_eq_true.mpr ⟨dir, (List.mem_inits _ _).mpr List.prefix_rfl, ?_⟩) plain
        rw [reached]
        simpa using kind

theorem tree_names : s.tree.names dir =
    (s.way s.root dir).map fun d => (s.node d).children.map fun c => (s.node c).name := by
  have files : s.tree.fileOn dir =
      dir.inits.any fun q => (follow s.child s.root q).any fun y => (s.node y).kind = .file := by
    unfold NameTree.fileOn
    congr 1
    funext q
    unfold tree
    cases follow s.child s.root q with
    | none => rfl
    | some y => simp [item_file]
  cases found : s.way s.root dir with
  | ok d =>
    obtain ⟨reached, kind⟩ := way_ok found
    unfold way at found
    split at found
    · cases found
    · rename_i plain
      unfold NameTree.names
      rw [files, if_neg plain]
      unfold tree
      rw [reached, Option.map_some, item_dir kind]
      rfl
  | error err =>
    unfold way at found
    unfold NameTree.names
    rw [files]
    split at found
    · rename_i file
      rw [if_pos file]
      cases found
      rfl
    · rename_i plain
      rw [if_neg plain]
      unfold tree
      cases reached : follow s.child s.root dir with
      | none =>
        rw [reached] at found
        cases found
        rfl
      | some y =>
        rw [reached] at found
        cases found

theorem tree_snoc (reached : follow s.child s.root dir = some d) :
    s.tree (dir ++ [name]) = (s.child d name).map s.item := by
  unfold tree
  rw [follow_snoc, reached]
  rfl

end Landaux
