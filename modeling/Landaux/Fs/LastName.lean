import Landaux.Fs.MountErrors

/-!
# The name of the last component

`get_next_component` leaves each name in a buffer of its own. `lookup_path_common` frees it, or hands the
last one out in `*last_name`, and `vfs_mkdir` and `vfs_open` use that name and free it.
-/

namespace Landaux
open Lib

abbrev Buffers := Nat → Option Name

def kfreeName (bufs : Buffers) (p : Nat) : Except MountStop Buffers :=
  match bufs p with
  | none => .error (.fs .freed)
  | some _ => .ok (Function.update bufs p none)

def readName (bufs : Buffers) (p : Nat) : Except MountStop Name :=
  match bufs p with
  | none => .error (.fs .freed)
  | some name => .ok name

namespace Mounts

/-- The loop of `lookup_path_common`. The name of component `i` is put at `buffer i`. -/
def walkNamed (reg : Registry) (a : MountAnswers) (buffer : Nat → Nat) (flags : BitVec 8) :
    Nat → Nat → List UInt8 → Nat → Buffers → Mounts →
      Except MountStop (Except Int (Nat × Nat) × Buffers × Mounts)
  | 0, _, _, _, _, _ => .error (.fs .fuel)
  | fuel + 1, i, path, d, bufs, m =>
    let (type, name, path) := getNextComponent (a.name i) path
    if type = .noMore then do return (.error (-ENOMEM), bufs, ← m.put d)
    else
      let p := buffer i
      let bufs := Function.update bufs p (some name)
      if isLast type flags ∧ flags &&& LAST_RETURN ≠ 0 then .ok (.ok (d, p), bufs, m)
      else do
        match ← m.lookupIn reg d (← readName bufs p) with
        | (.error err, m) =>
          if err = -ENOENT ∧ isLast type flags ∧ flags &&& LAST_MUST_NOT_EXIST ≠ 0 then
            return (.ok (d, p), bufs, m)
          else
            let bufs ← kfreeName bufs p
            return (.error err, bufs, ← m.put d)
        | (.ok new, m) =>
          let m := m.setParent new d
          if isLast type flags ∧ flags &&& LAST_MUST_NOT_EXIST ≠ 0 then
            let bufs ← kfreeName bufs p
            return (.error (-EEXIST), bufs, ← m.put new)
          else if (m.node new).kind ≠ .dir then
            if type = .norm ∨ type = .lastSlash ∨ flags &&& LAST_MUST_BE_DIR ≠ 0 then
              let bufs ← kfreeName bufs p
              return (.error (-ENOTDIR), bufs, ← m.put new)
            else return (.ok (new, p), bufs, m)
          else if type = .last ∨ type = .lastSlash then return (.ok (new, p), bufs, m)
          else
            let bufs ← kfreeName bufs p
            walkNamed reg a buffer flags fuel (i + 1) path new bufs m

/-- `lookup_path_common`; `lastName` says whether there is a `last_name`. Beside the dentry is what
`*last_name` was set to, if it was. -/
def lookupNamed (m : Mounts) (reg : Registry) (a : MountAnswers) (buffer : Nat → Nat) (path : List UInt8)
    (flags : BitVec 8) (lastName : Bool) (bufs : Buffers) :
    Except MountStop (Except Int (Nat × Option Nat) × Buffers × Mounts) := do
  let m ← m.get m.root
  if path.head? ≠ some slash then .error (.fs .bug)
  else
    let path := path.dropWhile (· = slash)
    if path = [] then return (.ok (m.root, none), bufs, m)
    else
      match ← walkNamed reg a buffer flags path.length 0 path m.root bufs m with
      | (.error err, bufs, m) => return (.error err, bufs, m)
      | (.ok (d, p), bufs, m) =>
        if lastName then return (.ok (d, some p), bufs, m)
        else return (.ok (d, none), ← kfreeName bufs p, m)

def vfsMkdirNamed (m : Mounts) (reg : Registry) (a : MountAnswers) (buffer : Nat → Nat) (path : List UInt8)
    (bufs : Buffers) : Except MountStop (Int × Buffers × Mounts) := do
  match ← m.lookupNamed reg a buffer path LAST_MUST_NOT_EXIST true bufs with
  | (.error err, bufs, m) => return (err, bufs, m)
  | (.ok (_, none), _, _) => .error (.fs .unset)
  | (.ok (d, some p), bufs, m) =>
    let (ret, m) ← m.vfsDmkdir reg a d (← readName bufs p)
    let m ← m.put d
    return (ret, ← kfreeName bufs p, m)

def vfsOpenNamed (m : Mounts) (reg : Registry) (a : MountAnswers) (buffer : Nat → Nat) (path : List UInt8)
    (flags : BitVec 32) (bufs : Buffers) : Except MountStop (Except Int Nat × Buffers × Mounts) := do
  match ← m.lookupNamed reg a buffer path (LAST_RETURN ||| LAST_NO_SLASHES) true bufs with
  | (.error err, bufs, m) => return (.error err, bufs, m)
  | (.ok (_, none), _, _) => .error (.fs .unset)
  | (.ok (d, some p), bufs, m) =>
    let (ret, m) ← m.vfsDopen reg a d (← readName bufs p) flags
    let bufs ← kfreeName bufs p
    return (ret, bufs, ← m.put d)

end Mounts

open Mounts

variable {reg : Registry} {a : MountAnswers} {buffer : Nat → Nat} {flags : BitVec 8} {bufs : Buffers}
  {m t : Mounts} {path : List UInt8} {name : Name} {d p : Nat}

/-! ### Buffers -/

theorem readName_update : readName (Function.update bufs p (some name)) p = .ok name := by
  unfold readName
  rw [Function.update_self]

theorem kfreeName_update (fresh : bufs p = none) :
    kfreeName (Function.update bufs p (some name)) p = .ok bufs := by
  unfold kfreeName
  rw [Function.update_self, Function.update_idem, ← fresh, Function.update_eq_self]

/-- What a walk with buffers returns, when the last name is at `p`. -/
def withName (p : Nat) (bufs : Buffers) :
    Except Int (Nat × Name) × Mounts → Except Int (Nat × Nat) × Buffers × Mounts
  | (.error err, m) => (.error err, bufs, m)
  | (.ok (d, name), m) => (.ok (d, p), Function.update bufs p (some name), m)

/-- Where the name of the next component is, seen from the last one. -/
theorem Delivers.place {next : Comp × Name × List UInt8} {i : Nat} (delivers : Delivers path next) :
    next.1 ≠ .noMore ∧ (next.1 = .norm ∧ Starts next.2.2 ∧ components path = next.2.1 :: components next.2.2 ∧
        i + (components path).length - 1 = i + 1 + (components next.2.2).length - 1 ∨
      (next.1 = .last ∨ next.1 = .lastSlash) ∧ components path = [next.2.1] ∧
        i + (components path).length - 1 = i) := by
  cases delivers with
  | last only => exact ⟨nofun, Or.inr ⟨Or.inl rfl, only, by rw [only]; rfl⟩⟩
  | lastSlash only => exact ⟨nofun, Or.inr ⟨Or.inr rfl, only, by rw [only]; rfl⟩⟩
  | norm first starts =>
    refine ⟨nofun, Or.inl ⟨rfl, starts, first, ?_⟩⟩
    rw [first, List.length_cons]
    dsimp only
    omega

/-- A walk frees every name but the last one, and that too if it fails. -/
theorem walkNamed_eq (fresh : ∀ i, bufs (buffer i) = none) (fuel : Nat) : ∀ i path d m, Starts path →
    walkNamed reg a buffer flags fuel i path d bufs m =
      (walk reg a flags fuel i path d m).map (withName (buffer (i + (components path).length - 1)) bufs) := by
  induction fuel with
  | zero => exact fun _ _ _ _ _ => rfl
  | succ fuel ih =>
    intro i path d m starts
    rw [walkNamed, walk]
    cases granted : a.name i with
    | false =>
      rw [getNextComponent, if_pos (Or.inr rfl)]
      dsimp only
      rw [if_pos rfl, if_pos rfl]
      cases m.put d <;> rfl
    | true =>
      have place := (getNextComponent_delivers starts).place (i := i)
      generalize getNextComponent true path = next at place
      obtain ⟨type, name, rest⟩ := next
      dsimp only at place ⊢
      obtain ⟨some, place⟩ := place
      have free : kfreeName (Function.update bufs (buffer i) (Option.some name)) (buffer i) = .ok bufs :=
        kfreeName_update (fresh i)
      have last : isLast type flags → i + (components path).length - 1 = i := fun last => by
        rcases place with ⟨rfl, -⟩ | ⟨-, -, place⟩
        · exact absurd last not_isLast_norm
        · exact place
      rw [if_neg some, if_neg some]
      by_cases returns : isLast type flags ∧ flags &&& LAST_RETURN ≠ 0
      · rw [if_pos returns, if_pos returns, last returns.1]
        rfl
      rw [if_neg returns, if_neg returns, readName_update, free, Lib.ok_bind]
      cases looked : m.lookupIn reg d name with
      | error stop => rfl
      | ok r =>
        obtain ⟨found, m⟩ := r
        rw [Lib.ok_bind, Lib.ok_bind]
        cases found with
        | error err =>
          dsimp only
          by_cases create : err = -ENOENT ∧ isLast type flags ∧ flags &&& LAST_MUST_NOT_EXIST ≠ 0
          · rw [if_pos create, if_pos create, last create.2.1]
            rfl
          · rw [if_neg create, if_neg create, Lib.ok_bind]
            cases m.put d <;> rfl
        | ok new =>
          dsimp only
          by_cases exists' : isLast type flags ∧ flags &&& LAST_MUST_NOT_EXIST ≠ 0
          · rw [if_pos exists', if_pos exists', Lib.ok_bind]
            cases (m.setParent new d).put new <;> rfl
          rw [if_neg exists', if_neg exists']
          rcases place with ⟨rfl, starts', -, place⟩ | ⟨ends, -, place⟩
          · have goes : ¬ (Comp.norm = .last ∨ Comp.norm = .lastSlash) := by simp
            rw [if_pos (Or.inl rfl), if_pos (Or.inl rfl), if_neg goes, if_neg goes, Lib.ok_bind, Lib.ok_bind,
              ih (i + 1) rest new _ starts', place]
            split
            · cases (m.setParent new d).put new <;> rfl
            · rfl
          · rw [if_pos ends, if_pos ends, place, Lib.ok_bind]
            split
            · split
              · cases (m.setParent new d).put new <;> rfl
              · rfl
            · rfl

/-- A walk that returns a dentry has come to the last component. -/
def AtLast (path : List UInt8) (r : Except Int (Nat × Name) × Mounts) : Prop :=
  ∀ e name, r.1 = .ok (e, name) → (components path).getLast? = some name

theorem walk_last (fuel : Nat) : ∀ i path d m, Starts path →
    Ends (walk reg a flags fuel i path d m) (AtLast path) fun _ => True := by
  induction fuel with
  | zero => exact fun _ _ _ _ _ => trivial
  | succ fuel ih =>
    intro i path d m starts
    have failed : ∀ (err : Int) (r : Except MountStop Mounts),
        Ends (do return (.error err, ← r)) (AtLast path) fun _ => True := fun err r =>
      Ends.bind ends_true fun _ _ _ _ none => absurd none nofun
    rw [walk]
    cases granted : a.name i with
    | false =>
      rw [getNextComponent, if_pos (Or.inr rfl)]
      exact failed _ _
    | true =>
      have place := (getNextComponent_delivers starts).place (i := i)
      generalize getNextComponent true path = next at place
      obtain ⟨type, name, rest⟩ := next
      dsimp only at place ⊢
      obtain ⟨some, place⟩ := place
      have only : type = .last ∨ type = .lastSlash → ∀ e m, AtLast path (.ok (e, name), m) := by
        intro ends e m e' name' same
        rcases place with ⟨rfl, -⟩ | ⟨-, only, -⟩
        · simp at ends
        · obtain ⟨rfl, rfl⟩ := Prod.mk.inj (Except.ok.inj same)
          rw [only]
          rfl
      have only' : isLast type flags → ∀ e m, AtLast path (.ok (e, name), m) := fun last =>
        only (last.imp_right And.left)
      rw [if_neg some]
      by_cases returns : isLast type flags ∧ flags &&& LAST_RETURN ≠ 0
      · rw [if_pos returns]
        exact only' returns.1 d m
      rw [if_neg returns]
      apply Ends.bind ends_true
      intro r _
      obtain ⟨found, m⟩ := r
      cases found with
      | error err =>
        dsimp only
        by_cases create : err = -ENOENT ∧ isLast type flags ∧ flags &&& LAST_MUST_NOT_EXIST ≠ 0
        · rw [if_pos create]
          exact only' create.2.1 d m
        · rw [if_neg create]
          exact failed _ _
      | ok new =>
        dsimp only
        by_cases exists' : isLast type flags ∧ flags &&& LAST_MUST_NOT_EXIST ≠ 0
        · rw [if_pos exists']
          exact failed _ _
        rw [if_neg exists']
        rcases place with ⟨rfl, starts', comps, -⟩ | ⟨ends, -, -⟩
        · have goes : ¬ (Comp.norm = .last ∨ Comp.norm = .lastSlash) := by simp
          rw [if_pos (Or.inl rfl), if_neg goes]
          split
          · exact failed _ _
          · apply (ih (i + 1) rest new _ starts').mono _ fun _ => id
            intro r reached e name' same
            rw [comps, List.getLast?_cons_of_ne_nil starts'.components_ne_nil]
            exact reached e name' same
        · rw [if_pos ends]
          split
          · split
            · exact failed _ _
            · exact only ends _ _
          · exact only ends _ _

/-! ### Lookups -/

/-- What a lookup hands out, when the last name is at `p`. -/
def handName (p : Nat) (bufs : Buffers) :
    Except Int (Nat × Option Name) × Mounts → Except Int (Nat × Option Nat) × Buffers × Mounts
  | (.error err, m) => (.error err, bufs, m)
  | (.ok (d, none), m) => (.ok (d, none), bufs, m)
  | (.ok (d, some name), m) => (.ok (d, some p), Function.update bufs p (some name), m)

def lastBuffer (buffer : Nat → Nat) (path : List UInt8) : Nat := buffer ((components path).length - 1)

theorem lookupNamed_eq (fresh : ∀ i, bufs (buffer i) = none) :
    m.lookupNamed reg a buffer path flags true bufs =
      (m.lookupPathCommon reg a path flags).map (handName (lastBuffer buffer path) bufs) := by
  unfold lookupNamed lookupPathCommon lastBuffer
  cases taken : m.get m.root with
  | error stop => rfl
  | ok t =>
    rw [Lib.ok_bind, Lib.ok_bind]
    by_cases relative : path.head? ≠ some slash
    · rw [if_pos relative, if_pos relative]
      rfl
    rw [if_neg relative, if_neg relative]
    dsimp only
    by_cases slashes : path.dropWhile (· = slash) = []
    · rw [if_pos slashes, if_pos slashes]
      rfl
    rw [if_neg slashes, if_neg slashes, walkNamed_eq fresh _ _ _ _ _ (starts_dropWhile slashes),
      components_dropWhile, Nat.zero_add]
    cases walk reg a flags (path.dropWhile (· = slash)).length 0 (path.dropWhile (· = slash)) t.root t with
    | error stop => rfl
    | ok r =>
      obtain ⟨found, m⟩ := r
      cases found with
      | error err => rfl
      | ok found => rfl

/-- The name that comes with a dentry is the last component. -/
theorem lookupPathCommon_last : Ends (m.lookupPathCommon reg a path flags)
    (fun r => ∀ d name, r.1 = .ok (d, name) → name = (components path).getLast?) fun _ => True := by
  unfold lookupPathCommon
  apply Ends.bind ends_true
  intro t _
  split
  · trivial
  dsimp only
  by_cases slashes : path.dropWhile (· = slash) = []
  · rw [if_pos slashes]
    intro d name same
    have none : components path = [] := by
      rw [← components_dropWhile, slashes]
      rfl
    rw [none]
    exact (Prod.mk.inj (Except.ok.inj same)).2.symm
  · rw [if_neg slashes]
    apply Ends.bind (walk_last _ _ _ _ _ (starts_dropWhile slashes))
    intro r last
    obtain ⟨found, m⟩ := r
    cases found with
    | error err => exact fun d name same => absurd same nofun
    | ok found =>
      intro d name same
      rw [← (Prod.mk.inj (Except.ok.inj same)).2, ← components_dropWhile]
      exact (last _ _ rfl).symm

theorem splitOn_plain (path : List UInt8) : ∀ name ∈ path.splitOn slash, slash ∉ name := by
  induction path with
  | nil =>
    intro name member
    rw [List.splitOn_nil, List.mem_singleton] at member
    rw [member]
    exact List.not_mem_nil
  | cons b path ih =>
    intro name member
    rw [List.splitOn_cons_eq_if_modifyHead] at member
    split at member
    · rcases List.mem_cons.mp member with rfl | later
      · exact List.not_mem_nil
      · exact ih name later
    · rename_i other
      cases parts : path.splitOn slash with
      | nil =>
        rw [parts] at member
        exact absurd member List.not_mem_nil
      | cons first rest =>
        rw [parts] at member ih
        rcases List.mem_cons.mp member with rfl | later
        · intro inside
          rcases List.mem_cons.mp inside with same | inside
          · exact other (by simp [same])
          · exact ih first List.mem_cons_self inside
        · exact ih name (List.mem_cons_of_mem _ later)

theorem components_no_slash (member : name ∈ components path) : slash ∉ name :=
  splitOn_plain path name (List.mem_filter.mp member).1

theorem components_slashes : components path = [] ↔ ∀ b ∈ path, b = slash := by
  rw [← components_eq_nil, List.dropWhile_eq_nil_iff]
  simp

/-! ### Delivery -/

inductive NameEnds (path : List UInt8) (bufs : Buffers) :
    Except Int (Nat × Option Nat) × Buffers × Mounts → Prop where
  | failed {err : Int} {m : Mounts} : NameEnds path bufs (.error err, bufs, m)
  | found {d p : Nat} {name : Name} {m : Mounts} (last : (components path).getLast? = some name)
      (nonempty : name ≠ []) (plain : slash ∉ name) (fresh : bufs p = none) :
      NameEnds path bufs (.ok (d, some p), Function.update bufs p (some name), m)

/-- Every lookup delivers the last name, and the calls use it and leave no more buffers than there were. -/
structure NameDelivered (reg : Registry) (a : MountAnswers) (buffer : Nat → Nat) (bufs : Buffers) (m : Mounts)
    (path : List UInt8) : Prop where
  lookup : ∀ flags r, m.lookupNamed reg a buffer path flags true bufs = .ok r → NameEnds path bufs r
  mkdir : m.vfsMkdirNamed reg a buffer path bufs = (m.vfsMkdir reg a path).map fun r => (r.1, bufs, r.2)
  opens : ∀ flags, m.vfsOpenNamed reg a buffer path flags bufs =
    (m.vfsOpen reg a path flags).map fun r => (r.1, bufs, r.2)

theorem lookupNamed_ends (fresh : ∀ i, bufs (buffer i) = none) (component : components path ≠ []) :
    Ends (m.lookupNamed reg a buffer path flags true bufs) (NameEnds path bufs) fun _ => True := by
  rw [lookupNamed_eq fresh]
  have last : Ends (m.lookupPathCommon reg a path flags) _ _ := lookupPathCommon_last
  cases looked : m.lookupPathCommon reg a path flags with
  | error stop => trivial
  | ok r =>
    rw [looked] at last
    obtain ⟨found, t⟩ := r
    cases found with
    | error err => exact .failed
    | ok found =>
      obtain ⟨d, name⟩ := found
      have same := last d name rfl
      cases name with
      | none => exact absurd (List.getLast?_eq_none_iff.mp same.symm) component
      | some name =>
        have member := List.mem_of_getLast? same.symm
        exact .found same.symm (components_nonempty member) (components_no_slash member) (fresh _)

theorem vfsMkdirNamed_eq (fresh : ∀ i, bufs (buffer i) = none) :
    m.vfsMkdirNamed reg a buffer path bufs = (m.vfsMkdir reg a path).map fun r => (r.1, bufs, r.2) := by
  unfold vfsMkdirNamed vfsMkdir
  rw [lookupNamed_eq fresh]
  cases m.lookupPathCommon reg a path LAST_MUST_NOT_EXIST with
  | error stop => rfl
  | ok r =>
    obtain ⟨_ | ⟨d, _ | name⟩, t⟩ := r
    · rfl
    · rfl
    · rw [Except.map, Lib.ok_bind, Lib.ok_bind]
      dsimp only [handName]
      rw [readName_update, kfreeName_update (p := lastBuffer buffer path) (fresh _), Lib.ok_bind]
      cases t.vfsDmkdir reg a d name with
      | error stop => rfl
      | ok made =>
        obtain ⟨ret, u⟩ := made
        rw [Lib.ok_bind, Lib.ok_bind]
        cases u.put d <;> rfl

theorem vfsOpenNamed_eq (fresh : ∀ i, bufs (buffer i) = none) (flags : BitVec 32) :
    m.vfsOpenNamed reg a buffer path flags bufs = (m.vfsOpen reg a path flags).map fun r => (r.1, bufs, r.2) := by
  unfold vfsOpenNamed vfsOpen
  rw [lookupNamed_eq fresh]
  cases m.lookupPathCommon reg a path (LAST_RETURN ||| LAST_NO_SLASHES) with
  | error stop => rfl
  | ok r =>
    obtain ⟨_ | ⟨d, _ | name⟩, t⟩ := r
    · rfl
    · rfl
    · rw [Except.map, Lib.ok_bind, Lib.ok_bind]
      dsimp only [handName]
      rw [readName_update, kfreeName_update (p := lastBuffer buffer path) (fresh _), Lib.ok_bind]
      cases t.vfsDopen reg a d name flags with
      | error stop => rfl
      | ok opened =>
        obtain ⟨ret, u⟩ := opened
        rw [Lib.ok_bind, Lib.ok_bind, Lib.ok_bind]
        cases u.put d <;> rfl

/-- With no component nothing is handed out. -/
theorem lookupNamed_slashes (head : path.head? = some slash) (slashes : components path = [])
    (taken : m.get m.root = .ok t) :
    m.lookupNamed reg a buffer path flags true bufs = .ok (.ok (t.root, none), bufs, t) := by
  unfold lookupNamed
  rw [taken, Lib.ok_bind, if_neg (not_not.mpr head)]
  dsimp only
  rw [if_pos (components_eq_nil.mpr slashes)]
  rfl

theorem last_name_delivered_iff (head : path.head? = some slash) (fresh : ∀ i, bufs (buffer i) = none) :
    NameDelivered reg a buffer bufs m path ↔ (∃ b ∈ path, b ≠ slash) ∨ ∀ t, m.get m.root ≠ .ok t := by
  have component : components path ≠ [] ↔ ∃ b ∈ path, b ≠ slash := by
    rw [Ne, components_slashes]
    simp
  rw [← component]
  constructor
  · intro delivered
    by_contra neither
    rw [not_or, not_not, not_forall] at neither
    obtain ⟨slashes, t, taken⟩ := neither
    cases delivered.lookup 0 _ (lookupNamed_slashes head slashes (not_not.mp taken))
  · intro holds
    apply NameDelivered.mk _ (vfsMkdirNamed_eq fresh) (vfsOpenNamed_eq fresh)
    intro flags r returned
    rcases holds with some | none
    · exact (lookupNamed_ends fresh some).of_ok returned
    · rw [lookupNamed] at returned
      cases taken : m.get m.root with
      | error stop =>
        rw [taken] at returned
        cases returned
      | ok t => exact absurd taken (none t)

def Mounts.mounted (root : Nat) : Mounts := { Mounts.bare with toVfs := .mounted root }

theorem last_name_delivered_iff_file : NameDelivered (filesystems (fun _ => nullDevice) 2) (plentiful 9) id
    (fun _ => none) (.mounted 1) [slash, 97] :=
  (last_name_delivered_iff rfl fun _ => rfl).mpr (Or.inl ⟨97, by decide, by decide⟩)

theorem root_has_no_last_name : [slash].head? = some slash ∧
    ¬ NameDelivered (filesystems (fun _ => nullDevice) 2) (plentiful 9) id (fun _ => none) (.mounted 1) [slash] ∧
    (Mounts.mounted 1).vfsMkdirNamed (filesystems (fun _ => nullDevice) 2) (plentiful 9) id [slash] (fun _ => none) =
      .error (.fs .unset) ∧
    (Mounts.mounted 1).vfsOpenNamed (filesystems (fun _ => nullDevice) 2) (plentiful 9) id [slash] 0
      (fun _ => none) = .error (.fs .unset) := by
  refine ⟨rfl, fun delivered => ?_, rfl, rfl⟩
  cases delivered.lookup 0 _ (lookupNamed_slashes rfl rfl rfl)

end Landaux
