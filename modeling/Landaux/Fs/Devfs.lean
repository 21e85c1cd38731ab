import Landaux.Fs.Components
import Landaux.Lib.Follow

/-!
# Registration of devices

`devfs_register`, `make_node` and `devfs_lookup` of `devfs.c`. The dentries of the devfs are numbered in
the order in which they are made; number 0 is the root.
-/

namespace Landaux

open Lib

/-- A `dentry_t` with its `dpriv_t`; `ops` is `none` for `NULL`. -/
structure DevNode (α : Type) where
  name : Name
  mode : Kind
  refcnt : BitVec 32
  /-- the dentries whose `header` is in the list `children` -/
  children : List Nat
  ops : Option α

structure Devfs (α : Type) where
  count : Nat
  node : Nat → DevNode α

inductive DevStop where
  /-- a copy past the end of `name` and the byte of padding after it -/
  | overrun
  /-- `BUG_ON` -/
  | bug
  /-- an error number is used as a pointer -/
  | fault
  /-- a recursion of the model is longer than it can be -/
  | fuel
  deriving DecidableEq

/-- What `kmalloc` answers to one call of `devfs_register`. -/
structure DevAnswers where
  /-- for the name of component `i` -/
  name : Nat → Bool
  /-- for the dentry and for the private data of component `i` -/
  node : Nat → Bool × Bool
  /-- for those of `dev` -/
  dev : Bool × Bool

def devName : Name := [100, 101, 118]

namespace Devfs

variable {α : Type}

def mounted : Devfs α := ⟨1, fun _ => ⟨[slash], .dir, 1, [], none⟩⟩

def setNode (s : Devfs α) (d : Nat) (n : DevNode α) : Devfs α :=
  { s with node := fun x => if x = d then n else s.node x }

def makeNode (granted : Bool × Bool) (parent : Nat) (name : Name) (mode : Kind) (s : Devfs α) :
    Except DevStop (Except Int Nat × Devfs α) :=
  if granted.1 = false ∨ granted.2 = false then .ok (.error (-ENOMEM), s)
  else if 256 ≤ name.length then .error .overrun
  else
    let d := s.count
    let s := s.setNode parent { s.node parent with children := (s.node parent).children ++ [d] }
    .ok (.ok d, { s.setNode d ⟨name, mode, 1, [], none⟩ with count := d + 1 })

def devfsLookup (d : Nat) (name : Name) (s : Devfs α) : Except Int Nat × Devfs α :=
  if (s.node d).mode ≠ .dir then (.error (-ENOTDIR), s)
  else
    match (s.node d).children.find? fun c => (s.node c).name = name with
    | none => (.error (-ENOENT), s)
    | some c => (.ok c, s.setNode c { s.node c with refcnt := (s.node c).refcnt + 1 })

/-- The end of `devfs_register`, in the directory `parent`. -/
def registerLast (a : DevAnswers) (ops : α) (i : Nat) (name : Name) (parent : Nat) (s : Devfs α) :
    Except DevStop (Int × Devfs α) := do
  match ← s.makeNode (a.node i) parent name .dir with
  | (.error err, s) => return (err, s)
  | (.ok d, s) =>
    match ← s.makeNode a.dev d devName .file with
    | (.error _, _) => .error .fault
    | (.ok dev, s) => return (0, s.setNode dev { s.node dev with ops := some ops })

/-- The loop of `devfs_register` from component `i` on. -/
def registerFrom (a : DevAnswers) (ops : α) : Nat → Nat → List UInt8 → Nat → Devfs α → Except DevStop (Int × Devfs α)
  | 0, _, _, _, _ => .error .fuel
  | fuel + 1, i, path, parent, s =>
    let (type, name, path) := getNextComponent (a.name i) path
    if type = .noMore then .error .bug
    else if type ≠ .norm then s.registerLast a ops i name parent
    else
      match s.devfsLookup parent name with
      | (.ok d, s) => registerFrom a ops fuel (i + 1) path d s
      | (.error _, s) => do
        match ← s.makeNode (a.node i) parent name .dir with
        | (.error err, s) => return (err, s)
        | (.ok d, s) => registerFrom a ops fuel (i + 1) path d s

def devfsRegister (a : DevAnswers) (path : List UInt8) (ops : α) (s : Devfs α) : Except DevStop (Int × Devfs α) :=
  registerFrom a ops (path.length + 1) 0 path 0 s

/-! ### What lookups find -/

def child (s : Devfs α) (d : Nat) (name : Name) : Option Nat :=
  if (s.node d).mode = .dir then (s.node d).children.find? fun c => (s.node c).name = name else none

/-- The type and the operations of the node at a path from the root. -/
def entry (s : Devfs α) (path : List Name) : Option (Kind × Option α) :=
  (follow s.child 0 path).map fun x => ((s.node x).mode, (s.node x).ops)

def Distinct (s : Devfs α) : Prop := ∀ d < s.count, ((s.node d).children.map fun c => (s.node c).name).Nodup

/-- The dentries make a tree, directories have no operations, and names fit. -/
structure Wf (s : Devfs α) : Prop where
  nonempty : 0 < s.count
  root : (s.node 0).mode = .dir
  inside : ∀ x < s.count, ∀ c ∈ (s.node x).children, 0 < c ∧ c < s.count
  single : ∀ x < s.count, ∀ y < s.count, ∀ c ∈ (s.node x).children, c ∈ (s.node y).children → x = y
  plain : ∀ x < s.count, (s.node x).mode = .dir → (s.node x).ops = none
  short : ∀ x < s.count, (s.node x).name.length ≤ 255

variable {s t : Devfs α} {a : DevAnswers} {d x c parent i fuel : Nat} {name b : Name} {mode : Kind} {ops : α}
  {path r : List Name} {granted : Bool × Bool}

theorem devfsLookup_found (found : s.child d name = some c) :
    s.devfsLookup d name = (.ok c, s.setNode c { s.node c with refcnt := (s.node c).refcnt + 1 }) := by
  unfold child at found
  unfold devfsLookup
  by_cases dir : (s.node d).mode = .dir
  · rw [if_pos dir] at found
    rw [if_neg (not_not.mpr dir), found]
  · rw [if_neg dir] at found
    cases found

theorem devfsLookup_missing (missing : s.child d name = none) : ∃ err, s.devfsLookup d name = (.error err, s) := by
  unfold child at missing
  unfold devfsLookup
  by_cases dir : (s.node d).mode = .dir
  · rw [if_pos dir] at missing
    rw [if_neg (not_not.mpr dir), missing]
    exact ⟨_, rfl⟩
  · rw [if_pos dir]
    exact ⟨_, rfl⟩

theorem child_mem (found : s.child d name = some c) :
    (s.node d).mode = .dir ∧ c ∈ (s.node d).children ∧ (s.node c).name = name := by
  unfold child at found
  split at found
  · rename_i dir
    have named := List.find?_some found
    exact ⟨dir, List.mem_of_find?_eq_some found, by simpa using named⟩
  · cases found

/-- Every dentry reached was made. -/
theorem Wf.reached (wf : Wf s) (reached : follow s.child 0 path = some x) : x < s.count := by
  have made : x = 0 ∨ x < s.count := by
    apply follow_invariant (P := fun x => x = 0 ∨ x < s.count) (Or.inl rfl) _ reached
    intro y b z below edge
    have lt : y < s.count := below.elim (fun zero => zero ▸ wf.nonempty) id
    exact Or.inr (wf.inside y lt z (child_mem edge).2.1).2
  exact made.elim (fun zero => zero ▸ wf.nonempty) id

theorem Wf.rooted (wf : Wf s) : Rooted s.child 0 := by
  constructor
  case top =>
    intro path x b reached edge
    have inside := wf.inside x (wf.reached reached) 0 (child_mem edge).2.1
    exact absurd inside.1 (lt_irrefl 0)
  case unique =>
    intro path rest x y b c z reached reached' edge edge'
    obtain ⟨-, member, named⟩ := child_mem edge
    obtain ⟨-, member', named'⟩ := child_mem edge'
    exact ⟨wf.single x (wf.reached reached) y (wf.reached reached') z member member', named.symm.trans named'⟩

/-! ### One node more -/

structure Makes (s : Devfs α) (parent : Nat) (name : Name) (mode : Kind) (t : Devfs α) : Prop where
  count : t.count = s.count + 1
  new : t.node s.count = ⟨name, mode, 1, [], none⟩
  grown : t.node parent = { s.node parent with children := (s.node parent).children ++ [s.count] }
  others : ∀ x, x ≠ s.count → x ≠ parent → t.node x = s.node x

theorem makeNode_makes (mode : Kind) (inside : parent < s.count)
    (short : name.length ≤ 255) :
    ∃ t, s.makeNode (true, true) parent name mode = .ok (.ok s.count, t) ∧ Makes s parent name mode t := by
  unfold makeNode
  rw [if_neg (by decide), if_neg (by omega)]
  refine ⟨_, rfl, rfl, if_pos rfl, ?_, fun x old other => ?_⟩
  · exact (if_neg (by omega)).trans (if_pos rfl)
  · exact (if_neg old).trans (if_neg other)

theorem makeNode_overrun (long : ¬ name.length ≤ 255) :
    s.makeNode (true, true) parent name mode = .error .overrun := by
  unfold makeNode
  rw [if_neg (by decide), if_pos (by omega)]

namespace Makes

variable (makes : Makes s parent name mode t)
include makes

theorem name_eq (old : x < s.count) : (t.node x).name = (s.node x).name := by
  by_cases here : x = parent
  · rw [here, makes.grown]
  · rw [makes.others x (by omega) here]

theorem mode_eq (old : x < s.count) : (t.node x).mode = (s.node x).mode := by
  by_cases here : x = parent
  · rw [here, makes.grown]
  · rw [makes.others x (by omega) here]

theorem ops_eq (old : x < s.count) : (t.node x).ops = (s.node x).ops := by
  by_cases here : x = parent
  · rw [here, makes.grown]
  · rw [makes.others x (by omega) here]

theorem children_eq (old : x < s.count) :
    (t.node x).children = (s.node x).children ++ if x = parent then [s.count] else [] := by
  by_cases here : x = parent
  · rw [if_pos here, here, makes.grown]
  · rw [if_neg here, makes.others x (by omega) here, List.append_nil]

theorem wf (wf : Wf s) (inside : parent < s.count) (short : name.length ≤ 255) : Wf t := by
  have old : ∀ {x}, x < t.count → x ≠ s.count → x < s.count := by
    intro x below other
    have count := makes.count
    omega
  have members : ∀ x < s.count, ∀ c ∈ (t.node x).children, c ∈ (s.node x).children ∨ x = parent ∧ c = s.count := by
    intro x below c member
    rw [makes.children_eq below, List.mem_append] at member
    refine member.imp id fun added => ?_
    split at added
    · exact ⟨‹_›, List.mem_singleton.mp added⟩
    · cases added
  constructor
  case nonempty =>
    rw [makes.count]
    exact Nat.succ_pos _
  case root =>
    rw [makes.mode_eq wf.nonempty]
    exact wf.root
  case inside =>
    intro x below c member
    rw [makes.count]
    by_cases new : x = s.count
    · rw [new, makes.new] at member
      cases member
    · rcases members x (old below new) c member with kept | ⟨-, rfl⟩
      · obtain ⟨positive, less⟩ := wf.inside x (old below new) c kept
        omega
      · have nonempty := wf.nonempty
        omega
  case single =>
    intro x below y below' c member member'
    by_cases new : x = s.count
    · rw [new, makes.new] at member
      cases member
    by_cases new' : y = s.count
    · rw [new', makes.new] at member'
      cases member'
    have lt := old below new
    have lt' := old below' new'
    rcases members x lt c member with kept | ⟨rfl, rfl⟩
    · rcases members y lt' c member' with kept' | ⟨-, rfl⟩
      · exact wf.single x lt y lt' c kept kept'
      · exact absurd (wf.inside x lt _ kept).2 (lt_irrefl _)
    · rcases members y lt' _ member' with kept' | ⟨rfl, -⟩
      · exact absurd (wf.inside y lt' _ kept').2 (lt_irrefl _)
      · rfl
  case plain =>
    intro x below dir
    by_cases new : x = s.count
    · rw [new, makes.new]
    · rw [makes.mode_eq (old below new)] at dir
      rw [makes.ops_eq (old below new)]
      exact wf.plain x (old below new) dir
  case short =>
    intro x below
    by_cases new : x = s.count
    · rw [new, makes.new]
      exact short
    · rw [makes.name_eq (old below new)]
      exact wf.short x (old below new)

theorem child_new : t.child s.count b = none := by
  unfold child
  rw [makes.new]
  exact ite_self _

/-- A dentry that was there finds what it found, or else the new one. -/
theorem child_old (wf : Wf s) (old : x < s.count) : t.child x b =
    (s.child x b).or (if x = parent ∧ (s.node parent).mode = .dir ∧ name = b then some s.count else none) := by
  unfold child
  rw [makes.mode_eq old]
  by_cases dir : (s.node x).mode = .dir
  · have kept : (s.node x).children.find? (fun c => (t.node c).name = b) =
        (s.node x).children.find? fun c => (s.node c).name = b := by
      apply List.find?_congr
      intro c member
      rw [makes.name_eq (wf.inside x old c member).2]
    rw [if_pos dir, if_pos dir, makes.children_eq old, List.find?_append, kept]
    congr 1
    by_cases here : x = parent
    · subst here
      rw [if_pos rfl, List.find?_singleton, makes.new]
      simp [dir]
    · rw [if_neg here, if_neg fun both => here both.1]
      rfl
  · rw [if_neg dir, if_neg dir, Option.none_or, if_neg]
    rintro ⟨rfl, dir', -⟩
    exact dir dir'

/-- A new node that is found first is reached by one path more. -/
theorem follow_seen (wf : Wf s) (reached : follow s.child 0 path = some parent) (dir : (s.node parent).mode = .dir)
    (missing : s.child parent name = none) :
    follow t.child 0 r = if r = path ++ [name] then some s.count else follow s.child 0 r := by
  have edge : t.child parent name = some s.count := by
    rw [makes.child_old wf (wf.reached reached), missing, if_pos ⟨rfl, dir, rfl⟩, Option.none_or]
  rw [← edge]
  apply wf.rooted.follow_edge reached
  · intro rest y c reached' other
    rw [makes.child_old wf (wf.reached reached'), if_neg, Option.or_none]
    rintro ⟨rfl, -, rfl⟩
    exact other ⟨rfl, rfl⟩
  · intro z c found
    rw [missing] at found
    cases found
  · intro z c found
    obtain rfl := Option.some.inj (edge.symm.trans found)
    exact makes.child_new

/-- Otherwise every path ends where it ended. -/
theorem follow_hidden (wf : Wf s) (hidden : ∀ path, follow s.child 0 path = some parent →
    (s.node parent).mode = .file ∨ s.child parent name ≠ none) : follow t.child 0 r = follow s.child 0 r := by
  induction r using List.reverseRecOn with
  | nil => rfl
  | append_singleton r b ih =>
    rw [follow_snoc, follow_snoc, ih]
    cases reached : follow s.child 0 r with
    | none => rfl
    | some x =>
      rw [Option.bind_some, Option.bind_some, makes.child_old wf (wf.reached reached)]
      cases found : s.child x b with
      | some c => rfl
      | none =>
        rw [Option.none_or, if_neg]
        rintro ⟨rfl, dir, rfl⟩
        rcases hidden r reached with file | exists'
        · rw [dir] at file
          cases file
        · exact exists' found

theorem entry_eq (wf : Wf s) (same : follow t.child 0 r = follow s.child 0 r) :
    t.entry r = s.entry r := by
  unfold entry
  rw [same]
  cases reached : follow s.child 0 r with
  | none => rfl
  | some x =>
    rw [Option.map_some, Option.map_some, makes.mode_eq (wf.reached reached), makes.ops_eq (wf.reached reached)]

/-- A name that was not there keeps the names different. -/
theorem distinct (wf : Wf s) (before : Distinct s) (inside : parent < s.count) (dir : (s.node parent).mode = .dir)
    (missing : s.child parent name = none) : Distinct t := by
  intro d below
  by_cases new : d = s.count
  · rw [new, makes.new]
    exact List.nodup_nil
  have old : d < s.count := by
    have count := makes.count
    omega
  have kept : (s.node d).children.map (fun c => (t.node c).name) = (s.node d).children.map fun c => (s.node c).name := by
    apply List.map_congr_left
    intro c member
    exact makes.name_eq (wf.inside d old c member).2
  rw [makes.children_eq old, List.map_append, kept]
  by_cases here : d = parent
  · subst here
    rw [if_pos rfl, List.map_singleton, makes.new]
    refine List.Nodup.append (before d old) (List.nodup_singleton _) ?_
    intro b member last
    obtain rfl := List.mem_singleton.mp last
    obtain ⟨c, child, named⟩ := List.mem_map.mp member
    unfold Devfs.child at missing
    rw [if_pos dir] at missing
    exact absurd named (by simpa using List.find?_eq_none.mp missing c child)
  · rw [if_neg here, List.map_nil, List.append_nil]
    exact before d old

end Makes

/-! ### Changes of one node -/

structure SameNames (s t : Devfs α) : Prop where
  count : t.count = s.count
  name : ∀ x, (t.node x).name = (s.node x).name
  mode : ∀ x, (t.node x).mode = (s.node x).mode
  children : ∀ x, (t.node x).children = (s.node x).children

namespace SameNames

variable (same : SameNames s t)
include same

theorem child : t.child = s.child := by
  funext d name
  unfold Devfs.child
  simp only [same.name, same.mode, same.children]

theorem distinct (before : Distinct s) : Distinct t := by
  intro d below
  rw [same.count] at below
  rw [same.children]
  simp only [same.name]
  exact before d below

theorem wf (wf : Wf s) (plain : ∀ x < s.count, (s.node x).mode = .dir → (t.node x).ops = none) : Wf t := by
  constructor
  case nonempty =>
    rw [same.count]
    exact wf.nonempty
  case root =>
    rw [same.mode]
    exact wf.root
  case inside =>
    intro x
    rw [same.count, same.children]
    exact wf.inside x
  case single =>
    intro x below y below' c
    rw [same.count] at below below'
    rw [same.children, same.children]
    exact wf.single x below y below' c
  case plain =>
    intro x
    rw [same.count, same.mode]
    exact plain x
  case short =>
    intro x
    rw [same.count, same.name]
    exact wf.short x

end SameNames

theorem sameNames_setNode {n : DevNode α} (name : n.name = (s.node d).name) (mode : n.mode = (s.node d).mode)
    (children : n.children = (s.node d).children) : SameNames s (s.setNode d n) := by
  constructor
  case count => rfl
  case name =>
    intro x
    unfold setNode
    dsimp only
    split
    · rw [name, ‹x = d›]
    · rfl
  case mode =>
    intro x
    unfold setNode
    dsimp only
    split
    · rw [mode, ‹x = d›]
    · rfl
  case children =>
    intro x
    unfold setNode
    dsimp only
    split
    · rw [children, ‹x = d›]
    · rfl

/-- `dentry_get` changes nothing that is looked up. -/
theorem sameNames_get {n : BitVec 32} : SameNames s (s.setNode d { s.node d with refcnt := n }) :=
  sameNames_setNode rfl rfl rfl

theorem ops_get {n : BitVec 32} : ((s.setNode d { s.node d with refcnt := n }).node x).ops = (s.node x).ops := by
  unfold setNode
  dsimp only
  split
  · rw [‹x = d›]
  · rfl

theorem wf_get {n : BitVec 32} (wf : Wf s) : Wf (s.setNode d { s.node d with refcnt := n }) :=
  sameNames_get.wf wf fun x below dir => ops_get.trans (wf.plain x below dir)

theorem entry_get {n : BitVec 32} : (s.setNode d { s.node d with refcnt := n }).entry r = s.entry r := by
  unfold entry
  rw [sameNames_get.child]
  simp only [sameNames_get.mode, ops_get]

end Devfs
end Landaux
