import Landaux.Fs.Filesystems
import Landaux.Fs.Locate

/-!
# Paths through mountpoints

`lookup_path_common` over mounted filesystems. The dentries are looked up one by one, below a mountpoint
in the root of what is mounted there, and only counts and parent pointers change.
-/

namespace Landaux
open Lib Mounts

variable {m t u : Mounts} {reg : Registry} {a : MountAnswers} {flags : BitVec 8} {devices : Nat → Device}
  {c d e x : Nat} {name : Name} {path : List UInt8} {held : List Nat} {k : Nat}

/-! ### What is below a dentry -/

namespace Mounts

/-- The dentry with a name below `d`, or below the root of what is mounted on it. -/
def entry (m : Mounts) (d : Nat) (name : Name) : Option Nat := m.toVfs.child (m.into d) name

/-- The dentry at a list of components from `d` on, or the error of the first step that fails. Every
component but the last is followed by a slash, and the last one is if the path ends in one. -/
def resolve (m : Mounts) (trailing : Bool) : Nat → List Name → Except Int Nat
  | d, [] => .ok d
  | d, name :: rest =>
    match m.entry d name with
    | none => .error (-ENOENT)
    | some c =>
      if (rest ≠ [] ∨ trailing) ∧ (m.node c).kind ≠ .dir then .error (-ENOTDIR) else m.resolve trailing c rest

/-- The dentries as a lookup sees them: what is mounted on a dentry is below it. -/
def view (m : Mounts) : Vfs := { m.toVfs with
  node := fun x => { m.node x with children := (m.node (m.into x)).children } }

end Mounts

theorem view_child : m.view.child d name = m.entry d name := rfl

theorem view_kind : (m.view.node x).kind = (m.node x).kind := rfl

/-- The dentries and mounts of a filesystem, between calls. -/
structure Steady (m : Mounts) : Prop where
  nonnull : 0 ∉ m.live
  children : ∀ x ∈ m.live, ∀ c ∈ (m.node x).children, c ∈ m.live
  mounted : ∀ x ∈ m.live, ∀ b, m.mnt x = some b → (m.super b).root ∈ m.live ∧ (m.node (m.super b).root).kind = .dir
  root : m.root ≠ 0 → m.root ∈ m.live ∧ (m.node m.root).kind = .dir
  counted : ∀ x ∈ m.live, 1 ≤ (m.node x).refcnt
  short : ∀ x, (m.node x).name.length < 256

structure SameMounts (m t : Mounts) : Prop where
  root : t.root = m.root
  live : t.live = m.live
  name : ∀ x, (t.node x).name = (m.node x).name
  kind : ∀ x, (t.node x).kind = (m.node x).kind
  children : ∀ x, (t.node x).children = (m.node x).children
  sb : t.sb = m.sb
  mnt : t.mnt = m.mnt
  super : t.super = m.super

namespace SameMounts

theorem refl : SameMounts m m := ⟨rfl, rfl, fun _ => rfl, fun _ => rfl, fun _ => rfl, rfl, rfl, rfl⟩

theorem trans (first : SameMounts m t) (second : SameMounts t u) : SameMounts m u where
  root := second.root.trans first.root
  live := second.live.trans first.live
  name := fun x => (second.name x).trans (first.name x)
  kind := fun x => (second.kind x).trans (first.kind x)
  children := fun x => (second.children x).trans (first.children x)
  sb := second.sb.trans first.sb
  mnt := second.mnt.trans first.mnt
  super := second.super.trans first.super

theorem into (same : SameMounts m t) : t.into = m.into := by
  funext x
  unfold Mounts.into
  rw [same.mnt, same.super]

theorem child (same : SameMounts m t) (short : Short m.toVfs) : t.toVfs.child d name = m.toVfs.child d name := by
  have short' : Short t.toVfs := fun x => by
    rw [same.name]
    exact short x
  unfold Vfs.child
  rw [same.children]
  congr 1
  funext c
  rw [short'.string, short.string, same.name]

theorem addRefcnt {n : Int} : SameMounts m { m with toVfs := m.toVfs.addRefcnt d n } where
  root := rfl
  live := rfl
  name := fun x => by rw [addRefcnt_node]
  kind := fun x => by rw [addRefcnt_node]
  children := fun x => by rw [addRefcnt_node]
  sb := rfl
  mnt := rfl
  super := rfl

theorem setParent : SameMounts m (m.setParent c d) where
  root := rfl
  live := rfl
  name := fun x => by rw [Mounts.setParent, setParent_node]
  kind := fun x => by rw [Mounts.setParent, setParent_node]
  children := fun x => by rw [Mounts.setParent, setParent_node]
  sb := rfl
  mnt := rfl
  super := rfl

end SameMounts

/-- A call in progress: it holds `held`, and the counts have grown by at most `k`. -/
structure Ahead (m t : Mounts) (held : List Nat) (k : Nat) : Prop where
  same : SameMounts m t
  kept : ∀ x, (m.node x).refcnt + held.count x ≤ (t.node x).refcnt
  grown : ∀ x, (t.node x).refcnt ≤ (m.node x).refcnt + k

/-- A count overflows that is within `n` of 2^31 in `m`. -/
def Mounts.Crowded (m : Mounts) (n : Nat) (stop : MountStop) : Prop :=
  stop = .fs .overflow ∧ ∃ x ∈ m.live, 2 ^ 31 ≤ (m.node x).refcnt + n

namespace Ahead

theorem refl : Ahead m m [] 0 := by
  refine ⟨.refl, fun x => ?_, fun x => ?_⟩
  · rw [List.count_nil, Nat.cast_zero, add_zero]
  · rw [Nat.cast_zero, add_zero]

theorem mono {n : Nat} (ahead : Ahead m t held k) (le : k ≤ n) : Ahead m t held n :=
  ⟨ahead.same, ahead.kept, fun x => by have := ahead.grown x; omega⟩

/-- References that are forgotten. -/
theorem leak {less : List Nat} (ahead : Ahead m t held k) (sub : less.Sublist held) : Ahead m t less k := by
  refine ⟨ahead.same, fun x => ?_, ahead.grown⟩
  have kept := ahead.kept x
  have fewer := sub.count_le x
  omega

theorem get (ahead : Ahead m t held k) (live : d ∈ m.live) :
    Ends (t.get d) (fun u => Ahead m u (d :: held) (k + 1)) (m.Crowded (k + 1)) := by
  unfold Mounts.get Vfs.dentryGet
  have live' : d ∈ t.live := ahead.same.live ▸ live
  rw [if_neg (not_not.mpr live')]
  split
  · have grown := ahead.grown d
    exact ⟨rfl, d, live, by push_cast; omega⟩
  refine ⟨ahead.same.trans .addRefcnt, fun x => ?_, fun x => ?_⟩
  · have kept := ahead.kept x
    dsimp only
    rw [addRefcnt_node, List.count_cons]
    by_cases same : x = d
    · subst same
      rw [if_pos (beq_self_eq_true x)]
      dsimp only
      rw [if_pos rfl]
      push_cast
      omega
    · rw [if_neg (by simpa using Ne.symm same)]
      dsimp only
      rw [if_neg same]
      omega
  · have grown := ahead.grown x
    dsimp only
    rw [addRefcnt_node]
    dsimp only
    split <;> push_cast <;> omega

/-- What a call holds on to is not freed when it is put. -/
theorem put (ahead : Ahead m t (d :: held) k) (steady : Steady m) (live : d ∈ m.live) :
    ∃ u, t.put d = .ok u ∧ Ahead m u held k := by
  have live' : d ∈ t.live := ahead.same.live ▸ live
  have once := steady.counted d live
  have kept := ahead.kept d
  rw [List.count_cons_self] at kept
  refine ⟨{ t with toVfs := t.toVfs.addRefcnt d (-1) }, ?_, ahead.same.trans .addRefcnt, fun x => ?_, fun x => ?_⟩
  · unfold Mounts.put
    rw [dentryPut_shared live' (by push_cast at kept; omega)]
    rfl
  · have kept := ahead.kept x
    dsimp only
    rw [addRefcnt_node]
    rw [List.count_cons] at kept
    by_cases same : x = d
    · subst same
      rw [if_pos (beq_self_eq_true x)] at kept
      dsimp only
      rw [if_pos rfl]
      push_cast at kept
      omega
    · rw [if_neg (by simpa using Ne.symm same)] at kept
      dsimp only
      rw [if_neg same]
      omega
  · have grown := ahead.grown x
    dsimp only
    rw [addRefcnt_node]
    dsimp only
    split <;> omega

theorem setParent (ahead : Ahead m t held k) : Ahead m (t.setParent c d) held k := by
  refine ⟨ahead.same.trans .setParent, fun x => ?_, fun x => ?_⟩
  · unfold Mounts.setParent
    rw [setParent_node]
    exact ahead.kept x
  · unfold Mounts.setParent
    rw [setParent_node]
    exact ahead.grown x

end Ahead

theorem Steady.into (steady : Steady m) (live : d ∈ m.live) (dir : (m.node d).kind = .dir) :
    m.into d ∈ m.live ∧ (m.node (m.into d)).kind = .dir := by
  unfold Mounts.into
  cases mounted : m.mnt d with
  | none => exact ⟨live, dir⟩
  | some b => exact steady.mounted d live b mounted

theorem Steady.entry_live (steady : Steady m) (live : d ∈ m.live) (dir : (m.node d).kind = .dir)
    (found : m.entry d name = some c) : c ∈ m.live :=
  steady.children _ (steady.into live dir).1 c (child_mem found).1

/-! ### Lookups -/

theorem filesystems_lookup (i : Nat) : ((filesystems devices k).fs i).lookup = lookupNode := by
  unfold filesystems
  dsimp only
  split <;> rfl

inductive Finds (m t : Mounts) (d : Nat) (name : Name) (held : List Nat) (k : Nat) : Except Int Nat × Mounts → Prop where
  | missing (none : m.toVfs.child d name = none) : Finds m t d name held k (.error (-ENOENT), t)
  | found {c : Nat} {u : Mounts} (found : m.toVfs.child d name = some c) (ahead : Ahead m u (c :: held) (k + 1)) :
      Finds m t d name held k (.ok c, u)

theorem lookupNode_spec (steady : Steady m) (ahead : Ahead m t held k) (live : d ∈ m.live)
    (dir : (m.node d).kind = .dir) :
    Ends (ran (lookupNode d name t)) (Finds m t d name held k) (m.Crowded (k + 1)) := by
  have same := ahead.same
  have live' : d ∈ t.live := same.live ▸ live
  have dir' : (t.node d).kind = .dir := (same.kind d).trans dir
  have inside : ∀ c ∈ (t.node d).children, c ∈ t.live := by
    rw [same.children, same.live]
    exact steady.children d live
  unfold lookupNode Vfs.ramfsLookup
  rw [if_neg (not_not.mpr live'), if_neg (not_not.mpr dir'), findChild_eq _ inside]
  have child : ((t.node d).children.find? fun c => decide ((t.node c).string = name)) = m.toVfs.child d name :=
    same.child steady.short
  rw [child]
  cases found : m.toVfs.child d name with
  | none => exact .missing found
  | some c =>
    have below : c ∈ m.live := steady.children d live c (child_mem found).1
    have got := ahead.get below
    unfold Mounts.get at got
    cases result : t.toVfs.dentryGet c with
    | error stop =>
      rw [result] at got
      change Ends (ran (t.ofVfs ((t.toVfs.dentryGet c).map fun s => (Except.ok c, s)))) _ _
      rw [result]
      exact got
    | ok s =>
      rw [result] at got
      change Ends (ran (t.ofVfs ((t.toVfs.dentryGet c).map fun s => (Except.ok c, s)))) _ _
      rw [result]
      exact .found found got

theorem lookupIn_spec (lookups : ∀ i, (reg.fs i).lookup = lookupNode) (steady : Steady m)
    (ahead : Ahead m t held k) (live : d ∈ m.live) (dir : (m.node d).kind = .dir) :
    Ends (t.lookupIn reg d name) (Finds m t (m.into d) name held k) (m.Crowded (k + 1)) := by
  have live' : d ∈ t.live := ahead.same.live ▸ live
  have op : (t.mntOps reg d).lookup = lookupNode := by
    unfold Mounts.mntOps Mounts.ops
    split
    · exact lookups _
    · exact lookups _
  unfold Mounts.lookupIn Mounts.touch
  rw [if_pos live', op, ahead.same.into]
  exact lookupNode_spec steady ahead (steady.into live dir).1 (steady.into live dir).2

/-- A walk returns what it finds, and holds on to it. -/
def WalkReturns (m : Mounts) (result : Except Int (Nat × Name)) (k : Nat) (r : Except Int (Nat × Name) × Mounts) :
    Prop :=
  r.1 = result ∧ Ahead m r.2 (result.toOption.map Prod.fst).toList k ∧
    ∀ e name, result = .ok (e, name) → e ∈ m.live

theorem walk_returns (lookups : ∀ i, (reg.fs i).lookup = lookupNode) (steady : Steady m) (fuel : Nat) :
    ∀ i path d t k, Ahead m t [d] k → d ∈ m.live → (m.node d).kind = .dir → Starts path → path.length ≤ fuel →
    Ends (walk reg a flags fuel i path d t)
      (WalkReturns m (locate m.view a.toAnswers flags fuel i path d) (k + fuel)) (m.Crowded (k + fuel)) := by
  induction fuel with
  | zero =>
    intro i path d t k _ _ _ starts short
    exact absurd (List.eq_nil_of_length_eq_zero (Nat.le_zero.mp short)) starts.1
  | succ fuel ih =>
    intro i path d t k ahead live dir starts length
    rw [walk, locate]
    have next := (getNextComponent_spec (a.name i) starts).cases
    generalize getNextComponent (a.name i) path = component at next ⊢
    obtain ⟨type, name, rest⟩ := component
    dsimp only at next ⊢
    have failed : ∀ {t' d' n err}, Ahead m t' [d'] n → d' ∈ m.live → n ≤ k + (fuel + 1) →
        Ends (t'.put d' >>= fun m => pure (Except.error err, m)) (WalkReturns m (.error err) (k + (fuel + 1)))
          (m.Crowded (k + (fuel + 1))) := by
      intro t' d' n err ahead live le
      obtain ⟨u, put, back⟩ := ahead.put steady live
      rw [put]
      exact ⟨rfl, back.mono le, fun _ _ same => by cases same⟩
    have returned : ∀ {t' d' n}, Ahead m t' [d'] n → d' ∈ m.live → n ≤ k + (fuel + 1) →
        WalkReturns m (.ok (d', name)) (k + (fuel + 1)) (.ok (d', name), t') := by
      intro t' d' n ahead live le
      refine ⟨rfl, ahead.mono le, ?_⟩
      rintro _ _ ⟨⟩
      exact live
    rcases next with none | ⟨some, plain, more⟩
    · rw [if_pos none, if_pos none]
      exact failed ahead live (Nat.le_add_right _ _)
    rw [if_neg some, if_neg some]
    by_cases returns : isLast type flags ∧ flags &&& LAST_RETURN ≠ 0
    · rw [if_pos returns, if_pos returns]
      exact returned ahead live (Nat.le_add_right _ _)
    rw [if_neg returns, if_neg returns]
    refine Ends.bind ((lookupIn_spec lookups steady ahead live dir).mono (fun _ finds => finds) ?_) ?_
    · rintro stop ⟨overflow, x, inside, large⟩
      exact ⟨overflow, x, inside, by push_cast at large ⊢; omega⟩
    rintro _ (none | @⟨c, u, found, ahead'⟩)
    · have none : m.view.child d name = Option.none := none
      rw [none]
      dsimp only
      by_cases create : isLast type flags ∧ flags &&& LAST_MUST_NOT_EXIST ≠ 0
      · rw [if_pos ⟨rfl, create⟩, if_pos create]
        exact returned ahead live (Nat.le_add_right _ _)
      · rw [if_neg fun all => create all.2, if_neg create]
        exact failed ahead live (Nat.le_add_right _ _)
    have found : m.view.child d name = Option.some c := found
    rw [found]
    dsimp only
    have below := steady.entry_live live dir found
    have ahead' := (ahead'.setParent (c := c) (d := d)).leak (List.Sublist.cons_cons c (List.nil_sublist _))
    have kind : ((u.setParent c d).node c).kind = (m.view.node c).kind := ahead'.same.kind c
    rw [kind]
    by_cases exists' : isLast type flags ∧ flags &&& LAST_MUST_NOT_EXIST ≠ 0
    · rw [if_pos exists', if_pos exists']
      exact failed ahead' below (by omega)
    rw [if_neg exists', if_neg exists']
    by_cases file : (m.view.node c).kind ≠ .dir
    · rw [if_pos file, if_pos file]
      by_cases wants : type = .norm ∨ type = .lastSlash ∨ flags &&& LAST_MUST_BE_DIR ≠ 0
      · rw [if_pos wants, if_pos wants]
        exact failed ahead' below (by omega)
      · rw [if_neg wants, if_neg wants]
        exact returned ahead' below (by omega)
    rw [if_neg file, if_neg file]
    by_cases last : type = .last ∨ type = .lastSlash
    · rw [if_pos last, if_pos last]
      exact returned ahead' below (by omega)
    rw [if_neg last, if_neg last]
    obtain ⟨starts', shorter⟩ := more last
    have rest := ih (i + 1) rest c _ (k + 1) ahead' below (not_not.mp file) starts' (by omega)
    rw [show k + 1 + fuel = k + (fuel + 1) by omega] at rest
    exact rest

/-- What `lookup_path_common` returns: a dentry and, if there is a component, the last name. -/
def Mounts.target (m : Mounts) (a : MountAnswers) (flags : BitVec 8) (path : List UInt8) :
    Except Int (Nat × Option Name) :=
  let path := path.dropWhile (· = slash)
  if path = [] then .ok (m.root, none)
  else (locate m.view a.toAnswers flags path.length 0 path m.root).map fun r => (r.1, some r.2)

/-- A lookup ends with `result`, and holds the dentry that it returns. -/
structure Returns (m : Mounts) (result : Except Int (Nat × Option Name)) (k : Nat)
    (r : Except Int (Nat × Option Name) × Mounts) : Prop where
  same : r.1 = result
  ahead : Ahead m r.2 (result.toOption.map Prod.fst).toList k
  live : ∀ e name, result = .ok (e, name) → e ∈ m.live

theorem lookup_returns (lookups : ∀ i, (reg.fs i).lookup = lookupNode) (steady : Steady m) (mounted : m.root ≠ 0)
    (absolute : path.head? = some slash) : Ends (m.lookupPathCommon reg a path flags)
      (Returns m (m.target a flags path) (path.length + 1)) (m.Crowded (path.length + 1)) := by
  obtain ⟨live, dir⟩ := steady.root mounted
  have crowded : ∀ {k stop}, m.Crowded k stop → k ≤ path.length + 1 → m.Crowded (path.length + 1) stop := by
    rintro k stop ⟨overflow, x, inside, large⟩ le
    exact ⟨overflow, x, inside, by omega⟩
  have length := List.length_dropWhile_le (fun b => decide (b = slash)) path
  unfold Mounts.lookupPathCommon Mounts.target
  refine Ends.bind ((Ahead.refl.get live).mono (fun _ ahead => ahead) fun _ c => crowded c (by omega)) ?_
  intro t ahead
  have root : t.root = m.root := ahead.same.root
  rw [if_neg (not_not.mpr absolute), root]
  dsimp only
  by_cases top : path.dropWhile (· = slash) = []
  · rw [if_pos top, if_pos top]
    refine ⟨rfl, ahead.mono (by omega), ?_⟩
    rintro _ _ ⟨⟩
    exact live
  rw [if_neg top, if_neg top]
  refine Ends.bind ((walk_returns lookups steady _ 0 _ m.root t _ ahead live dir (starts_dropWhile top) le_rfl).mono
    (fun _ returns => returns) fun _ c => crowded c (by omega)) ?_
  rintro ⟨r, u⟩ ⟨rfl, ahead, live⟩
  dsimp only at ahead live ⊢
  cases found : locate m.view a.toAnswers flags (path.dropWhile (· = slash)).length 0
      (path.dropWhile (· = slash)) m.root with
  | error err =>
    rw [found] at ahead
    exact ⟨rfl, ahead.mono (by omega), fun _ _ same => by cases same⟩
  | ok e =>
    rw [found] at ahead live
    refine ⟨rfl, ahead.mono (by omega), ?_⟩
    rintro _ _ ⟨⟩
    exact live e.1 e.2 rfl

/-! ### lookup_path -/

theorem components_eq_nil : path.dropWhile (· = slash) = [] ↔ components path = [] := by
  constructor
  · intro none
    rw [← components_dropWhile, none, components_nil]
  · intro none
    by_contra some
    exact (starts_dropWhile some).components_ne_nil (components_dropWhile.trans none)

theorem not_isLast_lastSlash : ¬ isLast .lastSlash 0 := fun last => last.elim (by simp) fun both => both.2 (by decide)

/-- Without flags, a walk takes the components one by one. -/
theorem locate_resolve (granted : ∀ i, a.name i = true) (fuel : Nat) : ∀ i path d, Starts path →
    path.length ≤ fuel → (locate m.view a.toAnswers 0 fuel i path d).map Prod.fst =
      m.resolve (Trailing path) d (components path) := by
  induction fuel with
  | zero =>
    intro i path d starts short
    exact absurd (List.eq_nil_of_length_eq_zero (Nat.le_zero.mp short)) starts.1
  | succ fuel ih =>
    intro i path d starts length
    rw [locate, granted i]
    have delivers := getNextComponent_delivers starts
    generalize getNextComponent true path = next at delivers ⊢
    cases delivers with
    | @last name only plain =>
      rw [only, Mounts.resolve]
      dsimp only
      rw [if_neg (by decide), if_neg fun both => both.2 (by decide), view_child]
      cases m.entry d name with
      | none =>
        dsimp only
        rw [if_neg fun both => both.2 (by decide)]
        rfl
      | some c =>
        dsimp only
        rw [if_neg fun both => both.2 (by decide), view_kind, Mounts.resolve]
        cases (m.node c).kind <;> simp [plain, LAST_MUST_BE_DIR, Except.map]
    | @lastSlash name only trailing =>
      rw [only, Mounts.resolve]
      dsimp only
      rw [if_neg (by decide), if_neg fun both => both.2 (by decide), view_child]
      cases m.entry d name with
      | none =>
        dsimp only
        rw [if_neg fun both => both.2 (by decide)]
        rfl
      | some c =>
        dsimp only
        rw [if_neg fun both => both.2 (by decide), view_kind, Mounts.resolve]
        cases (m.node c).kind <;> simp [trailing, Except.map]
    | @norm name rest first starts' trailing shorter =>
      have more := starts'.components_ne_nil
      rw [first, Mounts.resolve]
      dsimp only
      rw [if_neg (by decide), if_neg fun both => both.2 (by decide), view_child]
      cases m.entry d name with
      | none =>
        dsimp only
        rw [if_neg fun both => both.2 (by decide)]
        rfl
      | some c =>
        dsimp only
        rw [if_neg fun both => both.2 (by decide), view_kind]
        cases kind : (m.node c).kind with
        | file =>
          rw [if_pos (by decide), if_pos (Or.inl rfl), if_pos ⟨Or.inl more, by decide⟩]
          rfl
        | dir =>
          rw [if_neg (not_not.mpr rfl), if_neg (by simp), if_neg fun both => both.2 rfl, ih _ _ _ starts' (by omega)]
          simp only [trailing]

/-- `lookup_path` returns what is reached component by component, or the error of the first step that fails. -/
theorem lookupPath_resolves (devices : Nat → Device) (count : Nat) (m : Mounts) (steady : Steady m)
    (mounted : m.root ≠ 0) (a : MountAnswers) (granted : ∀ i, a.name i = true) (path : List UInt8)
    (absolute : path.head? = some slash) : Ends (m.lookupPath (filesystems devices count) a path)
      (fun r => r.1 = m.resolve (Trailing path) m.root (components path)) (m.Crowded (path.length + 1)) := by
  unfold Mounts.lookupPath
  refine Ends.bind (lookup_returns filesystems_lookup steady mounted absolute) ?_
  rintro ⟨r, t⟩ ⟨rfl, -, -⟩
  unfold Mounts.target
  dsimp only
  by_cases top : path.dropWhile (· = slash) = []
  · rw [if_pos top, components_eq_nil.mp top]
    rfl
  rw [if_neg top]
  have resolved := locate_resolve (m := m) granted _ 0 _ m.root (starts_dropWhile top) le_rfl
  rw [components_dropWhile] at resolved
  simp only [trailing_dropWhile top] at resolved
  rw [← resolved]
  cases locate m.view a.toAnswers 0 (path.dropWhile (· = slash)).length 0 (path.dropWhile (· = slash)) m.root with
  | error err => rfl
  | ok e => rfl

/-- A directory `d` with a file `x` in what is mounted on it. -/
def oneMount : Mounts where
  root := 1
  live := {1, 2, 3, 4}
  node := fun x => ⟨if x = 2 then [100] else if x = 4 then [120] else [47], 0, 1, if x = 4 then .file else .dir,
    if x = 1 then [2] else if x = 3 then [4] else [], .new⟩
  opened := ∅
  file := fun _ => ⟨0, 0, 0, 0⟩
  sb := fun x => if x ≤ 2 then 0 else 5
  mnt := fun x => if x = 2 then some 5 else none
  super := fun b => if b = 5 then ⟨1, 3⟩ else ⟨0, 1⟩

theorem oneMount_steady : Steady oneMount where
  nonnull := by decide
  children := by decide
  mounted := by
    intro x live b mounted
    change (if x = 2 then some 5 else none) = some b at mounted
    split at mounted
    · cases mounted
      decide
    · cases mounted
  root := by decide
  counted := fun x live => le_rfl
  short := by
    intro x
    change (if x = 2 then [100] else if x = 4 then [120] else [47] : List UInt8).length < 256
    split
    · decide
    · split <;> decide

theorem lookupPath_resolves_mounted : Ends
    (oneMount.lookupPath (filesystems (fun _ => nullDevice) 2) (plentiful 9) [47, 100, 47, 47, 120])
      (fun r => r.1 = oneMount.resolve (Trailing [47, 100, 47, 47, 120]) 1 (components [47, 100, 47, 47, 120]))
      (oneMount.Crowded 6) :=
  lookupPath_resolves (fun _ => nullDevice) 2 oneMount oneMount_steady (by decide) (plentiful 9) (fun _ => rfl)
    [47, 100, 47, 47, 120] rfl

example : oneMount.resolve false 1 (components [47, 100, 47, 47, 120]) = .ok 4 := by decide

end Landaux
