import Landaux.Fs.NewNames
import Landaux.Fs.Devfs
import Landaux.Fs.Tar

/-!
# Registration in a mounted devfs

`devfs_register` on the dentries of the mounted filesystems. A component that is too long for a dentry is only
refused when there is no memory for it.
-/

namespace Landaux
open Lib Mounts

/-- The mounted filesystems, with the `ops` in the private data of the dentries of devfs. -/
structure DevMounts extends Mounts where
  devices : Nat → Device

structure RegisterAnswers where
  /-- whether the `kmalloc` for the name of component `i` succeeds -/
  name : Nat → Bool
  /-- for the dentry and for the private data of component `i` -/
  node : Nat → MountAnswers
  /-- for those of `dev` -/
  dev : MountAnswers

inductive NameStop where
  | vfs (stop : MountStop)
  | tar (stop : TarStop)
  /-- an error number is used as a pointer -/
  | fault
  deriving DecidableEq

/-- A step in a function of a filesystem. -/
def inDevfs {α : Type} (r : Except FsStop α) : Except NameStop α := r.mapError fun stop => .vfs (.fs stop)

/-- `make_node`, which returns the new dentry. -/
def Mounts.newNode (a : MountAnswers) (parent : Nat) (name : Name) (kind : Kind) (m : Mounts) :
    Except FsStop (Except Int Nat × Mounts) :=
  match a.dentry with
  | none => .ok (.error (-ENOMEM), m)
  | some d => do
    let (ret, m) ← m.makeNode a parent name kind
    return (if ret < 0 then .error ret else .ok d, m)

namespace DevMounts

/-- The end of `devfs_register`, in the directory `parent`. -/
def registerLast (a : RegisterAnswers) (ops : Device) (i : Nat) (name : Name) (parent : Nat) (s : DevMounts) :
    Except NameStop (Int × DevMounts) := do
  match ← inDevfs (newNode (a.node i) parent name .dir s.toMounts) with
  | (.error err, m) => return (err, { s with toMounts := m })
  | (.ok d, m) =>
    match ← inDevfs (newNode a.dev d devName .file m) with
    | (.error _, _) => .error .fault
    | (.ok dev, m) => return (0, { toMounts := m, devices := Function.update s.devices dev ops })

/-- The loop of `devfs_register` from component `i` on. -/
def registerFrom (a : RegisterAnswers) (ops : Device) :
    Nat → Nat → List UInt8 → Nat → DevMounts → Except NameStop (Int × DevMounts)
  | 0, _, _, _, _ => .error (.vfs (.fs .fuel))
  | fuel + 1, i, path, parent, s =>
    let (type, name, path) := getNextComponent (a.name i) path
    if type = .noMore then .error (.vfs (.fs .bug))
    else if type ≠ .norm then s.registerLast a ops i name parent
    else do
      match ← inDevfs (lookupNode parent name s.toMounts) with
      | (.ok d, m) => registerFrom a ops fuel (i + 1) path d { s with toMounts := m }
      | (.error _, m) =>
        match ← inDevfs (newNode (a.node i) parent name .dir m) with
        | (.error err, m) => return (err, { s with toMounts := m })
        | (.ok d, m) => registerFrom a ops fuel (i + 1) path d { s with toMounts := m }

/-- `root` is the dentry of `root` in `devfs.c`. -/
def devfsRegister (a : RegisterAnswers) (root : Nat) (path : List UInt8) (ops : Device) (s : DevMounts) :
    Except NameStop (Int × DevMounts) :=
  s.registerFrom a ops (path.length + 1) 0 path root

end DevMounts

/-- The components that `devfs_register` sees. It does not skip a slash at the start. -/
def devNames (path : List UInt8) : List Name :=
  if path.head? = some slash then [] :: components path else components path

/-- How many of the components are there, from `d` on. -/
def Mounts.known (m : Mounts) : Nat → List Name → Nat
  | _, [] => 0
  | d, name :: names =>
    match m.toVfs.lookedUp d name with
    | none => 0
    | some c => m.known c names + 1

/-- A component is too long, and there is memory for it and for all before it that are not there yet. The
components are numbered from `i` on. -/
def RegisterAnswers.TooLong (a : RegisterAnswers) (i : Nat) (m : Mounts) (d : Nat) (names : List Name) : Prop :=
  ∃ k name, names[k]? = some name ∧ PATH_MAX ≤ name.length ∧
    ∀ j ≤ k, a.name (i + j) = true ∧ (m.known d names.dropLast ≤ j → (a.node (i + j)).ForNode)

/-- The new dentries from component `i` on are at different addresses that are not in use. -/
structure RegisterAnswers.Fresh (a : RegisterAnswers) (i : Nat) (m : Mounts) : Prop where
  unused : ∀ j p, i ≤ j → (a.node j).dentry = some p → p ∉ m.live
  distinct : ∀ j k p, (a.node j).dentry = some p → (a.node k).dentry = some p → j = k

variable {m n t : Mounts} {a : MountAnswers} {b : RegisterAnswers} {s u : DevMounts} {ops : Device}
  {d c p x i k parent : Nat} {name : Name} {names : List Name} {path : List UInt8} {kind : Kind}

/-! ### Components -/

/-- What the next component is in the loop of `devfs_register`. -/
inductive DevNext (path : List UInt8) : Comp × Name × List UInt8 → Prop where
  | last {type : Comp} {name : Name} {rest : List UInt8} (some : type ≠ .noMore) (ends : type ≠ .norm)
      (only : devNames path = [name]) : DevNext path (type, name, rest)
  | norm {name : Name} {rest : List UInt8} (first : devNames path = name :: devNames rest)
      (more : devNames rest ≠ []) : DevNext path (.norm, name, rest)

theorem Starts.devNames (starts : Starts path) : Landaux.devNames path = components path := if_neg starts.2

theorem devNext (nonempty : path ≠ []) : DevNext path (getNextComponent true path) := by
  by_cases slashed : path.head? = some slash
  · obtain ⟨rest, rfl⟩ : ∃ rest, path = slash :: rest := by
      cases path with
      | nil => exact absurd rfl nonempty
      | cons b rest =>
        cases slashed
        exact ⟨rest, rfl⟩
    have names : devNames (slash :: rest) = [] :: components rest := by
      rw [Landaux.devNames, if_pos slashed, components_slash]
    unfold getNextComponent
    rw [if_neg (by simp)]
    dsimp only
    rw [List.takeWhile_cons_of_neg (by decide), List.dropWhile_cons_of_neg (by decide), if_neg (List.cons_ne_nil _ _),
      List.dropWhile_cons_of_pos (by decide)]
    split
    · rename_i slashes
      refine .last (by decide) (by decide) ?_
      rw [names, ← components_dropWhile, slashes]
      rfl
    · rename_i more
      have starts := starts_dropWhile more
      have same : devNames (rest.dropWhile (· = slash)) = components rest := starts.devNames.trans components_dropWhile
      refine .norm ?_ ?_
      · rw [same]
        exact names
      · rw [starts.devNames]
        exact starts.components_ne_nil
  · have starts : Starts path := ⟨nonempty, slashed⟩
    have delivers := getNextComponent_delivers starts
    generalize getNextComponent true path = next at delivers
    cases delivers with
    | last only => exact .last (by decide) (by decide) (starts.devNames.trans only)
    | lastSlash only => exact .last (by decide) (by decide) (starts.devNames.trans only)
    | norm first starts' =>
      refine .norm ?_ ?_
      · rw [starts.devNames, starts'.devNames]
        exact first
      · rw [starts'.devNames]
        exact starts'.components_ne_nil

/-! ### Lookups in the devfs -/

theorem inDevfs_ends {α : Type} {post : α → Prop} {r : Except FsStop α}
    (ends : Ends r post fun stop => stop ≠ .overrun) :
    Ends (inDevfs r) post fun stop => stop ≠ .vfs (.fs .overrun) := by
  cases r with
  | ok x => exact ends
  | error stop => exact fun same => ends (MountStop.fs.inj (NameStop.vfs.inj same))

/-- Lookups only count references. -/
theorem lookupNode_same : Ends (lookupNode d name m)
    (fun r => LooksUp m.toVfs d name (r.1, r.2.toVfs) ∧ SameMounts m r.2) fun stop => stop ≠ .overrun := by
  have looks : Ends (m.toVfs.ramfsLookup d name) (LooksUp m.toVfs d name) fun stop => stop ≠ .overrun :=
    ramfsLookup_names
  have counts : Ends (m.toVfs.ramfsLookup d name) (fun r => SameMounts m { m with toVfs := r.2 }) fun _ => True := by
    unfold Vfs.ramfsLookup
    split
    · trivial
    split
    · exact .refl
    apply Ends.bind ends_true
    intro found _
    cases found with
    | none => exact .refl
    | some c =>
      have gets : Ends (m.toVfs.dentryGet c) (fun t => SameMounts m { m with toVfs := t }) fun _ => True := by
        unfold Vfs.dentryGet
        split
        · trivial
        split
        · trivial
        · exact SameMounts.addRefcnt
      exact Ends.bind gets fun t same => same
  unfold lookupNode Mounts.ofVfs
  cases result : m.toVfs.ramfsLookup d name with
  | error stop => exact looks.of_error result
  | ok r => exact ⟨looks.of_ok result, counts.of_ok result⟩

theorem SameMounts.lookedUp (same : SameMounts m n) (fits : NamesFit m.toVfs) :
    n.toVfs.lookedUp d name = m.toVfs.lookedUp d name := by
  unfold Vfs.lookedUp
  rw [same.kind, same.child fun x => (fits x).trans (by decide)]

theorem SameMounts.known (same : SameMounts m n) (fits : NamesFit m.toVfs) (names : List Name) :
    ∀ d, n.known d names = m.known d names := by
  induction names with
  | nil => exact fun _ => rfl
  | cons name names ih =>
    intro d
    rw [Mounts.known, Mounts.known, same.lookedUp fits]
    cases m.toVfs.lookedUp d name with
    | none => rfl
    | some c => exact congrArg (· + 1) (ih c)

theorem known_missing (missing : m.toVfs.lookedUp d name = none) : m.known d (name :: names) = 0 := by
  rw [Mounts.known, missing]

theorem known_found (found : m.toVfs.lookedUp d name = some c) : m.known d (name :: names) = m.known c names + 1 := by
  rw [Mounts.known, found]

/-- Nothing is below a new dentry. -/
theorem known_empty (empty : (m.node d).children = []) : m.known d names = 0 := by
  cases names with
  | nil => rfl
  | cons name names =>
    apply known_missing
    unfold Vfs.lookedUp Vfs.child
    rw [empty]
    exact ite_self none

/-! ### One component -/

theorem newNode_refused (refused : ¬ a.ForNode) : m.newNode a d name kind = .ok (.error (-ENOMEM), m) := by
  unfold Mounts.newNode
  cases dentry : a.dentry with
  | none => rfl
  | some p =>
    dsimp only
    rw [makeNode_refused refused]
    rfl

theorem newNode_made (dentry : a.dentry = some p) (priv : a.priv = true) (short : name.length < PATH_MAX) :
    Ends (m.newNode a d name kind) (fun r => r.1 = .ok p ∧ MadeNode m r.2 d p name kind)
      fun stop => stop ≠ .overrun := by
  unfold Mounts.newNode
  rw [dentry]
  apply Ends.bind (makeNode_made dentry priv short)
  intro r made
  obtain ⟨ret, n⟩ := r
  obtain ⟨rfl, made⟩ := made
  exact ⟨rfl, made⟩

theorem RegisterAnswers.Fresh.later (fresh : b.Fresh i m) (live : n.live = m.live) : b.Fresh (i + 1) n := by
  refine ⟨fun j p le dentry => ?_, fresh.distinct⟩
  rw [live]
  exact fresh.unused j p (by omega) dentry

theorem RegisterAnswers.Fresh.made (fresh : b.Fresh i m) (dentry : (b.node i).dentry = some p)
    (live : n.live = insert p m.live) : b.Fresh (i + 1) n := by
  refine ⟨fun j q le dentry' => ?_, fresh.distinct⟩
  rw [live, Finset.mem_insert, not_or]
  refine ⟨?_, fresh.unused j q (by omega) dentry'⟩
  rintro rfl
  have index := fresh.distinct i j q dentry dentry'
  omega

/-- The node of a component is the next one to be made. -/
theorem RegisterAnswers.TooLong.here (long : PATH_MAX ≤ name.length) (named : b.name i = true)
    (memory : (b.node i).ForNode) : b.TooLong i m d (name :: names) := by
  refine ⟨0, name, rfl, long, fun j le => ?_⟩
  obtain rfl := Nat.le_zero.mp le
  exact ⟨named, fun _ => memory⟩

/-- What is left to be registered in the dentry that was found. -/
theorem RegisterAnswers.TooLong.found (named : b.name i = true) (found : m.toVfs.lookedUp d name = some c)
    (more : names ≠ []) (same : ∀ l, n.known c l = m.known c l) (later : b.TooLong (i + 1) n c names) :
    b.TooLong i m d (name :: names) := by
  obtain ⟨k, long, here, length, all⟩ := later
  refine ⟨k + 1, long, here, length, fun j le => ?_⟩
  rw [List.dropLast_cons_of_ne_nil more, known_found found]
  cases j with
  | zero => exact ⟨named, fun none => absurd none (by omega)⟩
  | succ j =>
    have step := all j (by omega)
    rw [same, show i + 1 + j = i + (j + 1) by omega] at step
    exact ⟨step.1, fun known => step.2 (by omega)⟩

/-- What is left to be registered in the dentry that was made. -/
theorem RegisterAnswers.TooLong.made (named : b.name i = true) (memory : (b.node i).ForNode)
    (empty : (n.node c).children = []) (later : b.TooLong (i + 1) n c names) : b.TooLong i m d (name :: names) := by
  obtain ⟨k, long, here, length, all⟩ := later
  refine ⟨k + 1, long, here, length, fun j le => ?_⟩
  cases j with
  | zero => exact ⟨named, fun _ => memory⟩
  | succ j =>
    have step := all j (by omega)
    rw [known_empty empty, show i + 1 + j = i + (j + 1) by omega] at step
    exact ⟨step.1, fun _ => step.2 (Nat.zero_le j)⟩

/-- What `devfs_register` leaves. A component that is too long is refused, and of the new dentries all have the
name of a component before it. -/
structure Registered (m : Mounts) (names : List Name) (r : Int × DevMounts) : Prop where
  fits : NamesFit r.2.toVfs
  refused : (∃ name ∈ names, PATH_MAX ≤ name.length) → r.1 < 0 ∧ (∀ x ∈ m.live, (r.2.node x).name = (m.node x).name) ∧
    ∀ x ∈ r.2.live, x ∉ m.live → (r.2.node x).name ∈ names.takeWhile fun name => name.length < PATH_MAX

namespace Registered

variable {r : Int × DevMounts}

theorem failed {ret : Int} (fits : NamesFit m.toVfs) (same : SameMounts m s.toMounts) (negative : ret < 0) :
    Registered m names (ret, s) := by
  refine ⟨fun x => ?_, fun _ => ⟨negative, fun x _ => same.name x, fun x live other => ?_⟩⟩
  · rw [same.name]
    exact fits x
  · exact absurd (same.live ▸ live) other

theorem found (registered : Registered n names r) (same : SameMounts m n) (short : name.length < PATH_MAX) :
    Registered m (name :: names) r := by
  refine ⟨registered.fits, fun long => ?_⟩
  obtain ⟨b, member, long⟩ := long
  have later : b ∈ names := (List.mem_cons.mp member).resolve_left fun here => by
    rw [here] at long
    exact absurd short (not_lt.mpr long)
  obtain ⟨negative, kept, new⟩ := registered.refused ⟨b, later, long⟩
  refine ⟨negative, fun x live => ?_, fun x live other => ?_⟩
  · rw [kept x (same.live ▸ live), same.name]
  · rw [List.takeWhile_cons_of_pos (by simpa using short)]
    exact List.mem_cons_of_mem _ (new x live (same.live ▸ other))

theorem made (registered : Registered n names r) (same : SameMounts m t) (made : MadeNode t n parent p name kind)
    (fresh : p ∉ m.live) (short : name.length < PATH_MAX) : Registered m (name :: names) r := by
  refine ⟨registered.fits, fun long => ?_⟩
  obtain ⟨b, member, long⟩ := long
  have later : b ∈ names := (List.mem_cons.mp member).resolve_left fun here => by
    rw [here] at long
    exact absurd short (not_lt.mpr long)
  obtain ⟨negative, kept, new⟩ := registered.refused ⟨b, later, long⟩
  have lives : n.live = insert p m.live := by rw [made.live, same.live]
  refine ⟨negative, fun x live => ?_, fun x live other => ?_⟩
  · have old : x ≠ p := fun here => fresh (here ▸ live)
    rw [kept x (lives ▸ Finset.mem_insert_of_mem live), made.name, if_neg old, same.name]
  · rw [List.takeWhile_cons_of_pos (by simpa using short)]
    by_cases here : x = p
    · rw [here, kept p (lives ▸ Finset.mem_insert_self p m.live), made.name, if_pos rfl]
      exact List.mem_cons_self
    · apply List.mem_cons_of_mem
      apply new x live
      rw [lives, Finset.mem_insert, not_or]
      exact ⟨here, other⟩

end Registered

/-! ### The loop -/

theorem devName_short : devName.length < PATH_MAX := by decide

theorem registerLast_registered (fits : NamesFit s.toVfs) (named : b.name i = true)
    (short : ¬ b.TooLong i s.toMounts parent [name]) :
    Ends (s.registerLast b ops i name parent) (Registered s.toMounts [name])
      fun stop => stop ≠ .vfs (.fs .overrun) := by
  unfold DevMounts.registerLast
  by_cases memory : (b.node i).ForNode
  swap
  · rw [newNode_refused memory]
    exact Registered.failed fits .refl (show -ENOMEM < 0 by decide)
  have length : name.length < PATH_MAX := not_le.mp fun long => short (.here long named memory)
  obtain ⟨p, dentry⟩ := Option.isSome_iff_exists.mp memory.1
  apply Ends.bind (inDevfs_ends (newNode_made dentry memory.2 length))
  intro r both
  obtain ⟨found, n⟩ := r
  obtain ⟨rfl, made⟩ := both
  have fits' := made.fits fits length
  dsimp only
  by_cases memory' : b.dev.ForNode
  swap
  · rw [newNode_refused memory']
    exact Ends.error (by decide)
  obtain ⟨q, dentry'⟩ := Option.isSome_iff_exists.mp memory'.1
  apply Ends.bind (inDevfs_ends (newNode_made dentry' memory'.2 devName_short))
  intro r both
  obtain ⟨found, u⟩ := r
  obtain ⟨rfl, made'⟩ := both
  refine ⟨made'.fits fits' devName_short, fun long => ?_⟩
  obtain ⟨b, member, long⟩ := long
  rw [List.mem_singleton.mp member] at long
  exact absurd length (not_lt.mpr long)

theorem registerFrom_registered (fuel : Nat) : ∀ i path parent (s : DevMounts), NamesFit s.toVfs →
    b.Fresh i s.toMounts → ¬ b.TooLong i s.toMounts parent (devNames path) → Ends (s.registerFrom b ops fuel i path parent)
      (Registered s.toMounts (devNames path)) fun stop => stop ≠ .vfs (.fs .overrun) := by
  induction fuel with
  | zero => exact fun _ _ _ _ _ _ _ => Ends.error (by decide)
  | succ fuel ih =>
    intro i path parent s fits fresh short
    rw [DevMounts.registerFrom]
    by_cases ends : path = [] ∨ b.name i = false
    · rw [getNextComponent, if_pos ends]
      exact Ends.error (by decide)
    rw [not_or, Bool.not_eq_false] at ends
    obtain ⟨nonempty, named⟩ := ends
    rw [named]
    have next := devNext nonempty
    generalize getNextComponent true path = component at next
    cases next with
    | last some ends only =>
      dsimp only
      rw [if_neg some, if_pos ends]
      rw [only] at short ⊢
      exact registerLast_registered fits named short
    | @norm name rest first more =>
      dsimp only
      rw [if_neg (by decide), if_neg (by decide)]
      rw [first] at short ⊢
      apply Ends.bind (inDevfs_ends lookupNode_same)
      intro r both
      obtain ⟨looked, n⟩ := r
      obtain ⟨looks, same⟩ := both
      have fits' := looks.none.fits fits
      cases looked with
      | ok c =>
        have length : name.length < PATH_MAX := by
          rw [← looks.named, fits.string]
          exact fits c
        apply (ih (i + 1) rest c { s with toMounts := n } fits' (fresh.later same.live) _).mono _ fun _ => id
        · exact fun later => short (.found named looks.found more (fun l => same.known fits l c) later)
        · exact fun r registered => registered.found same length
      | error err =>
        dsimp only
        by_cases memory : (b.node i).ForNode
        swap
        · rw [newNode_refused memory]
          exact Registered.failed fits same (show -ENOMEM < 0 by decide)
        have length : name.length < PATH_MAX := not_le.mp fun long => short (.here long named memory)
        obtain ⟨p, dentry⟩ := Option.isSome_iff_exists.mp memory.1
        have unused := fresh.unused i p le_rfl dentry
        apply Ends.bind (inDevfs_ends (newNode_made dentry memory.2 length))
        intro r both
        obtain ⟨found, u⟩ := r
        obtain ⟨rfl, made⟩ := both
        have other : p ≠ parent := by
          rintro rfl
          exact unused (same.live ▸ made.inside)
        have fresh' : b.Fresh (i + 1) u := fresh.made dentry (made.live.trans (congrArg (insert p) same.live))
        apply (ih (i + 1) rest p { s with toMounts := u } (made.fits fits' length) fresh' _).mono _ fun _ => id
        · exact fun later => short (.made named memory (made.new other).1 later)
        · exact fun r registered => registered.made same made unused length


end Landaux
