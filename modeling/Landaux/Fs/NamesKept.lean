import Landaux.Fs.LastName
import Landaux.Fs.OpenFiles

/-!
# Names of dentries

Only `make_node` and a mount give a dentry its name. Every other step of `vfs.c` leaves the names as they are
and makes no dentry.
-/

namespace Landaux
open Lib Mounts

def PATH_MAX : Nat := 255

structure NoneMade (s t : Vfs) : Prop where
  name : ∀ x, (t.node x).name = (s.node x).name
  live : t.live ⊆ s.live

/-- There is a 0 in the array `name` of every dentry that ever was. -/
def NamesFit (s : Vfs) : Prop := ∀ x, (s.node x).name.length < PATH_MAX

variable {α β : Type} {s t u : Vfs} {m n : Mounts} {reg : Registry} {a : MountAnswers} {devices : Nat → Device}
  {count b c d p x size offset : Nat} {name : Name} {path : List UInt8} {ret : Int}

theorem NamesFit.string (fits : NamesFit s) : (s.node x).string = (s.node x).name :=
  if_pos ((fits x).trans (by decide))

namespace NoneMade

theorem refl : NoneMade s s := ⟨fun _ => rfl, subset_rfl⟩

theorem trans (first : NoneMade s t) (second : NoneMade t u) : NoneMade s u :=
  ⟨fun x => (second.name x).trans (first.name x), second.live.trans first.live⟩

theorem fits (none : NoneMade s t) (fits : NamesFit s) : NamesFit t := by
  intro x
  rw [none.name]
  exact fits x

theorem addRefcnt {k : Int} : NoneMade s (s.addRefcnt d k) :=
  ⟨fun x => by rw [addRefcnt_node], subset_rfl⟩

theorem setParent : NoneMade s (s.setParent c d) :=
  ⟨fun x => by rw [setParent_node], subset_rfl⟩

theorem setData {data : FileData} : NoneMade s (s.setNode d { s.node d with data := data }) := by
  refine ⟨fun x => ?_, subset_rfl⟩
  unfold Vfs.setNode
  dsimp only
  split
  · rw [‹x = d›]
  · rfl

end NoneMade

/-! ### Dentries -/

theorem dentryGet_names : Ends (s.dentryGet d) (NoneMade s) fun stop => stop ≠ .overrun := by
  unfold Vfs.dentryGet
  split
  · exact Ends.error (by decide)
  split
  · exact Ends.error (by decide)
  exact NoneMade.addRefcnt

theorem kfreeDentry_names : Ends (s.kfreeDentry d) (NoneMade s) fun stop => stop ≠ .overrun := by
  unfold Vfs.kfreeDentry
  split
  · exact Ends.error (by decide)
  split
  · exact Ends.error (by decide)
  exact ⟨fun _ => rfl, Finset.erase_subset d s.live⟩

theorem putUpTo_names (fuel : Nat) : ∀ d s, Ends (Vfs.putUpTo fuel d s) (NoneMade s) fun stop => stop ≠ .overrun := by
  induction fuel with
  | zero => exact fun _ _ => Ends.error (by decide)
  | succ fuel ih =>
    intro d s
    unfold Vfs.putUpTo
    dsimp only
    have dropped : NoneMade s (s.addRefcnt d (-1)) := .addRefcnt
    have freed : ∀ t, NoneMade s t → Ends (t.kfreeDentry d) (NoneMade s) fun stop => stop ≠ .overrun :=
      fun t none => kfreeDentry_names.mono (fun _ later => none.trans later) fun _ => id
    split
    · exact Ends.error (by decide)
    split
    · split
      · apply Ends.bind (ih _ (s.addRefcnt d (-1)))
        exact fun t none => freed t (dropped.trans none)
      · exact freed _ dropped
    · exact dropped

theorem findChild_found (cs : List Nat) : Ends (s.findChild name cs)
    (fun found => found = cs.find? fun c => (s.node c).string = name) fun stop => stop ≠ .overrun := by
  induction cs with
  | nil => exact List.find?_nil.symm
  | cons c cs ih =>
    unfold Vfs.findChild
    split
    · exact Ends.error (by decide)
    split
    · rename_i same
      exact (List.find?_cons_of_pos (by simpa using same)).symm
    · rename_i other
      rw [List.find?_cons_of_neg (by simpa using other)]
      exact ih

def Vfs.lookedUp (s : Vfs) (d : Nat) (name : Name) : Option Nat :=
  if (s.node d).kind = .dir then s.child d name else none

structure LooksUp (s : Vfs) (d : Nat) (name : Name) (r : Except Int Nat × Vfs) : Prop where
  none : NoneMade s r.2
  failed : ∀ err, r.1 = .error err → err < 0
  found : s.lookedUp d name = r.1.toOption

theorem LooksUp.named (looks : LooksUp s d name (.ok c, t)) : (s.node c).string = name := by
  have found := looks.found
  unfold Vfs.lookedUp at found
  split at found
  · exact (child_mem found).2
  · cases found

theorem ramfsLookup_names : Ends (s.ramfsLookup d name) (LooksUp s d name) fun stop => stop ≠ .overrun := by
  have failed : ∀ err : Int, err < 0 → s.lookedUp d name = none → LooksUp s d name (.error err, s) := by
    intro err negative missing
    refine ⟨.refl, fun err' same => ?_, missing⟩
    cases same
    exact negative
  unfold Vfs.ramfsLookup
  split
  · exact Ends.error (by decide)
  split
  · rename_i file
    exact failed (-ENOTDIR) (by decide) (if_neg file)
  rename_i dir
  rw [not_not] at dir
  apply Ends.bind (findChild_found _)
  intro found same
  have child : s.lookedUp d name = found := (if_pos dir).trans same.symm
  cases found with
  | none => exact failed (-ENOENT) (by decide) child
  | some c =>
    apply Ends.bind dentryGet_names
    intro t none
    exact ⟨none, fun err none => (nomatch none), child⟩

/-! ### Steps of vfs.c -/

/-- A step that makes no dentry, and that does not copy past the end of an object. -/
def MakesNone (m : Mounts) (r : Except MountStop (α × Mounts)) : Prop :=
  Ends r (fun r => NoneMade m.toVfs r.2.toVfs) fun stop => stop ≠ .fs .overrun

theorem MakesNone.bind {r : Except MountStop (α × Mounts)} {f : α × Mounts → Except MountStop (β × Mounts)}
    (first : MakesNone m r) (rest : ∀ x n, MakesNone n (f (x, n))) : MakesNone m (r >>= f) := by
  apply Ends.bind first
  intro r none
  exact (rest r.1 r.2).mono (fun _ later => none.trans later) fun _ => id

theorem ran_names {post : α → Prop} {r : Except FsStop α} (ends : Ends r post fun stop => stop ≠ .overrun) :
    Ends (ran r) post fun stop => stop ≠ .fs .overrun := by
  cases r with
  | ok x => exact ends
  | error stop => exact fun same => ends (MountStop.fs.inj same)

theorem map_names {r : Except FsStop Vfs} (ends : Ends r (NoneMade m.toVfs) fun stop => stop ≠ .overrun) :
    Ends (ran (r.map fun s => { m with toVfs := s })) (fun n => NoneMade m.toVfs n.toVfs)
      fun stop => stop ≠ .fs .overrun := by
  apply ran_names
  cases r with
  | ok x => exact ends
  | error stop => exact ends

theorem put_names : Ends (m.put d) (fun n => NoneMade m.toVfs n.toVfs) fun stop => stop ≠ .fs .overrun :=
  map_names (putUpTo_names _ d m.toVfs)

theorem get_names : Ends (m.get d) (fun n => NoneMade m.toVfs n.toVfs) fun stop => stop ≠ .fs .overrun :=
  map_names dentryGet_names

theorem put_makesNone {x : α} : MakesNone m (m.put d >>= fun n => pure (x, n)) :=
  Ends.bind put_names fun _ none => none

theorem lookup_names (i : Nat) : Ends (ran (((filesystems devices count).fs i).lookup d name m))
    (fun r => LooksUp m.toVfs d name (r.1, r.2.toVfs)) fun stop => stop ≠ .fs .overrun := by
  apply ran_names
  rw [filesystems_lookup]
  have looks : Ends (m.toVfs.ramfsLookup d name) (LooksUp m.toVfs d name) fun stop => stop ≠ .overrun :=
    ramfsLookup_names
  unfold lookupNode Mounts.ofVfs
  cases result : m.toVfs.ramfsLookup d name with
  | error stop => exact looks.of_error result
  | ok r => exact looks.of_ok result

theorem lookup_ops {i : Nat} {found : Except Int Nat}
    (result : ran (((filesystems devices count).fs i).lookup d name m) = .ok (found, n)) : n.ops = m.ops := by
  rw [filesystems_lookup] at result
  unfold lookupNode Mounts.ofVfs at result
  cases looks : m.toVfs.ramfsLookup d name with
  | error stop =>
    rw [looks] at result
    cases result
  | ok r =>
    rw [looks] at result
    cases result
    rfl

theorem lookupIn_names : Ends (m.lookupIn (filesystems devices count) d name)
    (fun r => LooksUp m.toVfs (m.into d) name (r.1, r.2.toVfs)) fun stop => stop ≠ .fs .overrun := by
  unfold Mounts.lookupIn Mounts.mntOps Mounts.touch
  have touched : Ends (if d ∈ m.live then .ok () else .error (.fs .freed) : Except MountStop Unit) (fun _ => True)
      fun stop => stop ≠ .fs .overrun := by
    split
    · trivial
    · exact Ends.error (by decide)
  apply Ends.bind touched
  intro _ _
  split
  · exact lookup_names _
  · exact lookup_names _

/-- What a lookup of a path returns. The components on the way are names of dentries. -/
structure LooksUpPath (m : Mounts) (path : List UInt8) (r : Except Int (Nat × α) × Mounts) : Prop where
  none : NoneMade m.toVfs r.2.toVfs
  failed : ∀ err, r.1 = .error err → err < 0
  way : NamesFit m.toVfs → ∀ d x, r.1 = .ok (d, x) → ∀ b ∈ (components path).dropLast, b.length < PATH_MAX

theorem LooksUpPath.error {err : Int} (negative : err < 0) (none : NoneMade m.toVfs n.toVfs) :
    LooksUpPath (α := α) m path (.error err, n) := by
  refine ⟨none, fun err' same => ?_, fun _ d x none => nomatch none⟩
  cases same
  exact negative

/-- At the last component there is none before it. -/
theorem LooksUpPath.only {e : Nat} {x : α} (comps : components path = [name]) (none : NoneMade m.toVfs n.toVfs) :
    LooksUpPath m path (.ok (e, x), n) := by
  refine ⟨none, fun err none => (nomatch none), fun _ _ _ _ b member => ?_⟩
  rw [comps] at member
  exact absurd member List.not_mem_nil

theorem walk_names {flags : BitVec 8} (fuel : Nat) : ∀ i path d m, Starts path →
    Ends (walk (filesystems devices count) a flags fuel i path d m) (LooksUpPath m path)
      fun stop => stop ≠ .fs .overrun := by
  induction fuel with
  | zero => exact fun _ _ _ _ _ => Ends.error (by decide)
  | succ fuel ih =>
    intro i path d m starts
    have failed : ∀ (n : Mounts) err e, err < 0 → NoneMade m.toVfs n.toVfs → Ends (do return (.error err, ← n.put e))
        (LooksUpPath (α := Name) m path) fun stop => stop ≠ .fs .overrun := by
      intro n err e negative none
      exact Ends.bind put_names fun u later => LooksUpPath.error negative (none.trans later)
    rw [walk]
    cases granted : a.name i with
    | false =>
      rw [getNextComponent, if_pos (Or.inr rfl)]
      exact failed m _ d (by decide) .refl
    | true =>
      have delivers := getNextComponent_delivers starts
      generalize getNextComponent true path = next at delivers
      obtain ⟨type, name, rest⟩ := next
      dsimp only
      have last : isLast type flags → components path = [name] := by
        intro last
        cases delivers with
        | last comps => exact comps
        | lastSlash comps => exact comps
        | norm => simp [isLast] at last
      have some : type ≠ .noMore := by
        rintro rfl
        cases delivers
      rw [if_neg some]
      by_cases returns : isLast type flags ∧ flags &&& LAST_RETURN ≠ 0
      · rw [if_pos returns]
        exact .only (last returns.1) .refl
      rw [if_neg returns]
      apply Ends.bind lookupIn_names
      intro r looks
      obtain ⟨found, n⟩ := r
      cases found with
      | error err =>
        dsimp only
        split
        · rename_i create
          exact .only (last create.2.1) looks.none
        · exact failed n err d (looks.failed err rfl) looks.none
      | ok new =>
        have none : NoneMade m.toVfs (n.setParent new d).toVfs := looks.none.trans .setParent
        dsimp only
        split
        · exact failed _ _ new (by decide) none
        split
        · split
          · exact failed _ _ new (by decide) none
          · rename_i other
            rw [not_or, not_or] at other
            have comps : components path = [name] := by
              cases delivers with
              | last comps => exact comps
              | lastSlash comps => exact comps
              | norm => exact absurd rfl other.1
            exact .only comps none
        split
        · rename_i ends
          have comps : components path = [name] := by
            cases delivers with
            | last comps => exact comps
            | lastSlash comps => exact comps
            | norm => simp at ends
          exact .only comps none
        · rename_i goes
          cases delivers with
          | last => simp at goes
          | lastSlash => simp at goes
          | norm first starts' =>
            apply (ih (i + 1) rest new (n.setParent new d) starts').mono _ fun _ => id
            intro r later
            refine ⟨none.trans later.none, later.failed, fun fits d' x same b member => ?_⟩
            rw [first, List.dropLast_cons_of_ne_nil starts'.components_ne_nil] at member
            rcases List.mem_cons.mp member with here | after
            · rw [here, ← looks.named, fits.string]
              exact fits new
            · exact later.way (none.fits fits) d' x same b after

theorem lookupPathCommon_names {flags : BitVec 8} : Ends (m.lookupPathCommon (filesystems devices count) a path flags)
    (LooksUpPath m path) fun stop => stop ≠ .fs .overrun := by
  unfold Mounts.lookupPathCommon
  apply Ends.bind get_names
  intro n none
  split
  · exact Ends.error (by decide)
  dsimp only
  by_cases slashes : path.dropWhile (· = slash) = []
  · rw [if_pos slashes]
    refine ⟨none, fun err none => (nomatch none), fun _ d x _ b member => ?_⟩
    rw [← components_dropWhile, slashes] at member
    exact absurd member List.not_mem_nil
  · rw [if_neg slashes]
    apply Ends.bind (walk_names _ _ _ _ _ (starts_dropWhile slashes))
    intro r looks
    obtain ⟨none', failed, way⟩ := looks
    rw [components_dropWhile] at way
    obtain ⟨found, u⟩ := r
    cases found with
    | error err => exact LooksUpPath.error (failed err rfl) (none.trans none')
    | ok found =>
      refine ⟨none.trans none', fun err none => (nomatch none), fun fits d x same => ?_⟩
      exact way (none.fits fits) found.1 found.2 rfl

/-! ### Operations of the filesystems -/

theorem MakesNone.refl {x : α} : MakesNone m (.ok (x, m)) := NoneMade.refl (s := m.toVfs)

theorem opens_names {flags : BitVec 32} (i : Nat) :
    MakesNone m (guarded (((filesystems devices count).fs i).opens.map fun op => op p flags) m) := by
  rcases filesystems_fs devices count i with fs | fs
  · rw [fs]
    exact .refl
  · rw [fs]
    apply ran_names
    dsimp only
    split
    · exact NoneMade.refl
    · exact NoneMade.refl

theorem truncate_names (i : Nat) :
    MakesNone m (guarded (((filesystems devices count).fs i).truncate.map fun truncate => truncate p) m) := by
  rcases filesystems_fs devices count i with fs | fs
  · rw [fs]
    exact NoneMade.setData (s := m.toVfs)
  · rw [fs]
    exact .refl

theorem closes_names (i : Nat) :
    MakesNone m (guarded (((filesystems devices count).fs i).closes.map fun close => close p) m) := by
  rcases filesystems_fs devices count i with fs | fs
  · rw [fs]
    exact .refl
  · rw [fs]
    exact .refl
/-- A `file_t` is not a dentry. -/
theorem MakesNone.freed {r : Except MountStop (α × Mounts)} (none : MakesNone (m.kfreeFile p) r) : MakesNone m r :=
  none.mono (fun _ none => ⟨none.name, none.live⟩) fun _ => id

/-! ### Calls that make none -/

def Unmade (m : Mounts) (r : Except MountStop (α × Mounts)) : Prop :=
  Ends r (fun r => NoneMade m.toVfs r.2.toVfs) fun _ => True

theorem MakesNone.unmade {r : Except MountStop (α × Mounts)} (none : MakesNone m r) : Unmade m r :=
  none.mono (fun _ => id) fun _ _ => trivial

theorem Unmade.bind {r : Except MountStop (α × Mounts)} {f : α × Mounts → Except MountStop (β × Mounts)}
    (first : Unmade m r) (rest : ∀ x n, Unmade n (f (x, n))) : Unmade m (r >>= f) := by
  apply Ends.bind first
  intro r none
  exact (rest r.1 r.2).mono (fun _ later => none.trans later) fun _ => id

theorem lookup_unmade {flags : BitVec 8} : Unmade m (m.lookupPathCommon (filesystems devices count) a path flags) :=
  lookupPathCommon_names.mono (fun _ looks => looks.none) fun _ _ => trivial

theorem put_unmade {x : α} : Unmade m (m.put d >>= fun n => pure (x, n)) := put_makesNone.unmade

theorem Unmade.refl {x : α} : Unmade m (.ok (x, m)) := NoneMade.refl (s := m.toVfs)

theorem removed_unmade {r : Except FsStop Vfs} (ends : Ends r (NoneMade m.toVfs) fun stop => stop ≠ .overrun) :
    Unmade m (ran (m.ofVfs (r.map fun s => ((0 : Int), s)))) := by
  cases r with
  | ok s => exact ends
  | error stop => trivial

theorem rmdir_unmade : Unmade m (m.vfsRmdir (filesystems devices count) a path) := by
  apply lookup_unmade.bind
  intro found n
  cases found with
  | error err => exact .refl
  | ok found =>
    have removes : Unmade n (n.vfsDrmdir (filesystems devices count) found.1) := by
      unfold Mounts.vfsDrmdir
      split
      · exact .refl
      split
      · exact .refl
      have which : n.ops (filesystems devices count) found.1 = ramfs ∨
          n.ops (filesystems devices count) found.1 = devfs devices := ops_eq
      rcases which with fs | fs
      · rw [fs]
        change Unmade n (ran (n.ofVfs (n.toVfs.ramfsRmdir found.1)))
        unfold Vfs.ramfsRmdir
        split
        · trivial
        split
        · exact .refl
        have unlinked : NoneMade n.toVfs (n.toVfs.listDel found.1) := ⟨fun _ => rfl, subset_rfl⟩
        exact removed_unmade ((putUpTo_names _ _ _).mono (fun _ later => unlinked.trans later) fun _ => id)
      · rw [fs]
        trivial
    apply removes.bind
    intro ret n
    exact put_unmade

theorem unlink_unmade : Unmade m (m.vfsUnlink (filesystems devices count) a path) := by
  apply lookup_unmade.bind
  intro found n
  cases found with
  | error err => exact .refl
  | ok found =>
    have removes : Unmade n (n.vfsDunlink (filesystems devices count) found.1) := by
      unfold Mounts.vfsDunlink
      split
      · exact .refl
      have which : n.ops (filesystems devices count) found.1 = ramfs ∨
          n.ops (filesystems devices count) found.1 = devfs devices := ops_eq
      rcases which with fs | fs
      · rw [fs]
        change Unmade n (ran (n.ofVfs (n.toVfs.ramfsUnlink found.1)))
        unfold Vfs.ramfsUnlink
        split
        · trivial
        have unlinked : NoneMade n.toVfs (n.toVfs.listDel found.1) := ⟨fun _ => rfl, subset_rfl⟩
        have freed : NoneMade (n.toVfs.listDel found.1) ((n.toVfs.listDel found.1).freeData found.1) := .setData
        have emptied := unlinked.trans freed
        exact removed_unmade ((putUpTo_names _ _ _).mono (fun _ later => emptied.trans later) fun _ => id)
      · rw [fs]
        exact .refl
    apply removes.bind
    intro ret n
    exact put_unmade

theorem NoneMade.setFile {f : File} : NoneMade m.toVfs (m.setFile p f).toVfs := ⟨fun _ => rfl, subset_rfl⟩

theorem Unmade.after {r : Except MountStop (α × Mounts)} (none : NoneMade m.toVfs n.toVfs) (rest : Unmade n r) :
    Unmade m r :=
  rest.mono (fun _ later => none.trans later) fun _ => id

theorem close_unmade : Unmade m (m.vfsClose (filesystems devices count) p) := by
  unfold Mounts.vfsClose
  split
  · trivial
  dsimp only
  split
  · exact NoneMade.setFile
  · apply Unmade.after NoneMade.setFile
    apply Unmade.bind (closes_names _).unmade
    intro ret n
    exact put_makesNone.freed.unmade

theorem NoneMade.advance {k : Int} (none : NoneMade m.toVfs n.toVfs) : NoneMade m.toVfs (n.advance p k).toVfs := by
  unfold Mounts.advance
  split
  · exact none.trans .setFile
  · exact none

theorem read_names {read : Nat → Nat → Nat → Mounts → Except FsStop ((Int × List UInt8) × Mounts)} (i : Nat)
    (reads : ((filesystems devices count).fs i).read = some read) : Unmade m (ran (read p offset size m)) := by
  rcases filesystems_fs devices count i with fs | fs
  · rw [fs] at reads
    cases reads
    dsimp only
    split
    · trivial
    · exact .refl
  · rw [fs] at reads
    cases reads
    dsimp only
    split
    · trivial
    · exact .refl

theorem write_names {write : Granted → Nat → Nat → List UInt8 → Mounts → Except FsStop (Int × Mounts)}
    {buf : List UInt8} (i : Nat) (writes : ((filesystems devices count).fs i).write = some write) :
    Unmade m (ran (write a.block p offset buf m)) := by
  rcases filesystems_fs devices count i with fs | fs
  · rw [fs] at writes
    cases writes
    dsimp only
    split
    · trivial
    · exact NoneMade.setData (s := m.toVfs)
  · rw [fs] at writes
    cases writes
    dsimp only
    split
    · trivial
    · exact .refl

theorem read_unmade : Unmade m (m.vfsRead (filesystems devices count) p size) := by
  unfold Mounts.vfsRead
  split
  · trivial
  dsimp only
  split
  · exact .refl
  cases reads : (m.ops (filesystems devices count) (m.file p).dentry).read with
  | none => exact .refl
  | some read =>
    dsimp only
    split
    · exact .refl
    · exact Ends.bind (read_names _ reads) fun r none => none.advance

theorem write_unmade {buf : List UInt8} : Unmade m (m.vfsWrite (filesystems devices count) a p buf) := by
  unfold Mounts.vfsWrite
  split
  · trivial
  dsimp only
  split
  · exact .refl
  cases writes : (m.ops (filesystems devices count) (m.file p).dentry).write with
  | none => exact .refl
  | some write =>
    dsimp only
    split
    · exact .refl
    · exact Ends.bind (write_names _ writes) fun r none => none.advance

theorem lseek_unmade {whence : Int} : Unmade m (m.vfsLseek (filesystems devices count) p offset whence) := by
  unfold Mounts.vfsLseek
  split
  · trivial
  have noSeek : (m.ops (filesystems devices count) (m.file p).dentry).lseek = none := by
    have which : m.ops (filesystems devices count) (m.file p).dentry = ramfs ∨
        m.ops (filesystems devices count) (m.file p).dentry = devfs devices := ops_eq
    rcases which with fs | fs
    · rw [fs]
      rfl
    · rw [fs]
      rfl
  dsimp only
  rw [noSeek]
  exact NoneMade.setFile

theorem getdents_unmade {start : Int} : Unmade m (m.vfsGetdents (filesystems devices count) a path size start) := by
  apply lookup_unmade.bind
  intro found n
  cases found with
  | error err => exact .refl
  | ok found =>
    apply Ends.bind ends_true
    intro ret _
    exact put_unmade

theorem lookupPath_unmade : Unmade m (m.lookupPath (filesystems devices count) a path) := by
  apply lookup_unmade.bind
  intro found n
  cases found with
  | error err => exact .refl
  | ok found => exact .refl

/-! ### mount -/

/-- The root of a filesystem is called `/`. -/
theorem mountRoot_fits (fits : NamesFit m.toVfs) :
    Ends (mountRoot a b m) (fun r => NamesFit r.2.toVfs) fun _ => True := by
  unfold Mounts.mountRoot
  cases a.dentry with
  | none => exact fits
  | some p =>
    have root : NamesFit { m.toVfs with
        node := fun x => if x = p then ⟨[slash], 0, 1, .dir, [], .new⟩ else m.node x } := by
      intro x
      dsimp only
      split
      · exact (by decide : 1 < PATH_MAX)
      · exact fits x
    dsimp only
    split
    · exact root
    · exact root

theorem mount_fits {fstype : Name} (fits : NamesFit m.toVfs) :
    Ends (m.vfsMount (filesystems devices count) a fstype path) (fun r => NamesFit r.2.toVfs) fun _ => True := by
  unfold Mounts.vfsMount
  split
  · exact fits
  rename_i fs _
  split
  · split
    · exact fits
    · rw [filesystems_mount]
      exact ran_ends (mountRoot_fits fits)
  apply Ends.bind lookup_unmade
  intro r none
  obtain ⟨found, n⟩ := r
  have fits' := none.fits fits
  cases found with
  | error err => exact fits'
  | ok found =>
    have put : ∀ (ret : Int) (u : Mounts), NamesFit u.toVfs → Ends (u.put found.1 >>= fun v => pure (ret, v))
        (fun r => NamesFit r.2.toVfs) fun _ => True := by
      intro ret u fits
      exact put_unmade.mono (fun _ later => later.fits fits) fun _ => id
    dsimp only
    unfold Mounts.mountOn
    split
    · exact put _ n fits'
    split
    · exact put _ n fits'
    cases a.super with
    | none => exact put _ n fits'
    | some b =>
      dsimp only
      rw [filesystems_mount]
      have roots : Ends (mountRoot a b { n with super := Function.update n.super b ⟨fs, 0⟩ })
          (fun r => NamesFit r.2.toVfs) fun _ => True := mountRoot_fits fits'
      apply Ends.bind (ran_ends roots)
      intro r fits''
      obtain ⟨ret, u⟩ := r
      dsimp only
      split
      · exact put _ u fits''
      · exact fits''

end Landaux
