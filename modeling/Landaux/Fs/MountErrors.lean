import Landaux.Fs.MountPaths
import Landaux.Fs.NullCalls

/-!
# Calls that fail

What is left of a call on a path that returns an error. `vfs_mount` and `vfs_open` each have one error after
which the namespace is not what it was.
-/

namespace Landaux
open Lib Mounts

variable {m t u : Mounts} {reg : Registry} {a : MountAnswers} {flags : BitVec 8} {devices : Nat → Device}
  {b c d p x : Nat} {name : Name} {path : List UInt8} {held : List Nat} {k count : Nat} {ret : Int}

/-! ### The namespace -/

/-- The dentry at a list of components, if a root is mounted. -/
def Mounts.reached (m : Mounts) (place : List Name) : Option Nat :=
  if m.root = 0 then none else follow m.entry m.root place

/-- The same dentries are reached, with the same types and mounts, and a root is mounted or not as before. -/
structure SameNamespace (m t : Mounts) : Prop where
  root : t.root = m.root
  reached : ∀ place, t.reached place = m.reached place
  kind : ∀ place x, m.reached place = some x → (t.node x).kind = (m.node x).kind
  mnt : ∀ x ∈ m.live, t.mnt x = m.mnt x

/-- On the dentries of `m`, `t` has the same names, children and mounts. -/
structure Agrees (m t : Mounts) : Prop where
  root : t.root = m.root
  live : m.live ⊆ t.live
  name : ∀ x ∈ m.live, (t.node x).name = (m.node x).name
  kind : ∀ x ∈ m.live, (t.node x).kind = (m.node x).kind
  children : ∀ x ∈ m.live, (t.node x).children = (m.node x).children
  mnt : ∀ x ∈ m.live, t.mnt x = m.mnt x
  super : ∀ x ∈ m.live, ∀ b, m.mnt x = some b → t.super b = m.super b

theorem SameMounts.agrees (same : SameMounts m t) : Agrees m t where
  root := same.root
  live := same.live ▸ subset_rfl
  name := fun x _ => same.name x
  kind := fun x _ => same.kind x
  children := fun x _ => same.children x
  mnt := fun x _ => by rw [same.mnt]
  super := fun x _ b _ => by rw [same.super]

namespace Agrees

theorem trans (first : Agrees m t) (second : Agrees t u) : Agrees m u where
  root := second.root.trans first.root
  live := first.live.trans second.live
  name := fun x live => (second.name x (first.live live)).trans (first.name x live)
  kind := fun x live => (second.kind x (first.live live)).trans (first.kind x live)
  children := fun x live => (second.children x (first.live live)).trans (first.children x live)
  mnt := fun x live => (second.mnt x (first.live live)).trans (first.mnt x live)
  super := fun x live b mounted => by
    have mounted' : t.mnt x = some b := (first.mnt x live).trans mounted
    exact (second.super x (first.live live) b mounted').trans (first.super x live b mounted)

theorem into (agrees : Agrees m t) (live : d ∈ m.live) : t.into d = m.into d := by
  unfold Mounts.into
  rw [agrees.mnt d live]
  cases mounted : m.mnt d with
  | none => rfl
  | some b => exact congrArg Superblock.root (agrees.super d live b mounted)

end Agrees

theorem Steady.into_live (steady : Steady m) (live : d ∈ m.live) : m.into d ∈ m.live := by
  unfold Mounts.into
  cases mounted : m.mnt d with
  | none => exact live
  | some b => exact (steady.mounted d live b mounted).1

theorem Steady.below (steady : Steady m) (live : d ∈ m.live) (found : m.entry d name = some c) : c ∈ m.live :=
  steady.children _ (steady.into_live live) c (child_mem found).1

theorem Agrees.string (agrees : Agrees m t) (steady : Steady m) (live : x ∈ m.live) :
    (t.node x).string = (m.node x).string := by
  have short : (t.node x).name.length < 256 := by
    rw [agrees.name x live]
    exact steady.short x
  unfold Dentry.string
  rw [if_pos short, if_pos (steady.short x), agrees.name x live]

theorem Agrees.entry (agrees : Agrees m t) (steady : Steady m) (live : d ∈ m.live) : t.entry d name = m.entry d name := by
  have inside := steady.into_live live
  unfold Mounts.entry Vfs.child
  rw [agrees.into live, agrees.children _ inside]
  exact List.find?_congr fun c child => by rw [agrees.string steady (steady.children _ inside c child)]

theorem Agrees.follow (agrees : Agrees m t) (steady : Steady m) (place : List Name) : ∀ x ∈ m.live,
    follow t.entry x place = follow m.entry x place := by
  induction place with
  | nil => exact fun _ _ => rfl
  | cons name place ih =>
    intro x live
    rw [Lib.follow, Lib.follow, agrees.entry steady live]
    cases found : m.entry x name with
    | none => rfl
    | some y => exact ih y (steady.below live found)

theorem Steady.reached_live (steady : Steady m) {place : List Name} (reached : m.reached place = some x) :
    x ∈ m.live := by
  unfold Mounts.reached at reached
  split at reached
  · cases reached
  · rename_i mounted
    exact follow_invariant (P := fun x => x ∈ m.live) (steady.root mounted).1
      (fun _ _ _ live edge => steady.below live edge) reached

theorem Agrees.sameNamespace (agrees : Agrees m t) (steady : Steady m) : SameNamespace m t where
  root := agrees.root
  reached := fun place => by
    unfold Mounts.reached
    rw [agrees.root]
    by_cases bare : m.root = 0
    · rw [if_pos bare, if_pos bare]
    · rw [if_neg bare, if_neg bare, agrees.follow steady place _ (steady.root bare).1]
  kind := fun place x reached => agrees.kind x (steady.reached_live reached)
  mnt := agrees.mnt

theorem Ahead.sameNamespace (ahead : Ahead m t held k) (steady : Steady m) : SameNamespace m t :=
  ahead.same.agrees.sameNamespace steady

/-! ### Lookups that return -/

theorem ends_true {ε α : Type} {r : Except ε α} : Ends r (fun _ => True) fun _ => True := by
  cases r <;> exact trivial

theorem lookup_ends (steady : Steady m) : Ends (m.lookupPathCommon (filesystems devices count) a path flags)
    (fun r => m.root ≠ 0 ∧ Returns m (m.target a flags path) (path.length + 1) r) fun _ => True := by
  by_cases bare : m.root = 0
  · unfold Mounts.lookupPathCommon Mounts.get Vfs.dentryGet
    rw [bare, if_pos steady.nonnull]
    exact trivial
  by_cases absolute : path.head? = some slash
  · exact (lookup_returns filesystems_lookup steady bare absolute).mono (fun _ returns => ⟨bare, returns⟩)
      fun _ _ => trivial
  · unfold Mounts.lookupPathCommon
    refine Ends.bind (ends_true) fun t _ => ?_
    rw [if_pos absolute]
    exact trivial

/-- A call that fails, and has changed nothing but what a lookup changes. -/
def Unharmed (m : Mounts) (r : Int × Mounts) : Prop := r.1 < 0 → SameNamespace m r.2

theorem put_kept (unchanged : ret < 0 → u = t) (ahead : Ahead m t [d] k) (steady : Steady m) (live : d ∈ m.live) :
    Ends (u.put d >>= fun v => pure (ret, v)) (Unharmed m) fun _ => True := by
  by_cases failed : ret < 0
  · rw [unchanged failed]
    obtain ⟨v, put, back⟩ := ahead.put steady live
    rw [put]
    exact fun _ => back.sameNamespace steady
  · exact Ends.bind ends_true fun v _ negative => absurd negative failed

theorem filesystems_fs (devices : Nat → Device) (count i : Nat) :
    (filesystems devices count).fs i = ramfs ∨ (filesystems devices count).fs i = devfs devices :=
  ite_eq_or_eq (i = 0) ramfs (devfs devices)

theorem mntOps_eq : m.mntOps (filesystems devices count) d = ramfs ∨
    m.mntOps (filesystems devices count) d = devfs devices := by
  unfold Mounts.mntOps Mounts.ops
  split
  · exact filesystems_fs _ _ _
  · exact filesystems_fs _ _ _

theorem ops_eq : m.ops (filesystems devices count) d = ramfs ∨ m.ops (filesystems devices count) d = devfs devices :=
  filesystems_fs _ _ _

/-! ### mkdir, rmdir and unlink -/

theorem ran_ends {α : Type} {post : α → Prop} {r : Except FsStop α} (ends : Ends r post fun _ => True) :
    Ends (ran r) post fun _ => True := by
  cases r with
  | ok x => exact ends
  | error stop => exact trivial

theorem unlink_kept (steady : Steady m) :
    Ends (m.vfsUnlink (filesystems devices count) a path) (Unharmed m) fun _ => True := by
  unfold Mounts.vfsUnlink
  refine Ends.bind (lookup_ends steady) ?_
  rintro ⟨r, t⟩ ⟨-, rfl, ahead, live⟩
  cases found : m.target a LAST_NO_SLASHES path with
  | error err =>
    rw [found] at ahead
    exact fun _ => ahead.sameNamespace steady
  | ok e =>
    obtain ⟨d, name⟩ := e
    rw [found] at ahead live
    have removes : Ends (t.vfsDunlink (filesystems devices count) d) (fun r => r.1 < 0 → r.2 = t) fun _ => True := by
      unfold Mounts.vfsDunlink
      split
      · exact fun _ => rfl
      rcases ops_eq (m := t) (d := d) with ramfs | devfs
      · rw [ramfs]
        apply ran_ends
        change Ends (t.ofVfs (t.toVfs.ramfsUnlink d)) _ _
        unfold Vfs.ramfsUnlink
        split
        · exact trivial
        cases ((t.toVfs.listDel d).freeData d).dentryPut d with
        | error stop => exact trivial
        | ok s => exact fun negative => absurd (show (0 : Int) < 0 from negative) (lt_irrefl 0)
      · rw [devfs]
        exact fun _ => rfl
    refine Ends.bind removes ?_
    rintro ⟨ret, u⟩ unchanged
    exact put_kept unchanged ahead steady (live d name rfl)

/-! ### mount -/

/-- The addresses that the allocator answers with are not in use. -/
structure MountFresh (a : MountAnswers) (m : Mounts) : Prop where
  dentry : ∀ p, a.dentry = some p → p ∉ m.live ∧ p ≠ 0
  super : ∀ b, a.super = some b → b ≠ rootfs ∧ ∀ x ∈ m.live, m.mnt x ≠ some b

theorem filesystems_mount (i : Nat) : ((filesystems devices count).fs i).mount = mountRoot := by
  rcases filesystems_fs devices count i with ramfs | devfs
  · rw [ramfs]
    rfl
  · rw [devfs]
    rfl

/-- `strcmp` finds the copy of the name that `make_node` has made. A string of 264 bytes or more runs into the
reference count. -/
def FoundAgain (name : Name) : Prop := name.length < 264 ∧ 0 ∉ name.drop 256

/-- The failing call leaves something behind: the root that could not be mounted, or a new file that no
`file_t` could be had for, or that is not found by its name. -/
def VfsCall.Leaves (reg : Registry) (a : MountAnswers) (m : Mounts) : VfsCall → Prop
  | .mount fstype path => m.root = 0 ∧ path = [slash] ∧ (reg.find fstype).isSome ∧ a.dentry.isSome ∧ a.priv = false
  | .opens path flags => ∃ d name, m.target a (LAST_RETURN ||| LAST_NO_SLASHES) path = .ok (d, some name) ∧
      m.entry d name = none ∧ flags &&& O_CREAT ≠ 0 ∧ (m.ops reg (m.into d)).create.isSome ∧ a.dentry.isSome ∧
        a.priv = true ∧ (a.file = none ∨ ¬ FoundAgain name)
  | _ => False

end Landaux
