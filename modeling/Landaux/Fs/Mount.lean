import Landaux.Fs.Path

/-!
# Mounted filesystems

`vfs.c` with superblocks. A dentry calls through the `fs_t` of its own superblock, or of the one that is
mounted on it. The operations of an `fs_t` are parameters; all but `mount`, `lookup` and `getdents` may be
`NULL`.
-/

namespace Landaux

def EACCES : Int := 13
def ENODEV : Int := 19
def ENOSYS : Int := 38

/-- A `superblock_t`: the place of its `fs_t` in `fs_list`, and its root. -/
structure Superblock where
  fs : Nat
  root : Nat

/-- The dentries with their superblocks. The `root` of the dentries is `rootfs->root_dentry`. -/
structure Mounts extends Vfs where
  sb : Nat → Nat
  mnt : Nat → Option Nat
  super : Nat → Superblock

/-- What the allocator answers in a call that may mount or write. -/
structure MountAnswers extends Answers where
  /-- the address of a new superblock -/
  super : Option Nat
  block : Granted

structure FsOps where
  name : Name
  mount : MountAnswers → Nat → Mounts → Except FsStop (Int × Mounts)
  lookup : Nat → Name → Mounts → Except FsStop (Except Int Nat × Mounts)
  getdents : Nat → Nat → Int → Mounts → Except FsStop (Int × List Entry)
  mkdir : Option (MountAnswers → Nat → Name → Mounts → Except FsStop (Int × Mounts))
  rmdir : Option (Nat → Mounts → Except FsStop (Int × Mounts))
  create : Option (MountAnswers → Nat → Name → Mounts → Except FsStop (Int × Mounts))
  unlink : Option (Nat → Mounts → Except FsStop (Int × Mounts))
  opens : Option (Nat → BitVec 32 → Mounts → Except FsStop (Int × Mounts))
  truncate : Option (Nat → Mounts → Except FsStop (Int × Mounts))
  closes : Option (Nat → Mounts → Except FsStop (Int × Mounts))
  read : Option (Nat → Nat → Nat → Mounts → Except FsStop ((Int × List UInt8) × Mounts))
  write : Option (Granted → Nat → Nat → List UInt8 → Mounts → Except FsStop (Int × Mounts))
  lseek : Option (Nat → Nat → Int → Mounts → Except FsStop (Int × Mounts))

structure Registry where
  count : Nat
  fs : Nat → FsOps

def Registry.find (reg : Registry) (fstype : Name) : Option Nat :=
  (List.range reg.count).find? fun i => (reg.fs i).name = fstype

inductive MountStop where
  /-- a call through a `NULL` pointer -/
  | null
  | fs (stop : FsStop)
  deriving DecidableEq

/-- A step in an operation, or in a function that calls none. -/
def ran {α : Type} (r : Except FsStop α) : Except MountStop α := r.mapError .fs

/-- The operation that a pointer points to. -/
def through {α : Type} (op : Option α) : Except MountStop α :=
  match op with
  | none => .error .null
  | some f => .ok f

/-- An operation that is called if it is there. -/
def guarded (op : Option (Mounts → Except FsStop (Int × Mounts))) (m : Mounts) : Except MountStop (Int × Mounts) :=
  match op with
  | none => .ok (0, m)
  | some f => ran (f m)

namespace Mounts

def rootfs : Nat := 0

def setFile (m : Mounts) (p : Nat) (f : File) : Mounts :=
  { m with file := fun q => if q = p then f else m.file q }

def kfreeFile (m : Mounts) (p : Nat) : Mounts := { m with opened := m.opened.erase p }

def put (m : Mounts) (d : Nat) : Except MountStop Mounts :=
  ran ((m.dentryPut d).map fun s => { m with toVfs := s })

def get (m : Mounts) (d : Nat) : Except MountStop Mounts :=
  ran ((m.dentryGet d).map fun s => { m with toVfs := s })

/-- `d`, or the root of what is mounted on it. -/
def into (m : Mounts) (d : Nat) : Nat :=
  match m.mnt d with
  | none => d
  | some b => (m.super b).root

def ops (m : Mounts) (reg : Registry) (d : Nat) : FsOps := reg.fs (m.super (m.sb d)).fs

/-- The operations of what is mounted on `d`, or else of its own superblock. -/
def mntOps (m : Mounts) (reg : Registry) (d : Nat) : FsOps :=
  match m.mnt d with
  | none => m.ops reg d
  | some b => reg.fs (m.super b).fs

/-- `m` while `d` may be accessed. -/
def touch (m : Mounts) (d : Nat) : Except MountStop Unit :=
  if d ∈ m.live then .ok () else .error (.fs .freed)

def setParent (m : Mounts) (x d : Nat) : Mounts := { m with toVfs := m.toVfs.setParent x d }

def lookupIn (m : Mounts) (reg : Registry) (d : Nat) (name : Name) : Except MountStop (Except Int Nat × Mounts) := do
  m.touch d
  ran ((m.mntOps reg d).lookup (m.into d) name m)

/-- The loop of `lookup_path_common`. -/
def walk (reg : Registry) (a : MountAnswers) (flags : BitVec 8) :
    Nat → Nat → List UInt8 → Nat → Mounts → Except MountStop (Except Int (Nat × Name) × Mounts)
  | 0, _, _, _, _ => .error (.fs .fuel)
  | fuel + 1, i, path, d, m =>
    let (type, name, path) := getNextComponent (a.name i) path
    if type = .noMore then do return (.error (-ENOMEM), ← m.put d)
    else if isLast type flags ∧ flags &&& LAST_RETURN ≠ 0 then .ok (.ok (d, name), m)
    else do
      match ← m.lookupIn reg d name with
      | (.error err, m) =>
        if err = -ENOENT ∧ isLast type flags ∧ flags &&& LAST_MUST_NOT_EXIST ≠ 0 then
          return (.ok (d, name), m)
        else return (.error err, ← m.put d)
      | (.ok new, m) =>
        let m := m.setParent new d
        if isLast type flags ∧ flags &&& LAST_MUST_NOT_EXIST ≠ 0 then
          return (.error (-EEXIST), ← m.put new)
        else if (m.node new).kind ≠ .dir then
          if type = .norm ∨ type = .lastSlash ∨ flags &&& LAST_MUST_BE_DIR ≠ 0 then
            return (.error (-ENOTDIR), ← m.put new)
          else return (.ok (new, name), m)
        else if type = .last ∨ type = .lastSlash then return (.ok (new, name), m)
        else walk reg a flags fuel (i + 1) path new m

def lookupPathCommon (m : Mounts) (reg : Registry) (a : MountAnswers) (path : List UInt8) (flags : BitVec 8) :
    Except MountStop (Except Int (Nat × Option Name) × Mounts) := do
  let m ← m.get m.root
  if path.head? ≠ some slash then .error (.fs .bug)
  else
    let path := path.dropWhile (· = slash)
    if path = [] then return (.ok (m.root, none), m)
    else
      match ← walk reg a flags path.length 0 path m.root m with
      | (.error err, m) => return (.error err, m)
      | (.ok (d, name), m) => return (.ok (d, some name), m)

def lookupPath (m : Mounts) (reg : Registry) (a : MountAnswers) (path : List UInt8) :
    Except MountStop (Except Int Nat × Mounts) := do
  match ← m.lookupPathCommon reg a path 0 with
  | (.error err, m) => return (.error err, m)
  | (.ok (d, _), m) => return (.ok d, m)

/-- The end of `vfs_mount`, on a dentry. -/
def mountOn (m : Mounts) (reg : Registry) (a : MountAnswers) (fs d : Nat) : Except MountStop (Int × Mounts) :=
  if (m.node d).kind ≠ .dir then do return (-ENOTDIR, ← m.put d)
  else if (m.mnt d).isSome then do return (-EBUSY, ← m.put d)
  else
    match a.super with
    | none => do return (-ENOMEM, ← m.put d)
    | some b => do
      let m : Mounts := { m with super := Function.update m.super b ⟨fs, 0⟩ }
      let (ret, m) ← ran ((reg.fs fs).mount a b m)
      if ret < 0 then return (ret, ← m.put d)
      else return (0, { m with mnt := Function.update m.mnt d (some b) })

def vfsMount (m : Mounts) (reg : Registry) (a : MountAnswers) (fstype : Name) (path : List UInt8) :
    Except MountStop (Int × Mounts) :=
  match reg.find fstype with
  | none => .ok (-ENODEV, m)
  | some fs =>
    if m.root = 0 then
      if path ≠ [slash] then .ok (-ENODEV, m)
      else ran ((reg.fs fs).mount a rootfs { m with super := Function.update m.super rootfs ⟨fs, 0⟩ })
    else do
      match ← m.lookupPathCommon reg a path LAST_MUST_BE_DIR with
      | (.error err, m) => return (err, m)
      | (.ok (d, _), m) => m.mountOn reg a fs d

def vfsGetdents (m : Mounts) (reg : Registry) (a : MountAnswers) (path : List UInt8) (size : Nat) (start : Int) :
    Except MountStop ((Int × List Entry) × Mounts) := do
  match ← m.lookupPathCommon reg a path LAST_MUST_BE_DIR with
  | (.error err, m) => return ((err, []), m)
  | (.ok (d, _), m) =>
    let ret ← ran ((m.mntOps reg d).getdents (m.into d) size start m)
    return (ret, ← m.put d)

def vfsDmkdir (m : Mounts) (reg : Registry) (a : MountAnswers) (d : Nat) (name : Name) :
    Except MountStop (Int × Mounts) :=
  if slash ∈ name then .error (.fs .bug)
  else if (m.node d).kind ≠ .dir then .ok (-ENOTDIR, m)
  else do
    let mkdir ← through (m.mntOps reg d).mkdir
    ran (mkdir a (m.into d) name m)

def vfsMkdir (m : Mounts) (reg : Registry) (a : MountAnswers) (path : List UInt8) :
    Except MountStop (Int × Mounts) := do
  match ← m.lookupPathCommon reg a path LAST_MUST_NOT_EXIST with
  | (.error err, m) => return (err, m)
  | (.ok (_, none), _) => .error (.fs .unset)
  | (.ok (d, some name), m) =>
    let (ret, m) ← m.vfsDmkdir reg a d name
    return (ret, ← m.put d)

def vfsDrmdir (m : Mounts) (reg : Registry) (d : Nat) : Except MountStop (Int × Mounts) :=
  if (m.node d).kind ≠ .dir then .ok (-ENOTDIR, m)
  else if (m.mnt d).isSome ∨ (m.node d).parent = 0 then .ok (-EBUSY, m)
  else do
    let rmdir ← through (m.ops reg d).rmdir
    ran (rmdir d m)

def vfsRmdir (m : Mounts) (reg : Registry) (a : MountAnswers) (path : List UInt8) :
    Except MountStop (Int × Mounts) := do
  match ← m.lookupPathCommon reg a path LAST_MUST_BE_DIR with
  | (.error err, m) => return (err, m)
  | (.ok (d, _), m) =>
    let (ret, m) ← m.vfsDrmdir reg d
    return (ret, ← m.put d)

def vfsDunlink (m : Mounts) (reg : Registry) (d : Nat) : Except MountStop (Int × Mounts) :=
  if (m.node d).kind = .dir then .ok (-EISDIR, m)
  else
    match (m.ops reg d).unlink with
    | none => .ok (-ENOSYS, m)
    | some unlink => ran (unlink d m)

def vfsUnlink (m : Mounts) (reg : Registry) (a : MountAnswers) (path : List UInt8) :
    Except MountStop (Int × Mounts) := do
  match ← m.lookupPathCommon reg a path LAST_NO_SLASHES with
  | (.error err, m) => return (err, m)
  | (.ok (d, _), m) =>
    let (ret, m) ← m.vfsDunlink reg d
    return (ret, ← m.put d)

/-! ### Files -/

/-- The dentry that `vfs_dopen` opens: found, or made when `O_CREAT` is given. -/
def findOrCreate (m : Mounts) (reg : Registry) (a : MountAnswers) (d : Nat) (name : Name) (flags : BitVec 32) :
    Except MountStop (Except Int Nat × Mounts) := do
  match ← ran ((m.ops reg d).lookup d name m) with
  | (.error err, m) =>
    if flags &&& O_CREAT = 0 then return (.error err, m)
    else
      match (m.ops reg d).create with
      | none => return (.error (-ENOSYS), m)
      | some create =>
        let (ret, m) ← ran (create a d name m)
        if ret < 0 then return (.error ret, m) else ran ((m.ops reg d).lookup d name m)
  | (.ok fd, m) =>
    if (m.node fd).kind = .dir then return (.error (-EISDIR), ← m.put fd)
    else if flags &&& O_CREAT ≠ 0 ∧ flags &&& O_EXCL ≠ 0 then
      return (.error (-EEXIST), ← m.put fd)
    else return (.ok fd, m)

/-- The end of `vfs_dopen` after an error of `truncate`. -/
def closeFailed (m : Mounts) (reg : Registry) (fd p : Nat) (ret : Int) : Except MountStop (Except Int Nat × Mounts) := do
  let (_, m) ← guarded ((m.ops reg fd).closes.map fun close => close p) m
  return (.error ret, ← (m.kfreeFile p).put fd)

/-- `vfs_dopen` from the `open` of the filesystem on. -/
def openFile (m : Mounts) (reg : Registry) (flags : BitVec 32) (fd p : Nat) :
    Except MountStop (Except Int Nat × Mounts) := do
  let (ret, m) ← guarded ((m.ops reg fd).opens.map fun op => op p flags) m
  if ret < 0 then return (.error ret, ← (m.kfreeFile p).put fd)
  else if flags &&& O_TRUNC = 0 then return (.ok p, m)
  else
    let (ret, m) ← guarded ((m.ops reg fd).truncate.map fun truncate => truncate p) m
    if ret < 0 then m.closeFailed reg fd p ret else return (.ok p, m)

def vfsDopen (m : Mounts) (reg : Registry) (a : MountAnswers) (d : Nat) (name : Name) (flags : BitVec 32) :
    Except MountStop (Except Int Nat × Mounts) := do
  match ← m.findOrCreate reg a (m.into d) name flags with
  | (.error err, m) => return (.error err, m)
  | (.ok fd, m) =>
    match a.file with
    | none => return (.error (-ENOMEM), ← m.put fd)
    | some p =>
      let size := (m.node fd).data.size
      let f : File := ⟨fd, flags &&& O_RDWR, if flags &&& O_APPEND ≠ 0 then size else 0, 1⟩
      ({ m with opened := insert p m.opened } : Mounts).setFile p f |>.openFile reg flags fd p

def vfsOpen (m : Mounts) (reg : Registry) (a : MountAnswers) (path : List UInt8) (flags : BitVec 32) :
    Except MountStop (Except Int Nat × Mounts) := do
  match ← m.lookupPathCommon reg a path (LAST_RETURN ||| LAST_NO_SLASHES) with
  | (.error err, m) => return (.error err, m)
  | (.ok (_, none), _) => .error (.fs .unset)
  | (.ok (d, some name), m) =>
    let (ret, m) ← m.vfsDopen reg a d name flags
    return (ret, ← m.put d)

def vfsClose (m : Mounts) (reg : Registry) (p : Nat) : Except MountStop (Int × Mounts) :=
  if p ∉ m.opened then .error (.fs .freed)
  else
    let f := m.file p
    match Landaux.vfsClose f with
    | some f => .ok (0, m.setFile p f)
    | none => do
      let m := m.setFile p { f with refcnt := f.refcnt - 1 }
      let (ret, m) ← guarded ((m.ops reg f.dentry).closes.map fun close => close p) m
      return (ret, ← (m.kfreeFile p).put f.dentry)

/-- `f->offset += count` after a read or a write. -/
def advance (m : Mounts) (p : Nat) (count : Int) : Mounts :=
  if count > 0 then m.setFile p { m.file p with offset := u32 ((m.file p).offset + count) } else m

def vfsRead (m : Mounts) (reg : Registry) (p size : Nat) : Except MountStop ((Int × List UInt8) × Mounts) :=
  if p ∉ m.opened then .error (.fs .freed)
  else
    let f := m.file p
    if f.openmode &&& O_RDONLY = 0 then .ok ((-EINVAL, []), m)
    else
      match (m.ops reg f.dentry).read with
      | none => .ok ((-ENOSYS, []), m)
      | some read =>
        if size = 0 then .ok ((0, []), m)
        else do
          let ((count, bytes), m) ← ran (read p f.offset size m)
          return ((count, bytes), m.advance p count)

def vfsWrite (m : Mounts) (reg : Registry) (a : MountAnswers) (p : Nat) (buf : List UInt8) :
    Except MountStop (Int × Mounts) :=
  if p ∉ m.opened then .error (.fs .freed)
  else
    let f := m.file p
    if f.openmode &&& O_WRONLY = 0 then .ok (-EINVAL, m)
    else
      match (m.ops reg f.dentry).write with
      | none => .ok (-ENOSYS, m)
      | some write =>
        if buf.length = 0 then .ok (0, m)
        else do
          let (count, m) ← ran (write a.block p f.offset buf m)
          return (count, m.advance p count)

def vfsLseek (m : Mounts) (reg : Registry) (p offset : Nat) (whence : Int) : Except MountStop (Int × Mounts) :=
  if p ∉ m.opened then .error (.fs .freed)
  else
    let f := m.file p
    match (m.ops reg f.dentry).lseek with
    | some lseek => ran (lseek p offset whence m)
    | none =>
      let (ret, f) := Landaux.vfsLseek offset whence f (m.node f.dentry).data
      .ok (ret.value, m.setFile p f)

end Mounts

/-! ### Calls -/

/-- The calls on paths and files; a `file_t` is given by its address. -/
inductive VfsCall where
  | mount (fstype : Name) (path : List UInt8)
  | lookup (path : List UInt8)
  | getdents (path : List UInt8) (size : Nat) (start : Int)
  | mkdir (path : List UInt8)
  | rmdir (path : List UInt8)
  | unlink (path : List UInt8)
  | opens (path : List UInt8) (flags : BitVec 32)
  | closes (p : Nat)
  | read (p size : Nat)
  | write (p : Nat) (buf : List UInt8)
  | lseek (p offset : Nat) (whence : Int)

/-- What a call returns, without what it puts into a buffer. -/
def VfsCall.act (reg : Registry) (a : MountAnswers) (m : Mounts) :
    VfsCall → Except MountStop (Except Int Nat × Mounts)
  | .mount fstype path => (m.vfsMount reg a fstype path).map fun (ret, m) => (value ret, m)
  | .lookup path => m.lookupPath reg a path
  | .getdents path size start => (m.vfsGetdents reg a path size start).map fun (ret, m) => (value ret.1, m)
  | .mkdir path => (m.vfsMkdir reg a path).map fun (ret, m) => (value ret, m)
  | .rmdir path => (m.vfsRmdir reg a path).map fun (ret, m) => (value ret, m)
  | .unlink path => (m.vfsUnlink reg a path).map fun (ret, m) => (value ret, m)
  | .opens path flags => m.vfsOpen reg a path flags
  | .closes p => (m.vfsClose reg p).map fun (ret, m) => (value ret, m)
  | .read p size => (m.vfsRead reg p size).map fun (ret, m) => (value ret.1, m)
  | .write p buf => (m.vfsWrite reg a p buf).map fun (ret, m) => (value ret, m)
  | .lseek p offset whence => (m.vfsLseek reg p offset whence).map fun (ret, m) => (value ret, m)
where
  /-- A negative number is an error. -/
  value (ret : Int) : Except Int Nat := if ret < 0 then .error ret else .ok ret.toNat

end Landaux
