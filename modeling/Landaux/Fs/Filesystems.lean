import Landaux.Fs.Mount

/-!
# ramfs and devfs

The `fs_t` tables of `ramfs.c` and `devfs.c`, which keep their dentries in the same way. The operations
of a device are parameters.
-/

namespace Landaux

namespace Mounts

def ofVfs (m : Mounts) {α : Type} (r : Except FsStop (α × Vfs)) : Except FsStop (α × Mounts) :=
  r.map fun (ret, s) => (ret, { m with toVfs := s })

def mountRoot (a : MountAnswers) (b : Nat) (m : Mounts) : Except FsStop (Int × Mounts) :=
  match a.dentry with
  | none => .ok (-ENOMEM, m)
  | some d =>
    let m : Mounts := { m with
      live := insert d m.live
      node := fun x => if x = d then ⟨[slash], 0, 1, .dir, [], .new⟩ else m.node x
      sb := Function.update m.sb d b
      mnt := Function.update m.mnt d none
      root := if b = rootfs then d else m.root
      super := if b = rootfs then m.super else Function.update m.super b ⟨(m.super b).fs, d⟩ }
    if a.priv then .ok (0, m) else .ok (-ENOMEM, { m with live := m.live.erase d })

def makeNode (a : MountAnswers) (parent : Nat) (name : Name) (kind : Kind) (m : Mounts) :
    Except FsStop (Int × Mounts) :=
  match a.dentry with
  | none => .ok (-ENOMEM, m)
  | some d =>
    if !a.priv then .ok (-ENOMEM, m)
    else do
      let (ret, s) ← m.toVfs.makeNode a.toAnswers parent name kind
      return (ret, { m with
        toVfs := s
        sb := Function.update m.sb d (m.sb parent)
        mnt := Function.update m.mnt d none })

def setData (m : Mounts) (d : Nat) (data : FileData) : Mounts :=
  { m with toVfs := m.setNode d { m.node d with data := data } }

end Mounts

def lookupNode (d : Nat) (name : Name) (m : Mounts) : Except FsStop (Except Int Nat × Mounts) :=
  m.ofVfs (m.toVfs.ramfsLookup d name)

def getdentsNode (d size : Nat) (start : Int) (m : Mounts) : Except FsStop (Int × List Entry) :=
  m.toVfs.ramfsGetdents d size start

def ramfs : FsOps where
  name := [114, 97, 109, 102, 115]
  mount := Mounts.mountRoot
  lookup := lookupNode
  getdents := getdentsNode
  mkdir := some fun a d name m => m.makeNode a d name .dir
  rmdir := some fun d m => m.ofVfs (m.toVfs.ramfsRmdir d)
  create := some fun a d name m => m.makeNode a d name .file
  unlink := some fun d m => m.ofVfs (m.toVfs.ramfsUnlink d)
  opens := none
  truncate := some fun p m =>
    let f := m.file p
    .ok (0, m.setData f.dentry (ramfsTruncate f.offset (m.node f.dentry).data))
  closes := none
  read := some fun p offset size m =>
    match ramfsRead offset size (m.node (m.file p).dentry).data with
    | .error _ => .error .overrun
    | .ok ret => .ok (ret, m)
  write := some fun granted p offset buf m =>
    match ramfsWrite granted offset buf (m.node (m.file p).dentry).data with
    | .error _ => .error .overrun
    | .ok (ret, data) => .ok (ret, m.setData (m.file p).dentry data)
  lseek := none

structure Device where
  opens : Nat → BitVec 32 → Int
  closes : Nat → Int
  read : Option (Nat → Nat → Nat → Int × List UInt8)
  write : Option (Nat → Nat → List UInt8 → Int)

/-- `devices` gives the `ops` of the private data of a dentry. -/
def devfs (devices : Nat → Device) : FsOps where
  name := [100, 101, 118, 102, 115]
  mount := Mounts.mountRoot
  lookup := lookupNode
  getdents := getdentsNode
  mkdir := none
  rmdir := none
  create := none
  unlink := none
  opens := some fun p flags m =>
    let device := devices (m.file p).dentry
    if flags &&& O_RDONLY ≠ 0 ∧ device.read.isNone ∨ flags &&& O_WRONLY ≠ 0 ∧ device.write.isNone then
      .ok (-EACCES, m)
    else .ok (device.opens p flags, m)
  truncate := none
  closes := some fun p m => .ok ((devices (m.file p).dentry).closes p, m)
  -- `devfs_open` has seen that a device that is read has a `read`
  read := some fun p offset size m =>
    match (devices (m.file p).dentry).read with
    | none => .error .freed
    | some read => .ok (read p offset size, m)
  write := some fun _ p offset buf m =>
    match (devices (m.file p).dentry).write with
    | none => .error .freed
    | some write => .ok (write p offset buf, m)
  lseek := none

/-- `fs_list` after `init_ramfs` and `init_devfs`. -/
def filesystems (devices : Nat → Device) (count : Nat) : Registry where
  count := count
  fs := fun i => if i = 0 then ramfs else devfs devices

def Mounts.bare : Mounts where
  root := 0
  live := ∅
  node := fun _ => ⟨[], 0, 0, .file, [], .new⟩
  opened := ∅
  file := fun _ => ⟨0, 0, 0, 0⟩
  sb := fun _ => 0
  mnt := fun _ => none
  super := fun _ => ⟨0, 0⟩

def nullDevice : Device := ⟨fun _ _ => 0, fun _ => 0, none, none⟩

/-- There is memory, the next of it at `d`. -/
def plentiful (d : Nat) : MountAnswers := ⟨⟨fun _ => true, some d, true, some d⟩, some d, some fun _ => 0⟩

end Landaux
