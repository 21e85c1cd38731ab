import Landaux.Fs.Dentry

/-!
# Paths

`get_next_component`, `lookup_path_common` and the calls of `vfs.c` that take a path.
-/

namespace Landaux

def slash : UInt8 := 47

inductive Comp where
  | noMore
  | norm
  | last
  | lastSlash
  deriving DecidableEq

/-- The type of the next component, its name, and the rest of the path. -/
def getNextComponent (granted : Bool) (path : List UInt8) : Comp × Name × List UInt8 :=
  if path = [] ∨ granted = false then (.noMore, [], path)
  else
    let name := path.takeWhile (· ≠ slash)
    let p := path.dropWhile (· ≠ slash)
    if p = [] then (.last, name, [])
    else
      let p := p.dropWhile (· = slash)
      if p = [] then (.lastSlash, name, []) else (.norm, name, p)

def LAST_MUST_NOT_EXIST : BitVec 8 := 1
def LAST_MUST_BE_DIR : BitVec 8 := 2
def LAST_NO_SLASHES : BitVec 8 := 4
def LAST_RETURN : BitVec 8 := 8

/-- A component of type `type` is the last one, as far as the flags say. -/
def isLast (type : Comp) (flags : BitVec 8) : Prop :=
  type = .last ∨ type = .lastSlash ∧ flags &&& ~~~LAST_NO_SLASHES ≠ 0

instance (type : Comp) (flags : BitVec 8) : Decidable (isLast type flags) :=
  inferInstanceAs (Decidable (_ ∨ _))

namespace Vfs

def setParent (s : Vfs) (x d : Nat) : Vfs := s.setNode x { s.node x with parent := d }

def setFile (s : Vfs) (p : Nat) (f : File) : Vfs := { s with file := fun q => if q = p then f else s.file q }

def kfreeFile (s : Vfs) (p : Nat) : Vfs := { s with opened := s.opened.erase p }

/-- The loop of `lookup_path_common` from component `i` on, in dentry `d`: an error, or a dentry and the
name of the last component. -/
def walk (a : Answers) (flags : BitVec 8) :
    Nat → Nat → List UInt8 → Nat → Vfs → Except FsStop (Except Int (Nat × Name) × Vfs)
  | 0, _, _, _, _ => .error .fuel
  | fuel + 1, i, path, d, s =>
    let (type, name, path) := getNextComponent (a.name i) path
    if type = .noMore then do return (.error (-ENOMEM), ← s.dentryPut d)
    else if isLast type flags ∧ flags &&& LAST_RETURN ≠ 0 then .ok (.ok (d, name), s)
    else do
      match ← s.ramfsLookup d name with
      | (.error err, s) =>
        if err = -ENOENT ∧ isLast type flags ∧ flags &&& LAST_MUST_NOT_EXIST ≠ 0 then
          return (.ok (d, name), s)
        else return (.error err, ← s.dentryPut d)
      | (.ok new, s) =>
        let s := s.setParent new d
        if isLast type flags ∧ flags &&& LAST_MUST_NOT_EXIST ≠ 0 then
          return (.error (-EEXIST), ← s.dentryPut new)
        else if (s.node new).kind ≠ .dir then
          if type = .norm ∨ type = .lastSlash ∨ flags &&& LAST_MUST_BE_DIR ≠ 0 then
            return (.error (-ENOTDIR), ← s.dentryPut new)
          else return (.ok (new, name), s)
        else if type = .last ∨ type = .lastSlash then return (.ok (new, name), s)
        else walk a flags fuel (i + 1) path new s

/-- A dentry and, if there was a component, the last name; or an error. -/
def lookupPathCommon (s : Vfs) (a : Answers) (path : List UInt8) (flags : BitVec 8) :
    Except FsStop (Except Int (Nat × Option Name) × Vfs) := do
  let s ← s.dentryGet s.root
  if path.head? ≠ some slash then .error .bug
  else
    let path := path.dropWhile (· = slash)
    if path = [] then return (.ok (s.root, none), s)
    else
      match ← walk a flags path.length 0 path s.root s with
      | (.error err, s) => return (.error err, s)
      | (.ok (d, name), s) => return (.ok (d, some name), s)

/-- `lookup_path`, and `dentry_put` of what it returns. -/
def lookupPath (s : Vfs) (a : Answers) (path : List UInt8) : Except FsStop (Except Int Nat × Vfs) := do
  match ← s.lookupPathCommon a path 0 with
  | (.error err, s) => return (.error err, s)
  | (.ok (d, _), s) => return (.ok d, ← s.dentryPut d)

def vfsGetdents (s : Vfs) (a : Answers) (path : List UInt8) (size : Nat) (start : Int) :
    Except FsStop ((Int × List Entry) × Vfs) := do
  match ← s.lookupPathCommon a path LAST_MUST_BE_DIR with
  | (.error err, s) => return ((err, []), s)
  | (.ok (d, _), s) =>
    let ret ← s.ramfsGetdents d size start
    return (ret, ← s.dentryPut d)

def vfsDmkdir (s : Vfs) (a : Answers) (d : Nat) (name : Name) : Except FsStop (Int × Vfs) :=
  if slash ∈ name then .error .bug
  else if d ∉ s.live then .error .freed
  else if (s.node d).kind ≠ .dir then .ok (-ENOTDIR, s)
  else s.makeNode a d name .dir

def vfsMkdir (s : Vfs) (a : Answers) (path : List UInt8) : Except FsStop (Int × Vfs) := do
  match ← s.lookupPathCommon a path LAST_MUST_NOT_EXIST with
  | (.error err, s) => return (err, s)
  | (.ok (_, none), _) => .error .unset
  | (.ok (d, some name), s) =>
    let (ret, s) ← s.vfsDmkdir a d name
    return (ret, ← s.dentryPut d)

def vfsDrmdir (s : Vfs) (d : Nat) : Except FsStop (Int × Vfs) :=
  if d ∉ s.live then .error .freed
  else if (s.node d).kind ≠ .dir then .ok (-ENOTDIR, s)
  else if (s.node d).parent = 0 then .ok (-EBUSY, s)
  else s.ramfsRmdir d

def vfsRmdir (s : Vfs) (a : Answers) (path : List UInt8) : Except FsStop (Int × Vfs) := do
  match ← s.lookupPathCommon a path LAST_MUST_BE_DIR with
  | (.error err, s) => return (err, s)
  | (.ok (d, _), s) =>
    let (ret, s) ← s.vfsDrmdir d
    return (ret, ← s.dentryPut d)

def vfsDunlink (s : Vfs) (d : Nat) : Except FsStop (Int × Vfs) :=
  if d ∉ s.live then .error .freed
  else if (s.node d).kind = .dir then .ok (-EISDIR, s)
  else s.ramfsUnlink d

def vfsUnlink (s : Vfs) (a : Answers) (path : List UInt8) : Except FsStop (Int × Vfs) := do
  match ← s.lookupPathCommon a path LAST_NO_SLASHES with
  | (.error err, s) => return (err, s)
  | (.ok (d, _), s) =>
    let (ret, s) ← s.vfsDunlink d
    return (ret, ← s.dentryPut d)

/-- The dentry that `vfs_dopen` opens: found, or made when `O_CREAT` is given. -/
def findOrCreate (s : Vfs) (a : Answers) (d : Nat) (name : Name) (flags : BitVec 32) :
    Except FsStop (Except Int Nat × Vfs) := do
  match ← s.ramfsLookup d name with
  | (.error err, s) =>
    if flags &&& O_CREAT = 0 then return (.error err, s)
    else
      let (ret, s) ← s.makeNode a d name .file
      if ret < 0 then return (.error ret, s) else s.ramfsLookup d name
  | (.ok fd, s) =>
    if (s.node fd).kind = .dir then return (.error (-EISDIR), ← s.dentryPut fd)
    else if flags &&& O_CREAT ≠ 0 ∧ flags &&& O_EXCL ≠ 0 then
      return (.error (-EEXIST), ← s.dentryPut fd)
    else return (.ok fd, s)

def vfsDopen (s : Vfs) (a : Answers) (d : Nat) (name : Name) (flags : BitVec 32) :
    Except FsStop (Except Int Nat × Vfs) := do
  match ← s.findOrCreate a d name flags with
  | (.error err, s) => return (.error err, s)
  | (.ok fd, s) =>
    match newFile a.file.isSome fd flags (s.node fd).data with
    | .error err => return (.error err, ← s.dentryPut fd)
    | .ok (f, data) =>
      let p := a.file.getD 0
      let s := s.setNode fd { s.node fd with data := data }
      return (.ok p, { s with opened := insert p s.opened, file := fun q => if q = p then f else s.file q })

def vfsOpen (s : Vfs) (a : Answers) (path : List UInt8) (flags : BitVec 32) :
    Except FsStop (Except Int Nat × Vfs) := do
  match ← s.lookupPathCommon a path (LAST_RETURN ||| LAST_NO_SLASHES) with
  | (.error err, s) => return (.error err, s)
  | (.ok (_, none), _) => .error .unset
  | (.ok (d, some name), s) =>
    let (ret, s) ← s.vfsDopen a d name flags
    return (ret, ← s.dentryPut d)

def vfsClose (s : Vfs) (p : Nat) : Except FsStop (Int × Vfs) :=
  if p ∉ s.opened then .error .freed
  else
    let f := s.file p
    match Landaux.vfsClose f with
    | some f => .ok (0, s.setFile p f)
    | none => do
      let s := s.setFile p { f with refcnt := f.refcnt - 1 }
      return (0, ← (s.kfreeFile p).dentryPut f.dentry)

end Vfs

/-! ### Calls -/

inductive FsCall where
  | lookup (path : List UInt8)
  | getdents (path : List UInt8) (size : Nat) (start : Int)
  | mkdir (path : List UInt8)
  | rmdir (path : List UInt8)
  | unlink (path : List UInt8)
  | opens (path : List UInt8) (flags : BitVec 32)
  | closes (p : Nat)

inductive FsRet where
  | int (value : Int)
  | pointer (ret : Except Int Nat)
  | dents (count : Int) (entries : List Entry)

def FsCall.act (a : Answers) (s : Vfs) : FsCall → Except FsStop (FsRet × Vfs)
  | .lookup path => do
    let (ret, s) ← s.lookupPath a path
    return (.pointer ret, s)
  | .getdents path size start => do
    let ((count, entries), s) ← s.vfsGetdents a path size start
    return (.dents count entries, s)
  | .mkdir path => do
    let (ret, s) ← s.vfsMkdir a path
    return (.int ret, s)
  | .rmdir path => do
    let (ret, s) ← s.vfsRmdir a path
    return (.int ret, s)
  | .unlink path => do
    let (ret, s) ← s.vfsUnlink a path
    return (.int ret, s)
  | .opens path flags => do
    let (ret, s) ← s.vfsOpen a path flags
    return (.pointer ret, s)
  | .closes p => do
    let (ret, s) ← s.vfsClose p
    return (.int ret, s)

/-- An empty root directory, as `ramfs_mount` makes it at address `root`. -/
def Vfs.mounted (root : Nat) : Vfs where
  root := root
  live := {root}
  node := fun _ => ⟨[slash], 0, 1, .dir, [], .new⟩
  opened := ∅
  file := fun _ => ⟨0, 0, 0, 0⟩

end Landaux
