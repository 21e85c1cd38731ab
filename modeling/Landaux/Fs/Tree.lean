import Landaux.Fs.Components
import Mathlib.Data.List.Infix

/-!
# The tree of names

What the calls of `vfs.c` are for: a finite tree of directories and files, and how each call reads or
changes it. Nothing here is about dentries.
-/

namespace Landaux

/-- What is at a path: a file, or a directory with the names in it, the oldest first. -/
inductive Item where
  | file
  | dir (names : List Name)
  deriving DecidableEq

def Item.kind : Item → Kind
  | .file => .file
  | .dir _ => .dir

/-- What is made of a kind, with nothing in it. -/
def Item.new : Kind → Item
  | .file => .file
  | .dir => .dir []

abbrev NameTree := List Name → Option Item

inductive Seen where
  | int (value : Int)
  | opened (ret : Except Int Unit)
  | found (ret : Except Int Kind)
  | dents (count : Int) (entries : List (Name × Nat))

namespace NameTree

def empty : NameTree := fun path => if path = [] then some (.dir []) else none

def update (t : NameTree) (path : List Name) (item : Option Item) : NameTree :=
  fun q => if q = path then item else t q

/-- A file is on the way down to `path`. -/
def fileOn (t : NameTree) (path : List Name) : Bool := path.inits.any fun q => t q = some .file

def names (t : NameTree) (path : List Name) : Except Int (List Name) :=
  if t.fileOn path then .error (-ENOTDIR)
  else match t path with
    | some (.dir names) => .ok names
    | _ => .error (-ENOENT)

def add (t : NameTree) (dir : List Name) (name : Name) (item : Item) (names : List Name) : NameTree :=
  (t.update dir (some (.dir (names ++ [name])))).update (dir ++ [name]) (some item)

def remove (t : NameTree) (dir : List Name) (name : Name) (names : List Name) : NameTree :=
  (t.update dir (some (.dir (names.erase name)))).update (dir ++ [name]) none

/-! ### Calls for `name` in the directory at `dir` -/

def lookup (t : NameTree) (dir : List Name) (name : Name) : Except Int Item :=
  match t.names dir with
  | .error err => .error err
  | .ok _ =>
    match t (dir ++ [name]) with
    | none => .error (-ENOENT)
    | some item => .ok item

def mkdir (t : NameTree) (dir : List Name) (name : Name) : Int × NameTree :=
  match t.names dir with
  | .error err => (err, t)
  | .ok names =>
    if (t (dir ++ [name])).isSome then (-EEXIST, t) else (0, t.add dir name (.dir []) names)

def rmdir (t : NameTree) (dir : List Name) (name : Name) : Int × NameTree :=
  match t.names dir with
  | .error err => (err, t)
  | .ok names =>
    match t (dir ++ [name]) with
    | none => (-ENOENT, t)
    | some .file => (-ENOTDIR, t)
    | some (.dir inner) => if inner ≠ [] then (-ENOTEMPTY, t) else (0, t.remove dir name names)

def unlink (t : NameTree) (dir : List Name) (name : Name) : Int × NameTree :=
  match t.names dir with
  | .error err => (err, t)
  | .ok names =>
    match t (dir ++ [name]) with
    | none => (-ENOENT, t)
    | some (.dir _) => (-EISDIR, t)
    | some .file => (0, t.remove dir name names)

def opens (t : NameTree) (dir : List Name) (name : Name) (flags : BitVec 32) : Except Int Unit × NameTree :=
  match t.names dir with
  | .error err => (.error err, t)
  | .ok names =>
    match t (dir ++ [name]) with
    | none => if flags &&& O_CREAT = 0 then (.error (-ENOENT), t) else (.ok (), t.add dir name .file names)
    | some (.dir _) => (.error (-EISDIR), t)
    | some .file =>
      if flags &&& O_CREAT ≠ 0 ∧ flags &&& O_EXCL ≠ 0 then (.error (-EEXIST), t) else (.ok (), t)

/-- The entry at position `start` of a directory, with its mode. -/
def getdents (t : NameTree) (dir : List Name) (name : Name) (size : Nat) (start : Int) : Int × List (Name × Nat) :=
  match t.lookup dir name with
  | .error err => (err, [])
  | .ok .file => (-ENOTDIR, [])
  | .ok (.dir inner) =>
    match if start < 0 then none else inner[start.toNat]? with
    | none => (0, [])
    | some entry =>
      if size < recLen entry then (-ENOMEM, [])
      else (1, [(entry, ((t (dir ++ [name] ++ [entry])).map fun item => item.kind.mode).getD 0)])

def act (t : NameTree) : FsCall → Seen × NameTree
  | .lookup path =>
    (.found ((t.lookup (components path).dropLast ((components path).getLastD [])).map Item.kind), t)
  | .getdents path size start =>
    let (count, entries) := t.getdents (components path).dropLast ((components path).getLastD []) size start
    (.dents count entries, t)
  | .mkdir path =>
    let (ret, t) := t.mkdir (components path).dropLast ((components path).getLastD [])
    (.int ret, t)
  | .rmdir path =>
    let (ret, t) := t.rmdir (components path).dropLast ((components path).getLastD [])
    (.int ret, t)
  | .unlink path =>
    let (ret, t) := t.unlink (components path).dropLast ((components path).getLastD [])
    (.int ret, t)
  | .opens path flags =>
    let (ret, t) := t.opens (components path).dropLast ((components path).getLastD []) flags
    (.opened ret, t)
  | .closes _ => (.int 0, t)

end NameTree

def Seen.Fails : Seen → Prop
  | .int value => value < 0
  | .opened ret => ret.isOk = false
  | .found ret => ret.isOk = false
  | .dents count _ => count < 0

namespace NameTree

variable {t : NameTree} {call : FsCall}

/-- A call that fails leaves the tree alone. -/
theorem act_fails (fails : (t.act call).1.Fails) : (t.act call).2 = t := by
  cases call with
  | lookup | getdents | closes => rfl
  | mkdir path =>
    unfold act mkdir Seen.Fails at *
    grind
  | rmdir path =>
    unfold act rmdir Seen.Fails at *
    grind
  | unlink path =>
    unfold act unlink Seen.Fails at *
    grind
  | opens path flags =>
    unfold act opens Seen.Fails at *
    grind [Except.toBool]

/-- A finite tree whose siblings have different names. -/
structure Valid (t : NameTree) : Prop where
  root : ∃ names, t [] = some (.dir names)
  distinct : ∀ path names, t path = some (.dir names) → names.Nodup
  entries : ∀ path name, (t (path ++ [name])).isSome ↔ ∃ names, t path = some (.dir names) ∧ name ∈ names
  finite : {path | (t path).isSome}.Finite

end NameTree
end Landaux
