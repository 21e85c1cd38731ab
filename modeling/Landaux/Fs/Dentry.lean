import Landaux.Fs.File

/-!
# Dentries

The tree of dentries that `ramfs.c` keeps, and `dentry_get` and `dentry_put` of `vfs.c`. Nothing is
mounted on a dentry. Addresses stand for pointers, 0 for `NULL`. A program that touches a dentry after
it was freed, or frees one that is still pointed to, stops.
-/

namespace Landaux

def ENOENT : Int := 2
def EBUSY : Int := 16
def ENOTDIR : Int := 20
def EISDIR : Int := 21
def ENOTEMPTY : Int := 39

/-- A C string, without the 0 at its end. -/
abbrev Name := List UInt8

inductive Kind where
  | file
  | dir
  deriving DecidableEq

def Kind.mode : Kind → Nat
  | .file => 1
  | .dir => 2

/-- A `dentry_t` with its `dpriv_t`. -/
structure Dentry where
  /-- the bytes before the first 0 in `name` and the byte of padding after it -/
  name : List UInt8
  parent : Nat
  refcnt : Int
  kind : Kind
  /-- the dentries whose `header` is in the list `children` -/
  children : List Nat
  data : FileData

inductive FsStop where
  /-- an access to freed memory -/
  | freed
  /-- memory is freed that is still pointed to -/
  | dangling
  /-- a reference count reaches 2^31 -/
  | overflow
  /-- a copy past the end of an object -/
  | overrun
  /-- a local variable is read that was never set -/
  | unset
  /-- `BUG_ON` -/
  | bug
  /-- a recursion of the model is longer than it can be -/
  | fuel
  deriving DecidableEq

/-- The dentries and the `file_t`s that are allocated. -/
structure Vfs where
  root : Nat
  live : Finset Nat
  node : Nat → Dentry
  opened : Finset Nat
  file : Nat → File

namespace Vfs

def setNode (s : Vfs) (d : Nat) (n : Dentry) : Vfs :=
  { s with node := fun x => if x = d then n else s.node x }

def addRefcnt (s : Vfs) (d : Nat) (n : Int) : Vfs :=
  s.setNode d { s.node d with refcnt := (s.node d).refcnt + n }

def listDel (s : Vfs) (d : Nat) : Vfs :=
  { s with node := fun x => { s.node x with children := (s.node x).children.erase d } }

/-! ### vfs.c -/

/-- Something still points to `d`: a list of children, an open file, or the parent pointer of a dentry
that is not itself being freed. -/
def Needed (s : Vfs) (d : Nat) : Prop :=
  (∃ x ∈ s.live, d ∈ (s.node x).children) ∨ (∃ p ∈ s.opened, (s.file p).dentry = d) ∨
    ∃ x ∈ s.live, (s.node x).refcnt ≠ 0 ∧ (s.node x).parent = d

instance (s : Vfs) (d : Nat) : Decidable (s.Needed d) :=
  inferInstanceAs (Decidable (_ ∨ _ ∨ _))

def kfreeDentry (s : Vfs) (d : Nat) : Except FsStop Vfs :=
  if d ∉ s.live then .error .freed
  else if s.Needed d then .error .dangling
  else .ok { s with live := s.live.erase d }

def dentryGet (s : Vfs) (d : Nat) : Except FsStop Vfs :=
  if d ∉ s.live then .error .freed
  else if (s.node d).refcnt + 1 ≥ 2 ^ 31 then .error .overflow
  else .ok (s.addRefcnt d 1)

/-- `dentry_put`, with a bound on the depth of its recursion. -/
def putUpTo : Nat → Nat → Vfs → Except FsStop Vfs
  | 0, _, _ => .error .fuel
  | fuel + 1, d, s =>
    if d ∉ s.live then .error .freed
    else
      let s := s.addRefcnt d (-1)
      if (s.node d).refcnt = 0 then do
        let s ← if (s.node d).parent ≠ 0 then putUpTo fuel (s.node d).parent s else .ok s
        s.kfreeDentry d
      else .ok s

def dentryPut (s : Vfs) (d : Nat) : Except FsStop Vfs := putUpTo (s.live.card + 1) d s

end Vfs

/-! ### ramfs.c -/

/-- The number whose bytes are given, the least significant one first. -/
def ofBytes (bytes : List UInt8) : Nat := bytes.foldr (fun b n => b.toNat + 256 * n) 0

def toBytes (n x : Nat) : List UInt8 := (List.range n).map fun i => UInt8.ofNat (x / 256 ^ i)

/-- `strcpy` to `name` in a dentry of zeros: `name` and the padding after it have 256 bytes, the parent
pointer the next 8, and the reference count the next 4. -/
def strcpyName (name : Name) (kind : Kind) : Except FsStop Dentry :=
  if name.length ≤ 268 then
    .ok {
      name := name.take 256
      parent := ofBytes ((name.drop 256).take 8)
      refcnt := int32 (ofBytes ((name.drop 264).take 4))
      kind := kind
      children := []
      data := .new }
  else .error .overrun

/-- What `strcmp` and `strlen` read at `name`: a name without a 0 goes on in the parent pointer and the
reference count. -/
def Dentry.string (d : Dentry) : Name :=
  if d.name.length < 256 then d.name
  else d.name ++ (toBytes 8 d.parent ++ toBytes 4 (d.refcnt % 2 ^ 32).toNat).takeWhile (· ≠ 0)

def recLen (name : Name) : Nat := (12 + name.length + 1 + 3) / 4 * 4

structure Entry where
  reclen : Nat
  mode : Nat
  size : Nat
  name : Name
  deriving DecidableEq

/-- What the allocator answers in one call. -/
structure Answers where
  /-- whether the `kmalloc` for component `i` of a path succeeds -/
  name : Nat → Bool
  /-- the address of a new dentry -/
  dentry : Option Nat
  /-- whether there is memory for its `dpriv_t` -/
  priv : Bool
  /-- the address of a new `file_t` -/
  file : Option Nat

namespace Vfs

def makeNode (s : Vfs) (a : Answers) (parent : Nat) (name : Name) (kind : Kind) :
    Except FsStop (Int × Vfs) :=
  match a.dentry with
  | none => .ok (-ENOMEM, s)
  | some d =>
    if !a.priv then .ok (-ENOMEM, s)
    else do
      let n ← strcpyName name kind
      if parent ∉ s.live then .error .freed
      else
        let s := ({ s with live := insert d s.live } : Vfs).setNode d n
        let s := s.setNode parent { s.node parent with children := (s.node parent).children ++ [d] }
        return (0, ← s.dentryGet d)

def findChild (s : Vfs) (name : Name) : List Nat → Except FsStop (Option Nat)
  | [] => .ok none
  | c :: cs =>
    if c ∉ s.live then .error .freed
    else if (s.node c).string = name then .ok (some c)
    else s.findChild name cs

def ramfsLookup (s : Vfs) (d : Nat) (name : Name) : Except FsStop (Except Int Nat × Vfs) :=
  if d ∉ s.live then .error .freed
  else if (s.node d).kind ≠ .dir then .ok (.error (-ENOTDIR), s)
  else do
    match ← s.findChild name (s.node d).children with
    | none => return (.error (-ENOENT), s)
    | some c => return (.ok c, ← s.dentryGet c)

/-- The loop of `ramfs_getdents`: `start--` goes on below 0. -/
def fillDents (s : Vfs) : List Nat → Nat → Int → List Entry → Except FsStop (Int × List Entry)
  | [], _, _, done => .ok (done.length, done)
  | c :: cs, size, start, done =>
    if start ≠ 0 then s.fillDents cs size (start - 1) done
    else if c ∉ s.live then .error .freed
    else
      let n := s.node c
      if size < recLen n.string then
        .ok (if done = [] then (-ENOMEM, []) else (done.length, done))
      else
        s.fillDents cs (size - recLen n.string) (start - 1)
          (done ++ [⟨recLen n.string, n.kind.mode, n.data.size, n.string⟩])

def ramfsGetdents (s : Vfs) (d size : Nat) (start : Int) : Except FsStop (Int × List Entry) :=
  if d ∉ s.live then .error .freed
  else if (s.node d).kind ≠ .dir then .ok (-ENOTDIR, [])
  else s.fillDents (s.node d).children size start []

def ramfsRmdir (s : Vfs) (d : Nat) : Except FsStop (Int × Vfs) :=
  if d ∉ s.live then .error .freed
  else if (s.node d).children ≠ [] then .ok (-ENOTEMPTY, s)
  else do return (0, ← (s.listDel d).dentryPut d)

/-- Nothing of a freed block may be accessed. -/
def freeData (s : Vfs) (d : Nat) : Vfs :=
  s.setNode d { s.node d with data :=
    { (s.node d).data with data := (s.node d).data.data.map fun b => { b with size := 0 } } }

def ramfsUnlink (s : Vfs) (d : Nat) : Except FsStop (Int × Vfs) :=
  if d ∉ s.live then .error .freed
  else do return (0, ← ((s.listDel d).freeData d).dentryPut d)

end Vfs
end Landaux
