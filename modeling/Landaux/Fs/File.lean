import Landaux.Lib.Outcome
import Landaux.Mm.Vma

/-!
# Files of the ramfs

`ramfs_read`, `ramfs_write` and `ramfs_truncate` of `ramfs.c`, and what `vfs.c` does with a `file_t`.
Blocks of the heap have a size, so that a `memcpy` outside of one is seen.
-/

namespace Landaux

def EINVAL : Int := 22
def EEXIST : Int := 17

def O_RDONLY : BitVec 32 := 1
def O_WRONLY : BitVec 32 := 2
def O_RDWR : BitVec 32 := 3
def O_APPEND : BitVec 32 := 4
def O_CREAT : BitVec 32 := 8
def O_EXCL : BitVec 32 := 16
def O_TRUNC : BitVec 32 := 32

def SEEK_SET : Int := 0
def SEEK_CUR : Int := 1
def SEEK_END : Int := 2

def int32 (x : Nat) : Int := (BitVec.ofNat 32 x).toInt

def u32 (x : Int) : Nat := (x % 2 ^ 32).toNat

/-! ### Blocks -/

inductive Misuse where
  | null
  | overrun
  deriving DecidableEq

structure Block where
  size : Nat
  bytes : Nat → UInt8

/-- What `kmalloc` answers: no block, or one that still holds some bytes. -/
abbrev Granted := Option (Nat → UInt8)

def Block.read (b : Block) (offset n : Nat) : Except Misuse (List UInt8) :=
  if offset + n ≤ b.size then .ok ((List.range n).map fun k => b.bytes (offset + k))
  else .error .overrun

def Block.write (b : Block) (offset : Nat) (new : List UInt8) : Except Misuse Block :=
  if offset + new.length ≤ b.size then
    .ok { b with bytes := fun i => if offset ≤ i ∧ i < offset + new.length then new.getD (i - offset) 0
      else b.bytes i }
  else .error .overrun

/-! ### ramfs.c -/

/-- `size` of the dentry of a file, `alloc_size` and `data` of its `dpriv_t`. -/
structure FileData where
  size : Nat
  allocSize : Nat
  data : Option Block

def FileData.new : FileData := ⟨0, 0, none⟩

def roundChunk (x : Nat) : Nat := (x + 4095) % 2 ^ 32 / 4096 * 4096

def ramfsRead (offset size : Nat) (d : FileData) : Except Misuse (Int × List UInt8) :=
  if offset ≥ d.size then .ok (0, [])
  else
    let size := if (offset + size) % 2 ^ 32 > d.size then d.size - offset else size
    match d.data with
    | none => .error .null
    | some b => do return (int32 size, ← b.read offset size)

/-- The branch of `ramfs_write` that allocates; nothing is returned when `kmalloc` fails. -/
def ramfsGrow (answer : Granted) (stop : Nat) (d : FileData) : Except Misuse (Option FileData) :=
  match d.data with
  | none =>
    let allocSize := roundChunk stop
    .ok (answer.map fun bytes => { d with allocSize := allocSize, data := some ⟨allocSize, bytes⟩ })
  | some old =>
    let doubled := d.allocSize * 2 % 2 ^ 32
    let allocSize := if doubled < stop then roundChunk stop else doubled
    match answer with
    | none => .ok none
    | some bytes => do
      let p ← Block.write ⟨allocSize, bytes⟩ 0 (← old.read 0 d.size)
      return some { d with allocSize := allocSize, data := some p }

def ramfsWrite (answer : Granted) (offset : Nat) (buf : List UInt8) (d : FileData) :
    Except Misuse (Int × FileData) := do
  let stop := (offset + buf.length) % 2 ^ 32
  match ← if stop > d.allocSize then ramfsGrow answer stop d else .ok (some d) with
  | none => return (-ENOMEM, d)
  | some d =>
    match d.data with
    | none => .error .null
    | some b =>
      let b ← b.write offset buf
      return (int32 buf.length, { d with size := max d.size stop, data := some b })

def ramfsTruncate (offset : Nat) (d : FileData) : FileData :=
  ⟨offset, offset, if offset = 0 then none else d.data⟩

/-! ### vfs.c -/

structure File where
  dentry : Nat
  openmode : BitVec 32
  offset : Nat
  refcnt : Int
  deriving DecidableEq

/-- What a call returns, and the bytes it has put into the buffer. -/
structure Ret where
  value : Int
  bytes : List UInt8
  deriving DecidableEq

/-- The end of `vfs_dopen`, from the `kzalloc` of the `file_t` on. -/
def newFile (granted : Bool) (fd : Nat) (flags : BitVec 32) (d : FileData) : Except Int (File × FileData) :=
  if !granted then .error (-ENOMEM)
  else
    let f : File := ⟨fd, flags &&& O_RDWR, if flags &&& O_APPEND ≠ 0 then d.size else 0, 1⟩
    if flags &&& O_TRUNC ≠ 0 then .ok (f, ramfsTruncate f.offset d) else .ok (f, d)

/-- `vfs_dopen` of a name that is a file. -/
def openFile (granted : Bool) (fd : Nat) (flags : BitVec 32) (d : FileData) : Except Int (File × FileData) :=
  if flags &&& O_CREAT ≠ 0 ∧ flags &&& O_EXCL ≠ 0 then .error (-EEXIST) else newFile granted fd flags d

def vfsRead (size : Nat) (f : File) (d : FileData) : Except Misuse (Ret × File) :=
  if f.openmode &&& O_RDONLY = 0 then .ok (⟨-EINVAL, []⟩, f)
  else if size = 0 then .ok (⟨0, []⟩, f)
  else do
    let (count, bytes) ← ramfsRead f.offset size d
    return (⟨count, bytes⟩, if count > 0 then { f with offset := u32 (f.offset + count) } else f)

def vfsWrite (answer : Granted) (buf : List UInt8) (f : File) (d : FileData) :
    Except Misuse (Ret × File × FileData) :=
  if f.openmode &&& O_WRONLY = 0 then .ok (⟨-EINVAL, []⟩, f, d)
  else if buf.length = 0 then .ok (⟨0, []⟩, f, d)
  else do
    let (count, d) ← ramfsWrite answer f.offset buf d
    return (⟨count, []⟩, if count > 0 then { f with offset := u32 (f.offset + count) } else f, d)

def seekTarget (offset : Nat) (whence : Int) (f : File) (d : FileData) : Option Nat :=
  if whence = SEEK_END then some (u32 (u32 (offset + (d.size - f.offset)) + f.offset))
  else if whence = SEEK_CUR then some (u32 (offset + f.offset))
  else if whence = SEEK_SET then some offset
  else none

def vfsLseek (offset : Nat) (whence : Int) (f : File) (d : FileData) : Ret × File :=
  match seekTarget offset whence f d with
  | none => (⟨-EINVAL, []⟩, f)
  | some offset =>
    if offset > d.size then (⟨-EINVAL, []⟩, f) else (⟨int32 offset, []⟩, { f with offset := offset })

/-- The `file_t` after `vfs_close`, if it is still there. -/
def vfsClose (f : File) : Option File :=
  if f.refcnt - 1 = 0 then none else some { f with refcnt := f.refcnt - 1 }

/-! ### Calls on an open file -/

inductive Call where
  | read (size : Nat)
  | write (buf : List UInt8) (answer : Granted)
  | lseek (offset : Nat) (whence : Int)

def Call.act : Call → File → FileData → Except Misuse (Ret × File × FileData)
  | .read size, f, d => do
    let (ret, f) ← vfsRead size f d
    return (ret, f, d)
  | .write buf answer, f, d => vfsWrite answer buf f d
  | .lseek offset whence, f, d =>
    let (ret, f) := vfsLseek offset whence f d
    .ok (ret, f, d)

/-- Arguments with which `offset + size` stays below 2^31; `offset` of `vfs_lseek` is a `u32`. -/
def Call.Small (f : File) : Call → Prop
  | .read size => f.offset + size < 2 ^ 31
  | .write buf _ => f.offset + buf.length < 2 ^ 31
  | .lseek offset _ => offset < 2 ^ 32

instance (f : File) : DecidablePred (Call.Small f)
  | .read size => inferInstanceAs (Decidable (f.offset + size < 2 ^ 31))
  | .write buf _ => inferInstanceAs (Decidable (f.offset + buf.length < 2 ^ 31))
  | .lseek offset _ => inferInstanceAs (Decidable (offset < 2 ^ 32))

end Landaux
