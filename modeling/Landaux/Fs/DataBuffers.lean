import Landaux.Fs.File
import Landaux.Fs.Dentry
import Landaux.Lib.Machine

/-!
# The data buffer of a file

One file of a ramfs and the heap blocks that `priv->data` has pointed to. `ramfs_unlink` frees the block that is
there, whoever has the file open, and `dentry_put` never does.
-/

namespace Landaux
open Lib

inductive BufferStop where
  /-- a block, a dentry or a `file_t` is used after `kfree`, or passed to it again -/
  | freed
  /-- a copy at an address that is in no block -/
  | outside
  /-- a reference count reaches 2^31 -/
  | overflow
  deriving DecidableEq

/-- The dentry of a file with its `dpriv_t`, the blocks that were allocated for its data and are not freed, and
the `file_t`s that refer to it. -/
structure RamfsFile where
  refcnt : Int
  /-- in the list of children of the directory -/
  linked : Bool
  /-- the dentry is not freed -/
  live : Bool
  size : Nat
  allocSize : Nat
  data : Option Nat
  buffers : Finset Nat
  block : Nat → Block
  opened : Finset Nat
  file : Nat → File

abbrev NewBuffer := Option (Nat × (Nat → UInt8))

namespace RamfsFile

def made : RamfsFile :=
  ⟨1, true, true, 0, 0, none, ∅, fun _ => ⟨0, fun _ => 0⟩, ∅, fun _ => ⟨0, 0, 0, 0⟩⟩

/-! ### vfs.c -/

def dentryGet (s : RamfsFile) : Except BufferStop RamfsFile :=
  if s.live = false then .error .freed
  else if s.refcnt + 1 ≥ 2 ^ 31 then .error .overflow
  else .ok { s with refcnt := s.refcnt + 1 }

def dentryPut (s : RamfsFile) : Except BufferStop RamfsFile :=
  if s.live = false then .error .freed
  else .ok { s with refcnt := s.refcnt - 1, live := decide (s.refcnt - 1 ≠ 0) }

/-! ### ramfs.c -/

def kfreeData (s : RamfsFile) : Except BufferStop RamfsFile :=
  match s.data with
  | none => .ok s
  | some p => if p ∈ s.buffers then .ok { s with buffers := s.buffers.erase p } else .error .freed

def buffer (s : RamfsFile) : Except BufferStop Block :=
  match s.data with
  | none => .error .outside
  | some p => if p ∈ s.buffers then .ok (s.block p) else .error .freed

def inBlock {α : Type} (r : Except Misuse α) : Except BufferStop α := r.mapError fun _ => .outside

def setData (s : RamfsFile) (p : Nat) (b : Block) : RamfsFile :=
  { s with data := some p, buffers := insert p s.buffers, block := fun q => if q = p then b else s.block q }

def ramfsRead (s : RamfsFile) (offset size : Nat) : Except BufferStop (Int × List UInt8) :=
  if offset ≥ s.size then .ok (0, [])
  else do
    let size := if (offset + size) % 2 ^ 32 > s.size then s.size - offset else size
    let b ← s.buffer
    let bytes ← inBlock (b.read offset size)
    return (int32 size, bytes)

/-- The branch of `ramfs_write` that allocates; nothing is returned when `kmalloc` fails. -/
def ramfsGrow (s : RamfsFile) (answer : NewBuffer) (stop : Nat) : Except BufferStop (Option RamfsFile) :=
  match s.data with
  | none =>
    let allocSize := roundChunk stop
    match answer with
    | none => .ok none
    | some (p, bytes) => .ok (some { s.setData p ⟨allocSize, bytes⟩ with allocSize := allocSize })
  | some _ =>
    let doubled := s.allocSize * 2 % 2 ^ 32
    let allocSize := if doubled < stop then roundChunk stop else doubled
    match answer with
    | none => .ok none
    | some (p, bytes) => do
      let old ← s.buffer
      let copied ← inBlock (old.read 0 s.size)
      let b ← inBlock (Block.write ⟨allocSize, bytes⟩ 0 copied)
      let s ← s.kfreeData
      return some { s.setData p b with allocSize := allocSize }

/-- The end of `ramfs_write`, when there is room. -/
def ramfsCopy (s : RamfsFile) (offset : Nat) (buf : List UInt8) : Except BufferStop (Int × RamfsFile) := do
  let b ← inBlock ((← s.buffer).write offset buf)
  return (int32 buf.length, { s with
    size := max s.size ((offset + buf.length) % 2 ^ 32)
    block := fun q => if some q = s.data then b else s.block q })

def ramfsWrite (s : RamfsFile) (answer : NewBuffer) (offset : Nat) (buf : List UInt8) :
    Except BufferStop (Int × RamfsFile) :=
  let stop := (offset + buf.length) % 2 ^ 32
  if stop > s.allocSize then do
    match ← s.ramfsGrow answer stop with
    | none => return (-ENOMEM, s)
    | some s => s.ramfsCopy offset buf
  else s.ramfsCopy offset buf

def ramfsTruncate (s : RamfsFile) (offset : Nat) : Except BufferStop RamfsFile :=
  let s := { s with size := offset, allocSize := offset }
  if offset = 0 then do return { ← s.kfreeData with data := none } else .ok s

/-- `priv->data` still points to the block after it was freed. -/
def ramfsUnlink (s : RamfsFile) : Except BufferStop RamfsFile := do
  let s ← { s with linked := false }.kfreeData
  s.dentryPut

/-- `f->offset += count` after a read or a write. -/
def advance (s : RamfsFile) (p : Nat) (count : Int) : RamfsFile :=
  if count > 0 then
    { s with file := fun q => if q = p then { s.file p with offset := u32 ((s.file p).offset + count) } else s.file q }
  else s

end RamfsFile

/-! ### Calls -/

/-- The calls on the path of the file, and on a `file_t` at an address. -/
inductive BufferCall where
  /-- `p` is where the `kzalloc` in `vfs_dopen` finds room, if it does -/
  | opens (p : Nat) (flags : BitVec 32) (granted : Bool)
  | closes (p : Nat)
  | read (p size : Nat)
  | write (p : Nat) (buf : List UInt8) (answer : NewBuffer)
  | unlink

namespace BufferCall
open RamfsFile

/-- The path leads to the file while it is linked, a `file_t` is used while it is there, and new memory is not in
use. -/
def Enabled (s : RamfsFile) : BufferCall → Prop
  | .opens p _ _ => s.linked = true ∧ p ∉ s.opened
  | .closes p | .read p _ => p ∈ s.opened
  | .write p _ answer => p ∈ s.opened ∧ ∀ q bytes, answer = some (q, bytes) → q ∉ s.buffers
  | .unlink => s.linked = true

/-- What the call returns, and the file afterwards. -/
def act (s : RamfsFile) : BufferCall → Except BufferStop (Int × RamfsFile)
  | .opens p flags granted => do
    let s ← s.dentryGet
    if flags &&& O_CREAT ≠ 0 ∧ flags &&& O_EXCL ≠ 0 then return (-EEXIST, ← s.dentryPut)
    else if granted = false then return (-ENOMEM, ← s.dentryPut)
    else
      let f : File := ⟨0, flags &&& O_RDWR, if flags &&& O_APPEND ≠ 0 then s.size else 0, 1⟩
      let s := { s with opened := insert p s.opened, file := fun q => if q = p then f else s.file q }
      if flags &&& O_TRUNC ≠ 0 then return (p, ← s.ramfsTruncate f.offset) else return (p, s)
  | .closes p =>
    let f := s.file p
    if f.refcnt - 1 = 0 then do
      let s ← s.dentryPut
      return (0, { s with opened := s.opened.erase p })
    else .ok (0, { s with file := fun q => if q = p then { f with refcnt := f.refcnt - 1 } else s.file q })
  | .read p size =>
    let f := s.file p
    if f.openmode &&& O_RDONLY = 0 then .ok (-EINVAL, s)
    else if s.live = false then .error .freed
    else if size = 0 then .ok (0, s)
    else do
      let (count, _) ← s.ramfsRead f.offset size
      return (count, s.advance p count)
  | .write p buf answer =>
    let f := s.file p
    if f.openmode &&& O_WRONLY = 0 then .ok (-EINVAL, s)
    else if s.live = false then .error .freed
    else if buf.length = 0 then .ok (0, s)
    else do
      let (count, s) ← s.ramfsWrite answer f.offset buf
      return (count, s.advance p count)
  | .unlink => do
    let s ← s.dentryGet
    let s ← s.ramfsUnlink
    return (0, ← s.dentryPut)

end BufferCall

/-! ### What is kept -/

/-- A file that is open has its buffer, a file that is gone has left none, and no call uses what is freed. -/
structure RamfsFile.Kept (s : RamfsFile) : Prop where
  held : s.opened.Nonempty → s.live = true ∧ ∀ p, s.data = some p → p ∈ s.buffers
  gone : s.live = false → s.buffers = ∅
  safe : ∀ c : BufferCall, c.Enabled s → c.act s ≠ .error .freed

/-- The file is not unlinked while it is open and has a buffer, and the last `file_t` of an unlinked file is closed
when it has none. -/
def BufferCall.Spares (s : RamfsFile) : BufferCall → Prop
  | .unlink => s.opened = ∅ ∨ s.data = none
  | .closes p => s.linked = false → s.opened = {p} → s.data = none
  | _ => True

def BufferStep (s : RamfsFile) (e : BufferCall × Int) (t : RamfsFile) : Prop :=
  e.1.Enabled s ∧ e.1.act s = .ok (e.2, t)

/-! ### The invariant -/

/-- The block of `priv->data` is the one block that is allocated for the file. -/
def RamfsFile.Owned (s : RamfsFile) : Prop := s.buffers = s.data.toFinset

/-- The dentry is counted once in its directory and once by each `file_t`. -/
structure RamfsFile.Counted (s : RamfsFile) : Prop where
  live : s.live = true ↔ s.linked = true ∨ s.opened.Nonempty
  refcnt : s.refcnt = (if s.linked then 1 else 0) + s.opened.card
  files : ∀ p ∈ s.opened, (s.file p).refcnt = 1
  owned : s.live = true → s.Owned
  gone : s.live = false → s.buffers = ∅

/-- A change of the data, and of the offsets of the `file_t`s. -/
structure RamfsFile.Rewritten (s t : RamfsFile) : Prop where
  refcnt : t.refcnt = s.refcnt
  linked : t.linked = s.linked
  live : t.live = s.live
  opened : t.opened = s.opened
  files : ∀ p, (t.file p).refcnt = (s.file p).refcnt
  owned : t.Owned

namespace RamfsFile
open Except

variable {s t u : RamfsFile}

theorem made_counted : made.Counted where
  live := by simp [made]
  refcnt := by simp [made]
  files := by simp [made]
  owned := fun _ => rfl
  gone := by simp [made]

namespace Rewritten

theorem refl (owned : s.Owned) : Rewritten s s := ⟨rfl, rfl, rfl, rfl, fun _ => rfl, owned⟩

theorem trans (first : Rewritten s t) (second : Rewritten t u) : Rewritten s u where
  refcnt := second.refcnt.trans first.refcnt
  linked := second.linked.trans first.linked
  live := second.live.trans first.live
  opened := second.opened.trans first.opened
  files p := (second.files p).trans (first.files p)
  owned := second.owned

theorem counted (change : Rewritten s t) (live : s.live = true) (counted : s.Counted) : t.Counted where
  live := by
    rw [change.live, change.linked, change.opened]
    exact counted.live
  refcnt := by
    rw [change.refcnt, change.linked, change.opened]
    exact counted.refcnt
  files p inside := by
    rw [change.files]
    exact counted.files p (change.opened ▸ inside)
  owned _ := change.owned
  gone dead := by
    rw [change.live, live] at dead
    cases dead

end Rewritten

/-! ### ramfs.c keeps the block -/

theorem inBlock_ends {α : Type} (r : Except Misuse α) : Ends (inBlock r) (fun _ => True) (· ≠ .freed) := by
  cases r with
  | ok => exact Ends.ok trivial
  | error => exact Ends.error (by simp)

theorem kfreeData_owned (owned : s.Owned) : s.kfreeData = .ok { s with buffers := ∅ } := by
  unfold Owned at owned
  unfold kfreeData
  cases data : s.data with
  | none =>
    have empty : s.buffers = ∅ := by rw [owned, data]; rfl
    simp only [← empty, ← data]
  | some p =>
    have one : s.buffers = {p} := by rw [owned, data]; rfl
    simp [one]

theorem buffer_ends (owned : s.Owned) : Ends s.buffer (fun _ => True) (· ≠ .freed) := by
  unfold buffer
  cases data : s.data with
  | none => exact Ends.error (by decide)
  | some p =>
    have there : p ∈ s.buffers := by simp [show s.buffers = _ from owned, data]
    simp only [if_pos there]
    exact Ends.ok trivial

theorem setData_rewritten {p allocSize : Nat} {b : Block} (free : t = { s with buffers := ∅ }) :
    Rewritten s { t.setData p b with allocSize := allocSize } := by
  subst free
  exact ⟨rfl, rfl, rfl, rfl, fun _ => rfl, by simp [Owned, setData]⟩

theorem ramfsRead_ends (owned : s.Owned) {offset size : Nat} :
    Ends (s.ramfsRead offset size) (fun _ => True) (· ≠ .freed) := by
  unfold ramfsRead
  split
  · exact Ends.ok trivial
  · refine (buffer_ends owned).bind fun b _ => ?_
    exact (inBlock_ends _).bind fun bytes _ => Ends.ok trivial

theorem ramfsGrow_ends (owned : s.Owned) {answer : NewBuffer} {stop : Nat} :
    Ends (s.ramfsGrow answer stop) (fun r => ∀ t, r = some t → s.Rewritten t) (· ≠ .freed) := by
  unfold ramfsGrow
  cases data : s.data with
  | none =>
    have empty : s.buffers = ∅ := by rw [show s.buffers = _ from owned, data]; rfl
    cases answer with
    | none => exact Ends.ok fun t eq => by cases eq
    | some new =>
      refine Ends.ok fun t eq => ?_
      obtain rfl := Option.some.inj eq
      exact setData_rewritten (by rw [← empty])
  | some old =>
    cases answer with
    | none => exact Ends.ok fun t eq => by cases eq
    | some new =>
      refine (buffer_ends owned).bind fun b _ => ?_
      refine (inBlock_ends _).bind fun copied _ => ?_
      refine (inBlock_ends _).bind fun p _ => ?_
      rw [kfreeData_owned owned]
      refine Ends.ok fun t eq => ?_
      obtain rfl := Option.some.inj eq
      exact setData_rewritten rfl

theorem ramfsCopy_ends (owned : s.Owned) {offset : Nat} {buf : List UInt8} :
    Ends (s.ramfsCopy offset buf) (fun r => s.Rewritten r.2) (· ≠ .freed) := by
  unfold ramfsCopy
  refine (buffer_ends owned).bind fun b _ => ?_
  refine (inBlock_ends _).bind fun b _ => ?_
  exact Ends.ok ⟨rfl, rfl, rfl, rfl, fun _ => rfl, owned⟩

theorem ramfsWrite_ends (owned : s.Owned) {answer : NewBuffer} {offset : Nat} {buf : List UInt8} :
    Ends (s.ramfsWrite answer offset buf) (fun r => s.Rewritten r.2) (· ≠ .freed) := by
  unfold ramfsWrite
  dsimp only
  split
  · refine (ramfsGrow_ends owned).bind fun grown change => ?_
    cases grown with
    | none => exact Ends.ok (Rewritten.refl owned)
    | some t =>
      have change := change t rfl
      exact (ramfsCopy_ends change.owned).mono (fun r copied => change.trans copied) fun _ => id
  · exact ramfsCopy_ends owned

theorem ramfsTruncate_ends (owned : s.Owned) {offset : Nat} :
    Ends (s.ramfsTruncate offset) s.Rewritten (· ≠ .freed) := by
  unfold ramfsTruncate
  have resized : Owned { s with size := offset, allocSize := offset } := owned
  dsimp only
  split
  · rw [kfreeData_owned resized]
    exact Ends.ok ⟨rfl, rfl, rfl, rfl, fun _ => rfl, rfl⟩
  · exact Ends.ok ⟨rfl, rfl, rfl, rfl, fun _ => rfl, resized⟩

/-! ### The bytes of the block

The functions do with the block what they do with the bytes alone. -/

def view (s : RamfsFile) : FileData := ⟨s.size, s.allocSize, s.data.map s.block⟩

theorem inBlock_bind {α β : Type} (r : Except Misuse α) (f : α → Except Misuse β) :
    inBlock (r >>= f) = inBlock r >>= fun a => inBlock (f a) := by
  cases r <;> rfl

/-- Two programs agree when their first steps and the rests do. -/
theorem map_bind {α β γ δ : Type} {r : Except BufferStop α} {r' : Except Misuse β} {f : α → β}
    {g : α → Except BufferStop γ} {g' : β → Except Misuse δ} {h : γ → δ} (first : r.map f = inBlock r')
    (rest : ∀ a, r = .ok a → (g a).map h = inBlock (g' (f a))) : (r >>= g).map h = inBlock (r' >>= g') := by
  cases r with
  | ok a =>
    cases r' with
    | ok b =>
      obtain rfl := Except.ok.inj first
      exact rest a rfl
    | error => cases first
  | error e =>
    cases r' with
    | ok b => cases first
    | error => exact congrArg Except.error (Except.error.inj first)

theorem buffer_data (owned : s.Owned) {p : Nat} (data : s.data = some p) : s.buffer = .ok (s.block p) := by
  unfold buffer
  have there : p ∈ s.buffers := by simp [show s.buffers = _ from owned, data]
  simp only [data, if_pos there]

theorem ramfsRead_view (owned : s.Owned) (offset size : Nat) :
    s.ramfsRead offset size = inBlock (Landaux.ramfsRead offset size s.view) := by
  unfold ramfsRead Landaux.ramfsRead
  cases data : s.data with
  | none => 
    simp only [view, data, buffer, Option.map_none]
    split <;> rfl
  | some p =>
    simp only [view, data, Option.map_some, buffer_data owned data, ok_bind]
    split
    · rfl
    · rw [inBlock_bind]
      rfl

theorem ramfsTruncate_view (owned : s.Owned) (offset : Nat) :
    (s.ramfsTruncate offset).map view = .ok (Landaux.ramfsTruncate offset s.view) := by
  have resized : Owned { s with size := offset, allocSize := offset } := owned
  unfold ramfsTruncate Landaux.ramfsTruncate
  dsimp only
  split
  · rw [kfreeData_owned resized]
    rfl
  · rfl

theorem ramfsGrow_view (owned : s.Owned) (answer : NewBuffer) (stop : Nat) :
    (s.ramfsGrow answer stop).map (Option.map view) =
      inBlock (Landaux.ramfsGrow (answer.map Prod.snd) stop s.view) := by
  unfold ramfsGrow Landaux.ramfsGrow
  cases data : s.data with
  | none =>
    cases answer with
    | none => simp [view, data, inBlock, Except.map, Except.mapError]
    | some new => simp [view, data, inBlock, setData, Except.map, Except.mapError]
  | some p =>
    cases answer with
    | none => simp [view, data, inBlock, Except.map, Except.mapError]
    | some new =>
      simp only [view, data, Option.map_some, buffer_data owned data, ok_bind, kfreeData_owned owned]
      refine map_bind (f := id) (congrFun Except.map_id _) fun copied _ => ?_
      refine map_bind (f := id) (congrFun Except.map_id _) fun b _ => ?_
      exact congrArg (fun b => Except.ok (some (FileData.mk _ _ (some b)))) (if_pos rfl)

theorem ramfsCopy_null (data : s.data = none) (offset : Nat) (buf : List UInt8) :
    s.ramfsCopy offset buf = .error .outside := by
  unfold ramfsCopy buffer
  rw [data]
  rfl

theorem ramfsCopy_view (owned : s.Owned) {p : Nat} (data : s.data = some p) (offset : Nat) (buf : List UInt8) :
    (s.ramfsCopy offset buf).map (Prod.map id view) = inBlock ((s.block p).write offset buf >>= fun b =>
      .ok (int32 buf.length, ⟨max s.size ((offset + buf.length) % 2 ^ 32), s.allocSize, some b⟩)) := by
  unfold ramfsCopy
  rw [buffer_data owned data, ok_bind]
  refine map_bind (f := id) (congrFun Except.map_id _) fun b _ => ?_
  have block : s.data.map (fun q => if some q = s.data then b else s.block q) = some b := by simp [data]
  exact congrArg (fun block => Except.ok (_, FileData.mk _ _ block)) block

theorem ramfsWrite_view (owned : s.Owned) (answer : NewBuffer) (offset : Nat) (buf : List UInt8) :
    (s.ramfsWrite answer offset buf).map (Prod.map id view) =
      inBlock (Landaux.ramfsWrite (answer.map Prod.snd) offset buf s.view) := by
  unfold ramfsWrite Landaux.ramfsWrite
  dsimp only
  by_cases more : (offset + buf.length) % 2 ^ 32 > s.allocSize
  · have more' : (offset + buf.length) % 2 ^ 32 > s.view.allocSize := more
    rw [if_pos more, if_pos more']
    refine map_bind (ramfsGrow_view owned answer _) fun grown eq => ?_
    cases grown with
    | none => rfl
    | some t =>
      have owned := ((ramfsGrow_ends owned).of_ok eq t rfl).owned
      simp only [Option.map_some]
      cases data : t.data with
      | none =>
        rw [ramfsCopy_null data]
        simp only [view, data, Option.map_none]
        rfl
      | some p =>
        rw [ramfsCopy_view owned data]
        simp only [view, data, Option.map_some]
        rfl
  · have more' : ¬ (offset + buf.length) % 2 ^ 32 > s.view.allocSize := more
    rw [if_neg more, if_neg more', ok_bind]
    cases data : s.data with
    | none =>
      rw [ramfsCopy_null data]
      simp only [view, data, Option.map_none]
      rfl
    | some p =>
      rw [ramfsCopy_view owned data]
      simp only [view, data, Option.map_some]
      rfl

theorem advance_rewritten (owned : s.Owned) {p : Nat} {count : Int} : s.Rewritten (s.advance p count) := by
  unfold advance
  split
  · refine ⟨rfl, rfl, rfl, rfl, fun q => ?_, owned⟩
    dsimp only
    split
    · rename_i same
      rw [same]
    · rfl
  · exact Rewritten.refl owned

theorem dentryGet_ends (live : s.live = true) :
    Ends s.dentryGet (fun t => t = { s with refcnt := s.refcnt + 1 }) (· ≠ .freed) := by
  unfold dentryGet
  rw [if_neg (by simp [live])]
  split
  · exact Ends.error (by decide)
  · exact Ends.ok rfl

def dropped (s : RamfsFile) : RamfsFile := { s with refcnt := s.refcnt - 1, live := decide (s.refcnt - 1 ≠ 0) }

@[simp] theorem dropped_opened : s.dropped.opened = s.opened := rfl

theorem dentryPut_live (live : s.live = true) : s.dentryPut = .ok s.dropped := by
  unfold dentryPut
  rw [if_neg (by simp [live])]
  rfl

theorem ramfsUnlink_live (live : s.live = true) (owned : s.Owned) :
    s.ramfsUnlink = .ok { s.dropped with linked := false, buffers := ∅ } := by
  have freed := kfreeData_owned (s := { s with linked := false }) owned
  unfold ramfsUnlink
  rw [freed, ok_bind]
  exact dentryPut_live live

namespace Counted

theorem linked_live (counted : s.Counted) (linked : s.linked = true) : s.live = true :=
  counted.live.mpr (.inl linked)

theorem opened_live (counted : s.Counted) {p : Nat} (inside : p ∈ s.opened) : s.live = true :=
  counted.live.mpr (.inr ⟨p, inside⟩)

/-- A dentry that is looked up and put again is as it was. -/
theorem put_again (counted : s.Counted) (live : s.live = true) :
    dentryPut { s with refcnt := s.refcnt + 1 } = .ok s := by
  have positive : 0 < s.refcnt := by
    rw [counted.refcnt]
    obtain linked | some_open := counted.live.mp live
    · rw [linked, if_pos rfl]
      omega
    · have := some_open.card_pos
      split <;> omega
  rw [dentryPut_live (s := { s with refcnt := s.refcnt + 1 }) live]
  have same : s.refcnt + 1 - 1 = s.refcnt := by omega
  have counts : decide (s.refcnt ≠ 0) = s.live := by
    rw [live]
    exact decide_eq_true (by omega)
  simp only [dropped, same, counts]

end Counted

end RamfsFile

namespace BufferCall
open RamfsFile

variable {s t : RamfsFile}

theorem read_ends (counted : s.Counted) {p size : Nat} (inside : p ∈ s.opened) :
    Ends (act s (.read p size)) (fun r => s.Rewritten r.2) (· ≠ .freed) := by
  have live := counted.opened_live inside
  have owned := counted.owned live
  unfold act
  dsimp only
  rw [if_neg (show ¬ s.live = false by simp [live])]
  split
  · exact Ends.ok (Rewritten.refl owned)
  · split
    · exact Ends.ok (Rewritten.refl owned)
    · exact (ramfsRead_ends owned).bind fun r _ => Ends.ok (advance_rewritten owned)

theorem write_ends (counted : s.Counted) {p : Nat} {buf : List UInt8} {answer : NewBuffer}
    (inside : p ∈ s.opened) :
    Ends (act s (.write p buf answer)) (fun r => s.Rewritten r.2) (· ≠ .freed) := by
  have live := counted.opened_live inside
  have owned := counted.owned live
  unfold act
  dsimp only
  rw [if_neg (show ¬ s.live = false by simp [live])]
  split
  · exact Ends.ok (Rewritten.refl owned)
  · split
    · exact Ends.ok (Rewritten.refl owned)
    · refine (ramfsWrite_ends owned).bind fun r change => ?_
      exact Ends.ok (change.trans (advance_rewritten change.owned))

theorem closes_act (counted : s.Counted) {p : Nat} (inside : p ∈ s.opened) :
    act s (.closes p) = .ok (0, { s.dropped with opened := s.opened.erase p }) := by
  have last : (s.file p).refcnt - 1 = 0 := by
    rw [counted.files p inside]
    rfl
  unfold act
  dsimp only
  rw [if_pos last, dentryPut_live (counted.opened_live inside)]
  rfl

theorem unlink_ends (counted : s.Counted) (linked : s.linked = true) :
    Ends (act s .unlink) (fun r => r.2 = { s.dropped with linked := false, buffers := ∅ }) (· ≠ .freed) := by
  have live := counted.linked_live linked
  have owned := counted.owned live
  unfold act
  refine (dentryGet_ends live).bind fun t got => ?_
  subst got
  rw [ramfsUnlink_live (s := { s with refcnt := s.refcnt + 1 }) live owned, ok_bind]
  have held : decide (s.refcnt + 1 - 1 ≠ 0) = true := by
    have positive := counted.refcnt
    rw [linked, if_pos rfl] at positive
    exact decide_eq_true (by omega)
  rw [dentryPut_live held]
  refine Ends.ok ?_
  have same : s.refcnt + 1 - 1 = s.refcnt := by omega
  simp only [dropped, same]

/-- A new `file_t` is counted with the reference that the lookup has taken. -/
theorem opened_counted (counted : s.Counted) {p : Nat} {f : File} (linked : s.linked = true)
    (new : p ∉ s.opened) (one : f.refcnt = 1) :
    Counted { s with
      refcnt := s.refcnt + 1
      opened := insert p s.opened
      file := fun q => if q = p then f else s.file q } where
  live := by simp [counted.linked_live linked]
  refcnt := by
    rw [counted.refcnt, Finset.card_insert_of_notMem new]
    push_cast
    ring
  files q inside := by
    obtain rfl | before := Finset.mem_insert.mp inside
    · simp [one]
    · have other : q ≠ p := fun same => new (same ▸ before)
      simp only [if_neg other]
      exact counted.files q before
  owned live := counted.owned live
  gone dead := counted.gone dead

theorem opens_ends (counted : s.Counted) {p : Nat} {flags : BitVec 32} {granted : Bool}
    (linked : s.linked = true) (new : p ∉ s.opened) :
    Ends (act s (.opens p flags granted)) (fun r => r.2.Counted) (· ≠ .freed) := by
  have live := counted.linked_live linked
  have owned := counted.owned live
  unfold act
  refine (dentryGet_ends live).bind fun t got => ?_
  subst got
  dsimp only
  split
  · rw [counted.put_again live]
    exact Ends.ok counted
  split
  · rw [counted.put_again live]
    exact Ends.ok counted
  have opened := fun size => opened_counted counted (f := ⟨0, flags &&& O_RDWR, size, 1⟩) linked new rfl
  split
  · refine (ramfsTruncate_ends ((opened _).owned live)).bind fun t change => ?_
    exact Ends.ok (change.counted live (opened _))
  · exact Ends.ok (opened _)

/-! ### The two calls that can lose the block -/

theorem closed_counted (counted : s.Counted) {p : Nat} (inside : p ∈ s.opened) (spares : Spares s (.closes p)) :
    Counted { s.dropped with opened := s.opened.erase p } := by
  have owned := counted.owned (counted.opened_live inside)
  have count : s.refcnt - 1 = (if s.linked then 1 else 0) + (s.opened.erase p).card := by
    rw [counted.refcnt, ← Finset.card_erase_add_one inside]
    push_cast
    ring
  have alive : s.refcnt - 1 ≠ 0 ↔ s.linked = true ∨ (s.opened.erase p).Nonempty := by
    rw [count]
    cases s.linked with
    | false => simp [Finset.nonempty_iff_ne_empty, Finset.ext_iff]
    | true =>
      simp
      omega
  refine ⟨?_, ?_, ?_, fun _ => owned, ?_⟩
  · exact decide_eq_true_iff.trans alive
  · exact count
  · intro q others
    exact counted.files q (Finset.mem_of_mem_erase others)
  · intro dead
    obtain ⟨unlinked, none_open⟩ := not_or.mp (alive.not.mp (of_decide_eq_false dead))
    have last : s.opened = {p} := by
      rw [← Finset.insert_erase inside, Finset.not_nonempty_iff_eq_empty.mp none_open]
      rfl
    have no_data := spares (Bool.eq_false_of_not_eq_true unlinked) last
    change s.buffers = ∅
    rw [show s.buffers = _ from owned, no_data]
    rfl

theorem unlinked_counted (counted : s.Counted) (linked : s.linked = true) (spares : Spares s .unlink) :
    Counted { s.dropped with linked := false, buffers := ∅ } := by
  have count : s.refcnt - 1 = s.opened.card := by
    rw [counted.refcnt, linked, if_pos rfl]
    omega
  have alive : s.refcnt - 1 ≠ 0 ↔ s.opened.Nonempty := by
    rw [count, ← Finset.card_pos]
    omega
  refine ⟨?_, ?_, counted.files, ?_, fun _ => rfl⟩
  · exact (decide_eq_true_iff.trans alive).trans (by simp)
  · exact count.trans (by simp)
  · intro live
    have some_open := alive.mp (of_decide_eq_true live)
    have no_data : s.data = none := spares.resolve_left some_open.ne_empty
    change ∅ = s.data.toFinset
    rw [no_data]
    rfl

/-- One call, in a file that is counted. -/
theorem act_ends (counted : s.Counted) {c : BufferCall} (enabled : c.Enabled s) :
    Ends (c.act s) (fun r => c.Spares s → r.2.Counted) (· ≠ .freed) := by
  cases c with
  | opens p flags granted =>
    exact (opens_ends counted enabled.1 enabled.2).mono (fun r kept _ => kept) fun _ => id
  | closes p =>
    rw [closes_act counted enabled]
    exact Ends.ok (closed_counted counted enabled)
  | read p size =>
    exact (read_ends counted enabled).mono
      (fun r change _ => change.counted (counted.opened_live enabled) counted) fun _ => id
  | write p buf answer =>
    exact (write_ends counted enabled.1).mono
      (fun r change _ => change.counted (counted.opened_live enabled.1) counted) fun _ => id
  | unlink =>
    refine (unlink_ends counted enabled).mono (fun r eq spares => ?_) fun _ => id
    rw [eq]
    exact unlinked_counted counted enabled spares

/-- The call lost no block if the file is as it should be afterwards. -/
theorem kept_spares (counted : s.Counted) {c : BufferCall} {value : Int} (step : BufferStep s (c, value) t)
    (kept : t.Kept) : c.Spares s := by
  obtain ⟨enabled, acts⟩ := step
  cases c with
  | opens | read | write => exact trivial
  | closes p =>
    rw [closes_act counted enabled] at acts
    cases acts
    intro unlinked last
    have live := counted.opened_live enabled
    have dead : s.dropped.live = false := by
      have count := counted.refcnt
      rw [unlinked, last] at count
      exact decide_eq_false (by simp [count])
    have left : s.data.toFinset = ∅ := (counted.owned live).symm.trans (kept.gone dead)
    cases data : s.data with
    | none => rfl
    | some q =>
      rw [data] at left
      exact absurd left (Finset.singleton_ne_empty q)
  | unlink =>
    obtain rfl := (unlink_ends counted enabled).of_ok acts
    by_contra lost
    obtain ⟨some_open, has_data⟩ := not_or.mp lost
    obtain ⟨p, data⟩ := Option.ne_none_iff_exists'.mp has_data
    have inside := (kept.held (Finset.nonempty_iff_ne_empty.mpr some_open)).2 p data
    exact Finset.notMem_empty p inside

end BufferCall

theorem RamfsFile.Counted.kept {s : RamfsFile} (counted : s.Counted) : s.Kept where
  held some_open := by
    obtain ⟨q, inside⟩ := some_open
    have live := counted.opened_live inside
    refine ⟨live, fun p data => ?_⟩
    rw [show s.buffers = _ from counted.owned live, data]
    exact Finset.mem_singleton_self p
  gone := counted.gone
  safe c enabled stops := (BufferCall.act_ends counted enabled).of_error stops rfl

/-- The buffer of a file is there while the file is open, and none is left when it is gone, exactly in the runs in
which it is not unlinked while it is open and has one, and is closed for the last time after that without one. -/
theorem buffer_kept_iff_spared (events : List (BufferCall × Int)) :
    Throughout BufferStep (fun _ _ t => t.Kept) .made events ↔
      Throughout BufferStep (fun s e _ => e.1.Spares s) .made events := by
  refine Throughout.congr RamfsFile.Counted RamfsFile.made_counted ?_ ?_
  · intro s e t counted step
    refine ⟨BufferCall.kept_spares counted step, fun spares => ?_⟩
    exact ((BufferCall.act_ends counted step.1).of_ok step.2 spares).kept
  · intro s e t counted step kept
    exact (BufferCall.act_ends counted step.1).of_ok step.2 (BufferCall.kept_spares counted step kept)

/-- A file is opened, written and unlinked, and a `file_t` reads from the block that was freed. -/
theorem buffer_freed_while_open : ∃ t, Run BufferStep .made [(.opens 0 O_RDWR true, 0), (.opens 1 O_RDWR true, 1),
    (.write 1 [7] (some (0, fun _ => 0)), 1), (.unlink, 0)] t ∧ ¬ t.Kept ∧
    BufferCall.act t (.read 0 1) = .error .freed := by
  have run : Run BufferStep .made [(.opens 0 O_RDWR true, 0), (.opens 1 O_RDWR true, 1),
      (.write 1 [7] (some (0, fun _ => 0)), 1), (.unlink, 0)] _ :=
    .cons ⟨⟨rfl, by decide⟩, rfl⟩ (.cons ⟨⟨rfl, by decide⟩, rfl⟩
      (.cons ⟨⟨by decide, fun q bytes _ => Finset.notMem_empty q⟩, rfl⟩ (.single ⟨rfl, rfl⟩)))
  refine ⟨_, run, fun kept => ?_, rfl⟩
  exact kept.safe (.read 0 1) (Finset.mem_insert_of_mem (Finset.mem_insert_self 0 ∅)) rfl

end Landaux
