import Landaux.Mm.Pmm
import Landaux.Mm.Pte
import Landaux.Mm.Vma
import Landaux.Lib.Outcome

/-!
# Address spaces

`mm.c`: the copy of an address space for a child, its release, and the page fault. All of physical
memory is mapped at `MEMORY_BASE`, so a page is known by its frame number, and its 512 words are
table entries or data as the code takes them.
-/

namespace Landaux
open Lib

/-- `page` is the frame of the `task_stack_t`, which is what a task is known by; the registers of its
user code are saved at the end of that page. -/
structure Task where
  pid : Nat
  page : Nat
  pageDir : Nat
  areas : List Area
  regs : Regs
  deriving DecidableEq

/-- What the processor keeps of a user translation. -/
structure Translation where
  frame : Nat
  write : Bool
  deriving DecidableEq

/-- `current` runs and `others` are the other processes. The idle task has no lower half of its own:
it runs on the directory of process 1. `heap` are the frames that the kernel's heap has taken since
`init_mm`. -/
structure State where
  pmm : Pmm.State
  ram : Memory Word
  current : Task
  others : List Task
  nextFreePid : Nat
  heap : List Nat
  tlb : Nat → Option Translation

namespace State

/-- `pages[frame].count`, for a frame of the array. -/
def count (s : State) (frame : Nat) : Option Int :=
  match s.pmm.pages with
  | some p => if frame < p.len then some (p.count frame) else none
  | none => none

def addCount (s : State) (frame : Nat) (amount : Int) : State :=
  { s with pmm := { s.pmm with
      pages := s.pmm.pages.map fun p => p.set frame (p.count frame + amount) } }

def setWord (s : State) (frame i : Nat) (e : Word) : State :=
  { s with ram := fun f j => if f = frame ∧ j = i then e else s.ram f j }

def copyPage (s : State) (target source : Nat) : State :=
  { s with ram := fun f => if f = target then s.ram source else s.ram f }

def zeroPage (s : State) (frame : Nat) : State :=
  { s with ram := fun f j => if f = frame then 0 else s.ram f j }

/-- `tlb_invalidate_entry` on an address of page `v`. -/
def invalidate (s : State) (v : Nat) : State :=
  { s with tlb := fun u => if u = v then none else s.tlb u }

end State

/-- `alloc_page`; frame 0 is its NULL. -/
def allocPage (s : State) : Except Stop (Nat × State) :=
  match Pmm.allocPhysPage s.pmm with
  | none => .error .count
  | some (frame, pmm) => .ok (frame, { s with pmm := pmm })

def freePage (frame : Nat) (s : State) : Except Stop State :=
  match Pmm.freePhysPage s.pmm frame with
  | none => .error .count
  | some pmm => .ok { s with pmm := pmm }

/-! ### `clone_mm` -/

/-- Both entries of a leaf lose `PTE_WRITE`, for COW. -/
def State.denyWrite (s : State) (newL1 oldL1 l : Nat) : State :=
  let s := s.setWord newL1 l (Pte.denyWrite (s.ram newL1 l))
  s.setWord oldL1 l (Pte.denyWrite (s.ram oldL1 l))

/-- The body of the innermost loop, for the entry `l` that maps page `p * 512 + l`. -/
def cloneLeaf (oldL1 newL1 p l : Nat) (s : State) : Except Stop State :=
  if !Pte.present (s.ram newL1 l) then .ok s
  else
    let s := s.denyWrite newL1 oldL1 l
    let frame := Pte.frame (s.ram newL1 l)
    match s.count frame with
    | none => .error .count
    | some c =>
      if c ≤ 0 then .error .count
      else .ok ((s.addCount frame 1).invalidate (p * 512 + l))

/-- The body of the outer loops: the table that entry `i` names is copied and `child` walks the copy.
The entry is read from the table `source`, which is the old one or its copy. -/
def cloneEntry (child : Nat → Nat → Nat → State → Except Stop State) (source new p i : Nat)
    (s : State) : Except Stop State :=
  if !Pte.present (s.ram source i) then .ok s
  else do
    let old := Pte.frame (s.ram source i)
    let (table, s) ← allocPage s
    if table = 0 then throw .noMemory
    let s := s.setWord new i (Pte.setFrame (s.ram new i) table)
    let s := s.copyPage table old
    child old table (p * 512 + i) s

def cloneL1 (old new p : Nat) : State → Except Stop State := turns (cloneLeaf old new p) 512
def cloneL2 (_ new p : Nat) : State → Except Stop State := turns (cloneEntry cloneL1 new new p) 512
def cloneL3 (_ new p : Nat) : State → Except Stop State := turns (cloneEntry cloneL2 new new p) 512

/-- `clone_mm`: the directory and the areas of the copy, none when there is no page for the
directory. -/
def cloneMm (s : State) : Except Stop (Option (Nat × List Area) × State) := do
  let old := s.current.pageDir
  let (new, s) ← allocPage s
  if new = 0 then return (none, s)
  let s := s.copyPage new old
  let s ← turns (cloneEntry cloneL3 old new 0) 256 s
  return (some (new, s.current.areas), s)

/-! ### `free_mm` -/

def freeLeaf (l1 l : Nat) (s : State) : Except Stop State :=
  if !Pte.present (s.ram l1 l) then .ok s
  else
    let frame := Pte.frame (s.ram l1 l)
    match s.count frame with
    | none => .error .count
    | some c =>
      if c ≤ 0 then .error .count
      else if c = 1 then freePage frame s
      else .ok (s.addCount frame (-1))

def freeEntry (child : Nat → State → Except Stop State) (table i : Nat) (s : State) :
    Except Stop State :=
  if !Pte.present (s.ram table i) then .ok s
  else do
    let below := Pte.frame (s.ram table i)
    let s ← child below s
    freePage below s

def freeL1 (table : Nat) : State → Except Stop State := turns (freeLeaf table) 512
def freeL2 (table : Nat) : State → Except Stop State := turns (freeEntry freeL1 table) 512
def freeL3 (table : Nat) : State → Except Stop State := turns (freeEntry freeL2 table) 512

def freeMm (s : State) : Except Stop State := do
  let s ← turns (freeEntry freeL3 s.current.pageDir) 256 s
  return { s with current := { s.current with areas := [] } }

/-! ### `do_page_fault` -/

/-- `find_user_pte`, from a table of level `n` down: the table of level 1 in the source's counting,
in which the entry of page `v` is `v % 512`. -/
def findUserPte (v : Nat) : Nat → Nat → State → Except Stop (Nat × State)
  | 0, table, s => .ok (table, s)
  | n + 1, table, s =>
    let i := v / 512 ^ (n + 1) % 512
    if Pte.present (s.ram table i) then findUserPte v n (Pte.frame (s.ram table i)) s
    else do
      let (new, s) ← allocPage s
      if new = 0 then throw .noMemory
      let s := s.zeroPage new
      let s := s.setWord table i
        (Pte.setFlags (Pte.setFrame 0 new) (PTE_PRESENT ||| PTE_WRITE ||| PTE_USER))
      findUserPte v n new s

/-- The bits of the error code that decide. -/
structure FaultCode where
  present : Bool
  write : Bool
  usermode : Bool
  rsvd : Bool

/-- `vfs_lseek` and `vfs_read` on the file of an area: `read` gives the value returned and what the
buffer holds afterwards. -/
structure FileOps where
  lseek : FileId → Nat → Int
  read : FileId → Nat → Nat → Int × (Nat → UInt8)

/-- Word `i` of a page with the given bytes. -/
def wordOfBytes (bytes : Nat → UInt8) (i : Nat) : Word :=
  (List.range 8).foldr (fun k e => e <<< 8 ||| (bytes (8 * i + k)).toBitVec.setWidth 64) 0

def State.fillPage (s : State) (frame : Nat) (bytes : Nat → UInt8) : State :=
  { s with ram := fun f j => if f = frame then wordOfBytes bytes j else s.ram f j }

/-- Where `memcpy(newpage, ...)` goes, and the frame number made from `newpage`. NULL is the user's
page 0, if that is mapped. -/
def State.pageAt (s : State) (page : Nat) : Option (Nat × Nat) :=
  if page ≠ 0 then some (page, page)
  else (pageTables.walk s.ram 0 3 s.current.pageDir).map fun e =>
    (Pte.frame e, (2 ^ 64 - MEMORY_BASE) / PAGE_SIZE)

/-- The branch for a write to a present page. `false` is the label `bad`. -/
def cowFault (address : Nat) (s : State) : Except Stop (Bool × State) :=
  let v := address / PAGE_SIZE
  match mmFindArea s.current.areas address with
  | none => .ok (false, s)
  | some area =>
    if !area.allows PROT_WRITE then .ok (false, s)
    else do
      let (table, s) ← findUserPte v 3 s.current.pageDir s
      let frame := Pte.frame (s.ram table (v % 512))
      match s.count frame with
      | none => throw .count
      | some c =>
        if c < 1 then throw .count
        else if c = 1 then
          let s := s.setWord table (v % 512) (Pte.allowWrite (s.ram table (v % 512)))
          return (true, s.invalidate v)
        else
          let (page, s) ← allocPage s
          match s.pageAt page with
          | none => throw .null
          | some (target, number) =>
            let s := s.copyPage target frame
            let s := s.setWord table (v % 512)
              (Pte.allowWrite (Pte.setFrame (s.ram table (v % 512)) number))
            let s := s.addCount frame (-1)
            return (true, s.invalidate v)

/-- The file part of a page of `area`: the value that decides whether the fault goes on, and the
bytes of the page. -/
def readPage (io : FileOps) (area : Area) (file : FileId) (address : Nat) :
    Bool × (Nat → UInt8) :=
  let offset := (area.offset + (roundPageDown address - area.start)) % 2 ^ 32
  let len := min PAGE_SIZE (area.end - roundPageDown address)
  if io.lseek file offset < 0 then (false, fun _ => 0)
  else
    let (ret, bytes) := io.read file offset len
    (ret == len, fun k => if k < len then bytes k else 0)

/-- What a new page of `area` is filled with. -/
def pageContents (io : FileOps) (area : Area) (address : Nat) : Bool × (Nat → UInt8) :=
  match area.file with
  | some file => readPage io area file address
  | none => (true, fun _ => 0)

/-- The branch for a page that is not present. -/
def demandFault (io : FileOps) (address : Nat) (write : Bool) (s : State) :
    Except Stop (Bool × State) :=
  let v := address / PAGE_SIZE
  match mmFindArea s.current.areas address with
  | none => .ok (false, s)
  | some area =>
    if (!write && area.allows (PROT_READ ||| PROT_EXEC)) || (write && area.allows PROT_WRITE) then do
      let flags := PTE_PRESENT ||| PTE_USER |||
        (if area.allows PROT_WRITE then PTE_WRITE else 0)
      let (table, s) ← findUserPte v 3 s.current.pageDir s
      let (frame, s) ← allocPage s
      if frame = 0 then return (false, s)
      let (ok, bytes) := pageContents io area address
      let s := s.fillPage frame bytes
      if !ok then return (false, s)
      let s := s.setWord table (v % 512)
        (Pte.setFlags (Pte.setFrame (s.ram table (v % 512)) frame) flags)
      return (true, s.invalidate v)
    else .ok (false, s)

/-- `do_page_fault`: true when it returns, false when it ends at `bad`. -/
def doPageFault (io : FileOps) (code : FaultCode) (address : Nat) (s : State) :
    Except Stop (Bool × State) :=
  if code.rsvd then .ok (false, s)
  else if code.present && code.write && code.usermode then cowFault address s
  else if !code.present && code.usermode then demandFault io address code.write s
  else .ok (false, s)

end Landaux
