import Landaux.Kernel.ExecElf
import Landaux.Mm.AddressSpace

/-!
# Processes and their address spaces

The system calls of `process.c` that make, replace and end an address space, and the switch between
two of them, at the granularity of one call or one fault.
-/

namespace Landaux
open Lib

/-- `sys_fork`; a NULL page for the task is written to. -/
def sysFork (s : State) : Except Stop (Int × State) := do
  let (page, s) ← allocPage s
  if page = 0 then throw .null
  let pid := s.nextFreePid
  let s := { s with nextFreePid := pid + 1 }
  if 2 ^ 31 ≤ pid then throw .pid
  match ← cloneMm s with
  | (none, s) =>
    -- the structure copied from the parent is in the lists already, and stays there
    let s ← freePage page s
    return (-ENOMEM, { s with others := { s.current with pid := pid, page := page } :: s.others })
  | (some (dir, areas), s) =>
    -- the son returns 0
    let regs := { s.current.regs with rax := 0 }
    return (pid, { s with others := ⟨pid, page, dir, areas, regs⟩ :: s.others })

def State.zeroLower (s : State) (dir : Nat) : State :=
  { s with ram := fun f i => if f = dir ∧ i < 256 then 0 else s.ram f i }

def sysExec (src : ElfSource) (s : State) : Except Stop (Int × State) := do
  let s ← freeMm s
  let s := s.zeroLower s.current.pageDir
  let (ret, loading) ← doExecElf src s.current.areas s.current.regs
  return (ret, { s with
    current := { s.current with areas := loading.areas, regs := loading.regs } })

/-- `context_switch` to another process: `cr3` is loaded, which drops what the processor kept. -/
def State.switchTo (s : State) (next : Task) : State :=
  { s with
    current := next
    others := s.current :: s.others.erase next
    tlb := fun _ => none }

/-- `free_task`, once another process runs. -/
def freeTask (p : Task) (s : State) : Except Stop State := do
  let s ← freePage p.pageDir s
  freePage p.page { s with others := s.others.erase p }

/-- `sys_exit`, with `next` the process that `schedule` picks. -/
def sysExit (next : Task) (s : State) : Except Stop State := do
  if s.current.pid = 1 then throw .pid
  let s ← freeMm s
  freeTask s.current (s.switchTo next)

/-! ### Steps -/

inductive Event where
  /-- a page fault of user code -/
  | fault (io : FileOps) (code : FaultCode) (address : Nat)
  /-- a user access to page `v` that the processor keeps the translation of -/
  | touch (v : Nat)
  /-- a user store to word `i` of page `v` -/
  | store (v i : Nat) (w : Word)
  /-- a store of the kernel to the buffer of a caller: write protection does not hold for it -/
  | copyOut (v i : Nat) (w : Word)
  | fork
  | exec (src : ElfSource)
  /-- `sys_exec` with a reschedule on its way back -/
  | execSwitch (src : ElfSource) (next : Task)
  | exit (next : Task)
  | switch (next : Task)
  /-- the idle task runs, and then the same process again -/
  | idle
  /-- the heap grows by a frame; `contents` is what the heap holds from then on -/
  | grow (contents : Memory Word)

/-- The entry of page `v` in the tables of the running process. -/
def State.entry (s : State) (v : Nat) : Option Word := pageTables.walk s.ram v 3 s.current.pageDir

/-- The page at an address is present and its frame has other uses. -/
def State.Shared (s : State) (address : Nat) : Prop :=
  ∃ e, s.entry (address / PAGE_SIZE) = some e ∧ s.count (Pte.frame e) ≠ some 1

/-- When an event can happen. A fault is raised by a walk of the tables, its page for a copy is
there, and a store goes through without one. -/
def Enabled (s : State) : Event → Prop
  | .fault _ code address => Canonical address ∧ code.usermode = true ∧
      (address < 2 ^ 47 → code.present = (s.entry (address / PAGE_SIZE)).isSome) ∧
      (code.write = true → s.Shared address → ∀ t, allocPage s ≠ .ok (0, t))
  | .touch v => v < 2 ^ 35 ∧ (s.entry v).isSome = true
  | .store v _ _ => v < 2 ^ 35 ∧ ∃ e, s.entry v = some e ∧ Pte.writable e = true
  | .copyOut v _ _ => v < 2 ^ 35 ∧ (s.entry v).isSome = true
  | .exit next | .switch next | .execSwitch _ next => next ∈ s.others
  | .fork | .exec _ | .idle | .grow _ => True

/-- The translation kept for an access to page `v`, unless there is one. -/
def State.fillTlb (s : State) (v : Nat) : State :=
  match s.tlb v, s.entry v with
  | none, some e =>
    { s with tlb := fun u => if u = v then some ⟨Pte.frame e, Pte.writable e⟩ else s.tlb u }
  | _, _ => s

def State.write (s : State) (v i : Nat) (w : Word) : State :=
  match s.entry v with
  | some e => s.setWord (Pte.frame e) i w
  | none => s

def State.fillHeap (s : State) (frame : Nat) (contents : Memory Word) : State :=
  { s with
    heap := frame :: s.heap
    ram := fun f => if f ∈ frame :: s.heap then contents f else s.ram f }

/-- The state after an event, and whether its allocations and file reads succeeded. -/
def act : Event → State → Except Stop (Bool × State)
  | .fault io code address, s => doPageFault io code address s
  | .touch v, s => .ok (true, s.fillTlb v)
  | .store v i w, s => .ok (true, s.write v i w)
  | .copyOut v i w, s => .ok (true, s.write v i w)
  | .fork, s => do
    let (ret, s) ← sysFork s
    return (decide (0 ≤ ret), s)
  | .exec src, s => do
    let (_, s) ← sysExec src s
    return (true, s)
  | .execSwitch src next, s => do
    let (_, s) ← sysExec src s
    return (true, s.switchTo next)
  | .exit next, s => do
    let s ← sysExit next s
    return (true, s)
  | .switch next, s => .ok (true, s.switchTo next)
  | .idle, s => .ok (true, { s with tlb := fun _ => none })
  | .grow contents, s => do
    let (frame, s) ← allocPage s
    return (frame != 0, s.fillHeap frame contents)

def Step (s : State) (e : Event) (t : State) : Prop := Enabled s e ∧ act e s = .ok (true, t)

end Landaux
