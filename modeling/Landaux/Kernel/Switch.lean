import Landaux.Lib.Machine
import Landaux.Kernel.SystemCall

/-!
# Switching between tasks

`context_switch` and `context_switch_tail`, and the stacks on which `sys_fork` and `kernel_thread` let a task begin.
A task that waits has its registers on its own stack and the stack pointer in its structure, 4096 bytes together.
`Waits` says how the task is to go on; the machine carries it along, and the code has only the memory.

The lists of the tasks, the page directories and the release of a task that has ended are not of this module.
-/

namespace Landaux.Entry
open Lib

/-- The addresses of label 1 of `context_switch`, of `ret_from_fork` and of `kernel_thread_start`. -/
structure Code where
  resumed : Quad
  retFromFork : Quad
  kernelThreadStart : Quad

def RSP : Nat := 88
def RIP : Nat := 96
def TASK_SIZE : Nat := 184

def Cpu.store (a : Nat) (w : Quad) (s : Cpu) : Cpu := { s with mem := Function.update s.mem a w }

def Cpu.ret (s : Cpu) : Cpu := { s with rip := s.mem s.rsp, rsp := s.rsp + 8 }

def Cpu.popf (s : Cpu) : Cpu := { s with rflags := s.mem s.rsp, rsp := s.rsp + 8 }

def calleeSaved : List Reg := [.rbp, .rbx, .r12, .r13, .r14, .r15]

def contextSwitchTail (next : Nat) (s : Cpu) : Cpu :=
  { s with rsp0 := next + PAGE_SIZE, swapgsKernelRsp := next + PAGE_SIZE }

def contextSwitch (code : Code) (prev next : Nat) (flags : Quad) (s : Cpu) : Cpu :=
  let s := calleeSaved.foldl (fun s r => s.push (s.reg r)) (s.push flags)
  let s := s.store (prev + RSP) (.ofNat 64 s.rsp)
  let s := { s with rsp := (s.mem (next + RSP)).toNat }
  let s := s.store (prev + RIP) code.resumed
  let s := s.push (s.mem (next + RIP))
  (contextSwitchTail next s).ret

/-- `context_switch` from its label 1 on. -/
def resume (s : Cpu) : Cpu := (calleeSaved.reverse.foldl (fun s r => s.pop r) s).popf

def kernelThreadStart (s : Cpu) : Cpu := (s.sti.pop .rdi).ret

def Cpu.assign (target source size : Nat) (s : Cpu) : Cpu :=
  { s with mem := fun a => if target ≤ a ∧ a < target + size then s.mem (source + (a - target)) else s.mem a }

/-- `((task_stack_t *)p + 1) - 1` as a `regs_t` -/
@[irreducible] def regsOf (p : Nat) : Nat := p + PAGE_SIZE - 176

/-- How `sys_fork` makes a task that returns from the same call, with 0. -/
def forkTask (code : Code) (current p : Nat) (s : Cpu) : Cpu :=
  let s := s.assign p current TASK_SIZE
  let s := s.assign (regsOf p) (regsOf current) 176
  let s := s.store (regsOf p) 0
  (s.store (p + RIP) code.retFromFork).store (p + RSP) (.ofNat 64 (regsOf p))

/-- The guard against the return of a thread's function. -/
def GUARD : Quad := 0xffffffffffff1234

/-- How `kernel_thread` makes a task that begins with `fn`. -/
def kernelThread (code : Code) (idle p : Nat) (fn data : Quad) (s : Cpu) : Cpu :=
  let s := s.assign p idle TASK_SIZE
  let s := s.store (p + RIP) code.kernelThreadStart
  -- the size of `regs_t` is a multiple of 16
  let s := (s.store (regsOf p - 8) 0).store (regsOf p - 16) GUARD
  let s := (s.store (regsOf p - 24) fn).store (regsOf p - 32) data
  s.store (p + RSP) (.ofNat 64 (regsOf p - 32))

/-! ### What waits on a stack -/

/-- How a task is to go on: behind its call of `schedule`, out of the call of `sys_fork`, or at the start of a thread. -/
inductive Waits where
  | switched (regs : Reg → Quad) (flags : Quad) (rsp : Nat)
  | forked (regs : Regs)
  | thread (fn data : Quad)

namespace Waits

def rsp (p : Nat) : Waits → Nat
  | switched _ _ rsp => rsp - 56
  | forked _ => regsOf p
  | thread _ _ => regsOf p - 32

def rip (code : Code) : Waits → Quad
  | switched _ _ _ => code.resumed
  | forked _ => code.retFromFork
  | thread _ _ => code.kernelThreadStart

/-- The words on the stack; the vector and the error code of a frame do not matter. -/
def words (vector error : Quad) : Waits → List Quad
  | switched regs flags _ => calleeSaved.reverse.map regs ++ [flags]
  | forked regs => frame regs vector error
  | thread fn data => [data, fn, GUARD, 0]

end Waits

/-- The task at `p` has on its stack how it goes on. -/
structure Suspended (code : Code) (mem : Nat → Quad) (p : Nat) (w : Waits) : Prop where
  rsp : mem (p + RSP) = .ofNat 64 (w.rsp p)
  rip : mem (p + RIP) = w.rip code
  stack : ∃ vector error, Stacked mem (w.rsp p) (w.words vector error)
  above : p + TASK_SIZE + 8 ≤ w.rsp p
  below : w.rsp p + 8 * (w.words 0 0).length ≤ p + PAGE_SIZE

/-- What the code does that a switch jumps to. -/
def Waits.Goes (s : Cpu) : Waits → Prop
  | switched regs flags rsp =>
    (∀ r ∈ calleeSaved, (resume s).reg r = regs r) ∧ (resume s).rflags = flags ∧ (resume s).rsp = rsp
  | forked regs => ∀ schedule, (s.needResched → Returns schedule s.cli) →
      (retFromFork schedule s).saved = sysretRegs regs
  | thread fn data =>
    (kernelThreadStart s).rip = fn ∧ (kernelThreadStart s).reg .rdi = data ∧
      (kernelThreadStart s).rflags = s.rflags ||| INTERRUPTS ∧
      (kernelThreadStart s).mem (kernelThreadStart s).rsp = GUARD

/-- How the processor goes on after a switch to `next`, where the next interrupt and the next system call find the
stack of the task. -/
structure Continues (code : Code) (next : Nat) (w : Waits) (s : Cpu) : Prop where
  rip : s.rip = w.rip code
  rsp0 : s.rsp0 = next + PAGE_SIZE
  swapgs : s.swapgsKernelRsp = next + PAGE_SIZE
  goes : w.Goes s

/-! ### Machines -/

structure Machine where
  cpu : Cpu
  current : Nat
  waiting : Nat → Option Waits

inductive Event where
  /-- whatever the task that runs does, in user code and in the kernel -/
  | work
  | switch (next : Nat) (flags : Quad)
  /-- the switch of a task that has ended -/
  | exit (next : Nat) (flags : Quad)
  | fork (p : Nat)
  | thread (idle p : Nat) (fn data : Quad)

def regsAt (mem : Nat → Quad) (a : Nat) : Regs where
  rax := mem a
  rcx := mem (a + 8)
  rdx := mem (a + 16)
  rbx := mem (a + 24)
  rbp := mem (a + 32)
  rsi := mem (a + 40)
  rdi := mem (a + 48)
  r8 := mem (a + 56)
  r9 := mem (a + 64)
  r10 := mem (a + 72)
  r11 := mem (a + 80)
  r12 := mem (a + 88)
  r13 := mem (a + 96)
  r14 := mem (a + 104)
  r15 := mem (a + 112)
  rip := mem (a + 136)
  cs := mem (a + 144)
  rflags := mem (a + 152)
  rsp := mem (a + 160)
  ss := mem (a + 168)

namespace Machine

/-- The stack pointer is in the stack of the task, with room for what a switch stores. -/
def Deep (s : Machine) : Prop := s.current + TASK_SIZE + 64 ≤ s.cpu.rsp ∧ s.cpu.rsp ≤ s.current + PAGE_SIZE

def Fresh (s : Machine) (p : Nat) : Prop :=
  PAGE_SIZE ∣ p ∧ p + PAGE_SIZE ≤ 2 ^ 64 ∧ p ≠ s.current ∧ s.waiting p = none

/-- The stacks of the tasks that wait, and what the structures say of them, are as before. -/
def Undisturbed (s : Machine) (mem : Nat → Quad) : Prop := ∀ p w, s.waiting p = some w →
  mem (p + RSP) = s.cpu.mem (p + RSP) ∧ mem (p + RIP) = s.cpu.mem (p + RIP) ∧
    ∀ a, w.rsp p ≤ a → a < p + PAGE_SIZE → mem a = s.cpu.mem a

def switchTo (s : Machine) (code : Code) (next : Nat) (flags : Quad) : Machine :=
  ⟨contextSwitch code s.current next flags s.cpu, next, Function.update
    (Function.update s.waiting s.current (some (.switched s.cpu.reg flags s.cpu.rsp))) next none⟩

def forked (s : Machine) (code : Code) (p : Nat) : Machine :=
  ⟨forkTask code s.current p s.cpu, s.current, Function.update s.waiting p
    (some (.forked { regsAt s.cpu.mem (regsOf s.current) with rax := 0 }))⟩

def threaded (s : Machine) (code : Code) (idle p : Nat) (fn data : Quad) : Machine :=
  ⟨kernelThread code idle p fn data s.cpu, s.current, Function.update s.waiting p (some (.thread fn data))⟩

end Machine

def Step (code : Code) (s : Machine) : Event → Machine → Prop
  | .work, t => s.Undisturbed t.cpu.mem ∧ t.current = s.current ∧ t.waiting = s.waiting
  | .switch next flags, t => s.Deep ∧ (s.waiting next).isSome ∧ t = s.switchTo code next flags
  | .exit next flags, t => s.Deep ∧ (s.waiting next).isSome ∧
      t = ⟨contextSwitch code s.current next flags s.cpu, next, Function.update s.waiting next none⟩
  | .fork p, t => s.Fresh p ∧ t = s.forked code p
  | .thread idle p fn data, t => s.Fresh p ∧ t = s.threaded code idle p fn data

/-! ### One switch -/

variable {code : Code} {p q next : Nat} {w : Waits} {s : Cpu} {mem mem' : Nat → Quad} {flags : Quad}

theorem layout : RSP = 88 ∧ RIP = 96 ∧ TASK_SIZE = 184 ∧ PAGE_SIZE = 4096 := ⟨rfl, rfl, rfl, rfl⟩

theorem apart (hp : PAGE_SIZE ∣ p) (hq : PAGE_SIZE ∣ q) (other : p ≠ q) :
    p + PAGE_SIZE ≤ q ∨ q + PAGE_SIZE ≤ p := by
  unfold PAGE_SIZE at *
  omega

theorem words_length {a b c d : Quad} : (w.words a b).length = (w.words c d).length := by cases w <;> rfl

theorem words_pos {a b : Quad} : 0 < (w.words a b).length := by cases w <;> exact Nat.zero_lt_succ _

theorem Suspended.congr (h : Suspended code mem p w) (rsp : mem' (p + RSP) = mem (p + RSP))
    (rip : mem' (p + RIP) = mem (p + RIP)) (stack : ∀ a, w.rsp p ≤ a → a < p + PAGE_SIZE → mem' a = mem a) :
    Suspended code mem' p w where
  rsp := rsp.trans h.rsp
  rip := rip.trans h.rip
  stack := by
    obtain ⟨vector, error, stacked⟩ := h.stack
    refine ⟨vector, error, stacked.congr fun i inside => ?_⟩
    have below := h.below
    rw [words_length (c := vector) (d := error)] at below
    exact stack _ (by omega) (by omega)
  above := h.above
  below := h.below

/-- A store outside of the page of a task does not change how it goes on. -/
theorem Suspended.elsewhere (h : Suspended code mem p w)
    (same : ∀ a, p ≤ a → a < p + PAGE_SIZE → mem' a = mem a) : Suspended code mem' p w := by
  have above := h.above
  obtain ⟨first, second, size, page⟩ := layout
  exact h.congr (same _ (by omega) (by omega)) (same _ (by omega) (by omega)) fun a low high => same a (by omega) high

theorem pushAll_mem {rs : List Reg} {a : Nat} (room : 8 * rs.length ≤ s.rsp)
    (other : a < s.rsp - 8 * rs.length ∨ s.rsp ≤ a) : (rs.foldl (fun s r => s.push (s.reg r)) s).mem a = s.mem a := by
  induction rs generalizing s with
  | nil => rfl
  | cons r rs ih =>
    rw [List.length_cons] at room other
    have rest := ih (s := s.push (s.reg r)) (by simp only [Cpu.push]; omega) (by simp only [Cpu.push]; omega)
    exact rest.trans (Function.update_of_ne (by omega) ..)

/-- What the first half of a switch leaves on the stack. -/
theorem calleeSaved_pushed (flags : Quad) (room : 56 ≤ s.rsp) : ∃ mem,
    calleeSaved.foldl (fun s r => s.push (s.reg r)) (s.push flags) = { s with rsp := s.rsp - 56, mem } ∧
      Stacked mem (s.rsp - 56) (calleeSaved.reverse.map s.reg ++ [flags]) ∧
      ∀ a, a < s.rsp - 56 ∨ s.rsp ≤ a → mem a = s.mem a := by
  have bare : Stacked (s.push flags).mem (s.push flags).rsp [flags] := Stacked.push .nil (by omega)
  have deep : 8 * calleeSaved.length ≤ (s.push flags).rsp := by
    change 48 ≤ s.rsp - 8
    omega
  obtain ⟨mem, pushed, stacked⟩ := pushAll bare deep
  have place : (s.push flags).rsp - 8 * calleeSaved.length = s.rsp - 56 := by
    change s.rsp - 8 - 48 = _
    omega
  rw [place] at pushed stacked
  refine ⟨mem, pushed, stacked, fun a other => ?_⟩
  have kept := pushAll_mem (a := a) deep (by rw [place]; exact other.imp_right fun h => by change s.rsp - 8 ≤ a; omega)
  rw [pushed] at kept
  exact kept.trans (Function.update_of_ne (by omega) ..)

/-- A switch leaves a task suspended, and the processor with the stack of the other. -/
theorem contextSwitch_spec (flags : Quad) (at_prev : PAGE_SIZE ∣ p) (at_next : PAGE_SIZE ∣ next) (other : next ≠ p)
    (narrow : p + PAGE_SIZE ≤ 2 ^ 64) (narrow' : next + PAGE_SIZE ≤ 2 ^ 64)
    (low : p + TASK_SIZE + 64 ≤ s.rsp) (high : s.rsp ≤ p + PAGE_SIZE) (waits : Suspended code s.mem next w) :
    ∃ mem, contextSwitch code p next flags s =
      { s with
        rsp := w.rsp next, rip := w.rip code, mem, rsp0 := next + PAGE_SIZE, swapgsKernelRsp := next + PAGE_SIZE } ∧
      (∀ a, a < p ∨ p + PAGE_SIZE ≤ a → a ≠ w.rsp next - 8 → mem a = s.mem a) ∧
      Suspended code mem p (.switched s.reg flags s.rsp) := by
  obtain ⟨first, second, size, page⟩ := layout
  obtain ⟨saved, pushed, stacked, kept⟩ := calleeSaved_pushed flags (show 56 ≤ s.rsp by omega)
  have apart := apart at_next at_prev other
  have above := waits.above
  have below := waits.below
  have rsp : saved (next + RSP) = .ofNat 64 (w.rsp next) := (kept _ (by omega)).trans waits.rsp
  have rip : saved (next + RIP) = w.rip code := (kept _ (by omega)).trans waits.rip
  have some_words := words_pos (w := w) (a := 0) (b := 0)
  have number : (BitVec.ofNat 64 (w.rsp next)).toNat = w.rsp next := by
    rw [BitVec.toNat_ofNat]
    omega
  have top : w.rsp next - 8 + 8 = w.rsp next := by omega
  let stored := Function.update saved (p + RSP) (.ofNat 64 (s.rsp - 56))
  have found : (stored (next + RSP)).toNat = w.rsp next := by
    rw [show stored (next + RSP) = saved (next + RSP) from Function.update_of_ne (by omega) .., rsp, number]
  let labelled := Function.update stored (p + RIP) code.resumed
  have elsewhere (a : Nat) (h : a ≠ p + RSP) (k : a ≠ p + RIP) : labelled a = saved a :=
    (Function.update_of_ne k ..).trans (Function.update_of_ne h ..)
  have jumps : labelled (next + RIP) = w.rip code := (elsewhere _ (by omega) (by omega)).trans rip
  refine ⟨Function.update labelled (w.rsp next - 8) (w.rip code), ?_, fun a outside top => ?_, ?_, ?_, ⟨0, 0, ?_⟩, ?_, ?_⟩
  · rw [contextSwitch, pushed]
    change Cpu.ret (contextSwitchTail next (Cpu.push (labelled (next + RIP))
      { s with rsp := (stored (next + RSP)).toNat, mem := labelled })) = _
    rw [found, jumps]
    simp only [Cpu.ret, contextSwitchTail, Cpu.push, Function.update_self, top]
  · rw [Function.update_of_ne top, elsewhere a (by omega) (by omega)]
    exact kept a (by omega)
  · rw [Function.update_of_ne (by omega)]
    exact (Function.update_of_ne (by omega) ..).trans (Function.update_self ..)
  · rw [Function.update_of_ne (by omega)]
    exact Function.update_self ..
  · refine Stacked.congr stacked fun i inside => ?_
    have last : i < 7 := inside
    have place : (Waits.switched s.reg flags s.rsp).rsp p = s.rsp - 56 := rfl
    rw [place, Function.update_of_ne (by omega)]
    exact elsewhere _ (by omega) (by omega)
  · change p + TASK_SIZE + 8 ≤ s.rsp - 56
    omega
  · change s.rsp - 56 + 56 ≤ p + PAGE_SIZE
    omega

/-- A task goes on from its stack. -/
theorem Suspended.goes (waits : Suspended code s.mem next w) (rsp : s.rsp = w.rsp next) : w.Goes s := by
  obtain ⟨vector, error, stacked⟩ := waits.stack
  rw [← rsp] at stacked
  cases w with
  | switched regs flags sp =>
    have popped := popAll stacked (by decide)
    have last : s.mem (s.rsp + 48) = flags := (Stacked.cons_iff.mp (Stacked.append_iff.mp stacked).2).1
    have above : next + TASK_SIZE + 8 ≤ sp - 56 := waits.above
    have place : s.rsp = sp - 56 := rsp
    refine ⟨fun r member => ?_, ?_, ?_⟩
    · rw [resume, popped]
      exact if_pos (List.mem_reverse.mpr member)
    · rw [resume, popped]
      exact last
    · rw [resume, popped]
      change s.rsp + 48 + 8 = sp
      omega
  | forked regs =>
    intro schedule switches
    exact Framed.retFromFork ⟨vector, stacked⟩ switches
  | thread fn data =>
    obtain ⟨first, rest⟩ := Stacked.cons_iff.mp stacked
    obtain ⟨second, rest⟩ := Stacked.cons_iff.mp rest
    obtain ⟨third, -⟩ := Stacked.cons_iff.mp rest
    exact ⟨second, first, rfl, third⟩

/-! ### New tasks -/

theorem frame_regsAt {a : Nat} : Stacked mem a (frame (regsAt mem a) (mem (a + 120)) (mem (a + 128))) := by
  intro i inside
  have last : i < 22 := inside
  interval_cases i <;> rfl

theorem regsOf_eq (p : Nat) : regsOf p = p + 3920 := by
  unfold regsOf PAGE_SIZE
  omega

theorem assign_inside {target source size a : Nat} (low : target ≤ a) (high : a < target + size) :
    (s.assign target source size).mem a = s.mem (source + (a - target)) := if_pos ⟨low, high⟩

theorem assign_outside {target source size a : Nat} (other : a < target ∨ target + size ≤ a) :
    (s.assign target source size).mem a = s.mem a := if_neg (by omega)

theorem store_mem {a : Nat} {v : Quad} {m : Nat → Quad} {t : Cpu} (only : t = { s with mem := m }) :
    t.store a v = { s with mem := Function.update m a v } := by
  rw [only]
  rfl

/-- What makes a new task changes its page only. -/
def Makes (code : Code) (p : Nat) (w : Waits) (s t : Cpu) : Prop :=
  ∃ mem, t = { s with mem } ∧ (∀ a, a < p ∨ p + PAGE_SIZE ≤ a → mem a = s.mem a) ∧ Suspended code mem p w

theorem forkTask_spec (at_current : PAGE_SIZE ∣ q) (at_new : PAGE_SIZE ∣ p) (other : p ≠ q) :
    Makes code p (.forked { regsAt s.mem (regsOf q) with rax := 0 }) s (forkTask code q p s) := by
  obtain ⟨first, second, size, page⟩ := layout
  have apart := apart at_new at_current other
  have new := regsOf_eq p
  have old := regsOf_eq q
  let copied := (s.assign p q TASK_SIZE).assign (regsOf p) (regsOf q) 176
  have outside (a : Nat) (h : a < p ∨ p + PAGE_SIZE ≤ a) : copied.mem a = s.mem a :=
    (assign_outside (by omega)).trans (assign_outside (by omega))
  have frame_copied (i : Nat) (h : i < 22) : copied.mem (regsOf p + 8 * i) = s.mem (regsOf q + 8 * i) := by
    have source : regsOf q + (regsOf p + 8 * i - regsOf p) = regsOf q + 8 * i := by omega
    rw [assign_inside (by omega) (by omega), source]
    exact assign_outside (by omega)
  let mem := Function.update (Function.update (Function.update copied.mem (regsOf p) 0) (p + RIP) code.retFromFork)
    (p + RSP) (.ofNat 64 (regsOf p))
  have kept (a : Nat) (h : a ≠ regsOf p) (k : a ≠ p + RIP) (l : a ≠ p + RSP) : mem a = copied.mem a :=
    (Function.update_of_ne l ..).trans ((Function.update_of_ne k ..).trans (Function.update_of_ne h ..))
  have only : copied = { s with mem := copied.mem } := rfl
  refine ⟨mem, store_mem (store_mem (store_mem only)),
    fun a h => (kept a (by omega) (by omega) (by omega)).trans (outside a h), ?_, ?_, ?_, ?_, ?_⟩
  · exact Function.update_self ..
  · exact (Function.update_of_ne (by omega) ..).trans (Function.update_self ..)
  · have whole : Stacked copied.mem (regsOf p) (frame (regsAt s.mem (regsOf q)) _ _) :=
      frame_regsAt.copy frame_copied
    obtain ⟨-, rest⟩ := Stacked.cons_iff.mp whole
    have place : (Waits.forked { regsAt s.mem (regsOf q) with rax := 0 }).rsp p = regsOf p := rfl
    rw [place]
    refine ⟨_, _, Stacked.cons_iff.mpr ⟨?_, rest.congr fun i inside => ?_⟩⟩
    · exact (Function.update_of_ne (by omega) ..).trans
        ((Function.update_of_ne (by omega) ..).trans (Function.update_self ..))
    · have last : i < 21 := inside
      exact kept _ (by omega) (by omega) (by omega)
  · change p + TASK_SIZE + 8 ≤ regsOf p
    omega
  · change regsOf p + 176 ≤ p + PAGE_SIZE
    omega

theorem kernelThread_spec {idle : Nat} {fn data : Quad} :
    Makes code p (.thread fn data) s (kernelThread code idle p fn data s) := by
  obtain ⟨first, second, size, page⟩ := layout
  have new := regsOf_eq p
  have second_word : regsOf p - 16 = regsOf p - 8 - 8 := by omega
  have third_word : regsOf p - 24 = regsOf p - 8 - 8 - 8 := by omega
  have fourth_word : regsOf p - 32 = regsOf p - 8 - 8 - 8 - 8 := by omega
  let labelled := ((s.assign p idle TASK_SIZE).store (p + RIP) code.kernelThreadStart).mem
  have bare : Stacked labelled (regsOf p) [] := .nil
  have pushed := (((bare.push (w := (0 : Quad)) (by omega)).push (w := GUARD) (by omega)).push (w := fn)
    (by omega)).push (w := data) (by omega)
  have outside (a : Nat) (h : a < regsOf p - 32 ∨ regsOf p ≤ a) : (Function.update (Function.update (Function.update
      (Function.update labelled (regsOf p - 8) 0) (regsOf p - 8 - 8) GUARD) (regsOf p - 8 - 8 - 8) fn)
      (regsOf p - 8 - 8 - 8 - 8) data) a = labelled a := by
    rw [Function.update_of_ne (by omega), Function.update_of_ne (by omega), Function.update_of_ne (by omega),
      Function.update_of_ne (by omega)]
  generalize storing : Function.update (Function.update (Function.update
      (Function.update labelled (regsOf p - 8) 0) (regsOf p - 8 - 8) GUARD) (regsOf p - 8 - 8 - 8) fn)
      (regsOf p - 8 - 8 - 8 - 8) data = filled at pushed outside
  rw [← fourth_word] at pushed
  have made : kernelThread code idle p fn data s =
      { s with mem := Function.update filled (p + RSP) (.ofNat 64 (regsOf p - 32)) } := by
    simp only [← storing, kernelThread, second_word, third_word, fourth_word, Cpu.store, labelled]
    rfl
  generalize bottom : regsOf p - 32 = sp at pushed outside made
  have stack : Stacked (Function.update filled (p + RSP) (.ofNat 64 sp)) sp [data, fn, GUARD, 0] :=
    pushed.congr fun i inside => Function.update_of_ne (by omega) ..
  have waits : (Waits.thread fn data).rsp p = sp := bottom
  refine ⟨_, made, fun a h => ?_, ?_, ?_, ⟨0, 0, ?_⟩, ?_, ?_⟩
  · rw [Function.update_of_ne (by omega), outside a (by omega)]
    exact (Function.update_of_ne (by omega) ..).trans (assign_outside (by omega))
  · rw [waits]
    exact Function.update_self ..
  · rw [Function.update_of_ne (by omega), outside _ (by omega)]
    exact Function.update_self ..
  · rw [waits]
    exact stack
  · rw [waits]
    omega
  · rw [waits]
    change sp + 32 ≤ p + PAGE_SIZE
    omega

/-! ### Runs -/

/-- Every task that waits has its stack to itself, and on it how it goes on. -/
structure Sound (code : Code) (s : Machine) : Prop where
  page : PAGE_SIZE ∣ s.current
  narrow : s.current + PAGE_SIZE ≤ 2 ^ 64
  waiting : ∀ p w, s.waiting p = some w →
    PAGE_SIZE ∣ p ∧ p + PAGE_SIZE ≤ 2 ^ 64 ∧ p ≠ s.current ∧ Suspended code s.cpu.mem p w

variable {s t u v : Machine} {e : Event} {events : List Event} {flags' : Quad}

theorem switch_spec (flags : Quad) (sound : Sound code s) (deep : s.Deep) (waits : s.waiting next = some w) :
    Continues code next w (contextSwitch code s.current next flags s.cpu) ∧
    Suspended code (contextSwitch code s.current next flags s.cpu).mem s.current
      (.switched s.cpu.reg flags s.cpu.rsp) ∧
    ∀ p w, s.waiting p = some w → p ≠ next → Suspended code (contextSwitch code s.current next flags s.cpu).mem p w := by
  obtain ⟨at_next, narrow, other, suspended⟩ := sound.waiting next w waits
  obtain ⟨mem, switched, kept, left⟩ := contextSwitch_spec flags sound.page at_next other sound.narrow narrow
    deep.1 deep.2 suspended
  obtain ⟨first, second, size, page⟩ := layout
  have above := suspended.above
  have below := suspended.below
  have apart_next := apart at_next sound.page other
  have after : Suspended code mem next w := suspended.congr (kept _ (by omega) (by omega))
    (kept _ (by omega) (by omega)) fun a low high => kept a (by omega) (by omega)
  rw [switched]
  refine ⟨⟨rfl, rfl, rfl, Suspended.goes after rfl⟩, left, fun p w found different => ?_⟩
  obtain ⟨at_p, -, away, waits⟩ := sound.waiting p w found
  have apart_p := apart at_p sound.page away
  have apart_both := apart at_p at_next different
  exact waits.elsewhere fun a low high => kept a (by omega) (by omega)

theorem Sound.switched {waiting : Nat → Option Waits} (sound : Sound code s) (deep : s.Deep)
    (waits : s.waiting next = some w)
    (rest : ∀ p k, waiting p = some k → p ≠ next ∧
      (s.waiting p = some k ∨ p = s.current ∧ k = .switched s.cpu.reg flags s.cpu.rsp)) :
    Sound code ⟨contextSwitch code s.current next flags s.cpu, next, waiting⟩ := by
  obtain ⟨at_next, narrow, other, -⟩ := sound.waiting next w waits
  obtain ⟨-, left, others⟩ := switch_spec flags sound deep waits
  refine ⟨at_next, narrow, fun p k found => ?_⟩
  obtain ⟨different, there | ⟨rfl, rfl⟩⟩ := rest p k found
  · obtain ⟨at_p, fits, -, -⟩ := sound.waiting p k there
    exact ⟨at_p, fits, different, others p k there different⟩
  · exact ⟨sound.page, sound.narrow, different, left⟩

theorem Sound.made {cpu : Cpu} (sound : Sound code s) (fresh : s.Fresh p) (makes : Makes code p w s.cpu cpu) :
    Sound code ⟨cpu, s.current, Function.update s.waiting p (some w)⟩ := by
  obtain ⟨mem, rfl, kept, suspended⟩ := makes
  obtain ⟨at_p, narrow, other, -⟩ := fresh
  refine ⟨sound.page, sound.narrow, fun q k found => ?_⟩
  by_cases same : q = p
  · subst same
    obtain rfl : w = k := Option.some.inj (by simpa using found)
    exact ⟨at_p, narrow, other, suspended⟩
  · obtain ⟨at_q, fits, away, waits⟩ := sound.waiting q k (by simpa [same] using found)
    have apart := apart at_q at_p same
    exact ⟨at_q, fits, away, waits.elsewhere fun a low high => kept a (by omega)⟩

theorem step_sound (sound : Sound code s) (step : Step code s e t) : Sound code t := by
  cases e with
  | work =>
    obtain ⟨undisturbed, current, waiting⟩ := step
    refine ⟨current ▸ sound.page, current ▸ sound.narrow, fun p w found => ?_⟩
    rw [waiting] at found
    obtain ⟨at_p, narrow, away, waits⟩ := sound.waiting p w found
    obtain ⟨rsp, rip, stack⟩ := undisturbed p w found
    exact ⟨at_p, narrow, current ▸ away, waits.congr rsp rip stack⟩
  | switch next flags =>
    obtain ⟨deep, there, rfl⟩ := step
    obtain ⟨w, waits⟩ := Option.isSome_iff_exists.mp there
    refine sound.switched deep waits fun p k found => ?_
    by_cases same : p = next
    · simp [same] at found
    · by_cases prev : p = s.current
      · subst prev
        exact ⟨same, .inr ⟨rfl, by simpa [same, eq_comm] using found⟩⟩
      · exact ⟨same, .inl (by simpa [same, prev] using found)⟩
  | exit next flags =>
    obtain ⟨deep, there, rfl⟩ := step
    obtain ⟨w, waits⟩ := Option.isSome_iff_exists.mp there
    refine sound.switched deep waits fun p k found => ?_
    by_cases same : p = next
    · simp [same] at found
    · exact ⟨same, .inl (by simpa [same] using found)⟩
  | fork p =>
    obtain ⟨fresh, rfl⟩ := step
    exact sound.made fresh (forkTask_spec sound.page fresh.1 fresh.2.2.1)
  | thread idle p fn data =>
    obtain ⟨fresh, rfl⟩ := step
    exact sound.made fresh kernelThread_spec

/-- The task that an event gives the processor to. -/
def Event.target : Event → Option Nat
  | switch next _ => some next
  | exit next _ => some next
  | _ => none

theorem step_waiting (sound : Sound code s) (step : Step code s e t) (found : s.waiting p = some w)
    (away : e.target ≠ some p) : t.waiting p = some w := by
  obtain ⟨-, -, other, -⟩ := sound.waiting p w found
  cases e with
  | work =>
    obtain ⟨-, -, waiting⟩ := step
    rw [waiting, found]
  | switch next flags =>
    obtain ⟨-, -, rfl⟩ := step
    have different : p ≠ next := fun same => away (congrArg some same.symm)
    simp [Machine.switchTo, different, other, found]
  | exit next flags =>
    obtain ⟨-, -, rfl⟩ := step
    have different : p ≠ next := fun same => away (congrArg some same.symm)
    simp [different, found]
  | fork q =>
    obtain ⟨⟨-, -, -, free⟩, rfl⟩ := step
    have different : p ≠ q := fun same => by simp [same, free] at found
    simp [Machine.forked, different, found]
  | thread idle q fn data =>
    obtain ⟨⟨-, -, -, free⟩, rfl⟩ := step
    have different : p ≠ q := fun same => by simp [same, free] at found
    simp [Machine.threaded, different, found]

theorem run_waiting (sound : Sound code s) (run : Run (Step code) s events t) (found : s.waiting p = some w)
    (away : ∀ e ∈ events, e.target ≠ some p) : Sound code t ∧ t.waiting p = some w := by
  induction run with
  | nil => exact ⟨sound, found⟩
  | cons first _ ih =>
    obtain ⟨here, later⟩ := List.forall_mem_cons.mp away
    exact ih (step_sound sound first) (step_waiting sound first found here) later

theorem target_continues (sound : Sound code s) (found : s.waiting p = some w) (step : Step code s e t)
    (target : e.target = some p) : Continues code p w t.cpu := by
  cases e with
  | switch next flags =>
    obtain ⟨deep, -, rfl⟩ := step
    obtain rfl : next = p := Option.some.inj target
    exact (switch_spec _ sound deep found).1
  | exit next flags =>
    obtain ⟨deep, -, rfl⟩ := step
    obtain rfl : next = p := Option.some.inj target
    exact (switch_spec _ sound deep found).1
  | work => cases target
  | fork => cases target
  | thread => cases target

/-- Whatever happens until it gets the processor again, a task goes on behind its call of `schedule` with its
registers, its stack and its flags. -/
theorem comes_back (sound : Sound code s) (leaves : Step code s (.switch next flags) t) (other : next ≠ s.current)
    (run : Run (Step code) t events u) (away : ∀ e ∈ events, e.target ≠ some s.current)
    (back : Step code u e v) (target : e.target = some s.current) :
    v.cpu.rip = code.resumed ∧ v.cpu.rsp0 = s.current + PAGE_SIZE ∧ v.cpu.swapgsKernelRsp = s.current + PAGE_SIZE ∧
      (∀ r ∈ calleeSaved, (resume v.cpu).reg r = s.cpu.reg r) ∧ (resume v.cpu).rflags = flags ∧
      (resume v.cpu).rsp = s.cpu.rsp := by
  have left : t.waiting s.current = some (.switched s.cpu.reg flags s.cpu.rsp) := by
    obtain ⟨-, -, rfl⟩ := leaves
    simp [Machine.switchTo, other.symm]
  obtain ⟨later, waits⟩ := run_waiting (step_sound sound leaves) run left away
  have continues := target_continues later waits back target
  exact ⟨continues.rip, continues.rsp0, continues.swapgs, continues.goes⟩

theorem regsAt_frame {mem : Nat → Quad} {a : Nat} {r : Regs} {vector error : Quad}
    (stacked : Stacked mem a (frame r vector error)) : regsAt mem a = r := by
  have word (i : Nat) (inside : i < 22) := stacked i inside
  cases r
  rw [regsAt, Regs.mk.injEq]
  exact ⟨word 0 (by decide), word 1 (by decide), word 2 (by decide), word 3 (by decide), word 4 (by decide), word
    5 (by decide), word 6 (by decide), word 7 (by decide), word 8 (by decide), word 9 (by decide), word 10
    (by decide), word 11 (by decide), word 12 (by decide), word 13 (by decide), word 14 (by decide), word 17
    (by decide), word 18 (by decide), word 19 (by decide), word 20 (by decide), word 21 (by decide)⟩

/-- The child of a process goes on in user code with the registers that its parent had in its system call, but for
`rax`, which is 0. -/
theorem child_returns {r : Regs} {vector error : Quad} (sound : Sound code s) (forks : Step code s (.fork p) t)
    (framed : Stacked s.cpu.mem (regsOf s.current) (frame r vector error))
    (run : Run (Step code) t events u) (away : ∀ e ∈ events, e.target ≠ some p)
    (first : Step code u e v) (target : e.target = some p) :
    v.cpu.rip = code.retFromFork ∧ v.cpu.rsp0 = p + PAGE_SIZE ∧ v.cpu.swapgsKernelRsp = p + PAGE_SIZE ∧
      ∀ schedule, (v.cpu.needResched → Returns schedule v.cpu.cli) →
        (retFromFork schedule v.cpu).saved = sysretRegs { r with rax := 0 } := by
  have made : t.waiting p = some (.forked { r with rax := 0 }) := by
    obtain ⟨-, rfl⟩ := forks
    rw [← regsAt_frame framed]
    simp [Machine.forked]
  obtain ⟨later, waits⟩ := run_waiting (step_sound sound forks) run made away
  have continues := target_continues later waits first target
  exact ⟨continues.rip, continues.rsp0, continues.swapgs, continues.goes⟩

/-- A thread of the kernel begins with its function and the argument, interrupts enabled. -/
theorem thread_begins {idle : Nat} {fn data : Quad} (sound : Sound code s) (starts : Step code s (.thread idle p fn data) t)
    (run : Run (Step code) t events u) (away : ∀ e ∈ events, e.target ≠ some p)
    (first : Step code u e v) (target : e.target = some p) :
    v.cpu.rip = code.kernelThreadStart ∧ (kernelThreadStart v.cpu).rip = fn ∧
      (kernelThreadStart v.cpu).reg .rdi = data ∧ (kernelThreadStart v.cpu).rflags = v.cpu.rflags ||| INTERRUPTS ∧
      (kernelThreadStart v.cpu).mem (kernelThreadStart v.cpu).rsp = GUARD := by
  have made : t.waiting p = some (.thread fn data) := by
    obtain ⟨-, rfl⟩ := starts
    simp [Machine.threaded]
  obtain ⟨later, waits⟩ := run_waiting (step_sound sound starts) run made away
  have continues := target_continues later waits first target
  exact ⟨continues.rip, continues.goes⟩

def booted : Machine := ⟨{ user with rsp := 0x1e00 }, 0x1000, fun _ => none⟩

def labels : Code := ⟨1, 2, 3⟩

theorem booted_sound : Sound labels booted := ⟨⟨1, rfl⟩, by decide, nofun⟩

theorem booted_thread : Step labels booted (.thread 0x1000 0x2000 7 8) (booted.threaded labels 0x1000 0x2000 7 8) :=
  ⟨⟨⟨2, rfl⟩, by decide, by decide, rfl⟩, rfl⟩

theorem booted_switch : Step labels (booted.threaded labels 0x1000 0x2000 7 8) (.switch 0x2000 0)
    ((booted.threaded labels 0x1000 0x2000 7 8).switchTo labels 0x2000 0) :=
  ⟨⟨by decide, by decide⟩, rfl, rfl⟩

/-- The thread that has the processor runs `kernel_thread_start`. -/
def Machine.begun (s : Machine) : Machine := { s with cpu := kernelThreadStart s.cpu }

theorem begun_step (s : Machine) : Step code s .work s.begun :=
  ⟨fun _ _ _ => ⟨rfl, rfl, fun _ _ _ => rfl⟩, rfl, rfl⟩

/-- Another thread is made, and runs first. -/
def Machine.otherRuns (s : Machine) : Machine :=
  ((s.threaded labels 0x1000 0x3000 9 10).switchTo labels 0x3000 0).begun

theorem deep_threaded {idle : Nat} {fn data : Quad} (deep : s.Deep) : (s.threaded code idle p fn data).Deep := by
  obtain ⟨mem, made, -⟩ : Makes code p (.thread fn data) s.cpu (kernelThread code idle p fn data s.cpu) :=
    kernelThread_spec
  unfold Machine.threaded
  rw [made]
  exact deep

theorem otherRuns_run (other : 0x3000 ≠ s.current) (free : s.waiting 0x3000 = none) (deep : s.Deep) :
    Run (Step labels) s [.thread 0x1000 0x3000 9 10, .switch 0x3000 0, .work] s.otherRuns := by
  have made : Step labels s (.thread 0x1000 0x3000 9 10) (s.threaded labels 0x1000 0x3000 9 10) :=
    ⟨⟨⟨3, rfl⟩, by decide, other, free⟩, rfl⟩
  have waits : (s.threaded labels 0x1000 0x3000 9 10).waiting 0x3000 = some (.thread 9 10) := by
    simp [Machine.threaded]
  have given : Step labels (s.threaded labels 0x1000 0x3000 9 10) (.switch 0x3000 0) _ :=
    ⟨deep_threaded deep, Option.isSome_of_eq_some waits, rfl⟩
  exact .cons made (.cons given (.single (begun_step _)))

theorem thread_begins_booted : let v := (booted.threaded labels 0x1000 0x2000 7 8).otherRuns.switchTo labels 0x2000 0
    v.cpu.rip = 3 ∧ (kernelThreadStart v.cpu).rip = 7 ∧ (kernelThreadStart v.cpu).reg .rdi = 8 ∧
      (kernelThreadStart v.cpu).rflags = v.cpu.rflags ||| INTERRUPTS ∧
      (kernelThreadStart v.cpu).mem (kernelThreadStart v.cpu).rsp = GUARD :=
  thread_begins booted_sound booted_thread (otherRuns_run (by decide) rfl ⟨by decide, by decide⟩) (by simp [Event.target])
    (e := .switch 0x2000 0) ⟨⟨by decide +kernel, by decide +kernel⟩, by decide +kernel, rfl⟩ rfl

/-- The thread begins, another one runs and ends, and the task of the boot goes on. -/
theorem comes_back_booted :
    let t := ((booted.threaded labels 0x1000 0x2000 7 8).switchTo labels 0x2000 0).begun.otherRuns
    let v := contextSwitch labels 0x3000 0x1000 5 t.cpu
    v.rip = 1 ∧ v.rsp0 = 0x2000 ∧ v.swapgsKernelRsp = 0x2000 ∧
      (∀ r ∈ calleeSaved, (resume v).reg r = 5) ∧ (resume v).rflags = 0 ∧ (resume v).rsp = 0x1e00 := by
  have runs : Run (Step labels) _ [.thread 0x1000 0x3000 9 10, .switch 0x3000 0, .work]
      ((booted.threaded labels 0x1000 0x2000 7 8).switchTo labels 0x2000 0).begun.otherRuns :=
    otherRuns_run (by decide) (by decide +kernel) ⟨by decide +kernel, by decide +kernel⟩
  have back : Step labels _ (.exit 0x1000 5) ⟨contextSwitch labels 0x3000 0x1000 5
      ((booted.threaded labels 0x1000 0x2000 7 8).switchTo labels 0x2000 0).begun.otherRuns.cpu, 0x1000, _⟩ :=
    ⟨⟨by decide +kernel, by decide +kernel⟩, by decide +kernel, rfl⟩
  have away : ∀ e ∈ [Event.work, .thread 0x1000 0x3000 9 10, .switch 0x3000 0, .work],
      e.target ≠ some (booted.threaded labels 0x1000 0x2000 7 8).current := by
    simp [Event.target, Machine.threaded, booted]
  exact comes_back (step_sound booted_sound booted_thread) booted_switch (by decide) (.cons (begun_step _) runs) away
    back rfl

theorem booted_fork : Step labels booted (.fork 0x2000) (booted.forked labels 0x2000) :=
  ⟨⟨⟨2, rfl⟩, by decide, by decide, rfl⟩, rfl⟩

theorem child_returns_booted :
    let v := (booted.forked labels 0x2000).otherRuns.switchTo labels 0x2000 0
    v.cpu.rip = 2 ∧ v.cpu.rsp0 = 0x3000 ∧ v.cpu.swapgsKernelRsp = 0x3000 ∧
      ∀ schedule, (v.cpu.needResched → Returns schedule v.cpu.cli) → (retFromFork schedule v.cpu).saved =
        sysretRegs { regsAt (fun _ => 0) 0 with rax := 0 } :=
  child_returns (r := regsAt (fun _ => 0) 0) booted_sound booted_fork (frame_regsAt (a := regsOf 0x1000))
    (otherRuns_run (by decide) rfl ⟨by decide, by decide⟩) (by simp [Event.target])
    (e := .switch 0x2000 0) ⟨⟨by decide +kernel, by decide +kernel⟩, by decide +kernel, rfl⟩ rfl

end Landaux.Entry
