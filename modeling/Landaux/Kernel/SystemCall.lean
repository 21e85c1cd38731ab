import Landaux.Kernel.Entry
import Landaux.Kernel.ExecElf

/-!
# System calls

`system_call` and `ret_from_fork` of `idt.S`, with the registers that `init_syscall` writes. The functions of
`sys_call_table` are parameters, and so is `schedule`. A call finds its arguments where a C function expects them,
and user code goes on with its registers, but for `rax`, `rcx` and `r11`.
-/

namespace Landaux.Entry
open Lib

def ENOSYS : Quad := 38

/-- What `init_syscall` writes into `STAR` and into `SFMASK`. -/
def STAR : Quad := (USER_CS - 16) <<< 48 ||| KERNEL_CS <<< 32
def SFMASK : Quad := 0x47700

/-- The `syscall` instruction; `lstar` is the address of `system_call`. -/
def syscall (lstar : Quad) (s : Cpu) : Cpu :=
  { (s.set .rcx s.rip).set .r11 s.rflags with
    rip := lstar
    cs := STAR >>> 32 &&& 0xfffc
    ss := (STAR >>> 32 &&& 0xffff) + 8
    rflags := s.rflags &&& ~~~SFMASK }

def sysretq (s : Cpu) : Cpu :=
  { s with
    rip := s.reg .rcx
    rflags := s.reg .r11 &&& 0x3c7fd7 ||| 2
    cs := STAR >>> 48 + 16 ||| 3
    ss := STAR >>> 48 + 8 ||| 3 }

/-- `ret_from_fork` from its label 3 on. -/
def popFrame (s : Cpu) : Cpu :=
  let s := (popRegs s).drop 16
  let s := (s.pop .rcx).drop 8
  let s := s.pop .r11
  sysretq { s with rsp := (s.mem s.rsp).toNat }

def retFromFork (schedule : Cpu → Cpu) (s : Cpu) : Cpu :=
  let s := s.cli
  popFrame (if s.needResched then schedule s else s)

/-- From `system_call` to the comparison of the number. -/
def enter (s : Cpu) : Cpu :=
  let s := { s with swapgsUserRsp := s.rsp }
  let s := { s with rsp := s.swapgsKernelRsp }
  let s := ((s.push USER_DS).push (.ofNat 64 s.swapgsUserRsp)).push (s.reg .r11)
  let s := ((s.push USER_CS).push (s.reg .rcx)).push 0
  (pushRegs (s.push 0)).sti

def dispatch (table : List (Cpu → Cpu)) (s : Cpu) : Cpu :=
  match table[(s.reg .rax).toNat]? with
  | some f => f (s.set .rcx (s.reg .r10))
  | none => s.set .rax (-ENOSYS)

def systemCall (table : List (Cpu → Cpu)) (schedule : Cpu → Cpu) (s : Cpu) : Cpu :=
  let s := dispatch table (enter s)
  let s := { s with mem := Function.update s.mem s.rsp (s.reg .rax) }
  retFromFork schedule s

variable {s c : Cpu} {schedule : Cpu → Cpu} {table : List (Cpu → Cpu)} {lstar error w : Quad} {r : Regs}

/-! ### Back to user code -/

/-- How user code goes on from a frame: `sysretq` needs two registers for itself. -/
def sysretRegs (r : Regs) : Regs :=
  { r with
    rcx := r.rip
    r11 := r.rflags
    rflags := r.rflags &&& 0x3c7fd7 ||| 2
    cs := USER_CS
    ss := USER_DS }

theorem selectors : STAR >>> 48 + 16 ||| 3 = USER_CS ∧ STAR >>> 48 + 8 ||| 3 = USER_DS ∧
    STAR >>> 32 &&& 0xfffc = KERNEL_CS ∧ (STAR >>> 32 &&& 0xffff) + 8 = KERNEL_DS := by decide

theorem Framed.popFrame (framed : Framed r error c) : (popFrame c).saved = sysretRegs r := by
  obtain ⟨w, stacked⟩ := framed
  obtain ⟨restored, rest⟩ := popRegs_spec stacked
  obtain ⟨-, rest⟩ := Stacked.cons_iff.mp rest
  obtain ⟨-, rest⟩ := Stacked.cons_iff.mp rest
  obtain ⟨rip, rest⟩ := Stacked.cons_iff.mp rest
  obtain ⟨-, rest⟩ := Stacked.cons_iff.mp rest
  obtain ⟨rflags, rest⟩ := Stacked.cons_iff.mp rest
  obtain ⟨rsp, -⟩ := Stacked.cons_iff.mp rest
  rw [Entry.popFrame, restored]
  simp [sysretq, Cpu.saved, Cpu.pop, Cpu.set, Cpu.drop, rip, rflags, rsp, regOf, sysretRegs]
  exact ⟨selectors.1, selectors.2.1⟩

theorem Framed.retFromFork (framed : Framed r error c) (switches : c.needResched → Returns schedule c.cli) :
    (retFromFork schedule c).saved = sysretRegs r := by
  change (Entry.popFrame (if c.needResched then schedule c.cli else c.cli)).saved = sysretRegs r
  have disabled : Framed r error c.cli := framed
  by_cases asked : c.needResched
  · rw [if_pos asked]
    exact ((switches asked).framed disabled).popFrame
  · rw [if_neg asked]
    exact disabled.popFrame

/-! ### Into the kernel -/

/-- The state in which a system call looks for its function. -/
structure Entered (s c : Cpu) : Prop where
  rsp : c.rsp = s.swapgsKernelRsp - 176
  reg : c.reg = Function.update (Function.update s.reg .rcx s.rip) .r11 s.rflags
  framed : Framed { s.saved with rcx := s.rip, r11 := s.rflags, cs := USER_CS, ss := USER_DS } 0 c
  rflags : c.rflags = s.rflags &&& ~~~SFMASK ||| INTERRUPTS

theorem enter_words (lstar : Quad) (room : 176 ≤ s.swapgsKernelRsp) : ∃ mem, enter (syscall lstar s) =
    (pushRegs { s with
      reg := Function.update (Function.update s.reg .rcx s.rip) .r11 s.rflags
      rsp := s.swapgsKernelRsp - 56
      rip := lstar
      cs := KERNEL_CS
      ss := KERNEL_DS
      rflags := s.rflags &&& ~~~SFMASK
      swapgsUserRsp := s.rsp
      mem }).sti ∧
    Stacked mem (s.swapgsKernelRsp - 56) [0, 0, s.rip, USER_CS, s.rflags, .ofNat 64 s.rsp, USER_DS] := by
  have bare : Stacked s.mem s.swapgsKernelRsp [] := .nil
  have pushed := (((bare.push (w := USER_DS) (by omega)).push (w := .ofNat 64 s.rsp) (by omega)).push
    (w := s.rflags) (by omega)).push (w := USER_CS) (by omega)
  have coded := ((pushed.push (w := s.rip) (by omega)).push (w := 0) (by omega)).push (w := 0) (by omega)
  have place : s.swapgsKernelRsp - 8 - 8 - 8 - 8 - 8 - 8 - 8 = s.swapgsKernelRsp - 56 := by omega
  rw [place] at coded
  refine ⟨_, ?_, coded⟩
  rw [← selectors.2.2.1, ← selectors.2.2.2, ← place]
  rfl

theorem enter_spec (lstar : Quad) (room : 176 ≤ s.swapgsKernelRsp) : Entered s (enter (syscall lstar s)) := by
  obtain ⟨mem, entered, words⟩ := enter_words lstar room
  rw [entered]
  generalize from_user : Cpu.mk .. = e
  have rsp : e.rsp = s.swapgsKernelRsp - 56 := by rw [← from_user]
  have reg : e.reg = Function.update (Function.update s.reg .rcx s.rip) .r11 s.rflags := by rw [← from_user]
  have stacked : Stacked e.mem e.rsp [0, 0, s.rip, USER_CS, s.rflags, .ofNat 64 s.rsp, USER_DS] := by
    rw [← from_user]
    exact words
  obtain ⟨mem', saved, all⟩ := pushRegs_spec stacked (by omega)
  rw [reg] at all
  rw [saved]
  constructor
  · exact (congrArg (· - 120) rsp).trans (by omega)
  · exact reg
  · exact ⟨_, all⟩
  · change e.rflags ||| INTERRUPTS = _
    rw [← from_user]

/-! ### The call -/

/-- The state after the call, with its result in the frame. -/
def answered (table : List (Cpu → Cpu)) (c : Cpu) : Cpu :=
  let s := dispatch table c
  { s with mem := Function.update s.mem s.rsp (s.reg .rax) }

theorem Framed.result (framed : Framed r error c) :
    Framed { r with rax := w } error { c with mem := Function.update c.mem c.rsp w } := by
  obtain ⟨v, stacked⟩ := framed
  obtain ⟨-, rest⟩ := Stacked.cons_iff.mp stacked
  refine ⟨v, Stacked.cons_iff.mpr ⟨Function.update_self .., ?_⟩⟩
  exact rest.congr fun i _ => Function.update_of_ne (by omega) ..

/-- Whatever frame a call leaves, user code goes on from it, with the result of the call. -/
theorem systemCall_framed (framed : Framed r error (dispatch table (enter s)))
    (switches : (answered table (enter s)).needResched → Returns schedule (answered table (enter s)).cli) :
    (systemCall table schedule s).saved = sysretRegs { r with rax := (dispatch table (enter s)).reg .rax } :=
  Framed.retFromFork framed.result switches

/-- A system call finds its arguments in the registers of a C call, and user code goes on behind the instruction with
its registers, its stack and its flags, and the result of the call. -/
theorem system_call_transparent (table : List (Cpu → Cpu)) (room : 176 ≤ s.swapgsKernelRsp)
    (switches : (answered table (enter (syscall lstar s))).needResched →
      Returns schedule (answered table (enter (syscall lstar s))).cli) :
    (∀ f, table[(s.reg .rax).toNat]? = some f → ∃ c : Cpu, c.rsp = s.swapgsKernelRsp - 176 ∧
      c.rflags = s.rflags &&& ~~~SFMASK ||| INTERRUPTS ∧
      [Reg.rdi, .rsi, .rdx, .rcx, .r8, .r9].map c.reg = [Reg.rdi, .rsi, .rdx, .r10, .r8, .r9].map s.reg ∧
      (Returns f c → (systemCall table schedule (syscall lstar s)).saved =
        sysretRegs { s.saved with rax := (f c).reg .rax })) ∧
    (table.length ≤ (s.reg .rax).toNat → (systemCall table schedule (syscall lstar s)).saved =
      sysretRegs { s.saved with rax := -ENOSYS }) := by
  have entered := enter_spec lstar room
  have number : (enter (syscall lstar s)).reg .rax = s.reg .rax := by
    rw [entered.reg]
    rfl
  constructor
  · intro f found
    have argument : (enter (syscall lstar s)).reg .r10 = s.reg .r10 := by
      rw [entered.reg]
      rfl
    have called : dispatch table (enter (syscall lstar s)) = f ((enter (syscall lstar s)).set .rcx (s.reg .r10)) := by
      rw [dispatch, number, found, argument]
    refine ⟨(enter (syscall lstar s)).set .rcx (s.reg .r10), entered.rsp, entered.rflags, ?_, fun returns => ?_⟩
    · rw [Cpu.set, entered.reg]
      rfl
    · have left := returns.framed entered.framed
      rw [← called] at left ⊢
      have goes := systemCall_framed left switches
      exact goes
  · intro beyond
    have called : dispatch table (enter (syscall lstar s)) = (enter (syscall lstar s)).set .rax (-ENOSYS) := by
      rw [dispatch, number, List.getElem?_eq_none beyond]
    have left : Framed { s.saved with rcx := s.rip, r11 := s.rflags, cs := USER_CS, ss := USER_DS } 0
        (dispatch table (enter (syscall lstar s))) := by
      rw [called]
      exact entered.framed
    have goes := systemCall_framed left switches
    rw [called] at goes
    exact goes

theorem system_call_transparent_user : (∀ f, (List.replicate 18 id)[(user.reg .rax).toNat]? = some f → ∃ c : Cpu,
      c.rsp = user.swapgsKernelRsp - 176 ∧ c.rflags = user.rflags &&& ~~~SFMASK ||| INTERRUPTS ∧
      [Reg.rdi, .rsi, .rdx, .rcx, .r8, .r9].map c.reg = [Reg.rdi, .rsi, .rdx, .r10, .r8, .r9].map user.reg ∧
      (Returns f c → (systemCall (List.replicate 18 id) id (syscall 0x10000 user)).saved =
        sysretRegs { user.saved with rax := (f c).reg .rax })) ∧
    ((List.replicate 18 (id : Cpu → Cpu)).length ≤ (user.reg .rax).toNat →
      (systemCall (List.replicate 18 id) id (syscall 0x10000 user)).saved =
        sysretRegs { user.saved with rax := -ENOSYS }) :=
  system_call_transparent _ (by decide) fun _ => ⟨rfl, fun _ _ _ => rfl⟩

/-! ### The start of a program -/

def Cpu.taskRegs (s : Cpu) : Nat := s.rsp / PAGE_SIZE * PAGE_SIZE + PAGE_SIZE - 176

def fieldsOf (r : Regs) : List (Nat × Quad) :=
  popped.zipIdx.map (fun p => (p.2, regOf r p.1)) ++
    [(18, r.cs), (21, r.ss), (17, r.rip), (20, r.rsp), (19, r.rflags)]

def storeRegs (r : Regs) (s : Cpu) : Cpu := { s with mem := fill s.mem s.taskRegs (fieldsOf r) }

/-- The state in which a function of the table is called. -/
def calling (lstar : Quad) (s : Cpu) : Cpu := (enter (syscall lstar s)).set .rcx ((enter (syscall lstar s)).reg .r10)

/-- `sys_exec` of a program that is run: `work` goes as far as the assignments, and `kfree` is called after them. -/
def sysExecRuns (work kfree : Cpu → Cpu) (entry : Quad) (s : Cpu) : Cpu :=
  (kfree (storeRegs (startRegs entry) (work s))).set .rax 0

def Cpu.orSub (s : Cpu) : Cpu := { s with rsp := s.rsp / PAGE_SIZE * PAGE_SIZE + (PAGE_SIZE - 1) - (176 - 1) }

def kernelExec (schedule : Cpu → Cpu) (s : Cpu) : Cpu :=
  retFromInterrupt schedule s.orSub

theorem storeRegs_stacked : Stacked (storeRegs r c).mem c.taskRegs
    (frame r (c.mem (c.taskRegs + 8 * 15)) (c.mem (c.taskRegs + 8 * 16))) := by
  intro i inside
  refine (fill_field i).trans ?_
  have last : i < 22 := inside
  interval_cases i <;> rfl

theorem storeRegs_framed {s : Cpu} (mem : s.mem = (storeRegs r c).mem) (rsp : s.rsp = c.taskRegs) :
    Framed r (c.mem (c.taskRegs + 8 * 16)) s := by
  unfold Framed
  rw [mem, rsp]
  exact ⟨c.mem (c.taskRegs + 8 * 15), storeRegs_stacked⟩

/-- A program starts at its entry with the registers of `do_exec_elf`, both in place of the one that has called
`sys_exec` and in a thread of the kernel; `sysretq` leaves the entry and the flags in two registers. -/
theorem program_starts (work kfree : Cpu → Cpu) {entry : Quad} (table : List (Cpu → Cpu))
    (called : table[(s.reg .rax).toNat]? = some (sysExecRuns work kfree entry))
    (stays : (work (calling lstar s)).rsp = (calling lstar s).rsp)
    (frees : Returns kfree (storeRegs (startRegs entry) (work (calling lstar s))))
    (whole : PAGE_SIZE ∣ s.swapgsKernelRsp) (room : 0 < s.swapgsKernelRsp)
    (switches : (answered table (enter (syscall lstar s))).needResched →
      Returns schedule (answered table (enter (syscall lstar s))).cli)
    (switches' : reschedules (storeRegs (startRegs entry) c).orSub = true →
      Returns schedule (storeRegs (startRegs entry) c).orSub) :
    (systemCall table schedule (syscall lstar s)).saved = { startRegs entry with rcx := entry, r11 := 0x202 } ∧
      (kernelExec schedule (storeRegs (startRegs entry) c)).saved = startRegs entry := by
  constructor
  · have entered := enter_spec (s := s) lstar (by simp only [PAGE_SIZE] at whole; omega)
    have number : (enter (syscall lstar s)).reg .rax = s.reg .rax := by
      rw [entered.reg]
      rfl
    have result : dispatch table (enter (syscall lstar s)) =
        (kfree (storeRegs (startRegs entry) (work (calling lstar s)))).set .rax 0 := by
      rw [dispatch, number, called]
      rfl
    have rsp : (calling lstar s).rsp = s.swapgsKernelRsp - 176 := entered.rsp
    generalize work (calling lstar s) = d at stays frees result
    have here : d.rsp = d.taskRegs := by
      have place := stays.trans rsp
      unfold PAGE_SIZE at whole
      unfold Cpu.taskRegs PAGE_SIZE
      omega
    have framed : Framed (startRegs entry) (d.mem (d.taskRegs + 8 * 16)) (dispatch table (enter (syscall lstar s))) := by
      rw [result]
      exact frees.framed (storeRegs_framed rfl here)
    rw [systemCall_framed framed switches, result]
    simp [sysretRegs, startRegs, Cpu.set]
  · have top : (storeRegs (startRegs entry) c).orSub.rsp = c.taskRegs := by
      change c.rsp / PAGE_SIZE * PAGE_SIZE + (PAGE_SIZE - 1) - (176 - 1) = c.taskRegs
      unfold Cpu.taskRegs PAGE_SIZE
      omega
    have framed : Framed (startRegs entry) (c.mem (c.taskRegs + 8 * 16)) (storeRegs (startRegs entry) c).orSub :=
      storeRegs_framed rfl top
    exact framed.resumes switches'

/-- A call that changes a register and uses the stack. -/
def uses (r : Reg) (s : Cpu) : Cpu := { s.set r 7 with mem := Function.update s.mem (s.rsp - 8) 9 }

theorem uses_returns {s : Cpu} (r : Reg) (deep : 8 ≤ s.rsp) : Returns (uses r) s :=
  ⟨rfl, fun _ _ _ => Function.update_of_ne (by omega) ..⟩

theorem program_starts_user :
    let table := List.replicate 18 (sysExecRuns (uses .rbx) (uses .rcx) 0x400000)
    (systemCall table (uses .rdx) (syscall 0x10000 user)).saved =
        { startRegs 0x400000 with rcx := 0x400000, r11 := 0x202 } ∧
      (kernelExec (uses .rdx) (storeRegs (startRegs 0x400000) user)).saved = startRegs 0x400000 := by
  have deep : (answered (List.replicate 18 (sysExecRuns (uses .rbx) (uses .rcx) 0x400000))
      (enter (syscall 0x10000 user))).cli.rsp = 0x20000 - 176 := rfl
  exact program_starts (uses .rbx) (uses .rcx) _ rfl rfl (uses_returns .rcx (by decide)) ⟨32, rfl⟩ (by decide)
    (fun _ => uses_returns .rdx (by rw [deep]; decide)) fun _ => uses_returns .rdx (by decide)

end Landaux.Entry
