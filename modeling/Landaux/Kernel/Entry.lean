import Landaux.Lib.Stack
import Landaux.Mem

/-!
# Interrupts and the way back

`idt.S`: the entries of the vectors and `vec_common`, with what the processor does at an interrupt and at `iretq`,
`init_idt`, and `do_vector`. The handlers are parameters, and so is `schedule`.

The frame on the stack is a `regs_t`. `ret_from_interrupt` compares the word at offset 72 of the frame with
`USER_CS`, and that word is the saved `r10`.
-/

namespace Landaux.Entry
open Lib

inductive Reg where
  | rax | rcx | rdx | rbx | rbp | rsi | rdi | r8 | r9 | r10 | r11 | r12 | r13 | r14 | r15
  deriving DecidableEq

abbrev Quad := BitVec 64

/-- The processor, the memory in words, and the variables of the kernel that `idt.S` reads. Bit 0 of
`globalFlags` is `FLAG_NEED_RESCHED`. -/
structure Cpu where
  reg : Reg → Quad
  rsp : Nat
  rip : Quad
  cs : Quad
  rflags : Quad
  ss : Quad
  mem : Nat → Quad
  rsp0 : Nat
  swapgsKernelRsp : Nat
  swapgsUserRsp : Nat
  globalFlags : Quad
  idle : Nat

def KERNEL_CS : Quad := 0x0008
def KERNEL_DS : Quad := 0x0010

/-- `IF` -/
def INTERRUPTS : Quad := 0x200

namespace Cpu

def push (w : Quad) (s : Cpu) : Cpu := { s with rsp := s.rsp - 8, mem := Function.update s.mem (s.rsp - 8) w }

def set (r : Reg) (w : Quad) (s : Cpu) : Cpu := { s with reg := Function.update s.reg r w }

def pop (r : Reg) (s : Cpu) : Cpu := { s.set r (s.mem s.rsp) with rsp := s.rsp + 8 }

def drop (n : Nat) (s : Cpu) : Cpu := { s with rsp := s.rsp + n }

def sti (s : Cpu) : Cpu := { s with rflags := s.rflags ||| INTERRUPTS }
def cli (s : Cpu) : Cpu := { s with rflags := s.rflags &&& ~~~INTERRUPTS }

def needResched (s : Cpu) : Bool := s.globalFlags.getLsbD 0

end Cpu

def pushed : List Reg := [.r15, .r14, .r13, .r12, .r11, .r10, .r9, .r8, .rdi, .rsi, .rbp, .rbx, .rdx, .rcx, .rax]

def popped : List Reg := [.rax, .rcx, .rdx, .rbx, .rbp, .rsi, .rdi, .r8, .r9, .r10, .r11, .r12, .r13, .r14, .r15]

def pushRegs (s : Cpu) : Cpu := pushed.foldl (fun s r => s.push (s.reg r)) s

def popRegs (s : Cpu) : Cpu := popped.foldl (fun s r => s.pop r) s

/-! ### Gates -/

structure IdtEntry where
  offset0_15 : BitVec 16 := 0
  selector : BitVec 16 := 0
  ist : BitVec 3 := 0
  reserved : BitVec 5 := 0
  trapgate : BitVec 1 := 0
  ones : BitVec 3 := 0
  zero : BitVec 1 := 0
  dpl : BitVec 2 := 0
  present : BitVec 1 := 0
  offset16_31 : BitVec 16 := 0
  offset32_63 : BitVec 32 := 0
  ignore : BitVec 32 := 0

/-- The 16 bytes of an entry as a number, the first field at the low end. -/
def IdtEntry.bytes (e : IdtEntry) : Nat :=
  e.offset0_15.toNat + 2 ^ 16 * e.selector.toNat + 2 ^ 32 * e.ist.toNat + 2 ^ 35 * e.reserved.toNat +
    2 ^ 40 * e.trapgate.toNat + 2 ^ 41 * e.ones.toNat + 2 ^ 44 * e.zero.toNat + 2 ^ 45 * e.dpl.toNat +
    2 ^ 47 * e.present.toNat + 2 ^ 48 * e.offset16_31.toNat + 2 ^ 64 * e.offset32_63.toNat + 2 ^ 96 * e.ignore.toNat

def setupIdtEntry (addr : Quad) (trapgate : BitVec 32) : IdtEntry :=
  { offset0_15 := (addr &&& 0xFFFF).setWidth 16
    offset16_31 := ((addr >>> 16) &&& 0xFFFF).setWidth 16
    offset32_63 := (addr >>> 32).setWidth 32
    selector := KERNEL_CS.setWidth 16
    trapgate := trapgate.setWidth 1
    ones := (~~~(0 : BitVec 8)).setWidth 3
    present := 1 }

def initIdt (start : Quad) (i : Nat) : IdtEntry :=
  if i < 32 then
    let e := setupIdtEntry (start + .ofNat 64 (i * 16)) 1
    if i = 14 then { e with trapgate := 0 } else e
  else setupIdtEntry (start + .ofNat 64 (i * 16)) 0

structure Gate where
  offset : Nat
  selector : Nat
  dpl : Nat
  /-- interrupts stay enabled -/
  trap : Bool
  deriving DecidableEq

/-- An entry that is present and of type 14 or 15, and leaves the choice of the stack to the task state segment. -/
def gate (w : Nat) : Option Gate :=
  if w / 2 ^ 47 % 2 = 1 ∧ (w / 2 ^ 40 % 32 = 14 ∨ w / 2 ^ 40 % 32 = 15) ∧ w / 2 ^ 32 % 8 = 0 then
    some ⟨w % 2 ^ 16 + 2 ^ 16 * (w / 2 ^ 48 % 2 ^ 16) + 2 ^ 32 * (w / 2 ^ 64 % 2 ^ 32), w / 2 ^ 16 % 2 ^ 16,
      w / 2 ^ 45 % 4, w / 2 ^ 40 % 32 = 15⟩
  else none

/-! ### Interrupts -/

/-- The exceptions for which the processor pushes an error code. -/
def pushesError (v : Nat) : Bool := v = 8 ∨ 10 ≤ v ∧ v ≤ 14 ∨ v = 17

/-- What the processor does when it takes a vector: it changes to the stack of the kernel for user code, or to a
boundary of 16 bytes. -/
def raise (v : Nat) (error : Quad) (g : Gate) (s : Cpu) : Cpu :=
  let t := { s with rsp := if s.cs &&& 3 ≠ 0 then s.rsp0 else s.rsp / 16 * 16 }
  let t := ((((t.push s.ss).push (.ofNat 64 s.rsp)).push s.rflags).push s.cs).push s.rip
  let t := if pushesError v then t.push error else t
  { t with
    rip := .ofNat 64 g.offset
    cs := .ofNat 64 g.selector
    rflags := if g.trap then t.rflags else t.rflags &&& ~~~INTERRUPTS }

/-- The vectors whose code is an `EXE`. -/
def exe : List Nat := [8, 10, 11, 12, 13, 14, 17]

/-- `EX(v)` or `EXE(v)` -/
def entry (v : Nat) (s : Cpu) : Cpu :=
  if v ∈ exe then s.push (.ofInt 64 (v - 128)) else (s.push 0).push (.ofInt 64 (v - 128))

/-- The entry at an address: each takes 16 bytes. -/
def entryAt (start addr : Quad) : Option Nat :=
  if (addr - start).toNat < 16 * 256 ∧ (addr - start).toNat % 16 = 0 then some ((addr - start).toNat / 16) else none

def reschedules (s : Cpu) : Bool :=
  s.needResched && (s.mem (s.rsp + 72) = USER_CS || s.rsp / 4096 * 4096 = s.idle)

def iretq (s : Cpu) : Cpu :=
  { s with
    rip := s.mem s.rsp
    cs := s.mem (s.rsp + 8)
    rflags := s.mem (s.rsp + 16)
    rsp := (s.mem (s.rsp + 24)).toNat
    ss := s.mem (s.rsp + 32) }

def retFromInterrupt (schedule : Cpu → Cpu) (s : Cpu) : Cpu :=
  let s := if reschedules s then schedule s else s
  iretq ((popRegs s).drop 16)

def vecCommon (doVector schedule : Cpu → Cpu) (s : Cpu) : Cpu :=
  let s := pushRegs s
  let s := s.set .rdi (.ofNat 64 s.rsp)
  retFromInterrupt schedule (doVector s)

/-- An interrupt or an exception, from the instruction before it to the one after it. -/
def interrupt (start : Quad) (doVector schedule : Cpu → Cpu) (v : Nat) (error : Quad) (s : Cpu) : Option Cpu := do
  let g ← gate (initIdt start v).bytes
  let s := raise v error g s
  let w ← entryAt start s.rip
  return vecCommon doVector schedule (entry w s)

inductive Handler where
  | unknownException
  | pageFault
  | irq (line : Nat)
  deriving DecidableEq

def handlerOf (vector : Quad) : Handler :=
  if vector.toNat < 32 then if vector.toNat = 14 then .pageFault else .unknownException
  else .irq (vector.toNat - 32)

/-- `do_vector`; `handle` are the functions it calls. -/
def doVector (handle : Handler → Cpu → Cpu) (s : Cpu) : Cpu :=
  let place := (s.reg .rdi).toNat + 120
  let s := { s with mem := Function.update s.mem place (s.mem place + 128) }
  handle (handlerOf (s.mem place)) s

/-! ### Registers on the stack -/

variable {s t : Cpu} {ws : List Quad} {rs : List Reg}

theorem pushAll (stacked : Stacked s.mem s.rsp ws) (room : 8 * rs.length ≤ s.rsp) :
    ∃ mem, rs.foldl (fun s r => s.push (s.reg r)) s = { s with rsp := s.rsp - 8 * rs.length, mem } ∧
      Stacked mem (s.rsp - 8 * rs.length) (rs.reverse.map s.reg ++ ws) := by
  induction rs generalizing s ws with
  | nil => exact ⟨s.mem, rfl, stacked⟩
  | cons r rs ih =>
    rw [List.length_cons] at room
    obtain ⟨mem, eq, rest⟩ := ih (s := s.push (s.reg r)) (stacked.push (by omega)) (by simp [Cpu.push]; omega)
    have place : s.rsp - 8 - 8 * rs.length = s.rsp - 8 * (rs.length + 1) := by omega
    refine ⟨mem, ?_, ?_⟩
    · rw [List.foldl_cons, eq]
      simp only [Cpu.push, place, List.length_cons]
    · simp only [Cpu.push, place] at rest
      simpa using rest

theorem popAll {f : Reg → Quad} (stacked : Stacked s.mem s.rsp (rs.map f ++ ws)) (once : rs.Nodup) :
    rs.foldl (fun s r => s.pop r) s =
      { s with reg := fun r => if r ∈ rs then f r else s.reg r, rsp := s.rsp + 8 * rs.length } := by
  induction rs generalizing s with
  | nil => simp
  | cons r rs ih =>
    obtain ⟨top, rest⟩ := Stacked.cons_iff.mp stacked
    obtain ⟨other, once⟩ := List.nodup_cons.mp once
    rw [List.foldl_cons, ih (s := s.pop r) rest once]
    have regs : (fun q => if q ∈ rs then f q else (s.pop r).reg q) =
        fun q => if q ∈ r :: rs then f q else s.reg q := by
      funext q
      by_cases same : q = r
      · subst same
        simp [other, Cpu.pop, Cpu.set, top]
      · simp [same, Cpu.pop, Cpu.set]
    rw [regs]
    simp only [Cpu.pop, Cpu.set, List.length_cons]
    congr 1
    omega

/-! ### The table of the interrupts -/

theorem gate_fields {a b c selector t : Nat} (ha : a < 2 ^ 16) (hb : b < 2 ^ 16) (hc : c < 2 ^ 32)
    (small : selector < 2 ^ 16) (bit : t < 2) :
    gate (a + 2 ^ 16 * selector + 2 ^ 40 * t + 2 ^ 41 * 7 + 2 ^ 47 + 2 ^ 48 * b + 2 ^ 64 * c) =
      some ⟨a + 2 ^ 16 * b + 2 ^ 32 * c, selector, 0, t = 1⟩ := by
  generalize word : a + 2 ^ 16 * selector + 2 ^ 40 * t + 2 ^ 41 * 7 + 2 ^ 47 + 2 ^ 48 * b + 2 ^ 64 * c = w
  have low : w % 2 ^ 16 = a := by omega
  have mid : w / 2 ^ 48 % 2 ^ 16 = b := by omega
  have high : w / 2 ^ 64 % 2 ^ 32 = c := by omega
  have code : w / 2 ^ 16 % 2 ^ 16 = selector := by omega
  have ring : w / 2 ^ 45 % 4 = 0 := by omega
  have type : w / 2 ^ 40 % 32 = 14 + t := by omega
  unfold gate
  rw [if_pos ⟨by omega, by omega, by omega⟩, low, mid, high, code, ring, type]
  exact congrArg (fun b => some (Gate.mk _ _ _ b)) (decide_eq_decide.mpr (by omega))

theorem gate_setup (addr : Quad) (t : BitVec 1) : gate { setupIdtEntry addr 0 with trapgate := t }.bytes =
    some ⟨addr.toNat, KERNEL_CS.toNat, 0, t.toNat = 1⟩ := by
  have small := addr.isLt
  have mask (n : Nat) : n &&& (0xFFFF : Quad).toNat = n % 2 ^ 16 := Nat.and_two_pow_sub_one_eq_mod n 16
  have low : (setupIdtEntry addr 0).offset0_15.toNat = addr.toNat % 2 ^ 16 := by
    rw [setupIdtEntry, BitVec.toNat_setWidth, BitVec.toNat_and, mask, Nat.mod_mod]
  have mid : (setupIdtEntry addr 0).offset16_31.toNat = addr.toNat / 2 ^ 16 % 2 ^ 16 := by
    rw [setupIdtEntry, BitVec.toNat_setWidth, BitVec.toNat_and, mask, BitVec.toNat_ushiftRight,
      Nat.shiftRight_eq_div_pow, Nat.mod_mod]
  have high : (setupIdtEntry addr 0).offset32_63.toNat = addr.toNat / 2 ^ 32 := by
    rw [setupIdtEntry, BitVec.toNat_setWidth, BitVec.toNat_ushiftRight, Nat.shiftRight_eq_div_pow]
    omega
  have selector : KERNEL_CS.toNat < 2 ^ 16 := by decide
  have fields := gate_fields (Nat.mod_lt addr.toNat (by omega)) (Nat.mod_lt (addr.toNat / 2 ^ 16) (by omega))
    (show addr.toNat / 2 ^ 32 < 2 ^ 32 by omega) selector t.isLt
  rw [show addr.toNat % 2 ^ 16 + 2 ^ 16 * (addr.toNat / 2 ^ 16 % 2 ^ 16) + 2 ^ 32 * (addr.toNat / 2 ^ 32) =
    addr.toNat by omega] at fields
  rw [← fields]
  unfold IdtEntry.bytes
  dsimp only
  have ones : (setupIdtEntry addr 0).ones.toNat = 7 := rfl
  have present : (setupIdtEntry addr 0).present.toNat = 1 := rfl
  have code : (setupIdtEntry addr 0).selector.toNat = KERNEL_CS.toNat := rfl
  have ist : (setupIdtEntry addr 0).ist.toNat = 0 := rfl
  have reserved : (setupIdtEntry addr 0).reserved.toNat = 0 := rfl
  have zero : (setupIdtEntry addr 0).zero.toNat = 0 := rfl
  have dpl : (setupIdtEntry addr 0).dpl.toNat = 0 := rfl
  have ignore : (setupIdtEntry addr 0).ignore.toNat = 0 := rfl
  rw [low, mid, high, ones, present, code, ist, reserved, zero, dpl, ignore]
  refine congrArg gate ?_
  omega

variable {start error : Quad} {v : Nat} {handle : Handler → Cpu → Cpu} {schedule : Cpu → Cpu}

theorem gate_initIdt : gate (initIdt start v).bytes =
    some ⟨(start + .ofNat 64 (v * 16)).toNat, KERNEL_CS.toNat, 0, v < 32 ∧ v ≠ 14⟩ := by
  unfold initIdt
  split
  · rename_i exception
    dsimp only
    split
    · exact (gate_setup _ 0).trans (by simp_all)
    · exact (gate_setup _ 1).trans (by simp_all)
  · exact (gate_setup _ 0).trans (by simp_all)

theorem entryAt_entry (inside : v < 256) : entryAt start (start + .ofNat 64 (v * 16)) = some v := by
  have offset : (start + BitVec.ofNat 64 (v * 16) - start).toNat = v * 16 := by
    rw [BitVec.add_comm, BitVec.add_sub_cancel, BitVec.toNat_ofNat]
    omega
  unfold entryAt
  rw [offset, if_pos ⟨by omega, by omega⟩]
  congr 1
  omega

theorem vector_sum : BitVec.ofInt 64 (v - 128) + 128 = .ofNat 64 v := by
  apply BitVec.eq_of_toNat_eq
  rw [BitVec.toNat_add, BitVec.toNat_ofInt]
  simp
  omega

/-- The entries push an error code where the processor does not. -/
theorem mem_exe (inside : v < 256) : v ∈ exe ↔ pushesError v = true := by
  revert inside
  unfold pushesError exe
  simp
  omega

/-! ### From the interrupt to the frame -/

def regOf (r : Regs) : Reg → Quad
  | .rax => r.rax
  | .rcx => r.rcx
  | .rdx => r.rdx
  | .rbx => r.rbx
  | .rbp => r.rbp
  | .rsi => r.rsi
  | .rdi => r.rdi
  | .r8 => r.r8
  | .r9 => r.r9
  | .r10 => r.r10
  | .r11 => r.r11
  | .r12 => r.r12
  | .r13 => r.r13
  | .r14 => r.r14
  | .r15 => r.r15

def frame (r : Regs) (vector error : Quad) : List Quad :=
  popped.map (regOf r) ++ [vector, error, r.rip, r.cs, r.rflags, r.rsp, r.ss]

def Cpu.saved (s : Cpu) : Regs where
  rax := s.reg .rax
  rcx := s.reg .rcx
  rdx := s.reg .rdx
  rbx := s.reg .rbx
  rbp := s.reg .rbp
  rsi := s.reg .rsi
  rdi := s.reg .rdi
  r8 := s.reg .r8
  r9 := s.reg .r9
  r10 := s.reg .r10
  r11 := s.reg .r11
  r12 := s.reg .r12
  r13 := s.reg .r13
  r14 := s.reg .r14
  r15 := s.reg .r15
  rip := s.rip
  cs := s.cs
  rflags := s.rflags
  rsp := .ofNat 64 s.rsp
  ss := s.ss

def Cpu.top (s : Cpu) : Nat := if s.cs &&& 3 ≠ 0 then s.rsp0 else s.rsp / 16 * 16

theorem pushRegs_spec (stacked : Stacked s.mem s.rsp ws) (room : 120 ≤ s.rsp) :
    ∃ mem, pushRegs s = { s with rsp := s.rsp - 120, mem } ∧ Stacked mem (s.rsp - 120) (popped.map s.reg ++ ws) :=
  pushAll stacked room

theorem popRegs_spec {f : Reg → Quad} (stacked : Stacked s.mem s.rsp (popped.map f ++ ws)) :
    popRegs s = { s with reg := f, rsp := s.rsp + 120 } ∧ Stacked s.mem (s.rsp + 120) ws := by
  refine ⟨(popAll stacked (by decide)).trans ?_, (Stacked.append_iff.mp stacked).2⟩
  have all (r : Reg) : r ∈ popped := by cases r <;> decide
  simp only [all, if_true]
  rfl

theorem raise_spec (error : Quad) (g : Gate) (inside : v < 256) (room : 192 ≤ s.top) :
    ∃ mem, entry v (raise v error g s) =
    { s with
      rsp := s.top - 56
      mem
      rip := .ofNat 64 g.offset
      cs := .ofNat 64 g.selector
      rflags := if g.trap then s.rflags else s.rflags &&& ~~~INTERRUPTS } ∧
      Stacked mem (s.top - 56) [.ofInt 64 (v - 128), if pushesError v then error else 0, s.rip, s.cs, s.rflags,
        .ofNat 64 s.rsp, s.ss] := by
  have bare : Stacked s.mem s.top [] := .nil
  have pushed := ((((bare.push (w := s.ss) (by omega)).push (w := .ofNat 64 s.rsp) (by omega)).push
    (w := s.rflags) (by omega)).push (w := s.cs) (by omega)).push (w := s.rip) (by omega)
  have coded := (pushed.push (w := if pushesError v then error else 0) (by omega)).push
    (w := .ofInt 64 (v - 128)) (by omega)
  have place : s.top - 8 - 8 - 8 - 8 - 8 - 8 - 8 = s.top - 56 := by omega
  rw [place] at coded
  refine ⟨_, ?_, coded⟩
  unfold entry raise
  rw [show (if s.cs &&& 3 ≠ 0 then s.rsp0 else s.rsp / 16 * 16) = s.top from rfl]
  by_cases some : pushesError v = true
  · simp only [(mem_exe inside).mpr some, some, if_true, Cpu.push, place]
  · simp only [mt (mem_exe inside).mp some, some, if_false, Bool.false_eq_true, Cpu.push, place]

/-! ### The way back -/

/-- A call that returns: the stack pointer is as before, and so is the frame on the stack, but for the vector. -/
structure Returns (f : Cpu → Cpu) (s : Cpu) : Prop where
  rsp : (f s).rsp = s.rsp
  frame : ∀ i < 22, i ≠ 15 → (f s).mem (s.rsp + 8 * i) = s.mem (s.rsp + 8 * i)

/-- A frame is on the stack, with whatever in its vector. -/
def Framed (r : Regs) (error : Quad) (c : Cpu) : Prop := ∃ w, Stacked c.mem c.rsp (frame r w error)

variable {r : Regs} {c : Cpu}

theorem Returns.framed {f : Cpu → Cpu} (returns : Returns f c) (framed : Framed r error c) : Framed r error (f c) := by
  obtain ⟨w, stacked⟩ := framed
  rw [Framed, returns.rsp]
  exact ⟨_, stacked.replace fun i inside other => returns.frame i inside other⟩

theorem Framed.iretq (framed : Framed r error c) : (iretq ((popRegs c).drop 16)).saved = r := by
  obtain ⟨w, stacked⟩ := framed
  obtain ⟨restored, rest⟩ := popRegs_spec stacked
  obtain ⟨-, rest⟩ := Stacked.cons_iff.mp rest
  obtain ⟨-, rest⟩ := Stacked.cons_iff.mp rest
  obtain ⟨rip, rest⟩ := Stacked.cons_iff.mp rest
  obtain ⟨cs, rest⟩ := Stacked.cons_iff.mp rest
  obtain ⟨rflags, rest⟩ := Stacked.cons_iff.mp rest
  obtain ⟨rsp, rest⟩ := Stacked.cons_iff.mp rest
  obtain ⟨ss, -⟩ := Stacked.cons_iff.mp rest
  rw [restored]
  unfold Entry.iretq Cpu.saved Cpu.drop
  simp only [rip, cs, rflags, rsp, ss, regOf, BitVec.ofNat_toNat, BitVec.setWidth_eq]

theorem Framed.resumes (framed : Framed r error c) (switches : reschedules c = true → Returns schedule c) :
    (retFromInterrupt schedule c).saved = r := by
  unfold retFromInterrupt
  split
  · rename_i asked
    exact ((switches asked).framed framed).iretq
  · exact framed.iretq

/-- The state in which a handler is called. -/
structure Called (s : Cpu) (v : Nat) (error : Quad) (c : Cpu) : Prop where
  rsp : c.rsp = s.top - 176
  stacked : Stacked c.mem c.rsp (frame s.saved (.ofNat 64 v) (if pushesError v then error else 0))
  reg : c.reg = Function.update s.reg .rdi (.ofNat 64 c.rsp)
  rflags : c.rflags = if v < 32 ∧ v ≠ 14 then s.rflags else s.rflags &&& ~~~INTERRUPTS

/-- What `vec_common` has done when it calls `do_vector`. -/
theorem interrupt_calls (start error : Quad) (f schedule : Cpu → Cpu) (inside : v < 256) (room : 192 ≤ s.top) :
    ∃ c : Cpu, c.rsp = s.top - 176 ∧ c.reg = Function.update s.reg .rdi (.ofNat 64 c.rsp) ∧
      Stacked c.mem c.rsp (frame s.saved (.ofInt 64 (v - 128)) (if pushesError v then error else 0)) ∧
      c.rflags = (if v < 32 ∧ v ≠ 14 then s.rflags else s.rflags &&& ~~~INTERRUPTS) ∧
      interrupt start f schedule v error s = some (retFromInterrupt schedule (f c)) := by
  obtain ⟨mem, entered, words⟩ := raise_spec error
    ⟨(start + .ofNat 64 (v * 16)).toNat, KERNEL_CS.toNat, 0, v < 32 ∧ v ≠ 14⟩ inside room
  have there : entryAt start (raise v error ⟨(start + .ofNat 64 (v * 16)).toNat, KERNEL_CS.toNat, 0,
      v < 32 ∧ v ≠ 14⟩ s).rip = some v := by
    change entryAt start (.ofNat 64 (start + .ofNat 64 (v * 16)).toNat) = _
    rw [BitVec.ofNat_toNat, BitVec.setWidth_eq]
    exact entryAt_entry inside
  generalize at_entry : entry v (raise v error _ s) = e at entered
  have stacked : Stacked e.mem e.rsp [.ofInt 64 (v - 128), if pushesError v then error else 0, s.rip, s.cs,
      s.rflags, .ofNat 64 s.rsp, s.ss] := by
    rw [entered]
    exact words
  have rsp : e.rsp = s.top - 56 := by rw [entered]
  have reg : e.reg = s.reg := by rw [entered]
  have rflags : e.rflags = if v < 32 ∧ v ≠ 14 then s.rflags else s.rflags &&& ~~~INTERRUPTS := by
    rw [entered]
    simp
  obtain ⟨mem', saved, all⟩ := pushRegs_spec stacked (by omega)
  refine ⟨(pushRegs e).set .rdi (.ofNat 64 (pushRegs e).rsp), ?_, ?_, ?_, ?_, ?_⟩
  · rw [saved]
    exact (congrArg (· - 120) rsp).trans (by omega)
  · rw [saved]
    simp only [Cpu.set, reg]
  · rw [saved]
    rw [reg] at all
    exact all
  · rw [saved]
    exact rflags
  · rw [interrupt, gate_initIdt]
    change (entryAt start _ >>= fun w => _) = _
    rw [there]
    change some (vecCommon f schedule (entry v _)) = _
    rw [at_entry]
    rfl

/-- The vector that the entry has pushed is right again when a handler is called. -/
theorem doVector_spec (start error : Quad) (handle : Handler → Cpu → Cpu) (schedule : Cpu → Cpu) (inside : v < 256)
    (room : 192 ≤ s.top) (narrow : s.top < 2 ^ 64) :
    ∃ c, Called s v error c ∧ interrupt start (doVector handle) schedule v error s =
      some (retFromInterrupt schedule (handle (handlerOf (.ofNat 64 v)) c)) := by
  obtain ⟨c, rsp, reg, stacked, rflags, runs⟩ := interrupt_calls start error (doVector handle) schedule inside room
  have word : c.mem (c.rsp + 120) = .ofInt 64 (v - 128) := stacked 15 (by simp [frame, popped])
  have place : (c.reg .rdi).toNat = c.rsp := by
    rw [reg, Function.update_self, BitVec.toNat_ofNat]
    omega
  generalize after : Function.update c.mem (c.rsp + 120) (.ofNat 64 v) = mem at runs
  refine ⟨{ c with mem }, ⟨rsp, ?_, reg, rflags⟩, runs.trans ?_⟩
  · have others (i : Nat) (other : i ≠ 15) : mem (c.rsp + 8 * i) = c.mem (c.rsp + 8 * i) := by
      rw [← after]
      exact Function.update_of_ne (by omega) ..
    have top : mem (c.rsp + 8 * 15) = .ofNat 64 v := by
      rw [← after]
      exact Function.update_self ..
    rw [← top]
    exact stacked.replace fun i _ other => others i other
  · unfold doVector
    simp only [place, word, vector_sum, after, Function.update_self]

theorem handlerOf_vector (inside : v < 256) : handlerOf (.ofNat 64 v) =
    if v < 32 then if v = 14 then .pageFault else .unknownException else .irq (v - 32) := by
  have number : (BitVec.ofNat 64 v).toNat = v := by
    rw [BitVec.toNat_ofNat]
    omega
  rw [handlerOf, number]

/-- An interrupt or exception leads to a call of its handler with the frame of the interrupted code, and, where the
handler returns, back to that code with all its registers. -/
theorem interrupt_transparent (handle : Handler → Cpu → Cpu) (inside : v < 256) (room : 192 ≤ s.top)
    (narrow : s.top < 2 ^ 64) :
    ∃ (f : Cpu → Cpu) (c : Cpu), Called s v error c ∧
      f = handle (if v < 32 then if v = 14 then .pageFault else .unknownException else .irq (v - 32)) ∧
      interrupt start (doVector handle) schedule v error s = some (retFromInterrupt schedule (f c)) ∧
      (Returns f c → (reschedules (f c) = true → Returns schedule (f c)) →
        (retFromInterrupt schedule (f c)).saved = s.saved) := by
  obtain ⟨c, called, runs⟩ := doVector_spec start error handle schedule inside room narrow
  rw [handlerOf_vector inside] at runs
  exact ⟨_, c, called, rfl, runs, fun does switches =>
    Framed.resumes (does.framed ⟨_, called.stacked⟩) switches⟩

/-- The saved `r10`, and not the saved `cs`, decides whether the interrupted code is preempted. -/
theorem preempted_iff (inside : v < 256) (room : 192 ≤ s.top) (narrow : s.top < 2 ^ 64)
    (does : ∀ h c, Called s v error c → Returns (handle h) c) :
    ∃ c d : Cpu, Called s v error c ∧ d = handle (handlerOf (.ofNat 64 v)) c ∧
      interrupt start (doVector handle) schedule v error s = some (iretq ((popRegs
        (if d.needResched ∧ (s.reg .r10 = USER_CS ∨ (s.top - 176) / 4096 * 4096 = d.idle) then schedule d
          else d)).drop 16)) := by
  obtain ⟨c, called, runs⟩ := doVector_spec start error handle schedule inside room narrow
  have returns := does (handlerOf (.ofNat 64 v)) c called
  refine ⟨c, _, called, rfl, runs.trans ?_⟩
  generalize handle (handlerOf (.ofNat 64 v)) = f at returns
  have kept : (f c).mem (c.rsp + 72) = c.mem (c.rsp + 72) := returns.frame 9 (by decide) (by decide)
  have word : (f c).mem (c.rsp + 72) = s.reg .r10 := kept.trans (called.stacked 9 (by simp [frame, popped]))
  have decides : reschedules (f c) = true ↔
      (f c).needResched ∧ (s.reg .r10 = USER_CS ∨ (s.top - 176) / 4096 * 4096 = (f c).idle) := by
    rw [reschedules, returns.rsp, word, called.rsp]
    simp
  unfold retFromInterrupt
  simp only [decides]

/-- User code with 5 in all its registers. -/
def user : Cpu where
  reg _ := 5
  rsp := 0x7ffffffff000
  rip := 0x400000
  cs := USER_CS
  rflags := 0x202
  ss := USER_DS
  mem _ := 0
  rsp0 := 0x20000
  swapgsKernelRsp := 0x20000
  swapgsUserRsp := 0
  globalFlags := 1
  idle := 0x30000

theorem interrupt_transparent_user : ∃ (f : Cpu → Cpu) (c : Cpu), Called user 32 0 c ∧ f = id ∧
    interrupt 0x10000 (doVector fun _ => id) id 32 0 user = some (retFromInterrupt id (f c)) ∧
    (Returns f c → (reschedules (f c) = true → Returns id (f c)) →
      (retFromInterrupt id (f c)).saved = user.saved) :=
  interrupt_transparent (fun _ => id) (by decide) (by decide) (by decide)

/-- A tick in user code that has used up its time. -/
theorem preempted_iff_user : ∃ c d : Cpu, Called user 32 0 c ∧ d = c ∧
    interrupt 0x10000 (doVector fun _ => id) id 32 0 user = some (iretq ((popRegs
      (if d.needResched ∧ (user.reg .r10 = USER_CS ∨ (user.top - 176) / 4096 * 4096 = d.idle) then d
        else d)).drop 16)) :=
  preempted_iff (by decide) (by decide) (by decide) fun _ _ _ => ⟨rfl, fun _ _ _ => rfl⟩

end Landaux.Entry
