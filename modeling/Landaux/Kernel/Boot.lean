import Landaux.Kernel.Calls

/-!
# The first process

What `kernel_start` and `run_init` leave behind when process 1 comes to user mode: it runs on the
directory of the kernel, and since `init_mm` only its task page and frames of the heap have been
allocated.
-/

namespace Landaux
open Lib Radix

/-- `map_memory` refuses more than a gigabyte, and the image with the directory `static` lies below
the memory that `init_pmm` is given. -/
structure Booted (static : Nat) (s : State) : Prop where
  memory : ∃ (bitmap : Bitmap) (physbase size total : Nat) (s₀ : Pmm.State) (early late : List Nat),
    0 < physbase ∧ physbase + size ≤ 2 ^ 30 ∧ static < physbase / PAGE_SIZE ∧
      Pmm.initPmm bitmap physbase size = some s₀ ∧
      Run Pmm.Step s₀ (early.map .alloc ++ .initMm total :: late.map .alloc) s.pmm ∧
      0 ∉ late ∧ late.Perm (s.current.page :: s.heap)
  program : ∃ src regs loading, doExecElf src [] regs = .ok (0, loading) ∧
    s.current.areas = loading.areas ∧ s.current.regs = loading.regs
  pid : s.current.pid = 1
  dir : s.current.pageDir = static
  lower : ∀ i, i < 256 → Pte.present (s.ram static i) = false
  alone : s.others = []
  next : s.nextFreePid = 2
  tlb : s.tlb = fun _ => none

variable {static : Nat} {s : State}

theorem Booted.unused (h : Booted static s) : ∀ i, i < pageTables.width 3 →
    pageTables.next (s.ram s.current.pageDir i) = none := fun i inside => by
  rw [width_top] at inside
  rw [h.dir]
  exact next_eq_none.mpr (h.lower i inside)

theorem Booted.tables (h : Booted static s) : s.current.tables s.ram = {static} := by
  rw [Task.tables, tables_unused h.unused, h.dir]

theorem Booted.leaves (h : Booted static s) : s.current.leaves s.ram = 0 := leaves_unused h.unused

theorem Booted.holds (h : Booted static s) : Holds static 0 s := by
  obtain ⟨bitmap, physbase, size, total, s₀, early, late, positive, small, below, boot, run, nonzero,
    perm⟩ := h.memory
  obtain ⟨inv₀, base, memory⟩ := Pmm.boot_spec positive (by omega) boot
  obtain ⟨mid, first, second⟩ := run.split
  have invMid : Pmm.Inv mid :=
    first.invariant (P := Pmm.Inv) (fun _ _ _ inv step => Pmm.step_inv inv step) inv₀
  have fixed := Pmm.run_fixed first inv₀
  cases second with
  | @cons _ opened _ _ _ step rest =>
  have invOpened := Pmm.step_inv invMid step
  have fixed' := Pmm.step_fixed invMid step
  have fixed'' := Pmm.run_fixed rest invOpened
  have inv : Pmm.Inv s.pmm :=
    rest.invariant (P := Pmm.Inv) (fun _ _ _ inv step => Pmm.step_inv inv step) invOpened
  have firstFrame : s.pmm.firstFrame = physbase / PAGE_SIZE := by
    rw [fixed''.1, fixed'.1, fixed.1, base]
  have memsize : s.pmm.memsize = size := by
    rw [fixed''.2.1, fixed'.2.1, fixed.2.1, memory]
  obtain ⟨p, pages, zero⟩ : ∃ p, opened.pages = some p ∧ ∀ f, p.count f = 0 := by
    cases step with
    | initMm => exact ⟨_, rfl, fun _ => rfl⟩
  obtain ⟨once, free, q, last, counts⟩ := Pmm.allocs_count rest invOpened pages nonzero
  have cnt : ∀ f, s.cnt f = late.count f := fun f => by
    rw [State.cnt_eq last, counts, zero, zero_add]
  have tables := h.tables
  have leaves := h.leaves
  have owned : s.owned = static ::ₘ late := by
    rw [owned_eq, tables, h.alone, Multiset.coe_eq_coe.mpr perm]
    simp [ownedBy]
  have mapped : s.mapped = 0 := by
    rw [mapped_eq, leaves, h.alone, frames_zero]
    rfl
  have tasks : s.tasks = [s.current] := by
    unfold State.tasks
    rw [h.alone]
  have notLate : static ∉ late := fun member => by
    have ge := (free static member).2
    rw [← fixed''.1, firstFrame] at ge
    omega
  refine ⟨⟨inv, by rw [last]; rfl, ?_, ?_, fun f => ?_⟩, firstFrame ▸ below, ?_, fun f => ?_, ?_, ?_, ?_,
    ?_, ?_⟩
  · have page : 0 < PAGE_SIZE := by decide
    omega
  · have fits := inv.memory
    rw [memsize] at fits
    rw [firstFrame]
    unfold PAGE_SIZE at *
    omega
  · rw [cnt]
    exact Int.natCast_nonneg _
  · rw [zero_add, owned, Multiset.nodup_cons]
    exact ⟨notLate, once⟩
  · rw [cnt, zero_add, owned, mapped, Multiset.count_zero, Multiset.count_cons, Multiset.coe_count]
    push_cast
    ring
  · rw [mapped]
    exact Multiset.disjoint_left.mpr fun {u} _ none => absurd none (Multiset.notMem_zero u)
  · exact ⟨s.current, Holds.current_mem, h.dir⟩
  · rw [tasks]
    intro t member _
    rw [List.mem_singleton.mp member]
    exact h.pid
  · rw [tasks]
    intro t member v e leaf
    rw [List.mem_singleton.mp member, leaves] at leaf
    exact absurd leaf (Multiset.notMem_zero _)
  · rw [tasks]
    intro t member
    obtain ⟨src, regs, loading, load, areas, -⟩ := h.program
    rw [List.mem_singleton.mp member, areas]
    exact (doExecElf_areas fun _ member => absurd member List.not_mem_nil).of_ok load

/-! ### A machine with 64 frames -/

theorem pmm_64 : ∃ s₀ s, Pmm.initPmm (fun _ => 0) 4096 (2 ^ 18) = some s₀ ∧
    Run Pmm.Step s₀ [.initMm (2 ^ 19), .alloc 2] s ∧ s.room = 62 := by
  obtain ⟨marked, boot, bits⟩ := Pmm.initPmm_spec (fun _ => 0) 4096 (2 ^ 18) (by decide) (by decide)
    (by decide) (by decide) fun k _ => Pmm.blank_bit _ k
  simp only [Pmm.blank_bit, Bool.false_or] at bits
  change ∀ k, marked.bit k = decide (k < 1) at bits
  change Pmm.initPmm _ _ _ = some ⟨marked, 1, 8, 2 ^ 18, PAGE_SIZE * 1, none⟩ at boot
  obtain ⟨s₀, start⟩ : ∃ s₀ : Pmm.State, s₀ = ⟨marked, 1, 8, 2 ^ 18, PAGE_SIZE * 1, none⟩ := ⟨_, rfl⟩
  rw [← start] at boot
  have inv := Pmm.boot_inv (by decide) (by decide) boot
  have base : s₀.firstFrame = 1 := by rw [start]
  have frames : s₀.frames = 64 := by simp [start, Pmm.State.frames]
  have bytes : s₀.bitmapSize = 8 := by rw [start]
  have covers : s₀.firstFrame * PAGE_SIZE + s₀.memsize ≤ 2 ^ 19 := by
    rw [start]
    change 1 * PAGE_SIZE + 2 ^ 18 ≤ 2 ^ 19
    decide
  have fresh : s₀.pages = none := by rw [start]
  have bits : ∀ k, s₀.bitmap.bit k = decide (k < 1) := by rwa [start]
  have opened := Pmm.initMm_inv inv covers
  obtain ⟨pages, second, -⟩ := opened.alloc_lowest (k := 1) (by change 1 < s₀.frames; omega) (bits 1)
    (fun j below => (bits j).trans (decide_eq_true below))
  have number : (Pmm.initMm s₀ (2 ^ 19)).firstFrame + 1 = 2 := by
    change s₀.firstFrame + 1 = 2
    rw [base]
  rw [number] at second
  refine ⟨s₀, _, boot, .cons (.initMm fresh covers (by decide)) (.single (.alloc second)), ?_⟩
  have ends : ∀ k, k < 8 * s₀.bitmapSize →
      ((Pmm.initMm s₀ (2 ^ 19)).taken 1 pages).bitmap.bit k = decide (k < 2) := by
    intro k _
    rw [Pmm.State.taken_bit]
    change (s₀.bitmap.bit k || _) = _
    rw [bits, ← Bool.decide_or]
    exact decide_eq_decide.mpr (by omega)
  change s₀.frames - Bitmap.ones _ (8 * s₀.bitmapSize) = 62
  rw [Bitmap.ones_eq (by omega) ends, frames]

def bareProgram : ElfSource where
  file := .ok 1
  ehdr := (EHDR_SIZE, {
    ident := fun i => [0x7f, 0x45, 0x4c, 0x46, 2, 1, 1].getD i 0
    type := ET_EXEC
    machine := EM_X86_64
    version := EV_CURRENT
    entry := 0x400000
    phoff := 64
    phnum := 0 })
  seek offset := offset
  phdr _ := (0, ⟨0, 0, 0, 0, 0, 0⟩)
  alloc _ := true

def stackArea : Area := ⟨STACK_START - STACK_SIZE, STACK_START, 7, none, 0⟩

theorem bareProgram_loads (regs : Regs) : doExecElf bareProgram [] regs =
    .ok (0, ⟨[stackArea], startRegs 0x400000, 1, 1⟩) := rfl

/-- `src` is the first program on a machine with 64 frames. -/
theorem booted_program {src : ElfSource} {regs : Regs} {loading : Loading}
    (load : doExecElf src [] regs = .ok (0, loading)) :
    ∃ s, Booted 0 s ∧ s.current.areas = loading.areas ∧ s.room = 62 := by
  obtain ⟨s₀, s, boot, run, room⟩ := pmm_64
  refine ⟨⟨s, fun _ _ => 0, ⟨1, 2, 0, loading.areas, loading.regs⟩, [], 2, [], fun _ => none⟩, ?_,
    rfl, room⟩
  exact {
    memory := ⟨fun _ => 0, 4096, 2 ^ 18, 2 ^ 19, s₀, [], [2], by decide, by decide, by decide, boot, run,
      by decide, List.Perm.refl _⟩
    program := ⟨src, regs, loading, load, rfl, rfl⟩
    pid := rfl
    dir := rfl
    lower := fun _ _ => Pte.present_zero
    alone := rfl
    next := rfl
    tlb := rfl }

theorem booted_64 : ∃ s, Booted 0 s ∧ s.current.areas = [stackArea] ∧ s.room = 62 :=
  booted_program (bareProgram_loads (startRegs 0))

end Landaux
