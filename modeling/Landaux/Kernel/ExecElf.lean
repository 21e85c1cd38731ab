import Landaux.Mm.Vma

/-!
# Loading an executable

`do_exec_elf` of `process.c`. What the file system and the allocator answer while one file is loaded
is given by an `ElfSource`; the code itself only reads the fields of `Ehdr` and `Phdr`. Values that
the source narrows to 32 bits are narrowed here.
-/

namespace Landaux
open Lib

structure Ehdr where
  ident : Nat → UInt8
  type : BitVec 16
  machine : BitVec 16
  version : BitVec 32
  entry : BitVec 64
  phoff : BitVec 64
  phnum : BitVec 16

structure Phdr where
  type : BitVec 32
  flags : BitVec 32
  offset : BitVec 64
  vaddr : BitVec 64
  filesz : BitVec 64
  memsz : BitVec 64

def isErr (val : Int) : Bool := decide (-4095 ≤ val ∧ val < 0)

abbrev Errno := { err : Int // isErr err = true }

structure ElfSource where
  /-- what `vfs_open` returns -/
  file : Except Errno FileId
  ehdr : Int × Ehdr
  /-- what `vfs_lseek` to an offset returns -/
  seek : Nat → Int
  /-- what `vfs_read` of a program header at an offset returns -/
  phdr : Nat → Int × Phdr
  /-- whether the `n`-th `kzalloc` in `mm_add_area` succeeds -/
  alloc : Nat → Bool

def EHDR_SIZE : Nat := 64
def PHDR_SIZE : Nat := 56

def PT_NULL : BitVec 32 := 0
def PT_LOAD : BitVec 32 := 1
def PT_NOTE : BitVec 32 := 4
def PT_GNU_STACK : BitVec 32 := 0x6474e551

def PF_X : BitVec 32 := 1
def PF_W : BitVec 32 := 2
def PF_R : BitVec 32 := 4

def ET_EXEC : BitVec 16 := 2
def EM_X86_64 : BitVec 16 := 62
def EV_CURRENT : BitVec 32 := 1
def STACK_START : Nat := MEM_BOTTOM_HALF
def STACK_SIZE : Nat := PAGE_SIZE

/-- The pointers of `memcmp` are never advanced: it compares the first bytes `count` times. -/
def memcmp (dest src : Nat → UInt8) : Nat → Int
  | 0 => 0
  | count + 1 =>
    let c := (dest 0).toInt8.toInt - (src 0).toInt8.toInt
    if c ≠ 0 then c else memcmp dest src count

def elfMagic (i : Nat) : UInt8 := [0x7f, 0x45, 0x4c, 0x46].getD i 0

def Ehdr.accepted (h : Ehdr) : Bool :=
  memcmp h.ident elfMagic 4 == 0 && h.ident 4 == 2 && h.ident 5 == 1 && h.ident 6 == 1 &&
    h.type == ET_EXEC && h.machine == EM_X86_64 && h.version == EV_CURRENT && h.phoff != 0

def elfFlagsToMmapProt (flags : BitVec 32) : BitVec 32 :=
  (if flags &&& PF_R ≠ 0 then PROT_READ else 0) |||
    (if flags &&& PF_W ≠ 0 then PROT_WRITE else 0) |||
    (if flags &&& PF_X ≠ 0 then PROT_EXEC else 0)

/-- A pointer, or an error as `ERR_PTR` makes it, stored in an `int`. -/
def toInt32 (pointer : Int) : Int := (BitVec.ofInt 32 pointer).toInt

/-- The areas made so far, the saved registers of the caller, the calls of `kzalloc` made for the areas,
and how often the file has been passed to `vfs_close`. -/
structure Loading where
  areas : List Area
  regs : Regs
  allocs : Nat
  closed : Nat

def Loading.close (s : Loading) : Loading := { s with closed := s.closed + 1 }

/-- `do_mmap` with `MAP_PRIVATE | MAP_FIXED`. -/
def doMmap (src : ElfSource) (file : Option FileId) (offset vaddr len : Nat) (prot : BitVec 32)
    (s : Loading) : Except Stop (Int × Loading) := do
  let (ret, areas) ← mmAddArea (src.alloc s.allocs) vaddr len prot file offset s.areas
  let s := { s with areas := areas, allocs := s.allocs + 1 }
  if ret < 0 then return (ret, s) else return (vaddr, s)

def roundPageUp32 (x : Nat) : Nat := (x + PAGE_SIZE - 1) % 2 ^ 32 / PAGE_SIZE * PAGE_SIZE

/-- The case `PT_LOAD`; a return of `do_exec_elf` is given by its value. -/
def loadSegment (src : ElfSource) (f : FileId) (h : Phdr) (s : Loading) :
    Except Stop (Option Int × Loading) :=
  if h.filesz.toNat > h.memsz.toNat then .ok (some (-ENOEXEC), s.close)
  else
    let offsetInPage := h.offset.toNat % PAGE_SIZE
    if h.vaddr.toNat % PAGE_SIZE ≠ offsetInPage then .ok (some (-ENOEXEC), s.close)
    else
      let fileOffset := (h.offset.toNat - offsetInPage) % 2 ^ 32
      let virtAddr := h.vaddr.toNat - offsetInPage
      let readSize := (h.filesz.toNat + offsetInPage) % 2 ^ 32
      let memSize := (h.memsz.toNat + offsetInPage) % 2 ^ 32
      if virtAddr > MEM_BOTTOM_HALF then .ok (some (-ENOEXEC), s)
      else do
        let prot := elfFlagsToMmapProt h.flags
        let (ret, s) ← doMmap src (some f) fileOffset virtAddr readSize prot s
        if isErr (toInt32 ret) then return (some (toInt32 ret), s)
        if memSize > roundPageUp32 readSize then
          let (_, s) ← doMmap src none 0 (virtAddr + roundPageUp32 readSize)
            (memSize - roundPageUp32 readSize) prot s
          -- The test is `IS_ERR(...) < 0`, which no value passes.
          return (none, s)
        return (none, s)

/-- The loop over the program headers, `n` turns from `i` on: the stack flags at its end, or the
value that `do_exec_elf` returns from within it. -/
def loadSegments (src : ElfSource) (f : FileId) (phoff : Nat) :
    Nat → Nat → BitVec 32 → Loading → Except Stop (Except Int (BitVec 32) × Loading)
  | 0, _, stackFlags, s => .ok (.ok stackFlags, s)
  | n + 1, i, stackFlags, s =>
    let at' := (phoff + i * PHDR_SIZE) % 2 ^ 32
    if src.seek at' < 0 then .ok (.error (src.seek at'), s.close)
    else
      let (ret, h) := src.phdr at'
      if ret < 0 then .ok (.error ret, s.close)
      else if ret ≠ PHDR_SIZE then .ok (.error (-ENOEXEC), s.close)
      else if h.type = PT_NULL ∨ h.type = PT_NOTE then
        loadSegments src f phoff n (i + 1) stackFlags s
      else if h.type = PT_LOAD then do
        match ← loadSegment src f h s with
        | (some ret, s) => return (.error ret, s)
        | (none, s) => loadSegments src f phoff n (i + 1) stackFlags s
      else if h.type = PT_GNU_STACK then loadSegments src f phoff n (i + 1) h.flags s
      else .ok (.error (-ENOEXEC), s.close)

def startRegs (entry : BitVec 64) : Regs where
  rax := 0
  rcx := 0
  rdx := 0
  rbx := 0
  rbp := 0
  rsi := 0
  rdi := 0
  r8 := 0
  r9 := 0
  r10 := 0
  r11 := 0
  r12 := 0
  r13 := 0
  r14 := 0
  r15 := 0
  rip := entry
  cs := USER_CS
  rflags := 1 <<< 9 ||| 1 <<< 1
  rsp := BitVec.ofNat 64 STACK_START
  ss := USER_DS

/-- The value returned, and the areas and registers afterwards. -/
def doExecElf (src : ElfSource) (areas : List Area) (regs : Regs) : Except Stop (Int × Loading) :=
  let s : Loading := ⟨areas, regs, 0, 0⟩
  match src.file with
  | .error err => .ok (err.val, s)
  | .ok f =>
    let (ret, ehdr) := src.ehdr
    if ret < 0 then .ok (ret, s.close)
    else if ret ≠ EHDR_SIZE then .ok (-ENOEXEC, s.close)
    else if !ehdr.accepted then .ok (-ENOEXEC, s.close)
    else do
      match ← loadSegments src f ehdr.phoff.toNat ehdr.phnum.toNat 0 (PF_R ||| PF_W ||| PF_X) s with
      | (.error ret, s) => return (ret, s)
      | (.ok stackFlags, s) =>
        let (ret, s) ← doMmap src none 0 (STACK_START - STACK_SIZE) STACK_SIZE
          (elfFlagsToMmapProt stackFlags) s.close
        if isErr (toInt32 ret) then return (toInt32 ret, s)
        return (0, { s with regs := startRegs ehdr.entry })

/-! ### The areas of a loaded file -/

variable {src : ElfSource} {f : FileId} {s : Loading}

theorem doMmap_areas {file : Option FileId} {offset vaddr len : Nat} {prot : BitVec 32}
    (ok : AreasOk s.areas) (aligned : vaddr % PAGE_SIZE = 0) (low : vaddr + len ≤ 2 ^ 48) :
    Ends (doMmap src file offset vaddr len prot s) (fun r => AreasOk r.2.areas)
      (fun e => e = .area) := by
  unfold doMmap
  refine Ends.bind (mmAddArea_spec ok aligned low) ?_
  rintro ⟨ret, areas⟩ ok
  dsimp only
  split <;> exact ok

theorem roundPageUp32_spec (x : Nat) :
    roundPageUp32 x % PAGE_SIZE = 0 ∧ roundPageUp32 x < 2 ^ 32 := by
  simp only [roundPageUp32, PAGE_SIZE]
  omega

theorem loadSegment_areas {h : Phdr} (ok : AreasOk s.areas) :
    Ends (loadSegment src f h s) (fun r => AreasOk r.2.areas) (fun e => e = .area) := by
  unfold loadSegment
  by_cases sizes : h.filesz.toNat > h.memsz.toNat
  · rw [if_pos sizes]
    exact ok
  rw [if_neg sizes]
  dsimp only
  by_cases offsets : h.vaddr.toNat % PAGE_SIZE ≠ h.offset.toNat % PAGE_SIZE
  · rw [if_pos offsets]
    exact ok
  rw [if_neg offsets]
  by_cases high : h.vaddr.toNat - h.offset.toNat % PAGE_SIZE > MEM_BOTTOM_HALF
  · rw [if_pos high]
    exact ok
  rw [if_neg high]
  have aligned : (h.vaddr.toNat - h.offset.toNat % PAGE_SIZE) % PAGE_SIZE = 0 := by
    simp only [PAGE_SIZE] at offsets ⊢
    omega
  have low : h.vaddr.toNat - h.offset.toNat % PAGE_SIZE ≤ 2 ^ 47 := by
    simp only [MEM_BOTTOM_HALF] at high
    omega
  generalize h.vaddr.toNat - h.offset.toNat % PAGE_SIZE = virtAddr at aligned low ⊢
  have narrow : ∀ n, n % 2 ^ 32 < 2 ^ 32 := fun n => Nat.mod_lt n (by decide)
  have readLow := narrow (h.filesz.toNat + h.offset.toNat % PAGE_SIZE)
  have memLow := narrow (h.memsz.toNat + h.offset.toNat % PAGE_SIZE)
  generalize (h.filesz.toNat + h.offset.toNat % PAGE_SIZE) % 2 ^ 32 = readSize at readLow ⊢
  generalize (h.memsz.toNat + h.offset.toNat % PAGE_SIZE) % 2 ^ 32 = memSize at memLow ⊢
  obtain ⟨rounded, short⟩ := roundPageUp32_spec readSize
  refine Ends.bind (doMmap_areas ok aligned (by omega)) ?_
  rintro ⟨ret, s₁⟩ ok
  dsimp only at ok ⊢
  by_cases err : isErr (toInt32 ret) = true
  · rw [if_pos err]
    exact ok
  rw [if_neg err]
  by_cases more : memSize > roundPageUp32 readSize
  · rw [if_pos more]
    refine Ends.bind (doMmap_areas ok ?_ (by omega)) fun r ok => ok
    rw [Nat.add_mod, aligned, rounded]
    rfl
  · rw [if_neg more]
    exact ok

theorem loadSegments_areas {phoff : Nat} (n : Nat) : ∀ i stackFlags s, AreasOk s.areas →
    Ends (loadSegments src f phoff n i stackFlags s) (fun r => AreasOk r.2.areas)
      (fun e => e = .area) := by
  induction n with
  | zero => exact fun _ _ _ ok => ok
  | succ n ih =>
    intro i stackFlags s ok
    rw [loadSegments]
    dsimp only
    split
    · exact ok
    split
    · exact ok
    split
    · exact ok
    split
    · exact ih _ _ _ ok
    split
    · refine Ends.bind (loadSegment_areas ok) ?_
      rintro ⟨ret | ret, s₁⟩ ok
      · exact ih _ _ _ ok
      · exact ok
    split
    · exact ih _ _ _ ok
    · exact ok

theorem doExecElf_areas {areas : List Area} {regs : Regs} (ok : AreasOk areas) :
    Ends (doExecElf src areas regs) (fun r => AreasOk r.2.areas) (fun e => e = .area) := by
  unfold doExecElf
  cases src.file with
  | error err => exact ok
  | ok f =>
    dsimp only
    split
    · exact ok
    split
    · exact ok
    split
    · exact ok
    refine Ends.bind (loadSegments_areas _ _ _ _ ok) ?_
    rintro ⟨ret | flags, s₁⟩ ok
    · exact ok
    · refine Ends.bind (doMmap_areas ok (by decide) (by decide)) ?_
      rintro ⟨ret, s₂⟩ ok
      dsimp only
      split <;> exact ok

end Landaux
