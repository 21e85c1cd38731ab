import Mathlib.Tactic

/-!
# Memory layout

The constants of `include/mem.h`, and the ways in which the kernel can stop.
-/

namespace Landaux

def PAGE_SHIFT : Nat := 12
def PAGE_SIZE : Nat := 4096
def MEM_BOTTOM_HALF : Nat := 0x0000800000000000
def MEMORY_BASE : Nat := 0xffffff0000000000
def HEAP_START : Nat := 0xfffffe0000000000

/-- `ROUND_PAGE_DOWN` on a value that does not wrap. -/
def roundPageDown (x : Nat) : Nat := x / PAGE_SIZE * PAGE_SIZE

/-- `ROUND_PAGE_UP` on a value that does not wrap. -/
def roundPageUp (x : Nat) : Nat := roundPageDown (x + PAGE_SIZE - 1)

/-- The addresses whose upper 17 bits agree: the others have no translation. -/
def Canonical (address : Nat) : Prop :=
  address < 2 ^ 47 ∨ 2 ^ 64 - 2 ^ 47 ≤ address ∧ address < 2 ^ 64

def USER_CS : BitVec 64 := 0x33
def USER_DS : BitVec 64 := 0x2b

/-- `regs_t`, the registers of user code as its system call or fault saved them, less the two words
that only interrupts use. -/
structure Regs where
  rax : BitVec 64
  rcx : BitVec 64
  rdx : BitVec 64
  rbx : BitVec 64
  rbp : BitVec 64
  rsi : BitVec 64
  rdi : BitVec 64
  r8 : BitVec 64
  r9 : BitVec 64
  r10 : BitVec 64
  r11 : BitVec 64
  r12 : BitVec 64
  r13 : BitVec 64
  r14 : BitVec 64
  r15 : BitVec 64
  rip : BitVec 64
  cs : BitVec 64
  rflags : BitVec 64
  rsp : BitVec 64
  ss : BitVec 64
  deriving DecidableEq

/-- `BUG_ON` and uses of NULL, told apart by what they are about. -/
inductive Stop where
  /-- a check of `page->count`, or an access past `pages` -/
  | count
  /-- a failed allocation of a page -/
  | noMemory
  /-- `mm_add_area` met an area with the same start -/
  | area
  /-- process 1 exits, or the process numbers are used up -/
  | pid
  /-- a store to the page at address 0, where nothing is mapped -/
  | null
  /-- `map_page` on an address that is mapped or not page aligned -/
  | mapping
  deriving DecidableEq

end Landaux
