import Landaux.Mem
import Landaux.Lib.Bytes

/-!
# The kernel heap

`heap.c`: blocks of a four-byte size word followed by the payload, from `HEAP_START` up to
`heap_top`. One turn of each `while (1)` is a definition of its own, so that a run can be observed
between two turns.
-/

namespace Landaux.Heap
open Lib Bytes

/-- The two functions that the heap calls to grow. The frame number returned is 0 on failure. -/
structure PageSource (σ : Type) where
  allocPhysPage : σ → Nat × σ
  mapKernelPage : (frame addr : Nat) → σ → σ

/-- `mem` holds the heap's bytes, those of pages not yet mapped included: a page brings its own
contents when it is mapped. -/
structure State (σ : Type) where
  mem : Bytes
  heapTop : Nat
  phys : σ

/-- `sizeof(node_t)` -/
def NODE : Nat := 4

/-! Bit 0 of a size word: 1 is used, 0 is free. -/

def isUsed (word : Nat) : Bool := word % 2 = 1

/-- `word & ~1` -/
def clearUsed (word : Nat) : Nat := word / 2 * 2

/-- `word | 1` -/
def setUsed (word : Nat) : Nat := word / 2 * 2 + 1

variable {σ : Type} (ps : PageSource σ)

/-- `none` when the first frame cannot be had (`BUG_ON`). -/
def initHeap (mem : Bytes) (phys : σ) : Option (State σ) :=
  let (frame, phys) := ps.allocPhysPage phys
  if frame = 0 then none
  else
    some { mem := store32 mem HEAP_START (PAGE_SIZE - NODE)
           heapTop := HEAP_START + PAGE_SIZE
           phys := ps.mapKernelPage frame HEAP_START phys }

inductive Result where
  | ret (p : Nat)
  | null
  | bug
  deriving DecidableEq, Repr

/-- What one turn of the loop in `kmalloc` does: go on with new locals, or end. -/
inductive Turn (σ : Type) where
  | again (s : State σ) (n : Nat) (lastFreeNode : Option Nat)
  | done (r : Result) (s : State σ)

/-- `size = (size + 7) / 8 * 8` in 32 bits. -/
def alignSize (size : Nat) : Nat := (size + 7) % 2 ^ 32 / 8 * 8

/-- The scan over the free blocks that follow `next`, adding up what merging them would gain. -/
def mergeScan (m : Bytes) (top next increase : Nat) : Nat :=
  let after := next + NODE + load32 m next
  if after < top ∧ isUsed (load32 m after) = false then
    mergeScan m top after ((increase + NODE + load32 m after) % 2 ^ 32)
  else increase
termination_by top - next
decreasing_by simp only [NODE] at *; omega

/-- The branch at the top of the loop: `n` has reached `heap_top`. -/
def growTurn (s : State σ) (n : Nat) (lastFreeNode : Option Nat) : Turn σ :=
  if s.heapTop < n then .done .bug s
  else
    let (frame, phys) := ps.allocPhysPage s.phys
    let frame := frame % 2 ^ 32   -- kept in a `u32`
    if frame = 0 then .done .null { s with phys }
    else
      let top := s.heapTop + PAGE_SIZE
      let phys := ps.mapKernelPage frame s.heapTop phys
      match lastFreeNode with
      | some f => .again ⟨store32 s.mem f (load32 s.mem f + PAGE_SIZE), top, phys⟩ f lastFreeNode
      | none => .again ⟨store32 s.mem n PAGE_SIZE, top, phys⟩ n none

/-- One turn of `while (1)` in `kmalloc`, with `size` already rounded. -/
def kmallocTurn (size : Nat) (s : State σ) (n : Nat) (lastFreeNode : Option Nat) : Turn σ :=
  if s.heapTop ≤ n then growTurn ps s n lastFreeNode
  else if isUsed (load32 s.mem n) then
    .again s (n + NODE + clearUsed (load32 s.mem n)) none
  else if size + NODE ≤ load32 s.mem n then
    let p := n + NODE
    let mem := store32 s.mem (p + size) (load32 s.mem n - size - NODE)
    .done (.ret p) { s with mem := store32 mem n (setUsed size) }
  else
    let increase := mergeScan s.mem s.heapTop n 0
    if increase ≠ 0 then
      .again { s with mem := store32 s.mem n (load32 s.mem n + increase) } n lastFreeNode
    else
      .again s (n + NODE + load32 s.mem n) (some n)

def kmallocLoop (size : Nat) : Nat → State σ → Nat → Option Nat → Option (Result × State σ)
  | 0, _, _, _ => none
  | fuel + 1, s, n, lastFreeNode =>
    match kmallocTurn ps size s n lastFreeNode with
    | .done r s => some (r, s)
    | .again s n lastFreeNode => kmallocLoop size fuel s n lastFreeNode

/-- `kmalloc`; `none` only when the loop has not ended after `fuel` turns. -/
def kmalloc (fuel size : Nat) (s : State σ) : Option (Result × State σ) :=
  kmallocLoop ps (alignSize size) fuel s HEAP_START none

/-- One turn of the merge loop of `kfree`; `none` is its `break`. -/
def kfreeTurn (m : Bytes) (top node : Nat) : Option Bytes :=
  let next := node + NODE + load32 m node
  if next < top ∧ isUsed (load32 m next) = false then
    some (store32 m node (load32 m node + (NODE + load32 m next)))
  else none

def kfreeLoop (top node : Nat) : Nat → Bytes → Option Bytes
  | 0, _ => none
  | fuel + 1, m =>
    match kfreeTurn m top node with
    | none => some m
    | some m => kfreeLoop top node fuel m

/-- What `kfree` does before its loop: check and mark. `none` is `BUG_ON`. -/
def kfreeMark (m : Bytes) (node : Nat) : Option Bytes :=
  if isUsed (load32 m node) then some (store32 m node (clearUsed (load32 m node))) else none

end Landaux.Heap
