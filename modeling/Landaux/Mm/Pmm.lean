import Landaux.Mem
import Landaux.Lib.Bitmap

/-!
# The frame allocator

`pmm.c`, and `init_mm` of `mm.c`, which adds the page counts. Sums of frame numbers and byte counts
stay far below 2^64 and are natural numbers; the two places where the source narrows a value to 32
bits, the count of `memset` and the frame compared in `init_pmm`, are kept.
-/

namespace Landaux.Pmm
open Lib

/-- The array `pages[0..len)` of page counts. -/
structure Pages where
  len : Nat
  count : Nat → Int

structure State where
  bitmap : Bitmap
  firstFrame : Nat
  bitmapSize : Nat
  memsize : Nat
  memused : Nat
  pages : Option Pages

/-- The first loop of `alloc_phys_page`: the first word that is not `-1UL`, or `limit`. -/
def wordScan (bitmap : Bitmap) (limit i : Nat) : Nat :=
  if i < limit then
    if bitmap i ≠ BitVec.allOnes 64 then i else wordScan bitmap limit (i + 1)
  else i
termination_by limit - i

/-- The second loop, with `bit` as `1 << bit_offs`: it is 0 once 64 bits have been shifted out. -/
def bitScan (word : BitVec 64) (bitOffs : Nat) : Nat :=
  if word &&& (1#64 <<< bitOffs) ≠ 0 then bitScan word (bitOffs + 1) else bitOffs
termination_by 64 - bitOffs
decreasing_by
  rename_i set
  by_contra past
  exact set (by rw [BitVec.shiftLeft_eq_zero (by omega), BitVec.and_zero]; rfl)

def Pages.set (p : Pages) (frame : Nat) (count : Int) : Pages :=
  { p with count := fun f => if f = frame then count else p.count f }

/-- The page count kept for a frame being allocated. `none` is `BUG_ON(page->count > 0)`, or an
access past the array. -/
def takePage (frame : Nat) : Option Pages → Option (Option Pages)
  | none => some none
  | some p => if frame < p.len ∧ p.count frame ≤ 0 then some (some (p.set frame 1)) else none

/-- The frame allocated, 0 when there is none; `none` is a `BUG_ON`. -/
def allocPhysPage (s : State) : Option (Nat × State) :=
  let limit := s.bitmapSize / 8
  let i := wordScan s.bitmap limit 0
  if i = limit then some (0, s)
  else
    let bitOffs := bitScan (s.bitmap i) 0
    let frame := s.firstFrame + i * 64 + bitOffs
    match takePage frame s.pages with
    | none => none
    | some pages =>
      some (frame, { s with
        bitmap := s.bitmap.orAt i (1#64 <<< bitOffs)
        memused := s.memused + PAGE_SIZE
        pages := pages })

/-- `none` is a `BUG_ON`, or the use of `pages` before `init_mm`. -/
def freePhysPage (s : State) (origFrame : Nat) : Option State :=
  let frame := (origFrame + 2 ^ 64 - s.firstFrame) % 2 ^ 64
  if s.bitmapSize ≤ frame / 8 then none
  else
    let i := frame / 64
    let bit := 1#64 <<< (frame % 64)
    if s.bitmap i &&& bit = 0 then none
    else
      match s.pages with
      | none => none
      | some p =>
        if origFrame < p.len ∧ p.count origFrame = 1 then
          some { s with
            bitmap := s.bitmap.clearAt i bit
            memused := s.memused - PAGE_SIZE
            pages := some (p.set origFrame 0) }
        else none

/-- `memset(bitmap, 0, count)`, byte by byte; `count` is a `u32`. -/
def memsetZero (bitmap : Bitmap) (count : Nat) : Bitmap := fun i =>
  let bits := min 64 (8 * (count % 2 ^ 32 - 8 * i))
  bitmap i >>> bits <<< bits

/-- The frames that hold the bitmap: `ROUND_PAGE_UP(bitmap_size) >> PAGE_SHIFT`. -/
def bitmapFrames (bitmapSize : Nat) : Nat := (bitmapSize + PAGE_SIZE - 1) / PAGE_SIZE

/-- The loop of `init_pmm`, `n` turns from `i` on. The frame is compared as a `u32`. -/
def markBitmap (s : State) (i : Nat) : Nat → Option State
  | 0 => some s
  | n + 1 =>
    match allocPhysPage s with
    | none => none
    | some (frame, s) =>
      if frame % 2 ^ 32 ≠ s.firstFrame + i then none else markBitmap s (i + 1) n

/-- `init_pmm` over whatever bytes lie at `physbase`; `none` is a `BUG_ON`. -/
def initPmm (bitmap : Bitmap) (physbase size : Nat) : Option State :=
  if physbase % PAGE_SIZE ≠ 0 then none
  else if size % PAGE_SIZE ≠ 0 then none
  else
    let bitmapSize := size / PAGE_SIZE / 8
    markBitmap
      { bitmap := memsetZero bitmap bitmapSize
        firstFrame := physbase / PAGE_SIZE
        bitmapSize := bitmapSize
        memsize := size
        memused := 0
        pages := none } 0 (bitmapFrames bitmapSize)

/-- `init_mm`, once `kmalloc` has returned the array. -/
def initMm (s : State) (size : Nat) : State :=
  { s with pages := some { len := size / PAGE_SIZE, count := fun _ => 0 } }

end Landaux.Pmm
