import Landaux.Mm.PmmRuns

/-!
# When the frame allocator runs out

`alloc_phys_page` looks at whole words of the bitmap. The frames behind the last whole word are free
memory to `get_free_mem` and are never handed out.
-/

namespace Landaux.Pmm
open Lib Bitmap

def getFreeMem (s : State) : Nat := (s.memsize + 2 ^ 64 - s.memused) % 2 ^ 64

/-- No frame is left: less than a page is free, and every frame of the memory is in use. -/
structure UsedUp (s : State) : Prop where
  free : getFreeMem s < PAGE_SIZE
  frames : ∀ k, k < s.memsize / PAGE_SIZE → s.bitmap.bit k = true

variable {s s' : State} {dirty : Nat}

/-! ### Allocating until nothing is left -/

/-- `memused` counts the frames taken on top of the `dirty` ones that were set before. -/
structure Accounted (dirty : Nat) (s : State) : Prop where
  used : s.memused + PAGE_SIZE * dirty = PAGE_SIZE * s.bitmap.ones s.frames
  early : s.pages = none

theorem allocPhysPage_early (early : s.pages = none) :
    ((∀ k, k < s.frames → s.bitmap.bit k = true) ∧ allocPhysPage s = some (0, s)) ∨
    ∃ k, k < s.frames ∧ s.bitmap.bit k = false ∧
      allocPhysPage s = some (s.firstFrame + k, s.taken k none) := by
  rcases allocPhysPage_cases s with full | ⟨k, inside, off, -, eq⟩
  · exact Or.inl full
  · rw [early] at eq
    exact Or.inr ⟨k, inside, off, eq⟩

theorem Accounted.taken {k : Nat} (accounted : Accounted dirty s) (inside : k < s.frames)
    (off : s.bitmap.bit k = false) : Accounted dirty (s.taken k none) := by
  have more := ones_set inside off (s.taken_bit k none)
  have used := accounted.used
  apply Accounted.mk _ rfl
  show s.memused + PAGE_SIZE + PAGE_SIZE * dirty = PAGE_SIZE * (s.taken k none).bitmap.ones s.frames
  rw [more, Nat.mul_add, ← used]
  omega

theorem markBitmap_accounted {i n : Nat} (accounted : Accounted dirty s)
    (h : markBitmap s i n = some s') :
    Accounted dirty s' ∧ s'.memsize = s.memsize ∧ s'.bitmapSize = s.bitmapSize := by
  induction n generalizing s i with
  | zero =>
    obtain rfl := Option.some.inj h
    exact ⟨accounted, rfl, rfl⟩
  | succ n ih =>
    rw [markBitmap] at h
    rcases allocPhysPage_early accounted.early with ⟨-, eq⟩ | ⟨k, inside, off, eq⟩
    · rw [eq] at h
      dsimp only at h
      split at h
      · cases h
      · exact ih accounted h
    · rw [eq] at h
      dsimp only at h
      split at h
      · cases h
      · have later := ih (accounted.taken inside off) h
        exact later

/-- The bits that `init_pmm` finds set in the words that are scanned. -/
def leftOver (bitmap : Bitmap) (size : Nat) : Nat :=
  (memsetZero bitmap (size / PAGE_SIZE / 8)).ones (64 * (size / PAGE_SIZE / 8 / 8))

theorem initPmm_accounted {bitmap : Bitmap} {physbase size : Nat}
    (boot : initPmm bitmap physbase size = some s) :
    size % PAGE_SIZE = 0 ∧ Accounted (leftOver bitmap size) s ∧ s.memsize = size ∧
      s.bitmapSize = size / PAGE_SIZE / 8 := by
  unfold initPmm at boot
  split at boot
  · cases boot
  split at boot
  · cases boot
  rename_i whole
  exact ⟨not_not.mp whole, markBitmap_accounted ⟨by simp [leftOver, State.frames], rfl⟩ boot⟩

/-- Before `init_mm` the frames can be allocated one after the other until 0 is returned. -/
theorem Accounted.exhaust (accounted : Accounted dirty s) :
    ∃ events t, Run Step s events t ∧ allocPhysPage t = some (0, t) ∧ Accounted dirty t ∧
      t.memsize = s.memsize ∧ t.bitmapSize = s.bitmapSize ∧ t.bitmap.ones t.frames = t.frames := by
  induction left : s.frames - s.bitmap.ones s.frames generalizing s with
  | zero =>
    have most := ones_le s.bitmap s.frames
    rcases allocPhysPage_early accounted.early with ⟨full, eq⟩ | ⟨k, inside, off, -⟩
    · exact ⟨[], s, .nil s, eq, accounted, rfl, rfl, ones_full full⟩
    · have more := ones_set inside off (s.taken_bit k none)
      have := ones_le (s.taken k none).bitmap s.frames
      omega
  | succ rest ih =>
    rcases allocPhysPage_early accounted.early with ⟨full, -⟩ | ⟨k, inside, off, eq⟩
    · rw [ones_full full] at left
      omega
    · have more := ones_set inside off (s.taken_bit k none)
      obtain ⟨events, t, run, last⟩ := ih (accounted.taken inside off) (by
        show s.frames - (s.taken k none).bitmap.ones s.frames = rest
        omega)
      exact ⟨_, t, .cons (.alloc eq) run, last⟩

/-- What `get_free_mem` still reports then: the frames behind the last whole word, and those whose bit
was set before. -/
theorem exhausted {bitmap : Bitmap} {physbase size : Nat} (sized : size < 2 ^ 64)
    (boot : initPmm bitmap physbase size = some s) :
    ∃ events t, Run Step s events t ∧ allocPhysPage t = some (0, t) ∧
      getFreeMem t =
        PAGE_SIZE * (size / PAGE_SIZE - 64 * (size / PAGE_SIZE / 8 / 8) + leftOver bitmap size) := by
  obtain ⟨whole, accounted, memory, bytes⟩ := initPmm_accounted boot
  obtain ⟨events, t, run, zero, accounted', memory', bytes', full⟩ := accounted.exhaust
  refine ⟨events, t, run, zero, ?_⟩
  have most : leftOver bitmap size ≤ 64 * (size / PAGE_SIZE / 8 / 8) := ones_le _ _
  have used := accounted'.used
  rw [full, State.frames, bytes', bytes] at used
  unfold getFreeMem
  rw [memory', memory]
  unfold PAGE_SIZE at *
  omega

/-! ### Memory whose bitmap is whole words and starts clear -/

theorem clear_of_leftOver {bitmap : Bitmap} {size k : Nat} (none : leftOver bitmap size = 0)
    (inside : k < 64 * (size / PAGE_SIZE / 8 / 8))
    (past : 8 * (size / PAGE_SIZE / 8 % 2 ^ 32) ≤ k) : bitmap.bit k = false := by
  have clear := ones_eq_zero.mp none k inside
  rw [memsetZero_bit, decide_eq_true past, Bool.and_true] at clear
  exact clear

/-- Frame 0 is never handed out: where it is a frame of the memory it holds the bitmap. -/
theorem Inv.alloc_zero (inv : Inv s) (h : allocPhysPage s = some (0, s')) :
    ∀ k, k < s.frames → s.bitmap.bit k = true := by
  rcases inv.alloc with ⟨full, -⟩ | ⟨k, pages, inside, off, -, eq, -⟩
  · exact full
  · rw [h] at eq
    have number := (Prod.mk.inj (Option.some.inj eq)).1
    have own : 0 < bitmapFrames s.bitmapSize := by
      unfold State.frames at inside
      unfold bitmapFrames PAGE_SIZE
      omega
    obtain rfl : k = 0 := by omega
    rw [inv.own 0 own] at off
    cases off

theorem Inv.usedUp (inv : Inv s) (words : s.memsize = PAGE_SIZE * s.frames)
    (bytes : s.frames = 8 * s.bitmapSize) (full : ∀ k, k < s.frames → s.bitmap.bit k = true) : UsedUp s := by
  have used := inv.used
  rw [← bytes, ones_full full, ← words] at used
  constructor
  · rw [getFreeMem, used, Nat.add_sub_cancel_left]
    decide
  · intro k inside
    apply full
    rw [words, Nat.mul_div_cancel_left _ (by decide)] at inside
    exact inside

/-- `alloc_phys_page` returns 0 only when all memory is in use, over all allocations and frees, exactly
if the memory is a multiple of 64 frames and the part of the bitmap that `memset` leaves out, its count
being cut to 32 bits, was clear before. -/
theorem no_frame_lost_iff {bitmap : Bitmap} {physbase size : Nat} {s₀ : State}
    (sized : size < 2 ^ 64) (boot : initPmm bitmap physbase size = some s₀) :
    (∀ events s s', Run Step s₀ events s → allocPhysPage s = some (0, s') → UsedUp s) ↔
      64 ∣ size / PAGE_SIZE ∧ ∀ k, 8 * (size / PAGE_SIZE / 8 % 2 ^ 32) ≤ k →
        k < size / PAGE_SIZE → bitmap.bit k = false := by
  obtain ⟨whole, -, -, -⟩ := initPmm_accounted boot
  constructor
  · intro lost
    obtain ⟨events, t, run, zero, free⟩ := exhausted sized boot
    have less := (lost events t t run zero).free
    rw [free] at less
    have frames : size / PAGE_SIZE = 64 * (size / PAGE_SIZE / 8 / 8) := by
      unfold PAGE_SIZE at *
      omega
    have clear : leftOver bitmap size = 0 := by
      unfold PAGE_SIZE at less
      omega
    exact ⟨⟨_, frames⟩, fun k past inside => clear_of_leftOver clear (by omega) past⟩
  · rintro ⟨words, clear⟩ events s s' run zero
    obtain ⟨inv₀, -, memory, bytes⟩ := boot_clean sized (Or.inr words) (fun k below => by
      rw [memsetZero_bit]
      by_cases past : 8 * (size / PAGE_SIZE / 8 % 2 ^ 32) ≤ k
      · rw [clear k past (by omega), Bool.false_and]
      · rw [decide_eq_false past, Bool.and_false]) boot
    have inv : Inv s := run.invariant (P := Inv) (fun _ _ _ inv step => step_inv inv step) inv₀
    obtain ⟨-, memory', bytes'⟩ := run_fixed run inv₀
    have frames : s.frames = size / PAGE_SIZE := by
      rw [State.frames, bytes', bytes]
      omega
    apply inv.usedUp _ _ (inv.alloc_zero zero)
    · rw [memory', memory, frames]
      unfold PAGE_SIZE at *
      omega
    · rw [frames, bytes', bytes]
      omega

/-- With 64 frames nothing is lost. -/
theorem no_frame_lost_iff_64 : ∃ s₀, initPmm (fun _ => 0) 4096 (64 * PAGE_SIZE) = some s₀ ∧
    ∀ events s s', Run Step s₀ events s → allocPhysPage s = some (0, s') → UsedUp s := by
  obtain ⟨marked, boot, -⟩ := initPmm_spec (fun _ => 0) 4096 (64 * PAGE_SIZE) (by decide) (by decide)
    (by decide) (by decide) fun k _ => blank_bit _ k
  refine ⟨_, boot, (no_frame_lost_iff (by decide) boot).mpr ⟨by decide, fun k _ _ => ?_⟩⟩
  simp [bit]

/-- With 72 frames, 0 is returned while 8 of them are free. -/
theorem frames_lost_72 : ∃ s₀ events s, initPmm (fun _ => 0) 4096 (72 * PAGE_SIZE) = some s₀ ∧
    Run Step s₀ events s ∧ allocPhysPage s = some (0, s) ∧ getFreeMem s = 8 * PAGE_SIZE := by
  obtain ⟨marked, boot, -⟩ := initPmm_spec (fun _ => 0) 4096 (72 * PAGE_SIZE) (by decide) (by decide)
    (by decide) (by decide) fun k _ => blank_bit _ k
  obtain ⟨events, t, run, zero, free⟩ := exhausted (by decide) boot
  refine ⟨_, events, t, boot, run, zero, ?_⟩
  have none : leftOver (fun _ => 0) (72 * PAGE_SIZE) = 0 :=
    ones_eq_zero.mpr fun k _ => blank_bit _ k
  rw [free, none]
  decide

end Landaux.Pmm
