import Landaux.Mm.PmmSpec
import Landaux.Lib.Machine

/-!
# Runs of the frame allocator

A run starts where `init_pmm` ends. Frames are allocated at any time, `init_mm` runs once with a
memory size that covers what `init_pmm` was given (`kernel_start` passes the size of all memory),
and afterwards counted frames change their counts and are freed at count 1.
-/

namespace Landaux.Pmm
open Lib Bitmap

inductive Event where
  | alloc (frame : Nat)
  | initMm (size : Nat)
  | free (frame : Nat)
  | setCount (frame : Nat) (count : Int)

inductive Step : State → Event → State → Prop where
  | alloc {s s' : State} {frame : Nat} (h : allocPhysPage s = some (frame, s')) :
      Step s (.alloc frame) s'
  -- The array is `kmalloc(size * sizeof(page_t))` with a `u32` size.
  | initMm {s : State} {size : Nat} (once : s.pages = none)
      (covers : s.firstFrame * PAGE_SIZE + s.memsize ≤ size) (array : size / PAGE_SIZE * 4 < 2 ^ 32) :
      Step s (.initMm size) (initMm s size)
  | free {s s' : State} {p : Pages} {frame : Nat} (pages : s.pages = some p) (inside : frame < p.len)
      (last : p.count frame = 1) (h : freePhysPage s frame = some s') : Step s (.free frame) s'
  | setCount {s : State} {p : Pages} {frame : Nat} {count : Int} (pages : s.pages = some p)
      (inside : frame < p.len) (before : 0 < p.count frame) (after : 0 < count) :
      Step s (.setCount frame count) { s with pages := some (p.set frame count) }

/-! ### The invariant -/

structure PagesOk (s : State) (p : Pages) : Prop where
  covers : s.firstFrame + s.frames ≤ p.len
  clear : ∀ k, k < s.frames → s.bitmap.bit k = false → p.count (s.firstFrame + k) = 0
  bitmap : ∀ k, k < bitmapFrames s.bitmapSize → p.count (s.firstFrame + k) = 0
  outside : ∀ f, f < s.firstFrame ∨ s.firstFrame + s.frames ≤ f → p.count f = 0

structure Inv (s : State) : Prop where
  small : 8 * s.bitmapSize < 2 ^ 64
  memory : s.frames * PAGE_SIZE ≤ s.memsize
  room : bitmapFrames s.bitmapSize ≤ s.frames
  used : s.memused = PAGE_SIZE * s.bitmap.ones (8 * s.bitmapSize)
  tail : ∀ k, s.frames ≤ k → k < 8 * s.bitmapSize → s.bitmap.bit k = false
  own : ∀ k, k < bitmapFrames s.bitmapSize → s.bitmap.bit k = true
  pages : ∀ p, s.pages = some p → PagesOk s p

theorem State.frames_le (s : State) : s.frames ≤ 8 * s.bitmapSize := by
  unfold frames
  omega

variable {s s' : State}

/-- A counted frame is a frame of the bitmap whose bit is set and that does not hold the bitmap. -/
theorem Inv.counted {p : Pages} {frame : Nat} (inv : Inv s) (pages : s.pages = some p)
    (count : p.count frame ≠ 0) :
    ∃ k, frame = s.firstFrame + k ∧ k < s.frames ∧ s.bitmap.bit k = true ∧
      bitmapFrames s.bitmapSize ≤ k := by
  have ok := inv.pages p pages
  have inside : s.firstFrame ≤ frame ∧ frame < s.firstFrame + s.frames := by
    by_contra out
    exact count (ok.outside frame (by omega))
  obtain ⟨k, rfl⟩ := Nat.exists_eq_add_of_le inside.1
  refine ⟨k, rfl, by omega, ?_, ?_⟩
  · by_contra off
    exact count (ok.clear k (by omega) (by simpa using off))
  · by_contra own
    exact count (ok.bitmap k (by omega))

theorem takePage_ok {k : Nat} (inv : Inv s) (inside : k < s.frames) (off : s.bitmap.bit k = false) :
    ∃ pages, takePage (s.firstFrame + k) s.pages = some pages ∧
      (s.pages = none ∧ pages = none ∨
        ∃ p, s.pages = some p ∧ pages = some (p.set (s.firstFrame + k) 1)) := by
  cases pages : s.pages with
  | none => exact ⟨none, rfl, Or.inl ⟨rfl, rfl⟩⟩
  | some p =>
    have ok := inv.pages p pages
    have covers := ok.covers
    refine ⟨some (p.set (s.firstFrame + k) 1), ?_, Or.inr ⟨p, rfl, rfl⟩⟩
    unfold takePage
    dsimp only
    rw [if_pos ⟨by omega, by rw [ok.clear k inside off]⟩]

/-- What an allocation is in a state of the invariant: no `BUG_ON`, and 0 or the lowest free frame. -/
theorem Inv.alloc (inv : Inv s) :
    ((∀ k, k < s.frames → s.bitmap.bit k = true) ∧ allocPhysPage s = some (0, s)) ∨
    ∃ k pages, k < s.frames ∧ s.bitmap.bit k = false ∧ (∀ j, j < k → s.bitmap.bit j = true) ∧
      allocPhysPage s = some (s.firstFrame + k, s.taken k pages) ∧
      (s.pages = none ∧ pages = none ∨
        ∃ p, s.pages = some p ∧ pages = some (p.set (s.firstFrame + k) 1)) := by
  rcases allocPhysPage_cases s with full | ⟨k, inside, off, before, eq⟩
  · exact Or.inl full
  · obtain ⟨pages, take, shape⟩ := takePage_ok inv inside off
    rw [take] at eq
    exact Or.inr ⟨k, pages, inside, off, before, eq, shape⟩

theorem Inv.alloc_lowest {k : Nat} (inv : Inv s) (inside : k < s.frames)
    (off : s.bitmap.bit k = false) (before : ∀ j, j < k → s.bitmap.bit j = true) :
    ∃ pages, allocPhysPage s = some (s.firstFrame + k, s.taken k pages) ∧
      (s.pages = none ∧ pages = none ∨
        ∃ p, s.pages = some p ∧ pages = some (p.set (s.firstFrame + k) 1)) := by
  rcases inv.alloc with ⟨full, -⟩ | ⟨j, pages, -, off', before', eq, shape⟩
  · simp [full k inside] at off
  · obtain rfl : j = k := by
      by_contra different
      rcases Nat.lt_or_gt_of_ne different with below | above
      · simp [before j below] at off'
      · simp [before' k above] at off
    exact ⟨pages, eq, shape⟩

theorem taken_inv {k : Nat} {pages : Option Pages} (inv : Inv s) (inside : k < s.frames)
    (off : s.bitmap.bit k = false)
    (shape : s.pages = none ∧ pages = none ∨
      ∃ p, s.pages = some p ∧ pages = some (p.set (s.firstFrame + k) 1)) :
    Inv (s.taken k pages) := by
  have bits := s.taken_bit k pages
  have fresh : bitmapFrames s.bitmapSize ≤ k := by
    by_contra own
    simp [inv.own k (by omega)] at off
  refine ⟨inv.small, inv.memory, inv.room, ?_, ?_, ?_, ?_⟩
  · have := ones_set (Nat.lt_of_lt_of_le inside s.frames_le) off bits
    change s.memused + PAGE_SIZE = PAGE_SIZE * (s.taken k pages).bitmap.ones (8 * s.bitmapSize)
    rw [this, inv.used]
    ring
  · intro j low high
    change s.frames ≤ j at low
    rw [bits, inv.tail j low high]
    simp
    omega
  · intro j own
    rw [bits, inv.own j own]
    rfl
  · intro p eq
    rcases shape with ⟨-, rfl⟩ | ⟨q, before, rfl⟩
    · cases eq
    · obtain rfl := Option.some.inj eq
      have ok := inv.pages q before
      refine ⟨ok.covers, ?_, ?_, ?_⟩
      · intro j low clear
        rw [bits] at clear
        have different : j ≠ k := by rintro rfl; simp at clear
        have clear : s.bitmap.bit j = false := by simpa [different] using clear
        change (if s.firstFrame + j = s.firstFrame + k then 1 else q.count (s.firstFrame + j)) = 0
        rw [if_neg (by omega), ok.clear j low clear]
      · intro j own
        change j < bitmapFrames s.bitmapSize at own
        change (if s.firstFrame + j = s.firstFrame + k then 1 else q.count (s.firstFrame + j)) = 0
        rw [if_neg (by omega), ok.bitmap j own]
      · intro f out
        change f < s.firstFrame ∨ s.firstFrame + s.frames ≤ f at out
        change (if f = s.firstFrame + k then 1 else q.count f) = 0
        rw [if_neg (by omega), ok.outside f out]

theorem given_inv {p : Pages} {k : Nat} (inv : Inv s) (pages : s.pages = some p)
    (inside : k < s.frames) (on : s.bitmap.bit k = true) (notOwn : bitmapFrames s.bitmapSize ≤ k) :
    Inv (s.given k (some (p.set (s.firstFrame + k) 0))) := by
  generalize result : some (p.set (s.firstFrame + k) 0) = pages'
  have bits := s.given_bit k pages'
  have ok := inv.pages p pages
  refine ⟨inv.small, inv.memory, inv.room, ?_, ?_, ?_, ?_⟩
  · have := ones_clear (Nat.lt_of_lt_of_le inside s.frames_le) on bits
    change s.memused - PAGE_SIZE = PAGE_SIZE * (s.given k pages').bitmap.ones (8 * s.bitmapSize)
    rw [inv.used, ← this, Nat.mul_add, Nat.mul_one, Nat.add_sub_cancel]
  · intro j low high
    rw [bits, inv.tail j low high]
    rfl
  · intro j own
    change j < bitmapFrames s.bitmapSize at own
    rw [bits, inv.own j own]
    simp
    omega
  · intro q eq
    change pages' = some q at eq
    rw [← result] at eq
    obtain rfl := Option.some.inj eq
    refine ⟨ok.covers, ?_, ?_, ?_⟩
    · intro j low clear
      change (if s.firstFrame + j = s.firstFrame + k then 0 else p.count (s.firstFrame + j)) = 0
      by_cases same : j = k
      · rw [if_pos (by omega)]
      · rw [bits] at clear
        rw [if_neg (by omega)]
        exact ok.clear j low (by simpa [same] using clear)
    · intro j own
      change (if s.firstFrame + j = s.firstFrame + k then 0 else p.count (s.firstFrame + j)) = 0
      split
      · rfl
      · exact ok.bitmap j own
    · intro f out
      change (if f = s.firstFrame + k then 0 else p.count f) = 0
      split
      · rfl
      · exact ok.outside f out

theorem initMm_inv {size : Nat} (inv : Inv s) (covers : s.firstFrame * PAGE_SIZE + s.memsize ≤ size) :
    Inv (initMm s size) := by
  refine ⟨inv.small, inv.memory, inv.room, inv.used, inv.tail, inv.own, ?_⟩
  intro p eq
  obtain rfl := Option.some.inj eq
  refine ⟨?_, fun _ _ _ => rfl, fun _ _ => rfl, fun _ _ => rfl⟩
  have memory := inv.memory
  change s.firstFrame + s.frames ≤ size / PAGE_SIZE
  unfold PAGE_SIZE at *
  omega

theorem setCount_inv {p : Pages} {frame : Nat} (count : Int) (inv : Inv s) (pages : s.pages = some p)
    (before : 0 < p.count frame) : Inv { s with pages := some (p.set frame count) } := by
  obtain ⟨k, rfl, inside, on, notOwn⟩ := inv.counted pages (show p.count frame ≠ 0 by omega)
  have ok := inv.pages p pages
  refine ⟨inv.small, inv.memory, inv.room, inv.used, inv.tail, inv.own, ?_⟩
  intro q eq
  obtain rfl := Option.some.inj eq
  refine ⟨ok.covers, ?_, ?_, ?_⟩
  · intro j low clear
    change s.bitmap.bit j = false at clear
    change (if s.firstFrame + j = s.firstFrame + k then count else p.count (s.firstFrame + j)) = 0
    rw [if_neg (fun same => ?_)]
    · exact ok.clear j low clear
    · obtain rfl : j = k := by omega
      simp [on] at clear
  · intro j own
    change j < bitmapFrames s.bitmapSize at own
    change (if s.firstFrame + j = s.firstFrame + k then count else p.count (s.firstFrame + j)) = 0
    rw [if_neg (by omega), ok.bitmap j own]
  · intro f out
    change f < s.firstFrame ∨ s.firstFrame + s.frames ≤ f at out
    change (if f = s.firstFrame + k then count else p.count f) = 0
    rw [if_neg (by omega), ok.outside f out]

/-- A frame whose count is 1 can be freed. -/
theorem Inv.free {p : Pages} {frame : Nat} (inv : Inv s) (pages : s.pages = some p)
    (last : p.count frame = 1) :
    ∃ k, frame = s.firstFrame + k ∧ k < s.frames ∧ s.bitmap.bit k = true ∧
      bitmapFrames s.bitmapSize ≤ k ∧
      freePhysPage s frame = some (s.given k (some (p.set frame 0))) := by
  obtain ⟨k, rfl, inside, on, notOwn⟩ := inv.counted pages (show p.count frame ≠ 0 by omega)
  have covers := (inv.pages p pages).covers
  have le := s.frames_le
  exact ⟨k, rfl, inside, on, notOwn,
    freePhysPage_eq (by omega) inv.small on pages (by omega) last⟩

theorem step_inv {e : Event} (inv : Inv s) (h : Step s e s') : Inv s' := by
  cases h with
  | alloc h =>
    rcases inv.alloc with ⟨-, eq⟩ | ⟨k, pages, inside, off, -, eq, shape⟩
    · rw [h] at eq
      obtain ⟨rfl, rfl⟩ := Prod.mk.inj (Option.some.inj eq)
      exact inv
    · rw [h] at eq
      obtain ⟨rfl, rfl⟩ := Prod.mk.inj (Option.some.inj eq)
      exact taken_inv inv inside off shape
  | initMm _ covers _ => exact initMm_inv inv covers
  | free pages _ last h =>
    obtain ⟨k, rfl, inside, on, notOwn, eq⟩ := inv.free pages last
    rw [h] at eq
    obtain rfl := Option.some.inj eq
    exact given_inv inv pages inside on notOwn
  | setCount pages _ before _ => exact setCount_inv _ inv pages before

/-- Where `memset` leaves the bits below the end of memory clear, the bitmap ends with its own frames
marked. -/
theorem boot_bits {bitmap : Bitmap} {physbase size : Nat} {s : State}
    (positive : 0 < physbase ∨ 64 ∣ size / PAGE_SIZE)
    (empty : ∀ k, k < 8 * (size / PAGE_SIZE / 8) →
      (memsetZero bitmap (size / PAGE_SIZE / 8)).bit k = false)
    (boot : initPmm bitmap physbase size = some s) :
    ∃ marked : Bitmap, s = ⟨marked, physbase / PAGE_SIZE, size / PAGE_SIZE / 8, size,
        PAGE_SIZE * bitmapFrames (size / PAGE_SIZE / 8), none⟩ ∧
      bitmapFrames (size / PAGE_SIZE / 8) ≤ 64 * (size / PAGE_SIZE / 8 / 8) ∧
      ∀ k, k < 8 * (size / PAGE_SIZE / 8) →
        marked.bit k = decide (k < bitmapFrames (size / PAGE_SIZE / 8)) := by
  have opened := boot
  unfold initPmm at opened
  split at opened
  · cases opened
  rename_i base
  split at opened
  · cases opened
  rename_i whole
  dsimp only at opened
  have bounds : bitmapFrames (size / PAGE_SIZE / 8) = 0 ∨
      bitmapFrames (size / PAGE_SIZE / 8) ≤ 64 * (size / PAGE_SIZE / 8 / 8) ∧
        physbase / PAGE_SIZE + bitmapFrames (size / PAGE_SIZE / 8) ≤ 2 ^ 32 := by
    by_cases none : size / PAGE_SIZE / 8 = 0
    · exact Or.inl (by rw [none]; rfl)
    · have found := markBitmap_bounds opened
        (by
          simp only [State.frames]
          unfold PAGE_SIZE at *
          omega)
        (by simp) (fun k _ below => empty k (by simp only [State.frames] at below; omega)) rfl
      simpa [State.frames] using found
  have room : bitmapFrames (size / PAGE_SIZE / 8) ≤ 64 * (size / PAGE_SIZE / 8 / 8) := by omega
  obtain ⟨marked, eq, bits⟩ : ∃ marked : Bitmap, initPmm bitmap physbase size = some
        ⟨marked, physbase / PAGE_SIZE, size / PAGE_SIZE / 8, size,
          PAGE_SIZE * bitmapFrames (size / PAGE_SIZE / 8), none⟩ ∧
      ∀ k, marked.bit k = ((memsetZero bitmap (size / PAGE_SIZE / 8)).bit k ||
        decide (k < bitmapFrames (size / PAGE_SIZE / 8))) := by
    rcases bounds with zero | ⟨-, fits⟩
    · rw [zero] at opened
      refine ⟨_, by rw [boot, ← Option.some.inj opened, zero]; rfl, fun k => ?_⟩
      rw [zero, decide_eq_false (Nat.not_lt_zero k), Bool.or_false]
    · exact initPmm_spec bitmap physbase size (by omega) (by omega) room fits fun k below => empty k (by omega)
  rw [boot] at eq
  obtain rfl := Option.some.inj eq
  refine ⟨marked, rfl, room, fun k below => ?_⟩
  rw [bits, empty k below, Bool.false_or]

theorem boot_clean {bitmap : Bitmap} {physbase size : Nat} {s : State} (sized : size < 2 ^ 64)
    (positive : 0 < physbase ∨ 64 ∣ size / PAGE_SIZE)
    (empty : ∀ k, k < 8 * (size / PAGE_SIZE / 8) →
      (memsetZero bitmap (size / PAGE_SIZE / 8)).bit k = false)
    (boot : initPmm bitmap physbase size = some s) :
    Inv s ∧ s.firstFrame = physbase / PAGE_SIZE ∧ s.memsize = size ∧
      s.bitmapSize = size / PAGE_SIZE / 8 := by
  obtain ⟨marked, rfl, room, ends⟩ := boot_bits positive empty boot
  have memory : 64 * (size / PAGE_SIZE / 8 / 8) * PAGE_SIZE ≤ size := by
    unfold PAGE_SIZE
    omega
  have small : 8 * (size / PAGE_SIZE / 8) < 2 ^ 64 := by
    unfold PAGE_SIZE
    omega
  generalize size / PAGE_SIZE / 8 = bytes at *
  refine ⟨⟨small, memory, room, ?_, ?_, ?_, ?_⟩, rfl, rfl, rfl⟩
  · change PAGE_SIZE * bitmapFrames bytes = PAGE_SIZE * marked.ones (8 * bytes)
    rw [ones_eq (by omega) ends]
  · intro k low high
    change 64 * (bytes / 8) ≤ k at low
    exact (ends k high).trans (decide_eq_false (by omega))
  · intro k own
    change k < bitmapFrames bytes at own
    exact (ends k (by omega)).trans (decide_eq_true own)
  · intro p eq
    cases eq

/-- Below 2^47 bytes of memory the length of the bitmap fits the count of `memset`. -/
theorem memset_empty {size : Nat} (sized : size < 2 ^ 47) (bitmap : Bitmap) (k : Nat)
    (below : k < 8 * (size / PAGE_SIZE / 8)) : (memsetZero bitmap (size / PAGE_SIZE / 8)).bit k = false := by
  have narrow : size / PAGE_SIZE / 8 < 2 ^ 32 := by
    unfold PAGE_SIZE
    omega
  rw [memsetZero_bit, Nat.mod_eq_of_lt narrow, decide_eq_false (by omega), Bool.and_false]

theorem boot_spec {bitmap : Bitmap} {physbase size : Nat} {s : State} (positive : 0 < physbase)
    (sized : size < 2 ^ 47) (boot : initPmm bitmap physbase size = some s) :
    Inv s ∧ s.firstFrame = physbase / PAGE_SIZE ∧ s.memsize = size := by
  obtain ⟨inv, base, memory, -⟩ := boot_clean (by omega) (Or.inl positive) (memset_empty sized bitmap) boot
  exact ⟨inv, base, memory⟩

theorem boot_inv {bitmap : Bitmap} {physbase size : Nat} {s : State} (positive : 0 < physbase)
    (sized : size < 2 ^ 47) (boot : initPmm bitmap physbase size = some s) : Inv s :=
  (boot_spec positive sized boot).1

theorem run_inv {bitmap : Bitmap} {physbase size : Nat} {s₀ s : State} {events : List Event}
    (positive : 0 < physbase) (sized : size < 2 ^ 47)
    (boot : initPmm bitmap physbase size = some s₀) (run : Run Step s₀ events s) : Inv s :=
  run.invariant (P := Inv) (fun _ _ _ inv step => step_inv inv step) (boot_inv positive sized boot)

/-! ### Where the frames are, and what allocations count -/

theorem step_fixed {e : Event} (inv : Inv s) (h : Step s e s') :
    s'.firstFrame = s.firstFrame ∧ s'.memsize = s.memsize ∧ s'.bitmapSize = s.bitmapSize := by
  cases h with
  | alloc h =>
    rcases inv.alloc with ⟨-, eq⟩ | ⟨k, pages, -, -, -, eq, -⟩
    · rw [h] at eq
      obtain ⟨-, rfl⟩ := Prod.mk.inj (Option.some.inj eq)
      exact ⟨rfl, rfl, rfl⟩
    · rw [h] at eq
      obtain ⟨-, rfl⟩ := Prod.mk.inj (Option.some.inj eq)
      exact ⟨rfl, rfl, rfl⟩
  | initMm => exact ⟨rfl, rfl, rfl⟩
  | free pages _ last h =>
    obtain ⟨k, -, -, -, -, eq⟩ := inv.free pages last
    rw [h] at eq
    obtain rfl := Option.some.inj eq
    exact ⟨rfl, rfl, rfl⟩
  | setCount => exact ⟨rfl, rfl, rfl⟩

theorem run_fixed {events : List Event} (run : Run Step s events s') (inv : Inv s) :
    s'.firstFrame = s.firstFrame ∧ s'.memsize = s.memsize ∧ s'.bitmapSize = s.bitmapSize := by
  induction run with
  | nil => exact ⟨rfl, rfl, rfl⟩
  | cons first _ ih =>
    obtain ⟨base, memory, bytes⟩ := step_fixed inv first
    obtain ⟨base', memory', bytes'⟩ := ih (step_inv inv first)
    exact ⟨base'.trans base, memory'.trans memory, bytes'.trans bytes⟩

/-- After `init_mm`, frames allocated in a row are counted once each. -/
theorem allocs_count {frames : List Nat} (run : Run Step s (frames.map .alloc) s') (inv : Inv s)
    {p : Pages} (pages : s.pages = some p) (nonzero : 0 ∉ frames) :
    frames.Nodup ∧ (∀ f ∈ frames, p.count f = 0 ∧ s.firstFrame ≤ f) ∧
      ∃ q, s'.pages = some q ∧ ∀ f, q.count f = p.count f + frames.count f := by
  induction frames generalizing s p with
  | nil =>
    cases run
    exact ⟨List.nodup_nil, by simp, p, pages, by simp⟩
  | cons frame frames ih =>
    cases run with
    | @cons _ mid _ _ _ first rest =>
    have inv' := step_inv inv first
    cases first with
    | alloc h =>
    rcases inv.alloc with ⟨-, eq⟩ | ⟨k, pages', inside, off, -, eq, shape⟩
    · rw [h] at eq
      obtain ⟨rfl, -⟩ := Prod.mk.inj (Option.some.inj eq)
      simp at nonzero
    rw [h] at eq
    obtain ⟨rfl, rfl⟩ := Prod.mk.inj (Option.some.inj eq)
    obtain rfl : pages' = some (p.set (s.firstFrame + k) 1) := by
      rcases shape with ⟨none, -⟩ | ⟨q, some, rfl⟩
      · rw [pages] at none
        cases none
      · rw [pages] at some
        rw [Option.some.inj some]
    have clear := (inv.pages p pages).clear k inside off
    have set : ∀ f, (p.set (s.firstFrame + k) 1).count f =
        if f = s.firstFrame + k then 1 else p.count f := fun _ => rfl
    obtain ⟨once, free, q, last, counts⟩ := ih rest inv' rfl fun member =>
      nonzero (List.mem_cons_of_mem _ member)
    have later : s.firstFrame + k ∉ frames := fun member => by
      have zero := (free _ member).1
      rw [set, if_pos rfl] at zero
      cases zero
    refine ⟨List.nodup_cons.mpr ⟨later, once⟩, ?_, q, last, fun f => ?_⟩
    · intro f member
      rcases List.mem_cons.mp member with rfl | member
      · exact ⟨clear, Nat.le_add_right _ _⟩
      · have other : f ≠ s.firstFrame + k := fun same => later (same ▸ member)
        have before := free f member
        rw [set, if_neg other] at before
        exact before
    · rw [counts, set, List.count_cons]
      by_cases same : f = s.firstFrame + k
      · rw [if_pos same, same, clear, List.count_eq_zero_of_not_mem later]
        simp
      · rw [if_neg same]
        simp [Ne.symm same]

/-! ### Safety -/

structure Safe (s : State) : Prop where
  allocates : allocPhysPage s ≠ none
  lowest : ∀ frame s', allocPhysPage s = some (frame, s') → frame ≠ 0 →
    s.firstFrame + bitmapFrames s.bitmapSize ≤ frame ∧
      frame < s.firstFrame + 64 * (s.bitmapSize / 8) ∧
      s.bitmap.bit (frame - s.firstFrame) = false ∧
      ∀ g, s.firstFrame ≤ g → g < frame → s.bitmap.bit (g - s.firstFrame) = true
  used : s.memused = PAGE_SIZE * s.bitmap.ones (8 * s.bitmapSize)
  counts : ∀ p, s.pages = some p → ∀ k, k < 8 * s.bitmapSize → s.bitmap.bit k = false →
    p.count (s.firstFrame + k) = 0
  frees : ∀ p frame, s.pages = some p → p.count frame = 1 → freePhysPage s frame ≠ none

theorem Inv.safe (inv : Inv s) : Safe s := by
  refine ⟨?_, ?_, inv.used, ?_, ?_⟩
  · rcases inv.alloc with ⟨-, eq⟩ | ⟨k, pages, -, -, -, eq, -⟩ <;> rw [eq] <;> simp
  · intro frame s' h nonzero
    rcases inv.alloc with ⟨-, eq⟩ | ⟨k, pages, inside, off, before, eq, -⟩
    · rw [h] at eq
      exact absurd (Prod.mk.inj (Option.some.inj eq)).1 nonzero
    · rw [h] at eq
      obtain ⟨rfl, -⟩ := Prod.mk.inj (Option.some.inj eq)
      have own : bitmapFrames s.bitmapSize ≤ k := by
        by_contra own
        simp [inv.own k (by omega)] at off
      refine ⟨by omega, by unfold State.frames at inside; omega, ?_, fun g low high => ?_⟩
      · rw [Nat.add_sub_cancel_left]
        exact off
      · exact before _ (by omega)
  · intro p pages k inside off
    have ok := inv.pages p pages
    by_cases scanned : k < s.frames
    · exact ok.clear k scanned off
    · exact ok.outside _ (Or.inr (by omega))
  · intro p frame pages last
    obtain ⟨k, -, -, -, -, eq⟩ := inv.free pages last
    rw [eq]
    simp

/-- Between two allocations of one frame it is freed. -/
def NoDouble (events : List Event) : Prop :=
  ∀ before between after frame, frame ≠ 0 →
    events = before ++ (.alloc frame :: between ++ .alloc frame :: after) → .free frame ∈ between

theorem step_keeps {e : Event} {k : Nat} (inv : Inv s) (h : Step s e s')
    (on : s.bitmap.bit k = true) (kept : e ≠ .free (s.firstFrame + k)) :
    s'.firstFrame = s.firstFrame ∧ s'.bitmap.bit k = true := by
  cases h with
  | alloc h =>
    rcases inv.alloc with ⟨-, eq⟩ | ⟨j, pages, -, -, -, eq, -⟩
    · rw [h] at eq
      obtain ⟨-, rfl⟩ := Prod.mk.inj (Option.some.inj eq)
      exact ⟨rfl, on⟩
    · rw [h] at eq
      obtain ⟨-, rfl⟩ := Prod.mk.inj (Option.some.inj eq)
      exact ⟨rfl, by rw [State.taken_bit, on, Bool.true_or]⟩
  | initMm => exact ⟨rfl, on⟩
  | free pages _ last h =>
    obtain ⟨j, rfl, -, -, -, eq⟩ := inv.free pages last
    rw [h] at eq
    obtain rfl := Option.some.inj eq
    have different : k ≠ j := by
      rintro rfl
      exact kept rfl
    exact ⟨rfl, by rw [State.given_bit, on]; simp [different]⟩
  | setCount => exact ⟨rfl, on⟩

theorem run_keeps {events : List Event} {k : Nat} (run : Run Step s events s') (inv : Inv s)
    (on : s.bitmap.bit k = true) (kept : .free (s.firstFrame + k) ∉ events) :
    s'.firstFrame = s.firstFrame ∧ s'.bitmap.bit k = true := by
  induction run with
  | nil => exact ⟨rfl, on⟩
  | cons first _ ih =>
    have ⟨base, on'⟩ := step_keeps inv first on fun eq => kept (eq ▸ List.mem_cons_self)
    have ⟨base', last⟩ := ih (step_inv inv first) on' fun member =>
      kept (List.mem_cons_of_mem _ (base ▸ member))
    exact ⟨base'.trans base, last⟩

theorem run_noDouble {events : List Event} (run : Run Step s events s') (inv : Inv s) :
    NoDouble events := by
  rintro before between after frame nonzero rfl
  obtain ⟨s₁, run₁, run⟩ := run.split
  obtain ⟨s₃, run₂, run⟩ := (show Run Step s₁ ((.alloc frame :: between) ++ _) s' from run).split
  cases run₂ with
  | @cons _ s₂ _ _ _ first run₂ =>
  cases run with
  | @cons _ s₄ _ _ _ second run =>
  have inv₁ : Inv s₁ := run₁.invariant (P := Inv) (fun _ _ _ inv step => step_inv inv step) inv
  have inv₂ := step_inv inv₁ first
  have inv₃ : Inv s₃ := run₂.invariant (P := Inv) (fun _ _ _ inv step => step_inv inv step) inv₂
  cases first with
  | alloc first =>
  cases second with
  | alloc second =>
  by_contra kept
  rcases inv₁.alloc with ⟨-, eq⟩ | ⟨k, pages, -, -, -, eq, -⟩
  · rw [first] at eq
    exact nonzero (Prod.mk.inj (Option.some.inj eq)).1
  · rw [first] at eq
    obtain ⟨rfl, rfl⟩ := Prod.mk.inj (Option.some.inj eq)
    obtain ⟨base, on⟩ := run_keeps (k := k) run₂ inv₂ (by rw [State.taken_bit]; simp) kept
    have off := (inv₃.safe.lowest _ _ second nonzero).2.2.1
    change s₃.firstFrame = s₁.firstFrame at base
    rw [base, Nat.add_sub_cancel_left, on] at off
    cases off

/-- With less than 2^47 bytes, whatever is allocated, counted and freed after `init_pmm`, the
allocator is safe and hands out no frame twice. -/
theorem frame_allocator_safe {bitmap : Bitmap} {physbase size : Nat} {s₀ s : State}
    {events : List Event} (positive : 0 < physbase) (sized : size < 2 ^ 47)
    (boot : initPmm bitmap physbase size = some s₀) (run : Run Step s₀ events s) :
    Safe s ∧ NoDouble events :=
  ⟨(run_inv positive sized boot run).safe, run_noDouble run (boot_inv positive sized boot)⟩

theorem blank_bit (count k : Nat) : (memsetZero (fun _ => 0) count).bit k = false := by
  rw [memsetZero_bit]
  simp [bit]

/-- With 64 frames from frame 1 on, the first holding the bitmap. -/
theorem frame_allocator_safe_64 : ∃ s₀ s,
    initPmm (fun _ => 0) 4096 (2 ^ 18) = some s₀ ∧
      Run Step s₀ [.alloc 2, .initMm (2 ^ 19), .alloc 3, .free 3] s ∧ Safe s ∧
      NoDouble [.alloc 2, .initMm (2 ^ 19), .alloc 3, .free 3] := by
  obtain ⟨marked, boot, bits⟩ := initPmm_spec (fun _ => 0) 4096 (2 ^ 18) (by decide) (by decide)
    (by decide) (by decide) fun k _ => blank_bit _ k
  simp only [blank_bit, Bool.false_or] at bits
  change ∀ k, marked.bit k = decide (k < 1) at bits
  obtain ⟨s₀, start⟩ : ∃ s₀ : State, s₀ = ⟨marked, 1, 8, 2 ^ 18, PAGE_SIZE * 1, none⟩ := ⟨_, rfl⟩
  change initPmm _ _ _ = some ⟨marked, 1, 8, 2 ^ 18, PAGE_SIZE * 1, none⟩ at boot
  rw [← start] at boot
  have inv₀ := boot_inv (by decide) (by decide) boot
  have base : s₀.firstFrame = 1 := by rw [start]
  have frames : s₀.frames = 64 := by simp [start, State.frames]
  have memory : s₀.memsize = 2 ^ 18 := by rw [start]
  have fresh : s₀.pages = none := by rw [start]
  have bits : ∀ k, s₀.bitmap.bit k = decide (k < 1) := by rwa [start]
  obtain ⟨p₁, first, shape⟩ := (boot_inv (by decide) (by decide) boot).alloc_lowest (k := 1)
    (by omega) (bits 1) (fun j below => by simp [bits, below])
  obtain ⟨-, rfl⟩ : s₀.pages = none ∧ p₁ = none := by simpa [fresh] using shape
  rw [base] at first
  have covers : s₀.firstFrame * PAGE_SIZE + s₀.memsize ≤ 2 ^ 19 := by
    rw [base, memory]
    decide
  have inv₂ := initMm_inv (step_inv (boot_inv (by decide) (by decide) boot) (.alloc first)) covers
  have bits₂ : ∀ k, (initMm (s₀.taken 1 none) (2 ^ 19)).bitmap.bit k = decide (k < 2) := by
    intro k
    change (s₀.taken 1 none).bitmap.bit k = _
    rw [State.taken_bit, bits, ← Bool.decide_or]
    exact decide_eq_decide.mpr (by omega)
  have before₂ : ∀ j, j < 2 → (initMm (s₀.taken 1 none) (2 ^ 19)).bitmap.bit j = true := by
    intro j below
    rw [bits₂, decide_eq_true below]
  obtain ⟨p₃, second, shape⟩ := inv₂.alloc_lowest (k := 2) (by change 2 < s₀.frames; omega)
    (bits₂ 2) before₂
  obtain ⟨p, pages, rfl⟩ := shape.resolve_left (by rintro ⟨⟨⟩, -⟩)
  obtain rfl := Option.some.inj pages
  have number : (initMm (s₀.taken 1 none) (2 ^ 19)).firstFrame + 2 = 3 := by
    change s₀.firstFrame + 2 = 3
    rw [base]
  rw [number] at second
  obtain ⟨_, -, -, -, -, freed⟩ := (step_inv inv₂ (.alloc second)).free rfl
    (show Pages.count ⟨2 ^ 19 / PAGE_SIZE, fun f => if f = 3 then 1 else 0⟩ 3 = 1 by rfl)
  have run : Run Step s₀ [.alloc 2, .initMm (2 ^ 19), .alloc 3, .free 3] _ :=
    .cons (.alloc first) (.cons (.initMm rfl covers (by decide))
      (.cons (.alloc second) (.single (.free rfl (by decide) (by rfl) freed))))
  exact ⟨_, _, boot, run, frame_allocator_safe (by decide) (by decide) boot run⟩

/-- With 2^47 bytes of memory the bitmap has 2^32 bytes, `memset` clears none of them, and a bit
left set in the memory below the bitmap is never counted in `memused`. -/
theorem memused_misses_dirty_bit :
    ∃ (dirty : Bitmap) (s : State), initPmm dirty 4096 (2 ^ 47) = some s ∧
      s.memused ≠ PAGE_SIZE * s.bitmap.ones (8 * s.bitmapSize) := by
  have length : 2 ^ 47 / PAGE_SIZE / 8 = 2 ^ 32 := by decide
  have own : bitmapFrames (2 ^ 32) = 2 ^ 20 := by decide
  have dirty : ∀ k, (memsetZero (fun i => if i = 2 ^ 20 then 1 else 0) (2 ^ 32)).bit k =
      decide (k = 64 * 2 ^ 20) := by
    intro k
    rw [memsetZero_bit, bit]
    by_cases word : k / 64 = 2 ^ 20
    · rw [if_pos word]
      by_cases low : k % 64 = 0
      · simp [low]
        omega
      · simp [low]
        omega
    · rw [if_neg word]
      simp
      omega
  obtain ⟨marked, boot, bits⟩ := initPmm_spec
    (fun i => if i = 2 ^ 20 then 1 else 0) 4096 (2 ^ 47)
    (by decide) (by decide) (by rw [length, own]; decide) (by rw [length, own]; decide)
    (fun k below => by
      rw [length, own] at below
      rw [length, dirty, decide_eq_false (by omega)])
  rw [length, own] at boot bits
  refine ⟨_, _, boot, fun same => ?_⟩
  have more := lt_ones (w := marked) (m := 2 ^ 20) (k := 64 * 2 ^ 20) (n := 8 * 2 ^ 32)
    (fun j below => by rw [bits, decide_eq_true below, Bool.or_true]) (by decide) (by decide)
    (by rw [bits, dirty, decide_eq_true rfl, Bool.true_or])
  have := Nat.eq_of_mul_eq_mul_left (show 0 < PAGE_SIZE by decide) same
  change 2 ^ 20 = marked.ones (8 * 2 ^ 32) at this
  omega

end Landaux.Pmm
