import Landaux.Mm.Pmm

/-!
# What the frame allocator does

`allocPhysPage_cases` says once what an allocation can be, in terms of bits instead of words, and
`freePhysPage_eq` what a free does. The loop of `init_pmm` follows from the first.
-/

namespace Landaux.Pmm
open Lib Bitmap

/-- The frames that the word scan can hand out: `64 * (bitmap_size / 8)`. -/
def State.frames (s : State) : Nat := 64 * (s.bitmapSize / 8)

theorem wordScan_spec (bitmap : Bitmap) {limit i : Nat} (start : i ≤ limit) :
    i ≤ wordScan bitmap limit i ∧ wordScan bitmap limit i ≤ limit ∧
      (∀ j, i ≤ j → j < wordScan bitmap limit i → bitmap j = BitVec.allOnes 64) ∧
      (wordScan bitmap limit i < limit → bitmap (wordScan bitmap limit i) ≠ BitVec.allOnes 64) := by
  induction d : limit - i generalizing i with
  | zero =>
    rw [wordScan, if_neg (by omega)]
    exact ⟨Nat.le_refl _, start, fun j low high => by omega, fun h => by omega⟩
  | succ d ih =>
    rw [wordScan, if_pos (by omega)]
    by_cases full : bitmap i ≠ BitVec.allOnes 64
    · rw [if_pos full]
      exact ⟨Nat.le_refl _, start, fun j low high => by omega, fun _ => full⟩
    · rw [if_neg full]
      obtain ⟨low, high, before, at'⟩ := ih (i := i + 1) (by omega) (by omega)
      refine ⟨by omega, high, fun j hj below => ?_, at'⟩
      by_cases same : j = i
      · subst same
        exact not_not.mp full
      · exact before j (by omega) below

theorem and_bit_eq_zero (word : BitVec 64) {n : Nat} (h : n < 64) :
    word &&& (1#64 <<< n) = 0 ↔ word.getLsbD n = false := by
  constructor
  · intro zero
    have := congrArg (fun v => BitVec.getLsbD v n) zero
    simpa [BitVec.getLsbD_and, getLsbD_one_shiftLeft h] using this
  · intro clear
    apply BitVec.eq_of_getLsbD_eq
    intro j inside
    rw [BitVec.getLsbD_and, getLsbD_one_shiftLeft inside]
    by_cases same : j = n
    · subst same
      simp [clear]
    · simp [same]

/-- A word that is not full has a clear bit, and the scan stops at the first. -/
theorem bitScan_spec {word : BitVec 64} (room : word ≠ BitVec.allOnes 64) {n : Nat} (start : n ≤ 64)
    (before : ∀ j, j < n → word.getLsbD j = true) :
    bitScan word n < 64 ∧ word.getLsbD (bitScan word n) = false ∧
      ∀ j, j < bitScan word n → word.getLsbD j = true := by
  induction d : 64 - n generalizing n with
  | zero =>
    refine absurd ?_ room
    apply BitVec.eq_of_getLsbD_eq
    intro j inside
    rw [before j (by omega), BitVec.getLsbD_allOnes, decide_eq_true inside]
  | succ d ih =>
    rw [bitScan]
    by_cases on : word.getLsbD n = true
    · rw [if_pos (by rw [ne_eq, and_bit_eq_zero word (by omega)]; simp [on])]
      refine ih (by omega) (fun j hj => ?_) (by omega)
      by_cases same : j = n
      · exact same ▸ on
      · exact before j (by omega)
    · have clear : word.getLsbD n = false := by simpa using on
      rw [if_neg (by rw [not_not, and_bit_eq_zero word (by omega)]; exact clear)]
      exact ⟨by omega, clear, before⟩

theorem bit_of_allOnes {w : Bitmap} {k : Nat} (full : w (k / 64) = BitVec.allOnes 64) :
    w.bit k = true := by
  unfold bit
  rw [full, BitVec.getLsbD_allOnes]
  exact decide_eq_true (Nat.mod_lt _ (by omega))

/-- `s` after frame number `k` of the bitmap has been taken. -/
def State.taken (s : State) (k : Nat) (pages : Option Pages) : State :=
  { s with
    bitmap := s.bitmap.orAt (k / 64) (1#64 <<< (k % 64))
    memused := s.memused + PAGE_SIZE
    pages := pages }

theorem State.taken_bit (s : State) (k : Nat) (pages : Option Pages) (j : Nat) :
    (s.taken k pages).bitmap.bit j = (s.bitmap.bit j || decide (j = k)) := by
  have := bit_orAt (w := s.bitmap) (i := k / 64) (Nat.mod_lt k (show 64 > 0 by omega)) j
  rwa [show 64 * (k / 64) + k % 64 = k by omega] at this

/-- Either every frame is taken and nothing happens, or the lowest free one is handed out. -/
theorem allocPhysPage_cases (s : State) :
    ((∀ k, k < s.frames → s.bitmap.bit k = true) ∧ allocPhysPage s = some (0, s)) ∨
    ∃ k, k < s.frames ∧ s.bitmap.bit k = false ∧ (∀ j, j < k → s.bitmap.bit j = true) ∧
      allocPhysPage s =
        (takePage (s.firstFrame + k) s.pages).map fun pages => (s.firstFrame + k, s.taken k pages) := by
  obtain ⟨-, high, full, room⟩ := wordScan_spec s.bitmap (Nat.zero_le (s.bitmapSize / 8))
  unfold allocPhysPage State.frames
  dsimp only
  generalize wordScan s.bitmap (s.bitmapSize / 8) 0 = i at *
  by_cases none : i = s.bitmapSize / 8
  · refine Or.inl ⟨fun k inside => ?_, if_pos none⟩
    exact bit_of_allOnes (full _ (Nat.zero_le _) (by omega))
  · obtain ⟨inside, clear, before⟩ := bitScan_spec (room (by omega)) (Nat.zero_le 64) (by simp)
    generalize bitScan (s.bitmap i) 0 = b at *
    have word : (i * 64 + b) / 64 = i := by omega
    have offset : (i * 64 + b) % 64 = b := by omega
    refine Or.inr ⟨i * 64 + b, by omega, ?_, fun j below => ?_, ?_⟩
    · unfold bit
      rw [word, offset]
      exact clear
    · by_cases same : j / 64 = i
      · unfold bit
        rw [same]
        exact before _ (by omega)
      · exact bit_of_allOnes (full _ (Nat.zero_le _) (by omega))
    · rw [if_neg none, Nat.add_assoc]
      unfold State.taken
      rw [word, offset]
      cases takePage (s.firstFrame + (i * 64 + b)) s.pages <;> rfl

/-- `s` after frame number `k` of the bitmap has been given back. -/
def State.given (s : State) (k : Nat) (pages : Option Pages) : State :=
  { s with
    bitmap := s.bitmap.clearAt (k / 64) (1#64 <<< (k % 64))
    memused := s.memused - PAGE_SIZE
    pages := pages }

theorem State.given_bit (s : State) (k : Nat) (pages : Option Pages) (j : Nat) :
    (s.given k pages).bitmap.bit j = (s.bitmap.bit j && !decide (j = k)) := by
  have := bit_clearAt (w := s.bitmap) (i := k / 64) (Nat.mod_lt k (show 64 > 0 by omega)) j
  rwa [show 64 * (k / 64) + k % 64 = k by omega] at this

theorem freePhysPage_eq {s : State} {p : Pages} {k : Nat} (inside : k < 8 * s.bitmapSize)
    (small : 8 * s.bitmapSize < 2 ^ 64) (on : s.bitmap.bit k = true) (pages : s.pages = some p)
    (array : s.firstFrame + k < p.len) (count : p.count (s.firstFrame + k) = 1) :
    freePhysPage s (s.firstFrame + k) = some (s.given k (some (p.set (s.firstFrame + k) 0))) := by
  have number : (s.firstFrame + k + 2 ^ 64 - s.firstFrame) % 2 ^ 64 = k := by
    rw [show s.firstFrame + k + 2 ^ 64 - s.firstFrame = k + 2 ^ 64 by omega, Nat.add_mod_right]
    exact Nat.mod_eq_of_lt (by omega)
  unfold freePhysPage
  dsimp only
  rw [number, if_neg (by omega), if_neg, pages]
  · dsimp only
    rw [if_pos ⟨array, count⟩]
    rfl
  · rw [and_bit_eq_zero _ (Nat.mod_lt _ (by omega))]
    unfold bit at on
    simp [on]

/-! ### The loop of `init_pmm` -/

theorem alloc_next {s : State} {i : Nat} (inside : i < s.frames) (clear : s.bitmap.bit i = false)
    (before : ∀ j, j < i → s.bitmap.bit j = true) (pages : s.pages = none) :
    allocPhysPage s = some (s.firstFrame + i, s.taken i none) := by
  rcases allocPhysPage_cases s with ⟨full, -⟩ | ⟨k, -, off, earlier, eq⟩
  · simp [full i inside] at clear
  · have same : k = i := by
      by_contra different
      rcases Nat.lt_or_gt_of_ne different with below | above
      · simp [before k below] at off
      · simp [earlier i above] at clear
    rw [eq, same, pages]
    rfl

/-- The loop marks the next `n` frames when they are free and their numbers fit a `u32`. -/
theorem markBitmap_spec {s : State} {i n : Nat} (room : i + n ≤ s.frames)
    (fits : s.firstFrame + i + n ≤ 2 ^ 32) (before : ∀ j, j < i → s.bitmap.bit j = true)
    (clear : ∀ j, i ≤ j → j < i + n → s.bitmap.bit j = false) (pages : s.pages = none) :
    ∃ bitmap, markBitmap s i n = some { s with bitmap, memused := s.memused + n * PAGE_SIZE } ∧
      ∀ j, bitmap.bit j = (s.bitmap.bit j || decide (i ≤ j ∧ j < i + n)) := by
  induction n generalizing s i with
  | zero => exact ⟨s.bitmap, by simp [markBitmap], fun j => by simp⟩
  | succ n ih =>
    have next := alloc_next (i := i) (by omega) (clear i (by omega) (by omega)) before pages
    obtain ⟨bitmap, loop, bits⟩ := ih (s := s.taken i none) (i := i + 1)
      (by simpa [State.frames, State.taken] using (show i + 1 + n ≤ s.frames by omega))
      (by simp only [State.taken]; omega)
      (fun j below => by
        rw [State.taken_bit]
        by_cases same : j = i
        · simp [same]
        · simp [before j (by omega)])
      (fun j low high => by
        rw [State.taken_bit, clear j (by omega) (by omega)]
        simp; omega)
      rfl
    refine ⟨bitmap, ?_, fun j => ?_⟩
    · rw [markBitmap, next]
      dsimp only
      rw [if_neg (by rw [Nat.mod_eq_of_lt (by omega)]; simp [State.taken]), loop]
      simp only [State.taken, pages, Option.some.injEq, State.mk.injEq, true_and, and_true]
      rw [Nat.add_mul]
      omega
    · rw [bits, State.taken_bit, Bool.or_assoc, ← Bool.decide_or]
      congr 1
      exact decide_eq_decide.mpr (by omega)

/-- A loop that did not stop at its `BUG_ON` found `n` free frames. -/
theorem markBitmap_bounds {s s' : State} {i n : Nat} (h : markBitmap s i n = some s')
    (positive : 0 < s.firstFrame ∨ 0 < s.frames) (before : ∀ j, j < i → s.bitmap.bit j = true)
    (clear : ∀ j, i ≤ j → j < s.frames → s.bitmap.bit j = false) (pages : s.pages = none) :
    n = 0 ∨ i + n ≤ s.frames ∧ s.firstFrame + i + n ≤ 2 ^ 32 := by
  induction n generalizing s i with
  | zero => exact Or.inl rfl
  | succ n ih =>
    right
    rw [markBitmap] at h
    by_cases inside : i < s.frames
    · rw [alloc_next inside (clear i (Nat.le_refl _) inside) before pages] at h
      dsimp only at h
      split at h
      · cases h
      · rename_i number
        have narrow := Nat.mod_lt (s.firstFrame + i) (show 2 ^ 32 > 0 by omega)
        simp only [State.taken, ne_eq, not_not] at number
        have := ih (s := s.taken i none) (i := i + 1) h positive
          (fun j below => by
            rw [State.taken_bit]
            by_cases same : j = i
            · simp [same]
            · simp [before j (by omega)])
          (fun j above high => by
            rw [State.taken_bit, clear j (by omega) high]
            simp; omega)
          rfl
        simp only [State.frames, State.taken] at this inside ⊢
        omega
    · rcases allocPhysPage_cases s with ⟨-, eq⟩ | ⟨k, below, off, -⟩
      · rw [eq] at h
        dsimp only at h
        rw [if_pos (by simp; omega)] at h
        cases h
      · rw [before k (by omega)] at off
        cases off

theorem memsetZero_bit (bitmap : Bitmap) (count k : Nat) :
    (memsetZero bitmap count).bit k = (bitmap.bit k && decide (8 * (count % 2 ^ 32) ≤ k)) := by
  unfold bit memsetZero
  have inside := Nat.mod_lt k (show 64 > 0 by omega)
  dsimp only
  rw [BitVec.getLsbD_shiftLeft, BitVec.getLsbD_ushiftRight]
  by_cases zeroed : k % 64 < min 64 (8 * (count % 2 ^ 32 - 8 * (k / 64)))
  · rw [decide_eq_true zeroed, decide_eq_false (show ¬ 8 * (count % 2 ^ 32) ≤ k by omega)]
    simp
  · rw [decide_eq_false zeroed, decide_eq_true (show 8 * (count % 2 ^ 32) ≤ k by omega),
      decide_eq_true inside, Nat.add_sub_cancel' (by omega)]
    simp

/-- `init_pmm` marks the bitmap's own frames in whatever `memset` leaves. -/
theorem initPmm_spec (bitmap : Bitmap) (physbase size : Nat) (base : physbase % PAGE_SIZE = 0)
    (pages : size % PAGE_SIZE = 0)
    (room : bitmapFrames (size / PAGE_SIZE / 8) ≤ 64 * (size / PAGE_SIZE / 8 / 8))
    (fits : physbase / PAGE_SIZE + bitmapFrames (size / PAGE_SIZE / 8) ≤ 2 ^ 32)
    (clear : ∀ k, k < bitmapFrames (size / PAGE_SIZE / 8) →
      (memsetZero bitmap (size / PAGE_SIZE / 8)).bit k = false) :
    ∃ marked : Bitmap, initPmm bitmap physbase size = some
        { bitmap := marked
          firstFrame := physbase / PAGE_SIZE
          bitmapSize := size / PAGE_SIZE / 8
          memsize := size
          memused := PAGE_SIZE * bitmapFrames (size / PAGE_SIZE / 8)
          pages := none } ∧
      ∀ k, marked.bit k = ((memsetZero bitmap (size / PAGE_SIZE / 8)).bit k ||
        decide (k < bitmapFrames (size / PAGE_SIZE / 8))) := by
  unfold initPmm
  rw [if_neg (by omega), if_neg (by omega)]
  dsimp only
  generalize size / PAGE_SIZE / 8 = bytes at *
  generalize physbase / PAGE_SIZE = first at *
  obtain ⟨marked, loop, bits⟩ := markBitmap_spec (i := 0) (n := bitmapFrames bytes)
    (s := ⟨memsetZero bitmap bytes, first, bytes, size, 0, none⟩)
    (by simpa [State.frames] using room) (by simpa using fits) (by simp)
    (fun k _ below => clear k (by omega)) rfl
  refine ⟨marked, ?_, fun k => by rw [bits]; simp⟩
  rw [loop, Nat.zero_add, Nat.mul_comm]

end Landaux.Pmm
