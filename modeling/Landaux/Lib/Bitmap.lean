import Mathlib.Tactic

/-!
# Bitmaps of 64-bit words

Bit `k` of a bitmap is bit `k % 64` of word `k / 64`. `ones` counts the bits set below a bound.
-/

namespace Landaux.Lib

abbrev Bitmap := Nat → BitVec 64

namespace Bitmap

def bit (w : Bitmap) (k : Nat) : Bool := (w (k / 64)).getLsbD (k % 64)

def orAt (w : Bitmap) (i : Nat) (v : BitVec 64) : Bitmap := fun j => if j = i then w i ||| v else w j

def clearAt (w : Bitmap) (i : Nat) (v : BitVec 64) : Bitmap :=
  fun j => if j = i then w i &&& ~~~v else w j

def ones (w : Bitmap) (n : Nat) : Nat := ((Finset.range n).filter fun k => w.bit k = true).card

variable {w w' : Bitmap} {i n k : Nat}

theorem getLsbD_one_shiftLeft {b j : Nat} (hj : j < 64) :
    ((1#64) <<< b).getLsbD j = decide (j = b) := by
  by_cases same : j = b
  · subst same
    simp [hj]
  · by_cases below : j < b
    · simp [hj, below, same]
    · have : j - b ≠ 0 := by omega
      simp [hj, below, same, this]

theorem bit_orAt (hk : k < 64) (j : Nat) :
    (w.orAt i (1#64 <<< k)).bit j = (w.bit j || decide (j = 64 * i + k)) := by
  unfold bit orAt
  by_cases word : j / 64 = i
  · rw [if_pos word, word, BitVec.getLsbD_or, getLsbD_one_shiftLeft (Nat.mod_lt _ (by omega))]
    congr 1
    exact decide_eq_decide.mpr (by omega)
  · rw [if_neg word, decide_eq_false (by omega), Bool.or_false]

theorem bit_clearAt (hk : k < 64) (j : Nat) :
    (w.clearAt i (1#64 <<< k)).bit j = (w.bit j && !decide (j = 64 * i + k)) := by
  unfold bit clearAt
  by_cases word : j / 64 = i
  · have inside := Nat.mod_lt j (show 64 > 0 by omega)
    rw [if_pos word, word, BitVec.getLsbD_and, BitVec.getLsbD_not, getLsbD_one_shiftLeft inside]
    simp only [inside, decide_true, Bool.true_and]
    congr 2
    exact decide_eq_decide.mpr (by omega)
  · rw [if_neg word, decide_eq_false (by omega), Bool.not_false, Bool.and_true]

/-- Setting a clear bit adds one. -/
theorem ones_set (inside : k < n) (clear : w.bit k = false)
    (set : ∀ j, w'.bit j = (w.bit j || decide (j = k))) : w'.ones n = w.ones n + 1 := by
  have split : (Finset.range n).filter (fun j => w'.bit j = true) =
      insert k ((Finset.range n).filter fun j => w.bit j = true) := by
    ext j
    simp only [Finset.mem_filter, Finset.mem_range, Finset.mem_insert, set, Bool.or_eq_true,
      decide_eq_true_eq]
    constructor
    · tauto
    · rintro (rfl | ⟨below, on⟩)
      · exact ⟨inside, Or.inr rfl⟩
      · exact ⟨below, Or.inl on⟩
  unfold ones
  rw [split, Finset.card_insert_of_notMem (by simp [clear])]

/-- Clearing a set bit takes one away. -/
theorem ones_clear (inside : k < n) (on : w.bit k = true)
    (clear : ∀ j, w'.bit j = (w.bit j && !decide (j = k))) : w'.ones n + 1 = w.ones n := by
  refine (ones_set inside ?_ fun j => ?_).symm
  · simp [clear]
  · rw [clear]
    by_cases same : j = k
    · subst same
      simp [on]
    · simp [same]

/-- A set bit above a stretch of `m` set bits is counted on top of them. -/
theorem lt_ones {m : Nat} (full : ∀ j, j < m → w.bit j = true) (above : m ≤ k) (inside : k < n)
    (on : w.bit k = true) : m < w.ones n := by
  have sub : insert k (Finset.range m) ⊆ (Finset.range n).filter fun j => w.bit j = true := by
    intro j member
    rw [Finset.mem_filter, Finset.mem_range]
    rcases Finset.mem_insert.mp member with rfl | member
    · exact ⟨inside, on⟩
    · have below := Finset.mem_range.mp member
      exact ⟨by omega, full j below⟩
  have card := Finset.card_le_card sub
  rw [Finset.card_insert_of_notMem (by simp; omega), Finset.card_range] at card
  exact card

/-- Setting `m` clear bits from the bottom of an empty bitmap counts `m`. -/
theorem ones_eq {m : Nat} (inside : m ≤ n) (set : ∀ j, j < n → w.bit j = decide (j < m)) :
    w.ones n = m := by
  have same : (Finset.range n).filter (fun j => w.bit j = true) = Finset.range m := by
    ext j
    rw [Finset.mem_filter, Finset.mem_range, Finset.mem_range]
    constructor
    · rintro ⟨below, on⟩
      simpa [set j below] using on
    · intro below
      exact ⟨by omega, by simp [set j (by omega), below]⟩
  unfold ones
  rw [same, Finset.card_range]

theorem ones_le (w : Bitmap) (n : Nat) : w.ones n ≤ n := by
  have card := Finset.card_filter_le (Finset.range n) fun k => w.bit k = true
  rwa [Finset.card_range] at card

theorem ones_full (full : ∀ j, j < n → w.bit j = true) : w.ones n = n :=
  ones_eq (Nat.le_refl n) fun j below => by rw [full j below, decide_eq_true below]

theorem ones_eq_zero : w.ones n = 0 ↔ ∀ j, j < n → w.bit j = false := by
  unfold ones
  rw [Finset.card_eq_zero, Finset.filter_eq_empty_iff]
  simp

end Bitmap

end Landaux.Lib
