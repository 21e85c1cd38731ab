import Landaux.Mm.PmmRuns

/-!
# Frames in use

A frame whose bit is set is one of the bitmap's own, was allocated before there were page counts, or is counted.
-/

namespace Landaux.Pmm
open Lib Bitmap

namespace State

def used (s : State) : Finset Nat :=
  ((Finset.range (8 * s.bitmapSize)).filter fun k => s.bitmap.bit k = true).image fun k => s.firstFrame + k

def own (s : State) : Finset Nat := (Finset.range (bitmapFrames s.bitmapSize)).image fun k => s.firstFrame + k

end State

/-- `early` are the frames allocated before `init_mm`. -/
structure Explained (early : List Nat) (s : State) : Prop where
  set : ∀ k, k < 8 * s.bitmapSize → s.bitmap.bit k = true → k < bitmapFrames s.bitmapSize ∨
    s.firstFrame + k ∈ early ∨ ∃ p, s.pages = some p ∧ 0 < p.count (s.firstFrame + k)
  spared : ∀ f ∈ early, ∃ k, bitmapFrames s.bitmapSize ≤ k ∧ k < s.frames ∧ f = s.firstFrame + k ∧
    s.bitmap.bit k = true ∧ ∀ p, s.pages = some p → p.count f = 0
  once : early.Nodup

variable {s s' : State} {early : List Nat} {events : List Event} {f : Nat}

namespace Explained

theorem perm {other : List Nat} (h : Explained early s) (perm : early.Perm other) : Explained other s where
  set k inside on := (h.set k inside on).imp_right fun rest => rest.imp_left fun member => perm.mem_iff.mp member
  spared f member := h.spared f (perm.mem_iff.mpr member)
  once := perm.nodup_iff.mp h.once

/-- A frame taken while there are page counts is counted. -/
theorem taken {p : Pages} {k : Nat} (h : Explained early s) (pages : s.pages = some p)
    (off : s.bitmap.bit k = false) : Explained early (s.taken k (some (p.set (s.firstFrame + k) 1))) where
  set j inside on := by
    rw [State.taken_bit, Bool.or_eq_true, decide_eq_true_eq] at on
    have one : (p.set (s.firstFrame + k) 1).count (s.firstFrame + k) = 1 := if_pos rfl
    obtain on | rfl := on
    · obtain own | member | ⟨q, same, positive⟩ := h.set j inside on
      · exact .inl own
      · exact .inr (.inl member)
      · obtain rfl := Option.some.inj (pages.symm.trans same)
        refine .inr (.inr ⟨_, rfl, ?_⟩)
        change 0 < if s.firstFrame + j = s.firstFrame + k then 1 else p.count (s.firstFrame + j)
        split
        · exact Int.one_pos
        · exact positive
    · refine .inr (.inr ⟨_, rfl, ?_⟩)
      change 0 < (p.set (s.firstFrame + j) 1).count (s.firstFrame + j)
      rw [one]
      exact Int.one_pos
  spared f member := by
    obtain ⟨j, notOwn, inside, rfl, on, zero⟩ := h.spared f member
    refine ⟨j, notOwn, inside, rfl, ?_, ?_⟩
    · rw [State.taken_bit, on, Bool.true_or]
    · intro q same
      obtain rfl := Option.some.inj same
      have other : s.firstFrame + j ≠ s.firstFrame + k := fun eq => by
        obtain rfl : j = k := Nat.add_left_cancel eq
        rw [on] at off
        cases off
      change (if s.firstFrame + j = s.firstFrame + k then 1 else p.count (s.firstFrame + j)) = 0
      rw [if_neg other]
      exact zero p pages
  once := h.once

theorem given {p : Pages} {k : Nat} (h : Explained early s) (pages : s.pages = some p)
    (last : p.count (s.firstFrame + k) = 1) :
    Explained early (s.given k (some (p.set (s.firstFrame + k) 0))) where
  set j inside on := by
    rw [State.given_bit, Bool.and_eq_true, Bool.not_eq_true', decide_eq_false_iff_not] at on
    obtain ⟨on, other⟩ := on
    obtain own | member | ⟨q, same, positive⟩ := h.set j inside on
    · exact .inl own
    · exact .inr (.inl member)
    · obtain rfl := Option.some.inj (pages.symm.trans same)
      refine .inr (.inr ⟨_, rfl, ?_⟩)
      change 0 < if s.firstFrame + j = s.firstFrame + k then 0 else p.count (s.firstFrame + j)
      rwa [if_neg fun same => other (Nat.add_left_cancel same)]
  spared f member := by
    obtain ⟨j, notOwn, inside, rfl, on, zero⟩ := h.spared f member
    have zero := zero p pages
    have other : s.firstFrame + j ≠ s.firstFrame + k := fun same => by
      rw [same, last] at zero
      cases zero
    refine ⟨j, notOwn, inside, rfl, ?_, fun q same => ?_⟩
    · rw [State.given_bit, on, Bool.true_and, Bool.not_eq_true', decide_eq_false_iff_not]
      exact fun eq => other (congrArg _ eq)
    · obtain rfl := Option.some.inj same
      change (if s.firstFrame + j = s.firstFrame + k then 0 else p.count (s.firstFrame + j)) = 0
      rw [if_neg other, zero]
  once := h.once

end Explained

end Landaux.Pmm
