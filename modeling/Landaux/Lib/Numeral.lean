import Mathlib.Data.Nat.Digits.Lemmas
import Mathlib.Tactic

/-!
# Numerals

The digits of a number, the most significant one first and at least one, and an alphabet to write them in. A
field of text holds a number when what is left of it without the blanks around it is a sign and digits.
-/

namespace Landaux.Lib

variable {α : Type*} {b n : Nat}

def numeral (b n : Nat) : List Nat := if n = 0 then [0] else (Nat.digits b n).reverse

theorem numeral_small (small : n < b) : numeral b n = [n] := by
  unfold numeral
  split
  · simp [*]
  · simp [Nat.digits_of_lt b n ‹_› small]

theorem numeral_step (base : 1 < b) (large : b ≤ n) : numeral b n = numeral b (n / b) ++ [n % b] := by
  have quotient : n / b ≠ 0 := (Nat.div_pos large (by omega)).ne'
  rw [numeral, numeral, if_neg (by omega), if_neg quotient, Nat.digits_def' base (by omega), List.reverse_cons]

theorem numeral_ne_nil : numeral b n ≠ [] := by
  unfold numeral
  split
  · simp
  · simpa [Nat.digits_eq_nil_iff_eq_zero] using ‹¬n = 0›

theorem numeral_lt (base : 1 < b) : ∀ d ∈ numeral b n, d < b := by
  intro d member
  unfold numeral at member
  split at member
  · rw [List.mem_singleton] at member
    omega
  · exact Nat.digits_lt_base base (List.mem_reverse.mp member)

theorem numeral_length_le {k : Nat} (base : 1 < b) (some : 0 < k) (below : n < b ^ k) :
    (numeral b n).length ≤ k := by
  unfold numeral
  split
  · exact some
  · rw [List.length_reverse, Nat.digits_length_le_iff base]
    exact below

/-- Symbols for the digits below `b`. -/
structure Alphabet (α : Type*) (b : Nat) where
  glyph : Nat → α
  digit : α → Option Nat
  digit_glyph : ∀ d < b, digit (glyph d) = some d

namespace Alphabet

variable {A : Alphabet α b} {l : List α} {blank minus : α} {k m v : Nat}

def write (A : Alphabet α b) (n : Nat) : List α := (numeral b n).map A.glyph

/-- The value of a string of digits, after digits of value `v`. -/
def readOn (A : Alphabet α b) (v : Nat) : List α → Option Nat
  | [] => some v
  | c :: rest => (A.digit c).bind fun d => A.readOn (b * v + d) rest

def read (A : Alphabet α b) : List α → Option Nat
  | [] => none
  | c :: rest => A.readOn 0 (c :: rest)

theorem readOn_append {left right : List α} :
    A.readOn v (left ++ right) = (A.readOn v left).bind fun w => A.readOn w right := by
  induction left generalizing v with
  | nil => rfl
  | cons c rest ih =>
    cases digit : A.digit c with
    | none => simp [readOn, digit]
    | some d => simp [readOn, digit, ih]

theorem readOn_write (base : 1 < b) : A.readOn 0 (A.write n) = some n := by
  induction n using Nat.strong_induction_on with
  | _ n ih =>
    obtain small | large := Nat.lt_or_ge n b
    · simp [write, numeral_small small, readOn, A.digit_glyph n small]
    · have shorter := ih (n / b) (Nat.div_lt_self (by omega) base)
      have last := A.digit_glyph (n % b) (Nat.mod_lt _ (by omega))
      rw [write] at shorter ⊢
      rw [numeral_step base large, List.map_append, readOn_append, shorter]
      simp [readOn, last, Nat.div_add_mod]

theorem write_ne_nil : A.write n ≠ [] := by simp [write, numeral_ne_nil]

theorem read_eq (some : l ≠ []) : A.read l = A.readOn 0 l := by
  cases l with
  | nil => exact absurd rfl some
  | cons c rest => rfl

/-- Zeros in front of a number do not change it. -/
theorem read_zeros (base : 1 < b) : A.read (List.replicate k (A.glyph 0) ++ A.write n) = some n := by
  have zeros : A.readOn 0 (List.replicate k (A.glyph 0)) = some 0 := by
    induction k with
    | zero => rfl
    | succ k ih => simpa [List.replicate_succ, readOn, A.digit_glyph 0 (by omega)] using ih
  rw [read_eq (by simp [write_ne_nil]), readOn_append, zeros]
  exact readOn_write base

theorem not_mem_digits {c : α} (base : 1 < b) (other : A.digit c = none) :
    c ∉ List.replicate k (A.glyph 0) ++ A.write n := by
  intro member
  obtain ⟨d, small, rfl⟩ : ∃ d < b, A.glyph d = c := by
    obtain zero | member := List.mem_append.mp member
    · exact ⟨0, by omega, (List.eq_of_mem_replicate zero).symm⟩
    · obtain ⟨d, member, eq⟩ := List.mem_map.mp member
      exact ⟨d, numeral_lt base d member, eq⟩
  rw [A.digit_glyph d small] at other
  cases other

variable [DecidableEq α]

/-- The number in a field: blanks, a sign and digits, and blanks again. -/
def readInt (A : Alphabet α b) (blank minus : α) (l : List α) : Option Int :=
  match (l.dropWhile (· = blank)).takeWhile (· ≠ blank) with
  | [] => none
  | c :: rest => if c = minus then (A.read rest).map fun n => -(n : Int) else (A.read (c :: rest)).map fun n => (n : Int)

/-- The blanks around a text without blanks are no part of what is read. -/
theorem trim (plain : blank ∉ l) (some : l ≠ []) :
    ((List.replicate k blank ++ l ++ List.replicate m blank).dropWhile (· = blank)).takeWhile (· ≠ blank) = l := by
  have front : (List.replicate k blank ++ l ++ List.replicate m blank).dropWhile (· = blank) =
      l ++ List.replicate m blank := by
    rw [List.append_assoc, List.dropWhile_append_of_pos (by simp)]
    cases l with
    | nil => exact absurd rfl some
    | cons c rest => simp_all [eq_comm]
  have back : (List.replicate m blank).takeWhile (· ≠ blank) = [] := by
    cases m <;> simp [List.replicate_succ]
  rw [front, List.takeWhile_append_of_pos, back, List.append_nil]
  intro c member
  exact decide_eq_true fun same => plain (same ▸ member)

theorem readInt_trim (plain : blank ∉ l) (some : l ≠ []) :
    A.readInt blank minus (List.replicate k blank ++ l ++ List.replicate m blank) = A.readInt blank minus l := by
  have bare := trim (k := 0) (m := 0) plain some
  rw [List.replicate_zero, List.nil_append, List.append_nil] at bare
  rw [readInt, readInt, trim plain some, bare]

/-- What is read in a field without a sign. -/
theorem readInt_nat (base : 1 < b) (space : A.digit blank = none) (sign : A.digit minus = none) :
    A.readInt blank minus (List.replicate k (A.glyph 0) ++ A.write n) = some (n : Int) := by
  have some : List.replicate k (A.glyph 0) ++ A.write n ≠ [] := by simp [write_ne_nil]
  have bare := trim (k := 0) (m := 0) (not_mem_digits base space) some
  rw [List.replicate_zero, List.nil_append, List.append_nil] at bare
  have unsigned := not_mem_digits (k := k) (n := n) base sign
  have value := read_zeros (A := A) (k := k) (n := n) base
  rw [readInt, bare]
  cases text : List.replicate k (A.glyph 0) ++ A.write n with
  | nil => exact absurd text some
  | cons c rest =>
    rw [text] at unsigned value
    have positive : c ≠ minus := fun same => unsigned (same ▸ List.mem_cons_self)
    simp [positive, value]

/-- What is read in a field with a sign. -/
theorem readInt_neg (base : 1 < b) (space : A.digit blank = none) (different : blank ≠ minus) :
    A.readInt blank minus (minus :: A.write n) = some (-(n : Int)) := by
  have plain : blank ∉ minus :: A.write n := by
    have inner := not_mem_digits (k := 0) (n := n) base space
    simpa [different] using inner
  have bare := trim (k := 0) (m := 0) plain (List.cons_ne_nil _ _)
  rw [List.replicate_zero, List.nil_append, List.append_nil] at bare
  have value := read_zeros (A := A) (k := 0) (n := n) base
  rw [List.replicate_zero, List.nil_append] at value
  rw [readInt, bare]
  simp [value]

/-- A text that starts with anything else is no number. -/
theorem readInt_other {c : α} {rest : List α} (other : A.digit c = none) (solid : c ≠ blank) (unsigned : c ≠ minus) :
    A.readInt blank minus (c :: rest) = none := by
  rw [readInt, List.dropWhile_cons_of_neg (by simpa using solid), List.takeWhile_cons_of_pos (by simpa using solid)]
  simp [unsigned, read, readOn, other]

end Alphabet

end Landaux.Lib
