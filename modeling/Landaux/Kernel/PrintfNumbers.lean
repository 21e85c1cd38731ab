import Landaux.Kernel.PrintfScan

/-!
# Printed numbers

The text of a number can be read back, unless a 0 flag has taken the place of its sign.
-/

namespace Landaux.Printf
open Lib

variable {σ : Type} {fn : UInt8 → σ → Int × σ} {d : Directive} {l : Letter} {w : BitVec 64}

def digitValue (c : UInt8) : Option Nat :=
  if '0' ≤ c ∧ c ≤ '9' then some (c.toNat - 48)
  else if 'A' ≤ c ∧ c ≤ 'F' then some (c.toNat - 55)
  else if 'a' ≤ c ∧ c ≤ 'f' then some (c.toNat - 87)
  else none

theorem digitValue_glyph {upper : Bool} {n : Nat} (small : n < 16) : digitValue (glyph upper n) = some n := by
  cases upper <;> interval_cases n <;> rfl

def alphabet (l : Letter) : Alphabet UInt8 l.radix where
  glyph := glyph (l = .X)
  digit c := (digitValue c).filter (· < l.radix)
  digit_glyph n small := by
    rw [digitValue_glyph (small.trans_le (letter_radix l).2), Option.filter_some, if_pos (decide_eq_true small)]

theorem alphabet_zero : (alphabet l).glyph 0 = nought := by cases l <;> rfl

theorem alphabet_space : (alphabet l).digit space = none := rfl

theorem alphabet_minus : (alphabet l).digit minus = none := rfl

/-- No letter is a digit of the numbers that it prints. -/
theorem alphabet_letter : (alphabet l).digit l.char = none := by cases l <;> rfl

/-- A field is read back like its inside, when that is not blank. -/
theorem readInt_field {zero : Bool} {size : Nat} {sign body : List UInt8} (some : sign ++ body ≠ [])
    (plain : space ∉ sign ++ body) (blank : zero = true → d.left = true) :
    (alphabet l).readInt space minus (d.field zero size sign body) =
      (alphabet l).readInt space minus (sign ++ body) := by
  unfold Spec.field
  dsimp only
  split
  · have trimmed : (alphabet l).readInt space minus (List.replicate 0 space ++ (sign ++ body) ++
        List.replicate (d.givenWd - size) space) = _ := Alphabet.readInt_trim plain some
    rw [List.replicate_zero, List.nil_append] at trimmed
    exact trimmed
  · rename_i right
    rw [if_neg fun zero => right (blank zero), List.append_assoc]
    have trimmed : (alphabet l).readInt space minus (List.replicate (d.givenWd - size) space ++ (sign ++ body) ++
        List.replicate 0 space) = _ := Alphabet.readInt_trim plain some
    rw [List.replicate_zero, List.append_nil] at trimmed
    exact trimmed

theorem number_eq {n : Nat} (size : (d.value l w).natAbs = n) : d.number l w =
    d.field d.zero ((d.sign l (d.value l w)).length + ((alphabet l).write n).length) (d.sign l (d.value l w))
      ((alphabet l).write n) := by
  subst size
  rfl

theorem plain_number {n : Nat} : space ∉ (alphabet l).write n := by
  have base := (letter_radix l).1
  simpa using Alphabet.not_mem_digits (k := 0) (n := n) base alphabet_space

theorem reads_nat {n k : Nat} : (alphabet l).readInt space minus (List.replicate k nought ++ (alphabet l).write n) =
    some (n : Int) := by
  rw [← alphabet_zero (l := l)]
  exact Alphabet.readInt_nat (letter_radix l).1 alphabet_space alphabet_minus

theorem number_reads_back_iff : (alphabet l).readInt space minus (d.number l w) = some (d.value l w) ↔
    (d.zero = true → 0 ≤ d.value l w) := by
  obtain negative | positive := lt_or_ge (d.value l w) 0
  · have sign : d.sign l (d.value l w) = [if d.zero then l.char else minus] := if_pos negative
    rw [number_eq rfl, sign]
    cases zero : d.zero
    · rw [readInt_field (by simp) (by simpa using ⟨by decide, plain_number⟩) (by simp)]
      simp only [Bool.false_eq_true, if_false, List.singleton_append, false_implies, iff_true]
      rw [Alphabet.readInt_neg (letter_radix l).1 alphabet_space (by decide)]
      congr 1
      omega
    · have different : l.char ≠ space ∧ l.char ≠ minus := by cases l <;> decide
      have shape : ∃ rest, d.field true (1 + ((alphabet l).write (d.value l w).natAbs).length) [l.char]
          ((alphabet l).write (d.value l w).natAbs) = l.char :: rest := by
        unfold Spec.field
        split
        · exact ⟨_, rfl⟩
        · exact ⟨_, rfl⟩
      obtain ⟨rest, text⟩ := shape
      simp only [if_true, List.length_singleton, text]
      rw [Alphabet.readInt_other alphabet_letter different.1 different.2]
      simpa using negative
  · have sign : d.sign l (d.value l w) = [] := if_neg (by omega)
    obtain ⟨n, value⟩ := Int.eq_ofNat_of_zero_le positive
    rw [number_eq rfl, sign, value, Int.natAbs_natCast]
    refine iff_of_true ?_ fun _ => Int.natCast_nonneg n
    have digits := reads_nat (l := l) (n := n) (k := 0)
    rw [List.replicate_zero, List.nil_append] at digits
    by_cases blank : d.zero = true → d.left = true
    · rw [readInt_field (by simp [Alphabet.write_ne_nil]) (by simpa using plain_number) blank]
      exact digits
    · obtain ⟨zero, right⟩ := Classical.not_imp.mp blank
      unfold Spec.field
      rw [if_neg right, if_pos zero, List.nil_append]
      exact reads_nat

/-! ### What a helper receives -/

/-- A helper that keeps what it is passed. -/
def keep (c : UInt8) (kept : List UInt8) : Int × List UInt8 := (0, kept ++ [c])

theorem deliver_keep {text kept : List UInt8} {n : Nat} :
    deliver keep none text n kept = .ok (toInt (n + text.length), kept ++ text) := by
  induction text generalizing n kept with
  | nil => simp [deliver]
  | cons c text ih =>
    rw [deliver, if_neg (by simp [keep]), ih]
    simp [keep, Nat.add_right_comm, Nat.add_assoc]

theorem field_length {p : Spec} {zero : Bool} {sign body : List UInt8} :
    (p.field zero (sign.length + body.length) sign body).length = max p.givenWd (sign.length + body.length) := by
  unfold Spec.field
  dsimp only
  split_ifs <;> simp only [List.length_append, List.length_replicate] <;> omega

/-- A directive for a number prints a field of at least its width, which is read back as the number in the slot
exactly if it does not put the letter in place of a sign. -/
theorem printed_number {fmt : CStr} (number : d.conv = .number l) (single : fmt.chars = (Piece.directive d).text)
    (w : BitVec 64) : ∃ text, doPrintf keep fmt [.word w] [] = .ok (toInt text.length, text) ∧
      d.givenWd ≤ text.length ∧ text.length ≤ max d.givenWd 23 ∧
      ((alphabet l).readInt space minus text = some (d.value l w) ↔ (d.zero = true → 0 ≤ d.value l w)) := by
  have spelled : fmt.chars = spell [.directive d] none := by simp [spell, single]
  have printed : output none [.directive d] [.word w] = (d.number l w, none) := by
    simp [output, Piece.render, Directive.render, number]
  have digits : ((alphabet l).write (d.value l w).natAbs).length ≤ 22 := by
    rw [Alphabet.write, List.length_map, value_natAbs]
    exact numeral_fits l _
  refine ⟨d.number l w, ?_, ?_, ?_, number_reads_back_iff⟩
  · rw [doPrintf_spelled spelled, printed, deliver_keep, Nat.zero_add, List.nil_append]
  · rw [number_eq rfl, field_length]
    exact le_max_left _ _
  · rw [number_eq rfl, field_length]
    have sign : (d.sign l (d.value l w)).length ≤ 1 := by
      unfold Directive.sign
      split <;> simp
    omega

/-- `"%-4d"` of -7 -/
theorem printed_number_short : ∃ text, doPrintf keep ⟨['%', '-', '4', 'd'], by decide, by decide⟩ [.word (-7)] [] =
    .ok (toInt text.length, text) ∧ 4 ≤ text.length ∧ (alphabet .d).readInt space minus text = some (-7) := by
  have closes : (⟨true, false, [4], [], by decide⟩ : Spec).Closes 'd' :=
    ⟨by decide, fun m => by cases m <;> decide, fun _ => by decide, fun bare => absurd bare.2.1 (by decide)⟩
  have single : (⟨['%', '-', '4', 'd'], by decide, by decide⟩ : CStr).chars =
      (Piece.directive ⟨_, .number .d, closes, by simp⟩).text := rfl
  obtain ⟨text, printed, wide, -, reads⟩ := printed_number rfl single (-7)
  exact ⟨text, printed, wide, reads.mpr (by simp)⟩

end Landaux.Printf
