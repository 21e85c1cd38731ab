import Landaux.Fs.Tar
import Landaux.Kernel.ExecElf

/-!
# Magic numbers

What `memcmp` of `lib/string.c` returns, and which archives and programs get past the tests that are made
with it.
-/

namespace Landaux

/-- What `memcmp` is for: `r` is 0 for equal bytes, and else has the sign of the first difference. -/
structure Compares (a b : Nat → UInt8) (n : Nat) (r : Int) : Prop where
  zero : r = 0 ↔ ∀ i < n, a i = b i
  sign : ∀ i < n, (∀ j < i, a j = b j) → a i ≠ b i →
    r.sign = ((a i).toInt8.toInt - (b i).toInt8.toInt).sign

def tarMagic (i : Nat) : UInt8 := [117, 115, 116, 97, 114].getD i 0

def magicAt (archive : List UInt8) (i : Nat) : UInt8 := archive.getD (257 + i) 0

/-- `extract_tar` goes on to the entries. -/
def TarFs.Accepts {σ : Type} (fs : TarFs σ) (archive : List UInt8) (s : σ) : Prop :=
  ∀ t, fs.extractTar archive s ≠ .ok (-EINVAL, t)

/-- The tests of a file header that follow the one of its magic number. -/
def Ehdr.Loadable (h : Ehdr) : Prop :=
  h.ident 4 = 2 ∧ h.ident 5 = 1 ∧ h.ident 6 = 1 ∧ h.type = ET_EXEC ∧ h.machine = EM_X86_64 ∧
    h.version = EV_CURRENT ∧ h.phoff ≠ 0

variable {a b : Nat → UInt8} {n : Nat}

theorem char_eq {x y : UInt8} : x.toInt8.toInt - y.toInt8.toInt = 0 ↔ x = y := by
  constructor
  · intro same
    have ints : x.toInt8.toInt = y.toInt8.toInt := by omega
    exact congrArg Int8.toUInt8 (Int8.toInt_inj.mp ints)
  · rintro rfl
    exact Int.sub_self _

/-- Only the first bytes are compared. -/
theorem memcmp_eq (a b : Nat → UInt8) (n : Nat) :
    memcmp a b n = if n = 0 then 0 else (a 0).toInt8.toInt - (b 0).toInt8.toInt := by
  induction n with
  | zero => rfl
  | succ n ih =>
    rw [memcmp, if_neg (Nat.succ_ne_zero n)]
    by_cases same : (a 0).toInt8.toInt - (b 0).toInt8.toInt = 0
    · rw [if_neg (not_not.mpr same), ih, same]
      exact ite_self 0
    · rw [if_pos same]

theorem memcmp_zero (positive : 0 < n) : memcmp a b n = 0 ↔ a 0 = b 0 := by
  rw [memcmp_eq, if_neg (Nat.pos_iff_ne_zero.mp positive), char_eq]

theorem compares_iff : Compares a b n (memcmp a b n) ↔ n = 0 ∨ a 0 ≠ b 0 ∨ ∀ i < n, a i = b i := by
  rcases Nat.eq_zero_or_pos n with rfl | positive
  · exact iff_of_true ⟨iff_of_true rfl fun i inside => absurd inside (Nat.not_lt_zero i),
      fun i inside => absurd inside (Nat.not_lt_zero i)⟩ (Or.inl rfl)
  constructor
  · intro compares
    right
    by_cases first : a 0 = b 0
    · exact Or.inr (compares.zero.mp ((memcmp_zero positive).mpr first))
    · exact Or.inl first
  · rintro (none | different | same)
    · omega
    · constructor
      case zero => exact iff_of_false (mt (memcmp_zero positive).mp different) fun all => different (all 0 positive)
      case sign =>
        intro i inside before other
        have first : i = 0 := by
          by_contra later
          exact different (before 0 (Nat.pos_of_ne_zero later))
        rw [first, memcmp_eq, if_neg (Nat.pos_iff_ne_zero.mp positive)]
    · constructor
      case zero => exact iff_of_true ((memcmp_zero positive).mpr (same 0 positive)) same
      case sign => exact fun i inside _ other => absurd (same i inside) other

/-- The test of `extract_tar` is the one that `memcmp` makes of the magic number. -/
theorem TarFs.accepts_iff {σ : Type} (fs : TarFs σ) (archive : List UInt8) (s : σ) :
    fs.Accepts archive s ↔ 500 ≤ archive.length ∧ memcmp (magicAt archive) tarMagic 5 = 0 := by
  rw [memcmp_zero (by decide)]
  unfold TarFs.Accepts extractTar
  by_cases short : archive.length < 500
  · rw [if_pos short]
    exact iff_of_false (fun all => all s rfl) fun both => absurd both.1 (by omega)
  rw [if_neg short]
  have byte : byteAt archive 257 = .ok (magicAt archive 0) := by
    unfold byteAt magicAt
    rw [List.getD_eq_getElem?_getD, List.getElem?_eq_getElem (by omega)]
    rfl
  rw [byte, Lib.ok_bind]
  by_cases first : magicAt archive 0 = 117
  · rw [if_neg (not_not.mpr first)]
    refine iff_of_true (fun t refused => ?_) ⟨by omega, first⟩
    cases result : fs.extractFrom archive (archive.length + 1) 0 s with
    | error stop =>
      rw [result] at refused
      cases refused
    | ok u =>
      rw [result] at refused
      have zero : (0 : Int) = -EINVAL := congrArg Prod.fst (Except.ok.inj refused)
      exact absurd zero (by decide)
  · rw [if_pos first]
    exact iff_of_false (fun all => all s rfl) fun both => first both.2

theorem Ehdr.accepted_iff (h : Ehdr) :
    h.accepted = true ↔ memcmp h.ident elfMagic 4 = 0 ∧ h.Loadable := by
  unfold Ehdr.accepted Ehdr.Loadable
  simp only [Bool.and_eq_true, beq_iff_eq, bne_iff_ne, and_assoc]

/-- Bytes after the first are not looked at: the comparison is right, and what it lets through has the
magic number, exactly when they make no difference. -/
theorem memcmp_compares_iff {σ : Type} (a b : Nat → UInt8) (n : Nat) (fs : TarFs σ) (archive : List UInt8) (s : σ)
    (h : Ehdr) :
    (Compares a b n (memcmp a b n) ↔ n = 0 ∨ a 0 ≠ b 0 ∨ ∀ i < n, a i = b i) ∧
    ((fs.Accepts archive s → ∀ i < 5, magicAt archive i = tarMagic i) ↔
      archive.length < 500 ∨ magicAt archive 0 ≠ tarMagic 0 ∨ ∀ i < 5, magicAt archive i = tarMagic i) ∧
    ((h.accepted = true → ∀ i < 4, h.ident i = elfMagic i) ↔
      ¬ h.Loadable ∨ h.ident 0 ≠ elfMagic 0 ∨ ∀ i < 4, h.ident i = elfMagic i) := by
  refine ⟨compares_iff, ?_, ?_⟩
  · rw [fs.accepts_iff, memcmp_zero (by decide), ← not_le, ← or_assoc, ← not_and_or, imp_iff_not_or]
  · rw [h.accepted_iff, memcmp_zero (by decide), ← or_assoc, ← not_and_or, imp_iff_not_or,
      and_comm (a := h.Loadable)]

/-- Two bytes that differ in the second. -/
theorem memcmp_second_byte : ¬ ∀ a b n, Compares a b n (memcmp a b n) := by
  intro all
  rcases compares_iff.mp (all (fun _ => 0) (fun i => if i = 1 then 1 else 0) 2) with none | first | same
  · exact absurd none (by decide)
  · exact first rfl
  · exact absurd (same 1 (by decide)) (by decide)

end Landaux
