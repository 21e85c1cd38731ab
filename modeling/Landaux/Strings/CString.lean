import Landaux.Lib.Bytes

/-!
# Strings in memory

A string is the bytes up to the first 0. `strlen` counts them with `repnz scasb` in a register of 32 ones, so
its result is right for strings of fewer than `2 ^ 32 - 1` characters.
-/

namespace Landaux.Strings
open Lib

variable {mem mem' : Bytes} {s n : Nat} {c : UInt8} {chars front rest : List UInt8}

/-- `repnz scasb` for a 0: the turns that are left -/
def repnzScasb (mem : Bytes) : (rcx rdi : Nat) → Nat
  | 0, _ => 0
  | rcx + 1, rdi => if mem rdi = 0 then rcx else repnzScasb mem rcx (rdi + 1)

/-- `not`, `dec` and `movl` on `rcx` -/
def strlen (mem : Bytes) (s : Nat) : Nat :=
  (2 ^ 64 - 1 - repnzScasb mem 0xFFFFFFFF s - 1) % 2 ^ 32

/-- The loop of `strrchr` with `p - (str - 1)` turns left. -/
def strrchrLoop (mem : Bytes) (str : Nat) (c : UInt8) : Nat → Option Nat
  | 0 => none
  | n + 1 => if mem (str + n) = c then some (str + n) else strrchrLoop mem str c n

def strrchr (mem : Bytes) (str : Nat) (c : UInt8) : Option Nat :=
  strrchrLoop mem str c (strlen mem str + 1)

def string (mem : Bytes) (s : Nat) : List UInt8 := mem.load s (strlen mem s)

/-- A string of these characters lies at `s`. -/
structure Spells (mem : Bytes) (s : Nat) (chars : List UInt8) : Prop where
  bytes : ∀ i (inside : i < chars.length), mem (s + i) = chars[i]
  ends : mem (s + chars.length) = 0
  plain : (0 : UInt8) ∉ chars
  short : chars.length < 2 ^ 32 - 1

theorem spells_store (plain : (0 : UInt8) ∉ chars) (short : chars.length < 2 ^ 32 - 1) :
    Spells (mem.store s (chars ++ [0])) s chars := by
  constructor
  · intro i inside
    rw [Bytes.store_inside (by rw [List.length_append]; omega), List.getElem_append_left inside]
  · rw [Bytes.store_inside (by simp), List.getElem_append_right (le_refl _)]
    simp
  · exact plain
  · exact short

theorem Spells.congr (spells : Spells mem s chars)
    (same : ∀ y, s ≤ y → y ≤ s + chars.length → mem' y = mem y) : Spells mem' s chars := by
  constructor
  · intro i inside
    rw [same _ (by omega) (by omega)]
    exact spells.bytes i inside
  · rw [same _ (by omega) (by omega)]
    exact spells.ends
  · exact spells.plain
  · exact spells.short

theorem Spells.opens (spells : Spells mem s (c :: chars)) : mem s = c := spells.bytes 0 (Nat.zero_lt_succ _)

theorem Spells.opens_ne_zero (spells : Spells mem s (c :: chars)) : c ≠ 0 :=
  fun zero => spells.plain (zero ▸ List.mem_cons_self)

theorem Spells.tail (spells : Spells mem s (c :: chars)) : Spells mem (s + 1) chars := by
  have length : (c :: chars).length = chars.length + 1 := List.length_cons
  constructor
  · intro i inside
    have byte := spells.bytes (i + 1) (by omega)
    rw [List.getElem_cons_succ] at byte
    rwa [Nat.add_assoc, Nat.add_comm 1 i]
  · have ends := spells.ends
    rwa [length, Nat.add_comm chars.length 1, ← Nat.add_assoc] at ends
  · exact fun member => spells.plain (List.mem_cons_of_mem c member)
  · have short := spells.short
    omega

/-- A string can be cut where a 0 is written. -/
theorem Spells.take (spells : Spells mem s (chars ++ rest)) (zero : mem' (s + chars.length) = 0)
    (same : ∀ y, s ≤ y → y < s + chars.length → mem' y = mem y) : Spells mem' s chars := by
  have length : (chars ++ rest).length = chars.length + rest.length := List.length_append
  constructor
  · intro i inside
    rw [same _ (by omega) (by omega), spells.bytes i (by omega), List.getElem_append_left inside]
  · exact zero
  · exact fun member => spells.plain (List.mem_append_left rest member)
  · have short := spells.short
    omega

theorem Spells.drop (spells : Spells mem s (front ++ chars)) : Spells mem (s + front.length) chars := by
  induction front generalizing s with
  | nil => exact spells
  | cons c front ih =>
    rw [List.length_cons, Nat.add_comm front.length 1, ← Nat.add_assoc]
    exact ih spells.tail

theorem Spells.last (spells : Spells mem s (chars ++ [c])) : mem (s + chars.length) = c := by
  rw [spells.bytes chars.length (by simp)]
  simp

theorem Spells.byte_ne_zero (spells : Spells mem s chars) (inside : n < chars.length) : mem (s + n) ≠ 0 := by
  intro zero
  rw [spells.bytes n inside] at zero
  exact spells.plain (zero ▸ List.getElem_mem inside)

theorem repnzScasb_spells {rcx : Nat} (spells : Spells mem s chars) (enough : chars.length < rcx) :
    repnzScasb mem rcx s = rcx - (chars.length + 1) := by
  induction chars generalizing s rcx with
  | nil =>
    cases rcx with
    | zero => exact absurd enough (Nat.lt_irrefl 0)
    | succ rcx =>
      have ends : mem s = 0 := spells.ends
      rw [repnzScasb, if_pos ends]
      rfl
  | cons c chars ih =>
    cases rcx with
    | zero => omega
    | succ rcx =>
      rw [List.length_cons] at enough ⊢
      rw [repnzScasb, spells.opens, if_neg spells.opens_ne_zero, ih spells.tail (by omega)]
      omega

theorem Spells.strlen (spells : Spells mem s chars) : strlen mem s = chars.length := by
  have short := spells.short
  rw [Strings.strlen, repnzScasb_spells spells (by omega)]
  omega

theorem Spells.string (spells : Spells mem s chars) : string mem s = chars := by
  rw [Strings.string, spells.strlen]
  apply List.ext_getElem
  · exact Bytes.length_load
  · intro i _ inside
    simp [Bytes.load, spells.bytes i inside]

/-- The last place of a character. -/
theorem strrchrLoop_spells (spells : Spells mem s chars) (inside : n ≤ chars.length) :
    (strrchrLoop mem s c n = none ∧ c ∉ chars.take n) ∨
      ∃ front back, chars.take n = front ++ c :: back ∧ c ∉ back ∧ strrchrLoop mem s c n = some (s + front.length) := by
  induction n with
  | zero => exact .inl ⟨rfl, by simp⟩
  | succ n ih =>
    have taken : chars.take (n + 1) = chars.take n ++ [chars[n]] := by simp
    rw [strrchrLoop, taken, spells.bytes n inside]
    by_cases here : chars[n] = c
    · rw [if_pos here, here]
      refine .inr ⟨chars.take n, [], rfl, List.not_mem_nil, ?_⟩
      rw [List.length_take_of_le (by omega)]
    · rw [if_neg here]
      rcases ih (by omega) with ⟨missing, absent⟩ | ⟨front, back, split, absent, found⟩
      · refine .inl ⟨missing, ?_⟩
        rw [List.mem_append, List.mem_singleton]
        exact not_or.mpr ⟨absent, Ne.symm here⟩
      · refine .inr ⟨front, back ++ [chars[n]], ?_, ?_, found⟩
        · rw [split, List.append_assoc, List.cons_append]
        · rw [List.mem_append, List.mem_singleton]
          exact not_or.mpr ⟨absent, Ne.symm here⟩

theorem strrchr_spells (spells : Spells mem s chars) (nonzero : c ≠ 0) :
    (strrchr mem s c = none ∧ c ∉ chars) ∨
      ∃ front back, chars = front ++ c :: back ∧ c ∉ back ∧ strrchr mem s c = some (s + front.length) := by
  have loop := strrchrLoop_spells (c := c) spells (le_refl _)
  rw [List.take_length] at loop
  rwa [strrchr, spells.strlen, strrchrLoop, spells.ends, if_neg (Ne.symm nonzero)]

end Landaux.Strings
