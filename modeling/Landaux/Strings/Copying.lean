import Landaux.Lib.Stores
import Landaux.Strings.CString

/-!
# Copies of strings

`strcpy` copies byte by byte, upwards, up to the 0. Where the copy begins inside the string, behind its first byte, it
writes over the 0 before it reads it, and never ends; everywhere else the copy is right. `strcat` copies to the end of
a string.
-/

namespace Landaux.Strings
open Lib

/-- The loop of `strcpy`: `lodsb`, `stosb`, and again unless the byte is 0; `none` after `n` turns without an end. -/
def strcpy (mem : Bytes) (dest src : Nat) : (n : Nat) → Option Bytes
  | 0 => none
  | n + 1 =>
    let al := mem src
    let mem := mem.store8 dest al
    if al = 0 then some mem else strcpy mem (dest + 1) (src + 1) n

def strcat (mem : Bytes) (dest src : Nat) (n : Nat) : Option Bytes := strcpy mem (dest + strlen mem dest) src n

variable {mem : Bytes} {dest src n : Nat} {chars front : List UInt8} {c : UInt8}

/-- The copy begins in the string, but not at its first byte. -/
def Overwrites (dest src : Nat) (chars : List UInt8) : Prop := src < dest ∧ dest ≤ src + chars.length

theorem strcpy_copies (spells : Spells mem src chars) (apart : ¬ Overwrites dest src chars) (long : chars.length < n) :
    strcpy mem dest src n = some (mem.store dest (chars ++ [0])) := by
  induction chars generalizing mem dest src n with
  | nil =>
    obtain _ | n := n
    · exact absurd long (Nat.lt_irrefl 0)
    · have ends : mem src = 0 := spells.ends
      rw [strcpy, ends, if_pos rfl, List.nil_append, ← Bytes.store_cons, Bytes.store_nil]
  | cons c chars ih =>
    obtain _ | n := n
    · exact absurd long (Nat.not_lt_zero _)
    · unfold Overwrites at apart
      rw [List.length_cons] at apart long
      have rest : Spells (mem.store8 dest c) (src + 1) chars :=
        spells.tail.congr fun y low high => Bytes.store8_other (by omega)
      rw [strcpy, spells.opens, if_neg spells.opens_ne_zero, ih rest (by unfold Overwrites; omega) (by omega),
        Bytes.store_cons, List.cons_append]

/-- What is read has been written before: no 0 between the two places, and none is ever reached. -/
theorem strcpy_runs (behind : src < dest) (plain : ∀ y, src ≤ y → y < dest → mem y ≠ 0) :
    strcpy mem dest src n = none := by
  induction n generalizing mem dest src with
  | zero => rfl
  | succ n ih =>
    have first := plain src (Nat.le_refl _) behind
    rw [strcpy, if_neg first]
    refine ih (by omega) fun y low high => ?_
    obtain rfl | other := eq_or_ne y dest
    · rwa [Bytes.store8, if_pos rfl]
    · rw [Bytes.store8_other other]
      exact plain y (by omega) (by omega)

theorem strcpy_more {mem' : Bytes} {k : Nat} (ends : strcpy mem dest src n = some mem') :
    strcpy mem dest src (n + k) = some mem' := by
  induction n generalizing mem dest src with
  | zero => cases ends
  | succ n ih =>
    rw [Nat.add_right_comm]
    rw [strcpy] at ends ⊢
    split at ends
    · rename_i last
      rwa [if_pos last]
    · rename_i more
      rw [if_neg more]
      exact ih ends

/-- `strcpy` ends exactly if the copy does not begin inside the string, behind its first byte. Then the copy is the
string, and no other byte has changed. -/
theorem strcpy_ends_iff (dest : Nat) (spells : Spells mem src chars) :
    ((∃ n, (strcpy mem dest src n).isSome) ↔ ¬ Overwrites dest src chars) ∧
      ∀ n mem', strcpy mem dest src n = some mem' → mem' = mem.store dest (chars ++ [0]) := by
  have never (n : Nat) (overwritten : Overwrites dest src chars) : strcpy mem dest src n = none := by
    refine strcpy_runs overwritten.1 fun y low high => ?_
    obtain ⟨i, rfl⟩ := Nat.exists_eq_add_of_le low
    have inside : i < chars.length := by
      have last := overwritten.2
      omega
    exact spells.byte_ne_zero inside
  refine ⟨⟨fun ⟨n, ends⟩ overwritten => ?_, fun apart => ?_⟩, fun n mem' ends => ?_⟩
  · rw [never n overwritten] at ends
    cases ends
  · exact ⟨chars.length + 1, by rw [strcpy_copies spells apart (Nat.lt_succ_self _)]; rfl⟩
  · have apart : ¬ Overwrites dest src chars := fun overwritten => by simp [never n overwritten] at ends
    have copied := strcpy_copies (n := n + (chars.length + 1)) spells apart (by omega)
    rw [strcpy_more ends] at copied
    exact Option.some.inj copied

/-- `strcat` ends exactly if the end of the first string is not inside the second, behind its first byte: never for a
string and itself, unless it is empty. Then the second string follows the first, and no other byte has changed. -/
theorem strcat_ends_iff (first : Spells mem dest front) (second : Spells mem src chars) :
    ((∃ n, (strcat mem dest src n).isSome) ↔ ¬ Overwrites (dest + front.length) src chars) ∧
      ∀ n mem', strcat mem dest src n = some mem' → mem' = mem.store dest (front ++ (chars ++ [0])) := by
  have copies := strcpy_ends_iff (dest + front.length) second
  unfold strcat
  rw [first.strlen]
  refine ⟨copies.1, fun n mem' ends => ?_⟩
  rw [copies.2 n mem' ends]
  exact Bytes.store_append first.bytes

/-- `"a"` cannot be appended to itself. -/
theorem strcat_ends_iff_itself : ¬ ∃ n, (strcat (Bytes.store (fun _ => 0) 8 [97, 0]) 8 8 n).isSome := by
  have plain : (0 : UInt8) ∉ [97] := by decide
  have spells : Spells (Bytes.store (fun _ => 0) 8 [97, 0]) 8 [97] := spells_store plain (by decide)
  exact fun ends => (strcat_ends_iff spells spells).1.mp ends ⟨by decide, by decide⟩

end Landaux.Strings
