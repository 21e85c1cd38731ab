import Landaux.Strings.CString

/-!
# The order of strings

`strcmp` compares signed characters, and the 0 that ends a string like any other.
-/

namespace Landaux.Strings
open Lib

/-- `strcmp`; `none` after `n` turns of the loop without an end. -/
def strcmp (mem : Bytes) (dest src : Nat) : (n : Nat) → Option Int
  | 0 => none
  | n + 1 =>
    let c := (mem dest).toInt8.toInt - (mem src).toInt8.toInt
    if mem dest = 0 then some c
    else if c ≠ 0 then some c
    else strcmp mem (dest + 1) (src + 1) n

/-- The characters that `strcmp` may look at, as numbers. -/
def signed (chars : List UInt8) : List Int := (chars ++ [0]).map fun (c : UInt8) => c.toInt8.toInt

variable {mem : Bytes} {dest src n : Nat} {a b : List UInt8}

theorem toInt_inj {c d : UInt8} : c.toInt8.toInt = d.toInt8.toInt ↔ c = d := by
  rw [Int8.toInt_inj]
  exact ⟨fun same => by rw [← UInt8.toUInt8_toInt8 c, same, UInt8.toUInt8_toInt8], congrArg _⟩

/-- What a call returns for the strings `a` and `b`. -/
def Orders (a b : List UInt8) (r : Int) : Prop :=
  (r = 0 ↔ a = b) ∧ (r < 0 ↔ signed a < signed b) ∧ (0 < r ↔ signed b < signed a)

/-- Where the first characters differ, their difference decides. -/
theorem orders_of_ne {x y : Int} {as bs : List Int} (a_eq : signed a = x :: as) (b_eq : signed b = y :: bs)
    (differ : x ≠ y) (other : a ≠ b) : Orders a b (x - y) := by
  unfold Orders
  rw [a_eq, b_eq, List.cons_lt_cons_iff, List.cons_lt_cons_iff]
  refine ⟨iff_of_false (by omega) other, ?_, ?_⟩ <;> omega

/-- A first character that both strings share does not matter. -/
theorem Orders.cons {c : UInt8} {r : Int} (orders : Orders a b r) : Orders (c :: a) (c :: b) r := by
  have less (a b : List UInt8) : signed (c :: a) < signed (c :: b) ↔ signed a < signed b :=
    List.cons_lt_cons_iff.trans (by simp [signed])
  obtain ⟨equal, below, above⟩ := orders
  exact ⟨by rw [equal, List.cons_inj_right], by rw [below, less], by rw [above, less]⟩

/-- `strcmp` ends with the first 0 of `dest` at the latest, and orders the strings by their signed characters. -/
theorem strcmp_orders (first : Spells mem dest a) (second : Spells mem src b) (long : a.length < n) :
    ∃ r, strcmp mem dest src n = some r ∧ Orders a b r := by
  induction a generalizing b dest src n with
  | nil =>
    obtain _ | n := n
    · exact absurd long (Nat.lt_irrefl 0)
    · have ends : mem dest = 0 := first.ends
      refine ⟨_, by rw [strcmp, if_pos ends], ?_⟩
      rw [ends]
      cases b with
      | nil =>
        have ends' : mem src = 0 := second.ends
        rw [ends']
        exact ⟨by simp, by simp, by simp⟩
      | cons y b =>
        have differ : (0 : UInt8).toInt8.toInt ≠ y.toInt8.toInt :=
          fun same => second.opens_ne_zero (toInt_inj.mp same).symm
        rw [second.opens]
        exact orders_of_ne rfl rfl differ (List.cons_ne_nil _ _).symm
  | cons x a ih =>
    obtain _ | n := n
    · exact absurd long (Nat.not_lt_zero _)
    · rw [strcmp, first.opens, if_neg first.opens_ne_zero]
      cases b with
      | nil =>
        have ends : mem src = 0 := second.ends
        have differ : x.toInt8.toInt ≠ (0 : UInt8).toInt8.toInt := fun same => first.opens_ne_zero (toInt_inj.mp same)
        rw [ends, if_pos (sub_ne_zero.mpr differ)]
        exact ⟨_, rfl, orders_of_ne rfl rfl differ (List.cons_ne_nil _ _)⟩
      | cons y b =>
        rw [second.opens]
        by_cases same : x = y
        · subst same
          obtain ⟨r, result, orders⟩ := ih first.tail second.tail (Nat.lt_of_succ_lt_succ long)
          rw [sub_self, if_neg (not_not.mpr rfl)]
          exact ⟨r, result, orders.cons⟩
        · have differ : x.toInt8.toInt ≠ y.toInt8.toInt := fun equal => same (toInt_inj.mp equal)
          rw [if_pos (sub_ne_zero.mpr differ)]
          exact ⟨_, rfl, orders_of_ne rfl rfl differ fun equal => same (List.cons.inj equal).1⟩

/-- `"b"` comes behind a string that goes on with a byte from 128 on. -/
theorem strcmp_orders_prefix :
    ∃ r, strcmp ((Bytes.store (fun _ => 0) 8 [98, 0]).store 10 [98, 200, 0]) 8 10 2 = some r ∧ 0 < r := by
  have b : (0 : UInt8) ∉ [98] := by decide
  have more : (0 : UInt8) ∉ [98, 200] := by decide
  have first : Spells (Bytes.store (fun _ => 0) 8 [98, 0]) 8 [98] := spells_store b (by decide)
  have kept : Spells ((Bytes.store (fun _ => 0) 8 [98, 0]).store 10 [98, 200, 0]) 8 [98] :=
    first.congr fun y _ high => Bytes.store_outside (.inl (Nat.lt_succ_of_le high))
  obtain ⟨r, result, -, -, greater⟩ := strcmp_orders kept (spells_store more (by decide)) (show 1 < 2 by decide)
  exact ⟨r, result, greater.mpr (by decide)⟩

end Landaux.Strings
