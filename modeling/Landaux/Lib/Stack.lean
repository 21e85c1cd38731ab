import Mathlib.Tactic

/-!
# A stack in memory

Words of 8 bytes that grow downwards. `Stacked mem sp ws` says that the words from `sp` on are `ws`, the top one
first. Words above the ones in question do not matter.
-/

namespace Landaux.Lib

variable {W : Type*}

def Stacked (mem : Nat → W) (sp : Nat) (ws : List W) : Prop :=
  ∀ i (inside : i < ws.length), mem (sp + 8 * i) = ws[i]

namespace Stacked

variable {mem mem' : Nat → W} {sp : Nat} {w : W} {ws more : List W}

theorem nil : Stacked mem sp [] := fun i inside => absurd inside (Nat.not_lt_zero i)

theorem cons_iff : Stacked mem sp (w :: ws) ↔ mem sp = w ∧ Stacked mem (sp + 8) ws := by
  constructor
  · intro h
    refine ⟨h 0 (Nat.zero_lt_succ _), fun i inside => ?_⟩
    rw [show sp + 8 + 8 * i = sp + 8 * (i + 1) by omega]
    exact h (i + 1) (Nat.succ_lt_succ inside)
  · rintro ⟨top, rest⟩ i inside
    cases i with
    | zero => exact top
    | succ i =>
      rw [show sp + 8 * (i + 1) = sp + 8 + 8 * i by omega]
      exact rest i (Nat.lt_of_succ_lt_succ inside)

/-- The same words, at another place. -/
theorem copy {sp' : Nat} (h : Stacked mem sp ws) (same : ∀ i < ws.length, mem' (sp' + 8 * i) = mem (sp + 8 * i)) :
    Stacked mem' sp' ws := fun i inside => (same i inside).trans (h i inside)

theorem congr (h : Stacked mem sp ws) (same : ∀ i < ws.length, mem' (sp + 8 * i) = mem (sp + 8 * i)) :
    Stacked mem' sp ws := h.copy same

theorem push (h : Stacked mem sp ws) (room : 8 ≤ sp) : Stacked (Function.update mem (sp - 8) w) (sp - 8) (w :: ws) := by
  refine cons_iff.mpr ⟨Function.update_self _ _ _, ?_⟩
  rw [Nat.sub_add_cancel room]
  exact h.congr fun i _ => Function.update_of_ne (by omega) _ _

theorem append_iff : Stacked mem sp (more ++ ws) ↔ Stacked mem sp more ∧ Stacked mem (sp + 8 * more.length) ws := by
  induction more generalizing sp with
  | nil => simp [nil]
  | cons w more ih =>
    rw [List.cons_append, cons_iff, cons_iff, ih, and_assoc, List.length_cons]
    rw [show sp + 8 + 8 * more.length = sp + 8 * (more.length + 1) by omega]

/-- One word has changed. -/
theorem replace (h : Stacked mem sp (more ++ w :: ws))
    (same : ∀ i < more.length + 1 + ws.length, i ≠ more.length → mem' (sp + 8 * i) = mem (sp + 8 * i)) :
    Stacked mem' sp (more ++ mem' (sp + 8 * more.length) :: ws) := by
  obtain ⟨front, back⟩ := append_iff.mp h
  obtain ⟨-, rest⟩ := cons_iff.mp back
  refine append_iff.mpr ⟨front.congr fun i inside => same i (by omega) (by omega), cons_iff.mpr ⟨rfl, ?_⟩⟩
  refine rest.congr fun i inside => ?_
  rw [show sp + 8 * more.length + 8 + 8 * i = sp + 8 * (more.length + 1 + i) by omega]
  exact same _ (by omega) (by omega)

end Stacked

/-! ### A record in memory -/

/-- Stores into the fields of a record at `sp`, one after the other. -/
def fill (mem : Nat → W) (sp : Nat) (fields : List (Nat × W)) : Nat → W :=
  fields.foldl (fun mem f => Function.update mem (sp + 8 * f.1) f.2) mem

variable {mem : Nat → W} {sp : Nat} {fields : List (Nat × W)}

/-- A field has what was stored last. -/
theorem fill_field (i : Nat) : fill mem sp fields (sp + 8 * i) =
    (fields.reverse.lookup i).getD (mem (sp + 8 * i)) := by
  induction fields generalizing mem with
  | nil => rfl
  | cons f fields ih =>
    obtain ⟨j, w⟩ := f
    rw [fill, List.foldl_cons, ← fill, ih, List.reverse_cons, List.lookup_append]
    by_cases same : i = j
    · subst same
      simp
    · have other : sp + 8 * i ≠ sp + 8 * j := by omega
      simp [List.lookup_cons, beq_eq_false_iff_ne.mpr same, Function.update_of_ne other]

end Landaux.Lib
