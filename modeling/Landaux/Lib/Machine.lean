import Mathlib.Tactic

/-!
# Runs of a labelled transition system

`Run step s events t` is a finite run from `s` to `t`. An invariant is proved for one step and
carried over a run by `Run.invariant`. `Throughout step P s events` says of every step that a run over
`events` from `s` takes that it is in `P`.
-/

namespace Landaux.Lib

variable {σ ε : Type*}

inductive Run (step : σ → ε → σ → Prop) : σ → List ε → σ → Prop where
  | nil (s : σ) : Run step s [] s
  | cons {s t u : σ} {e : ε} {events : List ε} (first : step s e t) (rest : Run step t events u) :
      Run step s (e :: events) u

namespace Run

variable {step : σ → ε → σ → Prop} {s t u : σ} {events later : List ε}

theorem append (h : Run step s events t) (k : Run step t later u) :
    Run step s (events ++ later) u := by
  induction h with
  | nil => exact k
  | cons first _ ih => exact .cons first (ih k)

theorem single {e : ε} (h : step s e t) : Run step s [e] t := .cons h (.nil t)

theorem snoc {e : ε} (h : Run step s events t) (last : step t e u) : Run step s (events ++ [e]) u :=
  h.append (.single last)

/-- A run over an appended list of events passes through a state between the two parts. -/
theorem split (h : Run step s (events ++ later) u) :
    ∃ mid, Run step s events mid ∧ Run step mid later u := by
  induction events generalizing s with
  | nil => exact ⟨s, .nil s, h⟩
  | cons e events ih =>
    cases h with
    | cons first rest =>
      obtain ⟨mid, before, after⟩ := ih rest
      exact ⟨mid, .cons first before, after⟩

theorem invariant {P : σ → Prop} (preserve : ∀ s e t, P s → step s e t → P t)
    (h : Run step s events t) (start : P s) : P t := by
  induction h with
  | nil => exact start
  | cons first _ ih => exact ih (preserve _ _ _ start first)

theorem mono {other : σ → ε → σ → Prop} (weaker : ∀ s e t, step s e t → other s e t)
    (h : Run step s events t) : Run other s events t := by
  induction h with
  | nil => exact .nil _
  | cons first _ ih => exact .cons (weaker _ _ _ first) ih

/-- A simulation carries a run over to the other system, with the same events. -/
theorem simulate {τ : Type*} {other : τ → ε → τ → Prop} {related : σ → τ → Prop} {a : τ}
    (simulates : ∀ s e t a, related s a → step s e t → ∃ b, other a e b ∧ related t b)
    (h : Run step s events t) (start : related s a) : ∃ b, Run other a events b ∧ related t b := by
  induction h generalizing a with
  | nil => exact ⟨a, .nil a, start⟩
  | cons first _ ih =>
    obtain ⟨b, next, relates⟩ := simulates _ _ _ a start first
    obtain ⟨c, rest, ends⟩ := ih relates
    exact ⟨c, .cons next rest, ends⟩

end Run

/-! ### What holds of every step -/

def Throughout (step : σ → ε → σ → Prop) (P : σ → ε → σ → Prop) (s : σ) (events : List ε) : Prop :=
  ∀ before e after mid next, events = before ++ e :: after → Run step s before mid →
    step mid e next → P mid e next

namespace Throughout

variable {step : σ → ε → σ → Prop} {P Q : σ → ε → σ → Prop} {s t : σ} {e : ε} {events : List ε}

theorem nil : Throughout step P s [] := fun before _ _ _ _ eq =>
  absurd (congrArg List.length eq) (by simp)

theorem cons_iff : Throughout step P s (e :: events) ↔
    ∀ t, step s e t → P s e t ∧ Throughout step P t events := by
  constructor
  · intro all t first
    refine ⟨all [] e events s t rfl (.nil s) first, ?_⟩
    intro before d after mid next eq run last
    exact all (e :: before) d after mid next (by rw [eq]; rfl) (.cons first run) last
  · intro all before d after mid next eq run last
    cases run with
    | nil =>
      obtain ⟨rfl, rfl⟩ := List.cons.inj eq
      exact (all _ last).1
    | cons first rest =>
      obtain ⟨rfl, tail⟩ := List.cons.inj eq
      exact (all _ first).2 _ d after mid next tail rest last

/-- Where the first step has one outcome. -/
theorem cons (one : ∀ u, step s e u → u = t) (here : P s e t) (later : Throughout step P t events) :
    Throughout step P s (e :: events) := by
  rw [cons_iff]
  intro u first
  obtain rfl := one u first
  exact ⟨here, later⟩

/-- An invariant that the steps in a property keep holds after a run of such steps. -/
theorem invariant {Good : σ → Prop} (throughout : Throughout step P s events) (run : Run step s events t)
    (start : Good s) (preserve : ∀ s e t, Good s → step s e t → P s e t → Good t) : Good t := by
  induction run with
  | nil => exact start
  | cons first _ ih =>
    obtain ⟨holds, later⟩ := cons_iff.mp throughout _ first
    exact ih later (preserve _ _ _ start first holds)

theorem and_iff : Throughout step (fun s e t => P s e t ∧ Q s e t) s events ↔
    Throughout step P s events ∧ Throughout step Q s events := by
  constructor
  · intro both
    exact ⟨fun before e after mid next eq run last => (both before e after mid next eq run last).1,
      fun before e after mid next eq run last => (both before e after mid next eq run last).2⟩
  · rintro ⟨left, right⟩ before e after mid next eq run last
    exact ⟨left before e after mid next eq run last, right before e after mid next eq run last⟩

/-- Two properties that agree on the steps of good states hold of the same runs, when a step in the
property leads to a good state again. -/
theorem congr (Good : σ → Prop) (start : Good s)
    (agree : ∀ s e t, Good s → step s e t → (P s e t ↔ Q s e t))
    (next : ∀ s e t, Good s → step s e t → P s e t → Good t) :
    Throughout step P s events ↔ Throughout step Q s events := by
  induction events generalizing s with
  | nil => exact iff_of_true nil nil
  | cons e events ih =>
    rw [cons_iff, cons_iff]
    refine forall_congr' fun t => forall_congr' fun first => ?_
    rw [← agree s e t start first]
    exact and_congr_right fun holds => ih (next s e t start first holds)

end Throughout

end Landaux.Lib
