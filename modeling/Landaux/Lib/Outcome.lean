import Mathlib.Tactic

/-!
# Programs that return or stop

`Ends r post stop` is a total statement about a program `r`: it returns a value in `post`, or it stops
for a reason in `stop`. `turns` is a counted loop.
-/

namespace Landaux.Lib

variable {ε : Type*} {α β σ : Type}

def Ends (r : Except ε α) (post : α → Prop) (stop : ε → Prop) : Prop :=
  match r with
  | .ok a => post a
  | .error e => stop e

def turns (body : Nat → σ → Except ε σ) : Nat → σ → Except ε σ
  | 0, s => .ok s
  | n + 1, s => (turns body n s).bind (body n)

theorem ok_bind {a : α} {f : α → Except ε β} : (Except.ok a >>= f) = f a := rfl

namespace Ends

variable {r : Except ε α} {post post' : α → Prop} {stop stop' : ε → Prop}

theorem ok {a : α} (h : post a) : Ends (.ok a) post stop := h

theorem error {e : ε} (h : stop e) : Ends (.error e : Except ε α) post stop := h

theorem bind {f : α → Except ε β} {goal : β → Prop} (first : Ends r post stop)
    (rest : ∀ a, post a → Ends (f a) goal stop) : Ends (r >>= f) goal stop := by
  cases r with
  | ok a => exact rest a first
  | error e => exact first

theorem mono (h : Ends r post stop) (more : ∀ a, post a → post' a)
    (stops : ∀ e, stop e → stop' e) : Ends r post' stop' := by
  cases r with
  | ok a => exact more a h
  | error e => exact stops e h

theorem of_ok {a : α} (h : Ends r post stop) (eq : r = .ok a) : post a := by
  subst eq
  exact h

theorem of_error {e : ε} (h : Ends r post stop) (eq : r = .error e) : stop e := by
  subst eq
  exact h

/-- A program that cannot stop returns. -/
theorem total (h : Ends r post stop) (goes : ∀ e, ¬ stop e) : ∃ a, r = .ok a ∧ post a := by
  cases r with
  | ok a => exact ⟨a, rfl, h⟩
  | error e => exact absurd h (goes e)

/-- The value returned, with the fact that it is returned. -/
theorem returned (h : Ends r post stop) : Ends r (fun a => post a ∧ r = .ok a) stop := by
  cases r with
  | ok a => exact ⟨h, rfl⟩
  | error e => exact h

/-- The rule for a loop: `inv i` holds before turn `i`. -/
theorem turns (inv : Nat → σ → Prop) {body : Nat → σ → Except ε σ} {s : σ} (start : inv 0 s)
    (n : Nat) (turn : ∀ i s, i < n → inv i s → Ends (body i s) (inv (i + 1)) stop) :
    Ends (turns body n s) (inv n) stop := by
  induction n with
  | zero => exact start
  | succ n ih =>
    have before := ih fun i s below => turn i s (Nat.lt_succ_of_lt below)
    exact Ends.bind before fun s holds => turn n s (Nat.lt_succ_self n) holds

end Ends

attribute [irreducible] turns

end Landaux.Lib
