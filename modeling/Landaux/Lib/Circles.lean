import Landaux.Lib.Ring

/-!
# Sets of circles

A circle is the list of its nodes from any of them on. A set of circles without common nodes stays one when a
node is linked into one of them or taken out of it, and the links of the other circles do not change.
-/

namespace Landaux.Lib

variable {α : Type*} {l l' : Links α} {h n w x : α} {r r' xs ys zs : List α} {rings : Set (List α)}

def Circle (l : Links α) : List α → Prop
  | [] => True
  | h :: xs => Ring l h xs

theorem Circle.rotate (circle : Circle l (ys ++ zs)) : Circle l (zs ++ ys) := by
  cases zs with
  | nil => rwa [List.append_nil] at circle
  | cons w zs =>
    cases ys with
    | nil => rwa [List.append_nil]
    | cons h ys => exact Ring.rotate circle

theorem Circle.congr (circle : Circle l r) (next : ∀ n ∈ r, l'.next n = l.next n)
    (prev : ∀ n ∈ r, l'.prev n = l.prev n) :
    Circle l' r := by
  cases r with
  | nil => exact trivial
  | cons h xs => exact Ring.congr circle next prev

theorem Circle.neighbours (circle : Circle l r) (member : n ∈ r) :
    (l.next n ∈ r ∧ l.prev (l.next n) = n) ∧ l.prev n ∈ r ∧ l.next (l.prev n) = n := by
  cases r with
  | nil => cases member
  | cons h xs => exact Ring.neighbours circle member

/-- Links that are the same but for some nodes. -/
def Links.SameOff (l l' : Links α) (nodes : List α) : Prop :=
  ∀ n ∉ nodes, l'.next n = l.next n ∧ l'.prev n = l.prev n

theorem Circle.off {nodes : List α} (circle : Circle l r) (same : l.SameOff l' nodes) (apart : r.Disjoint nodes) :
    Circle l' r :=
  circle.congr (fun _ member => (same _ (apart member)).1) fun _ member => (same _ (apart member)).2

variable [DecidableEq α]

/-! ### One circle -/

theorem Circle.add (circle : Circle l (ys ++ w :: zs)) (fresh : x ∉ ys ++ w :: zs) :
    Circle (l.add w x) (ys ++ w :: x :: zs) := by
  have turned : Ring l w (zs ++ ys) := circle.rotate
  have added : Circle (l.add w x) ((w :: x :: zs) ++ ys) := by
    apply turned.add
    intro member
    apply fresh
    simp only [List.mem_cons, List.mem_append] at member ⊢
    tauto
  exact added.rotate

theorem Circle.addBefore (circle : Circle l (ys ++ w :: zs)) (fresh : x ∉ ys ++ w :: zs) :
    Circle (l.addBefore w x) (ys ++ x :: w :: zs) := by
  have turned : Ring l w (zs ++ ys) := circle.rotate
  have added : Ring (l.addBefore w x) w (zs ++ ys ++ [x]) := by
    apply turned.add_before
    intro member
    apply fresh
    simp only [List.mem_cons, List.mem_append] at member ⊢
    tauto
  rw [List.append_assoc] at added
  have parts : Circle (l.addBefore w x) ((w :: zs) ++ (ys ++ [x])) := added
  have whole := parts.rotate
  rwa [List.append_assoc, List.singleton_append] at whole

theorem Circle.del (circle : Circle l (ys ++ x :: zs)) : Circle (l.del x) (ys ++ zs) := by
  have turned : Ring l x (zs ++ ys) := circle.rotate
  apply Circle.rotate
  cases rest : zs ++ ys with
  | nil => exact trivial
  | cons w us =>
    rw [rest] at turned
    exact turned.del_head

theorem Circle.add_off (circle : Circle l r) (member : w ∈ r) (fresh : x ∉ r) : l.SameOff (l.add w x) (x :: r) := by
  intro n off
  obtain ⟨other, outside⟩ := not_or.mp (mt List.mem_cons.mpr off)
  have notAt : n ≠ w := fun same => outside (same ▸ member)
  have notNext : n ≠ l.next w := fun same => outside (same ▸ (circle.neighbours member).1.1)
  have different : w ≠ x := fun same => fresh (same ▸ member)
  rw [Links.add_next, if_neg notAt, if_neg other, Links.add_prev different, if_neg notNext, if_neg other]
  exact ⟨rfl, rfl⟩

theorem Circle.addBefore_off (circle : Circle l r) (member : w ∈ r) (fresh : x ∉ r) :
    l.SameOff (l.addBefore w x) (x :: r) :=
  circle.add_off (circle.neighbours member).2.1 fresh

theorem Circle.del_off (circle : Circle l r) (member : x ∈ r) : l.SameOff (l.del x) r := by
  intro n outside
  obtain ⟨⟨next, -⟩, prev, -⟩ := circle.neighbours member
  have notPrev : n ≠ l.prev x := fun same => outside (same ▸ prev)
  have notNext : n ≠ l.next x := fun same => outside (same ▸ next)
  rw [Links.del_next, if_neg notPrev, Links.del_prev, if_neg notNext]
  exact ⟨rfl, rfl⟩

/-! ### All circles -/

omit [DecidableEq α]

/-- The links make these circles, without common nodes, and are inverse to each other on them. -/
structure Circles (l : Links α) (rings : Set (List α)) : Prop where
  circle : ∀ r ∈ rings, Circle l r
  apart : ∀ r ∈ rings, ∀ r' ∈ rings, r ≠ r' → r.Disjoint r'
  inverse : ∀ r ∈ rings, ∀ n ∈ r, l.prev (l.next n) = n ∧ l.next (l.prev n) = n

def Free (rings : Set (List α)) (n : α) : Prop := ∀ r ∈ rings, n ∉ r

theorem circles_of (circle : ∀ r ∈ rings, Circle l r) (apart : ∀ r ∈ rings, ∀ r' ∈ rings, r ≠ r' → r.Disjoint r') :
    Circles l rings :=
  ⟨circle, apart, fun r inside _ member =>
    ⟨((circle r inside).neighbours member).1.2, ((circle r inside).neighbours member).2.2⟩⟩

theorem Circles.off {nodes : List α} (circles : Circles l rings) (same : l.SameOff l' nodes)
    (free : ∀ n ∈ nodes, Free rings n) : Circles l' rings :=
  circles_of (fun r inside => (circles.circle r inside).off same fun _ inR inNodes => free _ inNodes r inside inR)
    circles.apart

/-- One circle more. -/
theorem Circles.insert (circles : Circles l rings) (circle : Circle l r) (free : ∀ n ∈ r, Free rings n) :
    Circles l (insert r rings) := by
  apply circles_of
  · rintro q (rfl | inside)
    · exact circle
    · exact circles.circle q inside
  · rintro q (rfl | inside) q' (rfl | inside') other
    · exact absurd rfl other
    · exact fun n member => free n member q' inside'
    · exact fun n member member' => free n member' q inside member
    · exact circles.apart q inside q' inside' other

/-- A circle is changed, with the links outside of it as they were. -/
theorem Circles.replace (circles : Circles l rings) (inside : r ∈ rings) (circle : Circle l' r') {nodes : List α}
    (same : l.SameOff l' nodes) (nodes_free : ∀ n ∈ nodes, n ∈ r ∨ Free rings n)
    (nodes_new : ∀ n ∈ r', n ∈ r ∨ Free rings n) : Circles l' (Insert.insert r' (rings \ {r})) := by
  have others : ∀ q ∈ rings \ {r}, ∀ n ∈ q, n ∈ r ∨ Free rings n → False := by
    rintro q ⟨member, other⟩ n inQ (inR | free)
    · exact circles.apart q member r inside other inQ inR
    · exact free q member inQ
  apply Circles.insert
  · apply circles_of
    · exact fun q member => (circles.circle q member.1).off same fun n inQ inNodes =>
        others q member n inQ (nodes_free n inNodes)
    · exact fun q member q' member' other => circles.apart q member.1 q' member'.1 other
  · exact circle
  · exact fun n new q member inQ => others q member n inQ (nodes_new n new)

end Landaux.Lib
