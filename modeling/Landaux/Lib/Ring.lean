import Mathlib.Tactic

/-!
# Circular doubly linked lists

Links live in the nodes, as `next` and `prev` of a node. `Ring l h xs` says that the links form one
circle through `h` and then `xs`; the operations store to the links one after another.
-/

namespace Landaux.Lib

variable {α : Type*}

structure Links (α : Type*) where
  next : α → α
  prev : α → α

namespace Links

variable [DecidableEq α]

def setNext (l : Links α) (n v : α) : Links α := { l with next := Function.update l.next n v }

def setPrev (l : Links α) (n v : α) : Links α := { l with prev := Function.update l.prev n v }

/-- `what` becomes a circle of its own. -/
def init (l : Links α) (what : α) : Links α := (l.setPrev what what).setNext what what

def add (l : Links α) (at' what : α) : Links α :=
  let l := l.setPrev what at'
  let l := l.setNext what (l.next at')
  let l := l.setPrev (l.next at') what
  l.setNext at' what

def addBefore (l : Links α) (at' what : α) : Links α := l.add (l.prev at') what

def addAll (l : Links α) (at' : α) (nodes : List α) : Links α := nodes.foldl (fun l what => l.add at' what) l

/-- The neighbours of `what` are linked to each other. -/
def del (l : Links α) (what : α) : Links α :=
  let l := l.setNext (l.prev what) (l.next what)
  l.setPrev (l.next what) (l.prev what)

variable {l : Links α} {w x n : α}

theorem add_next : (l.add w x).next n =
    if n = w then x else if n = x then l.next w else l.next n := by
  by_cases same : w = x
  · subst same
    by_cases here : n = w <;> simp [add, setNext, setPrev, here]
  · by_cases here : n = w <;> simp [add, setNext, setPrev, Function.update_apply, here]

theorem add_prev (other : w ≠ x) : (l.add w x).prev n =
    if n = l.next w then x else if n = x then w else l.prev n := by
  simp [add, setNext, setPrev, Function.update_apply, other]

theorem del_next : (l.del x).next n = if n = l.prev x then l.next x else l.next n := by
  simp [del, setNext, setPrev, Function.update_apply]

theorem del_prev : (l.del x).prev n = if n = l.next x then l.prev x else l.prev n := by
  by_cases self : x = l.prev x
  · simp [del, setNext, setPrev, Function.update_apply, ← self]
  · simp [del, setNext, setPrev, Function.update_apply, self]

end Links

/-! ### Paths and rings -/

/-- The links lead from `a` over `xs` to `b`, and back. -/
def Path (l : Links α) : α → List α → α → Prop
  | a, [], b => l.next a = b ∧ l.prev b = a
  | a, x :: xs, b => (l.next a = x ∧ l.prev x = a) ∧ Path l x xs b

structure Ring (l : Links α) (h : α) (xs : List α) : Prop where
  path : Path l h xs h
  nodup : (h :: xs).Nodup

variable {l l' : Links α} {a b h w x n : α} {xs ys zs : List α}

theorem Path.append : Path l a (xs ++ w :: ys) b ↔ Path l a xs w ∧ Path l w ys b := by
  induction xs generalizing a with
  | nil => exact Iff.rfl
  | cons x xs ih =>
    rw [List.cons_append, Path, Path, ih]
    exact and_assoc.symm

theorem Path.congr (path : Path l a xs b) (next : ∀ n ∈ a :: xs, l'.next n = l.next n)
    (prev : ∀ n ∈ xs ++ [b], l'.prev n = l.prev n) : Path l' a xs b := by
  induction xs generalizing a with
  | nil => exact ⟨(next a (by simp)).trans path.1, (prev b (by simp)).trans path.2⟩
  | cons x xs ih =>
    obtain ⟨⟨first, back⟩, rest⟩ := path
    refine ⟨⟨(next a (by simp)).trans first, (prev x (by simp)).trans back⟩, ih rest ?_ ?_⟩
    · exact fun n member => next n (List.mem_cons_of_mem _ member)
    · exact fun n member => prev n (List.mem_cons_of_mem _ member)

/-- Where a path starts. -/
theorem Path.first (path : Path l a xs b) : l.next a ∈ xs ++ [b] ∧ l.prev (l.next a) = a := by
  cases xs with
  | nil =>
    obtain ⟨next, prev⟩ := path
    rw [next]
    exact ⟨List.mem_singleton_self b, prev⟩
  | cons x xs =>
    obtain ⟨⟨next, prev⟩, -⟩ := path
    rw [next]
    exact ⟨List.mem_cons_self, prev⟩

theorem Path.next_headD (path : Path l a xs b) : l.next a = xs.headD b := by
  cases xs with
  | nil => exact path.1
  | cons x xs => exact path.1.1

theorem Path.last (path : Path l a xs b) : l.prev b ∈ a :: xs ∧ l.next (l.prev b) = b := by
  induction xs generalizing a with
  | nil =>
    obtain ⟨next, prev⟩ := path
    rw [prev]
    exact ⟨List.mem_singleton_self a, next⟩
  | cons x xs ih =>
    obtain ⟨member, back⟩ := ih path.2
    exact ⟨List.mem_cons_of_mem _ member, back⟩

theorem Path.unique (path : Path l a xs b) (path' : Path l a ys b) (off : b ∉ xs) (off' : b ∉ ys) :
    xs = ys := by
  induction xs generalizing a ys with
  | nil =>
    cases ys with
    | nil => rfl
    | cons y ys =>
      have same : b = y := path.1.symm.trans path'.1.1
      exact absurd (same ▸ List.mem_cons_self) off'
  | cons x xs ih =>
    cases ys with
    | nil =>
      have same : b = x := path'.1.symm.trans path.1.1
      exact absurd (same ▸ List.mem_cons_self) off
    | cons y ys =>
      obtain rfl : x = y := path.1.1.symm.trans path'.1.1
      rw [ih path.2 path'.2 (fun inXs => off (List.mem_cons_of_mem _ inXs))
        fun inYs => off' (List.mem_cons_of_mem _ inYs)]

namespace Ring

theorem unique (ring : Ring l h xs) (ring' : Ring l h ys) : xs = ys :=
  ring.path.unique ring'.path (List.nodup_cons.mp ring.nodup).1 (List.nodup_cons.mp ring'.nodup).1

/-- A circle can be entered at any of its nodes. -/
theorem rotate (ring : Ring l h (ys ++ w :: zs)) : Ring l w (zs ++ h :: ys) := by
  obtain ⟨before, after⟩ := Path.append.mp ring.path
  refine ⟨Path.append.mpr ⟨after, before⟩, ?_⟩
  have perm : (h :: (ys ++ w :: zs)).Perm (w :: (zs ++ h :: ys)) := by
    have shift : (h :: ys ++ w :: zs).Perm (w :: zs ++ h :: ys) := List.perm_append_comm
    exact shift
  exact perm.nodup_iff.mp ring.nodup

theorem congr (ring : Ring l h xs) (next : ∀ n ∈ h :: xs, l'.next n = l.next n)
    (prev : ∀ n ∈ h :: xs, l'.prev n = l.prev n) : Ring l' h xs := by
  refine ⟨ring.path.congr next fun n member => prev n ?_, ring.nodup⟩
  rcases List.mem_append.mp member with inXs | last
  · exact List.mem_cons_of_mem _ inXs
  · exact List.mem_singleton.mp last ▸ List.mem_cons_self

/-- A circle entered at a node of it. -/
theorem enter (ring : Ring l h xs) (member : n ∈ h :: xs) : ∃ ys, Ring l n ys ∧ (n :: ys).Perm (h :: xs) := by
  rcases List.mem_cons.mp member with rfl | inXs
  · exact ⟨xs, ring, List.Perm.refl _⟩
  · obtain ⟨ys, zs, rfl⟩ := List.mem_iff_append.mp inXs
    have shift : (n :: zs ++ h :: ys).Perm (h :: ys ++ n :: zs) := List.perm_append_comm
    exact ⟨zs ++ h :: ys, ring.rotate, shift⟩

/-- The neighbours of a node are in the circle, and are linked back to it. -/
theorem neighbours (ring : Ring l h xs) (member : n ∈ h :: xs) :
    (l.next n ∈ h :: xs ∧ l.prev (l.next n) = n) ∧ l.prev n ∈ h :: xs ∧ l.next (l.prev n) = n := by
  obtain ⟨ys, ring, perm⟩ := ring.enter member
  obtain ⟨first, back⟩ := ring.path.first
  obtain ⟨last, forth⟩ := ring.path.last
  refine ⟨⟨?_, back⟩, perm.mem_iff.mp last, forth⟩
  apply perm.mem_iff.mp
  rcases List.mem_append.mp first with inYs | self
  · exact List.mem_cons_of_mem _ inYs
  · rw [List.mem_singleton.mp self]
    exact List.mem_cons_self

variable [DecidableEq α]

theorem init (l : Links α) (h : α) : Ring (l.init h) h [] := by
  refine ⟨⟨?_, ?_⟩, List.nodup_singleton h⟩ <;> simp [Links.init, Links.setNext, Links.setPrev]

/-- A new node after the head. -/
theorem add (ring : Ring l h xs) (fresh : x ∉ h :: xs) : Ring (l.add h x) h (x :: xs) := by
  have notHead : x ≠ h := fun same => fresh (same ▸ List.mem_cons_self)
  have notNext : x ≠ l.next h := by
    rintro rfl
    exact fresh (ring.neighbours List.mem_cons_self).1.1
  have off : ∀ n ∈ xs, n ≠ h ∧ n ≠ x := by
    intro n member
    constructor
    · rintro rfl
      exact (List.nodup_cons.mp ring.nodup).1 member
    · rintro rfl
      exact fresh (List.mem_cons_of_mem _ member)
  refine ⟨⟨⟨?_, ?_⟩, ?_⟩, ?_⟩
  · rw [Links.add_next, if_pos rfl]
  · rw [Links.add_prev notHead.symm, if_neg notNext, if_pos rfl]
  · -- the old circle from its second node on
    cases xs with
    | nil =>
      obtain ⟨next, -⟩ := ring.path
      refine ⟨?_, ?_⟩
      · rw [Links.add_next, if_neg notHead, if_pos rfl, next]
      · rw [Links.add_prev notHead.symm, if_pos next.symm]
    | cons y ys =>
      obtain ⟨⟨next, prev⟩, rest⟩ := ring.path
      have nodup := List.nodup_cons.mp ring.nodup
      refine ⟨⟨?_, ?_⟩, rest.congr ?_ ?_⟩
      · rw [Links.add_next, if_neg notHead, if_pos rfl, next]
      · rw [Links.add_prev notHead.symm, if_pos next.symm]
      · intro n member
        obtain ⟨notH, notX⟩ := off n member
        rw [Links.add_next, if_neg notH, if_neg notX]
      · intro n member
        have notY : n ≠ l.next h := by
          rw [next]
          rintro rfl
          rcases List.mem_append.mp member with later | last
          · exact (List.nodup_cons.mp nodup.2).1 later
          · exact nodup.1 (List.mem_singleton.mp last ▸ List.mem_cons_self)
        have notX : n ≠ x := by
          rcases List.mem_append.mp member with later | last
          · exact (off n (List.mem_cons_of_mem _ later)).2
          · exact List.mem_singleton.mp last ▸ notHead.symm
        rw [Links.add_prev notHead.symm, if_neg notY, if_neg notX]
  · rw [List.nodup_cons, List.mem_cons, not_or, List.nodup_cons]
    have nodup := List.nodup_cons.mp ring.nodup
    exact ⟨⟨notHead.symm, nodup.1⟩, fun member => fresh (List.mem_cons_of_mem _ member), nodup.2⟩

/-- A new node after any node. -/
theorem add_after (ring : Ring l h (ys ++ w :: zs)) (fresh : x ∉ h :: (ys ++ w :: zs)) :
    Ring (l.add w x) h (ys ++ w :: x :: zs) := by
  have added : Ring (l.add w x) w (x :: (zs ++ h :: ys)) := by
    apply ring.rotate.add
    intro member
    apply fresh
    simp only [List.mem_cons, List.mem_append] at member ⊢
    tauto
  rw [← List.cons_append] at added
  exact added.rotate

/-- A new node before the head, which is the end of the list. -/
theorem add_before (ring : Ring l h xs) (fresh : x ∉ h :: xs) :
    Ring (l.addBefore h x) h (xs ++ [x]) := by
  unfold Links.addBefore
  rcases List.eq_nil_or_concat' xs with rfl | ⟨ys, y, rfl⟩
  · have self : l.prev h = h := ring.path.2
    rw [self]
    exact ring.add fresh
  · have last : l.prev h = y := (Path.append.mp ring.path).2.2
    rw [last, List.append_assoc]
    exact ring.add_after fresh

/-- The head is taken out. -/
theorem del_head (ring : Ring l x (w :: ys)) : Ring (l.del x) w ys := by
  obtain ⟨⟨next, prev⟩, rest⟩ := ring.path
  have nodup := List.nodup_cons.mp ring.nodup
  have nodup' := List.nodup_cons.mp nodup.2
  refine ⟨?_, nodup.2⟩
  rcases List.eq_nil_or_concat' ys with rfl | ⟨us, p, rfl⟩
  · obtain ⟨back, forth⟩ := rest
    refine ⟨?_, ?_⟩
    · rw [Links.del_next, if_pos forth.symm, next]
    · rw [Links.del_prev, if_pos next.symm, forth]
  · obtain ⟨front, back, forth⟩ := Path.append.mp rest
    apply Path.append.mpr
    refine ⟨front.congr ?_ ?_, ?_, ?_⟩
    · intro n member
      rw [Links.del_next, if_neg]
      rw [forth]
      rintro rfl
      rcases List.mem_cons.mp member with rfl | inUs
      · exact nodup'.1 (List.mem_append_right _ List.mem_cons_self)
      · exact List.disjoint_of_nodup_append nodup'.2 inUs List.mem_cons_self
    · intro n member
      rw [Links.del_prev, if_neg]
      rw [next]
      rintro rfl
      exact nodup'.1 member
    · rw [Links.del_next, if_pos forth.symm, next]
    · rw [Links.del_prev, if_pos next.symm, forth]

/-- A node other than the head is taken out. -/
theorem del (ring : Ring l h (ys ++ x :: zs)) : Ring (l.del x) h (ys ++ zs) := by
  have turned := ring.rotate
  cases zs with
  | nil =>
    rw [List.append_nil]
    exact turned.del_head
  | cons z zs =>
    have rest : Ring (l.del x) z (zs ++ h :: ys) := turned.del_head
    exact rest.rotate

end Ring

/-! ### Links that do not come back -/

def Links.Closed (l : Links α) (C : Set α) : Prop := ∀ c ∈ C, l.next c ∈ C

/-- The links lead away from `h` into a set of nodes that they do not leave. -/
def Trapped (l : Links α) (h : α) : Prop := ∃ C : Set α, h ∉ C ∧ l.next h ∈ C ∧ l.Closed C

variable {C : Set α}

theorem Links.Closed.iterate (closed : l.Closed C) (inside : a ∈ C) (k : Nat) : l.next^[k] a ∈ C := by
  induction k with
  | zero => exact inside
  | succ k ih =>
    rw [Function.iterate_succ_apply']
    exact closed _ ih

theorem Path.stays (path : Path l a xs b) (enters : l.next a ∈ C) (closed : l.Closed C) : b ∈ C := by
  induction xs generalizing a with
  | nil => exact path.1 ▸ enters
  | cons x xs ih =>
    have inside : x ∈ C := path.1.1 ▸ enters
    exact ih path.2 (closed x inside)

theorem Path.next_mem (path : Path l a xs b) (member : n ∈ xs) : l.next n ∈ xs ++ [b] := by
  induction xs generalizing a with
  | nil => cases member
  | cons x xs ih =>
    rcases List.mem_cons.mp member with rfl | later
    · exact List.mem_cons_of_mem _ path.2.first.1
    · exact List.mem_cons_of_mem _ (ih path.2 later)

theorem Ring.closed (ring : Ring l h xs) : l.Closed {n | n ∈ h :: xs} := fun _ member =>
  (ring.neighbours member).1.1

theorem Ring.not_trapped (ring : Ring l h xs) : ¬ Trapped l h := fun trapped => by
  obtain ⟨C, off, enters, closed⟩ := trapped
  exact off (ring.path.stays enters closed)

variable [DecidableEq α]

theorem Links.Closed.add (closed : l.Closed C) (head : h ∈ C) (node : x ∈ C) : (l.add h x).Closed C := by
  intro c member
  rw [Links.add_next]
  split
  · exact node
  split
  · exact closed h head
  · exact closed c member

theorem Links.Closed.addAll {qs : List α} (closed : l.Closed C) (head : h ∈ C) (nodes : ∀ q ∈ qs, q ∈ C) :
    (l.addAll h qs).Closed C := by
  induction qs generalizing l with
  | nil => exact closed
  | cons q qs ih =>
    exact ih (closed.add head (nodes q List.mem_cons_self)) fun p member => nodes p (List.mem_cons_of_mem _ member)

theorem Links.Closed.del (closed : l.Closed C) (node : x ∈ C) : (l.del x).Closed C := by
  intro c member
  rw [Links.del_next]
  split
  · exact closed x node
  · exact closed c member

/-- One more node after `h` changes nothing about it. -/
theorem Trapped.add (trapped : Trapped l h) (other : x ≠ h) : Trapped (l.add h x) h := by
  obtain ⟨C, off, enters, closed⟩ := trapped
  refine ⟨insert x C, ?_, ?_, ?_⟩
  · intro inside
    rcases Set.mem_insert_iff.mp inside with same | inC
    · exact other same.symm
    · exact off inC
  · rw [Links.add_next, if_pos rfl]
    exact Set.mem_insert x C
  · intro c member
    apply Set.mem_insert_of_mem
    rcases Set.mem_insert_iff.mp member with rfl | inC
    · rw [Links.add_next, if_neg other, if_pos rfl]
      exact enters
    · have away : c ≠ h := fun same => off (same ▸ inC)
      rw [Links.add_next, if_neg away]
      split
      · exact enters
      · exact closed c inC

theorem Trapped.addAll {qs : List α} (trapped : Trapped l h) (others : ∀ q ∈ qs, q ≠ h) :
    Trapped (l.addAll h qs) h := by
  induction qs generalizing l with
  | nil => exact trapped
  | cons q qs ih =>
    exact ih (trapped.add (others q List.mem_cons_self)) fun p member => others p (List.mem_cons_of_mem _ member)

/-- A node of a circle that is added again closes the links behind it. -/
theorem Ring.add_again (ring : Ring l h xs) (member : x ∈ xs) : Trapped (l.add h x) h := by
  obtain ⟨ys, zs, rfl⟩ := List.mem_iff_append.mp member
  obtain ⟨before, -⟩ := Path.append.mp ring.path
  have away : ∀ c ∈ ys ++ [x], c ≠ h := by
    rintro c inside rfl
    apply (List.nodup_cons.mp ring.nodup).1
    rcases List.mem_append.mp inside with inYs | last
    · exact List.mem_append_left _ inYs
    · exact List.mem_append_right _ (List.mem_singleton.mp last ▸ List.mem_cons_self)
  refine ⟨{c | c ∈ ys ++ [x]}, fun inside => away h inside rfl, ?_, ?_⟩
  · rw [Links.add_next, if_pos rfl]
    exact List.mem_append_right _ List.mem_cons_self
  · intro c inside
    change _ ∈ ys ++ [x]
    rw [Links.add_next, if_neg (away c inside)]
    split
    · exact before.first.1
    · rename_i other
      rcases List.mem_append.mp inside with inYs | last
      · exact before.next_mem inYs
      · exact absurd (List.mem_singleton.mp last) other

theorem Ring.addAll {qs : List α} (ring : Ring l h xs) (fresh : ∀ q ∈ qs, q ∉ h :: xs) (nodup : qs.Nodup) :
    Ring (l.addAll h qs) h (qs.reverse ++ xs) := by
  induction qs generalizing l xs with
  | nil => exact ring
  | cons q qs ih =>
    obtain ⟨first, nodup⟩ := List.nodup_cons.mp nodup
    rw [List.reverse_cons, List.append_assoc]
    apply ih (ring.add (fresh q List.mem_cons_self)) _ nodup
    intro p member inside
    rcases List.mem_cons.mp inside with rfl | inside
    · exact fresh p (List.mem_cons_of_mem _ member) List.mem_cons_self
    · rcases List.mem_cons.mp inside with rfl | inXs
      · exact first member
      · exact fresh p (List.mem_cons_of_mem _ member) (List.mem_cons_of_mem _ inXs)

end Landaux.Lib
