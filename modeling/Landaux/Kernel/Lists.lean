import Landaux.Lib.Circles

/-!
# Lists of the kernel

The operations of `list.h` on a heap of `list_t`, and `list_for_each` with a body that may work on lists, also
by unlinking the node that it visits.
-/

namespace Landaux
open Lib

structure ListNode where
  prev : Nat
  next : Nat

abbrev ListHeap := Nat → ListNode

namespace ListHeap

def setPrev (m : ListHeap) (p v : Nat) : ListHeap := Function.update m p { m p with prev := v }

def setNext (m : ListHeap) (p v : Nat) : ListHeap := Function.update m p { m p with next := v }

end ListHeap

def listAdd (m : ListHeap) (at' what : Nat) : ListHeap :=
  let m := m.setPrev what at'
  let m := m.setNext what (m at').next
  let m := m.setPrev (m at').next what
  m.setNext at' what

def listAddBefore (m : ListHeap) (at' what : Nat) : ListHeap := listAdd m (m at').prev what

def listDel (m : ListHeap) (what : Nat) : ListHeap :=
  let m := m.setNext (m what).prev (m what).next
  m.setPrev (m what).next (m what).prev

inductive ListOp where
  | add (at' what : Nat)
  | addBefore (at' what : Nat)
  | del (what : Nat)

def ListOp.act (m : ListHeap) : ListOp → ListHeap
  | .add at' what => listAdd m at' what
  | .addBefore at' what => listAddBefore m at' what
  | .del what => listDel m what

def ListOp.what : ListOp → Nat
  | .add _ what => what
  | .addBefore _ what => what
  | .del what => what

/-- `list_for_each` from `p` on, for at most `turns` turns: the nodes that are visited, and the state after it. The
body works on lists and has a state of its own. -/
def listForEach {σ : Type*} (list : Nat) (body : Nat → σ → List ListOp × σ) :
    Nat → Nat → ListHeap → σ → Option (List Nat × ListHeap × σ)
  | 0, p, m, s => if p = list then some ([], m, s) else none
  | turns + 1, p, m, s =>
    if p = list then some ([], m, s)
    else do
      let (ops, s) := body p s
      let m := ops.foldl ListOp.act m
      let (visited, m, s) ← listForEach list body turns (m p).next m s
      return (p :: visited, m, s)

variable {m m' : ListHeap} {at' what h n p : Nat} {xs ys zs ring kept : List Nat} {rings rings' others : Set (List Nat)}
  {op : ListOp}

/-! ### Operations on sets of rings -/

def links (m : ListHeap) : Links Nat := ⟨fun p => (m p).next, fun p => (m p).prev⟩

theorem links_setPrev (p v : Nat) : links (m.setPrev p v) = (links m).setPrev p v := by
  have prev : (fun q => (m.setPrev p v q).prev) = Function.update (fun q => (m q).prev) p v := by
    funext q
    by_cases here : q = p <;> simp [ListHeap.setPrev, here]
  have next : (fun q => (m.setPrev p v q).next) = fun q => (m q).next := by
    funext q
    by_cases here : q = p <;> simp [ListHeap.setPrev, here]
  exact congrArg₂ Links.mk next prev

theorem links_setNext (p v : Nat) : links (m.setNext p v) = (links m).setNext p v := by
  have prev : (fun q => (m.setNext p v q).prev) = fun q => (m q).prev := by
    funext q
    by_cases here : q = p <;> simp [ListHeap.setNext, here]
  have next : (fun q => (m.setNext p v q).next) = Function.update (fun q => (m q).next) p v := by
    funext q
    by_cases here : q = p <;> simp [ListHeap.setNext, here]
  exact congrArg₂ Links.mk next prev

theorem next_links (m : ListHeap) (p : Nat) : (m p).next = (links m).next p := rfl

theorem prev_links (m : ListHeap) (p : Nat) : (m p).prev = (links m).prev p := rfl

theorem links_listAdd : links (listAdd m at' what) = (links m).add at' what := by
  simp only [listAdd, Links.add, next_links, links_setNext, links_setPrev]

theorem links_listAddBefore : links (listAddBefore m at' what) = (links m).addBefore at' what := links_listAdd

theorem links_listDel : links (listDel m what) = (links m).del what := by
  simp only [listDel, Links.del, next_links, prev_links, links_setNext, links_setPrev]

/-- What an operation makes of the rings: a node in none of them is linked in directly after or before a node of
one, or a node of one is taken out of it. The other rings stay. -/
inductive ListOp.Does (rings : Set (List Nat)) : ListOp → Set (List Nat) → Prop where
  | add {ys zs : List Nat} {at' what : Nat} (inside : ys ++ at' :: zs ∈ rings) (free : Free rings what) :
      Does rings (.add at' what) (insert (ys ++ at' :: what :: zs) (rings \ {ys ++ at' :: zs}))
  | addBefore {ys zs : List Nat} {at' what : Nat} (inside : ys ++ at' :: zs ∈ rings) (free : Free rings what) :
      Does rings (.addBefore at' what) (insert (ys ++ what :: at' :: zs) (rings \ {ys ++ at' :: zs}))
  | del {ys zs : List Nat} {what : Nat} (inside : ys ++ what :: zs ∈ rings) :
      Does rings (.del what) (insert (ys ++ zs) (rings \ {ys ++ what :: zs}))

/-- The cells outside of `nodes` are as they were. -/
theorem cell_off {nodes : List Nat} (same : (links m).SameOff (links m') nodes) (off : n ∉ nodes) : m' n = m n := by
  obtain ⟨next, prev⟩ := same n off
  cases before : m n
  cases after : m' n
  simp only [links, before, after] at next prev
  rw [next, prev]

theorem free_cons (free : Free rings what) : ∀ n ∈ what :: ring, n ∈ ring ∨ Free rings n := by
  intro n member
  rcases List.mem_cons.mp member with rfl | inRing
  · exact .inr free
  · exact .inl inRing

/-- The rings after an operation. It writes to nodes of a ring and to the node that it is about only. -/
theorem ListOp.Does.act (does : op.Does rings rings') (circles : Circles (links m) rings) :
    Circles (links (op.act m)) rings' ∧ ∀ n, Free rings n → n ≠ op.what → op.act m n = m n := by
  cases does with
  | @add ys zs at' what inside free =>
    have circle := circles.circle _ inside
    have off := circle.add_off (List.mem_append_right ys List.mem_cons_self) (free _ inside)
    rw [← links_listAdd] at off
    refine ⟨circles.replace inside ?_ off (free_cons free) ?_, ?_⟩
    · rw [ListOp.act, links_listAdd]
      exact circle.add (free _ inside)
    · intro n member
      apply free_cons free
      simp only [List.mem_append, List.mem_cons] at member ⊢
      tauto
    · exact fun n outside other => cell_off off (List.not_mem_cons_of_ne_of_not_mem other (outside _ inside))
  | @addBefore ys zs at' what inside free =>
    have circle := circles.circle _ inside
    have off := circle.addBefore_off (List.mem_append_right ys List.mem_cons_self) (free _ inside)
    rw [← links_listAddBefore] at off
    refine ⟨circles.replace inside ?_ off (free_cons free) ?_, ?_⟩
    · rw [ListOp.act, links_listAddBefore]
      exact circle.addBefore (free _ inside)
    · intro n member
      apply free_cons free
      simp only [List.mem_append, List.mem_cons] at member ⊢
      tauto
    · exact fun n outside other => cell_off off (List.not_mem_cons_of_ne_of_not_mem other (outside _ inside))
  | @del ys zs _ inside =>
    have circle := circles.circle _ inside
    have off := circle.del_off (List.mem_append_right ys List.mem_cons_self)
    rw [← links_listDel] at off
    refine ⟨circles.replace inside ?_ off (fun n member => .inl member) ?_, ?_⟩
    · rw [ListOp.act, links_listDel]
      exact circle.del
    · intro n member
      apply Or.inl
      simp only [List.mem_append, List.mem_cons] at member ⊢
      tauto
    · exact fun n outside _ => cell_off off (outside _ inside)

theorem ListOp.Does.free (does : op.Does rings rings') (free : Free rings n) (other : n ≠ op.what) : Free rings' n := by
  cases does with
  | add inside | addBefore inside | del inside =>
    have off := free _ inside
    simp only [ListOp.what, List.mem_append, List.mem_cons, not_or] at off other
    rintro r (rfl | ⟨old, -⟩)
    · simp only [List.mem_append, List.mem_cons]
      tauto
    · exact free r old

/-! ### Loops that work on lists -/

/-- What the operations of a loop's body do when it visits `p`: they take it out of the ring that is gone through, if
it is still `linked`, and work on `others` without the `nodes` of that ring. -/
inductive BodyRuns (nodes : List Nat) (p : Nat) :
    Bool → Set (List Nat) → List ListOp → Bool → Set (List Nat) → Prop where
  | done {linked : Bool} {others : Set (List Nat)} : BodyRuns nodes p linked others [] linked others
  | unlink {linked' : Bool} {others others' : Set (List Nat)} {ops : List ListOp}
      (rest : BodyRuns nodes p false others ops linked' others') :
      BodyRuns nodes p true others (.del p :: ops) linked' others'
  | elsewhere {linked linked' : Bool} {others others₁ others' : Set (List Nat)} {op : ListOp} {ops : List ListOp}
      (does : op.Does others others₁) (other : op.what ∉ nodes)
      (rest : BodyRuns nodes p linked others₁ ops linked' others') :
      BodyRuns nodes p linked others (op :: ops) linked' others'

/-- The bodies for the nodes that are visited, with the nodes that stay in the ring. -/
inductive LoopRuns {σ : Type*} (nodes : List Nat) (body : Nat → σ → List ListOp × σ) :
    List Nat → σ → Set (List Nat) → List Nat → σ → Set (List Nat) → Prop where
  | done {s : σ} {others : Set (List Nat)} : LoopRuns nodes body [] s others [] s others
  | visit {p : Nat} {xs kept : List Nat} {s s' : σ} {linked : Bool} {others others₁ others' : Set (List Nat)}
      (turn : BodyRuns nodes p true others (body p s).1 linked others₁)
      (rest : LoopRuns nodes body xs (body p s).2 others₁ kept s' others') :
      LoopRuns nodes body (p :: xs) s others ((if linked then [p] else []) ++ kept) s' others'

/-- Between the operations of a body at `p`, with the nodes `ys` of the ring before it and `zs` after it. -/
structure InBody (m : ListHeap) (nodes : List Nat) (h : Nat) (ys : List Nat) (p : Nat) (linked : Bool) (zs : List Nat)
    (others : Set (List Nat)) : Prop where
  ring : Ring (links m) h (ys ++ (if linked then [p] else []) ++ zs)
  next : (m p).next = zs.headD h
  circles : Circles (links m) others
  apart : ∀ n ∈ nodes, Free others n
  within : ∀ n ∈ h :: (ys ++ p :: zs), n ∈ nodes

variable {nodes : List Nat}

theorem LoopRuns.sublist {σ : Type*} {body : Nat → σ → List ListOp × σ} {s s' : σ}
    (runs : LoopRuns nodes body xs s others kept s' rings') : kept.Sublist xs := by
  induction runs with
  | done => exact List.Sublist.refl []
  | @visit p xs kept s s' linked others others₁ others' turn rest ih =>
    cases linked with
    | true => exact ih.cons_cons p
    | false => exact ih.cons p

theorem mem_linked {linked : Bool} (member : n ∈ h :: (ys ++ (if linked then [p] else []) ++ zs)) :
    n ∈ h :: (ys ++ p :: zs) := by
  cases linked with
  | true => simpa using member
  | false =>
    simp only [List.mem_cons, List.mem_append] at member ⊢
    tauto

theorem InBody.unlink (inBody : InBody m nodes h ys p true zs others) :
    InBody (listDel m p) nodes h ys p false zs others := by
  obtain ⟨ring, next, circles, apart, within⟩ := inBody
  have whole : Ring (links m) h (ys ++ p :: zs) := by rwa [if_pos rfl, List.append_assoc] at ring
  have circle : Circle (links m) (h :: (ys ++ p :: zs)) := whole
  have off := circle.del_off (x := p) (by simp)
  rw [← links_listDel] at off
  refine ⟨?_, ?_, circles.off off fun n member => apart n (within n member), apart, within⟩
  · rw [links_listDel]
    simpa using whole.del
  · rw [next_links, links_listDel, Links.del_next, ← next]
    split <;> rfl

theorem InBody.elsewhere {linked : Bool} (inBody : InBody m nodes h ys p linked zs others)
    (does : op.Does others rings') (other : op.what ∉ nodes) : InBody (op.act m) nodes h ys p linked zs rings' := by
  obtain ⟨ring, next, circles, apart, within⟩ := inBody
  obtain ⟨after, off⟩ := does.act circles
  have away : ∀ n ∈ nodes, n ≠ op.what := by
    rintro n member rfl
    exact other member
  have cell : ∀ n ∈ h :: (ys ++ p :: zs), op.act m n = m n := fun n member =>
    off n (apart n (within n member)) (away n (within n member))
  refine ⟨?_, ?_, after, fun n member => does.free (apart n member) (away n member), within⟩
  · apply ring.congr
    · intro n member
      rw [← next_links, cell n (mem_linked member), next_links]
    · intro n member
      rw [← prev_links, cell n (mem_linked member), prev_links]
  · rw [cell p (by simp), next]

theorem InBody.runs {linked linked' : Bool} {ops : List ListOp}
    (runs : BodyRuns nodes p linked others ops linked' rings') (inBody : InBody m nodes h ys p linked zs others) :
    InBody (ops.foldl ListOp.act m) nodes h ys p linked' zs rings' := by
  induction runs generalizing m with
  | done => exact inBody
  | unlink rest ih => exact ih inBody.unlink
  | elsewhere does other rest ih => exact ih (inBody.elsewhere does other)

/-- The loop from a node on: it visits that node and all after it, and leaves those that stay in the ring. -/
theorem LoopRuns.visits {σ : Type*} {body : Nat → σ → List ListOp × σ} {s s' : σ} {turns : Nat}
    (runs : LoopRuns nodes body zs s others kept s' rings') (ring : Ring (links m) h (ys ++ zs))
    (circles : Circles (links m) others) (apart : ∀ n ∈ nodes, Free others n)
    (within : ∀ n ∈ h :: (ys ++ zs), n ∈ nodes)
    (enough : zs.length ≤ turns) :
    ∃ m', listForEach h body turns (zs.headD h) m s = some (zs, m', s') ∧ Ring (links m') h (ys ++ kept) ∧
      Circles (links m') rings' ∧ ∀ n ∈ nodes, Free rings' n := by
  induction runs generalizing m ys turns with
  | done =>
    refine ⟨m, ?_, ring, circles, apart⟩
    cases turns <;> exact if_pos rfl
  | @visit p zs kept s s' linked others others₁ others' turn rest ih =>
    cases turns with
    | zero => exact absurd enough (Nat.not_succ_le_zero _)
    | succ turns =>
      have start : InBody m nodes h ys p true zs others := by
        refine ⟨?_, ?_, circles, apart, within⟩
        · simpa using ring
        · rw [next_links, ring.rotate.path.next_headD]
          cases zs <;> rfl
      obtain ⟨ring', next, circles', apart', -⟩ := start.runs turn
      have notHead : p ≠ h := by
        rintro rfl
        exact (List.nodup_cons.mp ring.nodup).1 (List.mem_append_right ys List.mem_cons_self)
      obtain ⟨m', visited, kept', rest'⟩ := ih ring' circles' apart' (fun n member => within n (mem_linked member))
        (Nat.le_of_succ_le_succ enough)
      refine ⟨m', ?_, by rwa [← List.append_assoc], rest'⟩
      show listForEach h body (turns + 1) p m s = _
      rw [listForEach, if_neg notHead]
      simp only [next, visited, bind, Option.bind]
      rfl

/-! ### The loops of the kernel -/

/-- The loop of `free_mm`: the area was freed, its links are still there. -/
def freeMmBody {σ : Type*} (iter : Nat) (s : σ) : List ListOp × σ := ([.del iter], s)

/-- The loop of `scheduler_tick`: `idle` and `running` are the addresses of the links of a task's `running`. -/
def tickBody {σ : Type*} (idle : Nat) (running : Nat → Nat) (due : Nat → Bool) (it : Nat) (s : σ) : List ListOp × σ :=
  (if due it then [.del it, .add idle (running it)] else [], s)

def wakeupBody {σ : Type*} (idle : Nat) (running : Nat → Nat) (iter : Nat) (s : σ) : List ListOp × σ :=
  ([.del iter, .add idle (running iter)], s)

theorem wakeupBody_eq {σ : Type*} {idle : Nat} {running : Nat → Nat} :
    wakeupBody (σ := σ) idle running = tickBody idle running fun _ => true := rfl

theorem freeMm_runs {σ : Type*} {s : σ} : LoopRuns nodes freeMmBody xs s others [] s others := by
  induction xs with
  | nil => exact .done
  | cons p xs ih =>
    have turn : BodyRuns nodes p true others (freeMmBody p s).1 false others := .unlink .done
    exact .visit turn ih

/-- The tasks that are woken end up right after `idle`, the last one first. -/
theorem tick_runs {σ : Type*} {s : σ} {idle : Nat} {run : List Nat} {running : Nat → Nat} {due : Nat → Bool}
    (queue : idle :: run ∈ others) (free : ∀ p ∈ xs.filter due, Free others (running p) ∧ running p ∉ nodes)
    (nodup : ((xs.filter due).map running).Nodup) :
    ∃ others', idle :: (((xs.filter due).map running).reverse ++ run) ∈ others' ∧
      LoopRuns nodes (tickBody idle running due) xs s others (xs.filter fun p => !due p) s others' := by
  induction xs generalizing others run with
  | nil => exact ⟨others, queue, .done⟩
  | cons p xs ih =>
    by_cases woken : due p = true
    · rw [List.filter_cons_of_pos woken] at free nodup
      obtain ⟨first, others_free⟩ := List.forall_mem_cons.mp free
      obtain ⟨different, nodup⟩ := List.nodup_cons.mp nodup
      have inside : [] ++ idle :: run ∈ others := queue
      have does : ListOp.Does others (.add idle (running p)) _ := .add inside first.1
      obtain ⟨others', queue', runs⟩ := ih (Set.mem_insert _ _) (fun q member => by
        refine ⟨does.free (others_free q member).1 ?_, (others_free q member).2⟩
        intro same
        exact different (List.mem_map.mpr ⟨q, member, same⟩)) nodup
      refine ⟨others', by simpa [woken] using queue', ?_⟩
      have ops : (tickBody idle running due p s).1 = [.del p, .add idle (running p)] := if_pos woken
      have turn := BodyRuns.unlink (p := p) (.elsewhere does first.2 .done)
      rw [← ops] at turn
      simpa [woken] using LoopRuns.visit turn runs
    · rw [List.filter_cons_of_neg woken] at free nodup
      obtain ⟨others', queue', runs⟩ := ih queue free nodup
      refine ⟨others', by simpa [woken] using queue', ?_⟩
      have turn : BodyRuns nodes p true others (tickBody idle running due p s).1 true others := by
        rw [tickBody, if_neg woken]
        exact .done
      simpa [woken] using LoopRuns.visit turn runs

/-- The rings of `list.h`: every operation changes one of them as it should, and `list_for_each` visits the nodes of
a ring once each and in order, whatever its body takes out. -/
theorem list_operations {σ : Type*} (circles : Circles (links m) rings) :
    (∀ op rings', ListOp.Does rings op rings' → Circles (links (op.act m)) rings' ∧
      ∀ n, Free rings n → n ≠ op.what → op.act m n = m n) ∧
    ∀ h xs (body : Nat → σ → List ListOp × σ) s kept s' others' turns, h :: xs ∈ rings →
      LoopRuns (h :: xs) body xs s (rings \ {h :: xs}) kept s' others' → xs.length ≤ turns →
      ∃ m', listForEach h body turns (m h).next m s = some (xs, m', s') ∧ xs.Nodup ∧
        Circles (links m') (insert (h :: kept) others') := by
  constructor
  · exact fun op rings' does => does.act circles
  · intro h xs body s kept s' others' turns inside runs enough
    have ring : Ring (links m) h ([] ++ xs) := circles.circle _ inside
    have first : (m h).next = xs.headD h := ring.path.next_headD
    have others : Circles (links m) (rings \ {h :: xs}) := circles_of
      (fun r member => circles.circle r member.1) fun r member r' member' => circles.apart r member.1 r' member'.1
    have apart : ∀ n ∈ h :: xs, Free (rings \ {h :: xs}) n := fun n inRing r member inR =>
      circles.apart r member.1 _ inside member.2 inR inRing
    obtain ⟨m', visited, left, others', apart'⟩ := runs.visits ring others apart (fun n member => member) enough
    refine ⟨m', first ▸ visited, (List.nodup_cons.mp ring.nodup).2, others'.insert left ?_⟩
    intro n member
    apply apart'
    rcases List.mem_cons.mp member with rfl | inKept
    · exact List.mem_cons_self
    · exact List.mem_cons_of_mem h (runs.sublist.mem inKept)

/-- Sleepers 2 and 3 in the list at 1, with `idle` at 4 -/
def twoSleepers : ListHeap := fun p =>
  if p = 1 then ⟨3, 2⟩ else if p = 2 then ⟨1, 3⟩ else if p = 3 then ⟨2, 1⟩ else ⟨p, p⟩

theorem list_operations_tick :
    Circles (links (listDel twoSleepers 2)) (insert ([1] ++ [3]) ({[1, 2, 3], [4]} \ {[1] ++ 2 :: [3]})) ∧
      ∃ m', listForEach 1 (tickBody 4 (· + 10) (· = 2)) 2 2 twoSleepers () = some ([2, 3], m', ()) := by
  have circles : Circles (links twoSleepers) {[1, 2, 3], [4]} := by
    apply circles_of
    · rintro r (rfl | rfl)
      · exact ⟨⟨⟨rfl, rfl⟩, ⟨rfl, rfl⟩, rfl, rfl⟩, by decide⟩
      · exact ⟨⟨rfl, rfl⟩, by decide⟩
    · rintro r (rfl | rfl) r' (rfl | rfl) other
      all_goals first | exact absurd rfl other | simp
  obtain ⟨operations, loops⟩ := list_operations (σ := Unit) circles
  have queue : [4] ∈ ({[1, 2, 3], [4]} : Set (List Nat)) \ {[1, 2, 3]} := by simp
  have free : ∀ p ∈ [2, 3].filter (· = 2), Free ({[1, 2, 3], [4]} \ {[1, 2, 3]}) (p + 10) ∧ p + 10 ∉ [1, 2, 3] := by
    simp [Free]
  obtain ⟨others', -, runs⟩ := tick_runs (s := ()) queue free (by decide)
  obtain ⟨m', visited, -⟩ := loops 1 [2, 3] _ () _ () others' 2 (by simp) runs (by decide)
  have inside : [1] ++ 2 :: [3] ∈ ({[1, 2, 3], [4]} : Set (List Nat)) := by simp
  exact ⟨(operations (.del 2) _ (.del inside)).1, m', visited⟩

end Landaux
