import Landaux.Kernel.Lists
import Landaux.Mm.Vma

/-!
# The ring of the areas

`mm_add_area` and `mm_find_area` on the links of `mm.vm_areas`. A `vm_area_t` is known by the address of its
`list`. The calls keep the ring sorted, and on the list of its areas they are `insertArea` and a search.
-/

namespace Landaux
open Lib

def roundPageUp64 (x : Nat) : Nat := roundPageDown ((x + PAGE_SIZE - 1) % 2 ^ 64)

structure AreaRing where
  links : ListHeap
  area : Nat → Area

inductive AreaStop where
  /-- `BUG_ON` -/
  | bug
  /-- a loop of the model that is longer than it can be -/
  | turns
  deriving DecidableEq

/-- A call of `mm_add_area`, and the address that `kzalloc` answers. -/
structure AddArea where
  start : Nat
  size : Nat
  prot : BitVec 32
  file : Option FileId
  offset : Nat
  kzalloc : Option Nat

/-- The area that is made, with the sum of two `u64` as its end. -/
def AddArea.area (c : AddArea) : Area := ⟨c.start, (c.start + c.size) % 2 ^ 64, c.prot, c.file, c.offset⟩

/-- The area that a call adds, with its address. -/
def AddArea.added (c : AddArea) : Option (Nat × Area) := c.kzalloc.map (·, c.area)

def AddArea.ret (c : AddArea) : Int := if c.kzalloc = none then -ENOMEM else 0

namespace AreaRing

/-- The loop of `mm_add_area` from `iter` on: where the list head or `break` ends it. -/
def findPlace (s : AreaRing) (head start : Nat) : Nat → Nat → Except AreaStop Nat
  | 0, iter => if iter = head then .ok iter else .error .turns
  | turns + 1, iter =>
    if iter = head then .ok iter
    else if start = (s.area iter).start then .error .bug
    else if start < (s.area iter).start then .ok iter
    else findPlace s head start turns (s.links iter).next

def mmAddArea (head turns : Nat) (c : AddArea) (s : AreaRing) : Except AreaStop (Int × AreaRing) := do
  let iter ← s.findPlace head c.start turns (s.links head).next
  match c.kzalloc with
  | none => return (-ENOMEM, s)
  | some new => return (0, ⟨listAddBefore s.links iter new, Function.update s.area new c.area⟩)

def covers (a : Area) (address : Nat) : Prop := a.start ≤ address ∧ address < roundPageUp64 a.end

instance (a : Area) (address : Nat) : Decidable (covers a address) := inferInstanceAs (Decidable (_ ∧ _))

/-- The loop of `mm_find_area` from `iter` on; `none` is its `NULL`. -/
def findFrom (s : AreaRing) (head address : Nat) : Nat → Nat → Except AreaStop (Option Nat)
  | 0, iter => if iter = head then .ok none else .error .turns
  | turns + 1, iter =>
    if iter = head then .ok none
    else if covers (s.area iter) address then .ok (some iter)
    else findFrom s head address turns (s.links iter).next

def mmFindArea (head turns address : Nat) (s : AreaRing) : Except AreaStop (Option Nat) :=
  s.findFrom head address turns (s.links head).next

/-- Calls one after another, with what they return. -/
def addAreas (head turns : Nat) : List AddArea → AreaRing → Except AreaStop (List Int × AreaRing)
  | [], s => .ok ([], s)
  | c :: calls, s => do
    let (ret, s) ← s.mmAddArea head turns c
    let (rets, s) ← addAreas head turns calls s
    return (ret :: rets, s)

variable {s t : AreaRing} {head turns start address x : Nat} {nodes ys zs : List Nat} {c : AddArea}

/-- The areas of these nodes are in the ring at `head`, sorted. -/
structure Holds (s : AreaRing) (head : Nat) (nodes : List Nat) : Prop where
  ring : Ring (Landaux.links s.links) head nodes
  sorted : Sorted (nodes.map s.area)

theorem next_of_ring (ring : Ring (Landaux.links s.links) head (ys ++ x :: zs)) : (s.links x).next = zs.headD head := by
  rw [next_links, ring.rotate.path.next_headD]
  cases zs <;> rfl

theorem not_head (ring : Ring (Landaux.links s.links) head (ys ++ x :: zs)) : x ≠ head := by
  rintro rfl
  exact (List.nodup_cons.mp ring.nodup).1 (List.mem_append_right ys List.mem_cons_self)

/-- The loop ends where `insertArea` inserts. -/
theorem findPlace_spec (new : Area) (zs : List Nat) : ∀ ys turns, Ring (Landaux.links s.links) head (ys ++ zs) →
    zs.length ≤ turns →
    (insertArea new (zs.map s.area) = .error .area ∧ s.findPlace head new.start turns (zs.headD head) = .error .bug) ∨
      ∃ us vs, zs = us ++ vs ∧ insertArea new (zs.map s.area) = .ok (us.map s.area ++ new :: vs.map s.area) ∧
        s.findPlace head new.start turns (zs.headD head) = .ok (vs.headD head) := by
  induction zs with
  | nil =>
    intro ys turns ring enough
    refine .inr ⟨[], [], rfl, rfl, ?_⟩
    cases turns <;> exact if_pos rfl
  | cons x zs ih =>
    intro ys turns ring enough
    cases turns with
    | zero => exact absurd enough (Nat.not_succ_le_zero _)
    | succ turns =>
      rw [List.map_cons, insertArea, List.headD_cons, findPlace, if_neg (not_head ring)]
      by_cases same : new.start = (s.area x).start
      · rw [if_pos same, if_pos same]
        exact .inl ⟨rfl, rfl⟩
      rw [if_neg same, if_neg same]
      by_cases before : new.start < (s.area x).start
      · rw [if_pos before, if_pos before]
        exact .inr ⟨[], x :: zs, rfl, rfl, rfl⟩
      rw [if_neg before, if_neg before, next_of_ring ring]
      have ring' : Ring (Landaux.links s.links) head (ys ++ [x] ++ zs) := by
        rwa [List.append_assoc, List.singleton_append]
      rcases ih (ys ++ [x]) turns ring' (Nat.le_of_succ_le_succ enough) with
        ⟨taken, bug⟩ | ⟨us, vs, parts, inserted, found⟩
      · rw [taken, bug]
        exact .inl ⟨rfl, rfl⟩
      · rw [inserted, found]
        exact .inr ⟨x :: us, vs, congrArg _ parts, rfl, rfl⟩

/-- A new node is linked in where the loop ended. -/
theorem ring_insert {new : Nat} (ring : Ring (Landaux.links s.links) head (ys ++ zs))
    (fresh : new ∉ head :: (ys ++ zs)) :
    Ring (Landaux.links (listAddBefore s.links (zs.headD head) new)) head (ys ++ new :: zs) := by
  rw [links_listAddBefore]
  cases zs with
  | nil =>
    rw [List.append_nil] at ring fresh
    exact ring.add_before fresh
  | cons v zs =>
    have circle : Circle (Landaux.links s.links) ((head :: ys) ++ v :: zs) := ring
    exact circle.addBefore fresh

/-- How a call ends: as `mm_add_area` on the list of areas does. -/
inductive AddEnds (s : AreaRing) (head : Nat) (nodes : List Nat) (c : AddArea) :
    Except AreaStop (Int × AreaRing) → Prop where
  | taken (bug : insertArea c.area (nodes.map s.area) = .error .area) : AddEnds s head nodes c (.error .bug)
  | refused (refused : c.kzalloc = none) : AddEnds s head nodes c (.ok (-ENOMEM, s))
  | added {new : Nat} {t : AreaRing} {us vs : List Nat} (given : c.kzalloc = some new) (parts : nodes = us ++ vs)
      (ring : Ring (Landaux.links t.links) head (us ++ new :: vs)) (here : t.area new = c.area)
      (others : ∀ x ∈ nodes, t.area x = s.area x)
      (inserted : insertArea c.area (nodes.map s.area) = .ok ((us ++ new :: vs).map t.area)) :
      AddEnds s head nodes c (.ok (0, t))

theorem mmAddArea_ends (ring : Ring (Landaux.links s.links) head nodes) (enough : nodes.length ≤ turns)
    (fresh : ∀ new, c.kzalloc = some new → new ∉ head :: nodes) :
    AddEnds s head nodes c (s.mmAddArea head turns c) := by
  have first : (s.links head).next = nodes.headD head := ring.path.next_headD
  unfold mmAddArea
  rw [first]
  rcases findPlace_spec c.area nodes [] turns ring enough with ⟨taken, bug⟩ | ⟨us, vs, rfl, inserted, found⟩
  · have stops : s.findPlace head c.start turns (nodes.headD head) = .error .bug := bug
    rw [stops]
    exact .taken taken
  · have ends : s.findPlace head c.start turns ((us ++ vs).headD head) = .ok (vs.headD head) := found
    rw [ends]
    cases given : c.kzalloc with
    | none => exact .refused given
    | some new =>
      have off := fresh new given
      let t : AreaRing := ⟨listAddBefore s.links (vs.headD head) new, Function.update s.area new c.area⟩
      have here : t.area new = c.area := Function.update_self ..
      have others : ∀ x ∈ us ++ vs, t.area x = s.area x := by
        intro x member
        apply Function.update_of_ne
        rintro rfl
        exact off (List.mem_cons_of_mem _ member)
      refine .added (t := t) given rfl (ring_insert ring off) here others ?_
      rw [inserted, List.map_append, List.map_cons, here,
        List.map_congr_left fun x member => others x (List.mem_append_left vs member),
        List.map_congr_left fun x member => others x (List.mem_append_right us member)]

def listed (s : AreaRing) (nodes : List Nat) : List (Nat × Area) := nodes.map fun x => (x, s.area x)

theorem Holds.adds (holds : Holds s head nodes) (enough : nodes.length ≤ turns)
    (fresh : ∀ new, c.kzalloc = some new → new ∉ head :: nodes) (other : ∀ a ∈ nodes.map s.area, a.start ≠ c.start) :
    ∃ t nodes', s.mmAddArea head turns c = .ok (c.ret, t) ∧ Holds t head nodes' ∧
      (listed t nodes').Perm (c.added.toList ++ listed s nodes) := by
  have ends : AddEnds s head nodes c (s.mmAddArea head turns c) := mmAddArea_ends holds.ring enough fresh
  have spec := insertArea_sorted c.area holds.sorted
  generalize s.mmAddArea head turns c = result at ends
  cases ends with
  | taken bug =>
    obtain ⟨-, a, member, same⟩ := spec.of_error bug
    exact absurd same (other a member)
  | refused refused =>
    refine ⟨s, nodes, ?_, holds, ?_⟩
    · rw [AddArea.ret, if_pos refused]
    · rw [AddArea.added, refused]
      exact List.Perm.refl _
  | @added new t us vs given parts ring here others inserted =>
    refine ⟨t, us ++ new :: vs, ?_, ⟨ring, (spec.of_ok inserted).2.1⟩, ?_⟩
    · rw [AddArea.ret, given, if_neg (Option.some_ne_none new)]
    · have old : listed s nodes = listed t us ++ listed t vs := by
        rw [parts] at others ⊢
        rw [listed, ← List.map_congr_left fun x member => congrArg (x, ·) (others x member), List.map_append]
        rfl
      rw [AddArea.added, given, old, ← here, listed, List.map_append]
      exact List.perm_middle

/-! ### Runs -/

theorem mem_listed {a : Area} : (x, a) ∈ listed s nodes ↔ x ∈ nodes ∧ s.area x = a := by
  unfold listed
  rw [List.mem_map]
  constructor
  · rintro ⟨y, member, same⟩
    obtain ⟨rfl, rfl⟩ := Prod.mk.inj same
    exact ⟨member, rfl⟩
  · rintro ⟨member, rfl⟩
    exact ⟨x, member, rfl⟩

/-- Calls that can be made one after another: their areas start at different places than all others, and `kzalloc`
returns memory that is not in use. -/
structure Fresh (s : AreaRing) (head : Nat) (nodes : List Nat) (calls : List AddArea) : Prop where
  starts : (calls.map AddArea.start).Nodup
  others : ∀ x ∈ nodes, ∀ c ∈ calls, (s.area x).start ≠ c.start
  addresses : (calls.filterMap AddArea.kzalloc).Nodup
  unused : ∀ new ∈ calls.filterMap AddArea.kzalloc, new ∉ head :: nodes

theorem filterMap_first {α β : Type*} {f : α → Option β} {a : α} {l : List α} :
    (a :: l).filterMap f = (f a).toList ++ l.filterMap f := by
  cases given : f a <;> simp [given]

theorem Fresh.next {calls : List AddArea} {nodes' : List Nat} (fresh : Fresh s head nodes (c :: calls))
    (perm : (listed t nodes').Perm (c.added.toList ++ listed s nodes)) : Fresh t head nodes' calls := by
  obtain ⟨starts, others, addresses, unused⟩ := fresh
  rw [filterMap_first] at addresses unused
  obtain ⟨start, starts⟩ := List.nodup_cons.mp starts
  have came : ∀ x ∈ nodes', (c.kzalloc = some x ∧ t.area x = c.area) ∨ x ∈ nodes ∧ s.area x = t.area x := by
    intro x member
    have inside := perm.mem_iff.mp (mem_listed.mpr ⟨member, rfl⟩)
    rcases List.mem_append.mp inside with new | old
    · obtain ⟨y, given, same⟩ := Option.map_eq_some_iff.mp (Option.mem_toList.mp new)
      obtain ⟨rfl, area⟩ := Prod.mk.inj same
      exact .inl ⟨given, area.symm⟩
    · exact .inr (mem_listed.mp old)
  refine ⟨starts, ?_, addresses.of_append_right, ?_⟩
  · intro x member c' inside
    rcases came x member with ⟨-, area⟩ | ⟨old, same⟩
    · rw [area]
      exact fun same => start (List.mem_map.mpr ⟨c', inside, same.symm⟩)
    · rw [← same]
      exact others x old c' (List.mem_cons_of_mem c inside)
  · intro new member inside
    have off := unused new (List.mem_append_right _ member)
    rcases List.mem_cons.mp inside with rfl | inNodes
    · exact off List.mem_cons_self
    · rcases came new inNodes with ⟨given, -⟩ | ⟨old, -⟩
      · exact List.disjoint_of_nodup_append addresses (Option.mem_toList.mpr given) member
      · exact off (List.mem_cons_of_mem head old)

/-- Calls for areas with different starts keep the ring sorted, and each adds its area if there is memory. -/
theorem addAreas_spec (calls : List AddArea) : ∀ s nodes, Holds s head nodes → Fresh s head nodes calls →
    nodes.length + calls.length ≤ turns →
    ∃ t nodes', s.addAreas head turns calls = .ok (calls.map AddArea.ret, t) ∧ Holds t head nodes' ∧
      (listed t nodes').Perm (listed s nodes ++ calls.filterMap AddArea.added) := by
  induction calls with
  | nil =>
    intro s nodes holds _ _
    refine ⟨s, nodes, rfl, holds, ?_⟩
    rw [List.filterMap_nil, List.append_nil]
  | cons c calls ih =>
    intro s nodes holds fresh enough
    rw [List.length_cons] at enough
    have unused : ∀ new, c.kzalloc = some new → new ∉ head :: nodes := fun new given =>
      fresh.unused new (by rw [filterMap_first, given]; exact List.mem_cons_self)
    have other : ∀ a ∈ nodes.map s.area, a.start ≠ c.start := by
      intro a member
      obtain ⟨x, inside, rfl⟩ := List.mem_map.mp member
      exact fresh.others x inside c List.mem_cons_self
    have room : nodes.length ≤ turns := by omega
    obtain ⟨t, nodes', added, holds', perm⟩ := holds.adds room unused other
    have longer : nodes'.length ≤ nodes.length + 1 := by
      have lengths := perm.length_eq
      rw [List.length_append, listed, listed, List.length_map, List.length_map, Nat.add_comm] at lengths
      have short : c.added.toList.length ≤ 1 := by
        cases c.added <;> simp
      omega
    obtain ⟨u, nodes'', rest, holds'', perm'⟩ := ih t nodes' holds' (fresh.next perm) (by omega)
    refine ⟨u, nodes'', ?_, holds'', ?_⟩
    · rw [addAreas, added, ok_bind]
      simp only [rest, ok_bind]
      rfl
    · rw [filterMap_first]
      refine perm'.trans ((perm.append_right _).trans ?_)
      rw [← List.append_assoc]
      exact List.perm_append_comm.append_right _

/-! ### Lookups -/

theorem findFrom_spec (zs : List Nat) : ∀ ys turns, Ring (Landaux.links s.links) head (ys ++ zs) → zs.length ≤ turns →
    s.findFrom head address turns (zs.headD head) = .ok (zs.find? fun x => covers (s.area x) address) := by
  induction zs with
  | nil =>
    intro ys turns ring enough
    cases turns <;> exact if_pos rfl
  | cons x zs ih =>
    intro ys turns ring enough
    cases turns with
    | zero => exact absurd enough (Nat.not_succ_le_zero _)
    | succ turns =>
      rw [List.headD_cons, findFrom, if_neg (not_head ring)]
      by_cases hit : covers (s.area x) address
      · rw [if_pos hit, List.find?_cons_of_pos (by simpa using hit)]
      · rw [if_neg hit, List.find?_cons_of_neg (by simpa using hit), next_of_ring ring]
        have ring' : Ring (Landaux.links s.links) head (ys ++ [x] ++ zs) := by
          rwa [List.append_assoc, List.singleton_append]
        exact ih (ys ++ [x]) turns ring' (Nat.le_of_succ_le_succ enough)

theorem Holds.find (holds : Holds s head nodes) (enough : nodes.length ≤ turns) :
    s.mmFindArea head turns address = .ok (nodes.find? fun x => covers (s.area x) address) := by
  have first : (s.links head).next = nodes.headD head := holds.ring.path.next_headD
  rw [mmFindArea, first, findFrom_spec nodes [] turns holds.ring enough]

theorem covers_iff {a : Area} (low : a.end + PAGE_SIZE ≤ 2 ^ 64) : covers a address ↔ a.covers address = true := by
  have small : a.end + PAGE_SIZE - 1 < 2 ^ 64 := by
    unfold PAGE_SIZE at low ⊢
    omega
  rw [Area.covers_iff, covers, roundPageUp64, Nat.mod_eq_of_lt small]
  exact Iff.rfl

/-- Where no end wraps, the lookup in the ring is that in the list of its areas. -/
theorem Holds.find_refines (holds : Holds s head nodes) (enough : nodes.length ≤ turns)
    (low : ∀ x ∈ nodes, (s.area x).end + PAGE_SIZE ≤ 2 ^ 64) :
    ∃ found, s.mmFindArea head turns address = .ok found ∧
      found.map s.area = Landaux.mmFindArea (nodes.map s.area) address := by
  have same : ∀ x ∈ nodes, decide (covers (s.area x) address) = (s.area x).covers address := by
    intro x member
    simp only [covers_iff (low x member), Bool.decide_eq_true]
  refine ⟨_, holds.find enough, ?_⟩
  rw [Landaux.mmFindArea, List.find?_map, List.find?_congr same]
  rfl

/-- The area that is found is the only one around the address. -/
def FindsOnly (s : AreaRing) (head turns : Nat) (nodes : List Nat) (address : Nat) : Prop :=
  (∃ x ∈ nodes, s.mmFindArea head turns address = .ok (some x) ∧
      ∀ y ∈ nodes, covers (s.area y) address ↔ y = x) ∨
    s.mmFindArea head turns address = .ok none ∧ ∀ y ∈ nodes, ¬ covers (s.area y) address

/-- No two of the areas share an address, with their ends rounded up to pages. -/
def Apart (s : AreaRing) (nodes : List Nat) : Prop :=
  ∀ x ∈ nodes, ∀ y ∈ nodes, ∀ address, covers (s.area x) address → covers (s.area y) address → x = y

theorem Holds.finds (holds : Holds s head nodes) (enough : nodes.length ≤ turns) (apart : Apart s nodes)
    (address : Nat) : FindsOnly s head turns nodes address := by
  unfold FindsOnly
  rw [holds.find enough]
  cases found : nodes.find? fun x => covers (s.area x) address with
  | none =>
    refine .inr ⟨rfl, fun y member => ?_⟩
    simpa using List.find?_eq_none.mp found y member
  | some x =>
    have member := List.mem_of_find?_eq_some found
    have hit : covers (s.area x) address := by simpa using List.find?_some found
    refine .inl ⟨x, member, rfl, fun y inside => ⟨fun also => apart y inside x member address also hit, ?_⟩⟩
    rintro rfl
    exact hit

theorem mmAddArea_failed {ret : Int} (returns : s.mmAddArea head turns c = .ok (ret, t)) (failed : ret < 0) :
    t = s := by
  unfold mmAddArea at returns
  cases place : s.findPlace head c.start turns (s.links head).next with
  | error e =>
    rw [place] at returns
    cases returns
  | ok iter =>
    rw [place] at returns
    cases given : c.kzalloc with
    | none =>
      rw [given] at returns
      exact (Prod.mk.inj (Except.ok.inj returns)).2.symm
    | some new =>
      rw [given] at returns
      obtain ⟨rfl, -⟩ := Prod.mk.inj (Except.ok.inj returns)
      exact absurd failed (lt_irrefl 0)

/-- Calls of `mm_add_area` for areas with different starts keep the ring well formed and sorted. It then has the
areas it had and those of the calls that succeed, a call that fails changes nothing, and `mm_find_area` finds the
only area around an address. -/
theorem areas_sorted {calls : List AddArea} (holds : Holds s head nodes) (fresh : Fresh s head nodes calls)
    (enough : nodes.length + calls.length ≤ turns) :
    ∃ t nodes', s.addAreas head turns calls = .ok (calls.map AddArea.ret, t) ∧ Holds t head nodes' ∧
      (listed t nodes').Perm (listed s nodes ++ calls.filterMap AddArea.added) ∧
      (∀ u c ret v, mmAddArea head turns c u = .ok (ret, v) → ret < 0 → v = u) ∧
      (Apart t nodes' → ∀ address, FindsOnly t head turns nodes' address) := by
  obtain ⟨t, nodes', added, holds', perm⟩ := addAreas_spec calls s nodes holds fresh enough
  have longer : nodes'.length ≤ nodes.length + calls.length := by
    have lengths := perm.length_eq
    rw [List.length_append, listed, listed, List.length_map, List.length_map] at lengths
    have short := List.length_filterMap_le AddArea.added calls
    omega
  exact ⟨t, nodes', added, holds', perm, fun u c ret v => mmAddArea_failed,
    fun apart address => holds'.finds (by omega) apart address⟩

/-- Three calls on an empty ring at 1, the second without memory -/
def threeCalls : List AddArea :=
  [⟨0x5000, 0x1000, PROT_READ, none, 0, some 20⟩, ⟨0x9000, 0x1000, PROT_READ, none, 0, none⟩,
    ⟨0x2000, 0x800, PROT_READ, none, 0, some 10⟩]

theorem areas_sorted_three :
    ∃ t nodes', (⟨fun p => ⟨p, p⟩, fun _ => ⟨0, 0, 0, none, 0⟩⟩ : AreaRing).addAreas 1 3 threeCalls =
        .ok ([0, -12, 0], t) ∧ Holds t 1 nodes' ∧
      (listed t nodes').Perm [(20, ⟨0x5000, 0x6000, PROT_READ, none, 0⟩), (10, ⟨0x2000, 0x2800, PROT_READ, none, 0⟩)] ∧
      (∀ u c ret v, mmAddArea 1 3 c u = .ok (ret, v) → ret < 0 → v = u) ∧
      (Apart t nodes' → ∀ address, FindsOnly t 1 3 nodes' address) := by
  have holds : Holds ⟨fun p => ⟨p, p⟩, fun _ => ⟨0, 0, 0, none, 0⟩⟩ 1 [] := ⟨⟨⟨rfl, rfl⟩, by decide⟩, List.Pairwise.nil⟩
  have fresh : Fresh ⟨fun p => ⟨p, p⟩, fun _ => ⟨0, 0, 0, none, 0⟩⟩ 1 [] threeCalls :=
    ⟨by decide, fun x member => absurd member List.not_mem_nil, by decide, by decide⟩
  exact areas_sorted holds fresh (by decide)

end AreaRing

end Landaux
