import Landaux.Kernel.ProcessRuns
import Landaux.Lib.Ring

/-!
# The copy of an address space

`clone_mm` with the list of areas as the kernel's heap holds it. A node is the address of a
`vm_area_t`, and a head that of `mm->vm_areas`.
-/

namespace Landaux
open Lib Radix

structure AreaHeap where
  area : Nat → Area
  links : Links Nat

/-- `memcpy(what, source, sizeof(vm_area_t))`: the links are copied too. -/
def AreaHeap.copy (m : AreaHeap) (what source : Nat) : AreaHeap where
  area := Function.update m.area what (m.area source)
  links := (m.links.setPrev what (m.links.prev source)).setNext what (m.links.next source)

def AreaHeap.addTail (m : AreaHeap) (where' what : Nat) : AreaHeap :=
  { m with links := m.links.addBefore where' what }

/-- The loop over the list of the parent, at node `iter`. `kzalloc k` is what call number `k` returns,
whose zeros are overwritten. `none` only when the loop has not ended after `fuel` turns. -/
def copyAreas (kzalloc : Nat → Nat) (head son : Nat) :
    Nat → Nat → Nat → AreaHeap → Option (Except Stop AreaHeap)
  | 0, _, _, _ => none
  | fuel + 1, k, iter, m =>
    if iter = head then some (.ok m)
    else
      let new := kzalloc k
      if new = 0 then some (.error .noMemory)
      else
        let m := m.copy new iter
        let m := m.addTail son new
        copyAreas kzalloc head son fuel (k + 1) (m.links.next iter) m

/-- `clone_mm`; `head` and `son` are the lists of the parent and of the child. -/
def cloneMmLinked (kzalloc : Nat → Nat) (head son fuel : Nat) (s : State) (m : AreaHeap) :
    Option (Except Stop (Option Nat × State × AreaHeap)) :=
  match cloneMm s with
  | .error e => some (.error e)
  | .ok (none, s) => some (.ok (none, s, m))
  | .ok (some (dir, _), s) =>
    let m := { m with links := m.links.init son }
    (copyAreas kzalloc head son fuel 0 (m.links.next head) m).map fun r =>
      r.map fun m => (some dir, s, m)

/-! ### The list -/

/-- The list at `head` has the nodes `nodes`, which hold `areas`. -/
structure AreaList (m : AreaHeap) (head : Nat) (nodes : List Nat) (areas : List Area) : Prop where
  ring : Ring m.links head nodes
  areas : nodes.map m.area = areas

/-- `kzalloc` does not fail on the first `n` calls and returns blocks that are not in use. -/
structure Supplies (kzalloc : Nat → Nat) (n : Nat) (used : List Nat) : Prop where
  nonzero : ∀ k, k < n → kzalloc k ≠ 0
  fresh : ∀ k, k < n → kzalloc k ∉ used
  once : ∀ j k, j < k → k < n → kzalloc j ≠ kzalloc k

def blocks (kzalloc : Nat → Nat) (n : Nat) : List Nat := (List.range n).map kzalloc

variable {kzalloc : Nat → Nat} {head son fuel : Nat} {m m' : AreaHeap} {olds olds' : List Nat}
  {areas : List Area} {s s' : State} {dir : Nat}

theorem blocks_succ (n : Nat) : blocks kzalloc (n + 1) = blocks kzalloc n ++ [kzalloc n] := by
  rw [blocks, List.range_succ, List.map_append]
  rfl

theorem Supplies.new (supplies : Supplies kzalloc olds.length (son :: head :: olds)) {k : Nat}
    (more : k < olds.length) : kzalloc k ∉ head :: olds ∧ kzalloc k ∉ son :: blocks kzalloc k := by
  have fresh := supplies.fresh k more
  refine ⟨fun member => fresh (List.mem_cons_of_mem _ member), fun member => ?_⟩
  rcases List.mem_cons.mp member with same | early
  · exact fresh (same ▸ List.mem_cons_self)
  · obtain ⟨j, inside, same⟩ := List.mem_map.mp early
    exact supplies.once j k (List.mem_range.mp inside) more same

/-- The nodes of the parent are apart from those of the child. -/
theorem Supplies.apart (supplies : Supplies kzalloc olds.length (son :: head :: olds))
    (other : son ∉ head :: olds) {k n : Nat} (le : k ≤ olds.length) (member : n ∈ head :: olds) :
    n ∉ son :: blocks kzalloc k := by
  intro clash
  rcases List.mem_cons.mp clash with rfl | early
  · exact other member
  · obtain ⟨j, inside, rfl⟩ := List.mem_map.mp early
    have below := List.mem_range.mp inside
    exact (supplies.new (by omega)).1 member

/-- The loop before turn `k`: the first `k` areas are copied, and the list of the parent is as it
was. -/
structure Copied (m : AreaHeap) (kzalloc : Nat → Nat) (head son : Nat) (olds : List Nat) (k : Nat)
    (m' : AreaHeap) : Prop where
  parent : AreaList m' head olds (olds.map m.area)
  child : AreaList m' son (blocks kzalloc k) ((olds.take k).map m.area)

theorem Copied.turn {k iter : Nat} {done rest : List Nat}
    (supplies : Supplies kzalloc (done ++ iter :: rest).length (son :: head :: (done ++ iter :: rest)))
    (other : son ∉ head :: (done ++ iter :: rest)) (number : done.length = k)
    (before : Copied m kzalloc head son (done ++ iter :: rest) k m') :
    Copied m kzalloc head son (done ++ iter :: rest) (k + 1)
      ((m'.copy (kzalloc k) iter).addTail son (kzalloc k)) := by
  have more : k < (done ++ iter :: rest).length := by simp; omega
  obtain ⟨notParent, notChild⟩ := supplies.new more
  obtain ⟨parent, child⟩ := before
  have iterIn : iter ∈ head :: (done ++ iter :: rest) := by simp
  -- the copy only writes to the new node
  have next : ∀ n, n ≠ kzalloc k → (m'.copy (kzalloc k) iter).links.next n = m'.links.next n := by
    intro n different
    simp [AreaHeap.copy, Links.setNext, Links.setPrev, different]
  have prev : ∀ n, n ≠ kzalloc k → (m'.copy (kzalloc k) iter).links.prev n = m'.links.prev n := by
    intro n different
    simp [AreaHeap.copy, Links.setNext, Links.setPrev, different]
  have area : ∀ n, n ≠ kzalloc k → (m'.copy (kzalloc k) iter).area n = m'.area n := by
    intro n different
    exact Function.update_of_ne different _ _
  have new : (m'.copy (kzalloc k) iter).area (kzalloc k) = m.area iter := by
    have same := List.map_inj_left.mp parent.areas iter (by simp)
    rw [← same]
    exact Function.update_self _ _ _
  generalize m'.copy (kzalloc k) iter = copy at *
  have ring : Ring copy.links son (blocks kzalloc k) := child.ring.congr
    (fun n member => next n (by rintro rfl; exact notChild member))
    (fun n member => prev n (by rintro rfl; exact notChild member))
  have old : Ring copy.links head (done ++ iter :: rest) := parent.ring.congr
    (fun n member => next n (by rintro rfl; exact notParent member))
    (fun n member => prev n (by rintro rfl; exact notParent member))
  refine ⟨⟨?_, ?_⟩, ?_, ?_⟩
  · -- linking in changes nodes of the child's list only
    obtain ⟨-, lastIn, back⟩ := ring.neighbours List.mem_cons_self
    have apart : ∀ n ∈ head :: (done ++ iter :: rest), n ∉ son :: blocks kzalloc k :=
      fun n member => supplies.apart other (by omega) member
    have lastNew : copy.links.prev son ≠ kzalloc k := fun same => notChild (same ▸ lastIn)
    apply old.congr
    · intro n member
      show (copy.links.add (copy.links.prev son) (kzalloc k)).next n = _
      rw [Links.add_next, if_neg, if_neg]
      · rintro rfl
        exact notParent member
      · rintro rfl
        exact apart _ member lastIn
    · intro n member
      show (copy.links.add (copy.links.prev son) (kzalloc k)).prev n = _
      rw [Links.add_prev lastNew, back, if_neg, if_neg]
      · rintro rfl
        exact notParent member
      · rintro rfl
        exact apart _ member List.mem_cons_self
  · rw [← parent.areas]
    apply List.map_congr_left
    intro n member
    exact area n (by rintro rfl; exact notParent (List.mem_cons_of_mem _ member))
  · rw [blocks_succ]
    exact ring.add_before notChild
  · have take : (done ++ iter :: rest).take (k + 1) = done ++ [iter] := by
      rw [List.take_append, ← number]
      simp
    have early : (done ++ iter :: rest).take k = done := by
      rw [List.take_append, ← number]
      simp
    have copied := child.areas
    rw [early] at copied
    rw [blocks_succ, take, List.map_append, List.map_append, ← copied]
    congr 1
    · apply List.map_congr_left
      intro n member
      exact area n (by rintro rfl; exact notChild (List.mem_cons_of_mem _ member))
    · exact congrArg (fun a => [a]) new

theorem copyAreas_spec (rest : List Nat) : ∀ done k iter m', olds = done ++ rest → done.length = k →
    iter = rest.headD head → Supplies kzalloc olds.length (son :: head :: olds) →
    son ∉ head :: olds → rest.length < fuel → Copied m kzalloc head son olds k m' →
    ∃ m'', copyAreas kzalloc head son fuel k iter m' = some (.ok m'') ∧
      Copied m kzalloc head son olds olds.length m'' := by
  induction rest generalizing fuel with
  | nil =>
    rintro done k iter m' rfl rfl rfl supplies other enough copied
    obtain ⟨fuel, rfl⟩ := Nat.exists_eq_add_of_lt enough
    rw [List.append_nil] at copied ⊢
    exact ⟨m', by rw [copyAreas, if_pos rfl], copied⟩
  | cons x rest ih =>
    rintro done k iter m' rfl number here supplies other enough copied
    obtain rfl : x = iter := here.symm
    obtain ⟨fuel, rfl⟩ := Nat.exists_eq_add_of_lt enough
    have notHead : x ≠ head := by
      rintro rfl
      exact (List.nodup_cons.mp copied.parent.ring.nodup).1 (by simp)
    have more : k < (done ++ x :: rest).length := by simp; omega
    have after := copied.turn supplies other number
    have next := (Path.append.mp after.parent.ring.path).2.next_headD
    rw [copyAreas, if_neg notHead]
    dsimp only
    rw [if_neg (supplies.nonzero k more), next]
    exact ih (done ++ [x]) (k + 1) _ _ (by simp) (by simp [number]) rfl supplies other
      (by simp at enough ⊢; omega) after

/-! ### The directory -/

theorem walk_of_leaves {ram ram' : Memory Word} {old new v : Nat} (lower : v < 2 ^ 35)
    (leaves : pageTables.leaves ram' 3 new 0 = (pageTables.leaves ram 3 old 0).map cow) :
    pageTables.walk ram' v 3 new = (pageTables.walk ram v 3 old).map Pte.denyWrite := by
  have inTree : ∀ (ram : Memory Word) t e, (v, e) ∈ pageTables.leaves ram 3 t 0 ↔
      pageTables.walk ram v 3 t = some e := by
    intro ram t e
    rw [mem_leaves, lower_number lower]
    simp [inside_lower lower]
  apply Option.ext
  intro e
  rw [← inTree, leaves, Multiset.mem_map, Option.map_eq_some_iff]
  constructor
  · rintro ⟨⟨u, e'⟩, member, eq⟩
    obtain ⟨rfl, rfl⟩ := Prod.mk.inj eq
    exact ⟨e', (inTree ram old e').mp member, rfl⟩
  · rintro ⟨e', walk, rfl⟩
    exact ⟨(v, e'), (inTree ram old e').mpr walk, rfl⟩

/-- The directory `dir` of the child against that of the parent. -/
structure Twin (s : State) (dir : Nat) (s' : State) : Prop where
  same : s'.current = s.current
  child : ∀ v, v < 2 ^ 35 →
    pageTables.walk s'.ram v 3 dir = (pageTables.walk s.ram v 3 s.current.pageDir).map Pte.denyWrite
  parent : ∀ v, v < 2 ^ 35 → pageTables.walk s'.ram v 3 s.current.pageDir =
    (pageTables.walk s.ram v 3 s.current.pageDir).map Pte.denyWrite
  flushed : ∀ v, v < 2 ^ 35 → pageTables.walk s.ram v 3 s.current.pageDir ≠ none → s'.tlb v = none
  once : (s.current.tables s'.ram + pageTables.tables s'.ram 3 dir).Nodup
  counts : ∀ f ∈ frames (s.current.leaves s.ram),
    s'.cnt f = s.cnt f + (frames (s.current.leaves s.ram)).count f
  upper : SameUpper s dir s'
  rest : ∀ u, s.Busy u → u ∉ s.current.tables s.ram → s'.ram u = s.ram u

theorem Duplicate.twin {fresh : Multiset Nat} (tree : Source s 3 s.current.pageDir 0)
    (copy : Duplicate s dir fresh s') (upper : SameUpper s dir s') : Twin s dir s' := by
  obtain ⟨cloned, oldTables, newTables, oldLeaves, newLeaves⟩ := copy
  refine ⟨cloned.same.current, fun v lower => walk_of_leaves lower newLeaves,
    fun v lower => walk_of_leaves lower oldLeaves, fun v lower mapped => ?_, ?_, fun f member => ?_, upper,
    fun u busy other => cloned.ram u other fun isFresh => cloned.unused u isFresh busy⟩
  · obtain ⟨e, walk⟩ := Option.ne_none_iff_exists'.mp mapped
    have leaf : (v, e) ∈ s.current.leaves s.ram :=
      mem_leaves.mpr ⟨lower_number lower, inside_lower lower, walk⟩
    exact cloned.dropped _ leaf
  · rw [Task.tables, oldTables, newTables, Multiset.nodup_add]
    refine ⟨tree.once, cloned.once, Multiset.disjoint_left.mpr fun {u} old new => ?_⟩
    exact cloned.unused u new (tree.busy u old)
  · have notFresh : f ∉ {dir} + fresh := fun new =>
      cloned.unused f new (Or.inl (tree.counted f member))
    rw [cloned.cnt, Multiset.count_eq_zero.mpr notFresh]
    simp

/-- `clone_mm` duplicates the address space when there are frames for the tables and blocks for the
areas. -/
theorem clone_mm_duplicates (ready : Ready s) (tree : Source s 3 s.current.pageDir 0)
    (list : AreaList m head olds s.current.areas)
    (supplies : Supplies kzalloc olds.length (son :: head :: olds)) (other : son ∉ head :: olds)
    (room : (s.current.tables s.ram).card ≤ s.room) (enough : olds.length < fuel) :
    ∃ dir s' m', cloneMmLinked kzalloc head son fuel s m = some (.ok (some dir, s', m')) ∧
      Twin s dir s' ∧ AreaList m' head olds s.current.areas ∧
      AreaList m' son (blocks kzalloc olds.length) s.current.areas ∧
      (olds ++ blocks kzalloc olds.length).Nodup := by
  have positive : 0 < (s.current.tables s.ram).card :=
    Multiset.card_pos_iff_exists_mem.mpr ⟨_, mem_tables_self⟩
  obtain ⟨⟨result, s'⟩, eq, clone⟩ := (cloneMm_copies ready tree).total fun e stop => by omega
  rcases clone with ⟨-, full⟩ | ⟨dir, fresh, rfl, copy, upper⟩
  · omega
  -- `list_init` only writes to the head of the child's list
  have parent : AreaList ⟨m.area, m.links.init son⟩ head olds (olds.map m.area) := by
    refine ⟨list.ring.congr (fun n member => ?_) fun n member => ?_, rfl⟩
    all_goals
      have different : n ≠ son := by
        rintro rfl
        exact other member
      simp [Links.init, Links.setNext, Links.setPrev, different]
  have start : Copied m kzalloc head son olds 0 ⟨m.area, m.links.init son⟩ :=
    ⟨parent, Ring.init _ _, rfl⟩
  obtain ⟨m', loop, copied⟩ := copyAreas_spec olds [] 0 _ _
    (List.nil_append olds).symm rfl parent.ring.path.next_headD
    supplies other enough start
  obtain ⟨last, child⟩ := copied
  rw [list.areas] at last
  rw [List.take_length, list.areas] at child
  refine ⟨dir, s', m', ?_, copy.twin tree upper, last, child, ?_⟩
  · unfold cloneMmLinked
    rw [eq]
    dsimp only
    rw [loop]
    rfl
  · apply List.nodup_append.mpr
    refine ⟨(List.nodup_cons.mp last.ring.nodup).2, (List.nodup_cons.mp child.ring.nodup).2, ?_⟩
    rintro n old _ new rfl
    exact supplies.apart other le_rfl (List.mem_cons_of_mem _ old) (List.mem_cons_of_mem _ new)

/-- The first process has touched its stack; its only area is copied from node 7 to node 10. -/
theorem clone_mm_duplicates_stack : ∃ (s : State) (m : AreaHeap) (dir : Nat) (s' : State) (m' : AreaHeap),
    (s.entry stackPage).isSome = true ∧
      cloneMmLinked (fun k => 10 + k) 1 2 2 s m = some (.ok (some dir, s', m')) ∧ Twin s dir s' ∧
      AreaList m' 2 [10] s.current.areas := by
  obtain ⟨s, boot, areas, room⟩ := booted_64
  obtain ⟨mid, -, paged⟩ := stackFault_step boot areas (by omega)
  have few := paged.few
  have left := paged.room
  rw [boot.tables, Multiset.card_singleton] at few
  have area : mid.current.areas = [stackArea] := by rw [paged.effect.same.current, areas]
  have ring := (Ring.init (⟨id, id⟩ : Links Nat) 1).add (x := 7) (by decide)
  have list : AreaList ⟨fun _ => stackArea, ((⟨id, id⟩ : Links Nat).init 1).add 1 7⟩ 1 [7]
      mid.current.areas := ⟨ring, area.symm⟩
  have supplies : Supplies (fun k => 10 + k) [7].length [2, 1, 7] :=
    ⟨fun k _ => by omega, fun k _ => by simp; omega, fun j k _ _ => by omega⟩
  obtain ⟨dir, s', m', eq, twin, -, child, -⟩ := clone_mm_duplicates
    paged.effect.holds.ready paged.effect.holds.source list supplies (by decide) (by omega)
    (show [7].length < 2 by decide)
  exact ⟨mid, _, dir, s', m', paged.present, eq, twin, child⟩

end Landaux
