import Landaux.Fs.Path

/-!
# References to dentries

Every pointer to a dentry is counted: the root of the file system, the lists of children, the parent
pointers, the open files, and what a call in progress holds. A count may be larger than the number of
pointers, but never smaller.
-/

namespace Landaux
open Lib

def Dentry.parentRef (n : Dentry) : Multiset Nat := if n.parent = 0 then 0 else {n.parent}

namespace Vfs

/-- The dentries that are not being freed. -/
def alive (s : Vfs) : Finset Nat := s.live.filter fun x => (s.node x).refcnt ≠ 0

def links (s : Vfs) : Multiset Nat := ∑ x ∈ s.alive, ((s.node x).children : Multiset Nat)

def parents (s : Vfs) : Multiset Nat := ∑ x ∈ s.alive, (s.node x).parentRef

def handles (s : Vfs) : Multiset Nat := ∑ p ∈ s.opened, {(s.file p).dentry}

def linked (s : Vfs) : Multiset Nat := s.root ::ₘ s.links

/-- The pointers to dentries, with those that a call in progress holds. -/
def refs (s : Vfs) (held : Multiset Nat) : Multiset Nat := s.linked + s.parents + s.handles + held

end Vfs

structure Inv (held : Multiset Nat) (s : Vfs) : Prop where
  nonnull : 0 ∉ s.live
  known : ∀ x ∈ s.refs held, x ∈ s.alive
  counted : ∀ x ∈ s.alive, ((s.refs held).count x : Int) ≤ (s.node x).refcnt
  tree : s.linked.Nodup
  leaf : ∀ x ∈ s.live, x ∉ s.linked → (s.node x).children = []
  top : (s.node s.root).kind = .dir
  dirs : ∀ x ∈ s.live, (s.node x).children ≠ [] → (s.node x).kind = .dir
  closes : ∀ p ∈ s.opened, (s.file p).refcnt = 1

variable {s t : Vfs} {held held' : Multiset Nat} {d x : Nat} {m n : Dentry}

open Vfs

theorem parentRef_congr (same : m.parent = n.parent) : m.parentRef = n.parentRef := by
  unfold Dentry.parentRef
  rw [same]

theorem mem_alive : x ∈ s.alive ↔ x ∈ s.live ∧ (s.node x).refcnt ≠ 0 := Finset.mem_filter

theorem mem_links : x ∈ s.links ↔ ∃ y ∈ s.alive, x ∈ (s.node y).children := by
  unfold Vfs.links
  simp only [Multiset.mem_sum, Multiset.mem_coe]

theorem mem_parents : x ∈ s.parents ↔ x ≠ 0 ∧ ∃ y ∈ s.alive, (s.node y).parent = x := by
  unfold Vfs.parents Dentry.parentRef
  rw [Multiset.mem_sum]
  constructor
  · rintro ⟨y, alive, member⟩
    split at member
    · exact absurd member (Multiset.notMem_zero x)
    · rename_i nonzero
      rw [Multiset.mem_singleton] at member
      exact ⟨member ▸ nonzero, y, alive, member.symm⟩
  · rintro ⟨nonzero, y, alive, rfl⟩
    refine ⟨y, alive, ?_⟩
    rw [if_neg nonzero]
    exact Multiset.mem_singleton_self _

theorem mem_handles : x ∈ s.handles ↔ ∃ p ∈ s.opened, (s.file p).dentry = x := by
  unfold Vfs.handles
  simp only [Multiset.mem_sum, Multiset.mem_singleton, eq_comm]

theorem refs_cons : s.refs (d ::ₘ held) = d ::ₘ s.refs held := by
  unfold Vfs.refs
  rw [Multiset.add_cons]

theorem mem_refs_linked (member : x ∈ s.linked) : x ∈ s.refs held := by
  unfold Vfs.refs
  simp only [Multiset.mem_add]
  exact Or.inl (Or.inl (Or.inl member))

theorem mem_refs_parent (member : x ∈ s.parents) : x ∈ s.refs held := by
  unfold Vfs.refs
  simp only [Multiset.mem_add]
  exact Or.inl (Or.inl (Or.inr member))

theorem mem_refs_handle (member : x ∈ s.handles) : x ∈ s.refs held := by
  unfold Vfs.refs
  simp only [Multiset.mem_add]
  exact Or.inl (Or.inr member)

theorem mem_refs_held (member : x ∈ held) : x ∈ s.refs held := Multiset.mem_add.mpr (Or.inr member)

theorem setNode_node : (s.setNode d n).node x = if x = d then n else s.node x := rfl

theorem addRefcnt_node {k : Int} : (s.addRefcnt d k).node x =
    { s.node x with refcnt := (s.node x).refcnt + if x = d then k else 0 } := by
  unfold Vfs.addRefcnt
  rw [setNode_node]
  split
  · rename_i same
    rw [same]
  · rw [add_zero]

namespace Inv

theorem positive (h : Inv held s) (alive : x ∈ s.alive) : 1 ≤ (s.node x).refcnt := by
  have counted := h.counted x alive
  have nonzero := (mem_alive.mp alive).2
  omega

theorem held_alive (h : Inv (d ::ₘ held) s) : d ∈ s.alive :=
  h.known d (mem_refs_held (Multiset.mem_cons_self d held))

theorem held_nonzero (h : Inv (d ::ₘ held) s) : d ≠ 0 := by
  rintro rfl
  exact h.nonnull (mem_alive.mp h.held_alive).1

theorem child_linked (alive : d ∈ s.alive) (child : x ∈ (s.node d).children) : x ∈ s.linked :=
  Multiset.mem_cons_of_mem (mem_links.mpr ⟨d, alive, child⟩)

theorem child_alive (h : Inv held s) (alive : d ∈ s.alive) (child : x ∈ (s.node d).children) :
    x ∈ s.alive :=
  h.known x (mem_refs_linked (child_linked alive child))

end Inv

/-! ### Counts move -/

structure SameLinks (s t : Vfs) : Prop where
  root : t.root = s.root
  live : t.live = s.live
  alive : t.alive = s.alive
  children : ∀ x, (t.node x).children = (s.node x).children
  kind : ∀ x, (t.node x).kind = (s.node x).kind
  opened : t.opened = s.opened
  file : t.file = s.file

theorem SameLinks.links (same : SameLinks s t) : t.links = s.links := by
  unfold Vfs.links
  rw [same.alive]
  exact Finset.sum_congr rfl fun x _ => by rw [same.children]

theorem SameLinks.linked (same : SameLinks s t) : t.linked = s.linked := by
  unfold Vfs.linked
  rw [same.root, same.links]

theorem SameLinks.handles (same : SameLinks s t) : t.handles = s.handles := by
  unfold Vfs.handles
  rw [same.opened, same.file]

theorem SameLinks.parents (same : SameLinks s t)
    (parent : ∀ x ∈ s.alive, (t.node x).parent = (s.node x).parent) : t.parents = s.parents := by
  unfold Vfs.parents
  rw [same.alive]
  exact Finset.sum_congr rfl fun x alive => parentRef_congr (parent x alive)

theorem SameLinks.refs (same : SameLinks s t)
    (parent : ∀ x ∈ s.alive, (t.node x).parent = (s.node x).parent) : t.refs held = s.refs held := by
  unfold Vfs.refs
  rw [same.linked, same.handles, same.parents parent]

theorem Inv.move (h : Inv held s) (same : SameLinks s t) (known : ∀ x ∈ t.refs held', x ∈ s.alive)
    (counted : ∀ x ∈ s.alive, ((t.refs held').count x : Int) ≤ (t.node x).refcnt) : Inv held' t where
  nonnull := by
    rw [same.live]
    exact h.nonnull
  known := by
    rw [same.alive]
    exact known
  counted := by
    rw [same.alive]
    exact counted
  tree := by
    rw [same.linked]
    exact h.tree
  leaf := by
    rw [same.live, same.linked]
    exact fun x live unlinked => (same.children x).trans (h.leaf x live unlinked)
  top := by
    rw [same.root, same.kind]
    exact h.top
  dirs := by
    rw [same.live]
    intro x live nonempty
    rw [same.children] at nonempty
    exact (same.kind x).trans (h.dirs x live nonempty)
  closes := by
    rw [same.opened, same.file]
    exact h.closes

/-- A count of a dentry that is alive and stays alive. -/
theorem SameLinks.addRefcnt {k : Int} (alive : d ∈ s.alive) (left : (s.node d).refcnt + k ≠ 0) :
    SameLinks s (s.addRefcnt d k) where
  root := rfl
  live := rfl
  alive := by
    apply Finset.filter_congr
    intro x live
    rw [addRefcnt_node]
    by_cases same : x = d
    · rw [if_pos same, same]
      exact iff_of_true left (mem_alive.mp alive).2
    · rw [if_neg same, add_zero]
  children := fun x => by rw [addRefcnt_node]
  kind := fun x => by rw [addRefcnt_node]
  opened := rfl
  file := rfl

/-- A count overflows that is within `n` of 2^31 in `s`. -/
def Vfs.Crowded (s : Vfs) (n : Nat) (stop : FsStop) : Prop :=
  stop = .overflow ∧ ∃ x ∈ s.live, 2 ^ 31 ≤ (s.node x).refcnt + n

/-- Counts that have grown by up to `k`. -/
theorem Vfs.Crowded.grown {m n k : Nat} {stop : FsStop} (crowded : t.Crowded m stop) (live : t.live = s.live)
    (grown : ∀ x, (t.node x).refcnt ≤ (s.node x).refcnt + k) (le : m + k ≤ n) : s.Crowded n stop := by
  obtain ⟨overflow, x, inside, large⟩ := crowded
  have bound := grown x
  exact ⟨overflow, x, live ▸ inside, by omega⟩

theorem Vfs.Crowded.mono {m n : Nat} {stop : FsStop} (crowded : s.Crowded m stop) (le : m ≤ n) : s.Crowded n stop := by
  obtain ⟨overflow, x, inside, large⟩ := crowded
  exact ⟨overflow, x, inside, by omega⟩

theorem dentryGet_spec (h : Inv held s) (alive : d ∈ s.alive) : Ends (s.dentryGet d)
    (fun t => t = s.addRefcnt d 1 ∧ Inv (d ::ₘ held) t) (s.Crowded 1) := by
  unfold Vfs.dentryGet
  rw [if_neg (not_not.mpr (mem_alive.mp alive).1)]
  split
  · exact ⟨rfl, d, (mem_alive.mp alive).1, by assumption⟩
  have positive := h.positive alive
  have same : SameLinks s (s.addRefcnt d 1) := .addRefcnt alive (by omega)
  have refs : (s.addRefcnt d 1).refs (d ::ₘ held) = d ::ₘ s.refs held := by
    rw [refs_cons, same.refs fun x _ => by rw [addRefcnt_node]]
  refine ⟨rfl, h.move same (fun x member => ?_) fun x live => ?_⟩
  · rw [refs, Multiset.mem_cons] at member
    rcases member with rfl | old
    · exact alive
    · exact h.known x old
  · have counted := h.counted x live
    rw [refs, Multiset.count_cons, addRefcnt_node]
    dsimp only
    split <;> push_cast <;> omega

/-! ### The last reference goes -/

/-- What `dentry_put` leaves as it was: all but counts, and the dentries being freed. -/
structure Put (s t : Vfs) : Prop where
  root : t.root = s.root
  opened : t.opened = s.opened
  file : t.file = s.file
  live : t.live ⊆ s.live
  node : ∀ x, t.node x = { s.node x with refcnt := (t.node x).refcnt }
  dying : ∀ x ∈ s.live, (s.node x).refcnt = 0 → x ∈ t.live ∧ (t.node x).refcnt = 0
  kept : ∀ x ∈ t.live, (t.node x).refcnt = 0 → (s.node x).refcnt = 0

theorem Put.trans {u : Vfs} (first : Put s t) (second : Put t u) : Put s u where
  root := second.root.trans first.root
  opened := second.opened.trans first.opened
  file := second.file.trans first.file
  live := second.live.trans first.live
  node := fun x => by rw [second.node, first.node]
  dying := fun x live zero => by
    obtain ⟨live', zero'⟩ := first.dying x live zero
    exact second.dying x live' zero'
  kept := fun x live zero => first.kept x (second.live live) (second.kept x live zero)

theorem Put.refl : Put s s :=
  ⟨rfl, rfl, rfl, subset_rfl, fun _ => rfl, fun _ live zero => ⟨live, zero⟩, fun _ _ zero => zero⟩

theorem alive_drop (one : (s.node d).refcnt = 1) :
    (s.addRefcnt d (-1)).alive = s.alive.erase d := by
  ext x
  rw [Finset.mem_erase, mem_alive, mem_alive, addRefcnt_node]
  change x ∈ s.live ∧ _ ↔ _
  by_cases same : x = d
  · rw [same, if_pos rfl, one]
    exact iff_of_false (fun both => both.2 rfl) fun both => both.1 rfl
  · rw [if_neg same, add_zero]
    exact ⟨fun both => ⟨same, both⟩, fun both => both.2⟩

/-- A dentry whose last reference is given back: what it points to is held instead. -/
theorem Inv.drop (h : Inv (d ::ₘ held) s) (one : (s.node d).refcnt = 1) :
    Inv ((s.node d).parentRef + held) (s.addRefcnt d (-1)) := by
  have alive := h.held_alive
  have live := (mem_alive.mp alive).1
  have gone : d ∉ s.refs held := by
    have counted := h.counted d alive
    rw [refs_cons, Multiset.count_cons_self, one] at counted
    exact Multiset.count_eq_zero.mp (by omega)
  have childless : (s.node d).children = [] := h.leaf d live fun linked => gone (mem_refs_linked linked)
  have links : (s.addRefcnt d (-1)).links = s.links := by
    unfold Vfs.links
    rw [alive_drop one, ← Finset.add_sum_erase _ _ alive, childless, Multiset.coe_nil, zero_add]
    exact Finset.sum_congr rfl fun x _ => by rw [addRefcnt_node]
  have linked : (s.addRefcnt d (-1)).linked = s.linked := congrArg (s.root ::ₘ ·) links
  have parents : s.parents = (s.node d).parentRef + (s.addRefcnt d (-1)).parents := by
    unfold Vfs.parents
    rw [alive_drop one, ← Finset.add_sum_erase _ _ alive]
    exact congrArg _ (Finset.sum_congr rfl fun x _ => parentRef_congr (by rw [addRefcnt_node]))
  have refs : (s.addRefcnt d (-1)).refs ((s.node d).parentRef + held) = s.refs held := by
    unfold Vfs.refs
    rw [linked, parents]
    change s.linked + _ + s.handles + _ = _
    abel
  have known : ∀ x ∈ s.refs held, x ∈ s.alive := fun x member =>
    h.known x (by rw [refs_cons]; exact Multiset.mem_cons_of_mem member)
  refine ⟨h.nonnull, fun x member => ?_, fun x member => ?_, ?_, fun x live => ?_, ?_, fun x live => ?_,
    h.closes⟩
  · rw [refs] at member
    rw [alive_drop one]
    refine Finset.mem_erase.mpr ⟨?_, known x member⟩
    rintro rfl
    exact gone member
  · rw [alive_drop one, Finset.mem_erase] at member
    have counted := h.counted x member.2
    rw [refs_cons, Multiset.count_cons_of_ne member.1] at counted
    rw [refs, addRefcnt_node, if_neg member.1, add_zero]
    exact counted
  · rw [linked]
    exact h.tree
  · rw [linked, addRefcnt_node]
    exact h.leaf x live
  · rw [addRefcnt_node]
    exact h.top
  · rw [addRefcnt_node]
    exact h.dirs x live

/-- Nothing points to a dentry that is being freed. -/
theorem kfreeDentry_spec (h : Inv held s) (live : d ∈ s.live) (zero : (s.node d).refcnt = 0) :
    Ends (s.kfreeDentry d) (fun t => t = { s with live := s.live.erase d } ∧ Inv held t) fun _ => False := by
  have dead : d ∉ s.alive := fun alive => (mem_alive.mp alive).2 zero
  have unknown : d ∉ s.refs held := fun member => dead (h.known d member)
  have nonzero : d ≠ 0 := by
    rintro rfl
    exact h.nonnull live
  have unneeded : ¬ s.Needed d := by
    rintro (⟨x, inside, child⟩ | ⟨p, inside, same⟩ | ⟨x, inside, counted, parent⟩)
    · by_cases dying : (s.node x).refcnt = 0
      · have unlinked : x ∉ s.linked := fun linked =>
          (mem_alive.mp (h.known x (mem_refs_linked linked))).2 dying
        rw [h.leaf x inside unlinked] at child
        exact absurd child List.not_mem_nil
      · exact unknown (mem_refs_linked (Inv.child_linked (mem_alive.mpr ⟨inside, dying⟩) child))
    · exact unknown (mem_refs_handle (mem_handles.mpr ⟨p, inside, same⟩))
    · exact unknown (mem_refs_parent (mem_parents.mpr ⟨nonzero, x, mem_alive.mpr ⟨inside, counted⟩, parent⟩))
  have alive : ({ s with live := s.live.erase d } : Vfs).alive = s.alive := by
    unfold Vfs.alive
    rw [Finset.filter_erase]
    exact Finset.erase_eq_of_notMem dead
  have linked : ({ s with live := s.live.erase d } : Vfs).linked = s.linked := by
    unfold Vfs.linked Vfs.links
    rw [alive]
  have refs : ({ s with live := s.live.erase d } : Vfs).refs held = s.refs held := by
    unfold Vfs.refs Vfs.parents
    rw [linked, alive]
    rfl
  unfold Vfs.kfreeDentry
  rw [if_neg (not_not.mpr live), if_neg unneeded]
  refine ⟨rfl, fun null => h.nonnull (Finset.mem_of_mem_erase null), ?_, ?_, ?_, fun x inside => ?_, h.top,
    fun x inside => h.dirs x (Finset.mem_of_mem_erase inside), h.closes⟩
  · rw [refs, alive]
    exact h.known
  · rw [refs, alive]
    exact h.counted
  · rw [linked]
    exact h.tree
  · rw [linked]
    exact h.leaf x (Finset.mem_of_mem_erase inside)

theorem putUpTo_spec (fuel : Nat) : ∀ d s held, Inv (d ::ₘ held) s →
    (s.live.filter fun x => (s.node x).refcnt = 1).card < fuel →
    Ends (putUpTo fuel d s) (fun t => Put s t ∧ Inv held t) fun _ => False := by
  induction fuel with
  | zero => exact fun _ _ _ _ below => absurd below (Nat.not_lt_zero _)
  | succ fuel ih =>
    intro d s held h few
    have alive := h.held_alive
    obtain ⟨live, nonzero⟩ := mem_alive.mp alive
    rw [putUpTo, if_neg (not_not.mpr live)]
    have count : ((s.addRefcnt d (-1)).node d).refcnt = (s.node d).refcnt - 1 := by
      rw [addRefcnt_node, if_pos rfl]
      rfl
    dsimp only
    by_cases last : (s.node d).refcnt = 1
    swap
    · rw [if_neg (by omega)]
      have same : SameLinks s (s.addRefcnt d (-1)) := .addRefcnt alive (by omega)
      have refs : (s.addRefcnt d (-1)).refs held = s.refs held :=
        same.refs fun x _ => by rw [addRefcnt_node]
      refine ⟨⟨rfl, rfl, rfl, subset_rfl, fun x => by rw [addRefcnt_node], ?_, ?_⟩, h.move same ?_ ?_⟩
      · intro x inside zero
        have other : x ≠ d := by
          rintro rfl
          exact nonzero zero
        rw [addRefcnt_node, if_neg other, add_zero]
        exact ⟨inside, zero⟩
      · intro x inside zero
        rw [addRefcnt_node] at zero
        dsimp only at zero
        split at zero
        · rename_i eq
          rw [eq] at zero
          omega
        · omega
      · intro x member
        rw [refs] at member
        exact h.known x (by rw [refs_cons]; exact Multiset.mem_cons_of_mem member)
      · intro x member
        have counted := h.counted x member
        rw [refs_cons, Multiset.count_cons] at counted
        rw [refs, addRefcnt_node]
        dsimp only
        split at counted <;> rename_i eq
        · rw [if_pos eq]
          push_cast at counted
          omega
        · rw [if_neg eq]
          omega
    -- the dentry is freed after its parent has been put
    rw [if_pos (by omega)]
    have dropped := h.drop last
    have parent : ((s.addRefcnt d (-1)).node d).parent = (s.node d).parent := by rw [addRefcnt_node]
    rw [parent]
    have frees : ∀ t, Put (s.addRefcnt d (-1)) t ∧ Inv held t →
        Ends (t.kfreeDentry d) (fun t => Put s t ∧ Inv held t) fun _ => False := by
      rintro t ⟨put, inv⟩
      obtain ⟨inside, zero⟩ := put.dying d live (by omega)
      refine (kfreeDentry_spec inv inside zero).mono ?_ fun _ never => never
      rintro _ ⟨rfl, inv'⟩
      refine ⟨⟨put.root, put.opened, put.file, (Finset.erase_subset d t.live).trans put.live, fun x => ?_,
        fun x there none => ?_, fun x there none => ?_⟩, inv'⟩
      · have eq := put.node x
        rw [addRefcnt_node] at eq
        exact eq
      · have other : x ≠ d := by
          rintro rfl
          exact nonzero none
        have before : ((s.addRefcnt d (-1)).node x).refcnt = 0 := by
          rw [addRefcnt_node, if_neg other, add_zero]
          exact none
        obtain ⟨still, none'⟩ := put.dying x there before
        exact ⟨Finset.mem_erase.mpr ⟨other, still⟩, none'⟩
      · obtain ⟨other, still⟩ := Finset.mem_erase.mp there
        have before := put.kept x still none
        rw [addRefcnt_node, if_neg other, add_zero] at before
        exact before
    by_cases root : (s.node d).parent = 0
    · rw [if_neg (not_not.mpr root)]
      rw [Dentry.parentRef, if_pos root, zero_add] at dropped
      exact frees _ ⟨.refl, dropped⟩
    · rw [if_pos root]
      rw [Dentry.parentRef, if_neg root, Multiset.singleton_add] at dropped
      refine Ends.bind (ih _ _ _ dropped (lt_of_lt_of_le ?_ (Nat.lt_succ_iff.mp few))) frees
      -- one dentry fewer has a single reference
      refine Finset.card_lt_card (Finset.ssubset_iff_subset_ne.mpr ⟨fun x member => ?_, fun same => ?_⟩)
      · rw [Finset.mem_filter, addRefcnt_node] at member
        rw [Finset.mem_filter]
        obtain ⟨there, one⟩ := member
        refine ⟨there, ?_⟩
        dsimp only at one
        split at one
        · rename_i eq
          rw [eq] at one
          omega
        · omega
      · have member : d ∈ s.live.filter fun x => (s.node x).refcnt = 1 :=
          Finset.mem_filter.mpr ⟨live, last⟩
        rw [← same, Finset.mem_filter, count, last] at member
        exact absurd member.2 (by decide)

theorem dentryPut_spec (h : Inv (d ::ₘ held) s) :
    Ends (s.dentryPut d) (fun t => Put s t ∧ Inv held t) fun _ => False :=
  putUpTo_spec _ d s held h (Nat.lt_succ_of_le (Finset.card_filter_le _ _))

/-- A dentry that is not freed by `dentry_put`. -/
theorem dentryPut_shared (live : d ∈ s.live) (shared : (s.node d).refcnt ≠ 1) :
    s.dentryPut d = .ok (s.addRefcnt d (-1)) := by
  have count : ((s.addRefcnt d (-1)).node d).refcnt = (s.node d).refcnt - 1 := by
    rw [addRefcnt_node, if_pos rfl]
    rfl
  unfold dentryPut
  rw [putUpTo, if_neg (not_not.mpr live)]
  dsimp only
  exact if_neg (by omega)

end Landaux
