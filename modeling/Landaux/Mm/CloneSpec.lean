import Landaux.Mm.Counts

/-!
# What `clone_mm` does

A walk over a part of the tree of tables is summed up by `Cloned`: the tables it wrote to, the frames
it allocated, and the leaves it counted once more. Walks compose, so each loop is proved from its
body, and each level from the one below.
-/

namespace Landaux
open Lib Radix

/-- A leaf as both trees hold it after a copy. -/
def cow (x : Nat × Word) : Nat × Word := (x.1, Pte.denyWrite x.2)

def frames (leaves : Multiset (Nat × Word)) : Multiset Nat := leaves.map fun x => Pte.frame x.2

theorem mem_frames {leaves : Multiset (Nat × Word)} {v : Nat} {e : Word} (member : (v, e) ∈ leaves) :
    Pte.frame e ∈ frames leaves := Multiset.mem_map.mpr ⟨(v, e), member, rfl⟩

theorem frames_zero : frames 0 = 0 := Multiset.map_zero _

theorem frames_add (a b : Multiset (Nat × Word)) : frames (a + b) = frames a + frames b :=
  Multiset.map_add _ _ _

structure Cloned (s : State) (touched fresh : Multiset Nat) (leaves : Multiset (Nat × Word))
    (s' : State) : Prop where
  ready : Ready s'
  same : SameTasks s s'
  cnt : ∀ u, s'.cnt u = s.cnt u + fresh.count u + (frames leaves).count u
  room : s.room ≤ s'.room + fresh.card
  unused : ∀ u ∈ fresh, ¬ s.Busy u
  once : fresh.Nodup
  ram : ∀ u, u ∉ touched → u ∉ fresh → s'.ram u = s.ram u
  dropped : ∀ x ∈ leaves, s'.tlb x.1 = none
  cached : ∀ v, s'.tlb v = none ∨ s'.tlb v = s.tlb v

namespace Cloned

variable {s t u : State} {touched fresh touched' fresh' : Multiset Nat}
  {leaves leaves' : Multiset (Nat × Word)} {f : Nat}

theorem busy (h : Cloned s touched fresh leaves t) (before : s.Busy f) : t.Busy f := by
  rcases before with counted | low
  · left
    have := h.cnt f
    omega
  · right
    rwa [h.same.firstFrame]

theorem fresh_busy (h : Cloned s touched fresh leaves t) (member : f ∈ fresh)
    (positive : 0 ≤ s.cnt f) : t.Busy f := by
  left
  have := h.cnt f
  have := Multiset.count_pos.mpr member
  omega

theorem trans (h : Cloned s touched fresh leaves t) (k : Cloned t touched' fresh' leaves' u)
    (nonneg : ∀ f, 0 ≤ s.cnt f) :
    Cloned s (touched + touched') (fresh + fresh') (leaves + leaves') u := by
  refine ⟨k.ready, h.same.trans k.same, ?_, ?_, ?_, ?_, ?_, ?_, ?_⟩
  · intro f
    rw [k.cnt, h.cnt, frames_add, Multiset.count_add, Multiset.count_add]
    push_cast
    ring
  · have before := h.room
    have after := k.room
    rw [Multiset.card_add]
    omega
  · intro f member
    rcases Multiset.mem_add.mp member with before | after
    · exact h.unused f before
    · exact fun busy => k.unused f after (h.busy busy)
  · rw [Multiset.nodup_add]
    refine ⟨h.once, k.once, Multiset.disjoint_left.mpr fun {f} before after => ?_⟩
    exact k.unused f after (h.fresh_busy before (nonneg f))
  · intro f untouched notFresh
    simp only [Multiset.mem_add, not_or] at untouched notFresh
    rw [k.ram f untouched.2 notFresh.2, h.ram f untouched.1 notFresh.1]
  · intro x member
    rcases Multiset.mem_add.mp member with before | after
    · rcases k.cached x.1 with none | kept
      · exact none
      · rw [kept, h.dropped x before]
    · exact k.dropped x after
  · intro v
    rcases k.cached v with none | kept
    · exact Or.inl none
    · rw [kept]
      exact h.cached v

theorem refl (ready : Ready s) : Cloned s 0 0 0 s :=
  ⟨ready, .refl s, by simp [frames], by simp, by simp, by simp, fun _ _ _ => rfl, by simp,
    fun _ => Or.inr rfl⟩

theorem mono (h : Cloned s touched fresh leaves t)
    (more : ∀ f ∈ touched, f ∈ touched' ∨ f ∈ fresh) : Cloned s touched' fresh leaves t :=
  { h with ram := fun f untouched notFresh =>
      h.ram f (fun member => (more f member).elim untouched notFresh) notFresh }

theorem of_taken (h : Taken s f t) : Cloned s 0 {f} 0 t := by
  refine ⟨h.ready, h.same, ?_, ?_, ?_, Multiset.nodup_singleton f, ?_, by simp, ?_⟩
  · intro g
    rw [h.cnt, Multiset.count_singleton]
    simp [frames]
  · rw [h.room, Multiset.card_singleton]
  · intro g member
    rw [Multiset.mem_singleton.mp member]
    exact h.fresh
  · exact fun g _ _ => congrFun h.ram g
  · exact fun v => Or.inr (congrFun h.tlb v)

/-- A step that only writes to memory. -/
theorem of_ram (ready : Ready s) (h : t = { s with ram := t.ram })
    (off : ∀ f, f ∉ touched → t.ram f = s.ram f) : Cloned s touched 0 0 t := by
  have pmm : t.pmm = s.pmm := by rw [h]
  have counts : ∀ f, t.cnt f = s.cnt f := fun f => by unfold State.cnt; rw [pmm]
  refine ⟨⟨pmm ▸ ready.inv, pmm ▸ ready.pages, pmm ▸ ready.positive, pmm ▸ ready.small,
    fun f => counts f ▸ ready.nonneg f⟩, ⟨by rw [h], by rw [h], by rw [h], by rw [h], by rw [pmm]⟩,
    ?_, ?_, by simp, by simp, fun f untouched _ => off f untouched, by simp, fun v => Or.inr (by rw [h])⟩
  · intro f
    rw [counts]
    simp [frames]
  · unfold State.room
    rw [pmm]
    simp

end Cloned

/-! ### One level -/

structure Source (s : State) (n t p : Nat) : Prop where
  once : (pageTables.tables s.ram n t).Nodup
  busy : ∀ u ∈ pageTables.tables s.ram n t, s.Busy u
  counted : ∀ f ∈ frames (pageTables.leaves s.ram n t p), 0 < s.cnt f

/-- The first `k` entries of `new` are copies of those that `old` had, over other tables. -/
structure Twins (ram ram' : Memory Word) (n old new p k : Nat) (fresh : Multiset Nat) : Prop where
  oldLeaves : ∑ i ∈ Finset.range k, pageTables.leavesAt ram' n old p i =
    (∑ i ∈ Finset.range k, pageTables.leavesAt ram n old p i).map cow
  newLeaves : ∑ i ∈ Finset.range k, pageTables.leavesAt ram' n new p i =
    (∑ i ∈ Finset.range k, pageTables.leavesAt ram n old p i).map cow
  oldTables : ∑ i ∈ Finset.range k, pageTables.tablesAt ram' n old i =
    ∑ i ∈ Finset.range k, pageTables.tablesAt ram n old i
  newTables : ∑ i ∈ Finset.range k, pageTables.tablesAt ram' n new i = fresh

/-- A copy of level `n` allocates as many tables as there are below the old one; it only stops when
there is no room for them. -/
def CloneSpec (n : Nat) (f : Nat → Nat → Nat → State → Except Stop State) : Prop :=
  ∀ old new p s, Ready s → Source s n old p → new ∉ pageTables.tables s.ram n old → s.Busy new →
    s.ram new = s.ram old →
    Ends (f old new p s)
      (fun s' => ∃ fresh,
        Cloned s (pageTables.tables s.ram n old + {new}) fresh (pageTables.leaves s.ram n old p) s' ∧
        fresh.card + 1 = (pageTables.tables s.ram n old).card ∧
        Twins s.ram s'.ram n old new p (pageTables.width n) fresh)
      (fun e => e = .noMemory ∧ s.room + 1 < (pageTables.tables s.ram n old).card)

/-- The count and the invalidation for one leaf. -/
theorem Cloned.of_counted {s t : State} {v : Nat} {e : Word} (h : Counted s (Pte.frame e) 1 t)
    (same : t.ram = s.ram) : Cloned s 0 0 {(v, e)} (t.invalidate v) := by
  have ready := h.ready
  refine ⟨⟨ready.inv, ready.pages, ready.positive, ready.small, ready.nonneg⟩,
    ⟨h.same.current, h.same.others, h.same.nextFreePid, h.same.heap, h.same.firstFrame⟩, ?_, ?_,
    by simp, by simp, fun u _ _ => congrFun same u, ?_, ?_⟩
  · intro u
    change t.cnt u = _
    rw [h.cnt, frames, Multiset.map_singleton, Multiset.count_singleton]
    simp
  · have room := h.room
    change s.room ≤ t.room + 0
    omega
  · intro x member
    rw [Multiset.mem_singleton.mp member]
    exact if_pos rfl
  · intro u
    by_cases here : u = v
    · exact Or.inl (if_pos here)
    · exact Or.inr ((if_neg here).trans (congrFun h.tlb u))

/-- The innermost loop before turn `i`. -/
structure LeafTurn (s : State) (old new p i : Nat) (s' : State) : Prop where
  cloned : Cloned s ({old} + {new}) 0 (∑ j ∈ Finset.range i, pageTables.leavesAt s.ram 0 old p j) s'
  oldWords : ∀ j, i ≤ j → s'.ram old j = s.ram old j
  newWords : ∀ j, i ≤ j → s'.ram new j = s.ram old j
  twins : Twins s.ram s'.ram 0 old new p i 0

/-- `ram'` has the same first `k` subtrees of `t` as `ram`. -/
def Kept (ram ram' : Memory Word) (n t p k : Nat) : Prop :=
  ∀ j, j < k → pageTables.leavesAt ram' n t p j = pageTables.leavesAt ram n t p j ∧
    pageTables.tablesAt ram' n t j = pageTables.tablesAt ram n t j

theorem kept_of_same {ram ram' : Memory Word} {n t p k : Nat}
    (words : ∀ j, j < k → ram' t j = ram t j)
    (same : ∀ j, j < k → ∀ u ∈ pageTables.tablesAt ram n t j, ram' u = ram u) :
    Kept ram ram' n t p k := fun j below =>
  ⟨leavesAt_congr (words j below) (same j below), tablesAt_congr (words j below) (same j below)⟩

theorem Twins.succ {ram mid ram' : Memory Word} {n old new p i : Nat} {fresh : Multiset Nat}
    (twins : Twins ram mid n old new p i fresh) (more : Multiset Nat) (oldKept : Kept mid ram' n old p i)
    (newKept : Kept mid ram' n new p i)
    (oldLeaves : pageTables.leavesAt ram' n old p i = (pageTables.leavesAt ram n old p i).map cow)
    (newLeaves : pageTables.leavesAt ram' n new p i = (pageTables.leavesAt ram n old p i).map cow)
    (oldTables : pageTables.tablesAt ram' n old i = pageTables.tablesAt ram n old i)
    (newTables : pageTables.tablesAt ram' n new i = more) :
    Twins ram ram' n old new p (i + 1) (fresh + more) := by
  have below : ∀ {j}, j ∈ Finset.range i → j < i := Finset.mem_range.mp
  refine ⟨?_, ?_, ?_, ?_⟩
  · rw [Finset.sum_range_succ, Finset.sum_range_succ, Multiset.map_add, ← twins.oldLeaves, oldLeaves,
      Finset.sum_congr rfl fun j member => (oldKept j (below member)).1]
  · rw [Finset.sum_range_succ, Finset.sum_range_succ, Multiset.map_add, ← twins.newLeaves, newLeaves,
      Finset.sum_congr rfl fun j member => (newKept j (below member)).1]
  · rw [Finset.sum_range_succ, Finset.sum_range_succ, ← twins.oldTables, oldTables,
      Finset.sum_congr rfl fun j member => (oldKept j (below member)).2]
  · rw [Finset.sum_range_succ, ← twins.newTables, newTables,
      Finset.sum_congr rfl fun j member => (newKept j (below member)).2]

theorem Twins.zero (ram ram' : Memory Word) (n old new p : Nat) : Twins ram ram' n old new p 0 0 :=
  ⟨by simp, by simp, by simp, by simp⟩

theorem denyWrite_words {s : State} {old new i : Nat} {e : Word} (different : old ≠ new)
    (oldWord : s.ram old i = e) (newWord : s.ram new i = e) :
    (s.denyWrite new old i).ram old i = Pte.denyWrite e ∧
      (s.denyWrite new old i).ram new i = Pte.denyWrite e ∧
      ∀ u j, u ≠ old ∧ u ≠ new ∨ j ≠ i → (s.denyWrite new old i).ram u j = s.ram u j := by
  unfold State.denyWrite
  refine ⟨?_, ?_, ?_⟩
  · simp [State.setWord, different, oldWord]
  · simp [State.setWord, Ne.symm different, newWord]
  · rintro u j (⟨notOld, notNew⟩ | other)
    · simp [State.setWord, notOld, notNew]
    · simp [State.setWord, other]

theorem cloneLeaf_spec {s s' : State} {old new p i : Nat} (different : old ≠ new) (inside : i < 512)
    (nonneg : ∀ f, 0 ≤ s.cnt f)
    (counted : ∀ f ∈ frames (pageTables.leaves s.ram 0 old p), 0 < s.cnt f)
    (before : LeafTurn s old new p i s') :
    Ends (cloneLeaf old new p i s') (LeafTurn s old new p (i + 1)) (fun _ => False) := by
  obtain ⟨cloned, oldWords, newWords, twins⟩ := before
  have newWord := newWords i le_rfl
  have oldWord := oldWords i le_rfl
  unfold cloneLeaf
  by_cases present : Pte.present (s.ram old i) = true
  · have used := next_eq_some.mpr ⟨present, rfl⟩
    rw [newWord, if_neg (by simp [present])]
    obtain ⟨oldAt, newAt, off⟩ := denyWrite_words different oldWord newWord
    have written : Cloned s' ({old} + {new}) 0 0 (s'.denyWrite new old i) := by
      refine .of_ram cloned.ready rfl fun f untouched => funext fun j => off f j (Or.inl ?_)
      simpa using untouched
    generalize s'.denyWrite new old i = s₂ at *
    dsimp only
    rw [newAt, Pte.frame_denyWrite]
    have positive : 0 < s₂.cnt (Pte.frame (s.ram old i)) := by
      have leaf : (p * 512 + i, s.ram old i) ∈ pageTables.leaves s.ram 0 old p :=
        mem_leaves_at inside (by rw [leavesAt_zero used]; exact Multiset.mem_singleton_self _)
      have before : 0 < s.cnt (Pte.frame (s.ram old i)) :=
        counted _ (mem_frames leaf)
      rw [written.cnt, cloned.cnt]
      omega
    have counts := addCount_spec 1 written.ready positive (by omega)
    rw [written.ready.count_eq (by omega)]
    dsimp only
    rw [if_neg (by omega)]
    have leaf := Cloned.of_counted (v := p * 512 + i) counts rfl
    have whole := cloned.trans ((written.trans leaf cloned.ready.nonneg)) nonneg
    have oldUsed : pageTables.next (s₂.ram old i) = some (Pte.frame (s.ram old i)) := by
      rw [oldAt]
      exact next_eq_some.mpr ⟨by simp [present], by simp⟩
    have newUsed : pageTables.next (s₂.ram new i) = some (Pte.frame (s.ram old i)) := by
      rw [newAt]
      exact next_eq_some.mpr ⟨by simp [present], by simp⟩
    refine ⟨?_, fun j above => ?_, fun j above => ?_, ?_⟩
    · rw [Finset.sum_range_succ, leavesAt_zero used, radix_eq]
      refine Cloned.mono (by simpa using whole) ?_
      simp
    · exact (off old j (Or.inr (by omega))).trans (oldWords j (by omega))
    · exact (off new j (Or.inr (by omega))).trans (newWords j (by omega))
    · refine twins.succ 0 ?_ ?_ ?_ ?_ ?_ ?_
      · exact kept_of_same (fun j below => off old j (Or.inr (by omega))) (by simp [tablesAt_zero])
      · exact kept_of_same (fun j below => off new j (Or.inr (by omega))) (by simp [tablesAt_zero])
      · rw [leavesAt_zero used]
        exact (leavesAt_zero oldUsed).trans (by rw [oldAt]; rfl)
      · rw [leavesAt_zero used]
        exact (leavesAt_zero newUsed).trans (by rw [newAt]; rfl)
      · rw [tablesAt_zero, tablesAt_zero]
      · rw [tablesAt_zero]
  · have unused : pageTables.next (s.ram old i) = none := by
      simpa [next_eq_none] using present
    rw [newWord, if_pos (by simpa using present)]
    refine ⟨?_, fun j above => oldWords j (by omega), fun j above => newWords j (by omega), ?_⟩
    · rw [Finset.sum_range_succ, leavesAt_none unused, add_zero]
      exact cloned
    · refine twins.succ 0 (fun j _ => ⟨rfl, rfl⟩) (fun j _ => ⟨rfl, rfl⟩) ?_ ?_ ?_ ?_
      · rw [leavesAt_none unused, leavesAt_none (by rwa [oldWord]), Multiset.map_zero]
      · rw [leavesAt_none unused, leavesAt_none (by rwa [newWord]), Multiset.map_zero]
      · rw [tablesAt_zero, tablesAt_zero]
      · rw [tablesAt_zero]

theorem cloneL1_spec : CloneSpec 0 cloneL1 := by
  intro old new p s ready source notOld busy same
  have different : old ≠ new := by
    rintro rfl
    exact notOld mem_tables_self
  have start : LeafTurn s old new p 0 s :=
    ⟨(Cloned.refl ready).mono (by simp), fun _ _ => rfl, fun j _ => congrFun same j,
      .zero _ _ _ _ _ _⟩
  have loop := Ends.turns (LeafTurn s old new p) start 512 fun i s' inside before =>
    cloneLeaf_spec different inside ready.nonneg source.counted before
  have card : pageTables.tables s.ram 0 old = {old} := by
    rw [tables_eq, Finset.sum_eq_zero (fun i _ => tablesAt_zero), add_zero]
  refine loop.mono (fun s' last => ⟨0, ?_, ?_, ?_⟩) (fun _ never => never.elim)
  · rw [card, leaves_eq, width_low (by decide)]
    exact last.cloned
  · rw [card]
    rfl
  · rw [width_low (by decide)]
    exact last.twins

/-! ### The levels above -/

/-- The tables below the first `k` entries of `old`. -/
abbrev firstTables (ram : Memory Word) (n old k : Nat) : Multiset Nat :=
  ∑ j ∈ Finset.range k, pageTables.tablesAt ram (n + 1) old j

/-- An outer loop before turn `i`. -/
structure TableTurn (s : State) (n old new p i : Nat) (fresh : Multiset Nat) (s' : State) : Prop where
  cloned : Cloned s (firstTables s.ram n old i + {new}) fresh
    (∑ j ∈ Finset.range i, pageTables.leavesAt s.ram (n + 1) old p j) s'
  card : fresh.card = (firstTables s.ram n old i).card
  newWords : ∀ j, i ≤ j → s'.ram new j = s.ram old j
  twins : Twins s.ram s'.ram (n + 1) old new p i fresh

/-- The two stores before the walk of the copy. -/
def State.attach (s : State) (new i table old : Nat) : State :=
  (s.setWord new i (Pte.setFrame (s.ram new i) table)).copyPage table old

theorem attach_words {s : State} {new i table old : Nat} (apart : new ≠ table) (source : old ≠ table)
    (source' : old ≠ new) :
    (s.attach new i table old).ram new i = Pte.setFrame (s.ram new i) table ∧
      (s.attach new i table old).ram table = (s.attach new i table old).ram old ∧
      (∀ j, j ≠ i → (s.attach new i table old).ram new j = s.ram new j) ∧
      ∀ u, u ≠ new → u ≠ table → (s.attach new i table old).ram u = s.ram u := by
  unfold State.attach State.copyPage State.setWord
  refine ⟨?_, ?_, ?_, ?_⟩
  · simp [apart]
  · funext j
    simp [source, source']
  · intro j other
    simp [apart, other]
  · intro u notNew notTable
    funext j
    simp [notNew, notTable]

/-- The leaves and tables of both trees after a copy. -/
theorem twins_whole {ram ram' : Memory Word} {n old new p : Nat} {fresh : Multiset Nat}
    (twins : Twins ram ram' n old new p (pageTables.width n) fresh) :
    pageTables.leaves ram' n old p = (pageTables.leaves ram n old p).map cow ∧
      pageTables.leaves ram' n new p = (pageTables.leaves ram n old p).map cow ∧
      pageTables.tables ram' n old = pageTables.tables ram n old ∧
      pageTables.tables ram' n new = {new} + fresh := by
  refine ⟨?_, ?_, ?_, ?_⟩
  · rw [leaves_eq, leaves_eq, twins.oldLeaves]
  · rw [leaves_eq, leaves_eq, twins.newLeaves]
  · rw [tables_eq, tables_eq, twins.oldTables]
  · rw [tables_eq, twins.newTables]

/-- Turn `i` of an outer loop, for an entry in use. -/
structure Turn (s : State) (n old new p i c : Nat) (fresh : Multiset Nat) (s' : State) : Prop where
  ready : Ready s
  tree : Source s (n + 1) old p
  notOld : new ∉ pageTables.tables s.ram (n + 1) old
  newBusy : s.Busy new
  inside : i < pageTables.width (n + 1)
  used : pageTables.next (s.ram old i) = some c
  before : TableTurn s n old new p i fresh s'

theorem firstTables_le {ram : Memory Word} {n old k : Nat} (le : k ≤ pageTables.width (n + 1)) :
    {old} + firstTables ram n old k ≤ pageTables.tables ram (n + 1) old := by
  rw [tables_eq]
  exact add_le_add_right (Finset.sum_le_sum_of_subset (Finset.range_mono le)) _

theorem old_ne_new {s : State} {n old new : Nat} (notOld : new ∉ pageTables.tables s.ram n old) :
    old ≠ new := by
  rintro rfl
  exact notOld mem_tables_self

/-- The old table itself is only read. -/
theorem TableTurn.oldSame {s s' : State} {n old new p i : Nat} {fresh : Multiset Nat}
    (before : TableTurn s n old new p i fresh s') (tree : Source s (n + 1) old p)
    (notOld : new ∉ pageTables.tables s.ram (n + 1) old) (le : i ≤ pageTables.width (n + 1)) :
    s'.ram old = s.ram old := by
  have cloned := before.cloned
  have once := Multiset.nodup_of_le (firstTables_le le) tree.once
  have apart := Multiset.disjoint_left.mp (Multiset.nodup_add.mp once).2.2
    (Multiset.mem_singleton_self old)
  refine cloned.ram old ?_ fun member => cloned.unused old member (tree.busy old mem_tables_self)
  rw [Multiset.mem_add, not_or, Multiset.mem_singleton]
  exact ⟨apart, old_ne_new notOld⟩

namespace Turn

variable {s s' s₁ s₃ s₄ : State} {n old new p i c table : Nat} {fresh more : Multiset Nat}

theorem childMem (h : Turn s n old new p i c fresh s') {u : Nat}
    (member : u ∈ pageTables.tables s.ram n c) : u ∈ pageTables.tables s.ram (n + 1) old :=
  mem_tables_child h.inside h.used member

theorem childBusy (h : Turn s n old new p i c fresh s') {u : Nat}
    (member : u ∈ pageTables.tables s.ram n c) : s'.Busy u :=
  h.before.cloned.busy (h.tree.busy u (h.childMem member))

theorem childNew (h : Turn s n old new p i c fresh s') {u : Nat}
    (member : u ∈ pageTables.tables s.ram n c) : u ≠ new :=
  fun same => h.notOld (same ▸ h.childMem member)

theorem cut (h : Turn s n old new p i c fresh s') : firstTables s.ram n old (i + 1) =
    firstTables s.ram n old i + pageTables.tables s.ram n c := by
  rw [firstTables, Finset.sum_range_succ, tablesAt_succ h.used]

theorem leavesUsed (h : Turn s n old new p i c fresh s') :
    pageTables.leavesAt s.ram (n + 1) old p i = pageTables.leaves s.ram n c (p * 512 + i) :=
  leavesAt_succ h.used

theorem apart (h : Turn s n old new p i c fresh s') :
    Disjoint (firstTables s.ram n old i) (pageTables.tables s.ram n c) := by
  have once := Multiset.nodup_of_le (firstTables_le h.inside) h.tree.once
  rw [h.cut] at once
  exact (Multiset.nodup_add.mp (Multiset.nodup_add.mp once).2.1).2.2

theorem card_le (h : Turn s n old new p i c fresh s') :
    1 + (fresh.card + (pageTables.tables s.ram n c).card) ≤
      (pageTables.tables s.ram (n + 1) old).card := by
  have first : {old} + firstTables s.ram n old (i + 1) ≤ _ := firstTables_le h.inside
  have le := Multiset.card_le_card first
  rwa [h.cut, Multiset.card_add, Multiset.card_add, Multiset.card_singleton,
    ← h.before.card] at le

/-- The table is allocated, attached and filled: the child can walk it. -/
structure Attached (s : State) (n old new p i c table : Nat) (s' s₃ : State) : Prop where
  cloned : Cloned s' ({new} + {table}) {table} 0 s₃
  word : s₃.ram new i = Pte.setFrame (s'.ram new i) table
  filled : s₃.ram table = s₃.ram c
  newOff : ∀ j, j ≠ i → s₃.ram new j = s'.ram new j
  off : ∀ u, u ≠ new → u ≠ table → s₃.ram u = s'.ram u
  tables : pageTables.tables s₃.ram n c = pageTables.tables s.ram n c
  leaves : pageTables.leaves s₃.ram n c (p * 512 + i) = pageTables.leaves s.ram n c (p * 512 + i)
  notTable : ∀ u, s'.Busy u → u ≠ table

theorem attach (h : Turn s n old new p i c fresh s') (taken : Taken s' table s₁) :
    Attached s n old new p i c table s' (s₁.attach new i table c) := by
  have cloned := h.before.cloned
  have notTable : ∀ u, s'.Busy u → u ≠ table := fun u busy same => taken.fresh (same ▸ busy)
  obtain ⟨atNew, atTable, newOff, off⟩ := attach_words (s := s₁) (i := i)
    (notTable new (cloned.busy h.newBusy)) (notTable c (h.childBusy mem_tables_self))
    (h.childNew mem_tables_self)
  have attached : Cloned s₁ ({new} + {table}) 0 0 (s₁.attach new i table c) := by
    refine .of_ram taken.ready rfl fun u untouched => off u ?_ ?_ <;> simp at untouched <;> tauto
  have upTo := (Cloned.of_taken taken).trans attached cloned.ready.nonneg
  rw [taken.ram] at atNew newOff off
  generalize s₁.attach new i table c = s₃ at *
  have same : ∀ u ∈ pageTables.tables s.ram n c, s₃.ram u = s.ram u := by
    intro u member
    rw [off u (h.childNew member) (notTable u (h.childBusy member))]
    refine cloned.ram u ?_ fun clash => cloned.unused u clash (h.tree.busy u (h.childMem member))
    rw [Multiset.mem_add, not_or, Multiset.mem_singleton]
    exact ⟨fun clash => Multiset.disjoint_left.mp h.apart clash member, h.childNew member⟩
  exact ⟨by simpa using upTo, atNew, atTable, newOff, off, tables_congr same, leaves_congr same,
    notTable⟩

theorem source (h : Turn s n old new p i c fresh s')
    (at₃ : Attached s n old new p i c table s' s₃) : Source s₃ n c (p * 512 + i) := by
  refine ⟨?_, fun u member => ?_, fun f member => ?_⟩
  · rw [at₃.tables]
    exact child_nodup h.tree.once h.inside h.used
  · rw [at₃.tables] at member
    exact at₃.cloned.busy (h.childBusy member)
  · rw [at₃.leaves, ← h.leavesUsed] at member
    obtain ⟨x, leaf, rfl⟩ := Multiset.mem_map.mp member
    have positive := h.tree.counted _ (mem_frames (mem_leaves_at h.inside leaf))
    have first := h.before.cloned.cnt (Pte.frame x.2)
    have second := at₃.cloned.cnt (Pte.frame x.2)
    omega

/-- What was busy before the turn, and is not in the subtree walked, is as it was. -/
theorem kept (at₃ : Attached s n old new p i c table s' s₃)
    (walked : Cloned s₃ (pageTables.tables s.ram n c + {table}) more
      (pageTables.leaves s.ram n c (p * 512 + i)) s₄) {u : Nat} (busy : s'.Busy u)
    (notChild : u ∉ pageTables.tables s.ram n c) :
    s₄.ram u = s₃.ram u ∧ (u ≠ new → s₄.ram u = s'.ram u) := by
  have notTable := at₃.notTable u busy
  have same : s₄.ram u = s₃.ram u := by
    refine walked.ram u ?_ fun clash => walked.unused u clash (at₃.cloned.busy busy)
    rw [Multiset.mem_add, not_or, Multiset.mem_singleton]
    exact ⟨notChild, notTable⟩
  exact ⟨same, fun notNew => same.trans (at₃.off u notNew notTable)⟩

theorem keptOld (h : Turn s n old new p i c fresh s')
    (at₃ : Attached s n old new p i c table s' s₃)
    (walked : Cloned s₃ (pageTables.tables s.ram n c + {table}) more
      (pageTables.leaves s.ram n c (p * 512 + i)) s₄) {j u : Nat} (below : j < i)
    (member : u ∈ pageTables.tablesAt s'.ram (n + 1) old j) : s₄.ram u = s'.ram u := by
  have sum : u ∈ ∑ j ∈ Finset.range i, pageTables.tablesAt s'.ram (n + 1) old j :=
    Multiset.mem_sum.mpr ⟨j, Finset.mem_range.mpr below, member⟩
  rw [h.before.twins.oldTables] at sum
  have tables : u ∈ pageTables.tables s.ram (n + 1) old :=
    Multiset.mem_of_le (firstTables_le h.inside.le) (Multiset.mem_add.mpr (Or.inr sum))
  exact (kept at₃ walked (h.before.cloned.busy (h.tree.busy u tables))
    (Multiset.disjoint_left.mp h.apart sum)).2 fun same => h.notOld (same ▸ tables)

theorem keptNew (h : Turn s n old new p i c fresh s')
    (at₃ : Attached s n old new p i c table s' s₃)
    (walked : Cloned s₃ (pageTables.tables s.ram n c + {table}) more
      (pageTables.leaves s.ram n c (p * 512 + i)) s₄) {j u : Nat} (below : j < i)
    (member : u ∈ pageTables.tablesAt s'.ram (n + 1) new j) : s₄.ram u = s'.ram u := by
  have sum : u ∈ ∑ j ∈ Finset.range i, pageTables.tablesAt s'.ram (n + 1) new j :=
    Multiset.mem_sum.mpr ⟨j, Finset.mem_range.mpr below, member⟩
  rw [h.before.twins.newTables] at sum
  have notBusy := h.before.cloned.unused u sum
  exact (kept at₃ walked (h.before.cloned.fresh_busy sum (h.ready.nonneg u))
    fun clash => notBusy (h.tree.busy u (h.childMem clash))).2
      fun same => notBusy (same ▸ h.newBusy)

/-- The turn is over when the child has walked the copy. -/
theorem finish (h : Turn s n old new p i c fresh s') (at₃ : Attached s n old new p i c table s' s₃)
    (small : table < 2 ^ 40)
    (walked : Cloned s₃ (pageTables.tables s.ram n c + {table}) more
      (pageTables.leaves s.ram n c (p * 512 + i)) s₄)
    (card : more.card + 1 = (pageTables.tables s.ram n c).card)
    (twins : Twins s₃.ram s₄.ram n c table (p * 512 + i) (pageTables.width n) more) :
    TableTurn s n old new p (i + 1) (fresh + ({table} + more)) s₄ := by
  have cloned := h.before.cloned
  have different := old_ne_new h.notOld
  have oldSame := h.before.oldSame h.tree h.notOld h.inside.le
  have oldWords : s₄.ram old = s'.ram old :=
    (kept at₃ walked (cloned.busy (h.tree.busy old mem_tables_self))
      (not_mem_child h.tree.once h.inside h.used)).2 different
  have newWords : s₄.ram new = s₃.ram new :=
    (kept at₃ walked (cloned.busy h.newBusy) fun clash => h.childNew clash rfl).1
  have newUsed : pageTables.next (s₄.ram new i) = some table := by
    rw [newWords, at₃.word, h.before.newWords i le_rfl]
    exact next_eq_some.mpr ⟨by simpa using (next_eq_some.mp h.used).1, Pte.frame_setFrame small⟩
  have oldUsed : pageTables.next (s₄.ram old i) = some c := by
    rw [oldWords, oldSame]
    exact h.used
  obtain ⟨oldLeaves, newLeaves, oldTables, newTables⟩ := twins_whole twins
  rw [at₃.leaves] at oldLeaves newLeaves
  rw [at₃.tables] at oldTables
  refine ⟨?_, ?_, fun j above => ?_, ?_⟩
  · have whole := cloned.trans (at₃.cloned.trans walked cloned.ready.nonneg) h.ready.nonneg
    rw [zero_add] at whole
    rw [Finset.sum_range_succ (fun j => pageTables.leavesAt _ _ _ _ j), h.leavesUsed]
    refine Cloned.mono whole ?_
    intro u
    rw [h.cut]
    simp only [Multiset.mem_add, Multiset.mem_singleton]
    tauto
  · have total := h.before.card
    rw [h.cut, Multiset.card_add, Multiset.card_add, Multiset.card_add, Multiset.card_singleton]
    omega
  · rw [newWords, at₃.newOff j (by omega)]
    exact h.before.newWords j (by omega)
  · refine h.before.twins.succ _ ?_ ?_ ?_ ?_ ?_ ?_
    · exact kept_of_same (fun j _ => by rw [oldWords]) fun j below u => h.keptOld at₃ walked below
    · refine kept_of_same (fun j below => ?_) fun j below u => h.keptNew at₃ walked below
      rw [newWords, at₃.newOff j (by omega)]
    · rw [h.leavesUsed, ← oldLeaves]
      exact leavesAt_succ oldUsed
    · rw [h.leavesUsed, ← newLeaves]
      exact leavesAt_succ newUsed
    · rw [tablesAt_succ h.used, tablesAt_succ oldUsed, oldTables]
    · rw [tablesAt_succ newUsed, newTables]

end Turn

theorem cloneEntry_spec {s s' : State} {n source old new p i : Nat} {fresh : Multiset Nat}
    {child : Nat → Nat → Nat → State → Except Stop State} (spec : CloneSpec n child)
    (ready : Ready s) (tree : Source s (n + 1) old p)
    (notOld : new ∉ pageTables.tables s.ram (n + 1) old) (newBusy : s.Busy new)
    (either : source = old ∨ source = new) (inside : i < pageTables.width (n + 1))
    (before : TableTurn s n old new p i fresh s') :
    Ends (cloneEntry child source new p i s')
      (fun s' => ∃ fresh, TableTurn s n old new p (i + 1) fresh s')
      (fun e => e = .noMemory ∧ s.room + 1 < (pageTables.tables s.ram (n + 1) old).card) := by
  have oldSame := before.oldSame tree notOld inside.le
  have word : s'.ram source i = s.ram old i := by
    rcases either with rfl | rfl
    · rw [oldSame]
    · exact before.newWords i le_rfl
  have room := before.cloned.room
  unfold cloneEntry
  rw [word]
  by_cases present : Pte.present (s.ram old i) = true
  · have used := next_eq_some.mpr ⟨present, rfl⟩
    rw [if_neg (by simp [present])]
    dsimp only
    generalize Pte.frame (s.ram old i) = c at used ⊢
    have turn : Turn s n old new p i c fresh s' :=
      ⟨ready, tree, notOld, newBusy, inside, used, before⟩
    have cards := turn.card_le
    have positive : 0 < (pageTables.tables s.ram n c).card :=
      Multiset.card_pos_iff_exists_mem.mpr ⟨c, mem_tables_self⟩
    refine Ends.bind (allocPage_spec before.cloned.ready |>.mono (fun _ h => h)
      fun _ never => never.elim) ?_
    rintro ⟨table, s₁⟩ (⟨rfl, -, full⟩ | ⟨nonzero, taken⟩)
    · exact ⟨rfl, by omega⟩
    dsimp only at nonzero taken ⊢
    rw [if_neg nonzero]
    change Ends (child c table (p * 512 + i) (s₁.attach new i table c)) _ _
    have at₃ := turn.attach taken
    have small := taken.small
    generalize s₁.attach new i table c = s₃ at *
    have tableBusy := at₃.cloned.fresh_busy (Multiset.mem_singleton_self table)
      (before.cloned.ready.nonneg table)
    refine (spec c table (p * 512 + i) s₃ at₃.cloned.ready (turn.source at₃) ?_ tableBusy
      at₃.filled).mono ?_ ?_
    · rw [at₃.tables]
      exact fun clash => at₃.notTable table (turn.childBusy clash) rfl
    · rintro s₄ ⟨more, walked, moreCard, twins⟩
      rw [at₃.tables, at₃.leaves] at walked
      rw [at₃.tables] at moreCard
      exact ⟨_, turn.finish at₃ (by omega) walked moreCard twins⟩
    · rintro e ⟨rfl, short⟩
      have second := at₃.cloned.room
      rw [at₃.tables] at short
      rw [Multiset.card_singleton] at second
      exact ⟨rfl, by omega⟩
  · have unused : pageTables.next (s.ram old i) = none := by
      simpa [next_eq_none] using present
    obtain ⟨cloned, card, newWords, twins⟩ := before
    rw [if_pos (by simpa using present)]
    refine ⟨fresh, ?_, ?_, fun j above => newWords j (by omega), ?_⟩
    · rw [firstTables, Finset.sum_range_succ, Finset.sum_range_succ, leavesAt_none unused,
        tablesAt_none unused, add_zero, add_zero]
      exact cloned
    · rw [firstTables, Finset.sum_range_succ, tablesAt_none unused, add_zero]
      exact card
    · rw [← add_zero fresh]
      refine twins.succ 0 (fun j _ => ⟨rfl, rfl⟩) (fun j _ => ⟨rfl, rfl⟩) ?_ ?_ ?_ ?_
      · rw [leavesAt_none unused, leavesAt_none (by rwa [oldSame]), Multiset.map_zero]
      · rw [leavesAt_none unused, leavesAt_none (by rwa [newWords i le_rfl]), Multiset.map_zero]
      · rw [tablesAt_none unused, tablesAt_none (by rwa [oldSame])]
      · rw [tablesAt_none (by rwa [newWords i le_rfl])]

theorem cloneLoop_turns {s : State} {n source old new p : Nat}
    {child : Nat → Nat → Nat → State → Except Stop State} (spec : CloneSpec n child)
    (ready : Ready s) (tree : Source s (n + 1) old p)
    (notOld : new ∉ pageTables.tables s.ram (n + 1) old) (newBusy : s.Busy new)
    (same : s.ram new = s.ram old) (either : source = old ∨ source = new) :
    Ends (turns (cloneEntry child source new p) (pageTables.width (n + 1)) s)
      (fun s' => ∃ fresh, TableTurn s n old new p (pageTables.width (n + 1)) fresh s')
      (fun e => e = .noMemory ∧ s.room + 1 < (pageTables.tables s.ram (n + 1) old).card) := by
  have start : ∃ fresh, TableTurn s n old new p 0 fresh s :=
    ⟨0, (Cloned.refl ready).mono (by simp), rfl, fun j _ => congrFun same j, .zero _ _ _ _ _ _⟩
  exact Ends.turns (fun i s' => ∃ fresh, TableTurn s n old new p i fresh s') start _
    fun i s' inside ⟨fresh, before⟩ =>
      cloneEntry_spec spec ready tree notOld newBusy either inside before

/-- What the last turn leaves. -/
theorem TableTurn.whole {s s' : State} {n old new p : Nat} {fresh : Multiset Nat}
    (last : TableTurn s n old new p (pageTables.width (n + 1)) fresh s') :
    Cloned s (pageTables.tables s.ram (n + 1) old + {new}) fresh
        (pageTables.leaves s.ram (n + 1) old p) s' ∧
      fresh.card + 1 = (pageTables.tables s.ram (n + 1) old).card := by
  constructor
  · rw [leaves_eq]
    refine last.cloned.mono fun u member => Or.inl ?_
    rw [tables_eq]
    simp only [Multiset.mem_add] at member ⊢
    tauto
  · rw [last.card, tables_eq, Multiset.card_add, Multiset.card_singleton, Nat.add_comm]

theorem cloneLoop_spec {n : Nat} {child : Nat → Nat → Nat → State → Except Stop State}
    (spec : CloneSpec n child) (source : Nat → Nat → Nat)
    (either : ∀ old new, source old new = old ∨ source old new = new) :
    CloneSpec (n + 1) fun old new p =>
      turns (cloneEntry child (source old new) new p) (pageTables.width (n + 1)) := by
  intro old new p s ready tree notOld newBusy same
  apply (cloneLoop_turns spec ready tree notOld newBusy same (either old new)).mono
  · intro s' ⟨fresh, last⟩
    obtain ⟨cloned, card⟩ := last.whole
    exact ⟨fresh, cloned, card, last.twins⟩
  · exact fun _ h => h

theorem cloneL2_spec : CloneSpec 1 cloneL2 := by
  have loop := cloneLoop_spec cloneL1_spec (fun _ new => new) fun _ _ => Or.inr rfl
  rwa [width_low (by decide)] at loop

theorem cloneL3_spec : CloneSpec 2 cloneL3 := by
  have loop := cloneLoop_spec cloneL2_spec (fun _ new => new) fun _ _ => Or.inr rfl
  rwa [width_low (by decide)] at loop

/-- The loop of `clone_mm` over the lower half of a directory. -/
theorem cloneL4_turns {s : State} {old new : Nat} (ready : Ready s) (tree : Source s 3 old 0)
    (notOld : new ∉ pageTables.tables s.ram 3 old) (newBusy : s.Busy new)
    (same : s.ram new = s.ram old) :
    Ends (turns (cloneEntry cloneL3 old new 0) 256 s)
      (fun s' => ∃ fresh, TableTurn s 2 old new 0 256 fresh s')
      (fun e => e = .noMemory ∧ s.room + 1 < (pageTables.tables s.ram 3 old).card) := by
  have loop := cloneLoop_turns cloneL3_spec ready tree notOld newBusy same (Or.inl rfl)
  rwa [width_top] at loop

end Landaux
