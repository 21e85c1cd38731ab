import Landaux.Kernel.Spaces

/-!
# What the running process changes

`Effect` sums up a part of a page fault: the tasks stay, only tables of the running process and
frames that nothing used are written to, and translations kept by the processor stay right.
-/

namespace Landaux
open Lib Radix

/-- A kept translation agrees with an entry of the running process, and allows no more. -/
def Coherent (s : State) : Prop :=
  ∀ v x, s.tlb v = some x → v < 2 ^ 35 ∧
    ∃ e, s.entry v = some e ∧ Pte.frame e = x.frame ∧ (x.write = true → Pte.writable e = true)

structure Effect (static : Nat) (s : State) (extra : Multiset Nat) (s' : State) : Prop where
  holds : Holds static extra s'
  same : SameTasks s s'
  busy : ∀ u, s.Busy u → s'.Busy u
  kept : ∀ u, s.Busy u → u ∉ s.current.tables s.ram → s'.ram u = s.ram u
  grown : ∀ u ∈ s'.current.tables s'.ram, u ∈ s.current.tables s.ram ∨ ¬ s.Busy u
  coherent : Coherent s → Coherent s'

variable {static f v : Nat} {extra extra' : Multiset Nat} {s s' t : State} {e : Word} {p : Task}

/-! ### Entries and leaves -/

theorem mem_lower {v : Nat} : v / pageTables.radix ^ (3 + 1) = 0 ∧ pageTables.Inside v 3 ↔ v < 2 ^ 35 := by
  constructor
  · rintro ⟨number, inside⟩
    have top := inside 3 le_rfl
    rw [width_top] at top
    unfold Radix.index at top
    simp only [radix_eq] at number top
    omega
  · exact fun lower => ⟨lower_number lower, inside_lower lower⟩

theorem mem_task_leaves {ram : Memory Word} : (v, e) ∈ p.leaves ram ↔
    v < 2 ^ 35 ∧ pageTables.walk ram v 3 p.pageDir = some e := by
  unfold Task.leaves
  rw [mem_leaves, ← and_assoc, mem_lower]

theorem entry_iff (lower : v < 2 ^ 35) : s.entry v = some e ↔ (v, e) ∈ s.current.leaves s.ram := by
  rw [mem_task_leaves]
  exact ⟨fun found => ⟨lower, found⟩, fun found => found.2⟩

theorem coherent_iff : Coherent s ↔ ∀ v x, s.tlb v = some x →
    ∃ e, (v, e) ∈ s.current.leaves s.ram ∧ Pte.frame e = x.frame ∧
      (x.write = true → Pte.writable e = true) := by
  refine forall_congr' fun v => forall_congr' fun x => imp_congr_right fun _ => ?_
  constructor
  · rintro ⟨lower, e, found, rest⟩
    exact ⟨e, (entry_iff lower).mp found, rest⟩
  · rintro ⟨e, leaf, rest⟩
    have lower := (mem_task_leaves.mp leaf).1
    exact ⟨lower, e, (entry_iff lower).mpr leaf, rest⟩

/-- Translations stay right when leaves do, and none comes in. -/
theorem Coherent.of_leaves (coherent : Coherent s)
    (leaves : s'.current.leaves s'.ram = s.current.leaves s.ram)
    (cached : ∀ v, s'.tlb v = none ∨ s'.tlb v = s.tlb v) : Coherent s' := by
  rw [coherent_iff] at coherent ⊢
  intro v x kept
  rw [leaves]
  rcases cached v with none | same
  · rw [none] at kept
    cases kept
  · exact coherent v x (same ▸ kept)

/-! ### Composition -/

namespace Effect

theorem refl (h : Holds static extra s) : Effect static s extra s :=
  ⟨h, .refl s, fun _ busy => busy, fun _ _ _ => rfl, fun _ member => Or.inl member, fun h => h⟩

theorem trans (h : Effect static s extra t) (k : Effect static t extra' s') :
    Effect static s extra' s' := by
  refine ⟨k.holds, h.same.trans k.same, fun u busy => k.busy u (h.busy u busy), fun u busy other => ?_,
    fun u member => ?_, fun coherent => k.coherent (h.coherent coherent)⟩
  · rw [k.kept u (h.busy u busy), h.kept u busy other]
    intro inTree
    exact (h.grown u inTree).elim other fun notBusy => notBusy busy
  · rcases k.grown u member with before | notBusy
    · exact h.grown u before
    · exact Or.inr fun busy => notBusy (h.busy u busy)

end Effect

/-! ### The path of a page -/

theorem Effect.found {fresh : Multiset Nat} {table : Nat} (h : Holds static extra s)
    (found : Found s s.current.pageDir v fresh table s') : Effect static s extra s' := by
  obtain ⟨cloned, tables, leaves, -⟩ := found
  have same := cloned.same
  have notBusy := cloned.unused
  have kept : ∀ u, s.Busy u → u ∉ s.current.tables s.ram → s'.ram u = s.ram u :=
    fun u busy other => cloned.ram u other fun isFresh => notBusy u isFresh busy
  have others : ∀ p ∈ s.others, ∀ u ∈ p.tables s.ram, s'.ram u = s.ram u := fun p member u inTree =>
    kept u ((h.tree (List.mem_cons_of_mem _ member)).busy u inTree) (h.other_tables member inTree)
  have cnt : ∀ u, s'.cnt u = s.cnt u + fresh.count u := fun u => by
    rw [cloned.cnt, frames, Multiset.map_zero, Multiset.count_zero, Nat.cast_zero, add_zero]
  have owned : s'.owned = s.owned + fresh := by
    rw [owned_eq, owned_eq, same.current, same.others, same.heap, ownedBy_congr others, Task.tables,
      tables, Task.tables]
    ac_rfl
  have mapped : s'.mapped = s.mapped := by
    rw [mapped_eq, mapped_eq, same.current, same.others, mappedBy_congr others, Task.leaves, leaves,
      Task.leaves]
  have tasks : s'.tasks = s.tasks := by
    unfold State.tasks
    rw [same.current, same.others]
  refine ⟨⟨cloned.ready, ?_, ?_, ?_, ?_, ?_, ?_, ?_, ?_⟩, same, fun u => cloned.busy, kept, ?_, ?_⟩
  · rw [same.firstFrame]
    exact h.low
  · rw [owned, ← add_assoc, Multiset.nodup_add]
    refine ⟨h.once, cloned.once, Multiset.disjoint_left.mpr fun {u} before isFresh => ?_⟩
    exact notBusy u isFresh (h.busy_owned before)
  · intro u
    rw [cnt, owned, mapped, ← add_assoc, Multiset.count_add]
    have before := h.cnt u
    push_cast at before ⊢
    omega
  · rw [owned, mapped, ← add_assoc, Multiset.disjoint_add_left]
    exact ⟨h.apart, Multiset.disjoint_left.mpr fun {u} isFresh member =>
      notBusy u isFresh (h.busy_mapped member)⟩
  · rw [tasks]
    exact h.root
  · rw [tasks]
    exact h.first
  · rw [tasks]
    intro p member x e leaf writable
    have same : p.leaves s'.ram = p.leaves s.ram := by
      rcases List.mem_cons.mp member with rfl | other
      · exact leaves
      · exact Task.leaves_congr (others p other)
    rw [same] at leaf
    obtain ⟨one, area⟩ := h.write p member x e leaf writable
    refine ⟨?_, area⟩
    rw [cnt, one, Multiset.count_eq_zero_of_notMem fun isFresh => ?_]
    · rfl
    · exact notBusy _ isFresh (Or.inl (by omega))
  · rw [tasks]
    exact h.areas
  · intro u inTree
    rw [same.current, Task.tables, tables] at inTree
    exact (Multiset.mem_add.mp inTree).imp_right (notBusy u)
  · intro coherent
    refine coherent.of_leaves ?_ cloned.cached
    rw [same.current]
    exact leaves

/-! ### A new frame -/

/-- A frame is allocated and filled. -/
theorem Effect.take (h : Holds static extra s) (taken : Taken s f t) (ram : Memory Word)
    (off : ∀ u, u ≠ f → ram u = s.ram u) : Effect static s ({f} + extra) { t with ram := ram } := by
  have same := taken.same
  have notBusy : ∀ u, s.Busy u → u ≠ f := fun u busy same => taken.fresh (same ▸ busy)
  have kept : ∀ u, s.Busy u → ram u = s.ram u := fun u busy => off u (notBusy u busy)
  have inTrees : ∀ p ∈ s.tasks, ∀ u ∈ p.tables s.ram, ram u = s.ram u := fun p member u inTree =>
    kept u ((h.tree member).busy u inTree)
  have tasks : State.tasks { t with ram := ram } = s.tasks := by
    change t.current :: t.others = _
    rw [same.current, same.others]
    rfl
  have owned : State.owned { t with ram := ram } = s.owned := by
    unfold State.owned
    rw [tasks]
    change ownedBy ram _ + (t.heap : Multiset Nat) = _
    rw [ownedBy_congr inTrees, same.heap]
  have mapped : State.mapped { t with ram := ram } = s.mapped := by
    unfold State.mapped
    rw [tasks]
    exact mappedBy_congr inTrees
  have cnt : ∀ u, State.cnt { t with ram := ram } u = s.cnt u + if u = f then 1 else 0 := taken.cnt
  have ready := taken.ready
  refine ⟨⟨⟨ready.inv, ready.pages, ready.positive, ready.small, ready.nonneg⟩, ?_, ?_, ?_, ?_, ?_, ?_,
    ?_, ?_⟩, ⟨same.current, same.others, same.nextFreePid, same.heap, same.firstFrame⟩, ?_,
    fun u busy _ => kept u busy, ?_, ?_⟩
  · exact same.firstFrame ▸ h.low
  · rw [owned, add_assoc, Multiset.nodup_add]
    refine ⟨Multiset.nodup_singleton f, h.once, Multiset.disjoint_left.mpr fun {u} isNew before => ?_⟩
    exact notBusy u (h.busy_owned before) (Multiset.mem_singleton.mp isNew)
  · intro u
    rw [cnt, owned, mapped, add_assoc ({f} : Multiset Nat), Multiset.count_add,
      Multiset.count_singleton]
    have before := h.cnt u
    push_cast at before ⊢
    linarith
  · rw [owned, mapped, add_assoc, Multiset.disjoint_add_left]
    refine ⟨Multiset.disjoint_left.mpr fun {u} isNew member => ?_, h.apart⟩
    exact notBusy u (h.busy_mapped member) (Multiset.mem_singleton.mp isNew)
  · exact tasks ▸ h.root
  · exact tasks ▸ h.first
  · rw [tasks]
    intro p member x e leaf writable
    change (x, e) ∈ p.leaves ram at leaf
    rw [Task.leaves_congr (inTrees p member)] at leaf
    obtain ⟨one, area⟩ := h.write p member x e leaf writable
    refine ⟨?_, area⟩
    rw [cnt, one, if_neg (notBusy _ (Or.inl (by omega)))]
    rfl
  · exact tasks ▸ h.areas
  · rintro u (positive | low)
    · left
      rw [cnt]
      split <;> omega
    · right
      exact same.firstFrame ▸ low
  · intro u inTree
    change u ∈ t.current.tables ram at inTree
    rw [same.current, Task.tables_congr (inTrees _ Holds.current_mem)] at inTree
    exact Or.inl inTree
  · intro coherent
    refine coherent.of_leaves ?_ fun v => Or.inr (congrFun taken.tlb v)
    change t.current.leaves ram = _
    rw [same.current, Task.leaves_congr (inTrees _ Holds.current_mem)]

/-! ### A new leaf -/

/-- What page `v` maps, in a table of level 0. -/
abbrev leafAt (ram : Memory Word) (table v : Nat) : Multiset (Nat × Word) :=
  pageTables.leavesAt ram 0 table (v / 512) (v % 512)

theorem leafAt_none {ram : Memory Word} {table : Nat} (unused : Pte.present (ram table (v % 512)) = false) :
    leafAt ram table v = 0 := leavesAt_none (next_eq_none.mpr unused)

theorem leafAt_some {ram : Memory Word} {table : Nat} (used : Pte.present (ram table (v % 512)) = true) :
    leafAt ram table v = {(v, ram table (v % 512))} := by
  rw [leafAt, leavesAt_zero (next_eq_some.mpr ⟨used, rfl⟩), radix_eq, Nat.div_add_mod']

/-- The entry of page `v` is set: no table comes or goes. -/
theorem setWord_leaves {root table : Nat} {ram : Memory Word} (tree : Tree s root) (lower : v < 2 ^ 35)
    (path : pageTables.tableOf s.ram v 0 3 root = some table) (used : Pte.present e = true)
    (set : ram = (s.setWord table (v % 512) e).ram) :
    pageTables.tables ram 3 root = pageTables.tables s.ram 3 root ∧
      pageTables.leaves ram 3 root 0 + leafAt s.ram table v =
        pageTables.leaves s.ram 3 root 0 + {(v, e)} := by
  have inside := inside_lower lower
  have index : pageTables.index v 0 = v % 512 := by simp [Radix.index]
  have off : ∀ a i, a ≠ table ∨ i ≠ pageTables.index v 0 → ram a i = s.ram a i := fun a i other => by
    rw [set, setWord_words, if_neg (by rw [index] at other; tauto)]
  have here : ram table (v % 512) = e := by
    rw [set, setWord_words, if_pos ⟨rfl, rfl⟩]
  have tables := tables_replace tree.once inside (by omega) path off
  have leaves := leaves_replace tree.once inside (by omega) path off
  rw [tablesAt_zero, tablesAt_zero, add_zero, add_zero] at tables
  have number : v / pageTables.radix ^ (0 + 1) = v / 512 := by simp
  rw [lower_number lower, index, number] at leaves
  refine ⟨tables, leaves.trans ?_⟩
  change _ + leafAt ram table v = _
  rw [leafAt_some (by rwa [here]), here]

theorem Effect.setLeaf {table : Nat} (h : Holds static extra s) (lower : v < 2 ^ 35)
    (path : pageTables.tableOf s.ram v 0 3 s.current.pageDir = some table)
    (used : Pte.present e = true) (ready : Ready s') (same : SameTasks s s')
    (ram : s'.ram = (s.setWord table (v % 512) e).ram) (tlb : s'.tlb = (s.invalidate v).tlb)
    (cnt : ∀ u, s'.cnt u + extra.count u + (frames (leafAt s.ram table v)).count u =
      s.cnt u + extra'.count u + (if u = Pte.frame e then 1 else 0))
    (less : extra' ≤ extra) (apart : Pte.frame e ∉ extra' + s.owned)
    (single : ∀ u, s.cnt u = 1 → s'.cnt u = 1) (positive : ∀ u, 0 < s.cnt u → 0 < s'.cnt u)
    (write : Pte.writable e = true → s'.cnt (Pte.frame e) = 1 ∧
      ∃ a ∈ s.current.areas, a.allows PROT_WRITE = true ∧ a.covers (v * PAGE_SIZE) = true) :
    Effect static s extra' s' := by
  have tree := h.tree Holds.current_mem
  obtain ⟨tables, leaves⟩ := setWord_leaves tree lower path used ram
  have inTree : table ∈ s.current.tables s.ram := tableOf_mem (inside_lower lower) (by omega) path
  have kept : ∀ u, u ∉ s.current.tables s.ram → s'.ram u = s.ram u := fun u other => by
    rw [ram]
    refine funext fun j => setWord_words.trans (if_neg ?_)
    rintro ⟨rfl, -⟩
    exact other inTree
  have others : ∀ p ∈ s.others, ∀ u ∈ p.tables s.ram, s'.ram u = s.ram u := fun p member u below =>
    kept u (h.other_tables member below)
  have tasks : s'.tasks = s.tasks := by
    unfold State.tasks
    rw [same.current, same.others]
  have owned : s'.owned = s.owned := by
    rw [owned_eq, owned_eq, same.current, same.others, same.heap, ownedBy_congr others, Task.tables,
      tables, Task.tables]
  have mapped : s'.mapped + frames (leafAt s.ram table v) = s.mapped + {Pte.frame e} := by
    have sum := congrArg frames leaves
    rw [frames_add, frames_add] at sum
    rw [mapped_eq, mapped_eq, same.current, same.others, mappedBy_congr others, add_right_comm,
      Task.leaves, sum, Task.leaves, add_right_comm]
    simp [frames]
  -- an entry of the new state is one of the old, or the one set
  have either : ∀ x w, (x, w) ∈ s.current.leaves s'.ram →
      (x, w) = (v, e) ∨ (x, w) ∈ s.current.leaves s.ram := by
    intro x w leaf
    have sum : (x, w) ∈ s.current.leaves s'.ram + leafAt s.ram table v :=
      Multiset.mem_add.mpr (Or.inl leaf)
    rw [Task.leaves, leaves, Multiset.mem_add, Multiset.mem_singleton] at sum
    exact sum.symm
  refine ⟨⟨ready, ?_, ?_, ?_, ?_, ?_, ?_, ?_, ?_⟩, same, ?_, fun u _ other => kept u other, ?_, ?_⟩
  · rw [same.firstFrame]
    exact h.low
  · rw [owned]
    exact Multiset.nodup_of_le (add_le_add less le_rfl) h.once
  · intro u
    have before := h.cnt u
    have now := cnt u
    have total := congrArg (Multiset.count u) mapped
    rw [Multiset.count_add, Multiset.count_add, Multiset.count_singleton] at total
    rw [owned]
    rw [Multiset.count_add] at before ⊢
    zify at before total now ⊢
    linarith
  · rw [owned]
    refine Multiset.disjoint_left.mpr fun {u} before member => ?_
    have sum : u ∈ s'.mapped + frames (leafAt s.ram table v) := Multiset.mem_add.mpr (Or.inl member)
    rw [mapped, Multiset.mem_add, Multiset.mem_singleton] at sum
    rcases sum with old | rfl
    · exact Multiset.disjoint_left.mp h.apart (Multiset.mem_of_le (add_le_add less le_rfl) before) old
    · exact apart before
  · rw [tasks]
    exact h.root
  · rw [tasks]
    exact h.first
  · rw [tasks]
    intro p member x w leaf writable
    have before : ∀ {y}, (y, w) ∈ p.leaves s.ram → s'.cnt (Pte.frame w) = 1 ∧
        ∃ a ∈ p.areas, a.allows PROT_WRITE = true ∧ a.covers (y * PAGE_SIZE) = true := fun old =>
      (h.write p member _ w old writable).imp_left (single _)
    rcases List.mem_cons.mp member with rfl | other
    · rcases either x w leaf with new | old
      · obtain ⟨rfl, rfl⟩ := Prod.mk.inj new
        exact write writable
      · exact before old
    · rw [Task.leaves_congr (others p other)] at leaf
      exact before leaf
  · rw [tasks]
    exact h.areas
  · rintro u (count | low)
    · exact Or.inl (positive u count)
    · right
      rwa [same.firstFrame]
  · intro u inTree
    rw [same.current, Task.tables, tables] at inTree
    exact Or.inl inTree
  · intro coherent
    rw [coherent_iff] at coherent ⊢
    intro x t kept
    rw [tlb] at kept
    by_cases here : x = v
    · exact absurd ((if_pos here).symm.trans kept) (by simp)
    · replace kept := (if_neg here).symm.trans kept
      obtain ⟨w, leaf, rest⟩ := coherent x t kept
      refine ⟨w, ?_, rest⟩
      have sum : (x, w) ∈ s.current.leaves s.ram + {(v, e)} := Multiset.mem_add.mpr (Or.inl leaf)
      rw [Task.leaves, ← leaves, Multiset.mem_add] at sum
      rw [same.current]
      refine sum.resolve_right fun old => here ?_
      by_cases used : Pte.present (s.ram table (v % 512)) = true
      · rw [leafAt_some used, Multiset.mem_singleton] at old
        exact (Prod.mk.inj old).1
      · rw [leafAt_none (by simpa using used)] at old
        exact absurd old (Multiset.notMem_zero _)

end Landaux
