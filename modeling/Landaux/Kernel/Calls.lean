import Landaux.Kernel.CloneMm

/-!
# System calls and switches keep the address spaces in order
-/

namespace Landaux
open Lib Radix

variable {static page dir pid : Nat} {s s' t : State} {fresh extra : Multiset Nat} {regs : Regs}

/-- What a call must not change: the memory of the other processes. -/
def Untouched (s s' : State) : Prop :=
  ∀ u ∈ ownedBy s.ram s.others + mappedBy s.ram s.others, s'.ram u = s.ram u

theorem Holds.busy_others {u : Nat} (h : Holds static extra s)
    (member : u ∈ ownedBy s.ram s.others + mappedBy s.ram s.others) :
    s.Busy u ∧ u ∉ s.current.tables s.ram := by
  have once := (Multiset.nodup_add.mp h.once).2.1
  rw [owned_eq, add_assoc, add_assoc] at once
  rcases Multiset.mem_add.mp member with owned | mapped
  · have mine : u ∈ extra + s.owned := by
      rw [owned_eq]
      simp only [Multiset.mem_add]
      tauto
    refine ⟨h.busy_owned mine, fun clash => ?_⟩
    refine Multiset.disjoint_left.mp (Multiset.nodup_add.mp once).2.2 clash ?_
    simp only [Multiset.mem_add]
    tauto
  · have inMapped : u ∈ s.mapped := by
      rw [mapped_eq]
      exact Multiset.mem_add.mpr (Or.inr mapped)
    refine ⟨h.busy_mapped inMapped, fun clash => ?_⟩
    exact Multiset.disjoint_left.mp h.apart
      (Multiset.mem_add.mpr (Or.inr (Holds.tables_owned Holds.current_mem clash))) inMapped

theorem Effect.untouched {extra' : Multiset Nat} (h : Holds static extra s)
    (effect : Effect static s extra' s') : Untouched s s' := fun u member =>
  let ⟨busy, other⟩ := h.busy_others member
  effect.kept u busy other

/-! ### `sys_fork` -/

theorem cloneMm_spec (h : Holds static extra s) : Ends (cloneMm s)
    (fun r => (r = (none, s) ∧ s.room = 0) ∨
      ∃ dir fresh, r.1 = some (dir, s.current.areas) ∧ Duplicate s dir fresh r.2)
    (fun e => e = .noMemory ∧ s.room < (s.current.tables s.ram).card) := by
  apply (cloneMm_copies h.ready h.source).mono
  · rintro r (full | ⟨dir, fresh, areas, copy, -⟩)
    · exact Or.inl full
    · exact Or.inr ⟨dir, fresh, areas, copy⟩
  · exact fun _ stop => stop

def State.withChild (s : State) (child : Task) : State := { s with others := child :: s.others }

theorem frames_cow (leaves : Multiset (Nat × Word)) : frames (leaves.map cow) = frames leaves := by
  unfold frames
  rw [Multiset.map_map]
  exact Multiset.map_congr rfl fun x _ => Pte.frame_denyWrite

theorem cow_denied {leaves : Multiset (Nat × Word)} {v : Nat} {e : Word}
    (member : (v, e) ∈ leaves.map cow) : Pte.writable e = false := by
  obtain ⟨x, -, eq⟩ := Multiset.mem_map.mp member
  obtain ⟨-, rfl⟩ := Prod.mk.inj eq
  exact Pte.writable_denyWrite

/-- The count of a frame that a process has for itself does not reach the others. -/
theorem Holds.alone {p : Task} {f : Nat} (h : Holds static extra s) (member : p ∈ s.others)
    (inLeaves : f ∈ frames (p.leaves s.ram)) (one : s.cnt f = 1) :
    f ∉ frames (s.current.leaves s.ram) := by
  have other : f ∈ mappedBy s.ram s.others := mem_mappedBy.mpr ⟨p, member, inLeaves⟩
  have total := h.cnt_mapped (Holds.frames_mapped (List.mem_cons_of_mem _ member) inLeaves)
  rw [one, mapped_eq, Multiset.count_add] at total
  have there := Multiset.count_pos.mpr other
  exact Multiset.count_eq_zero.mp (by omega)

namespace Duplicate

theorem kept {u : Nat} (d : Duplicate s dir fresh s') (busy : s.Busy u)
    (other : u ∉ s.current.tables s.ram) : s'.ram u = s.ram u :=
  d.cloned.ram u other fun isFresh => d.cloned.unused u isFresh busy

/-- Every translation of the address space is dropped. -/
theorem coherent (d : Duplicate s dir fresh s') (coherent : Coherent s) :
    Coherent (s'.withChild ⟨pid, page, dir, s.current.areas, regs⟩) := by
  rw [coherent_iff] at coherent ⊢
  intro v x kept
  change s'.tlb v = some x at kept
  rcases d.cloned.cached v with none | same
  · rw [none] at kept
    cases kept
  · obtain ⟨e, leaf, -⟩ := coherent v x (same ▸ kept)
    have dropped := d.cloned.dropped _ leaf
    rw [dropped] at kept
    cases kept

variable (h : Holds static {page} s) (d : Duplicate s dir fresh s')
include h d

theorem others {p : Task} (member : p ∈ s.others) :
    ∀ u ∈ p.tables s.ram, s'.ram u = s.ram u := fun _ inTree =>
  d.kept ((h.tree (List.mem_cons_of_mem _ member)).busy _ inTree) (h.other_tables member inTree)

theorem owned : (s'.withChild ⟨pid, page, dir, s.current.areas, regs⟩).owned =
    {page} + s.owned + ({dir} + fresh) := by
  have same := d.cloned.same
  have old : s.current.tables s'.ram = s.current.tables s.ram := d.oldTables
  have new : Task.tables s'.ram ⟨pid, page, dir, s.current.areas, regs⟩ = {dir} + fresh := d.newTables
  rw [owned_eq, owned_eq]
  change s'.current.tables s'.ram + {s'.current.page} + ownedBy s'.ram (_ :: s'.others) +
    (s'.heap : Multiset Nat) = _
  rw [ownedBy_cons, same.current, same.others, same.heap,
    ownedBy_congr fun p member => d.others h member, old, new]
  dsimp only
  ac_rfl

theorem mapped : (s'.withChild ⟨pid, page, dir, s.current.areas, regs⟩).mapped =
    s.mapped + frames (s.current.leaves s.ram) := by
  have same := d.cloned.same
  have old : s.current.leaves s'.ram = (s.current.leaves s.ram).map cow := d.oldLeaves
  have new : Task.leaves s'.ram ⟨pid, page, dir, s.current.areas, regs⟩ =
      (s.current.leaves s.ram).map cow := d.newLeaves
  rw [mapped_eq, mapped_eq]
  change frames (s'.current.leaves s'.ram) + mappedBy s'.ram (_ :: s'.others) = _
  rw [mappedBy_cons, same.current, same.others, mappedBy_congr fun p member => d.others h member,
    old, new, frames_cow]
  ac_rfl

theorem holds (pid : Nat) (regs : Regs) : Holds static 0 (s'.withChild ⟨pid, page, dir, s.current.areas, regs⟩) := by
  obtain ⟨ready, same, cnt, -, unused, once, -, -, -⟩ := d.cloned
  have tasks : (s'.withChild ⟨pid, page, dir, s.current.areas, regs⟩).tasks =
      s.current :: ⟨pid, page, dir, s.current.areas, regs⟩ :: s.others := by
    change s'.current :: _ :: s'.others = _
    rw [same.current, same.others]
  have notRoot : dir ≠ static := by
    rintro rfl
    exact unused dir (by simp) (Or.inr h.low)
  refine ⟨⟨ready.inv, ready.pages, ready.positive, ready.small, ready.nonneg⟩, ?_, ?_, ?_, ?_, ?_, ?_,
    ?_, ?_⟩
  · exact same.firstFrame ▸ h.low
  · rw [d.owned h, zero_add, Multiset.nodup_add]
    refine ⟨h.once, once, Multiset.disjoint_left.mpr fun {u} before isFresh => ?_⟩
    exact unused u isFresh (h.busy_owned before)
  · intro u
    have before := h.cnt u
    rw [d.owned h, d.mapped h, zero_add, Multiset.count_add u ({page} + s.owned),
      Multiset.count_add u s.mapped]
    refine (congrArg (fun n => n + _) (cnt u)).trans ?_
    push_cast at before ⊢
    linarith
  · rw [d.owned h, d.mapped h, zero_add, Multiset.disjoint_add_left, Multiset.disjoint_add_right,
      Multiset.disjoint_add_right]
    have mine : ∀ {f}, f ∈ frames (s.current.leaves s.ram) → f ∈ s.mapped :=
      Holds.frames_mapped Holds.current_mem
    refine ⟨⟨h.apart, ?_⟩, ?_, ?_⟩
    · exact Multiset.disjoint_left.mpr fun {u} owned leaf =>
        Multiset.disjoint_left.mp h.apart owned (mine leaf)
    · exact Multiset.disjoint_left.mpr fun {u} isFresh member =>
        unused u isFresh (h.busy_mapped member)
    · exact Multiset.disjoint_left.mpr fun {u} isFresh leaf =>
        unused u isFresh (h.busy_mapped (mine leaf))
  · obtain ⟨p, member, root⟩ := h.root
    rw [tasks]
    rcases List.mem_cons.mp member with rfl | other
    · exact ⟨_, List.mem_cons_self, root⟩
    · exact ⟨p, List.mem_cons_of_mem _ (List.mem_cons_of_mem _ other), root⟩
  · rw [tasks]
    intro p member root
    simp only [List.mem_cons] at member
    rcases member with rfl | rfl | other
    · exact h.first _ Holds.current_mem root
    · exact absurd root notRoot
    · exact h.first p (List.mem_cons_of_mem _ other) root
  · rw [tasks]
    intro p member v e leaf writable
    change (v, e) ∈ p.leaves s'.ram at leaf
    simp only [List.mem_cons] at member
    rcases member with rfl | rfl | other
    · rw [Task.leaves, d.oldLeaves] at leaf
      rw [cow_denied leaf] at writable
      cases writable
    · rw [Task.leaves, d.newLeaves] at leaf
      rw [cow_denied leaf] at writable
      cases writable
    · rw [Task.leaves_congr (d.others h other)] at leaf
      obtain ⟨one, area⟩ := h.write p (List.mem_cons_of_mem _ other) v e leaf writable
      refine ⟨(cnt (Pte.frame e)).trans ?_, area⟩
      have notFresh : Pte.frame e ∉ {dir} + fresh := fun isFresh =>
        unused _ isFresh (Or.inl (by omega))
      rw [one, Multiset.count_eq_zero_of_notMem notFresh,
        Multiset.count_eq_zero_of_notMem (h.alone other (mem_frames leaf) one)]
      rfl
  · rw [tasks]
    intro p member
    simp only [List.mem_cons] at member
    rcases member with rfl | rfl | other
    · exact h.areas s.current Holds.current_mem
    · exact h.areas s.current Holds.current_mem
    · exact h.areas p (List.mem_cons_of_mem _ other)

end Duplicate

structure Forked (static : Nat) (s s' : State) : Prop where
  holds : Holds static 0 s'
  untouched : Untouched s s'
  coherent : Coherent s → Coherent s'
  current : s'.current = s.current
  leaves : s'.current.leaves s'.ram = (s.current.leaves s.ram).map cow
  child : ∃ p, s'.others = p :: s.others ∧ p.leaves s'.ram = (s.current.leaves s.ram).map cow

theorem sysFork_spec (h : Holds static 0 s) : Ends (sysFork s)
    (fun r => (0 ≤ r.1 → Forked static s r.2) ∧ (1 < s.room → 0 ≤ r.1))
    (fun e => e ≠ .count ∧ (s.nextFreePid < 2 ^ 31 → s.room ≤ (s.current.tables s.ram).card)) := by
  unfold sysFork
  refine Ends.bind ((allocPage_spec h.ready).mono (fun _ h => h) fun _ never => never.elim) ?_
  rintro ⟨page, t⟩ (⟨rfl, -, full⟩ | ⟨nonzero, taken⟩)
  · exact ⟨by decide, fun _ => by omega⟩
  dsimp only at nonzero taken ⊢
  rw [if_neg nonzero]
  have effect : Effect static s {page} t := by
    have effect := Effect.take h taken t.ram fun u _ => congrFun taken.ram u
    rwa [add_zero] at effect
  by_cases pid : 2 ^ 31 ≤ s.nextFreePid
  · rw [taken.same.nextFreePid, if_pos pid]
    exact ⟨by decide, fun small => absurd pid (by omega)⟩
  rw [taken.same.nextFreePid, if_neg pid]
  have room := taken.room
  have tables : t.current.tables t.ram = s.current.tables s.ram := by
    rw [taken.same.current, taken.ram]
  have leaves : t.current.leaves t.ram = s.current.leaves s.ram := by
    rw [taken.same.current, taken.ram]
  have bumped : Holds static {page} { t with nextFreePid := s.nextFreePid + 1 } := by
    obtain ⟨⟨inv, pages, positive, small, nonneg⟩, low, once, cnt, apart, root, first, write, areas⟩ :=
      effect.holds
    exact ⟨⟨inv, pages, positive, small, nonneg⟩, low, once, cnt, apart, root, first, write, areas⟩
  have clone := cloneMm_spec bumped
  refine Ends.bind (clone.mono (fun _ h => h) fun e ⟨why, short⟩ => ⟨why ▸ by decide, fun _ => ?_⟩) ?_
  · change State.room t < (t.current.tables t.ram).card at short
    rw [tables] at short
    omega
  · rintro ⟨result, s₂⟩ (⟨eq, full⟩ | ⟨dir, fresh, rfl, d⟩)
    · obtain ⟨rfl, rfl⟩ := Prod.mk.inj eq
      have mine : page ∈ ({page} : Multiset Nat) := Multiset.mem_singleton_self page
      refine Ends.bind ((freePage_spec bumped.ready (bumped.cnt_owned
        (Multiset.mem_add.mpr (Or.inl mine)) (bumped.extra_root mine))).mono (fun _ h => h)
        fun _ never => never.elim) fun s₃ _ =>
          ⟨fun no => absurd (show 0 ≤ -ENOMEM from no) (by decide), fun more => ?_⟩
      change t.room = 0 at full
      omega
    · have holds := d.holds bumped s.nextFreePid { s₂.current.regs with rax := 0 }
      have current := d.cloned.same.current
      have others := d.cloned.same.others
      refine ⟨fun _ => ⟨holds, fun u member => ?_, fun coherent => ?_, ?_, ?_, _,
        congrArg (List.cons _) (others.trans taken.same.others), ?_⟩, fun _ => Int.natCast_nonneg _⟩
      · obtain ⟨busy, other⟩ := h.busy_others member
        refine (d.kept (effect.busy u busy) ?_).trans (congrFun taken.ram u)
        change u ∉ t.current.tables t.ram
        rwa [tables]
      · exact d.coherent (effect.coherent coherent)
      · exact current.trans taken.same.current
      · rw [← leaves]
        refine Eq.trans ?_ d.oldLeaves
        change pageTables.leaves s₂.ram 3 s₂.current.pageDir 0 = _
        rw [current]
      · rw [← leaves]
        exact d.newLeaves

/-! ### `free_mm` -/

theorem Holds.tables_inner : s.current.tables s.ram =
    {s.current.pageDir} + inner s.ram 3 s.current.pageDir := tables_eq

/-- The directory that the kernel was linked with is not below a directory. -/
theorem Holds.inner_root {u : Nat} (h : Holds static extra s)
    (member : u ∈ inner s.ram 3 s.current.pageDir) : u ≠ static := by
  rintro rfl
  have inTree : u ∈ s.current.tables s.ram := by
    rw [Holds.tables_inner]
    exact Multiset.mem_add.mpr (Or.inr member)
  obtain ⟨p, among, root⟩ := h.root
  rcases List.mem_cons.mp among with rfl | other
  · have once : (s.current.tables s.ram).Nodup := (h.tree Holds.current_mem).once
    rw [Holds.tables_inner, Multiset.nodup_add] at once
    exact Multiset.disjoint_left.mp once.2.2 (root ▸ Multiset.mem_singleton_self u) member
  · exact h.other_tables other (root ▸ mem_tables_self) inTree

/-- What the running process owes when its address space is freed. -/
theorem Holds.owed (h : Holds static extra s) :
    Owed s (inner s.ram 3 s.current.pageDir) (s.current.leaves s.ram) := by
  have part : ∀ u, (inner s.ram 3 s.current.pageDir).count u ≤ (extra + s.owned).count u := by
    intro u
    rw [owned_eq, Holds.tables_inner]
    simp only [Multiset.count_add]
    omega
  constructor
  · intro u
    by_cases root : u = static
    · have notInner : u ∉ inner s.ram 3 s.current.pageDir := fun member => h.inner_root member root
      have notLeaf : u ∉ frames (s.current.leaves s.ram) := fun member =>
        h.mapped_root (Holds.frames_mapped Holds.current_mem member) root
      rw [Multiset.count_eq_zero_of_notMem notInner, Multiset.count_eq_zero_of_notMem notLeaf]
      exact h.ready.nonneg u
    · have cnt := h.cnt u
      have le := part u
      rw [if_neg root, mapped_eq, Multiset.count_add u (frames _)] at cnt
      omega
  · intro u member
    refine h.cnt_owned (Multiset.count_pos.mp ?_) (h.inner_root member)
    exact lt_of_lt_of_le (Multiset.count_pos.mpr member) (part u)

/-- The address space of the running process is gone. -/
abbrev Released (s s' : State) : Prop :=
  Freed s (inner s.ram 3 s.current.pageDir) (s.current.leaves s.ram) s'

theorem freeMm_spec (h : Holds static extra s) : Ends (freeMm s)
    (fun s' => ∃ t, Released s t ∧ s' = { t with current := { t.current with areas := [] } })
    (fun _ => False) :=
  Ends.bind (freeL4_spec s.current.pageDir 0 s h.ready h.owed) fun t freed => ⟨t, freed, rfl⟩

/-! ### `sys_exec` -/

/-- The running process has an empty lower half, and new areas. -/
def State.emptied (s : State) (areas : List Area) (regs : Regs) : State :=
  { s.zeroLower s.current.pageDir with current := { s.current with areas := areas, regs := regs } }

structure Replaced (static : Nat) (s s' : State) : Prop where
  holds : Holds static 0 s'
  untouched : Untouched s s'
  leaves : s'.current.leaves s'.ram = 0
  tlb : s'.tlb = s.tlb
  others : s'.others = s.others

theorem zeroLower_words {f i : Nat} : (s.zeroLower dir).ram f i =
    if f = dir ∧ i < 256 then 0 else s.ram f i := rfl

theorem Released.replaced {areas : List Area} (h : Holds static 0 s) (freed : Released s t)
    (ok : AreasOk areas) : Replaced static s (t.emptied areas regs) := by
  obtain ⟨ready, same, ram, tlb, cnt, -⟩ := freed
  have kept : ∀ u, u ≠ s.current.pageDir → (t.emptied areas regs).ram u = s.ram u := fun u other => by
    rw [← ram]
    refine funext fun i => (zeroLower_words (s := t)).trans (if_neg ?_)
    rw [same.current]
    exact fun both => other both.1
  have notDir : ∀ {u}, u ∉ s.current.tables s.ram → u ≠ s.current.pageDir := by
    rintro u other rfl
    exact other mem_tables_self
  have others : ∀ p ∈ s.others, ∀ u ∈ p.tables s.ram, (t.emptied areas regs).ram u = s.ram u :=
    fun p member u inTree => kept u (notDir (h.other_tables member inTree))
  have empty : ∀ i, i < pageTables.width 3 →
      pageTables.next ((t.emptied areas regs).ram s.current.pageDir i) = none := fun i inside => by
    rw [width_top] at inside
    refine next_eq_none.mpr ?_
    rw [← same.current]
    exact (congrArg Pte.present (if_pos ⟨rfl, inside⟩)).trans Pte.present_zero
  have dirs : (t.emptied areas regs).current.pageDir = s.current.pageDir := by
    rw [← same.current]
    rfl
  have tables : (t.emptied areas regs).current.tables (t.emptied areas regs).ram = {s.current.pageDir} := by
    rw [Task.tables, dirs]
    exact tables_unused empty
  have leaves : (t.emptied areas regs).current.leaves (t.emptied areas regs).ram = 0 := by
    rw [Task.leaves, dirs]
    exact leaves_unused empty
  have pages : (t.emptied areas regs).current.page = s.current.page := by
    rw [← same.current]
    rfl
  have list : (t.emptied areas regs).others = s.others := same.others
  have heap : (t.emptied areas regs).heap = s.heap := same.heap
  have counts : ∀ u, (t.emptied areas regs).cnt u = t.cnt u := fun _ => rfl
  have owned : s.owned = (t.emptied areas regs).owned + inner s.ram 3 s.current.pageDir := by
    rw [owned_eq, owned_eq, tables, pages, list, heap, ownedBy_congr others, Holds.tables_inner]
    ac_rfl
  have mapped : s.mapped = (t.emptied areas regs).mapped + frames (s.current.leaves s.ram) := by
    rw [mapped_eq, mapped_eq, leaves, list, mappedBy_congr others, frames_zero, zero_add,
      add_comm]
  have once := h.once
  have apart := h.apart
  rw [zero_add, owned] at once apart
  rw [mapped, Multiset.disjoint_add_left, Multiset.disjoint_add_right] at apart
  refine ⟨⟨⟨ready.inv, ready.pages, ready.positive, ready.small, ready.nonneg⟩, ?_, ?_, ?_, ?_, ?_, ?_,
    ?_, ?_⟩, ?_, leaves, tlb, list⟩
  · exact same.firstFrame ▸ h.low
  · rw [zero_add]
    exact (Multiset.nodup_add.mp once).1
  · intro u
    have before := h.cnt u
    have now := cnt u
    rw [zero_add, owned, mapped, Multiset.count_add, Multiset.count_add] at before
    rw [zero_add, counts]
    push_cast at before ⊢
    linarith
  · rw [zero_add]
    exact apart.1.1
  · obtain ⟨p, member, root⟩ := h.root
    rcases List.mem_cons.mp member with rfl | other
    · exact ⟨_, Holds.current_mem, dirs.trans root⟩
    · refine ⟨p, List.mem_cons_of_mem _ ?_, root⟩
      rwa [list]
  · intro p member root
    rcases List.mem_cons.mp member with rfl | other
    · refine (congrArg Task.pid same.current).trans (h.first _ Holds.current_mem ?_)
      exact dirs.symm.trans root
    · rw [list] at other
      exact h.first p (List.mem_cons_of_mem _ other) root
  · intro p member v e leaf writable
    rcases List.mem_cons.mp member with rfl | other
    · rw [leaves] at leaf
      exact absurd leaf (Multiset.notMem_zero _)
    · rw [list] at other
      rw [Task.leaves_congr (others p other)] at leaf
      obtain ⟨one, area⟩ := h.write p (List.mem_cons_of_mem _ other) v e leaf writable
      refine ⟨?_, area⟩
      have now := cnt (Pte.frame e)
      have notMine := Multiset.count_eq_zero_of_notMem (h.alone other (mem_frames leaf) one)
      have notTable : Pte.frame e ∉ inner s.ram 3 s.current.pageDir := fun member => by
        refine Multiset.disjoint_left.mp h.apart (Multiset.mem_add.mpr (Or.inr ?_))
          (Holds.frames_mapped (List.mem_cons_of_mem _ other) (mem_frames leaf))
        rw [owned]
        exact Multiset.mem_add.mpr (Or.inr member)
      rw [Multiset.count_eq_zero_of_notMem notTable, notMine, one] at now
      rw [counts]
      omega
  · intro p member
    rcases List.mem_cons.mp member with rfl | other
    · exact ok
    · rw [list] at other
      exact h.areas p (List.mem_cons_of_mem _ other)
  · intro u member
    exact kept u (notDir (h.busy_others member).2)

theorem sysExec_spec (src : ElfSource) (h : Holds static 0 s) :
    Ends (sysExec src s) (fun r => Replaced static s r.2) (fun e => e = .area) := by
  unfold sysExec
  refine Ends.bind ((freeMm_spec h).mono (fun _ h => h) fun _ never => never.elim) ?_
  rintro _ ⟨t, freed, rfl⟩
  refine Ends.bind (doExecElf_areas fun _ member => absurd member List.not_mem_nil) ?_
  rintro ⟨ret, loading⟩ ok
  exact Released.replaced (t := t) h freed ok

/-! ### Switches and `sys_exit` -/

/-- The order of the processes, and what the processor keeps, play no role. -/
theorem Holds.perm (h : Holds static extra s) (pmm : s'.pmm = s.pmm) (ram : s'.ram = s.ram)
    (heap : s'.heap = s.heap) (tasks : s'.tasks.Perm s.tasks) : Holds static extra s' := by
  have owned : s'.owned = s.owned := by
    unfold State.owned
    rw [ownedBy_perm tasks, heap, ram]
  have mapped : s'.mapped = s.mapped := by
    unfold State.mapped
    rw [mappedBy_perm tasks, ram]
  have cnt : ∀ u, s'.cnt u = s.cnt u := fun u => by
    unfold State.cnt
    rw [pmm]
  obtain ⟨⟨inv, pages, positive, small, nonneg⟩, low, once, count, apart, root, first, write, areas⟩ := h
  refine ⟨⟨pmm ▸ inv, pmm ▸ pages, pmm ▸ positive, pmm ▸ small, fun f => cnt f ▸ nonneg f⟩, pmm ▸ low,
    owned ▸ once, fun f => ?_, owned ▸ mapped ▸ apart, ?_, ?_, ?_, ?_⟩
  · rw [cnt, owned, mapped]
    exact count f
  · obtain ⟨p, member, eq⟩ := root
    exact ⟨p, tasks.mem_iff.mpr member, eq⟩
  · exact fun p member => first p (tasks.mem_iff.mp member)
  · intro p member v e leaf writable
    rw [ram] at leaf
    obtain ⟨one, area⟩ := write p (tasks.mem_iff.mp member) v e leaf writable
    exact ⟨(cnt _).trans one, area⟩
  · exact fun p member => areas p (tasks.mem_iff.mp member)

theorem Holds.switchTo {next : Task} (h : Holds static extra s) (member : next ∈ s.others) :
    Holds static extra (s.switchTo next) := by
  refine h.perm rfl rfl rfl ?_
  change (next :: s.current :: s.others.erase next).Perm (s.current :: s.others)
  exact (List.Perm.swap _ _ _).trans ((List.perm_cons_erase member).symm.cons _)

structure Ended (static : Nat) (s : State) (next : Task) (s' : State) : Prop where
  holds : Holds static 0 s'
  ram : s'.ram = s.ram
  current : s'.current = next
  tlb : s'.tlb = fun _ => none

theorem Released.ended {next : Task} {u : State} (h : Holds static 0 s) (freed : Released s t)
    (notRoot : s.current.pageDir ≠ static) (member : next ∈ s.others) (ready : Ready u)
    (gone : ∀ f, u.cnt f + (if f = s.current.pageDir then 1 else 0) +
      (if f = s.current.page then 1 else 0) = t.cnt f)
    (firstFrame : u.pmm.firstFrame = s.pmm.firstFrame) (ramEq : u.ram = s.ram)
    (heapEq : u.heap = s.heap) (current : u.current = next)
    (others : u.others = s.others.erase next) : Holds static 0 u := by
  have cnt := freed.cnt
  have tasks : (s.current :: u.tasks).Perm s.tasks := by
    unfold State.tasks
    rw [current, others]
    exact (List.perm_cons_erase member).symm.cons _
  have owned : s.owned =
      u.owned + (inner s.ram 3 s.current.pageDir + {s.current.pageDir} + {s.current.page}) := by
    unfold State.owned
    rw [← ownedBy_perm tasks, ownedBy_cons, ramEq, heapEq, Holds.tables_inner]
    ac_rfl
  have mapped : s.mapped = u.mapped + frames (s.current.leaves s.ram) := by
    unfold State.mapped
    rw [← mappedBy_perm tasks, mappedBy_cons, ramEq]
    exact add_comm _ _
  have total : ∀ f, u.cnt f + (inner s.ram 3 s.current.pageDir).count f +
      (frames (s.current.leaves s.ram)).count f + (if f = s.current.pageDir then 1 else 0) +
      (if f = s.current.page then 1 else 0) = s.cnt f := by
    intro f
    have first := cnt f
    have second := gone f
    linarith
  have once := h.once
  have apart := h.apart
  rw [zero_add, owned] at once apart
  rw [mapped, Multiset.disjoint_add_left, Multiset.disjoint_add_right] at apart
  have among : ∀ p ∈ u.tasks, p ∈ s.tasks := fun p inside =>
    tasks.mem_iff.mp (List.mem_cons_of_mem _ inside)
  refine ⟨ready, firstFrame ▸ h.low, ?_, ?_, ?_, ?_,
    fun p inside => h.first p (among p inside), ?_, fun p inside => h.areas p (among p inside)⟩
  · rw [zero_add]
    exact (Multiset.nodup_add.mp once).1
  · intro f
    have before := h.cnt f
    have now := total f
    rw [zero_add, owned, mapped] at before
    simp only [Multiset.count_add, Multiset.count_singleton] at before
    rw [zero_add]
    push_cast at before ⊢
    linarith
  · rw [zero_add]
    exact apart.1.1
  · obtain ⟨p, inside, root⟩ := h.root
    rcases List.mem_cons.mp (tasks.mem_iff.mpr inside) with rfl | rest
    · exact absurd root notRoot
    · exact ⟨p, rest, root⟩
  · intro p inside v e leaf writable
    rw [ramEq] at leaf
    obtain ⟨one, area⟩ := h.write p (among p inside) v e leaf writable
    refine ⟨?_, area⟩
    have mine : Pte.frame e ∈ u.mapped := Holds.frames_mapped inside (ramEq ▸ mem_frames leaf)
    have notOwned : Pte.frame e ∉
        inner s.ram 3 s.current.pageDir + {s.current.pageDir} + {s.current.page} := fun clash =>
      Multiset.disjoint_left.mp apart.2 clash (Multiset.mem_add.mpr (Or.inl mine))
    simp only [Multiset.mem_add, Multiset.mem_singleton, not_or] at notOwned
    have whole := h.cnt_mapped (Holds.frames_mapped (among p inside) (mem_frames leaf))
    have positive := Multiset.count_pos.mpr mine
    rw [one, mapped, Multiset.count_add] at whole
    have now := total (Pte.frame e)
    rw [Multiset.count_eq_zero_of_notMem notOwned.1.1, if_neg notOwned.1.2, if_neg notOwned.2, one] at now
    omega

/-- The directory and the task page of a process are referred to once, apart from what is freed
before them. -/
theorem Released.single {f : Nat} (h : Holds static 0 s) (freed : Released s t)
    (notRoot : s.current.pageDir ≠ static) (either : f = s.current.pageDir ∨ f = s.current.page) :
    t.cnt f = 1 := by
  have once := h.once
  rw [zero_add, owned_eq, Holds.tables_inner] at once
  have split : ({s.current.pageDir} + {s.current.page} + (inner s.ram 3 s.current.pageDir +
      (ownedBy s.ram s.others + (s.heap : Multiset Nat)))).Nodup := by
    convert once using 1
    ac_rfl
  have apart := (Multiset.nodup_add.mp split).2.2
  have mine : f ∈ ({s.current.pageDir} + {s.current.page} : Multiset Nat) := by
    simpa using either
  have rest := Multiset.disjoint_left.mp apart mine
  simp only [Multiset.mem_add, not_or] at rest
  have owned : f ∈ 0 + s.owned := by
    rw [zero_add, owned_eq, Holds.tables_inner]
    simp only [Multiset.mem_add, Multiset.mem_singleton]
    tauto
  have root : f ≠ static := by
    rintro rfl
    obtain ⟨p, member, eq⟩ := h.root
    rcases List.mem_cons.mp member with rfl | other
    · exact notRoot eq
    · exact rest.2.1 (mem_ownedBy.mpr ⟨p, other, Or.inl (eq ▸ mem_tables_self)⟩)
  have notLeaf : f ∉ frames (s.current.leaves s.ram) := fun leaf =>
    Multiset.disjoint_left.mp h.apart owned (Holds.frames_mapped Holds.current_mem leaf)
  have cnt := freed.cnt f
  rw [h.cnt_owned owned root, Multiset.count_eq_zero_of_notMem rest.1,
    Multiset.count_eq_zero_of_notMem notLeaf] at cnt
  omega

theorem page_ne_dir (h : Holds static extra s) : s.current.page ≠ s.current.pageDir := by
  intro same
  have once := (Multiset.nodup_add.mp h.once).2.1
  rw [owned_eq, add_assoc, add_assoc, Multiset.nodup_add] at once
  refine Multiset.disjoint_left.mp once.2.2 mem_tables_self ?_
  rw [same]
  simp

theorem sysExit_spec {next : Task} (h : Holds static 0 s) (member : next ∈ s.others) :
    Ends (sysExit next s) (Ended static s next) (fun e => e = .pid ∧ s.current.pid = 1) := by
  unfold sysExit
  by_cases first : s.current.pid = 1
  · rw [if_pos first]
    exact ⟨rfl, first⟩
  rw [if_neg first]
  have notRoot : s.current.pageDir ≠ static := fun root => first (h.first _ Holds.current_mem root)
  refine Ends.bind ((freeMm_spec h).mono (fun _ h => h) fun _ never => never.elim) ?_
  rintro _ ⟨t, freed, rfl⟩
  have same := freed.same
  have dir : t.current.pageDir = s.current.pageDir := congrArg Task.pageDir same.current
  have page : t.current.page = s.current.page := congrArg Task.page same.current
  have ready : Ready (State.switchTo { t with current := { t.current with areas := [] } } next) :=
    ⟨freed.ready.inv, freed.ready.pages, freed.ready.positive, freed.ready.small, freed.ready.nonneg⟩
  unfold freeTask
  refine Ends.bind ((freePage_spec ready ?_).mono (fun _ h => h) fun _ never => never.elim) ?_
  · exact Released.single (t := t) h freed notRoot (Or.inl dir)
  intro t₁ dirGone
  have cnt₁ : ∀ f, t₁.cnt f = t.cnt f + if f = s.current.pageDir then -1 else 0 := fun f =>
    (dirGone.cnt f).trans (by rw [dir]; rfl)
  have ready₁ : Ready { t₁ with others := t₁.others.erase { t.current with areas := [] } } :=
    ⟨dirGone.ready.inv, dirGone.ready.pages, dirGone.ready.positive, dirGone.ready.small,
      dirGone.ready.nonneg⟩
  refine (freePage_spec ready₁ ?_).mono ?_ fun _ never => never.elim
  · refine (cnt₁ _).trans ?_
    change t.cnt t.current.page + (if t.current.page = _ then -1 else 0) = 1
    rw [page, if_neg (page_ne_dir h), add_zero]
    exact freed.single h notRoot (Or.inr rfl)
  intro u pageGone
  have cnt₂ : ∀ f, u.cnt f = t₁.cnt f + if f = s.current.page then -1 else 0 := fun f =>
    (pageGone.cnt f).trans (by rw [page]; rfl)
  have ram : u.ram = s.ram := pageGone.ram.trans (dirGone.ram.trans freed.ram)
  have current : u.current = next := pageGone.same.current.trans dirGone.same.current
  have others : u.others = s.others.erase next := by
    refine pageGone.same.others.trans ?_
    rw [dirGone.same.others]
    refine (List.erase_cons_head _ _).trans ?_
    exact congrArg (fun l => List.erase l next) same.others
  refine ⟨freed.ended h notRoot member pageGone.ready (fun f => ?_) ?_ ram ?_ current others, ram,
    current, pageGone.tlb.trans dirGone.tlb⟩
  · have first := cnt₁ f
    have second := cnt₂ f
    split_ifs at first second ⊢ <;> omega
  · exact pageGone.same.firstFrame.trans (dirGone.same.firstFrame.trans same.firstFrame)
  · exact pageGone.same.heap.trans (dirGone.same.heap.trans same.heap)

/-! ### Stores and the heap -/

/-- Only the tables matter for the invariant. -/
theorem Holds.store (h : Holds static extra s) {ram : Memory Word}
    (same : ∀ p ∈ s.tasks, ∀ u ∈ p.tables s.ram, ram u = s.ram u) :
    Holds static extra { s with ram := ram } := by
  have owned : State.owned { s with ram := ram } = s.owned :=
    congrArg (fun m => m + (s.heap : Multiset Nat)) (ownedBy_congr same)
  have mapped : State.mapped { s with ram := ram } = s.mapped := mappedBy_congr same
  obtain ⟨⟨inv, pages, positive, small, nonneg⟩, low, once, count, apart, root, first, write, areas⟩ := h
  refine ⟨⟨inv, pages, positive, small, nonneg⟩, low, owned ▸ once, fun f => ?_, owned ▸ mapped ▸ apart,
    root, first, ?_, areas⟩
  · rw [owned, mapped]
    exact count f
  · intro p member v e leaf writable
    refine write p member v e ?_ writable
    rwa [← Task.leaves_congr (same p member)]

/-- Where the running process has a page mapped. -/
theorem Holds.entry_mapped {v : Nat} {e : Word} (h : Holds static extra s) (lower : v < 2 ^ 35)
    (found : s.entry v = some e) : Pte.frame e ∈ frames (s.current.leaves s.ram) ∧
      ∀ p ∈ s.tasks, Pte.frame e ∉ p.tables s.ram := by
  have leaf := mem_frames ((entry_iff lower).mp found)
  refine ⟨leaf, fun p member inTree => ?_⟩
  exact Multiset.disjoint_left.mp h.apart
    (Multiset.mem_add.mpr (Or.inr (Holds.tables_owned member inTree)))
    (Holds.frames_mapped Holds.current_mem leaf)

theorem Holds.write_entry {v i : Nat} {w : Word} (h : Holds static extra s) (lower : v < 2 ^ 35)
    (present : (s.entry v).isSome = true) :
    Holds static extra (s.write v i w) ∧ (Coherent s → Coherent (s.write v i w)) := by
  obtain ⟨e, found⟩ := Option.isSome_iff_exists.mp present
  have write : s.write v i w = s.setWord (Pte.frame e) i w := by
    unfold State.write
    rw [found]
  have same : ∀ p ∈ s.tasks, ∀ u ∈ p.tables s.ram, (s.setWord (Pte.frame e) i w).ram u = s.ram u := by
    intro p member u inTree
    refine funext fun j => setWord_words.trans (if_neg ?_)
    rintro ⟨rfl, -⟩
    exact (h.entry_mapped lower found).2 p member inTree
  rw [write]
  refine ⟨h.store same, fun coherent => coherent.of_leaves ?_ fun _ => Or.inr rfl⟩
  exact Task.leaves_congr (same _ Holds.current_mem)

/-- The heap takes over a frame. -/
theorem Holds.heap {f : Nat} (h : Holds static {f} s) : Holds static 0 { s with heap := f :: s.heap } := by
  have owned : State.owned { s with heap := f :: s.heap } = {f} + s.owned := by
    change ownedBy s.ram s.tasks + ((f :: s.heap : List Nat) : Multiset Nat) = _
    rw [← Multiset.cons_coe, ← Multiset.singleton_add]
    exact add_left_comm _ _ _
  obtain ⟨⟨inv, pages, positive, small, nonneg⟩, low, once, count, apart, root, first, write, areas⟩ := h
  refine ⟨⟨inv, pages, positive, small, nonneg⟩, low, ?_, fun g => ?_, ?_, root, first, write, areas⟩
  · rwa [zero_add, owned]
  · rw [zero_add, owned]
    exact count g
  · rwa [zero_add, owned]

structure Grown (static : Nat) (s s' : State) : Prop where
  holds : Holds static 0 s'
  untouched : Untouched s s'
  coherent : Coherent s → Coherent s'

theorem grow_spec {contents : Memory Word} (h : Holds static 0 s) :
    Ends (act (.grow contents) s) (fun r => (r.1 = true → Grown static s r.2) ∧ (0 < s.room → r.1 = true))
      (fun _ => False) := by
  refine Ends.bind ((allocPage_spec h.ready).mono (fun _ h => h) fun _ never => never) ?_
  rintro ⟨frame, t⟩ (⟨rfl, -, full⟩ | ⟨nonzero, taken⟩)
  · exact ⟨fun no => absurd no Bool.false_ne_true, fun room => by omega⟩
  dsimp only at nonzero taken
  have effect : Effect static s {frame} t := by
    have effect := Effect.take h taken t.ram fun u _ => congrFun taken.ram u
    rwa [add_zero] at effect
  have tasks : t.tasks = s.tasks := by
    unfold State.tasks
    rw [taken.same.current, taken.same.others]
  -- the heap has no frame in common with anything else
  have once := effect.holds.once
  have apart : ∀ u ∈ frame :: t.heap, u ∉ ownedBy t.ram t.tasks := by
    intro u member owned
    unfold State.owned at once
    rw [add_left_comm, Multiset.nodup_add] at once
    refine Multiset.disjoint_left.mp once.2.2 owned ?_
    simpa using member
  have filled : ∀ u, u ∉ frame :: t.heap → (t.fillHeap frame contents).ram u = t.ram u := fun u other =>
    if_neg other
  have kept : ∀ p ∈ t.tasks, ∀ u ∈ p.tables t.ram, (t.fillHeap frame contents).ram u = t.ram u := by
    intro p member u inTree
    exact filled u fun inHeap => apart u inHeap (mem_ownedBy.mpr ⟨p, member, Or.inl inTree⟩)
  refine ⟨fun _ => ⟨(effect.holds.store kept).heap, fun u member => ?_, fun coherent => ?_⟩,
    fun _ => by simpa using nonzero⟩
  · rw [← congrFun taken.ram u]
    refine filled u fun inHeap => ?_
    rcases Multiset.mem_add.mp member with owned | mapped
    · refine apart u inHeap ?_
      obtain ⟨p, other, inside⟩ := mem_ownedBy.mp owned
      rw [taken.ram, tasks]
      exact mem_ownedBy.mpr ⟨p, List.mem_cons_of_mem _ other, inside⟩
    · have mine : u ∈ {frame} + t.owned := by
        unfold State.owned
        rw [add_left_comm]
        refine Multiset.mem_add.mpr (Or.inr ?_)
        simpa using inHeap
      obtain ⟨p, other, inside⟩ := mem_mappedBy.mp mapped
      refine Multiset.disjoint_left.mp effect.holds.apart mine (Holds.frames_mapped (p := p) ?_ ?_)
      · rw [tasks]
        exact List.mem_cons_of_mem _ other
      · rwa [taken.ram]
  · exact (effect.coherent coherent).of_leaves
      (Task.leaves_congr (kept _ Holds.current_mem)) fun _ => Or.inr rfl

end Landaux
