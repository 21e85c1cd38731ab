import Landaux.Kernel.Image

/-!
# Counts of shared pages

In every state that processes reach, the page counts are the numbers of entries and writable entries have frames
of their own, and no check of a count fails, as long as no access goes by a translation that `sys_exec` has left
behind. A write through one of those ends in the check of `do_page_fault`.
-/

namespace Landaux
open Lib Radix

variable {static v : Nat} {s t : State} {e : Event} {events : List Event} {allowed : State → Event → Prop}
  {area : Area} {address : Nat}

/-- Counts are numbers of entries, writable entries have frames of their own inside areas that may be
written, and no check of a count fails in the next event, of those that are allowed. -/
structure SharedCounts (allowed : State → Event → Prop) (s : State) : Prop where
  count : ∀ f, (∃ dir ∈ s.dirs, 0 < s.uses f dir) →
    s.count f = some ((∑ dir ∈ s.dirs, s.uses f dir : Nat) : Int)
  write : ∀ p ∈ s.tasks, ∀ v e, (v, e) ∈ p.leaves s.ram → Pte.writable e = true →
    s.count (Pte.frame e) = some 1 ∧
      ∃ a ∈ p.areas, a.allows PROT_WRITE = true ∧ a.covers (v * PAGE_SIZE) = true
  checks : ∀ e, Processor.Enabled s e → allowed s e → Processor.act e s ≠ .error .count

/-- An event that is up to date does not end in the check of a count. -/
theorem UpToDate.checks (h : Holds static 0 s) (fresh : UpToDate s e) (enabled : Processor.Enabled s e) :
    Processor.act e s ≠ .error .count := by
  obtain ⟨same, stepping | ⟨v, rfl⟩⟩ := fresh.tables enabled
  · rw [same]
    exact fun stops => (act_spec h stepping).of_error stops rfl
  · exact fun stops => by cases stops

theorem Holds.shared (h : Holds static 0 s) : SharedCounts UpToDate s := by
  have known : ∀ f ∈ s.mapped, s.count f = some (s.mapped.count f : Int) := fun f member => by
    have positive := h.counted member
    rw [h.ready.count_eq (by omega), h.cnt_mapped member]
  refine ⟨fun f used => ?_, fun p member v e leaf writable => ?_, fun e enabled fresh => fresh.checks h enabled⟩
  · obtain ⟨dir, member, positive⟩ := used
    have sum : 0 < ∑ dir ∈ s.dirs, s.uses f dir :=
      lt_of_lt_of_le positive (Finset.single_le_sum (fun _ _ => Nat.zero_le _) member)
    rw [← h.count_uses] at sum ⊢
    exact known f (Multiset.count_pos.mp sum)
  · obtain ⟨one, area⟩ := h.write p member v e leaf writable
    refine ⟨?_, area⟩
    rw [h.ready.count_eq (by omega), one]

theorem shared_page_counts (boot : Booted static s)
    (fresh : Throughout Processor.Step (fun s e _ => UpToDate s e) s events) (run : Run Processor.Step s events t) :
    SharedCounts UpToDate t :=
  (Processor.run_holds boot fresh run).shared

/-- The first process touches its stack and forks. -/
theorem shared_page_counts_forked : ∃ s t, Booted 0 s ∧ Run Processor.Step s [stackFault, .fork] t ∧
    SharedCounts UpToDate t := by
  obtain ⟨s, boot, areas, room⟩ := booted_64
  obtain ⟨mid, fault, paged⟩ := Processor.stackFault_step boot areas (by omega)
  have few := paged.few
  have left := paged.room
  rw [boot.tables, Multiset.card_singleton] at few
  have next : mid.nextFreePid = 2 := paged.effect.same.nextFreePid.trans boot.next
  obtain ⟨t, fork, -⟩ := fork_step paged.effect.holds (by omega) (by omega)
  have run : Run Processor.Step s [stackFault, .fork] t := .cons fault (.single fork)
  refine ⟨s, t, boot, run, shared_page_counts boot (Processor.upToDate_of_cold boot ?_) run⟩
  intro e member s
  simp only [List.mem_cons, List.not_mem_nil, or_false] at member
  rcases member with rfl | rfl <;> trivial

/-! ### A write to a page that is gone -/

/-- Where the first table on the way has no entry, the walk ends in a new table, which is empty. -/
theorem findUserPte_unused (n : Nat) : ∀ table s, Ready s → s.Busy table → s.ram table (v / 512 ^ n % 512) = 0 →
    Ends (findUserPte v n table s) (fun r => Ready r.2 ∧ r.2.ram r.1 (v % 512) = 0)
      (fun stop => stop = .noMemory ∧ s.room < n) := by
  induction n with
  | zero =>
    intro table s ready _ unused
    rw [pow_zero, Nat.div_one] at unused
    exact ⟨ready, unused⟩
  | succ n ih =>
    intro table s ready busy unused
    rw [findUserPte]
    simp only [unused, Pte.present_zero, Bool.false_eq_true, if_false]
    refine Ends.bind ((allocPage_spec ready).mono (fun _ h => h) fun _ never => never.elim) ?_
    rintro ⟨new, t⟩ (⟨rfl, -, full⟩ | ⟨nonzero, taken⟩)
    · exact ⟨rfl, by omega⟩
    dsimp only at nonzero taken ⊢
    rw [if_neg nonzero]
    have apart : table ≠ new := by
      rintro rfl
      exact taken.fresh busy
    have empty := plant_words (s := t) (i := v / 512 ^ (n + 1) % 512) apart
    have planted : Ready (t.plant table (v / 512 ^ (n + 1) % 512) new) :=
      ⟨taken.ready.inv, taken.ready.pages, taken.ready.positive, taken.ready.small, taken.ready.nonneg⟩
    have counted : (t.plant table (v / 512 ^ (n + 1) % 512) new).Busy new := by
      have more := taken.cnt new
      have before := ready.nonneg new
      rw [if_pos rfl] at more
      exact Or.inl (show 0 < t.cnt new by omega)
    have left := taken.room
    refine (ih new _ planted counted (empty _)).mono (fun _ h => h) fun stop stops => ⟨stops.1, ?_⟩
    have short : t.room < n := stops.2
    omega

theorem Ready.count_zero {c : Int} (ready : Ready s) (count : s.count 0 = some c) : c < 1 := by
  obtain ⟨p, pages⟩ := ready.some_pages
  have none := ready.cnt_outside (Or.inl ready.positive)
  rw [State.cnt_eq pages] at none
  unfold State.count at count
  rw [pages] at count
  dsimp only at count
  split at count
  · have value := Option.some.inj count
    omega
  · cases count

/-- The entry that `find_user_pte` makes up is of frame 0, which nothing counts. -/
theorem cowFault_unused (h : Holds static 0 s) (blank : Blank s) (lower : address < 2 ^ 47)
    (found : mmFindArea s.current.areas address = some area) (allows : area.allows PROT_WRITE = true) :
    Ends (cowFault address s) (fun _ => False) (fun stop => stop = .count ∨ stop = .noMemory ∧ s.room < 3) := by
  have top : address / PAGE_SIZE / 512 ^ 3 % 512 < 256 := by
    norm_num [PAGE_SIZE]
    omega
  unfold cowFault
  dsimp only
  rw [found]
  dsimp only
  rw [if_neg (by simp [allows])]
  refine Ends.bind ((findUserPte_unused 3 s.current.pageDir s h.ready
    ((h.tree Holds.current_mem).busy _ mem_tables_self) (blank _ top)).mono (fun _ h => h) fun _ h => Or.inr h) ?_
  rintro ⟨table, t⟩ ⟨ready, unused⟩
  dsimp only at ready unused ⊢
  rw [unused, show Pte.frame 0 = 0 from rfl]
  cases count : t.count 0 with
  | none => exact Or.inl rfl
  | some c =>
    dsimp only
    rw [if_pos (ready.count_zero count)]
    exact Or.inl rfl

/-- The new program writes to the page of the program before it that the processor still keeps. -/
theorem stale_write_stops : ¬ ∀ (static : Nat) (s t : State) (events : List Event), Booted static s →
    Run Processor.Step s events t → SharedCounts (fun _ _ => True) t := by
  intro all
  obtain ⟨s, mid, t, x, boot, before, exec, left, stale, areas, room⟩ := stale_64
  have step : Processor.Step mid (.exec (.ofFile smallFile 120)) t := by
    refine ⟨trivial, ?_⟩
    change (sysExec (.ofFile smallFile 120) mid >>= fun r => pure (true, r.2)) = _
    rw [exec]
    rfl
  have counts := all 0 s t _ boot (before.snoc step)
  have enabled : Processor.Enabled t (.fault (.ofFile smallFile 120) ⟨true, true, true, false⟩ 0x400001) := by
    refine ⟨Or.inl (by decide), rfl, fun _ => ?_, ?_⟩
    · have kept : t.translation (0x400001 / PAGE_SIZE) = some x := by
        unfold State.translation
        rw [show 0x400001 / PAGE_SIZE = 0x400 from rfl, stale.kept]
      unfold State.Faults
      rw [kept]
      exact ⟨rfl, rfl, stale.write⟩
    · rintro _ ⟨e, entry, -⟩
      rw [entry_none left.executed.leaves (by decide)] at entry
      cases entry
  have find : mmFindArea t.current.areas 0x400001 = some ⟨0x400000, 0x400078, 7, some 1, 0⟩ := by
    rw [areas]
    rfl
  have stops := cowFault_unused left.executed.holds left.blank (by decide) find (by decide)
  have goes := counts.checks _ enabled trivial
  change cowFault 0x400001 t ≠ .error .count at goes
  cases result : cowFault 0x400001 t with
  | ok r => exact (stops.of_ok result).elim
  | error stop =>
    rcases stops.of_error result with rfl | ⟨-, short⟩
    · exact goes result
    · omega

end Landaux
