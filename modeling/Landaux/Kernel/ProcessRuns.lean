import Landaux.Kernel.Boot

/-!
# Runs of processes

What one event does, and what holds of every state that processes reach from the first one by the tables.
-/

namespace Landaux
open Lib Radix

variable {static : Nat} {s t : State} {e : Event} {events : List Event}

/-! ### What an event can do -/

/-- What is known of the state after an event. -/
def Done (static : Nat) (s : State) : Event → State → Prop
  | .fault .., t => Effect static s 0 t
  | .touch v, t => v < 2 ^ 35 ∧ t = s.fillTlb v
  | .store v i w, t => (v < 2 ^ 35 ∧ ∃ e, s.entry v = some e ∧ Pte.writable e = true) ∧ t = s.write v i w
  | .copyOut v i w, t => (v < 2 ^ 35 ∧ (s.entry v).isSome = true) ∧ t = s.write v i w
  | .fork, t => Forked static s t
  | .exec _, t => Replaced static s t
  | .execSwitch _ next, t => ∃ mid, Replaced static s mid ∧ next ∈ s.others ∧ t = mid.switchTo next
  | .exit next, t => next ∈ s.others ∧ Ended static s next t
  | .switch next, t => next ∈ s.others ∧ t = s.switchTo next
  | .idle, t => t = { s with tlb := fun _ => none }
  | .grow _, t => Grown static s t

/-- One event: no check of a count fails. -/
theorem act_spec (h : Holds static 0 s) (enabled : Enabled s e) :
    Ends (act e s) (fun r => r.1 = true → Done static s e r.2) (fun stop => stop ≠ .count) := by
  cases e with
  | fault io code address =>
    refine (doPageFault_spec h enabled).mono (fun _ effect ok => effect ok) ?_
    rintro _ ⟨rfl, -⟩
    decide
  | touch v => exact fun _ => ⟨enabled.1, rfl⟩
  | store v i w => exact fun _ => ⟨enabled, rfl⟩
  | copyOut v i w => exact fun _ => ⟨enabled, rfl⟩
  | fork =>
    refine Ends.bind ((sysFork_spec h).mono (fun _ h => h) fun _ stop => stop.1) ?_
    rintro ⟨ret, s'⟩ ⟨forked, -⟩ ok
    exact forked (by simpa using ok)
  | exec src =>
    refine Ends.bind ((sysExec_spec src h).mono (fun _ h => h) ?_) fun r replaced _ => replaced
    rintro _ rfl
    decide
  | execSwitch src next =>
    refine Ends.bind ((sysExec_spec src h).mono (fun _ h => h) ?_) fun r replaced _ => ?_
    · rintro _ rfl
      decide
    · exact ⟨r.2, replaced, enabled, rfl⟩
  | exit next =>
    refine Ends.bind ((sysExit_spec h enabled).mono (fun _ h => h) ?_) fun t ended _ => ⟨enabled, ended⟩
    rintro _ ⟨rfl, -⟩
    decide
  | switch next => exact fun _ => ⟨enabled, rfl⟩
  | idle => exact fun _ => rfl
  | grow contents => exact (grow_spec h).mono (fun _ grown ok => grown.1 ok) fun _ never => never.elim

theorem step_done (h : Holds static 0 s) (step : Step s e t) : Done static s e t :=
  (act_spec h step.1).of_ok step.2 rfl

theorem step_holds (h : Holds static 0 s) (step : Step s e t) : Holds static 0 t := by
  have did := step_done h step
  cases e with
  | fault io code address => exact did.holds
  | touch v =>
    obtain ⟨-, rfl⟩ := did
    apply h.perm <;> dsimp only [State.fillTlb] <;> split <;> rfl
  | store v i w =>
    obtain ⟨⟨lower, e, found, -⟩, rfl⟩ := did
    exact (h.write_entry lower (by rw [found]; rfl)).1
  | copyOut v i w =>
    obtain ⟨⟨lower, present⟩, rfl⟩ := did
    exact (h.write_entry lower present).1
  | fork => exact did.holds
  | exec src => exact did.holds
  | execSwitch src next =>
    obtain ⟨mid, replaced, member, rfl⟩ := did
    apply replaced.holds.switchTo
    rwa [replaced.others]
  | exit next => exact did.2.holds
  | switch next =>
    obtain ⟨member, rfl⟩ := did
    exact h.switchTo member
  | idle =>
    obtain rfl := did
    exact h.perm rfl rfl rfl (List.Perm.refl _)
  | grow contents => exact did.holds

theorem run_holds (boot : Booted static s) (run : Run Step s events t) : Holds static 0 t :=
  run.invariant (P := Holds static 0) (fun _ _ _ h step => step_holds h step) boot.holds

/-! ### Directories are distinct -/

theorem Holds.dirs_nodup (h : Holds static 0 s) : (s.tasks.map Task.pageDir).Nodup := by
  have owned : (ownedBy s.ram s.tasks).Nodup :=
    (Multiset.nodup_add.mp (Multiset.nodup_add.mp h.once).2.1).1
  generalize s.tasks = ts at owned
  induction ts with
  | nil => exact List.nodup_nil
  | cons p ts ih =>
    rw [ownedBy_cons, Multiset.nodup_add] at owned
    rw [List.map_cons, List.nodup_cons]
    refine ⟨fun member => ?_, ih owned.2.1⟩
    obtain ⟨q, inside, same⟩ := List.mem_map.mp member
    have mine : p.pageDir ∈ p.tables s.ram + {p.page} :=
      Multiset.mem_add.mpr (Or.inl mem_tables_self)
    refine Multiset.disjoint_left.mp owned.2.2 mine ?_
    exact mem_ownedBy.mpr ⟨q, inside, Or.inl (same ▸ mem_tables_self)⟩

def State.dirs (s : State) : Finset Nat := (s.tasks.map Task.pageDir).toFinset

/-- How many entries of the lower half of directory `dir` map `frame`. -/
def State.uses (s : State) (frame dir : Nat) : Nat :=
  (frames (pageTables.leaves s.ram 3 dir 0)).count frame

theorem Holds.count_uses (h : Holds static 0 s) (f : Nat) :
    s.mapped.count f = ∑ dir ∈ s.dirs, s.uses f dir := by
  unfold State.dirs
  rw [List.sum_toFinset _ h.dirs_nodup]
  unfold State.mapped mappedBy
  generalize s.tasks = ts
  induction ts with
  | nil => rfl
  | cons p ts ih =>
    rw [List.map_cons, List.sum_cons, Multiset.count_add, ih]
    rfl

/-! ### A short run -/

def noFiles : FileOps := ⟨fun _ _ => 0, fun _ _ _ => (0, fun _ => 0)⟩

/-- A write to the last word of the stack. -/
def stackFault : Event := .fault noFiles ⟨false, true, true, false⟩ (STACK_START - 8)

def stackPage : Nat := (STACK_START - 8) / PAGE_SIZE

theorem stackPage_lower : stackPage < 2 ^ 35 := by decide

theorem entry_none {v : Nat} (leaves : s.current.leaves s.ram = 0) (lower : v < 2 ^ 35) : s.entry v = none := by
  cases found : s.entry v with
  | none => rfl
  | some e =>
    have leaf := (entry_iff lower).mp found
    rw [leaves] at leaf
    exact absurd leaf (Multiset.notMem_zero _)

/-- A fault that `demandFault` can serve brings the page in. -/
theorem absentFault_step {io : FileOps} {address : Nat} {write : Bool} {area : Area}
    (h : Holds static 0 s) (lower : address < 2 ^ 47) (missing : s.entry (address / PAGE_SIZE) = none)
    (served : Served io address write s area) :
    ∃ t, Step s (.fault io ⟨false, write, true, false⟩ address) t ∧ Paged static io address s t := by
  have enabled : Enabled s (.fault io ⟨false, write, true, false⟩ address) := by
    refine ⟨Or.inl lower, rfl, fun _ => ?_, ?_⟩
    · exact (congrArg Option.isSome missing).symm
    · rintro _ ⟨e, found, -⟩
      exact absurd (missing.symm.trans found) (by simp)
  have spec : Ends (act (.fault io ⟨false, write, true, false⟩ address) s) _ _ :=
    demandFault_spec h lower missing
  cases result : act (.fault io ⟨false, write, true, false⟩ address) s with
  | error stop =>
    obtain ⟨-, short⟩ := spec.of_error result
    have room := served.room
    omega
  | ok r =>
    obtain ⟨ok, t⟩ := r
    obtain ⟨paged, serves⟩ := spec.of_ok result
    obtain rfl : ok = true := serves _ served
    exact ⟨t, ⟨enabled, result⟩, paged rfl⟩

theorem stackFault_step (boot : Booted static s) (areas : s.current.areas = [stackArea])
    (room : 4 ≤ s.room) : ∃ t, Step s stackFault t ∧ Paged static noFiles (STACK_START - 8) s t := by
  have missing : s.entry stackPage = none := entry_none boot.leaves stackPage_lower
  have found : mmFindArea s.current.areas (STACK_START - 8) = some stackArea := by
    rw [areas]
    rfl
  exact absentFault_step boot.holds (by decide) missing ⟨found, by decide, rfl, room⟩

theorem fork_step (h : Holds static 0 s) (pid : s.nextFreePid < 2 ^ 31)
    (room : (s.current.tables s.ram).card + 1 < s.room) : ∃ t, Step s .fork t ∧ Forked static s t := by
  have spec := sysFork_spec h
  cases result : sysFork s with
  | error stop =>
    have short := (spec.of_error result).2 pid
    omega
  | ok r =>
    obtain ⟨ret, t⟩ := r
    obtain ⟨forked, returns⟩ := spec.of_ok result
    have positive : 0 ≤ ret := returns (by omega)
    refine ⟨t, ⟨trivial, ?_⟩, forked positive⟩
    change (sysFork s >>= fun r => pure (decide (0 ≤ r.1), r.2)) = _
    rw [result]
    exact congrArg (fun b => Except.ok (b, t)) (decide_eq_true positive)

end Landaux
