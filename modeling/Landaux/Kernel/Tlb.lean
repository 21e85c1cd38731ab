import Landaux.Kernel.ProcessRuns

/-!
# Translations that the processor keeps

Page faults, `sys_fork` and the switch of processes drop every translation that they make wrong.
`sys_exec` drops none.
-/

namespace Landaux
open Lib

variable {static : Nat} {s t : State} {e : Event} {events : List Event}

theorem Coherent.of_cold (cold : s.tlb = fun _ => none) : Coherent s := by
  intro v x kept
  rw [cold] at kept
  cases kept

theorem Coherent.fillTlb {v : Nat} (coherent : Coherent s) (lower : v < 2 ^ 35) :
    Coherent (s.fillTlb v) := by
  unfold State.fillTlb
  split
  · rename_i e none found
    intro u x kept
    by_cases here : u = v
    · obtain rfl : (⟨Pte.frame e, Pte.writable e⟩ : Translation) = x :=
        Option.some.inj ((if_pos here).symm.trans kept)
      rw [here]
      exact ⟨lower, e, found, rfl, fun write => write⟩
    · exact coherent u x ((if_neg here).symm.trans kept)
  · exact coherent

theorem fillTlb_kept {v : Nat} (present : (s.entry v).isSome = true) : (s.fillTlb v).tlb v ≠ none := by
  obtain ⟨e, found⟩ := Option.isSome_iff_exists.mp present
  unfold State.fillTlb
  rw [found]
  cases kept : s.tlb v with
  | none => simp
  | some x => simp [kept]

/-- Without an entry there is nothing that a translation can agree with. -/
theorem coherent_unmapped (leaves : s.current.leaves s.ram = 0) :
    Coherent s ↔ s.tlb = fun _ => none := by
  refine ⟨fun coherent => funext fun v => ?_, Coherent.of_cold⟩
  cases kept : s.tlb v with
  | none => rfl
  | some x =>
    obtain ⟨lower, e, found, -⟩ := coherent v x kept
    have leaf := (entry_iff lower).mp found
    rw [leaves] at leaf
    exact absurd leaf (Multiset.notMem_zero _)

/-- `sys_exec` is called with no translation kept. -/
def ColdExec (s : State) : Event → Prop
  | .exec _ => s.tlb = fun _ => none
  | _ => True

theorem step_coherent (h : Holds static 0 s) (coherent : Coherent s) (step : Step s e t) :
    Coherent t ↔ ColdExec s e := by
  have did := step_done h step
  cases e with
  | exec src =>
    rw [coherent_unmapped did.leaves, did.tlb]
    exact Iff.rfl
  | fault io code address => exact iff_of_true (did.coherent coherent) trivial
  | touch v =>
    obtain ⟨lower, rfl⟩ := did
    exact iff_of_true (coherent.fillTlb lower) trivial
  | store v i w =>
    obtain ⟨⟨lower, e, found, -⟩, rfl⟩ := did
    exact iff_of_true ((h.write_entry lower (by rw [found]; rfl)).2 coherent) trivial
  | copyOut v i w =>
    obtain ⟨⟨lower, present⟩, rfl⟩ := did
    exact iff_of_true ((h.write_entry lower present).2 coherent) trivial
  | fork => exact iff_of_true (did.coherent coherent) trivial
  | execSwitch src next =>
    obtain ⟨mid, -, -, rfl⟩ := did
    exact iff_of_true (.of_cold rfl) trivial
  | exit next => exact iff_of_true (.of_cold did.2.tlb) trivial
  | switch next =>
    obtain ⟨-, rfl⟩ := did
    exact iff_of_true (.of_cold rfl) trivial
  | idle =>
    obtain rfl := did
    exact iff_of_true (.of_cold rfl) trivial
  | grow contents => exact iff_of_true (did.coherent coherent) trivial

/-- Every state of a run is coherent exactly when no `sys_exec` of the run finds a translation. -/
theorem tlb_coherent_iff (boot : Booted static s) :
    Throughout Step (fun _ _ t => Coherent t) s events ↔
      Throughout Step (fun s e _ => ColdExec s e) s events := by
  apply Throughout.congr fun s => Holds static 0 s ∧ Coherent s
  · exact ⟨boot.holds, .of_cold boot.tlb⟩
  · intro s e t good step
    exact step_coherent good.1 good.2 step
  · intro s e t good step coherent
    exact ⟨step_holds good.1 step, coherent⟩

theorem exec_step (h : Holds static 0 s) : ∃ t, Step s (.exec bareProgram) t ∧ Replaced static s t := by
  have spec := sysExec_spec bareProgram h
  cases result : sysExec bareProgram s with
  | error stop =>
    have frees := freeMm_spec h
    unfold sysExec at result
    cases freed : freeMm s with
    | error never => exact (frees.of_error freed).elim
    | ok u =>
      obtain ⟨v, -, rfl⟩ := frees.of_ok freed
      rw [freed] at result
      cases result
  | ok r =>
    refine ⟨r.2, ⟨trivial, ?_⟩, spec.of_ok result⟩
    change (sysExec bareProgram s >>= fun r => pure (true, r.2)) = _
    rw [result]
    rfl

/-- The first process reads its stack and calls `sys_exec`. -/
theorem stack_exec : ∃ s mid t, Booted 0 s ∧ Run Step s [stackFault, .touch stackPage] mid ∧
    mid.tlb stackPage ≠ none ∧ Step mid (.exec bareProgram) t ∧ Replaced 0 mid t := by
  obtain ⟨s, boot, areas, room⟩ := booted_64
  obtain ⟨mid, fault, paged⟩ := stackFault_step boot areas (by omega)
  have touch : Step mid (.touch stackPage) (mid.fillTlb stackPage) :=
    ⟨⟨stackPage_lower, paged.present⟩, rfl⟩
  have holds := step_holds paged.effect.holds touch
  obtain ⟨last, exec, replaced⟩ := exec_step holds
  exact ⟨s, _, last, boot, .cons fault (.single touch), fillTlb_kept paged.present, exec, replaced⟩

theorem tlb_coherent_iff_64 : ∃ s t, Booted 0 s ∧ Run Step s [stackFault, .touch stackPage, .exec bareProgram] t ∧
    ¬ Throughout Step (fun _ _ t => Coherent t) s [stackFault, .touch stackPage, .exec bareProgram] := by
  obtain ⟨s, mid, t, boot, run, kept, exec, -⟩ := stack_exec
  refine ⟨s, t, boot, run.snoc exec, fun coherent => kept ?_⟩
  have cold := (tlb_coherent_iff boot).mp coherent [stackFault, .touch stackPage] (.exec bareProgram) [] mid t rfl
    run exec
  exact congrFun cold stackPage

/-- Its stack stays readable. -/
theorem exec_keeps_translations : ¬ ∀ (static : Nat) (s t : State) (events : List Event),
    Booted static s → Run Step s events t → Coherent t := by
  intro all
  obtain ⟨s, mid, t, boot, run, kept, exec, replaced⟩ := stack_exec
  have coherent := all 0 s t _ boot (run.snoc exec)
  rw [coherent_unmapped replaced.leaves, replaced.tlb] at coherent
  exact kept (congrFun coherent stackPage)

end Landaux
