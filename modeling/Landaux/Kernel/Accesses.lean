import Landaux.Kernel.Tlb

/-!
# What the processor goes by

A user access goes by the translation that the processor keeps, and only where it keeps none by the tables. `sys_exec`
leaves translations behind that the tables do not have any more. As long as no access goes by one of those, the
processor takes the steps that the tables say.
-/

namespace Landaux
open Lib

variable {static v i : Nat} {s t : State} {e : Event} {events : List Event} {x : Translation} {code : FaultCode}
  {w : Word}

namespace State

/-- What an access to page `v` goes by. -/
def translation (s : State) (v : Nat) : Option Translation :=
  match s.tlb v with
  | some x => some x
  | none => (s.entry v).map fun e => ⟨Pte.frame e, Pte.writable e⟩

/-- A store to word `i` of page `v`, of user code or of the kernel. -/
def storeVia (s : State) (v i : Nat) (w : Word) : State :=
  match s.translation v with
  | some x => s.setWord x.frame i w
  | none => s

/-- An access to page `v` faults with this error code. -/
def Faults (s : State) (v : Nat) (code : FaultCode) : Prop :=
  match s.translation v with
  | none => code.present = false
  | some x => code.present = true ∧ code.write = true ∧ x.write = false

/-- The translation that is kept of page `v`, if any, agrees with the entry and allows no more. -/
def Fresh (s : State) (v : Nat) : Prop :=
  ∀ x, s.tlb v = some x → ∃ e, s.entry v = some e ∧ Pte.frame e = x.frame ∧ (x.write = true → Pte.writable e = true)

theorem Fresh.entry (fresh : s.Fresh v) (found : s.translation v = some x) :
    ∃ e, s.entry v = some e ∧ Pte.frame e = x.frame ∧ (x.write = true → Pte.writable e = true) := by
  unfold translation at found
  split at found
  · rename_i y kept
    obtain rfl := Option.some.inj found
    exact fresh _ kept
  · obtain ⟨e, entry, rfl⟩ := Option.map_eq_some_iff.mp found
    exact ⟨e, entry, rfl, id⟩

theorem fillTlb_found {e : Word} (cold : s.tlb v = none) (entry : s.entry v = some e) : s.fillTlb v =
    { s with tlb := fun u => if u = v then some ⟨Pte.frame e, Pte.writable e⟩ else s.tlb u } := by
  unfold fillTlb
  rw [cold, entry]

theorem translation_isSome (present : (s.entry v).isSome = true) : (s.translation v).isSome = true := by
  unfold translation
  cases s.tlb v with
  | some x => rfl
  | none => rwa [Option.isSome_map]

theorem entry_of_translation (missing : s.translation v = none) : s.tlb v = none ∧ s.entry v = none := by
  unfold translation at missing
  split at missing
  · cases missing
  · rename_i cold
    exact ⟨cold, Option.map_eq_none_iff.mp missing⟩

theorem Fresh.storeVia (fresh : s.Fresh v) (found : s.translation v = some x) : s.storeVia v i w = s.write v i w := by
  obtain ⟨e, entry, frame, -⟩ := fresh.entry found
  unfold State.storeVia State.write
  simp only [found, entry, frame]

theorem Fresh.faults (fresh : s.Fresh v) (faults : s.Faults v code) : code.present = (s.entry v).isSome := by
  unfold Faults at faults
  cases found : s.translation v with
  | none =>
    rw [found] at faults
    rw [(entry_of_translation found).2, faults]
    rfl
  | some x =>
    rw [found] at faults
    obtain ⟨e, entry, -⟩ := fresh.entry found
    rw [entry, faults.1]
    rfl

end State

/-! ### Steps -/

namespace Processor

/-- When an event can happen. -/
def Enabled (s : State) : Event → Prop
  | .fault _ code address => Canonical address ∧ code.usermode = true ∧
      (address < 2 ^ 47 → s.Faults (address / PAGE_SIZE) code) ∧
      (code.write = true → s.Shared address → ∀ t, allocPage s ≠ .ok (0, t))
  | .touch v => v < 2 ^ 35 ∧ (s.translation v).isSome = true
  | .store v _ _ => v < 2 ^ 35 ∧ ∃ x, s.translation v = some x ∧ x.write = true
  | .copyOut v _ _ => v < 2 ^ 35 ∧ (s.translation v).isSome = true
  | e => Landaux.Enabled s e

def act : Event → State → Except Stop (Bool × State)
  | .store v i w, s => .ok (true, s.storeVia v i w)
  | .copyOut v i w, s => .ok (true, s.storeVia v i w)
  | e, s => Landaux.act e s

def Step (s : State) (e : Event) (t : State) : Prop := Enabled s e ∧ act e s = .ok (true, t)

end Processor

/-- The event does not go by a translation that is out of date. What a read finds is no part of the state. -/
def UpToDate (s : State) : Event → Prop
  | .fault _ _ address => address < 2 ^ 47 → s.Fresh (address / PAGE_SIZE)
  | .store v _ _ | .copyOut v _ _ => s.Fresh v
  | _ => True

theorem Coherent.upToDate (coherent : Coherent s) : UpToDate s e := by
  have fresh (v : Nat) : s.Fresh v := fun x kept => (coherent v x kept).2
  cases e with
  | fault _ _ address => exact fun _ => fresh _
  | store v | copyOut v => exact fresh v
  | touch | fork | exec | execSwitch | exit | switch | idle | grow => trivial

/-- With nothing out of date, the tables say the same. -/
theorem UpToDate.tables (fresh : UpToDate s e) (enabled : Processor.Enabled s e) : Processor.act e s = act e s ∧
    (Enabled s e ∨ ∃ v, e = .touch v) := by
  cases e with
  | fault io code address =>
    obtain ⟨canonical, user, faults, page⟩ := enabled
    exact ⟨rfl, .inl ⟨canonical, user, fun lower => (fresh lower).faults (faults lower), page⟩⟩
  | store v i w =>
    obtain ⟨lower, x, found, writable⟩ := enabled
    obtain ⟨e, entry, -, write⟩ := State.Fresh.entry fresh found
    refine ⟨?_, .inl ⟨lower, e, entry, write writable⟩⟩
    change Except.ok (true, s.storeVia v i w) = .ok (true, s.write v i w)
    rw [State.Fresh.storeVia fresh found]
  | copyOut v i w =>
    obtain ⟨lower, some⟩ := enabled
    obtain ⟨x, found⟩ := Option.isSome_iff_exists.mp some
    obtain ⟨e, entry, -⟩ := State.Fresh.entry fresh found
    refine ⟨?_, .inl ⟨lower, by rw [entry]; rfl⟩⟩
    change Except.ok (true, s.storeVia v i w) = .ok (true, s.write v i w)
    rw [State.Fresh.storeVia fresh found]
  | touch v => exact ⟨rfl, .inr ⟨v, rfl⟩⟩
  | fork | exec | execSwitch | exit | switch | idle | grow => exact ⟨rfl, .inl enabled⟩

/-- It is a step of the tables, or an access through a translation that nothing replaces. -/
theorem UpToDate.step (fresh : UpToDate s e) (step : Processor.Step s e t) :
    Step s e t ∨ (∃ v, e = .touch v) ∧ t = s := by
  obtain ⟨enabled, result⟩ := step
  obtain ⟨same, stepping | ⟨v, rfl⟩⟩ := fresh.tables enabled
  · exact .inl ⟨stepping, same.symm.trans result⟩
  · cases found : s.entry v with
    | some x => exact .inl ⟨⟨enabled.1, by rw [found]; rfl⟩, result⟩
    | none =>
      refine .inr ⟨⟨v, rfl⟩, ?_⟩
      have filled : s.fillTlb v = t := (Prod.mk.inj (Except.ok.inj result)).2
      unfold State.fillTlb at filled
      simpa [found] using filled.symm

/-! ### Runs -/

namespace Processor

theorem step_holds (h : Holds static 0 s) (fresh : UpToDate s e) (step : Step s e t) : Holds static 0 t := by
  rcases fresh.step step with stepping | ⟨-, rfl⟩
  · exact Landaux.step_holds h stepping
  · exact h

theorem run_holds (boot : Booted static s) (fresh : Throughout Step (fun s e _ => UpToDate s e) s events)
    (run : Run Step s events t) : Holds static 0 t :=
  fresh.invariant run boot.holds fun _ _ _ h step fresh => step_holds h fresh step

theorem step_coherent (h : Holds static 0 s) (coherent : Coherent s) (cold : ColdExec s e) (step : Step s e t) :
    Coherent t := by
  rcases coherent.upToDate.step step with stepping | ⟨-, rfl⟩
  · exact (Landaux.step_coherent h coherent stepping).mpr cold
  · exact coherent

/-- When no `sys_exec` finds a translation, every access of the run is up to date. -/
theorem cold_upToDate (h : Holds static 0 s) (coherent : Coherent s)
    (cold : Throughout Step (fun s e _ => ColdExec s e) s events) :
    Throughout Step (fun s e _ => UpToDate s e) s events := by
  have both : Throughout Step (fun s e _ => ColdExec s e ∧ UpToDate s e) s events := by
    refine (Throughout.congr (fun s => Holds static 0 s ∧ Coherent s) ⟨h, coherent⟩ ?_ ?_).mpr cold
    · intro s e t good _
      exact and_iff_left good.2.upToDate
    · rintro s e t ⟨h, coherent⟩ step ⟨cold, fresh⟩
      exact ⟨step_holds h fresh step, step_coherent h coherent cold step⟩
  exact (Throughout.and_iff.mp both).2

theorem upToDate_of_cold (boot : Booted static s) (cold : ∀ e ∈ events, ∀ s, ColdExec s e) :
    Throughout Step (fun s e _ => UpToDate s e) s events := by
  refine cold_upToDate boot.holds (.of_cold boot.tlb) fun before e after mid next eq _ _ => cold e ?_ mid
  rw [eq]
  exact List.mem_append_right _ List.mem_cons_self

/-- A fault on a page that is not there, of which no translation is kept either. -/
theorem absentFault {write : Bool} {io : FileOps} {address : Nat} (cold : s.tlb (address / PAGE_SIZE) = none)
    (missing : s.entry (address / PAGE_SIZE) = none)
    (step : Landaux.Step s (.fault io ⟨false, write, true, false⟩ address) t) :
    Step s (.fault io ⟨false, write, true, false⟩ address) t := by
  obtain ⟨⟨canonical, user, -, page⟩, result⟩ := step
  refine ⟨⟨canonical, user, fun _ => ?_, page⟩, result⟩
  have none : s.translation (address / PAGE_SIZE) = none := by
    unfold State.translation
    rw [cold, missing]
    rfl
  unfold State.Faults
  rw [none]

theorem stackFault_step (boot : Booted static s) (areas : s.current.areas = [stackArea]) (room : 4 ≤ s.room) :
    ∃ t, Step s stackFault t ∧ Paged static noFiles (STACK_START - 8) s t := by
  obtain ⟨t, step, paged⟩ := Landaux.stackFault_step boot areas room
  exact ⟨t, absentFault (by rw [boot.tlb]) (entry_none boot.leaves stackPage_lower) step, paged⟩

end Processor

end Landaux
