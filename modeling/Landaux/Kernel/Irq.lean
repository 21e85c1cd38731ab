import Landaux.Lib.Machine

/-!
# Interrupt lines

`irq.c`, with `mask_irq`, `unmask_irq` and the acknowledgements of `arch.h` and `init_pic` of `arch.c`, on the
two interrupt controllers. `register_irq` disables interrupts. `release_irq` does not, and an interrupt between
its statements finds a line that has no handler and is not masked yet.
-/

namespace Landaux.Irq
open Lib

/-- `irq_t`; a handler is known by a number. -/
structure Entry where
  handler : Option Nat := none
  data : Nat := 0
  count : Nat := 0

/-- An interrupt controller: the lines that are masked, and those in service. -/
structure Pic where
  mask : BitVec 8
  service : BitVec 8

/-- `releasing` is the line whose `release_irq` has removed the handler and not masked the line yet. `calls` are
the lines and handlers that `do_irq` has called, the last one first. -/
structure State where
  irqs : Fin 16 → Entry
  maskedIrqs : BitVec 16
  pic1 : Pic
  pic2 : Pic
  releasing : Option (Fin 16)
  calls : List (Fin 16 × Nat × Nat)
  bug : Bool

/-! ### The controllers -/

def Pic.outMask (p : Pic) (value : BitVec 8) : Pic := { p with mask := value }

/-- `outb(PIC, PIC_ACK)`: the line of the highest priority is not in service any more. -/
def Pic.ack (p : Pic) : Pic := { p with service := p.service &&& (p.service - 1) }

def Pic.serve (p : Pic) (i : Nat) : Pic := { p with service := p.service ||| 1#8 <<< i }

namespace State

/-- `outb` of the half of `masked_irqs` that belongs to the line -/
def outMask (s : State) (irq : Fin 16) : State :=
  if irq.val < 8 then { s with pic1 := s.pic1.outMask (s.maskedIrqs.setWidth 8) }
  else { s with pic2 := s.pic2.outMask ((s.maskedIrqs >>> 8).setWidth 8) }

def maskIrq (s : State) (irq : Fin 16) : State :=
  if s.maskedIrqs.getLsbD irq then s
  else { s with maskedIrqs := s.maskedIrqs ||| 1#16 <<< irq.val }.outMask irq

def unmaskIrq (s : State) (irq : Fin 16) : State :=
  if !s.maskedIrqs.getLsbD irq then s
  else { s with maskedIrqs := s.maskedIrqs &&& ~~~(1#16 <<< irq.val) }.outMask irq

def setEntry (s : State) (irq : Fin 16) (e : Entry) : State := { s with irqs := Function.update s.irqs irq e }

end State

def initPic : State where
  irqs _ := {}
  maskedIrqs := 0xFFFB
  pic1 := ⟨0xFF &&& ~~~(1#8 <<< 2), 0⟩
  pic2 := ⟨0xFF, 0⟩
  releasing := none
  calls := []
  bug := false

def registerIrq (irq : Fin 16) (handler data : Nat) (s : State) : Int × State :=
  if (s.irqs irq).handler.isSome then (-1, s)
  else (0, (s.setEntry irq ⟨some handler, data, 0⟩).unmaskIrq irq)

/-- `release_irq` up to the removal of the handler. -/
def releaseHandler (irq : Fin 16) (s : State) : Int × State :=
  if (s.irqs irq).handler = none then (-1, s)
  else (0, { s.setEntry irq { s.irqs irq with handler := none } with releasing := some irq })

/-- The rest of `release_irq`. -/
def releaseMask (irq : Fin 16) (s : State) : State := { s.maskIrq irq with releasing := none }

def doIrq (irq : Fin 16) (s : State) : State :=
  match (s.irqs irq).handler with
  | some handler =>
    let e := s.irqs irq
    let s := { s with calls := (irq, handler, e.data) :: s.calls }
    let s := s.setEntry irq { e with count := (e.count + 1) % 2 ^ 32 }
    if irq.val < 8 then { s with pic1 := s.pic1.ack } else { s with pic1 := s.pic1.ack, pic2 := s.pic2.ack }
  | none => { s with bug := true }

/-! ### Steps -/

inductive Event where
  | register (irq : Fin 16) (handler data : Nat)
  | release (irq : Fin 16)
  | mask (irq : Fin 16)
  /-- a device interrupts on its line -/
  | interrupt (irq : Fin 16)

/-- The controllers pass the interrupts of a line on. Those of the second one come in on line 2 of the first. -/
def State.Open (s : State) (irq : Fin 16) : Prop :=
  if irq.val < 8 then s.pic1.mask.getLsbD irq = false
  else s.pic1.mask.getLsbD 2 = false ∧ s.pic2.mask.getLsbD (irq.val - 8) = false

def State.serve (s : State) (irq : Fin 16) : State :=
  if irq.val < 8 then { s with pic1 := s.pic1.serve irq }
  else { s with pic1 := s.pic1.serve 2, pic2 := s.pic2.serve (irq.val - 8) }

/-- While `release_irq` runs, only interrupts come in between. No device is on line 2. -/
inductive Step : State → Event → State → Prop where
  | register {s : State} {irq : Fin 16} {handler data : Nat} (free : s.releasing = none) :
      Step s (.register irq handler data) (registerIrq irq handler data s).2
  | release {s : State} {irq : Fin 16} (free : s.releasing = none) :
      Step s (.release irq) (releaseHandler irq s).2
  | mask {s : State} {irq : Fin 16} (now : s.releasing = some irq) : Step s (.mask irq) (releaseMask irq s)
  | interrupt {s : State} {irq : Fin 16} (gets : s.Open irq) (device : irq ≠ 2) (runs : s.bug = false) :
      Step s (.interrupt irq) (doIrq irq (s.serve irq))

/-! ### The masks -/

variable {s t : State} {irq i : Fin 16} {m : BitVec 16} {handler data : Nat} {e : Entry} {events : List Event}

/-- The controllers mask what `masked_irqs` says. -/
structure Synced (s : State) : Prop where
  low : s.pic1.mask = s.maskedIrqs.setWidth 8
  high : s.pic2.mask = (s.maskedIrqs >>> 8).setWidth 8

/-- A change of one bit of `masked_irqs` is a change of one controller. -/
theorem Synced.outMask (synced : Synced s)
    (others : ∀ j < 16, j ≠ irq.val → m.getLsbD j = s.maskedIrqs.getLsbD j) :
    Synced ({ s with maskedIrqs := m }.outMask irq) := by
  unfold State.outMask
  split
  · refine ⟨rfl, synced.high.trans (BitVec.eq_of_getLsbD_eq fun j small => ?_)⟩
    simp [small, others (8 + j) (by omega) (by omega)]
  · refine ⟨synced.low.trans (BitVec.eq_of_getLsbD_eq fun j small => ?_), rfl⟩
    simp [small, others j (by omega) (by omega)]

theorem bit_set {j : Nat} : (m ||| 1#16 <<< irq.val).getLsbD j = (m.getLsbD j || decide (irq.val = j)) := by
  change (m ||| BitVec.twoPow 16 irq).getLsbD j = _
  simp [BitVec.getLsbD_twoPow]

theorem bit_clear {j : Nat} (inside : j < 16) :
    (m &&& ~~~(1#16 <<< irq.val)).getLsbD j = (m.getLsbD j && !decide (irq.val = j)) := by
  change (m &&& ~~~(BitVec.twoPow 16 irq)).getLsbD j = _
  simp [inside, eq_comm]

structure SameLines (s t : State) : Prop where
  irqs : t.irqs = s.irqs
  service1 : t.pic1.service = s.pic1.service
  service2 : t.pic2.service = s.pic2.service
  releasing : t.releasing = s.releasing
  calls : t.calls = s.calls
  bug : t.bug = s.bug

theorem outMask_lines : SameLines s ({ s with maskedIrqs := m }.outMask irq) := by
  unfold State.outMask
  split <;> exact ⟨rfl, rfl, rfl, rfl, rfl, rfl⟩

theorem outMask_masked : ({ s with maskedIrqs := m }.outMask irq).maskedIrqs = m := by
  unfold State.outMask
  split <;> rfl

variable (irq) in
/-- `mask_irq` changes the mask of its line alone. -/
theorem maskIrq_spec (synced : Synced s) : Synced (s.maskIrq irq) ∧ SameLines s (s.maskIrq irq) ∧
    ∀ i : Fin 16, (s.maskIrq irq).maskedIrqs.getLsbD i = (s.maskedIrqs.getLsbD i || decide (i = irq)) := by
  unfold State.maskIrq
  split
  · refine ⟨synced, ⟨rfl, rfl, rfl, rfl, rfl, rfl⟩, fun i => ?_⟩
    by_cases same : i = irq <;> simp_all
  · refine ⟨synced.outMask fun j inside other => ?_, outMask_lines, fun i => ?_⟩
    · rw [bit_set]
      simp [other.symm]
    · rw [outMask_masked, bit_set]
      congr 1
      exact decide_eq_decide.mpr ⟨fun same => Fin.ext same.symm, fun same => same ▸ rfl⟩

variable (irq) in
theorem unmaskIrq_spec (synced : Synced s) : Synced (s.unmaskIrq irq) ∧ SameLines s (s.unmaskIrq irq) ∧
    ∀ i : Fin 16, (s.unmaskIrq irq).maskedIrqs.getLsbD i = (s.maskedIrqs.getLsbD i && !decide (i = irq)) := by
  unfold State.unmaskIrq
  split
  · refine ⟨synced, ⟨rfl, rfl, rfl, rfl, rfl, rfl⟩, fun i => ?_⟩
    by_cases same : i = irq <;> simp_all
  · refine ⟨synced.outMask fun j inside other => ?_, outMask_lines, fun i => ?_⟩
    · rw [bit_clear inside]
      simp [other.symm]
    · rw [outMask_masked, bit_clear i.isLt]
      congr 2
      exact decide_eq_decide.mpr ⟨fun same => Fin.ext same.symm, fun same => same ▸ rfl⟩

/-! ### Every state -/

/-- The controllers, the masks and the handlers agree, and no interrupt is in service. -/
structure InOrder (s : State) : Prop extends Synced s where
  served1 : s.pic1.service = 0
  served2 : s.pic2.service = 0
  line : ∀ i : Fin 16, i ≠ 2 → (s.maskedIrqs.getLsbD i = false ↔ (s.irqs i).handler.isSome ∨ s.releasing = some i)
  removed : ∀ i : Fin 16, s.releasing = some i → (s.irqs i).handler = none

theorem initPic_inOrder : InOrder initPic := by
  refine ⟨⟨rfl, rfl⟩, rfl, rfl, ?_, ?_⟩
  · intro i other
    revert other
    fin_cases i <;> decide
  · intro i now
    cases now

theorem setEntry_other (other : i ≠ irq) : (s.setEntry irq e).irqs i = s.irqs i := Function.update_of_ne other _ _

theorem setEntry_same : (s.setEntry irq e).irqs irq = e := Function.update_self _ _ _

theorem registerIrq_inOrder (ordered : InOrder s) (free : s.releasing = none) :
    InOrder (registerIrq irq handler data s).2 := by
  unfold registerIrq
  split
  · exact ordered
  · have set : Synced (s.setEntry irq ⟨some handler, data, 0⟩) := ⟨ordered.low, ordered.high⟩
    obtain ⟨synced, same, bits⟩ := unmaskIrq_spec irq set
    have none : (s.setEntry irq ⟨some handler, data, 0⟩).releasing = none := free
    refine ⟨synced, same.service1.trans ordered.served1, same.service2.trans ordered.served2, fun i device => ?_,
      fun i now => ?_⟩
    · have line := ordered.line i device
      dsimp only
      rw [bits, same.irqs, same.releasing, none]
      obtain rfl | other := eq_or_ne i irq
      · rw [setEntry_same]
        simp
      · rw [setEntry_other other]
        rw [free] at line
        simpa [other, State.setEntry] using line
    · rw [same.releasing, none] at now
      cases now

theorem releaseHandler_inOrder (ordered : InOrder s) (free : s.releasing = none) :
    InOrder (releaseHandler irq s).2 := by
  unfold releaseHandler
  split
  · exact ordered
  · rename_i registered
    refine ⟨⟨ordered.low, ordered.high⟩, ordered.served1, ordered.served2, fun i device => ?_, fun i now => ?_⟩
    · have line := ordered.line i device
      change s.maskedIrqs.getLsbD i = false ↔ ((s.setEntry irq _).irqs i).handler.isSome ∨ some irq = some i
      obtain rfl | other := eq_or_ne i irq
      · rw [line, setEntry_same]
        simp [Option.isSome_iff_ne_none, registered]
      · rw [line, setEntry_other other, free]
        simp [other.symm]
    · obtain rfl := Option.some.inj now
      exact congrArg Entry.handler setEntry_same

theorem releaseMask_inOrder (ordered : InOrder s) (now : s.releasing = some irq) : InOrder (releaseMask irq s) := by
  obtain ⟨synced, same, bits⟩ := maskIrq_spec irq ordered.toSynced
  refine ⟨⟨synced.low, synced.high⟩, same.service1.trans ordered.served1, same.service2.trans ordered.served2,
    fun i device => ?_, fun i none => absurd none (by simp [releaseMask])⟩
  have line := ordered.line i device
  change (s.maskIrq irq).maskedIrqs.getLsbD i = false ↔ ((s.maskIrq irq).irqs i).handler.isSome ∨ none = some i
  rw [bits, same.irqs]
  obtain rfl | other := eq_or_ne i irq
  · simp [ordered.removed i now]
  · rw [now] at line
    simpa [other, other.symm] using line

/-! ### An interrupt -/

/-- An interrupt on a line with a handler calls it, and leaves the controllers as they were. -/
structure Handled (s : State) (irq : Fin 16) (t : State) : Prop where
  handler : ∃ h, (s.irqs irq).handler = some h ∧ t.calls = (irq, h, (s.irqs irq).data) :: s.calls
  same : t = { s with
    calls := t.calls
    irqs := Function.update s.irqs irq { s.irqs irq with count := ((s.irqs irq).count + 1) % 2 ^ 32 } }

theorem serve_ack {p : Pic} {j : Nat} (inside : j < 8) (idle : p.service = 0) : (p.serve j).ack = p := by
  obtain ⟨mask, service⟩ := p
  obtain rfl := idle
  have ack : (0#8 ||| 1#8 <<< j) &&& ((0#8 ||| 1#8 <<< j) - 1) = 0 := by interval_cases j <;> decide
  exact congrArg (Pic.mk mask) ack

theorem interrupt_handled (ordered : InOrder s) {h : Nat} (registered : (s.irqs irq).handler = some h) :
    Handled s irq (doIrq irq (s.serve irq)) := by
  obtain ⟨irqs, masked, pic1, pic2, releasing, calls, bug⟩ := s
  have one := ordered.served1
  have two := ordered.served2
  dsimp only at one two registered
  unfold doIrq State.serve
  by_cases low : irq.val < 8
  · simp only [low, if_true, registered]
    refine ⟨⟨h, registered, rfl⟩, ?_⟩
    simp [serve_ack low one, State.setEntry, registered]
  · have inside : irq.val - 8 < 8 := by omega
    simp only [low, if_false, registered]
    refine ⟨⟨h, registered, rfl⟩, ?_⟩
    simp [serve_ack (show 2 < 8 by omega) one, serve_ack inside two, State.setEntry, registered]

theorem Handled.inOrder (handled : Handled s irq t) (ordered : InOrder s) : InOrder t := by
  obtain ⟨⟨h, registered, -⟩, same⟩ := handled
  generalize t.calls = calls at same
  subst same
  have kept (i : Fin 16) : (Function.update s.irqs irq { s.irqs irq with
      count := ((s.irqs irq).count + 1) % 2 ^ 32 } i).handler = (s.irqs i).handler := by
    obtain rfl | other := eq_or_ne i irq
    · rw [Function.update_self]
    · rw [Function.update_of_ne other]
  refine ⟨⟨ordered.low, ordered.high⟩, ordered.served1, ordered.served2, fun i device => ?_, fun i now => ?_⟩
  · rw [kept]
    exact ordered.line i device
  · rw [kept]
    exact ordered.removed i now

/-- A line is open if it is not masked, and for a line of the second controller line 2 is not either. -/
theorem open_iff (ordered : InOrder s) : s.Open irq ↔
    s.maskedIrqs.getLsbD irq = false ∧ (8 ≤ irq.val → s.maskedIrqs.getLsbD 2 = false) := by
  unfold State.Open
  rw [ordered.low, ordered.high]
  have inside := irq.isLt
  split
  · rename_i low
    simp [low, Nat.not_le.mpr low]
  · rename_i high
    have place : 8 + (irq.val - 8) = irq.val := by omega
    simp [show irq.val - 8 < 8 by omega, place, Nat.not_lt.mp high, and_comm]

/-- No interrupt comes in on a line while `release_irq` is between its statements for it. -/
def Undisturbed (s : State) (e : Event) (_ : State) : Prop := ∀ irq, e = .interrupt irq → s.releasing ≠ some irq

def EachHandled (s : State) (e : Event) (t : State) : Prop := ∀ irq, e = .interrupt irq → Handled s irq t

theorem handled_iff (ordered : InOrder s) {e : Event} (step : Step s e t) :
    EachHandled s e t ↔ Undisturbed s e t := by
  cases step with
  | register | release | mask =>
    exact iff_of_true (fun _ other => by cases other) (fun _ other => by cases other)
  | @interrupt irq gets device =>
    have unmasked := ((open_iff ordered).mp gets).1
    obtain some | now := (ordered.line irq device).mp unmasked
    · obtain ⟨h, registered⟩ := Option.isSome_iff_exists.mp some
      refine iff_of_true ?_ ?_
      · rintro i same
        obtain rfl := Event.interrupt.inj same
        exact interrupt_handled ordered registered
      · rintro i same now
        obtain rfl := Event.interrupt.inj same
        rw [ordered.removed _ now] at registered
        cases registered
    · refine iff_of_false (fun all => ?_) fun all => all irq rfl now
      obtain ⟨h, registered, -⟩ := (all irq rfl).handler
      rw [ordered.removed _ now] at registered
      cases registered

theorem step_inOrder (ordered : InOrder s) {e : Event} (step : Step s e t) (good : Undisturbed s e t) :
    InOrder t := by
  have handled := (handled_iff ordered step).mpr good
  cases step with
  | register free => exact registerIrq_inOrder ordered free
  | release free => exact releaseHandler_inOrder ordered free
  | mask now => exact releaseMask_inOrder ordered now
  | interrupt => exact (handled _ rfl).inOrder ordered

/-- Line 2 is not masked, and the rest is in order. -/
def Cascaded (s : State) : Prop := InOrder s ∧ s.maskedIrqs.getLsbD 2 = false

theorem step_cascade (good : Cascaded s) {e : Event} (step : Step s e t) (fair : Undisturbed s e t)
    (other : e ≠ .mask 2) : Cascaded t := by
  obtain ⟨ordered, clear⟩ := good
  have handled := (handled_iff ordered step).mpr fair
  refine ⟨step_inOrder ordered step fair, ?_⟩
  cases step with
  | @register irq handler data free =>
    unfold registerIrq
    split
    · exact clear
    · have set : Synced (s.setEntry irq ⟨some handler, data, 0⟩) := ⟨ordered.low, ordered.high⟩
      refine ((unmaskIrq_spec _ set).2.2 2).trans ?_
      change (s.maskedIrqs.getLsbD 2 && _) = false
      rw [clear]
      rfl
  | release free =>
    unfold releaseHandler
    split <;> exact clear
  | @mask irq now =>
    have different : irq ≠ 2 := fun same => other (same ▸ rfl)
    refine ((maskIrq_spec _ ordered.toSynced).2.2 2).trans ?_
    change (s.maskedIrqs.getLsbD 2 || decide (2 = irq)) = false
    rw [clear]
    simpa using different.symm
  | interrupt =>
    rw [(handled _ rfl).same]
    exact clear

/-- In every run of registrations, releases and interrupts each interrupt is passed to the handler of its line and
acknowledged, exactly if none comes in on a line that is being released. In such a run exactly the registered
lines are open, as long as line 2 is not released. -/
theorem irq_lines (events : List Event) :
    (Throughout Step EachHandled initPic events ↔ Throughout Step Undisturbed initPic events) ∧
      ∀ s, Run Step initPic events s → Throughout Step Undisturbed initPic events →
        InOrder s ∧ (Event.mask 2 ∉ events → s.releasing = none →
          ∀ i : Fin 16, i ≠ 2 → (s.Open i ↔ (s.irqs i).handler.isSome)) := by
  refine ⟨?_, fun s run throughout => ?_⟩
  · refine Throughout.congr InOrder initPic_inOrder (fun s e t ordered step => handled_iff ordered step) ?_
    exact fun s e t ordered step handled => step_inOrder ordered step ((handled_iff ordered step).mp handled)
  · have ordered := throughout.invariant run initPic_inOrder fun s e t ordered step good =>
      step_inOrder ordered step good
    refine ⟨ordered, fun kept free i device => ?_⟩
    have both : Throughout Step (fun s e t => Undisturbed s e t ∧ e ≠ .mask 2) initPic events := by
      intro before e after mid next parts first step
      refine ⟨throughout before e after mid next parts first step, fun same => kept ?_⟩
      rw [parts, ← same]
      exact List.mem_append_right _ List.mem_cons_self
    have start : Cascaded initPic := ⟨initPic_inOrder, rfl⟩
    have cascade := both.invariant run start fun s e t good step holds =>
      step_cascade good step holds.1 holds.2
    rw [open_iff ordered, ordered.line i device, free, cascade.2]
    simp

end Landaux.Irq
