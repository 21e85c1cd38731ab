import Landaux.Kernel.RoundRobin
import Landaux.Lib.Machine

/-!
# Wait queues

`waitqueue_sleep` and `waitqueue_wakeup` of `sched.h`. A task that sleeps stays in the run list until it calls
`schedule`, and a wakeup from an interrupt links each task that it finds in the queue into the run list.
-/

namespace Landaux
open Lib

/-- `none` is the `head` of the queue, and `some p` the links `waitq` of `p`. -/
structure WaitQueue extends Sched where
  waitq : Links (Option Nat)

inductive WaitStop where
  /-- `BUG()` -/
  | bug
  /-- a loop of the model is longer than it can be -/
  | fuel
  deriving DecidableEq

namespace WaitQueue

/-- What `waitqueue_sleep` does with interrupts disabled. -/
def enqueue (s : WaitQueue) : WaitQueue :=
  { s with
    state := Function.update s.state s.current .interruptible
    waitq := s.waitq.add none (some s.current)
    needResched := true }

def waitqueueSleep (s : WaitQueue) : Except WaitStop WaitQueue :=
  if s.state s.current ≠ .running then .error .bug else .ok s.enqueue

def wakeEntry (s : WaitQueue) (p : Nat) : WaitQueue :=
  { s with
    waitq := s.waitq.del (some p)
    state := Function.update s.state p .running
    running := s.running.add s.idle p }

/-- The loop of `waitqueue_wakeup`. `iter->next` is read after `list_del`. -/
def wakeLoop : Nat → Option Nat → WaitQueue → Except WaitStop WaitQueue
  | 0, _, _ => .error .fuel
  | _ + 1, none, s => .ok s
  | fuel + 1, some p, s =>
    if s.state p ≠ .interruptible ∧ s.state p ≠ .uninterruptible then .error .bug
    else
      let s := s.wakeEntry p
      wakeLoop fuel (s.waitq.next (some p)) s

def waitqueueWakeup (s : WaitQueue) : Except WaitStop WaitQueue :=
  (wakeLoop (s.live.card + 1) (s.waitq.next none) s).map fun s =>
    if s.current = s.idle then { s with needResched := true } else s

def callSchedule (s : WaitQueue) : WaitQueue := { s with toSched := s.toSched.schedule }

def Waits (s : WaitQueue) (p : Nat) : Prop := ∃ qs : List Nat, Ring s.waitq none (qs.map some) ∧ p ∈ qs

end WaitQueue

variable {s t : WaitQueue} {ys qs rs : List Nat} {p q fuel : Nat}

/-! ### A wakeup -/

/-- The queue holds the tasks `qs`, which sleep. -/
structure Asleeps (s : WaitQueue) (qs : List Nat) : Prop where
  ring : Ring s.waitq none (qs.map some)
  sleeps : ∀ p ∈ qs, s.state p = .interruptible
  live : ∀ p ∈ qs, p ∈ s.live

theorem Asleeps.nodup (asleep : Asleeps s qs) : qs.Nodup := (List.nodup_cons.mp asleep.ring.nodup).2.of_map

theorem Asleeps.card (asleep : Asleeps s qs) : qs.length ≤ s.live.card := by
  rw [← List.toFinset_card_of_nodup asleep.nodup]
  apply Finset.card_le_card
  intro p member
  exact asleep.live p (List.mem_toFinset.mp member)

theorem Asleeps.first (asleep : Asleeps s qs) : s.waitq.next none = qs.head? := by
  rw [asleep.ring.path.next_headD]
  cases qs <;> rfl

/-- Who waits. -/
theorem Asleeps.waits (asleep : Asleeps s qs) : s.Waits p ↔ p ∈ qs := by
  constructor
  · rintro ⟨rs, ring, member⟩
    have same := asleep.ring.unique ring
    rwa [List.map_injective_iff.mpr (Option.some_injective Nat) same]
  · exact fun member => ⟨qs, asleep.ring, member⟩

theorem Asleeps.enqueue (asleep : Asleeps s qs) (running : s.state s.current = .running) (live : s.current ∈ s.live) :
    Asleeps s.enqueue (s.current :: qs) := by
  have fresh : s.current ∉ qs := by
    intro waits
    rw [asleep.sleeps _ waits] at running
    cases running
  refine ⟨asleep.ring.add (by simpa using fresh), fun p waits => ?_, fun p waits => ?_⟩
  · by_cases here : p = s.current
    · rw [here]
      exact Function.update_self _ _ _
    · have before := (List.mem_cons.mp waits).resolve_left here
      exact (Function.update_of_ne here _ _).trans (asleep.sleeps p before)
  · rcases List.mem_cons.mp waits with rfl | before
    · exact live
    · exact asleep.live p before

structure Woken (s t : WaitQueue) (qs : List Nat) : Prop where
  queue : Ring t.waitq none []
  running : t.running = s.running.addAll s.idle qs
  state : t.state = fun p => if p ∈ qs then .running else s.state p
  idle : t.idle = s.idle
  current : t.current = s.current
  live : t.live = s.live

/-- The first task is woken. -/
theorem Asleeps.wakes (asleep : Asleeps s (p :: rs)) :
    Asleeps (s.wakeEntry p) rs ∧ (s.wakeEntry p).waitq.next (some p) = rs.head? := by
  have nodup := List.nodup_cons.mp asleep.nodup
  have queue : Ring s.waitq none ([] ++ some p :: rs.map some) := asleep.ring
  have ring : Ring (s.waitq.del (some p)) none (rs.map some) := queue.del
  refine ⟨⟨ring, fun q member => ?_, fun q member => asleep.live q (List.mem_cons_of_mem _ member)⟩, ?_⟩
  · have other : q ≠ p := fun same => nodup.1 (same ▸ member)
    change Function.update s.state p .running q = _
    rw [Function.update_of_ne other]
    exact asleep.sleeps q (List.mem_cons_of_mem _ member)
  · change (s.waitq.del (some p)).next (some p) = _
    have next : s.waitq.next (some p) = rs.head? := by
      have turned : Ring s.waitq (some p) (rs.map some ++ [none]) := queue.rotate
      rw [turned.path.next_headD]
      cases rs <;> rfl
    rw [Links.del_next, next, ite_self]

theorem wakeLoop_woken (rs : List Nat) : ∀ fuel s, Asleeps s rs → rs.length < fuel →
    ∃ t, WaitQueue.wakeLoop fuel rs.head? s = .ok t ∧ Woken s t rs := by
  induction rs with
  | nil =>
    intro fuel s asleep enough
    obtain ⟨fuel, rfl⟩ := Nat.exists_eq_succ_of_ne_zero (Nat.ne_of_gt enough)
    exact ⟨s, rfl, asleep.ring, rfl, by simp, rfl, rfl, rfl⟩
  | cons p rs ih =>
    intro fuel s asleep enough
    obtain ⟨fuel, rfl⟩ := Nat.exists_eq_succ_of_ne_zero (Nat.ne_of_gt (Nat.zero_lt_of_lt enough))
    obtain ⟨asleep', next⟩ := asleep.wakes
    obtain ⟨t, result, woken⟩ := ih fuel _ asleep' (Nat.lt_of_succ_lt_succ enough)
    have sleeps := asleep.sleeps p List.mem_cons_self
    refine ⟨t, ?_, woken.queue, woken.running, ?_, woken.idle, woken.current, woken.live⟩
    · rw [List.head?_cons, WaitQueue.wakeLoop, if_neg fun both => both.1 sleeps]
      dsimp only
      rw [next, result]
    · rw [woken.state]
      funext q
      by_cases here : q = p
      · subst here
        simp [WaitQueue.wakeEntry]
      · simp [WaitQueue.wakeEntry, here]

theorem Asleeps.wakeup (asleep : Asleeps s qs) : ∃ t, s.waitqueueWakeup = .ok t ∧ Woken s t qs := by
  obtain ⟨t, result, woken⟩ := wakeLoop_woken qs (s.live.card + 1) s asleep (Nat.lt_succ_of_le asleep.card)
  unfold WaitQueue.waitqueueWakeup
  rw [asleep.first, result]
  by_cases idle : t.current = t.idle
  · refine ⟨_, congrArg Except.ok (if_pos idle), ?_⟩
    exact ⟨woken.queue, woken.running, woken.state, woken.idle, woken.current, woken.live⟩
  · exact ⟨t, congrArg Except.ok (if_neg idle), woken⟩

/-! ### Runs -/

/-- A wait queue in use. `slept` says that the current task is between `waitqueue_sleep` and `schedule`. -/
structure Waiters extends WaitQueue where
  slept : Bool

inductive WaitEvent where
  | sleep
  | wakeup
  | schedule
  deriving DecidableEq

/-- A task, which `idle` is not, calls `schedule` after `waitqueue_sleep`, and a wakeup comes from an interrupt. -/
inductive WaitStep : Except WaitStop Waiters → WaitEvent → Except WaitStop Waiters → Prop where
  | sleep {s : Waiters} (task : s.current ≠ s.idle) (awake : s.slept = false) :
      WaitStep (.ok s) .sleep (s.toWaitQueue.waitqueueSleep.map fun t => ⟨t, true⟩)
  | wakeup {s : Waiters} : WaitStep (.ok s) .wakeup (s.toWaitQueue.waitqueueWakeup.map fun t => ⟨t, s.slept⟩)
  | schedule {s : Waiters} : WaitStep (.ok s) .schedule (.ok ⟨s.toWaitQueue.callSchedule, false⟩)

/-- The run list stays a circle with `idle`, and a wakeup empties the queue and leaves those who waited running
and linked. -/
def WakesAll (s : Except WaitStop Waiters) (e : WaitEvent) (t : Except WaitStop Waiters) : Prop :=
  ∀ w, s = .ok w → ∃ u ys, t = .ok u ∧ u.idle = w.idle ∧ Ring u.running u.idle ys ∧
    (e = .wakeup → Ring u.waitq none [] ∧ ∀ p, w.Waits p → u.state p = .running ∧ p ∈ ys)

def NoneBetween (s : Except WaitStop Waiters) (e : WaitEvent) (_ : Except WaitStop Waiters) : Prop :=
  e = .wakeup → ∀ w, s = .ok w → w.slept = false

/-- `ys` are linked after `idle`, and `qs` wait. -/
structure Queued (s : Waiters) (ys qs : List Nat) : Prop where
  runs : RunList s.toSched ys
  asleep : Asleeps s.toWaitQueue qs
  linked : ∀ p ∈ ys, s.state p = .running ∨ p = s.current ∧ s.slept = true
  slept : s.slept = true → s.current ∈ qs
  live : ∀ p ∈ ys, p ∈ s.live

variable {w : Waiters} {e : WaitEvent} {events : List WaitEvent}

theorem Queued.not_idle (queued : Queued w ys qs) (waits : p ∈ qs) : p ≠ w.idle := by
  rintro rfl
  have awake := queued.runs.awake
  rw [queued.asleep.sleeps _ waits] at awake
  cases awake

theorem Queued.away (queued : Queued w ys qs) (waits : p ∈ qs) (other : w.slept = true → p ≠ w.current) :
    p ∉ w.idle :: ys := by
  intro inside
  rcases List.mem_cons.mp inside with same | linked
  · exact queued.not_idle waits same
  · rcases queued.linked p linked with running | ⟨same, slept⟩
    · rw [queued.asleep.sleeps p waits] at running
      cases running
    · exact other slept same

/-- The current task sleeps, or it runs. -/
theorem Queued.current (queued : Queued w ys qs) :
    w.state w.current = .running ∧ w.slept = false ∨ w.current ∈ qs ∧ w.slept = true := by
  cases slept : w.slept with
  | true => exact Or.inr ⟨queued.slept slept, rfl⟩
  | false =>
    refine Or.inl ⟨?_, rfl⟩
    rcases List.mem_cons.mp queued.runs.current with same | linked
    · rw [same]
      exact queued.runs.awake
    · rcases queued.linked _ linked with running | ⟨-, sleeps⟩
      · exact running
      · rw [slept] at sleeps
        cases sleeps

theorem Queued.sleep (queued : Queued w ys qs) (task : w.current ≠ w.idle) (awake : w.slept = false) :
    w.toWaitQueue.waitqueueSleep = .ok w.toWaitQueue.enqueue ∧
      Queued ⟨w.toWaitQueue.enqueue, true⟩ ys (w.current :: qs) := by
  have linked := (List.mem_cons.mp queued.runs.current).resolve_left task
  have running : w.state w.current = .running := by
    rcases queued.current with ⟨running, -⟩ | ⟨-, slept⟩
    · exact running
    · rw [awake] at slept
      cases slept
  refine ⟨if_neg (not_not.mpr running), ⟨queued.runs.ring, queued.runs.current, ?_⟩,
    queued.asleep.enqueue running (queued.live _ linked), fun p inside => ?_, fun _ => List.mem_cons_self, queued.live⟩
  · exact (Function.update_of_ne task.symm _ _).trans queued.runs.awake
  · by_cases here : p = w.current
    · exact Or.inr ⟨here, rfl⟩
    · refine Or.inl ((Function.update_of_ne here _ _).trans ?_)
      exact (queued.linked p inside).resolve_right fun both => here both.1

theorem Queued.schedule (queued : Queued w ys qs) :
    Queued ⟨w.toWaitQueue.callSchedule, false⟩ (w.toSched.remaining ys) qs := by
  have live : w.toSched.schedule.live = w.live := by
    have alive : w.state w.current ≠ .zombie := by
      rcases queued.current with ⟨running, -⟩ | ⟨waits, -⟩
      · rw [running]
        decide
      · rw [queued.asleep.sleeps _ waits]
        decide
    exact Sched.schedule_live alive
  have state : w.toSched.schedule.state = w.state := Sched.schedule_state
  have stays : ∀ p ∈ w.toSched.remaining ys, p ∈ ys ∧ w.state p = .running := by
    intro p inside
    unfold Sched.remaining at inside
    split at inside
    · rename_i running
      refine ⟨inside, ?_⟩
      rcases queued.linked p inside with runs | ⟨same, -⟩
      · exact runs
      · rw [same]
        exact running
    · have nodup := (List.nodup_cons.mp queued.runs.ring.nodup).2
      obtain ⟨other, before⟩ := nodup.mem_erase_iff.mp inside
      exact ⟨before, (queued.linked p before).resolve_right fun both => other both.1⟩
  refine ⟨queued.runs.schedule.runs, ⟨queued.asleep.ring, fun p waits => ?_, fun p waits => ?_⟩, fun p inside => ?_,
    by simp, fun p inside => ?_⟩
  · exact (congrFun state p).trans (queued.asleep.sleeps p waits)
  · exact live.symm ▸ queued.asleep.live p waits
  · exact Or.inl ((congrFun state p).trans (stays p inside).2)
  · exact live.symm ▸ queued.live p (stays p inside).1

/-- A wakeup while nobody is about to call `schedule`. -/
theorem Queued.wakeup (queued : Queued w ys qs) (awake : w.slept = false) (woken : Woken w.toWaitQueue t qs) :
    Queued ⟨t, false⟩ (qs.reverse ++ ys) [] := by
  have ring : Ring t.running t.idle (qs.reverse ++ ys) := by
    rw [woken.running, woken.idle]
    apply queued.runs.ring.addAll _ queued.asleep.nodup
    intro q waits
    apply queued.away waits
    rw [awake]
    simp
  have runs : ∀ p, w.state p = .running ∨ p ∈ qs → t.state p = .running := by
    intro p which
    rw [woken.state]
    by_cases waits : p ∈ qs
    · exact if_pos waits
    · exact (if_neg waits).trans (which.resolve_right waits)
  refine ⟨⟨ring, ?_, ?_⟩, ⟨woken.queue, by simp, by simp⟩, fun p inside => Or.inl (runs p ?_), by simp,
    fun p inside => ?_⟩
  · change t.current ∈ t.idle :: _
    rw [woken.current, woken.idle]
    rcases List.mem_cons.mp queued.runs.current with same | linked
    · rw [same]
      exact List.mem_cons_self
    · exact List.mem_cons_of_mem _ (List.mem_append_right _ linked)
  · apply runs
    rw [woken.idle]
    exact Or.inl queued.runs.awake
  · rcases List.mem_append.mp inside with waits | linked
    · exact Or.inr (List.mem_reverse.mp waits)
    · refine Or.inl ((queued.linked p linked).resolve_right fun both => ?_)
      rw [awake] at both
      cases both.2
  · change p ∈ t.live
    rw [woken.live]
    rcases List.mem_append.mp inside with waits | linked
    · exact queued.asleep.live p (List.mem_reverse.mp waits)
    · exact queued.live p linked

/-- A wakeup while the current task is about to call `schedule` links it in a second time. -/
theorem Queued.spoils (queued : Queued w ys qs) (slept : w.slept = true) (woken : Woken w.toWaitQueue t qs) :
    Trapped t.running t.idle := by
  have waits := queued.slept slept
  have linked := (List.mem_cons.mp queued.runs.current).resolve_left (queued.not_idle waits)
  have nodup := queued.asleep.nodup
  obtain ⟨us, vs, rfl⟩ := List.mem_iff_append.mp waits
  have first : ∀ q ∈ us, q ≠ w.current := by
    rintro q inside rfl
    exact List.disjoint_of_nodup_append nodup inside List.mem_cons_self
  have ring : Ring (w.running.addAll w.idle us) w.idle (us.reverse ++ ys) := by
    apply queued.runs.ring.addAll _ nodup.of_append_left
    exact fun q inside => queued.away (List.mem_append_left _ inside) fun _ => first q inside
  rw [woken.running, woken.idle, Links.addAll, List.foldl_append, List.foldl_cons]
  apply (ring.add_again (List.mem_append_right _ linked)).addAll
  exact fun q inside => queued.not_idle (List.mem_append_right _ (List.mem_cons_of_mem _ inside))

/-! ### One step -/

/-- A step that keeps the run list, and is no wakeup. -/
theorem WakesAll.quiet {u : Waiters} (other : e ≠ .wakeup) (idle : u.idle = w.idle)
    (ring : Ring u.running u.idle ys) : WakesAll (.ok w) e (.ok u) := by
  intro v same
  obtain rfl := Except.ok.inj same
  exact ⟨u, ys, rfl, idle, ring, fun wakeup => absurd wakeup other⟩

theorem NoneBetween.quiet {s t : Except WaitStop Waiters} (other : e ≠ .wakeup) : NoneBetween s e t :=
  fun wakeup => absurd wakeup other

theorem Queued.wakes_iff (queued : Queued w ys qs) (woken : Woken w.toWaitQueue t qs) :
    WakesAll (.ok w) .wakeup (.ok ⟨t, w.slept⟩) ↔ w.slept = false := by
  constructor
  · intro wakes
    obtain ⟨u, ys', same, -, ring, -⟩ := wakes w rfl
    obtain rfl := Except.ok.inj same
    cases slept : w.slept with
    | false => rfl
    | true => exact absurd (queued.spoils slept woken) ring.not_trapped
  · intro awake v same
    obtain rfl := Except.ok.inj same
    refine ⟨_, qs.reverse ++ ys, rfl, woken.idle, (queued.wakeup awake woken).runs.ring, fun _ => ⟨woken.queue, ?_⟩⟩
    intro p waits
    have member := queued.asleep.waits.mp waits
    refine ⟨?_, List.mem_append_left _ (List.mem_reverse.mpr member)⟩
    change t.state p = .running
    rw [woken.state]
    exact if_pos member

theorem Queued.step {s : Except WaitStop Waiters} (queued : Queued w ys qs) (step : WaitStep (.ok w) e s) :
    (WakesAll (.ok w) e s ↔ NoneBetween (.ok w) e s) ∧
      (WakesAll (.ok w) e s → ∃ v ys qs, s = .ok v ∧ Queued v ys qs) := by
  cases step with
  | sleep task awake =>
    obtain ⟨slept, queued'⟩ := queued.sleep task awake
    rw [slept]
    refine ⟨iff_of_true ?_ (.quiet (by decide)), fun _ => ⟨_, _, _, rfl, queued'⟩⟩
    exact .quiet (by decide) rfl queued'.runs.ring
  | wakeup =>
    obtain ⟨t, returns, woken⟩ := queued.asleep.wakeup
    rw [returns]
    have wakes := queued.wakes_iff woken
    refine ⟨wakes.trans ⟨fun awake _ v same => ?_, fun none => none rfl w rfl⟩, fun all => ?_⟩
    · obtain rfl := Except.ok.inj same
      exact awake
    · have awake := wakes.mp all
      rw [awake]
      exact ⟨_, _, _, rfl, queued.wakeup awake woken⟩
  | schedule =>
    refine ⟨iff_of_true ?_ (.quiet (by decide)), fun _ => ⟨_, _, _, rfl, queued.schedule⟩⟩
    exact .quiet (by decide) Sched.schedule_idle queued.schedule.runs.ring

/-- The wakeups of a run wake every task that waits and keep the run list exactly when none of them comes between
`waitqueue_sleep` and `schedule`. -/
theorem waitqueue_wakes_iff (w : Waiters) (ys qs : List Nat) (start : Queued w ys qs) (events : List WaitEvent) :
    Throughout WaitStep WakesAll (.ok w) events ↔ Throughout WaitStep NoneBetween (.ok w) events := by
  apply Throughout.congr (fun s => ∃ v ys qs, s = .ok v ∧ Queued v ys qs) ⟨w, ys, qs, rfl, start⟩
  · intro s e t good step
    obtain ⟨v, ys, qs, rfl, queued⟩ := good
    exact (queued.step step).1
  · intro s e t good step
    obtain ⟨v, ys, qs, rfl, queued⟩ := good
    exact (queued.step step).2

def twoReaders : Waiters := ⟨⟨twoTasks, ⟨fun _ => none, fun _ => none⟩⟩, false⟩

theorem twoReaders_queued : Queued twoReaders [1, 2] [] where
  runs := ⟨twoTasks_runs.ring, twoTasks_runs.current, twoTasks_runs.awake⟩
  asleep := ⟨⟨⟨rfl, rfl⟩, List.nodup_singleton none⟩, by simp, by simp⟩
  linked := fun _ _ => Or.inl rfl
  slept := by decide
  live := by decide

theorem waitqueue_wakes_iff_two : Throughout WaitStep WakesAll (.ok twoReaders) [.sleep, .schedule, .wakeup] ↔
    Throughout WaitStep NoneBetween (.ok twoReaders) [.sleep, .schedule, .wakeup] :=
  waitqueue_wakes_iff twoReaders [1, 2] [] twoReaders_queued _

/-- The interrupt comes before the task has called `schedule`. -/
theorem wakeup_before_schedule : ¬ ∀ (w : Waiters) (ys qs : List Nat) (events : List WaitEvent), Queued w ys qs →
    Throughout WaitStep WakesAll (.ok w) events := by
  intro all
  obtain ⟨-, queued⟩ := twoReaders_queued.sleep (by decide) rfl
  obtain ⟨u, returns, woken⟩ := queued.asleep.wakeup
  have first : WaitStep (.ok twoReaders) .sleep (.ok ⟨twoReaders.toWaitQueue.enqueue, true⟩) :=
    .sleep (by decide) rfl
  have second : WaitStep (.ok ⟨twoReaders.toWaitQueue.enqueue, true⟩) .wakeup (.ok ⟨u, true⟩) := by
    have step := WaitStep.wakeup (s := ⟨twoReaders.toWaitQueue.enqueue, true⟩)
    rwa [returns] at step
  have wakes := all twoReaders [1, 2] [] [.sleep, .wakeup] twoReaders_queued [.sleep] .wakeup [] _ _ rfl
    (.single first) second
  obtain ⟨v, ys, same, -, ring, -⟩ := wakes _ rfl
  obtain rfl := Except.ok.inj same
  exact ring.not_trapped (queued.spoils rfl woken)

end Landaux
