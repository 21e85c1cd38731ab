import Landaux.Drivers.Keyboard
import Landaux.Kernel.WaitQueue

/-!
# Reading from the console

`console_read` waits on `q` while `len` is 0, and `keyboard_irq` wakes the tasks on `q` when it has added a
character. An interrupt may come between any two statements of `console_read` at which interrupts are enabled.
-/

namespace Landaux
open Lib

/-- Where a task is in `console_read`, with its `size`. -/
inductive ReadPoint where
  /-- not in `console_read` -/
  | away
  /-- before the test of `len` -/
  | test (size : Nat)
  /-- `len` was 0, and `waitqueue_sleep` has not disabled the interrupts -/
  | tested (size : Nat)
  /-- between `waitqueue_sleep` and `schedule` -/
  | slept (size : Nat)
  /-- behind the loop -/
  | take (size : Nat)
  deriving DecidableEq

structure ConsoleTasks extends WaitQueue where
  keyboard : Keyboard
  point : Nat → ReadPoint

namespace ConsoleTasks

def goOn (s : ConsoleTasks) (p : ReadPoint) : ConsoleTasks :=
  { s with point := Function.update s.point s.current p }

def keyboardIrq (s : ConsoleTasks) (key : UInt8) : Except WaitStop ConsoleTasks :=
  if key &&& 0x80 ≠ 0 then .ok s
  else if s.keyboard.len ≥ BUFSIZE then .ok s
  else if table.getD key.toNat 0 = 0 then .ok s
  else s.toWaitQueue.waitqueueWakeup.map fun q =>
    { s with toWaitQueue := q, keyboard := Keyboard.keyboardIrq key s.keyboard }

def Accepts (s : ConsoleTasks) (key : UInt8) : Prop :=
  key &&& 0x80 = 0 ∧ s.keyboard.len < BUFSIZE ∧ table.getD key.toNat 0 ≠ 0

def InRunList (s : ConsoleTasks) (p : Nat) : Prop := ∃ k, s.running.next^[k] s.idle = p

/-- A task that waits for a character while there is one. -/
def MissedWakeup (s : ConsoleTasks) : Prop :=
  ∃ p, ¬ s.InRunList p ∧ s.state p = .interruptible ∧ s.toWaitQueue.Waits p ∧ 0 < s.keyboard.len

end ConsoleTasks

inductive ReadEvent where
  | call (size : Nat)
  | test
  | sleep
  | schedule
  | take
  | key (key : UInt8)
  deriving DecidableEq

/-- The statements of the tasks that read, and the interrupts of the keyboard. A task that is not in
`console_read` calls `schedule` at any time. -/
inductive ReadStep : Except WaitStop ConsoleTasks → ReadEvent → Except WaitStop ConsoleTasks → Prop where
  | call {s : ConsoleTasks} {size : Nat} (task : s.current ≠ s.idle) (here : s.point s.current = .away)
      (some : size ≠ 0) : ReadStep (.ok s) (.call size) (.ok (s.goOn (.test size)))
  | test {s : ConsoleTasks} {size : Nat} (here : s.point s.current = .test size) :
      ReadStep (.ok s) .test (.ok (s.goOn (if s.keyboard.len = 0 then .tested size else .take size)))
  | sleep {s : ConsoleTasks} {size : Nat} (here : s.point s.current = .tested size) : ReadStep (.ok s) .sleep
      (s.toWaitQueue.waitqueueSleep.map fun q => { s.goOn (.slept size) with toWaitQueue := q })
  | schedule {s : ConsoleTasks} {size : Nat} (here : s.point s.current = .slept size) : ReadStep (.ok s) .schedule
      (.ok { s.goOn (.test size) with toWaitQueue := s.toWaitQueue.callSchedule })
  | yield {s : ConsoleTasks} (here : s.point s.current = .away) :
      ReadStep (.ok s) .schedule (.ok { s with toWaitQueue := s.toWaitQueue.callSchedule })
  | take {s : ConsoleTasks} {size : Nat} (here : s.point s.current = .take size) :
      ReadStep (.ok s) .take (.ok { s.goOn .away with keyboard := (s.keyboard.consoleRead size).2 })
  | key {s : ConsoleTasks} (key : UInt8) : ReadStep (.ok s) (.key key) (s.keyboardIrq key)

/-- No key is accepted between the test of `len` and `waitqueue_sleep`. -/
def NoKeyBetween (s : Except WaitStop ConsoleTasks) (e : ReadEvent) (_ : Except WaitStop ConsoleTasks) : Prop :=
  ∀ key w size, e = .key key → s = .ok w → w.point w.current = .tested size → ¬ w.Accepts key

/-- A statement and a key have one outcome. -/
theorem ReadStep.unique {e : ReadEvent} {r u v : Except WaitStop ConsoleTasks} (one : ReadStep r e u)
    (two : ReadStep r e v) : v = u := by
  cases one with
  | call => cases two; rfl
  | test here =>
    cases two with
    | test here' => rw [ReadPoint.test.inj (here.symm.trans here')]
  | sleep here =>
    cases two with
    | sleep here' => rw [ReadPoint.tested.inj (here.symm.trans here')]
  | schedule here =>
    cases two with
    | schedule here' => rw [ReadPoint.slept.inj (here.symm.trans here')]
    | yield away => cases here.symm.trans away
  | yield away =>
    cases two with
    | schedule here => cases here.symm.trans away
    | yield => rfl
  | take here =>
    cases two with
    | take here' => rw [ReadPoint.take.inj (here.symm.trans here')]
  | key => cases two; rfl

/-! ### The tasks that are not freed -/

/-- The links of the run list stay in `C`, where no task is freed. -/
structure Tasks (s : WaitQueue) (C : Set Nat) : Prop where
  idle : s.idle ∈ C
  current : s.current ∈ C
  closed : s.running.Closed C
  alive : ∀ p ∈ C, p ∈ s.live ∧ s.state p ≠ .zombie

variable {s t : ConsoleTasks} {q : WaitQueue} {C : Set Nat} {qs ys : List Nat} {size : Nat}
  {k : UInt8} {e : ReadEvent} {events : List ReadEvent}

theorem Tasks.enqueue (tasks : Tasks s.toWaitQueue C) : Tasks s.toWaitQueue.enqueue C := by
  refine ⟨tasks.idle, tasks.current, tasks.closed, fun p inside => ⟨(tasks.alive p inside).1, ?_⟩⟩
  change Function.update s.state s.current .interruptible p ≠ _
  by_cases here : p = s.current
  · rw [here, Function.update_self]
    decide
  · rw [Function.update_of_ne here]
    exact (tasks.alive p inside).2

theorem Tasks.woken (tasks : Tasks s.toWaitQueue C) (waiting : ∀ p ∈ qs, p ∈ C) (woken : Woken s.toWaitQueue q qs) :
    Tasks q C := by
  refine ⟨?_, ?_, ?_, fun p inside => ⟨?_, ?_⟩⟩
  · rw [woken.idle]
    exact tasks.idle
  · rw [woken.current]
    exact tasks.current
  · rw [woken.running]
    exact tasks.closed.addAll tasks.idle waiting
  · rw [woken.live]
    exact (tasks.alive p inside).1
  · rw [woken.state]
    dsimp only
    split
    · decide
    · exact (tasks.alive p inside).2

theorem Tasks.schedule (tasks : Tasks s.toWaitQueue C) : Tasks s.toWaitQueue.callSchedule C := by
  have unlinked : s.toSched.unlinked.Closed C := by
    unfold Sched.unlinked
    split
    · exact tasks.closed
    · exact tasks.closed.del tasks.current
  have next := tasks.closed _ tasks.current
  refine ⟨?_, ?_, ?_, fun p inside => ⟨?_, ?_⟩⟩
  · change s.toSched.schedule.idle ∈ C
    rw [Sched.schedule_idle]
    exact tasks.idle
  · change s.toSched.schedule.current ∈ C
    rw [Sched.schedule_current]
    unfold Sched.choice
    dsimp only
    split
    · exact unlinked _ next
    · exact next
  · change s.toSched.schedule.running.Closed C
    rw [Sched.schedule_running]
    exact unlinked
  · change p ∈ s.toSched.schedule.live
    rw [Sched.schedule_live (tasks.alive _ tasks.current).2]
    exact (tasks.alive p inside).1
  · change s.toSched.schedule.state p ≠ _
    rw [Sched.schedule_state]
    exact (tasks.alive p inside).2

/-! ### Steps -/

/-- Nobody waits while there is a character, nor is about to. -/
structure Readers (s : ConsoleTasks) (C : Set Nat) (qs : List Nat) : Prop where
  tasks : Tasks s.toWaitQueue C
  asleep : Asleeps s.toWaitQueue qs
  known : ∀ p ∈ qs, p ∈ C
  empty : ∀ p ∈ qs, s.keyboard.len = 0
  tested : ∀ p size, s.point p = .tested size → p = s.current ∧ s.keyboard.len = 0

/-- The current task goes on to a point at which it may be. -/
theorem Readers.goOn {p : ReadPoint} (readers : Readers s C qs)
    (may : ∀ size, p = .tested size → s.keyboard.len = 0) : Readers (s.goOn p) C qs := by
  refine ⟨readers.tasks, readers.asleep, readers.known, readers.empty, fun r size tested => ?_⟩
  change Function.update s.point s.current p r = _ at tested
  by_cases here : r = s.current
  · rw [here, Function.update_self] at tested
    exact ⟨here, may size tested⟩
  · rw [Function.update_of_ne here] at tested
    exact absurd (readers.tested r size tested).1 here

theorem Readers.sleep (readers : Readers s C qs) (here : s.point s.current = .tested size)
    (running : s.state s.current = .running) :
    Readers { s.goOn (.slept size) with toWaitQueue := s.toWaitQueue.enqueue } C (s.current :: qs) := by
  have current := readers.tasks.current
  have next : Readers (s.goOn (.slept size)) C qs := readers.goOn (by simp)
  have len := (readers.tested _ _ here).2
  refine ⟨readers.tasks.enqueue, readers.asleep.enqueue running (readers.tasks.alive _ current).1, ?_,
    fun _ _ => len, next.tested⟩
  intro p waits
  rcases List.mem_cons.mp waits with rfl | before
  · exact current
  · exact readers.known p before

/-- A task that is not before `waitqueue_sleep` calls `schedule`. -/
theorem Readers.schedule (readers : Readers s C qs) (other : ∀ size, s.point s.current ≠ .tested size) :
    Readers { s with toWaitQueue := s.toWaitQueue.callSchedule } C qs := by
  have alive := (readers.tasks.alive _ readers.tasks.current).2
  refine ⟨readers.tasks.schedule, ⟨readers.asleep.ring, fun p waits => ?_, fun p waits => ?_⟩, readers.known,
    readers.empty, fun p size tested => ?_⟩
  · exact (congrFun Sched.schedule_state p).trans (readers.asleep.sleeps p waits)
  · change p ∈ s.toSched.schedule.live
    rw [Sched.schedule_live alive]
    exact readers.asleep.live p waits
  · obtain ⟨here, -⟩ := readers.tested p size tested
    exact absurd (here ▸ tested) (other size)

/-- An interrupt wakes all who wait when it adds a character, and does nothing else. -/
theorem keyboardIrq_cases (asleep : Asleeps s.toWaitQueue qs) : s.keyboardIrq k = .ok s ∨
    s.Accepts k ∧ ∃ q, Woken s.toWaitQueue q qs ∧ s.keyboardIrq k = .ok
      { s with toWaitQueue := q, keyboard := Keyboard.keyboardIrq k s.keyboard } := by
  unfold ConsoleTasks.keyboardIrq
  split
  · exact Or.inl rfl
  rename_i press
  split
  · exact Or.inl rfl
  rename_i room
  split
  · exact Or.inl rfl
  rename_i entry
  obtain ⟨q, returns, woken⟩ := asleep.wakeup
  rw [returns]
  exact Or.inr ⟨⟨not_not.mp press, not_le.mp room, entry⟩, q, woken, rfl⟩

theorem Readers.key (readers : Readers s C qs)
    (between : ∀ size, s.point s.current = .tested size → ¬ s.Accepts k) :
    ∃ t, s.keyboardIrq k = .ok t ∧ ∃ rs, Readers t C rs := by
  rcases keyboardIrq_cases readers.asleep with same | ⟨accepts, q, woken, returns⟩
  · exact ⟨s, same, qs, readers⟩
  refine ⟨_, returns, [], readers.tasks.woken readers.known woken, ⟨woken.queue, ?_, ?_⟩, ?_, ?_,
    fun p size tested => ?_⟩
  iterate 4 exact fun p none => absurd none List.not_mem_nil
  obtain ⟨rfl, -⟩ := readers.tested p size tested
  exact absurd accepts (between size tested)

/-- What a step keeps when no key comes between the test and `waitqueue_sleep`. -/
theorem Readers.step (readers : Readers s C qs) (step : ReadStep (.ok s) e (.ok t))
    (between : NoKeyBetween (.ok s) e (.ok t)) : ∃ rs, Readers t C rs := by
  generalize result : Except.ok t = r at step
  cases step with
  | call task here some =>
    obtain rfl := Except.ok.inj result
    exact ⟨qs, readers.goOn (by simp)⟩
  | test here =>
    obtain rfl := Except.ok.inj result
    refine ⟨qs, readers.goOn fun size tested => ?_⟩
    by_contra waits
    rw [if_neg waits] at tested
    cases tested
  | sleep here =>
    unfold WaitQueue.waitqueueSleep at result
    by_cases running : s.state s.current = .running
    · rw [if_neg (not_not.mpr running)] at result
      obtain rfl := Except.ok.inj result
      exact ⟨_, readers.sleep here running⟩
    · rw [if_pos running] at result
      cases result
  | @schedule _ size here =>
    obtain rfl := Except.ok.inj result
    have next : Readers (s.goOn (.test size)) C qs := readers.goOn (by simp)
    refine ⟨qs, next.schedule fun size tested => ?_⟩
    simp [ConsoleTasks.goOn] at tested
  | yield here =>
    obtain rfl := Except.ok.inj result
    refine ⟨qs, readers.schedule fun size tested => ?_⟩
    rw [here] at tested
    cases tested
  | @take _ size here =>
    obtain rfl := Except.ok.inj result
    have next : Readers (s.goOn .away) C qs := readers.goOn (by simp)
    have less : s.keyboard.len = 0 → (s.keyboard.consoleRead size).2.len = 0 := fun none => by
      simp [Keyboard.consoleRead, none]
    exact ⟨qs, next.tasks, next.asleep, next.known, fun p waits => less (readers.empty p waits),
      fun p size tested => (next.tested p size tested).imp_right less⟩
  | key key =>
    obtain ⟨u, returns, rs, readers'⟩ := readers.key fun size tested => between key s size rfl rfl tested
    obtain rfl := Except.ok.inj (result.trans returns)
    exact ⟨rs, readers'⟩

theorem Readers.none_missed (readers : Readers s C qs) : ¬ s.MissedWakeup := by
  rintro ⟨p, -, -, waits, some⟩
  rw [readers.empty p (readers.asleep.waits.mp waits)] at some
  exact absurd some (lt_irrefl 0)

/-! ### Runs -/

structure NoReader (s : ConsoleTasks) (ys : List Nat) : Prop where
  runs : RunList s.toSched ys
  awake : ∀ p ∈ s.idle :: ys, p ∈ s.live ∧ s.state p = .running
  queue : Ring s.waitq none []
  away : ∀ p, s.point p = .away

theorem NoReader.readers (none : NoReader s ys) : Readers s {p | p ∈ s.idle :: ys} [] := by
  refine ⟨⟨List.mem_cons_self, none.runs.current, none.runs.ring.closed, fun p inside => ?_⟩,
    ⟨none.queue, by simp, by simp⟩, by simp, by simp, fun p size tested => ?_⟩
  · obtain ⟨live, running⟩ := none.awake p inside
    exact ⟨live, running ▸ by decide⟩
  · rw [none.away] at tested
    cases tested

/-- A state without an error is one in which nobody waits while there is a character. -/
def Attended (C : Set Nat) (r : Except WaitStop ConsoleTasks) : Prop := ∀ u, r = .ok u → ∃ rs, Readers u C rs

/-- In a run in which no key comes between the test and `waitqueue_sleep`, no task waits while there is a
character. -/
theorem console_wakes (s : ConsoleTasks) (ys : List Nat) (start : NoReader s ys) (events : List ReadEvent)
    (t : ConsoleTasks) (run : Run ReadStep (.ok s) events (.ok t))
    (between : Throughout ReadStep NoKeyBetween (.ok s) events) : ¬ t.MissedWakeup := by
  have attended : Attended {p | p ∈ s.idle :: ys} (.ok t) := by
    apply between.invariant run
    · intro u same
      obtain rfl := Except.ok.inj same
      exact ⟨[], start.readers⟩
    · intro r e r' ih step holds u same
      subst same
      cases r with
      | error stop => cases step
      | ok v =>
        obtain ⟨rs, readers⟩ := ih v rfl
        exact readers.step step holds
  obtain ⟨rs, readers⟩ := attended t rfl
  exact readers.none_missed

/-- The task 2 runs, and no key was typed. -/
def reading : ConsoleTasks := ⟨twoReaders.toWaitQueue, .boot, fun _ => .away⟩

theorem reading_start : NoReader reading [1, 2] where
  runs := ⟨twoTasks_runs.ring, twoTasks_runs.current, twoTasks_runs.awake⟩
  awake := fun p inside => ⟨by revert p; decide, rfl⟩
  queue := twoReaders_queued.asleep.ring
  away := fun _ => rfl

/-- The task has found nothing, and is in the queue. -/
def readerQueued : ConsoleTasks :=
  let found := (reading.goOn (.test 1)).goOn (.tested 1)
  { found.goOn (.slept 1) with toWaitQueue := found.toWaitQueue.enqueue }

/-- The next task runs. -/
def readerAsleep : ConsoleTasks :=
  { readerQueued.goOn (.test 1) with toWaitQueue := readerQueued.toWaitQueue.callSchedule }

theorem console_wakes_call : ∃ t : ConsoleTasks,
    Run ReadStep (.ok reading) [.call 1, .test, .sleep, .schedule, .key 30] (.ok t) ∧
      t.keyboard.len = 1 ∧ t.state 2 = .running ∧ ¬ t.MissedWakeup := by
  obtain ⟨t, wakes, len, awake⟩ : ∃ t, readerAsleep.keyboardIrq 30 = .ok t ∧ t.keyboard.len = 1 ∧ t.state 2 = .running :=
    ⟨_, rfl, rfl, rfl⟩
  have first : ReadStep (.ok reading) (.call 1) (.ok (reading.goOn (.test 1))) := .call (by decide) rfl (by decide)
  have second : ReadStep (.ok (reading.goOn (.test 1))) .test (.ok ((reading.goOn (.test 1)).goOn (.tested 1))) :=
    .test rfl
  have third : ReadStep (.ok ((reading.goOn (.test 1)).goOn (.tested 1))) .sleep (.ok readerQueued) := .sleep rfl
  have fourth : ReadStep (.ok readerQueued) .schedule (.ok readerAsleep) := .schedule rfl
  have fifth : ReadStep (.ok readerAsleep) (.key 30) (.ok t) := wakes ▸ .key 30
  have run : Run ReadStep (.ok reading) [.call 1, .test, .sleep, .schedule, .key 30] (.ok t) :=
    .cons first (.cons second (.cons third (.cons fourth (.single fifth))))
  -- when the key comes, the task that reads is not the one that runs
  have between : Throughout ReadStep NoKeyBetween (.ok reading) [.call 1, .test, .sleep, .schedule, .key 30] := by
    have quiet : ∀ {r e r'}, (∀ key, e ≠ .key key) → NoKeyBetween r e r' := fun other key _ _ is => absurd is (other key)
    refine .cons (fun _ => first.unique) (quiet (by simp)) (.cons (fun _ => second.unique) (quiet (by simp))
      (.cons (fun _ => third.unique) (quiet (by simp)) (.cons (fun _ => fourth.unique) (quiet (by simp))
        (.cons (fun _ => fifth.unique) ?_ .nil))))
    intro key w size _ same tested
    obtain rfl := Except.ok.inj same
    cases tested
  exact ⟨t, run, len, awake, console_wakes reading [1, 2] reading_start _ t run between⟩

/-- The task has found nothing, and then a key is typed. -/
def keyTyped : ConsoleTasks :=
  { (reading.goOn (.test 1)).goOn (.tested 1) with keyboard := Keyboard.keyboardIrq 30 .boot }

/-- It goes on to sleep. -/
def keyMissed : ConsoleTasks := { keyTyped.goOn (.slept 1) with toWaitQueue := keyTyped.toWaitQueue.enqueue }

theorem key_before_sleep : ¬ ∀ (s : ConsoleTasks) (ys : List Nat) (events : List ReadEvent) (t : ConsoleTasks),
    NoReader s ys → Run ReadStep (.ok s) events (.ok t) → ¬ t.MissedWakeup := by
  intro all
  have first : ReadStep (.ok reading) (.call 1) (.ok (reading.goOn (.test 1))) := .call (by decide) rfl (by decide)
  have second : ReadStep (.ok (reading.goOn (.test 1))) .test (.ok ((reading.goOn (.test 1)).goOn (.tested 1))) :=
    .test rfl
  have third : ReadStep (.ok ((reading.goOn (.test 1)).goOn (.tested 1))) (.key 30) (.ok keyTyped) := .key 30
  have fourth : ReadStep (.ok keyTyped) .sleep (.ok keyMissed) := .sleep rfl
  have fifth : ReadStep (.ok keyMissed) .schedule
      (.ok { keyMissed.goOn (.test 1) with toWaitQueue := keyMissed.toWaitQueue.callSchedule }) := .schedule rfl
  apply all reading [1, 2] _ _ reading_start (.cons first (.cons second (.cons third (.cons fourth (.single fifth)))))
  refine ⟨2, ?_, rfl, ⟨[2], ⟨⟨⟨rfl, rfl⟩, rfl, rfl⟩, by decide⟩, by decide⟩, by decide⟩
  rintro ⟨k, here⟩
  have closed : keyMissed.toSched.schedule.running.Closed {0, 1} := by
    rintro c (rfl | rfl)
    · exact Or.inr rfl
    · exact Or.inl rfl
  have inside := closed.iterate (Or.inl rfl : 0 ∈ ({0, 1} : Set Nat)) k
  rw [show keyMissed.toSched.schedule.running.next^[k] 0 = 2 from here] at inside
  rcases inside with h | h <;> cases h

end Landaux
