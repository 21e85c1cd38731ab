import Landaux.Kernel.RoundRobin
import Landaux.Lib.Machine
import Mathlib.Algebra.Order.Archimedean.Real.Basic

/-!
# Sleeping for a time

`sys_usleep` puts the task into `timerq` with a deadline in ticks, and each tick wakes the tasks whose
deadline it has reached.
-/

namespace Landaux
open Lib

variable {s t : Sched} {qs rs kept : List Nat} {now p q j n time fuel : Nat} {us : Int}

/-- `qs` are the sleepers, in the order of the list. -/
structure Sleepers (s : Sched) (qs : List Nat) : Prop where
  ring : Ring s.sleepq none (qs.map some)
  timers : s.timers = qs.toFinset

theorem Sleepers.nodup (sleepers : Sleepers s qs) : qs.Nodup :=
  (List.nodup_cons.mp sleepers.ring.nodup).2.of_map

theorem Sleepers.card (sleepers : Sleepers s qs) : s.timers.card = qs.length := by
  rw [sleepers.timers, List.toFinset_card_of_nodup sleepers.nodup]

theorem Sleepers.mem (sleepers : Sleepers s qs) : q ∈ s.timers ↔ q ∈ qs := by
  rw [sleepers.timers, List.mem_toFinset]

/-! ### The loop of a tick -/

namespace Sched

@[simp] theorem tickEntry_wait : (s.tickEntry now q).wait = s.wait := by
  unfold tickEntry wake
  split
  · dsimp only
    split <;> rfl
  · rfl

@[simp] theorem tickEntry_jiffies : (s.tickEntry now q).jiffies = s.jiffies := by
  unfold tickEntry wake
  split
  · dsimp only
    split <;> rfl
  · rfl

theorem tickEntry_due (due : (s.wait q).time ≤ now) : (s.tickEntry now q).sleepq = s.sleepq.del (some q) ∧
    (s.tickEntry now q).timers = s.timers.erase q ∧
    (s.tickEntry now q).state = Function.update s.state (s.wait q).task .running ∧
    (s.tickEntry now q).woken = s.woken ++ [(s.jiffies, (s.wait q).task)] := by
  unfold tickEntry wake
  rw [if_pos due]
  dsimp only
  split <;> exact ⟨rfl, rfl, rfl, rfl⟩

theorem tickEntry_early (early : now < (s.wait q).time) : s.tickEntry now q = s := if_neg (not_le.mpr early)

end Sched

/-- What the loop of a tick does with the sleepers `rs` that are left, after it has kept `kept`. -/
structure Ticked (now : Nat) (s t : Sched) (kept rs : List Nat) : Prop where
  sleepers : Sleepers t (kept ++ rs.filter fun q => now < (s.wait q).time)
  wait : t.wait = s.wait
  jiffies : t.jiffies = s.jiffies
  state : ∀ p, s.state p = .running ∨ (∃ q ∈ rs, (s.wait q).time ≤ now ∧ (s.wait q).task = p) → t.state p = .running
  woken : t.woken = s.woken ++ (rs.filter fun q => (s.wait q).time ≤ now).map fun q => (s.jiffies, (s.wait q).task)

theorem Sleepers.next (sleepers : Sleepers s (kept ++ q :: rs)) : s.sleepq.next (some q) = rs.head? := by
  have ring := sleepers.ring
  rw [List.map_append, List.map_cons] at ring
  rw [ring.rotate.path.next_headD]
  cases rs <;> rfl

/-- One turn of the loop for a sleeper whose deadline is reached. -/
theorem Sleepers.wakes (sleepers : Sleepers s (kept ++ q :: rs)) (due : (s.wait q).time ≤ now) :
    Sleepers (s.tickEntry now q) (kept ++ rs) ∧ (s.tickEntry now q).sleepq.next (some q) = rs.head? := by
  obtain ⟨sleepq, timers, -, -⟩ := Sched.tickEntry_due due
  have nodup := sleepers.nodup
  have off : q ∉ kept := fun inside => List.disjoint_of_nodup_append nodup inside List.mem_cons_self
  refine ⟨⟨?_, ?_⟩, ?_⟩
  · rw [sleepq, List.map_append]
    apply Ring.del
    rw [← List.map_cons, ← List.map_append]
    exact sleepers.ring
  · rw [timers, sleepers.timers]
    have erased : (kept ++ q :: rs).erase q = kept ++ rs := by
      rw [List.erase_append_right _ off, List.erase_cons_head]
    rw [← erased]
    ext x
    rw [Finset.mem_erase, List.mem_toFinset, List.mem_toFinset, nodup.mem_erase_iff]
  · rw [sleepq, Links.del_next, sleepers.next]
    split <;> rfl

theorem tickLoop_ticked (now : Nat) (rs : List Nat) : ∀ fuel kept s, Sleepers s (kept ++ rs) → rs.length < fuel →
    ∃ t, Sched.tickLoop now fuel rs.head? s = .ok t ∧ Ticked now s t kept rs := by
  induction rs with
  | nil =>
    intro fuel kept s sleepers enough
    obtain ⟨fuel, rfl⟩ := Nat.exists_eq_succ_of_ne_zero (Nat.ne_of_gt enough)
    refine ⟨s, rfl, sleepers, rfl, rfl, ?_, (List.append_nil _).symm⟩
    intro p runs
    rcases runs with runs | ⟨q, member, -⟩
    · exact runs
    · exact absurd member List.not_mem_nil
  | cons q rs ih =>
    intro fuel kept s sleepers enough
    obtain ⟨fuel, rfl⟩ := Nat.exists_eq_succ_of_ne_zero (Nat.ne_of_gt (Nat.zero_lt_of_lt enough))
    have enough' : rs.length < fuel := Nat.lt_of_succ_lt_succ enough
    have live : q ∈ s.timers := sleepers.mem.mpr (by simp)
    rw [List.head?_cons, Sched.tickLoop, if_neg (not_not.mpr live)]
    dsimp only
    by_cases due : (s.wait q).time ≤ now
    · obtain ⟨sleepers', next⟩ := sleepers.wakes due
      obtain ⟨-, -, state, woken⟩ := Sched.tickEntry_due due
      obtain ⟨t, result, ticked⟩ := ih fuel kept _ sleepers' enough'
      rw [next]
      refine ⟨t, result, ?_, ?_, ?_, ?_, ?_⟩
      · have left := ticked.sleepers
        rw [Sched.tickEntry_wait] at left
        rwa [List.filter_cons_of_neg (by simpa using due)]
      · exact ticked.wait.trans Sched.tickEntry_wait
      · exact ticked.jiffies.trans Sched.tickEntry_jiffies
      · intro p runs
        apply ticked.state
        rw [Sched.tickEntry_wait, state]
        by_cases here : p = (s.wait q).task
        · rw [here, Function.update_self]
          exact Or.inl rfl
        rw [Function.update_of_ne here]
        rcases runs with runs | ⟨r, member, reached, task⟩
        · exact Or.inl runs
        · rcases List.mem_cons.mp member with rfl | later
          · exact absurd task.symm here
          · exact Or.inr ⟨r, later, reached, task⟩
      · rw [ticked.woken, Sched.tickEntry_wait, Sched.tickEntry_jiffies, woken,
          List.filter_cons_of_pos (by simpa using due), List.map_cons, List.append_assoc, List.singleton_append]
    · rw [not_le] at due
      have sleepers' : Sleepers s ((kept ++ [q]) ++ rs) := by rwa [List.append_assoc]
      obtain ⟨t, result, ticked⟩ := ih fuel (kept ++ [q]) s sleepers' enough'
      rw [Sched.tickEntry_early due, sleepers.next]
      refine ⟨t, result, ?_, ticked.wait, ticked.jiffies, ?_, ?_⟩
      · have left := ticked.sleepers
        rwa [List.append_assoc, List.singleton_append, ← List.filter_cons_of_pos (by simpa using due)] at left
      · intro p runs
        apply ticked.state p
        rcases runs with runs | ⟨r, member, reached, task⟩
        · exact Or.inl runs
        · rcases List.mem_cons.mp member with rfl | later
          · exact absurd due (not_lt.mpr reached)
          · exact Or.inr ⟨r, later, reached, task⟩
      · rw [ticked.woken, List.filter_cons_of_neg (by simpa using due)]

/-! ### Ticks and calls -/

@[simp] theorem tickTimeslice_fields : s.tickTimeslice.sleepq = s.sleepq ∧ s.tickTimeslice.timers = s.timers ∧
    s.tickTimeslice.wait = s.wait ∧ s.tickTimeslice.jiffies = s.jiffies ∧ s.tickTimeslice.state = s.state ∧
    s.tickTimeslice.woken = s.woken := by
  unfold Sched.tickTimeslice
  dsimp only
  generalize Sched.dec32 (s.timeslice s.current) = left
  split <;> exact ⟨rfl, rfl, rfl, rfl, rfl, rfl⟩

/-- `do_timer` returns; `now` is the number of the tick. -/
theorem doTimer_ticked (sleepers : Sleepers s qs) (number : (s.jiffies + 1) % 2 ^ 64 = now) :
    ∃ t, s.doTimer = .ok t ∧ Ticked now { s with jiffies := now } t [] qs := by
  have sleepers' : Sleepers { s with jiffies := now } ([] ++ qs) := ⟨sleepers.ring, sleepers.timers⟩
  obtain ⟨t, result, ticked⟩ := tickLoop_ticked now qs (qs.length + 1) [] _ sleepers' (Nat.lt_succ_self _)
  have first : s.sleepq.next none = qs.head? := by
    rw [sleepers.ring.path.next_headD]
    cases qs <;> rfl
  obtain ⟨sleepq, timers, wait, jiffies, state, woken⟩ := tickTimeslice_fields (s := t)
  refine ⟨t.tickTimeslice, ?_, ⟨?_, ?_⟩, ?_, ?_, ?_, ?_⟩
  · unfold Sched.doTimer Sched.schedulerTick
    rw [number]
    dsimp only
    rw [sleepers.card, first, result]
    rfl
  · rw [sleepq]
    exact ticked.sleepers.ring
  · rw [timers]
    exact ticked.sleepers.timers
  · rw [wait, ticked.wait]
  · rw [jiffies, ticked.jiffies]
  · intro p runs
    rw [state]
    exact ticked.state p runs
  · rw [woken, ticked.woken]

theorem Sleepers.init (sleepers : Sleepers s qs) (fresh : q ∉ s.timers) :
    Ring ((s.sleepq.init (some q)).add none (some q)) none ((q :: qs).map some) := by
  have off : some q ∉ none :: qs.map some := by
    rw [sleepers.mem] at fresh
    simpa using fresh
  have same : ∀ n ∈ none :: qs.map some, n ≠ some q := fun n member here => off (here ▸ member)
  have ring : Ring (s.sleepq.init (some q)) none (qs.map some) := by
    apply sleepers.ring.congr
    · intro n member
      exact Function.update_of_ne (same n member) _ _
    · intro n member
      exact Function.update_of_ne (same n member) _ _
  exact ring.add off

/-- What `sys_usleep` leaves in `timerq`. -/
theorem sysUsleep_sleepers (sleepers : Sleepers s qs) (fresh : q ∉ s.timers)
    (returns : s.sysUsleep (some q) us = .ok t) : Sleepers t (q :: qs) ∧
      t.wait = Function.update s.wait q ⟨Sched.deadline s.jiffies us, s.current⟩ ∧ t.jiffies = s.jiffies ∧
      t.woken = s.woken := by
  obtain rfl := Except.ok.inj returns
  refine ⟨⟨sleepers.init fresh, ?_⟩, rfl, rfl, rfl⟩
  rw [List.toFinset_cons, ← sleepers.timers]

/-- The ticks at which `p` was woken by the timer. -/
def Sched.wakes (s : Sched) (p : Nat) : List Nat := (s.woken.filter fun entry => entry.2 = p).map Prod.fst

theorem Ticked.wakes (ticked : Ticked now s t kept rs) : t.wakes p = s.wakes p ++
    (rs.filter fun q => (s.wait q).time ≤ now ∧ (s.wait q).task = p).map fun _ => s.jiffies := by
  unfold Sched.wakes
  rw [ticked.woken, List.filter_append, List.map_append, List.filter_map, List.map_map, List.filter_filter]
  simp only [Function.comp_def, Bool.decide_and, Bool.and_comm]

/-! ### Runs -/

/-- What happens one after another. `usleep` is a call of the current task, and `other` is all that leaves
`jiffies` and `timerq` alone. -/
inductive SchedEvent where
  | tick
  | usleep (q : Nat) (us : Int)
  | other
  deriving DecidableEq

structure SameTimer (s t : Sched) : Prop where
  jiffies : t.jiffies = s.jiffies
  sleepq : t.sleepq = s.sleepq
  wait : t.wait = s.wait
  timers : t.timers = s.timers
  woken : t.woken = s.woken

/-- A step while `p` does not call `sys_usleep` again. -/
inductive SleepStep (p : Nat) (s : Sched) : SchedEvent → Sched → Prop where
  | tick {t : Sched} (returns : s.doTimer = .ok t) : SleepStep p s .tick t
  | usleep {t : Sched} {q : Nat} {us : Int} (another : s.current ≠ p) (fresh : q ∉ s.timers)
      (returns : s.sysUsleep (some q) us = .ok t) : SleepStep p s (.usleep q us) t
  | other {t : Sched} (same : SameTimer s t) : SleepStep p s .other t

theorem contextSwitch_sameTimer (s : Sched) (prev next : Nat) : SameTimer s (s.contextSwitch prev next) := by
  unfold Sched.contextSwitch Sched.contextSwitchTail Sched.freeTask
  split <;> exact ⟨rfl, rfl, rfl, rfl, rfl⟩

/-- A call of `schedule` is one of the other steps. -/
theorem SleepStep.schedule : SleepStep p s .other s.schedule := by
  apply SleepStep.other
  rw [Sched.schedule_eq]
  split
  · obtain ⟨jiffies, sleepq, wait, timers, woken⟩ := contextSwitch_sameTimer
      { s with running := s.unlinked, needResched := false } s.current s.choice
    exact ⟨jiffies, sleepq, wait, timers, woken⟩
  · exact ⟨rfl, rfl, rfl, rfl, rfl⟩

/-- `p` sleeps, and only the entry at `q` will wake it. -/
structure Waiting (s : Sched) (p q time : Nat) : Prop where
  inside : q ∈ s.timers
  entry : s.wait q = ⟨time, p⟩
  only : ∀ r ∈ s.timers, (s.wait r).task = p → r = q

/-- No entry is left that would wake `p`. -/
def Over (s : Sched) (p : Nat) : Prop := ∀ r ∈ s.timers, (s.wait r).task ≠ p

/-- The first tick after tick `j` whose number reaches `time`. -/
def firstTick (j time : Nat) : Nat := max time (j + 1)

/-- The state `n` ticks after the call of `sys_usleep` at tick `j`. -/
structure Asleep (p q time j : Nat) (old : List Nat) (n : Nat) (s : Sched) : Prop where
  sleepers : ∃ qs, Sleepers s qs
  jiffies : s.jiffies = (j + n) % 2 ^ 64
  waiting : j + n < firstTick j time → Waiting s p q time ∧ s.wakes p = old
  woken : firstTick j time ≤ j + n → Over s p ∧ s.wakes p = old ++ [firstTick j time]

variable {old : List Nat} {e : SchedEvent} {events : List SchedEvent}

/-- An entry that is the only one for a task is found once among the sleepers. -/
theorem Waiting.found (waiting : Waiting s p q time) (sleepers : Sleepers s qs) (due : time ≤ now) :
    (qs.filter fun r => (s.wait r).time ≤ now ∧ (s.wait r).task = p) = [q] := by
  have nodup := sleepers.nodup.filter fun r => (s.wait r).time ≤ now ∧ (s.wait r).task = p
  apply List.perm_singleton.mp
  apply (List.perm_ext_iff_of_nodup nodup (List.nodup_singleton q)).mpr
  intro r
  rw [List.mem_filter, List.mem_singleton, decide_eq_true_iff]
  constructor
  · intro found
    exact waiting.only r (sleepers.mem.mpr found.1) found.2.2
  · intro same
    rw [same, waiting.entry]
    exact ⟨sleepers.mem.mp waiting.inside, due, rfl⟩

theorem Asleep.tick (asleep : Asleep p q time j old n s) (lasts : firstTick j time < 2 ^ 64)
    (returns : s.doTimer = .ok t) : Asleep p q time j old (n + 1) t := by
  obtain ⟨qs, sleepers⟩ := asleep.sleepers
  have number : (s.jiffies + 1) % 2 ^ 64 = (j + (n + 1)) % 2 ^ 64 := by
    rw [asleep.jiffies, Nat.mod_add_mod, Nat.add_assoc]
  obtain ⟨t', result, ticked⟩ := doTimer_ticked sleepers number
  obtain rfl := Except.ok.inj (result.symm.trans returns)
  have left := ticked.sleepers
  rw [List.nil_append] at left
  have kept : ∀ r, r ∈ t'.timers ↔ r ∈ s.timers ∧ (j + (n + 1)) % 2 ^ 64 < (s.wait r).time := fun r => by
    rw [left.mem, List.mem_filter, sleepers.mem, decide_eq_true_iff]
  have wakes : t'.wakes p = s.wakes p ++ (qs.filter fun r => (s.wait r).time ≤ (j + (n + 1)) % 2 ^ 64 ∧
      (s.wait r).task = p).map fun _ => (j + (n + 1)) % 2 ^ 64 := ticked.wakes
  have wait : t'.wait = s.wait := ticked.wait
  refine ⟨⟨_, left⟩, ticked.jiffies, fun before => ?_, fun reached => ?_⟩
  · -- the deadline is later
    have number' : (j + (n + 1)) % 2 ^ 64 = j + (n + 1) := Nat.mod_eq_of_lt (before.trans lasts)
    have early : j + (n + 1) < time := by
      unfold firstTick at before
      omega
    obtain ⟨waiting, old⟩ := asleep.waiting (lt_trans (by omega) before)
    rw [number'] at wakes kept
    have none : (qs.filter fun r => (s.wait r).time ≤ j + (n + 1) ∧ (s.wait r).task = p) = [] := by
      apply List.filter_eq_nil_iff.mpr
      intro r member
      rw [decide_eq_true_iff]
      intro both
      have here := waiting.only r (sleepers.mem.mpr member) both.2
      rw [here, waiting.entry] at both
      exact absurd both.1 (not_le.mpr early)
    refine ⟨⟨(kept q).mpr ⟨waiting.inside, ?_⟩, ?_, fun r member => ?_⟩, ?_⟩
    · rw [waiting.entry]
      exact early
    · rw [wait, waiting.entry]
    · rw [wait]
      exact waiting.only r ((kept r).mp member).1
    · rw [wakes, none, List.map_nil, List.append_nil]
      exact old
  · by_cases already : firstTick j time ≤ j + n
    · obtain ⟨gone, old⟩ := asleep.woken already
      have none : (qs.filter fun r => (s.wait r).time ≤ (j + (n + 1)) % 2 ^ 64 ∧ (s.wait r).task = p) = [] := by
        apply List.filter_eq_nil_iff.mpr
        intro r member
        rw [decide_eq_true_iff]
        exact fun both => gone r (sleepers.mem.mpr member) both.2
      refine ⟨fun r member => ?_, ?_⟩
      · rw [wait]
        exact gone r ((kept r).mp member).1
      · rw [wakes, none, List.map_nil, List.append_nil]
        exact old
    · -- this is the tick
      have here : firstTick j time = j + (n + 1) := by omega
      have number' : (j + (n + 1)) % 2 ^ 64 = j + (n + 1) := Nat.mod_eq_of_lt (here ▸ lasts)
      have due : time ≤ j + (n + 1) := here ▸ le_max_left time (j + 1)
      obtain ⟨waiting, old⟩ := asleep.waiting (not_le.mp already)
      rw [number'] at wakes kept
      refine ⟨fun r member task => ?_, ?_⟩
      · obtain ⟨inside, early⟩ := (kept r).mp member
        rw [wait] at task
        have same := waiting.only r inside task
        rw [same, waiting.entry] at early
        exact absurd due (not_le.mpr early)
      · rw [wakes, waiting.found sleepers due, here]
        exact congrArg (· ++ [j + (n + 1)]) old

theorem Asleep.step (asleep : Asleep p q time j old n s) (lasts : firstTick j time < 2 ^ 64)
    (step : SleepStep p s e t) : Asleep p q time j old (n + [e].count .tick) t := by
  cases step with
  | tick returns => exact asleep.tick lasts returns
  | @usleep _ r us another fresh returns =>
    obtain ⟨qs, sleepers⟩ := asleep.sleepers
    obtain ⟨sleepers', wait, jiffies, woken⟩ := sysUsleep_sleepers sleepers fresh returns
    have wakes : t.wakes p = s.wakes p := by
      unfold Sched.wakes
      rw [woken]
    -- the new entry is another task's
    have old' : ∀ x ∈ t.timers, x = r ∧ (t.wait x).task ≠ p ∨ x ∈ s.timers ∧ t.wait x = s.wait x := fun x member => by
      rw [wait]
      rcases List.mem_cons.mp (sleepers'.mem.mp member) with rfl | inside
      · rw [Function.update_self]
        exact Or.inl ⟨rfl, another⟩
      · have inside' := sleepers.mem.mpr inside
        have other : x ≠ r := fun same => fresh (same ▸ inside')
        rw [Function.update_of_ne other]
        exact Or.inr ⟨inside', rfl⟩
    refine ⟨⟨_, sleepers'⟩, jiffies.trans asleep.jiffies, fun before => ?_, fun reached => ?_⟩
    · obtain ⟨waiting, old⟩ := asleep.waiting before
      have other : q ≠ r := fun same => fresh (same ▸ waiting.inside)
      refine ⟨⟨?_, ?_, fun x member task => ?_⟩, wakes.trans old⟩
      · rw [sleepers'.mem]
        exact List.mem_cons_of_mem _ (sleepers.mem.mp waiting.inside)
      · rw [wait, Function.update_of_ne other]
        exact waiting.entry
      · rcases old' x member with ⟨-, another⟩ | ⟨inside, same⟩
        · exact absurd task another
        · rw [same] at task
          exact waiting.only x inside task
    · obtain ⟨gone, old⟩ := asleep.woken reached
      refine ⟨fun x member => ?_, wakes.trans old⟩
      rcases old' x member with ⟨-, another⟩ | ⟨inside, same⟩
      · exact another
      · rw [same]
        exact gone x inside
  | other same =>
    obtain ⟨qs, sleepers⟩ := asleep.sleepers
    obtain ⟨jiffies, sleepq, wait, timers, woken⟩ := same
    have wakes : t.wakes p = s.wakes p := by
      unfold Sched.wakes
      rw [woken]
    refine ⟨⟨qs, ?_, ?_⟩, jiffies.trans asleep.jiffies, fun before => ?_, fun reached => ?_⟩
    · rw [sleepq]
      exact sleepers.ring
    · rw [timers]
      exact sleepers.timers
    · obtain ⟨waiting, old⟩ := asleep.waiting before
      refine ⟨⟨timers ▸ waiting.inside, ?_, ?_⟩, wakes.trans old⟩
      · rw [wait]
        exact waiting.entry
      · rw [wait, timers]
        exact waiting.only
    · obtain ⟨gone, old⟩ := asleep.woken reached
      refine ⟨?_, wakes.trans old⟩
      unfold Over
      rw [wait, timers]
      exact gone

theorem Asleep.run (lasts : firstTick j time < 2 ^ 64) (run : Run (SleepStep p) s events t) :
    ∀ n, Asleep p q time j old n s → Asleep p q time j old (n + events.count .tick) t := by
  induction run with
  | nil => exact fun n asleep => asleep
  | @cons s mid u e events first rest ih =>
    intro n asleep
    have next := ih _ (asleep.step lasts first)
    rw [Nat.add_assoc, ← List.count_append, List.singleton_append] at next
    exact next

/-- The timer goes on ticking. -/
theorem Asleep.ticks (lasts : firstTick j time < 2 ^ 64) (k : Nat) : ∀ n s, Asleep p q time j old n s →
    ∃ t, Run (SleepStep p) s (List.replicate k .tick) t := by
  induction k with
  | zero => exact fun n s asleep => ⟨s, .nil s⟩
  | succ k ih =>
    intro n s asleep
    obtain ⟨qs, sleepers⟩ := asleep.sleepers
    obtain ⟨u, returns, -⟩ := doTimer_ticked sleepers rfl
    obtain ⟨t, rest⟩ := ih (n + 1) u (asleep.tick lasts returns)
    exact ⟨t, .cons (.tick returns) rest⟩

/-! ### How long it takes -/

def ticksOf (us : Int) : Nat := ((us * HZ + 999999) / 1000000).toNat

theorem deadline_eq (positive : 0 ≤ us) (fits : us * HZ + 999999 < 2 ^ 63) (lasts : j + ticksOf us < 2 ^ 64) :
    Sched.deadline j us = j + ticksOf us := by
  have scaled : 0 ≤ us * HZ := mul_nonneg positive (by decide)
  have whole : int64 (us * HZ + 999999) = us * HZ + 999999 := by
    unfold int64
    apply Int.bmod_eq_of_le <;> omega
  have ticks : ((ticksOf us : Nat) : Int) = (us * HZ + 999999) / 1000000 :=
    Int.toNat_of_nonneg (Int.ediv_nonneg (by omega) (by omega))
  unfold Sched.deadline
  rw [whole, Int.tdiv_eq_ediv_of_nonneg (by omega), ← ticks]
  omega

noncomputable def tickLength : ℝ := 1000000 / HZ

/-- The time since the last tick, at time `c`. -/
noncomputable def phase (c : ℝ) : ℝ := c - ⌊c / tickLength⌋ * tickLength

/-- After a call of `sys_usleep` at time `c`, that went from `s` to `t`, the task is woken at the first tick that
reaches the deadline, once, and that is not before `us` microseconds have passed. -/
def SleepsFull (s t : Sched) (q : Nat) (us : Int) (c : ℝ) : Prop := ∀ events u, Run (SleepStep s.current) t events u →
  u.wakes s.current = s.wakes s.current ++ (if firstTick s.jiffies (t.wait q).time ≤ s.jiffies + events.count .tick
    then [firstTick s.jiffies (t.wait q).time] else []) ∧
  (firstTick s.jiffies (t.wait q).time ≤ s.jiffies + events.count .tick →
    c + us ≤ firstTick s.jiffies (t.wait q).time * tickLength)

theorem sysUsleep_asleep (sleepers : Sleepers s qs) (others : ∀ r ∈ qs, (s.wait r).task ≠ s.current) (fresh : q ∉ qs)
    (bounded : s.jiffies < 2 ^ 64) (called : s.sysUsleep (some q) us = .ok t) :
    (t.wait q).time = Sched.deadline s.jiffies us ∧
      Asleep s.current q (t.wait q).time s.jiffies (s.wakes s.current) 0 t := by
  have fresh' : q ∉ s.timers := fun inside => fresh (sleepers.mem.mp inside)
  obtain ⟨sleepers', wait, jiffies, woken⟩ := sysUsleep_sleepers sleepers fresh' called
  have entry : t.wait q = ⟨Sched.deadline s.jiffies us, s.current⟩ := by
    rw [wait, Function.update_self]
  refine ⟨congrArg TimerWait.time entry, ⟨_, sleepers'⟩, ?_, fun _ => ⟨⟨?_, ?_, fun r member task => ?_⟩, ?_⟩,
    fun reached => ?_⟩
  · rw [jiffies]
    exact (Nat.mod_eq_of_lt bounded).symm
  · exact sleepers'.mem.mpr List.mem_cons_self
  · rw [entry]
  · rcases List.mem_cons.mp (sleepers'.mem.mp member) with same | inside
    · exact same
    · have other : r ≠ q := fun same => fresh (same ▸ inside)
      rw [wait, Function.update_of_ne other] at task
      exact absurd task (others r inside)
  · unfold Sched.wakes
    rw [woken]
  · have later := le_max_right (t.wait q).time (s.jiffies + 1)
    exact absurd (later.trans reached) (by omega)

/-- A sleep lasts as long as the first tick that reaches the deadline says. -/
theorem sleepsFull_enough (sleepers : Sleepers s qs) (others : ∀ r ∈ qs, (s.wait r).task ≠ s.current) (fresh : q ∉ qs)
    (positive : 0 ≤ us) (fits : us * HZ + 999999 < 2 ^ 63) (lasts : s.jiffies + ticksOf us + 1 < 2 ^ 64) {c : ℝ}
    (called : s.sysUsleep (some q) us = .ok t) :
    SleepsFull s t q us c ↔ c + us ≤ firstTick s.jiffies (s.jiffies + ticksOf us) * tickLength := by
  obtain ⟨time, asleep⟩ := sysUsleep_asleep sleepers others fresh (by omega) called
  rw [deadline_eq positive fits (by omega)] at time
  unfold SleepsFull
  rw [time] at asleep ⊢
  have lasts' : firstTick s.jiffies (s.jiffies + ticksOf us) < 2 ^ 64 := by
    unfold firstTick
    omega
  constructor
  · intro full
    obtain ⟨u, run⟩ := Asleep.ticks lasts' (firstTick s.jiffies (s.jiffies + ticksOf us)) 0 t asleep
    apply (full _ u run).2
    rw [List.count_replicate_self]
    exact Nat.le_add_left _ _
  · intro enough events u run
    refine ⟨?_, fun _ => enough⟩
    have after := Asleep.run lasts' run 0 asleep
    rw [Nat.zero_add] at after
    split
    · rename_i reached
      exact (after.woken reached).2
    · rename_i before
      rw [List.append_nil]
      exact (after.waiting (not_le.mp before)).2

theorem tickLength_eq : tickLength = 10000 := by
  unfold tickLength HZ
  norm_num

theorem enough_iff (positive : 0 ≤ us) {c : ℝ} (elapsed : (j : ℤ) = ⌊c / tickLength⌋) :
    c + us ≤ firstTick j (j + ticksOf us) * tickLength ↔ us = 0 ∨ phase c ≤ ticksOf us * tickLength - us := by
  unfold phase
  rw [← elapsed, Int.cast_natCast]
  rcases eq_or_lt_of_le positive with zero | sleeps
  · -- no time, and the next tick is late enough
    obtain rfl := zero
    have next : firstTick j (j + ticksOf 0) = j + 1 := by
      change max (j + 0) (j + 1) = j + 1
      omega
    have before := Int.lt_floor_add_one (c / tickLength)
    rw [← elapsed, tickLength_eq, div_lt_iff₀ (by norm_num), Int.cast_natCast] at before
    rw [next, tickLength_eq]
    refine iff_of_true ?_ (Or.inl rfl)
    push_cast
    linarith
  · have some : 1 ≤ ticksOf us := by
      unfold ticksOf HZ
      omega
    have next : firstTick j (j + ticksOf us) = j + ticksOf us := by
      unfold firstTick
      omega
    rw [next, or_iff_right (by omega)]
    push_cast
    constructor
    · intro enough
      linarith
    · intro slack
      linarith

theorem usleep_sleeps_full_iff (s t : Sched) (qs : List Nat) (sleepers : Sleepers s qs)
    (others : ∀ r ∈ qs, (s.wait r).task ≠ s.current) (q : Nat) (fresh : q ∉ qs) (us : Int) (positive : 0 ≤ us)
    (fits : us * HZ + 999999 < 2 ^ 63) (lasts : s.jiffies + ticksOf us + 1 < 2 ^ 64) (c : ℝ)
    (elapsed : (s.jiffies : ℤ) = ⌊c / tickLength⌋) (called : s.sysUsleep (some q) us = .ok t) :
    SleepsFull s t q us c ↔ us = 0 ∨ phase c ≤ ticksOf us * tickLength - us := by
  rw [← enough_iff positive elapsed]
  exact sleepsFull_enough sleepers others fresh positive fits lasts called

theorem twoTasks_sleepers : Sleepers twoTasks [] where
  ring := ⟨⟨rfl, rfl⟩, by decide⟩
  timers := rfl

/-- A sleep of one tick that starts with a tick. -/
theorem usleep_sleeps_full_iff_tick : ∃ t, twoTasks.sysUsleep (some 7) 10000 = .ok t ∧
    (SleepsFull twoTasks t 7 10000 0 ↔ (10000 : Int) = 0 ∨ phase 0 ≤ ticksOf 10000 * tickLength - (10000 : Int)) :=
  ⟨_, rfl, usleep_sleeps_full_iff twoTasks _ [] twoTasks_sleepers (fun _ member => absurd member List.not_mem_nil) 7
    List.not_mem_nil 10000 (by decide) (by decide) (by decide) 0 (by rw [zero_div, Int.floor_zero]; rfl) rfl⟩

/-- A sleep of one tick that starts in the middle of a tick ends after half of its time. -/
theorem usleep_cut_short : (twoTasks.jiffies : ℤ) = ⌊(5000 : ℝ) / tickLength⌋ ∧
    ∃ t, twoTasks.sysUsleep (some 7) 10000 = .ok t ∧ ¬ SleepsFull twoTasks t 7 10000 5000 := by
  refine ⟨?_, _, rfl, fun full => ?_⟩
  · rw [tickLength_eq]
    symm
    apply Int.floor_eq_iff.mpr
    change ((0 : ℤ) : ℝ) ≤ _ ∧ _ < ((0 : ℤ) : ℝ) + 1
    norm_num
  · have enough : (5000 : ℝ) + (10000 : Int) ≤
        firstTick twoTasks.jiffies (twoTasks.jiffies + ticksOf 10000) * tickLength :=
      (sleepsFull_enough twoTasks_sleepers (fun _ member => absurd member List.not_mem_nil) List.not_mem_nil
        (by decide) (by decide) (by decide) rfl).mp full
    have next : firstTick twoTasks.jiffies (twoTasks.jiffies + ticksOf 10000) = 1 := by decide
    rw [next, tickLength_eq] at enough
    norm_num at enough

end Landaux
