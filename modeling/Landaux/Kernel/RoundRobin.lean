import Landaux.Kernel.Sched

/-!
# Round robin

`schedule` takes the tasks in the order of the run list, and `idle` only when it is alone there.
-/

namespace Landaux
open Lib

variable {s t : Sched} {l : Links Nat} {xs ys : List Nat} {p x : Nat}

/-- The run list is a circle with `idle`, which never sleeps, then `ys`, and the current task is in it. -/
structure RunList (s : Sched) (ys : List Nat) : Prop where
  ring : Ring s.running s.idle ys
  current : s.current ∈ s.idle :: ys
  awake : s.state s.idle = .running

namespace Sched

def remaining (s : Sched) (ys : List Nat) : List Nat :=
  if s.state s.current = .running then ys else ys.erase s.current

/-- Who is next, in order, when `xs` comes after the current task: `idle` is passed over, and the current task
is the last, if it stays. -/
def turn (s : Sched) (xs : List Nat) : List Nat :=
  (xs ++ if s.state s.current = .running then [s.current] else []).filter (· ≠ s.idle)

/-! ### What schedule does -/

theorem sleeps_iff {state : TaskState} :
    state = .zombie ∨ state = .interruptible ∨ state = .uninterruptible ↔ state ≠ .running := by
  cases state <;> simp

/-- The links after `list_del`, if there is one. -/
def unlinked (s : Sched) : Links Nat :=
  if s.state s.current = .running then s.running else s.running.del s.current

def choice (s : Sched) : Nat :=
  let next := s.running.next s.current
  if next = s.idle ∧ s.unlinked.next next ≠ s.idle then s.unlinked.next next else next

@[simp] theorem contextSwitch_current : (s.contextSwitch p x).current = x := by
  unfold contextSwitch contextSwitchTail freeTask
  split <;> rfl

@[simp] theorem contextSwitch_running : (s.contextSwitch p x).running = s.running := by
  unfold contextSwitch contextSwitchTail freeTask
  split <;> rfl

@[simp] theorem contextSwitch_idle : (s.contextSwitch p x).idle = s.idle := by
  unfold contextSwitch contextSwitchTail freeTask
  split <;> rfl

@[simp] theorem contextSwitch_state : (s.contextSwitch p x).state = s.state := by
  unfold contextSwitch contextSwitchTail freeTask
  split <;> rfl

theorem schedule_eq : s.schedule =
    if s.choice ≠ s.current then
      ({ s with running := s.unlinked, needResched := false } : Sched).contextSwitch s.current s.choice
    else { s with running := s.unlinked, needResched := false } := by
  unfold schedule choice unlinked
  simp only [sleeps_iff]
  by_cases stays : s.state s.current = .running
  · simp [stays, ite_and]
  · simp [stays, ite_and]

theorem schedule_current : s.schedule.current = s.choice := by
  rw [schedule_eq]
  split
  · exact contextSwitch_current
  · rename_i same
    exact (not_not.mp same).symm

theorem schedule_running : s.schedule.running = s.unlinked := by
  rw [schedule_eq]
  split
  · exact contextSwitch_running
  · rfl

theorem schedule_idle : s.schedule.idle = s.idle := by
  rw [schedule_eq]
  split
  · exact contextSwitch_idle
  · rfl

theorem schedule_state : s.schedule.state = s.state := by
  rw [schedule_eq]
  split
  · exact contextSwitch_state
  · rfl

theorem schedule_live (alive : s.state s.current ≠ .zombie) : s.schedule.live = s.live := by
  rw [schedule_eq]
  split
  · unfold contextSwitch contextSwitchTail
    rw [if_neg alive]
  · rfl

end Sched

/-! ### The run list -/

theorem RunList.remaining (runs : RunList s ys) : Ring s.unlinked s.idle (s.remaining ys) := by
  unfold Sched.unlinked Sched.remaining
  by_cases stays : s.state s.current = .running
  · rw [if_pos stays, if_pos stays]
    exact runs.ring
  rw [if_neg stays, if_neg stays]
  have other : s.current ≠ s.idle := by
    intro same
    rw [same] at stays
    exact stays runs.awake
  obtain ⟨before, after, rfl⟩ := List.mem_iff_append.mp ((List.mem_cons.mp runs.current).resolve_left other)
  have nodup := (List.nodup_cons.mp runs.ring.nodup).2
  have first : s.current ∉ before := fun inside =>
    List.disjoint_of_nodup_append nodup inside List.mem_cons_self
  rw [List.erase_append_right _ first, List.erase_cons_head]
  exact runs.ring.del

theorem RunList.perm (runs : RunList s ys) (ring : Ring s.running s.current xs) :
    (s.current :: xs).Perm (s.idle :: ys) := by
  obtain ⟨xs', ring', perm⟩ := runs.ring.enter runs.current
  rw [ring.unique ring']
  exact perm

/-- The links lead on from `idle` to the first whose turn it is. -/
theorem choice_idle (off : s.idle ∉ xs) (next : s.running.next s.current = s.idle)
    (after : s.unlinked.next s.idle = xs.headD s.idle) : s.choice = xs.headD s.idle := by
  unfold Sched.choice
  dsimp only
  rw [next, after]
  cases xs with
  | nil => simp
  | cons x xs =>
    have other : x ≠ s.idle := fun same => off (same ▸ List.mem_cons_self)
    simp [other]

/-- `schedule` takes the first whose turn it is. -/
theorem RunList.choice (runs : RunList s ys) (ring : Ring s.running s.current xs) :
    s.choice = (s.turn xs).headD s.idle := by
  have inside : s.idle ∈ s.current :: xs := (runs.perm ring).mem_iff.mpr List.mem_cons_self
  have nodup := List.nodup_cons.mp ring.nodup
  cases xs with
  | nil =>
    -- `idle` is alone
    have alone : s.idle = s.current := List.mem_singleton.mp inside
    have awake : s.state s.current = .running := alone ▸ runs.awake
    have turn : s.turn [] = [] := by
      unfold Sched.turn
      rw [if_pos awake, alone]
      simp
    rw [turn]
    apply choice_idle List.not_mem_nil (ring.path.1.trans alone.symm)
    unfold Sched.unlinked
    rw [if_pos awake, alone]
    exact ring.path.1
  | cons x xs =>
    have next : s.running.next s.current = x := ring.path.1.1
    by_cases same : x = s.idle
    · -- `idle` is passed over
      subst same
      have nodup' := List.nodup_cons.mp nodup.2
      have other : s.current ≠ s.idle := fun same => nodup.1 (same ▸ List.mem_cons_self)
      have others : xs.filter (· ≠ s.idle) = xs := by
        apply List.filter_eq_self.mpr
        intro x member
        simpa using fun same : x = s.idle => nodup'.1 (same ▸ member)
      unfold Sched.turn
      rw [List.cons_append, List.filter_cons_of_neg (by simp), List.filter_append, others]
      by_cases stays : s.state s.current = .running
      · rw [if_pos stays, List.filter_cons_of_pos (by simpa using other), List.filter_nil]
        apply choice_idle _ next
        · unfold Sched.unlinked
          rw [if_pos stays, ring.path.2.next_headD]
          cases xs <;> rfl
        · intro member
          rcases List.mem_append.mp member with inXs | last
          · exact nodup'.1 inXs
          · exact other (List.mem_singleton.mp last).symm
      · rw [if_neg stays, List.filter_nil, List.append_nil]
        apply choice_idle nodup'.1 next
        unfold Sched.unlinked
        rw [if_neg stays]
        exact ring.del_head.path.next_headD
    · unfold Sched.choice Sched.turn
      dsimp only
      rw [next, if_neg fun both => same both.1, List.cons_append, List.filter_cons_of_pos (by simpa using same)]
      rfl

/-! ### One call -/

theorem filter_idle {idle : Nat} (off : idle ∉ xs) : xs.filter (· ≠ idle) = xs := by
  apply List.filter_eq_self.mpr
  intro x member
  simpa using fun same : x = idle => off (same ▸ member)

/-- It is the turn of the tasks that stay linked, each once. -/
theorem RunList.turn (runs : RunList s ys) (ring : Ring s.running s.current xs) :
    (s.turn xs).Perm (s.remaining ys) := by
  have perm := runs.perm ring
  have off := (List.nodup_cons.mp runs.ring.nodup).1
  unfold Sched.turn Sched.remaining
  by_cases stays : s.state s.current = .running
  · rw [if_pos stays, if_pos stays]
    have moved : (xs ++ [s.current]).Perm (s.idle :: ys) := List.perm_append_comm.trans perm
    have kept := moved.filter (· ≠ s.idle)
    rwa [List.filter_cons_of_neg (by simp), filter_idle off] at kept
  · rw [if_neg stays, if_neg stays, List.append_nil]
    have other : s.idle ≠ s.current := by
      intro same
      rw [← same] at stays
      exact stays runs.awake
    have erased := perm.erase s.current
    rw [List.erase_cons_head, List.erase_cons_tail (by simpa using other)] at erased
    have kept := erased.filter (· ≠ s.idle)
    rwa [List.filter_cons_of_neg (by simp), filter_idle fun member => off (List.mem_of_mem_erase member)] at kept

/-- What one call of `schedule` does, when `ys` are linked after `idle`. -/
structure Scheduled (s t : Sched) (ys : List Nat) : Prop where
  runs : RunList t (s.remaining ys)
  idle : t.idle = s.idle
  next : ∀ xs, Ring s.running s.current xs → t.current = (s.turn xs).headD s.idle
  alone : t.current = s.idle → s.remaining ys = []

theorem RunList.schedule (runs : RunList s ys) : Scheduled s s.schedule ys := by
  obtain ⟨xs, ring, -⟩ := runs.ring.enter runs.current
  have turn := runs.turn ring
  have here : s.schedule.current = (s.turn xs).headD s.idle := Sched.schedule_current.trans (runs.choice ring)
  refine ⟨⟨?_, ?_, ?_⟩, Sched.schedule_idle, fun xs ring => Sched.schedule_current.trans (runs.choice ring), ?_⟩
  · rw [Sched.schedule_running, Sched.schedule_idle]
    exact runs.remaining
  · rw [here, Sched.schedule_idle]
    cases order : s.turn xs with
    | nil => exact List.mem_cons_self
    | cons a l =>
      rw [order] at turn
      exact List.mem_cons_of_mem _ (turn.mem_iff.mp List.mem_cons_self)
  · rw [Sched.schedule_state, Sched.schedule_idle]
    exact runs.awake
  · intro same
    cases order : s.turn xs with
    | nil =>
      rw [order] at turn
      exact turn.nil_eq.symm
    | cons a l =>
      have member : a ∈ s.turn xs := order ▸ List.mem_cons_self
      rw [here, order] at same
      have kept := (List.mem_filter.mp member).2
      simp [show a = s.idle from same] at kept

/-! ### Calls in a row -/

structure AllStay (s : Sched) : Prop where
  current : s.state s.current = .running
  idle : s.state s.idle = .running

theorem AllStay.turn (stays : AllStay s) : s.turn xs = (xs ++ [s.current]).filter (· ≠ s.idle) := by
  unfold Sched.turn
  rw [if_pos stays.current]

/-- The call goes on to the next in the order, and who is chosen becomes the last. -/
theorem turn_next {a : Nat} {todo : List Nat} (stays : AllStay s) (ring : Ring s.running s.current xs)
    (order : s.turn xs = a :: todo) : ∃ xs', Ring s.running a xs' ∧ (xs' ++ [a]).filter (· ≠ s.idle) = todo ++ [a] := by
  rw [stays.turn] at order
  have nodup := List.nodup_cons.mp ring.nodup
  have member : a ∈ (xs ++ [s.current]).filter (· ≠ s.idle) := order ▸ List.mem_cons_self
  obtain ⟨linked, other⟩ := List.mem_filter.mp member
  have keep : ∀ l, (a :: l).filter (· ≠ s.idle) = a :: l.filter (· ≠ s.idle) := fun l =>
    List.filter_cons_of_pos other
  have single : [a].filter (· ≠ s.idle) = [a] := keep []
  rcases List.mem_append.mp linked with inXs | last
  · obtain ⟨before, after, rfl⟩ := List.mem_iff_append.mp inXs
    refine ⟨after ++ s.current :: before, ring.rotate, ?_⟩
    have first : a ∉ before := fun inside =>
      List.disjoint_of_nodup_append nodup.2 inside List.mem_cons_self
    rw [List.append_assoc, List.cons_append, List.filter_append, keep] at order
    have none : before.filter (· ≠ s.idle) = [] := by
      cases some : before.filter (· ≠ s.idle) with
      | nil => rfl
      | cons b l =>
        rw [some] at order
        obtain rfl : b = a := (List.cons.inj order).1
        have member : b ∈ before.filter (· ≠ s.idle) := some ▸ List.mem_cons_self
        exact absurd (List.mem_filter.mp member).1 first
    rw [none, List.nil_append] at order
    rw [List.filter_append, single, ← (List.cons.inj order).2, List.filter_append, List.filter_append,
      ← List.singleton_append, List.filter_append, none, List.append_nil]
  · obtain rfl := List.mem_singleton.mp last
    refine ⟨xs, ring, ?_⟩
    rw [List.filter_append, single] at order ⊢
    cases others : xs.filter (· ≠ s.idle) with
    | nil =>
      rw [others] at order
      rw [← (List.cons.inj order).2]
    | cons b l =>
      rw [others] at order
      obtain rfl : b = s.current := (List.cons.inj order).1
      have member : s.current ∈ xs.filter (· ≠ s.idle) := others ▸ List.mem_cons_self
      exact absurd (List.mem_filter.mp member).1 nodup.1

/-- `n` calls of `schedule` one after the other. What happens in between leaves the run list alone. -/
structure Consecutive (calls : Nat → Sched) (n : Nat) : Prop where
  stays : ∀ i < n, AllStay (calls i)
  next : ∀ i, i + 1 < n → (calls (i + 1)).running = (calls i).schedule.running ∧
    (calls (i + 1)).idle = (calls i).idle ∧ (calls (i + 1)).current = (calls i).schedule.current

theorem Consecutive.tail {calls : Nat → Sched} {n : Nat} (calling : Consecutive calls (n + 1)) :
    Consecutive (fun i => calls (i + 1)) n :=
  ⟨fun i below => calling.stays (i + 1) (Nat.succ_lt_succ below),
    fun i below => calling.next (i + 1) (Nat.succ_lt_succ below)⟩

/-- The state before the second call. -/
theorem Consecutive.second {calls : Nat → Sched} {n a : Nat} {todo : List Nat} (calling : Consecutive calls (n + 2))
    (runs : RunList (calls 0) ys) (ring : Ring (calls 0).running (calls 0).current xs)
    (order : (calls 0).turn xs = a :: todo) : RunList (calls 1) ys ∧
      ∃ xs', Ring (calls 1).running (calls 1).current xs' ∧ (calls 1).turn xs' = todo ++ [a] := by
  obtain ⟨running, idle, current⟩ := calling.next 0 (by omega)
  have stays := calling.stays 0 (by omega)
  have stays' := calling.stays 1 (by omega)
  have same : (calls 0).schedule.running = (calls 0).running := by
    rw [Sched.schedule_running]
    exact if_pos stays.current
  have next : (calls 0).schedule.current = a := by
    rw [runs.schedule.next xs ring, order]
    rfl
  have runs' : RunList (calls 1) ys := by
    refine ⟨?_, ?_, stays'.idle⟩
    · rw [running, same, idle]
      exact runs.ring
    · have linked := runs.schedule.runs.current
      have rest : (calls 0).remaining ys = ys := if_pos stays.current
      rwa [rest, Sched.schedule_idle, ← current, ← idle] at linked
  obtain ⟨xs', ring', order'⟩ := turn_next stays ring order
  refine ⟨runs', xs', ?_, ?_⟩
  · rw [running, same, current, next]
    exact ring'
  · rw [stays'.turn, current, next, idle]
    exact order'

/-- As many calls as there are tasks left in the order take these tasks, in this order. -/
theorem consecutive_turns (todo : List Nat) : ∀ (calls : Nat → Sched) (done xs : List Nat),
    Consecutive calls todo.length → RunList (calls 0) ys → Ring (calls 0).running (calls 0).current xs →
    (calls 0).turn xs = todo ++ done → ((List.range todo.length).map fun i => (calls i).schedule.current) = todo := by
  induction todo with
  | nil => exact fun _ _ _ _ _ _ _ => rfl
  | cons a todo ih =>
    intro calls done xs calling runs ring order
    have next : (calls 0).schedule.current = a := by
      rw [runs.schedule.next xs ring, order]
      rfl
    rw [List.length_cons, List.range_succ_eq_map, List.map_cons, next, List.map_map]
    cases todo with
    | nil => rfl
    | cons b todo =>
      obtain ⟨runs', xs', ring', order'⟩ := calling.second runs ring order
      exact congrArg (List.cons a)
        (ih (fun i => calls (i + 1)) (done ++ [a]) xs' calling.tail runs' ring'
          (order'.trans (List.append_assoc _ _ _)))

/-- `schedule` is round robin, and as many calls as there are tasks in a run list that stays the same take each
of them once. -/
theorem schedule_round_robin (s : Sched) (ys : List Nat) (runs : RunList s ys) :
    Scheduled s s.schedule ys ∧ ∀ calls : Nat → Sched, calls 0 = s → Consecutive calls ys.length →
      ((List.range ys.length).map fun i => (calls i).schedule.current).Perm ys := by
  refine ⟨runs.schedule, fun calls start calling => ?_⟩
  subst start
  cases ys with
  | nil => exact List.Perm.nil
  | cons y ys =>
    obtain ⟨xs, ring, -⟩ := runs.ring.enter runs.current
    have turn := runs.turn ring
    have rest : (calls 0).remaining (y :: ys) = y :: ys :=
      if_pos (calling.stays 0 (Nat.zero_lt_succ _)).current
    rw [rest] at turn
    rw [← turn.length_eq] at calling ⊢
    rw [consecutive_turns ((calls 0).turn xs) calls [] xs calling runs ring (List.append_nil _).symm]
    exact turn

/-- `idle` at 0, and the tasks 1 and 2, of which 2 is current. -/
def twoTasks : Sched where
  idle := 0
  current := 2
  running := ⟨fun p => (p + 1) % 3, fun p => (p + 2) % 3⟩
  tasks := ⟨fun p => (p + 1) % 3, fun p => (p + 2) % 3⟩
  state := fun _ => .running
  timeslice := fun _ => 20
  live := {0, 1, 2}
  needResched := true
  jiffies := 0
  sleepq := ⟨fun _ => none, fun _ => none⟩
  wait := fun _ => ⟨0, 0⟩
  timers := ∅
  woken := []

theorem twoTasks_runs : RunList twoTasks [1, 2] where
  ring := ⟨⟨⟨rfl, rfl⟩, ⟨rfl, rfl⟩, rfl, rfl⟩, by decide⟩
  current := by decide
  awake := rfl

theorem schedule_round_robin_two : Scheduled twoTasks twoTasks.schedule [1, 2] ∧
    ∀ calls : Nat → Sched, calls 0 = twoTasks → Consecutive calls 2 →
      ((List.range 2).map fun i => (calls i).schedule.current).Perm [1, 2] :=
  schedule_round_robin twoTasks [1, 2] twoTasks_runs

example : twoTasks.schedule.current = 1 ∧ twoTasks.schedule.schedule.current = 2 := by decide

end Landaux
