import Landaux.Lib.Ring
import Landaux.Lib.Outcome

/-!
# The scheduler

`sched.c`. Tasks are given by their addresses. The links `running` of the tasks make the run list, which
starts at `idle`, and the links of the sleepers in `timerq` make a list of their own.
-/

namespace Landaux
open Lib

inductive TaskState where
  | running
  | interruptible
  | uninterruptible
  | zombie
  deriving DecidableEq

/-- A `timer_waitq_t`, without its links. -/
structure TimerWait where
  time : Nat
  task : Nat

/-- What `sched.c` works on. `none` is `timerq.sleepq` and `some q` the links of the `timer_waitq_t` at `q`. -/
structure Sched where
  idle : Nat
  current : Nat
  running : Links Nat
  tasks : Links Nat
  state : Nat → TaskState
  timeslice : Nat → Nat
  /-- the tasks that `free_task` has not freed -/
  live : Finset Nat
  needResched : Bool
  jiffies : Nat
  sleepq : Links (Option Nat)
  wait : Nat → TimerWait
  /-- the `timer_waitq_t`s that are allocated -/
  timers : Finset Nat
  /-- who was woken by the timer so far, and at which tick -/
  woken : List (Nat × Nat)

inductive SchedStop where
  /-- an access through `NULL` -/
  | null
  /-- an access to freed memory -/
  | freed
  /-- a loop of the model is longer than it can be -/
  | fuel
  deriving DecidableEq

def HZ : Int := 100

def int64 (x : Int) : Int := x.bmod (2 ^ 64)

namespace Sched

/-! ### schedule -/

def freeTask (s : Sched) (p : Nat) : Sched := { s with tasks := s.tasks.del p, live := s.live.erase p }

def contextSwitchTail (s : Sched) (prev : Nat) : Sched :=
  if s.state prev = .zombie then s.freeTask prev else s

/-- `context_switch`, which goes on with the stack of `next`. -/
def contextSwitch (s : Sched) (prev next : Nat) : Sched :=
  ({ s with current := next } : Sched).contextSwitchTail prev

def schedule (s : Sched) : Sched :=
  let prev := s.current
  let next := s.running.next prev
  let s : Sched :=
    if s.state prev = .zombie ∨ s.state prev = .interruptible ∨ s.state prev = .uninterruptible then
      { s with running := s.running.del prev }
    else s
  let nextNext := s.running.next next
  let next := if next = s.idle then if nextNext ≠ s.idle then nextNext else next else next
  let s : Sched := { s with needResched := false }
  if next ≠ prev then s.contextSwitch prev next else s

/-! ### Sleeping -/

/-- A sleeper is linked in after `idle`. -/
def wake (s : Sched) (p : Nat) : Sched :=
  { s with
    running := s.running.add s.idle p
    state := Function.update s.state p .running
    woken := s.woken ++ [(s.jiffies, p)] }

def tickEntry (now q : Nat) (s : Sched) : Sched :=
  if now ≥ (s.wait q).time then
    let s : Sched := { s with sleepq := s.sleepq.del (some q) }
    let s := s.wake (s.wait q).task
    let s : Sched := { s with timers := s.timers.erase q }
    if s.current = s.idle then { s with needResched := true } else s
  else s

/-- The loop of `scheduler_tick`. `it->next` is read after `kfree`, which leaves the links as they are. -/
def tickLoop (now : Nat) : Nat → Option Nat → Sched → Except SchedStop Sched
  | 0, _, _ => .error .fuel
  | _ + 1, none, s => .ok s
  | fuel + 1, some q, s =>
    if q ∉ s.timers then .error .freed
    else
      let s := s.tickEntry now q
      tickLoop now fuel (s.sleepq.next (some q)) s

def dec32 (x : Nat) : Nat := if x = 0 then 2 ^ 32 - 1 else x - 1

/-- The end of `scheduler_tick`: one tick less for `current`. -/
def tickTimeslice (s : Sched) : Sched :=
  let left := dec32 (s.timeslice s.current)
  if left = 0 then { s with needResched := true, timeslice := Function.update s.timeslice s.current 20 }
  else { s with timeslice := Function.update s.timeslice s.current left }

def schedulerTick (s : Sched) : Except SchedStop Sched :=
  (tickLoop s.jiffies (s.timers.card + 1) (s.sleepq.next none) s).map tickTimeslice

def doTimer (s : Sched) : Except SchedStop Sched :=
  ({ s with jiffies := (s.jiffies + 1) % 2 ^ 64 } : Sched).schedulerTick

def deadline (jiffies : Nat) (us : Int) : Nat :=
  ((jiffies + (int64 (us * HZ + 999999)).tdiv 1000000) % 2 ^ 64).toNat

/-- `granted` is what `kmalloc` answers. -/
def sysUsleep (s : Sched) (granted : Option Nat) (us : Int) : Except SchedStop Sched :=
  let time := deadline s.jiffies us
  let s : Sched := { s with
    running := s.running.del s.current
    state := Function.update s.state s.current .interruptible }
  match granted with
  | none => .error .null
  | some q => .ok { s with
      wait := Function.update s.wait q ⟨time, s.current⟩
      timers := insert q s.timers
      sleepq := (s.sleepq.init (some q)).add none (some q)
      needResched := true }

end Sched

end Landaux
