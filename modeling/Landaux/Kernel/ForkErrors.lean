import Landaux.Kernel.ProcessRuns
import Landaux.Lib.Ring

/-!
# A failed `sys_fork`

`sys_fork` with the lists of tasks, where a task is known by the frame of its page.
-/

namespace Landaux
open Lib Radix

structure Queues where
  tasks : Links Nat
  running : Links Nat

/-- The two calls of `list_add`. -/
def Queues.link (q : Queues) (current page : Nat) : Queues :=
  ⟨q.tasks.add current page, q.running.add current page⟩

def sysForkLinked (s : State) (q : Queues) : Except Stop (Int × State × Queues) := do
  let (page, s) ← allocPage s
  if page = 0 then throw .null
  let pid := s.nextFreePid
  let s := { s with nextFreePid := pid + 1 }
  if 2 ^ 31 ≤ pid then throw .pid
  let q := q.link s.current.page page
  match ← cloneMm s with
  | (none, s) =>
    let s ← freePage page s
    return (-ENOMEM, { s with others := { s.current with pid := pid, page := page } :: s.others }, q)
  | (some (dir, areas), s) =>
    let regs := { s.current.regs with rax := 0 }
    return (pid, { s with others := ⟨pid, page, dir, areas, regs⟩ :: s.others }, q)

/-- Without its lists it is `sys_fork`. -/
theorem sysForkLinked_state (s : State) (q : Queues) :
    (sysForkLinked s q).map (fun r => (r.1, r.2.1)) = sysFork s := by
  unfold sysForkLinked sysFork
  cases allocPage s with
  | error stop => rfl
  | ok r =>
    obtain ⟨page, t⟩ := r
    change Except.map _ (if page = 0 then _ else if 2 ^ 31 ≤ t.nextFreePid then _ else _) =
      if page = 0 then _ else if 2 ^ 31 ≤ t.nextFreePid then _ else _
    split
    · rfl
    split
    · rfl
    change Except.map _ ((cloneMm _).bind _) = (cloneMm _).bind _
    cases cloneMm { t with nextFreePid := t.nextFreePid + 1 } with
    | error stop => rfl
    | ok r =>
      obtain ⟨_ | ⟨dir, areas⟩, u⟩ := r
      · change Except.map _ ((freePage page u).bind _) = (freePage page u).bind _
        cases freePage page u with
        | error stop => rfl
        | ok v => rfl
      · rfl

/-- What a failed `sys_fork` should leave as it was. -/
structure ForkUndone (s s' : State) (q q' : Queues) : Prop where
  tasks : ∀ h xs, Ring q.tasks h xs → Ring q'.tasks h xs
  running : ∀ h xs, Ring q.running h xs → Ring q'.running h xs
  frames : s'.pmm.bitmap = s.pmm.bitmap
  counts : ∀ f, s'.cnt f = s.cnt f
  tables : ∀ u ∈ s.current.tables s.ram, s'.ram u = s.ram u

/-- A well-formed list with the running process in it, and no page that is free. -/
structure Listed (s : State) (l : Links Nat) (idle : Nat) (xs : List Nat) : Prop where
  ring : Ring l idle xs
  current : s.current.page ∈ idle :: xs
  busy : ∀ n ∈ idle :: xs, s.Busy n

variable {static idle : Nat} {s t : State} {q : Queues} {ts : List Nat}

/-- With one free frame, the page of the child is allocated and its directory is not. -/
theorem sysForkLinked_last (h : Holds static 0 s) (room : s.room = 1) (pid : s.nextFreePid < 2 ^ 31) :
    ∃ page s', ¬ s.Busy page ∧
      sysForkLinked s q = .ok (-ENOMEM, s', q.link s.current.page page) := by
  have alloc := allocPage_spec h.ready
  unfold sysForkLinked
  cases first : allocPage s with
  | error stop => exact (alloc.of_error first).elim
  | ok r =>
    obtain ⟨page, t⟩ := r
    rcases alloc.of_ok first with ⟨-, -, full⟩ | ⟨nonzero, taken⟩
    · omega
    dsimp only at nonzero taken
    have effect : Effect static s {page} t := by
      have effect := Effect.take h taken t.ram fun u _ => congrFun taken.ram u
      rwa [add_zero] at effect
    have full : t.room = 0 := by
      have less := taken.room
      omega
    have ready := taken.ready
    have ready : Ready { t with nextFreePid := t.nextFreePid + 1 } :=
      ⟨ready.inv, ready.pages, ready.positive, ready.small, ready.nonneg⟩
    have none : cloneMm { t with nextFreePid := t.nextFreePid + 1 } =
        .ok (none, { t with nextFreePid := t.nextFreePid + 1 }) := by
      have alloc := allocPage_spec ready
      unfold cloneMm
      cases second : allocPage { t with nextFreePid := t.nextFreePid + 1 } with
      | error stop => exact (alloc.of_error second).elim
      | ok r =>
        obtain ⟨dir, u⟩ := r
        rcases alloc.of_ok second with ⟨zero, same, -⟩ | ⟨-, more⟩
        · dsimp only at zero same
          subst zero same
          rfl
        · have positive := more.room
          change t.room = _ at positive
          omega
    have mine : page ∈ ({page} : Multiset Nat) := Multiset.mem_singleton_self page
    have one : t.cnt page = 1 := effect.holds.cnt_owned (Multiset.mem_add.mpr (Or.inl mine))
      (effect.holds.extra_root mine)
    have frees := freePage_spec (s := { t with nextFreePid := t.nextFreePid + 1 }) ready one
    change ∃ page' s', _ ∧ (if page = 0 then _ else if 2 ^ 31 ≤ t.nextFreePid then _ else
      (cloneMm { t with nextFreePid := t.nextFreePid + 1 }).bind _) = _
    rw [if_neg nonzero, if_neg (by rw [taken.same.nextFreePid]; omega), none]
    change ∃ page' s', _ ∧ ((freePage page { t with nextFreePid := t.nextFreePid + 1 }).bind _) = _
    cases freed : freePage page { t with nextFreePid := t.nextFreePid + 1 } with
    | error stop => exact (frees.of_error freed).elim
    | ok v =>
      refine ⟨page, { v with others := { v.current with pid := t.nextFreePid, page := page } :: v.others },
        taken.fresh, ?_⟩
      rw [← taken.same.current]
      rfl

/-- The page is still behind the running process. -/
theorem Listed.not_undone {page : Nat} {s' : State} (tasks : Listed s q.tasks idle ts)
    (fresh : ¬ s.Busy page) (undone : ForkUndone s s' q (q.link s.current.page page)) : False := by
  have ring := undone.tasks idle ts tasks.ring
  have linked := (ring.neighbours tasks.current).1.1
  change (q.tasks.add s.current.page page).next s.current.page ∈ _ at linked
  rw [Links.add_next, if_pos rfl] at linked
  exact fresh (tasks.busy page linked)

/-- `sys_fork` fails in this way only. -/
theorem sysFork_fails {ret : Int} (h : Holds static 0 s) (result : sysFork s = .ok (ret, t))
    (negative : ret < 0) : s.room = 1 ∧ s.nextFreePid < 2 ^ 31 := by
  have few := ((sysFork_spec h).of_ok result).2
  have alloc := allocPage_spec h.ready
  unfold sysFork at result
  cases first : allocPage s with
  | error stop => exact (alloc.of_error first).elim
  | ok r =>
    obtain ⟨page, u⟩ := r
    rw [first] at result
    change (if page = 0 then _ else if 2 ^ 31 ≤ u.nextFreePid then _ else _) = _ at result
    rcases alloc.of_ok first with ⟨zero, -, -⟩ | ⟨nonzero, taken⟩
    · dsimp only at zero
      rw [if_pos zero] at result
      cases result
    · dsimp only at nonzero taken
      rw [if_neg nonzero] at result
      split at result
      · cases result
      · have positive := taken.room
        have same := taken.same.nextFreePid
        refine ⟨?_, by omega⟩
        by_contra more
        have zero := few (by omega)
        dsimp only at zero
        omega

theorem failed_fork_iff (h : Holds static 0 s) (tasks : Listed s q.tasks idle ts) :
    (∀ ret s' q', sysForkLinked s q = .ok (ret, s', q') → ret < 0 → ForkUndone s s' q q') ↔
      s.room ≠ 1 ∨ 2 ^ 31 ≤ s.nextFreePid := by
  constructor
  · intro harmless
    by_contra both
    rw [not_or, not_not, not_le] at both
    obtain ⟨page, s', fresh, result⟩ := sysForkLinked_last (q := q) h both.1 both.2
    exact tasks.not_undone fresh (harmless _ s' _ result (by decide))
  · intro other ret s' q' result negative
    have forks := sysForkLinked_state s q
    rw [result] at forks
    have fails := sysFork_fails h forks.symm negative
    omega

/-! ### A machine with one free frame -/

theorem grow_step (h : Holds static 0 s) (room : 0 < s.room) (contents : Memory Word) :
    ∃ t, Step s (.grow contents) t ∧ s.room = t.room + 1 ∧ t.current = s.current ∧
      t.nextFreePid = s.nextFreePid := by
  have alloc := allocPage_spec h.ready
  cases first : allocPage s with
  | error stop => exact (alloc.of_error first).elim
  | ok r =>
    obtain ⟨frame, t⟩ := r
    rcases alloc.of_ok first with ⟨-, -, full⟩ | ⟨nonzero, taken⟩
    · omega
    dsimp only at nonzero taken
    refine ⟨t.fillHeap frame contents, ⟨trivial, ?_⟩, taken.room, taken.same.current,
      taken.same.nextFreePid⟩
    change (allocPage s).bind _ = _
    rw [first]
    exact congrArg (fun b => Except.ok (b, t.fillHeap frame contents)) (by simpa using nonzero)

theorem grow_until (n : Nat) : ∀ s, Holds static 0 s → s.room = n + 1 → ∃ t, Holds static 0 t ∧
    t.room = 1 ∧ t.current = s.current ∧ t.nextFreePid = s.nextFreePid := by
  induction n with
  | zero => exact fun s h room => ⟨s, h, room, rfl, rfl⟩
  | succ n ih =>
    intro s h room
    obtain ⟨mid, step, less, current, pid⟩ := grow_step h (by omega) fun _ _ => 0
    obtain ⟨t, holds, one, current', pid'⟩ := ih mid (step_holds h step) (by omega)
    exact ⟨t, holds, one, current'.trans current, pid'.trans pid⟩

/-- The lists of a machine with one process and the idle task. -/
def pairQueues (page : Nat) : Queues :=
  ⟨((⟨id, id⟩ : Links Nat).init 0).add 0 page, ((⟨id, id⟩ : Links Nat).init 0).add 0 page⟩

theorem pair_listed (h : Holds 0 0 s) (dir : s.current.pageDir = 0) :
    Listed s (pairQueues s.current.page).tasks 0 [s.current.page] ∧
      Listed s (pairQueues s.current.page).running 0 [s.current.page] := by
  have fresh : s.current.page ∉ [0] := by
    have other := page_ne_dir h
    rw [dir] at other
    simpa using other
  have ring : Ring (pairQueues s.current.page).tasks 0 [s.current.page] := (Ring.init _ 0).add fresh
  have current : s.current.page ∈ [0, s.current.page] := by simp
  have busy : ∀ n ∈ [0, s.current.page], s.Busy n := by
    intro n member
    rcases List.mem_cons.mp member with rfl | second
    · exact Or.inr h.low
    · rw [List.mem_singleton.mp second]
      apply h.busy_owned
      rw [owned_eq]
      simp
  exact ⟨⟨ring, current, busy⟩, ⟨ring, current, busy⟩⟩

/-- The heap takes all frames but one. -/
theorem one_frame : ∃ s, Holds 0 0 s ∧ s.room = 1 ∧ s.nextFreePid < 2 ^ 31 ∧ s.current.pageDir = 0 := by
  obtain ⟨s, boot, -, room⟩ := booted_64
  obtain ⟨t, holds, one, current, pid⟩ := grow_until 61 s boot.holds room
  refine ⟨t, holds, one, ?_, by rw [current, boot.dir]⟩
  rw [pid, boot.next]
  decide

theorem failed_fork_iff_last : ∃ s, s.room = 1 ∧
    (∃ s' q', sysForkLinked s (pairQueues s.current.page) = .ok (-ENOMEM, s', q')) ∧
    ((∀ ret s' q', sysForkLinked s (pairQueues s.current.page) = .ok (ret, s', q') → ret < 0 →
      ForkUndone s s' (pairQueues s.current.page) q') ↔ s.room ≠ 1 ∨ 2 ^ 31 ≤ s.nextFreePid) := by
  obtain ⟨s, holds, one, small, dir⟩ := one_frame
  obtain ⟨page, s', -, result⟩ := sysForkLinked_last (q := pairQueues s.current.page) holds one small
  exact ⟨s, one, ⟨s', _, result⟩, failed_fork_iff holds (pair_listed holds dir).1⟩

/-- With one frame left, the first process calls `sys_fork`. -/
theorem failed_fork_stays_linked : ¬ ∀ (static idle : Nat) (s s' : State) (q q' : Queues)
    (ts rs : List Nat) (ret : Int), Holds static 0 s → Listed s q.tasks idle ts →
    Listed s q.running idle rs → sysForkLinked s q = .ok (ret, s', q') → ret < 0 →
    ForkUndone s s' q q' := by
  intro all
  obtain ⟨s, holds, one, small, dir⟩ := one_frame
  obtain ⟨tasks, running⟩ := pair_listed holds dir
  obtain ⟨page, s', fresh, result⟩ := sysForkLinked_last (q := pairQueues s.current.page) holds one small
  have undone := all 0 0 s s' _ _ _ _ _ holds tasks running result (by decide)
  exact tasks.not_undone fresh undone

end Landaux
