import Landaux.Fs.OpenFiles
import Landaux.Lib.Machine

/-!
# File descriptors

The array `pdt` of a task, and the system calls of `process.c` that use it or copy it. A task is known by
the address of its `task_t`.
-/

namespace Landaux
open Lib

def EBADF : Int := 9

structure Descriptors where
  mounts : Mounts
  current : Nat
  /-- the tasks that `free_task` has not freed -/
  tasks : Finset Nat
  pid : Nat → Nat
  nextFreePid : Nat
  pdt : Nat → Fin 10 → Option Nat

inductive DescriptorStop where
  /-- a write through `NULL` -/
  | null
  /-- `BUG_ON` of a pid, or `BUG` when process 1 exits -/
  | pid
  | call (stop : MountStop)
  deriving DecidableEq

def viaVfs {α : Type} (r : Except MountStop α) : Except DescriptorStop α := r.mapError .call

namespace Descriptors

def setSlot (s : Descriptors) (i : Fin 10) (f : Option Nat) : Descriptors :=
  { s with pdt := Function.update s.pdt s.current (Function.update (s.pdt s.current) i f) }

/-- The first loop of `sys_open`. -/
def freeSlot (s : Descriptors) : Option (Fin 10) :=
  (List.finRange 10).find? fun i => (s.pdt s.current i).isNone

def sysOpen (s : Descriptors) (reg : Registry) (a : MountAnswers) (path : List UInt8) (flags : BitVec 32) :
    Except DescriptorStop (Int × Descriptors) :=
  match s.freeSlot with
  | none => .ok (-ENOMEM, s)
  | some i => do
    match ← viaVfs (s.mounts.vfsOpen reg a path flags) with
    | (.error err, m) => return (err, { s with mounts := m })
    | (.ok f, m) => return (i.val, ({ s with mounts := m } : Descriptors).setSlot i (some f))

/-- The two tests of a descriptor that are answered with `-EBADF`. -/
def lookupFd (s : Descriptors) (fd : Int) : Option (Fin 10 × Nat) :=
  if inside : 0 ≤ fd ∧ fd < 10 then
    (s.pdt s.current ⟨fd.toNat, by omega⟩).map (⟨fd.toNat, by omega⟩, ·)
  else none

def sysClose (s : Descriptors) (reg : Registry) (fd : Int) : Except DescriptorStop (Int × Descriptors) :=
  match s.lookupFd fd with
  | none => .ok (-EBADF, s)
  | some (i, f) => do
    let (err, m) ← viaVfs (s.mounts.vfsClose reg f)
    if err < 0 then return (err, { s with mounts := m })
    else return (0, ({ s with mounts := m } : Descriptors).setSlot i none)

/-- `sys_read`, `sys_write` and `sys_lseek` pass the `file_t` on. -/
def passOn (s : Descriptors) (fd : Int) (call : Nat → Mounts → Except MountStop (Int × Mounts)) :
    Except DescriptorStop (Int × Descriptors) :=
  match s.lookupFd fd with
  | none => .ok (-EBADF, s)
  | some (_, f) => do
    let (ret, m) ← viaVfs (call f s.mounts)
    return (ret, { s with mounts := m })

def sysRead (s : Descriptors) (reg : Registry) (fd : Int) (size : Nat) : Except DescriptorStop (Int × Descriptors) :=
  s.passOn fd fun f m => (m.vfsRead reg f size).map fun (ret, m) => (ret.1, m)

def sysWrite (s : Descriptors) (reg : Registry) (a : MountAnswers) (fd : Int) (buf : List UInt8) :
    Except DescriptorStop (Int × Descriptors) :=
  s.passOn fd fun f m => m.vfsWrite reg a f buf

def sysLseek (s : Descriptors) (reg : Registry) (fd : Int) (offset : Nat) (whence : Int) :
    Except DescriptorStop (Int × Descriptors) :=
  s.passOn fd fun f m => m.vfsLseek reg f offset whence

/-- `sys_fork`, of which `page` is what `alloc_page` answers and `cloned` whether `clone_mm` succeeds. The
whole `task_t` is copied. -/
def sysFork (s : Descriptors) (page : Option Nat) (cloned : Bool) : Except DescriptorStop (Int × Descriptors) :=
  match page with
  | none => .error .null
  | some p =>
    if 2 ^ 31 ≤ s.nextFreePid then .error .pid
    else
      let child : Descriptors := { s with
        pid := Function.update s.pid p s.nextFreePid
        nextFreePid := s.nextFreePid + 1
        pdt := Function.update s.pdt p (s.pdt s.current) }
      if cloned then .ok (s.nextFreePid, { child with tasks := insert p s.tasks }) else .ok (-ENOMEM, child)

/-- `sys_exit`, after which `next` runs and has freed the task. -/
def sysExit (s : Descriptors) (next : Nat) : Except DescriptorStop (Int × Descriptors) :=
  if s.pid s.current = 1 then .error .pid
  else .ok (0, { s with current := next, tasks := s.tasks.erase s.current })

end Descriptors

/-! ### Steps -/

inductive DescriptorCall where
  | opens (path : List UInt8) (flags : BitVec 32)
  | closes (fd : Int)
  | read (fd : Int) (size : Nat)
  | write (fd : Int) (buf : List UInt8)
  | lseek (fd : Int) (offset : Nat) (whence : Int)
  | fork (page : Option Nat) (cloned : Bool)
  | exit (next : Nat)
  /-- another task runs -/
  | switch (next : Nat)

/-- A call, with what the devices and the allocator answer while it runs. -/
structure DescriptorEvent where
  devices : Nat → Device
  answers : MountAnswers
  call : DescriptorCall

namespace DescriptorEvent

/-- The allocator hands out memory that is not in use, and a task that runs is there. -/
def Enabled (e : DescriptorEvent) (s : Descriptors) : Prop :=
  match e.call with
  | .opens _ _ => ∀ q, e.answers.file = some q → q ∉ s.mounts.opened
  | .fork page _ => ∀ p, page = some p → p ∉ s.tasks
  | .exit next => next ∈ s.tasks ∧ next ≠ s.current
  | .switch next => next ∈ s.tasks
  | _ => True

def act (count : Nat) (e : DescriptorEvent) (s : Descriptors) : Except DescriptorStop (Int × Descriptors) :=
  match e.call with
  | .opens path flags => s.sysOpen (filesystems e.devices count) e.answers path flags
  | .closes fd => s.sysClose (filesystems e.devices count) fd
  | .read fd size => s.sysRead (filesystems e.devices count) fd size
  | .write fd buf => s.sysWrite (filesystems e.devices count) e.answers fd buf
  | .lseek fd offset whence => s.sysLseek (filesystems e.devices count) fd offset whence
  | .fork page cloned => s.sysFork page cloned
  | .exit next => s.sysExit next
  | .switch next => .ok (0, { s with current := next })

end DescriptorEvent

def DescriptorStep (count : Nat) (s : Descriptors) (e : DescriptorEvent) (t : Descriptors) : Prop :=
  e.Enabled s ∧ ∃ ret, e.act count s = .ok (ret, t)

namespace Descriptors

/-- The entries of task `p` that point to `f`. -/
def owns (s : Descriptors) (p f : Nat) : Nat := ∑ i, if s.pdt p i = some f then 1 else 0

def entries (s : Descriptors) (f : Nat) : Nat := ∑ p ∈ s.tasks, s.owns p f

/-- Every descriptor of a live task points to an open file, and the references to a file are counted. -/
structure Counted (s : Descriptors) : Prop where
  opened : ∀ p ∈ s.tasks, ∀ i f, s.pdt p i = some f → f ∈ s.mounts.opened
  refcnt : ∀ f ∈ s.mounts.opened, (s.mounts.file f).refcnt = s.entries f

end Descriptors

/-- A task that forks or exits has no descriptor, and the filesystem has no error for the last close of a
file. -/
def DescriptorEvent.Careful (count : Nat) (s : Descriptors) (e : DescriptorEvent) : Prop :=
  match e.call with
  | .closes fd => ∀ i f, s.lookupFd fd = some (i, f) → (s.mounts.file f).refcnt = 1 →
      0 ≤ s.mounts.closeAnswer (filesystems e.devices count) f
  | .fork _ cloned => cloned = true → ∀ i, s.pdt s.current i = none
  | .exit _ => ∀ i, s.pdt s.current i = none
  | _ => True

/-! ### Counting -/

variable {s t : Descriptors} {e : DescriptorEvent} {events : List DescriptorEvent} {m : Mounts} {reg : Registry}
  {i : Fin 10} {count f g p : Nat} {fd : Int}

/-- Two sums that differ in one summand. -/
theorem sum_one_changed {ι : Type} [DecidableEq ι] {S : Finset ι} {x y : ι → Nat} {j : ι} (member : j ∈ S)
    (others : ∀ k ∈ S, k ≠ j → y k = x k) : ∑ k ∈ S, y k + x j = ∑ k ∈ S, x k + y j := by
  rw [← Finset.add_sum_erase S x member, ← Finset.add_sum_erase S y member]
  have rest : ∑ k ∈ S.erase j, y k = ∑ k ∈ S.erase j, x k :=
    Finset.sum_congr rfl fun k inside => others k (Finset.mem_of_mem_erase inside) (Finset.ne_of_mem_erase inside)
  omega

namespace Descriptors

theorem owns_pos_iff : 0 < s.owns p f ↔ ∃ i, s.pdt p i = some f := by
  unfold owns
  rw [Finset.sum_pos_iff]
  constructor
  · rintro ⟨i, -, positive⟩
    refine ⟨i, ?_⟩
    by_contra other
    rw [if_neg other] at positive
    exact absurd positive (lt_irrefl 0)
  · rintro ⟨i, here⟩
    exact ⟨i, Finset.mem_univ i, by rw [if_pos here]; exact one_pos⟩

theorem entries_pos_iff : 0 < s.entries f ↔ ∃ p ∈ s.tasks, ∃ i, s.pdt p i = some f := by
  unfold entries
  rw [Finset.sum_pos_iff]
  exact exists_congr fun p => and_congr_right fun _ => owns_pos_iff

theorem Counted.entries_zero (counted : Counted s) (closed : f ∉ s.mounts.opened) : s.entries f = 0 := by
  by_contra some
  obtain ⟨p, member, i, here⟩ := entries_pos_iff.mp (Nat.pos_of_ne_zero some)
  exact closed (counted.opened p member i f here)

theorem owns_congr {q : Nat} (pdt : t.pdt q = s.pdt p) : t.owns q f = s.owns p f := by
  unfold owns
  rw [pdt]

/-- The fields that `entries` reads. -/
theorem entries_congr (tasks : t.tasks = s.tasks) (pdt : ∀ p ∈ s.tasks, t.pdt p = s.pdt p) : t.entries f = s.entries f := by
  unfold entries
  rw [tasks]
  exact Finset.sum_congr rfl fun p member => owns_congr (pdt p member)

theorem Counted.congr (counted : Counted s) (tasks : t.tasks = s.tasks) (pdt : ∀ p ∈ s.tasks, t.pdt p = s.pdt p)
    (same : SameHandles s.mounts.toVfs t.mounts.toVfs) : Counted t where
  opened := fun p member i f here => by
    rw [tasks] at member
    rw [pdt p member] at here
    rw [same.1]
    exact counted.opened p member i f here
  refcnt := fun f member => by
    rw [same.1] at member
    rw [entries_congr tasks pdt, same.refcnt member]
    exact counted.refcnt f member

theorem owns_setSlot (i : Fin 10) (x : Option Nat) : (s.setSlot i x).owns s.current f +
    (if s.pdt s.current i = some f then 1 else 0) = s.owns s.current f + if x = some f then 1 else 0 := by
  have slots : ∀ j, (s.setSlot i x).pdt s.current j = if j = i then x else s.pdt s.current j := by
    intro j
    simp [setSlot, Function.update_apply]
  have changed := sum_one_changed (S := Finset.univ) (x := fun j => if s.pdt s.current j = some f then 1 else 0)
    (y := fun j => if (s.setSlot i x).pdt s.current j = some f then 1 else 0) (Finset.mem_univ i) fun k _ other => by
      rw [slots, if_neg other]
  rw [slots i, if_pos rfl] at changed
  exact changed

/-- An entry of the running task is set. -/
theorem entries_setSlot (there : s.current ∈ s.tasks) (i : Fin 10) (x : Option Nat) : (s.setSlot i x).entries f +
    (if s.pdt s.current i = some f then 1 else 0) = s.entries f + if x = some f then 1 else 0 := by
  have changed := sum_one_changed (S := s.tasks) (x := fun p => s.owns p f) (y := fun p => (s.setSlot i x).owns p f)
    there fun q _ other => owns_congr (Function.update_of_ne other _ _)
  have slot := owns_setSlot (s := s) (f := f) i x
  unfold entries
  change ∑ p ∈ s.tasks, (s.setSlot i x).owns p f + _ = _
  omega

/-! ### The calls -/

theorem freeSlot_free (found : s.freeSlot = some i) : s.pdt s.current i = none := by
  have free := List.find?_some found
  exact Option.isNone_iff_eq_none.mp free

theorem lookupFd_here (found : s.lookupFd fd = some (i, f)) : s.pdt s.current i = some f := by
  unfold lookupFd at found
  split at found
  · obtain ⟨g, here, eq⟩ := Option.map_eq_some_iff.mp found
    obtain ⟨rfl, rfl⟩ := Prod.mk.inj eq
    exact here
  · cases found

def SameTasks (s t : Descriptors) : Prop := t.current = s.current ∧ t.tasks = s.tasks

variable {devices : Nat → Device} {a : MountAnswers} {path : List UInt8} {flags : BitVec 32} {ret : Int}

/-- A new descriptor for a new file. -/
theorem Counted.openSlot (counted : Counted s) (there : s.current ∈ s.tasks) (free : s.pdt s.current i = none)
    (fresh : f ∉ s.mounts.opened) (makes : MakesFile s.mounts m f) :
    Counted (({ s with mounts := m } : Descriptors).setSlot i (some f)) := by
  have entries : ∀ g, (({ s with mounts := m } : Descriptors).setSlot i (some f)).entries g =
      s.entries g + if some f = some g then 1 else 0 := by
    intro g
    have changed := entries_setSlot (s := { s with mounts := m }) (f := g) there i (some f)
    change _ + (if s.pdt s.current i = some g then 1 else 0) = s.entries g + _ at changed
    rw [free, if_neg (by simp)] at changed
    exact changed
  constructor
  · intro p member j g here
    change g ∈ m.opened
    rw [makes.opened, Finset.mem_insert]
    by_cases mine : p = s.current ∧ j = i
    · obtain ⟨rfl, rfl⟩ := mine
      simp only [setSlot, Function.update_self] at here
      exact Or.inl (Option.some.inj here).symm
    · refine Or.inr (counted.opened p member j g ?_)
      rw [← here]
      by_cases same : p = s.current
      · subst same
        have other : j ≠ i := fun eq => mine ⟨rfl, eq⟩
        simp [setSlot, other]
      · simp [setSlot, same]
  · intro g member
    change g ∈ m.opened at member
    change (m.file g).refcnt = _
    rw [makes.opened, Finset.mem_insert] at member
    rw [entries]
    rcases member with rfl | old
    · rw [makes.once, counted.entries_zero fresh, if_pos rfl]
      rfl
    · have other : f ≠ g := by
        rintro rfl
        exact fresh old
      rw [makes.others g old, counted.refcnt g old, if_neg (by simpa using other), add_zero]

theorem sysOpen_counted (counted : Counted s) (there : s.current ∈ s.tasks)
    (fresh : ∀ q, a.file = some q → q ∉ s.mounts.opened)
    (ok : s.sysOpen (filesystems devices count) a path flags = .ok (ret, t)) : Counted t ∧ SameTasks s t := by
  unfold sysOpen at ok
  cases slot : s.freeSlot with
  | none =>
    rw [slot] at ok
    cases ok
    exact ⟨counted, rfl, rfl⟩
  | some i =>
    rw [slot] at ok
    dsimp only at ok
    cases opens : s.mounts.vfsOpen (filesystems devices count) a path flags with
    | error stop =>
      rw [opens] at ok
      cases ok
    | ok r =>
      rw [opens] at ok
      have returns : OpenReturns a s.mounts r := (vfsOpen_files fresh).of_ok opens
      obtain ⟨r, m⟩ := r
      rcases returns with ⟨q, rfl, granted, makes⟩ | ⟨⟨err, rfl⟩, same⟩
      · cases ok
        exact ⟨counted.openSlot there (freeSlot_free slot) (fresh q granted) makes, rfl, rfl⟩
      · cases ok
        exact ⟨counted.congr rfl (fun _ _ => rfl) same.handles, rfl, rfl⟩

theorem passOn_counted {call : Nat → Mounts → Except MountStop (Int × Mounts)} (counted : Counted s)
    (keeps : ∀ f, Ends (call f s.mounts) (fun r => SameHandles s.mounts.toVfs r.2.toVfs) fun _ => True)
    (ok : s.passOn fd call = .ok (ret, t)) : Counted t ∧ SameTasks s t := by
  unfold passOn at ok
  cases slot : s.lookupFd fd with
  | none =>
    rw [slot] at ok
    cases ok
    exact ⟨counted, rfl, rfl⟩
  | some slot' =>
    obtain ⟨i, f⟩ := slot'
    rw [slot] at ok
    dsimp only at ok
    cases calls : call f s.mounts with
    | error stop =>
      rw [calls] at ok
      cases ok
    | ok r =>
      rw [calls] at ok
      have same := (keeps f).of_ok calls
      cases ok
      exact ⟨counted.congr rfl (fun _ _ => rfl) same, rfl, rfl⟩

/-- The last descriptor of a file, or one of more, is cleared. -/
theorem Counted.clearSlot (counted : Counted s) (there : s.current ∈ s.tasks) (here : s.pdt s.current i = some f)
    (drops : DropsFile s.mounts reg f ret m) : Counted (({ s with mounts := m } : Descriptors).setSlot i none) := by
  have inside := counted.opened _ there i f here
  have entries : ∀ g, (({ s with mounts := m } : Descriptors).setSlot i none).entries g +
      (if some f = some g then 1 else 0) = s.entries g := by
    intro g
    have changed := entries_setSlot (s := { s with mounts := m }) (f := g) there i none
    change _ + (if s.pdt s.current i = some g then 1 else 0) = s.entries g + _ at changed
    rw [here, if_neg (show (none : Option Nat) ≠ some g by simp)] at changed
    exact changed
  have less : ∀ p j g, (({ s with mounts := m } : Descriptors).setSlot i none).pdt p j = some g → s.pdt p j = some g := by
    intro p j g eq
    simp only [setSlot, Function.update_apply] at eq
    by_cases mine : p = s.current
    · subst mine
      rw [if_pos rfl, Function.update_apply] at eq
      split at eq
      · cases eq
      · exact eq
    · rw [if_neg mine] at eq
      exact eq
  have mine := entries f
  rw [if_pos rfl] at mine
  have total := counted.refcnt f inside
  by_cases last : (s.mounts.file f).refcnt = 1
  · obtain ⟨-, opened⟩ := drops.last last
    rw [last] at total
    have gone : (({ s with mounts := m } : Descriptors).setSlot i none).entries f = 0 := by omega
    constructor
    · intro p member j g eq
      change g ∈ m.opened
      rw [opened, Finset.mem_erase]
      refine ⟨?_, counted.opened p member j g (less p j g eq)⟩
      rintro rfl
      exact absurd gone (entries_pos_iff.mpr ⟨p, member, j, eq⟩).ne'
    · intro g member
      change g ∈ m.opened at member
      change (m.file g).refcnt = _
      rw [opened, Finset.mem_erase] at member
      have same := entries g
      rw [if_neg (by simpa using member.1.symm), add_zero] at same
      rw [drops.others g member.2 member.1, counted.refcnt g member.2, same]
  · obtain ⟨-, opened, fewer⟩ := drops.more last
    constructor
    · intro p member j g eq
      change g ∈ m.opened
      rw [opened]
      exact counted.opened p member j g (less p j g eq)
    · intro g member
      change g ∈ m.opened at member
      change (m.file g).refcnt = _
      rw [opened] at member
      by_cases same : g = f
      · subst same
        rw [fewer, total, ← mine]
        push_cast
        ring
      · have kept := entries g
        rw [if_neg (by simpa using Ne.symm same), add_zero] at kept
        rw [drops.others g member same, counted.refcnt g member, kept]

/-- A close is careful exactly when the files are counted after it. -/
theorem sysClose_counted_iff (counted : Counted s) (there : s.current ∈ s.tasks)
    (ok : s.sysClose (filesystems devices count) fd = .ok (ret, t)) :
    (Counted t ↔ ∀ i f, s.lookupFd fd = some (i, f) → (s.mounts.file f).refcnt = 1 →
      0 ≤ s.mounts.closeAnswer (filesystems devices count) f) ∧ SameTasks s t := by
  unfold sysClose at ok
  cases slot : s.lookupFd fd with
  | none =>
    rw [slot] at ok
    cases ok
    exact ⟨iff_of_true counted (by simp), rfl, rfl⟩
  | some slot' =>
    obtain ⟨i, f⟩ := slot'
    rw [slot] at ok
    dsimp only at ok
    have here := lookupFd_here slot
    have inside := counted.opened _ there i f here
    cases closes : s.mounts.vfsClose (filesystems devices count) f with
    | error stop =>
      rw [closes] at ok
      cases ok
    | ok r =>
      rw [closes] at ok
      have drops := (vfsClose_files inside).of_ok closes
      obtain ⟨err, m⟩ := r
      change (if err < 0 then Except.ok (err, { s with mounts := m })
        else .ok (0, ({ s with mounts := m } : Descriptors).setSlot i none)) = _ at ok
      by_cases failed : err < 0
      · rw [if_pos failed] at ok
        cases ok
        have last : (s.mounts.file f).refcnt = 1 := by
          by_contra more
          have zero := (drops.more more).1
          omega
        obtain ⟨answer, opened⟩ := drops.last last
        refine ⟨iff_of_false (fun counted' => ?_) fun all => ?_, rfl, rfl⟩
        · have still : f ∈ m.opened := counted'.opened _ there i f here
          rw [opened] at still
          exact Finset.notMem_erase f _ still
        · have positive := all i f rfl last
          dsimp only at answer
          omega
      · rw [if_neg failed] at ok
        cases ok
        refine ⟨iff_of_true (counted.clearSlot there here drops) fun j g eq last => ?_, rfl, rfl⟩
        obtain ⟨rfl, rfl⟩ := Prod.mk.inj (Option.some.inj eq)
        have answer := (drops.last last).1
        dsimp only at answer
        omega

theorem owns_zero_iff : (∀ f, s.owns p f = 0) ↔ ∀ i, s.pdt p i = none := by
  constructor
  · intro all i
    cases here : s.pdt p i with
    | none => rfl
    | some f => exact absurd (all f) (owns_pos_iff.mpr ⟨i, here⟩).ne'
  · intro none f
    by_contra some
    obtain ⟨i, here⟩ := owns_pos_iff.mp (Nat.pos_of_ne_zero some)
    rw [none i] at here
    cases here

/-- The descriptors of a task come to be counted once more, or once less. -/
theorem Counted.shifted_iff (counted : Counted s) (there : s.current ∈ s.tasks) (mounts : t.mounts = s.mounts)
    (owned : ∀ p ∈ t.tasks, ∃ q ∈ s.tasks, t.pdt p = s.pdt q)
    (entries : (∀ f, t.entries f = s.entries f + s.owns s.current f) ∨
      ∀ f, t.entries f + s.owns s.current f = s.entries f) :
    Counted t ↔ ∀ i, s.pdt s.current i = none := by
  rw [← owns_zero_iff]
  constructor
  · intro counted' f
    by_contra some
    obtain ⟨i, here⟩ := owns_pos_iff.mp (Nat.pos_of_ne_zero some)
    have inside := counted.opened _ there i f here
    have before := counted.refcnt f inside
    have after := counted'.refcnt f (mounts ▸ inside)
    rw [mounts, before] at after
    have same : s.entries f = t.entries f := by exact_mod_cast after
    rcases entries with more | less
    · have := more f
      omega
    · have := less f
      omega
  · intro zero
    constructor
    · intro p member i f here
      obtain ⟨q, member', same⟩ := owned p member
      rw [mounts]
      exact counted.opened q member' i f (same ▸ here)
    · intro f member
      rw [mounts] at member ⊢
      have same : t.entries f = s.entries f := by
        rcases entries with more | less
        · rw [more f, zero f, add_zero]
        · rw [← less f, zero f, add_zero]
      rw [same]
      exact counted.refcnt f member

theorem sysFork_counted_iff {page : Option Nat} {cloned : Bool} (counted : Counted s) (there : s.current ∈ s.tasks)
    (fresh : ∀ p, page = some p → p ∉ s.tasks) (ok : s.sysFork page cloned = .ok (ret, t)) :
    (Counted t ↔ (cloned = true → ∀ i, s.pdt s.current i = none)) ∧ t.current ∈ t.tasks := by
  unfold sysFork at ok
  cases page with
  | none => cases ok
  | some p =>
    have unused := fresh p rfl
    dsimp only at ok
    split at ok
    · cases ok
    have old : ∀ q ∈ s.tasks, Function.update s.pdt p (s.pdt s.current) q = s.pdt q := by
      intro q member
      apply Function.update_of_ne
      rintro rfl
      exact unused member
    cases cloned with
    | false =>
      cases ok
      exact ⟨iff_of_true (counted.congr rfl old SameFiles.refl.handles) (by simp), there⟩
    | true =>
      cases ok
      refine ⟨Iff.trans (counted.shifted_iff there rfl ?_ (Or.inl ?_)) ⟨fun none _ => none, fun all => all rfl⟩,
        Finset.mem_insert_of_mem there⟩
      · intro q member
        rcases Finset.mem_insert.mp member with rfl | inside
        · exact ⟨s.current, there, Function.update_self _ _ _⟩
        · exact ⟨q, inside, old q inside⟩
      · intro f
        unfold entries
        rw [Finset.sum_insert unused, add_comm]
        exact congrArg₂ (· + ·) (Finset.sum_congr rfl fun q member => owns_congr (old q member))
          (owns_congr (Function.update_self _ _ _))

theorem sysExit_counted_iff {next : Nat} (counted : Counted s) (there : s.current ∈ s.tasks)
    (ready : next ∈ s.tasks ∧ next ≠ s.current) (ok : s.sysExit next = .ok (ret, t)) :
    (Counted t ↔ ∀ i, s.pdt s.current i = none) ∧ t.current ∈ t.tasks := by
  unfold sysExit at ok
  split at ok
  · cases ok
  cases ok
  refine ⟨counted.shifted_iff there rfl ?_ (Or.inr fun f => ?_), Finset.mem_erase.mpr ⟨ready.2, ready.1⟩⟩
  · exact fun p member => ⟨p, Finset.mem_of_mem_erase member, rfl⟩
  · exact Finset.sum_erase_add s.tasks (fun p => s.owns p f) there

end Descriptors

/-! ### Runs -/

theorem map_ends {α β : Type} {r : Except MountStop α} {post : α → Prop} {post' : β → Prop} {f : α → β}
    (h : Ends r post fun _ => True) (next : ∀ x, post x → post' (f x)) : Ends (r.map f) post' fun _ => True := by
  cases r with
  | error stop => exact trivial
  | ok x => exact next x h

/-- What one call makes of a state in which the files are counted. -/
theorem DescriptorStep.counted_iff (counted : s.Counted) (there : s.current ∈ s.tasks) (step : DescriptorStep count s e t) :
    (t.Counted ↔ e.Careful count s) ∧ t.current ∈ t.tasks := by
  obtain ⟨enabled, ret, ok⟩ := step
  obtain ⟨devices, a, call⟩ := e
  have kept : t.Counted ∧ s.SameTasks t → (t.Counted ↔ True) ∧ t.current ∈ t.tasks := by
    rintro ⟨counted', current, tasks⟩
    exact ⟨iff_of_true counted' trivial, by rw [current, tasks]; exact there⟩
  cases call with
  | opens path flags => exact kept (Descriptors.sysOpen_counted counted there enabled ok)
  | closes fd =>
    obtain ⟨exact, current, tasks⟩ := Descriptors.sysClose_counted_iff counted there ok
    exact ⟨exact, by rw [current, tasks]; exact there⟩
  | read fd size =>
    change s.sysRead (filesystems devices count) fd size = _ at ok
    unfold Descriptors.sysRead at ok
    refine kept (Descriptors.passOn_counted counted (fun f => ?_) ok)
    apply map_ends vfsRead_files
    exact fun _ same => same
  | write fd buf =>
    change s.sysWrite (filesystems devices count) a fd buf = _ at ok
    unfold Descriptors.sysWrite at ok
    exact kept (Descriptors.passOn_counted counted (fun f => vfsWrite_files) ok)
  | lseek fd offset whence =>
    change s.sysLseek (filesystems devices count) fd offset whence = _ at ok
    unfold Descriptors.sysLseek at ok
    exact kept (Descriptors.passOn_counted counted (fun f => vfsLseek_files) ok)
  | fork page cloned => exact Descriptors.sysFork_counted_iff counted there enabled ok
  | exit next => exact Descriptors.sysExit_counted_iff counted there enabled ok
  | switch next =>
    cases ok
    exact ⟨iff_of_true (counted.congr rfl (fun _ _ => rfl) SameFiles.refl.handles) trivial, enabled⟩

/-- All states of a run have their files counted exactly when its steps are careful. -/
theorem descriptors_counted_iff (count : Nat) (s : Descriptors) (counted : s.Counted) (there : s.current ∈ s.tasks)
    (events : List DescriptorEvent) : Throughout (DescriptorStep count) (fun _ _ t => t.Counted) s events ↔
      Throughout (DescriptorStep count) (fun s e _ => e.Careful count s) s events := by
  apply Throughout.congr fun s : Descriptors => s.Counted ∧ s.current ∈ s.tasks
  · exact ⟨counted, there⟩
  · intro s e t good step
    exact (step.counted_iff good.1 good.2).1
  · intro s e t good step counted'
    exact ⟨counted', (step.counted_iff good.1 good.2).2⟩

def Descriptors.boot : Descriptors where
  mounts := { Mounts.bare with toVfs := .mounted 1 }
  current := 1
  tasks := {1}
  pid := id
  nextFreePid := 2
  pdt := fun _ _ => none

theorem Descriptors.boot_counted : boot.Counted where
  opened := fun _ _ _ _ here => by cases here
  refcnt := fun f member => absurd member (Finset.notMem_empty f)

/-- A run that opens a file and closes it. -/
theorem descriptors_counted_iff_boot :
    Throughout (DescriptorStep 1) (fun _ _ t => t.Counted) Descriptors.boot
      [⟨fun _ => nullDevice, plentiful 2, .opens [slash, 102] (O_CREAT ||| O_RDWR)⟩,
        ⟨fun _ => nullDevice, plentiful 3, .closes 0⟩] ↔
    Throughout (DescriptorStep 1) (fun s e _ => e.Careful 1 s) Descriptors.boot
      [⟨fun _ => nullDevice, plentiful 2, .opens [slash, 102] (O_CREAT ||| O_RDWR)⟩,
        ⟨fun _ => nullDevice, plentiful 3, .closes 0⟩] :=
  descriptors_counted_iff 1 .boot Descriptors.boot_counted (Finset.mem_singleton_self 1) _

/-- A file is opened, the process forks, and the parent closes it: the descriptor of the child points to a
`file_t` that is freed. -/
theorem fork_loses_descriptor : ¬ ∀ events t, Run (DescriptorStep 1) Descriptors.boot events t → t.Counted := by
  intro all
  have run : ∃ t, Run (DescriptorStep 1) Descriptors.boot
      [⟨fun _ => nullDevice, plentiful 2, .opens [slash, 102] (O_CREAT ||| O_RDWR)⟩,
        ⟨fun _ => nullDevice, plentiful 3, .fork (some 3) true⟩,
        ⟨fun _ => nullDevice, plentiful 3, .closes 0⟩] t ∧
      3 ∈ t.tasks ∧ t.pdt 3 0 = some 2 ∧ t.mounts.opened = ∅ :=
    ⟨_, .cons ⟨fun q _ => Finset.notMem_empty q, _, rfl⟩ (.cons ⟨fun p eq => by cases eq; decide, _, rfl⟩
      (.single ⟨trivial, _, rfl⟩)), by decide, rfl, by decide⟩
  obtain ⟨t, run, child, points, closed⟩ := run
  have opened := (all _ t run).opened 3 child 0 2 points
  rw [closed] at opened
  exact Finset.notMem_empty 2 opened

end Landaux
