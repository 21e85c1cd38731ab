import Landaux.Fs.Filesystems

/-!
# Missing operations

Where the VFS calls through a pointer of an `fs_t` that is `NULL`. An operation itself never ends with
such a call.
-/

namespace Landaux
open Mounts

variable {reg : Registry} {a : MountAnswers} {m t : Mounts} {call : VfsCall} {d fd p : Nat} {name : Name}
  {path : List UInt8} {flags : BitVec 8} {α β : Type}

/-! ### Steps that do not call through NULL -/

/-- A program calls through no pointer that is `NULL`. -/
def Safe (r : Except MountStop α) : Prop := r ≠ .error .null

theorem safe_ok {x : α} : Safe (.ok x : Except MountStop α) := nofun

theorem safe_ran {r : Except FsStop α} : Safe (ran r) := by
  cases r with
  | ok x => exact nofun
  | error stop => exact nofun

theorem safe_bind {r : Except MountStop α} {f : α → Except MountStop β} :
    Safe (r >>= f) ↔ Safe r ∧ ∀ x, r = .ok x → Safe (f x) := by
  cases r with
  | ok x =>
    refine ⟨fun rest => ⟨nofun, ?_⟩, fun both => both.2 x rfl⟩
    rintro _ ⟨⟩
    exact rest
  | error stop =>
    refine ⟨fun first => ⟨?_, nofun⟩, fun both => ?_⟩
    · rintro ⟨⟩
      exact first rfl
    · rintro ⟨⟩
      exact both.1 rfl

theorem safe_map {r : Except MountStop α} {f : α → β} : Safe (r.map f) ↔ Safe r := by
  cases r with
  | ok x => exact iff_of_true nofun nofun
  | error stop =>
    refine ⟨fun first => ?_, fun first => ?_⟩
    · rintro ⟨⟩
      exact first rfl
    · rintro ⟨⟩
      exact first rfl

theorem safe_guarded {op : Option (Mounts → Except FsStop (Int × Mounts))} : Safe (guarded op m) := by
  cases op with
  | none => exact nofun
  | some f => exact safe_ran

theorem safe_through {op : Option α} : Safe (through op) ↔ op ≠ none := by
  cases op with
  | none => exact iff_of_false (fun safe => safe rfl) fun some => some rfl
  | some f => exact iff_of_true nofun nofun

/-! ### Lookups -/

theorem safe_put : Safe (m.put d) := safe_ran

theorem safe_put_return {x : Mounts → α} : Safe (m.put d >>= fun m => pure (x m)) :=
  safe_bind.mpr ⟨safe_put, fun _ _ => safe_ok⟩

theorem safe_lookupIn : Safe (m.lookupIn reg d name) := by
  refine safe_bind.mpr ⟨?_, fun _ _ => safe_ran⟩
  unfold touch
  split
  · exact nofun
  · exact nofun

theorem safe_walk (fuel : Nat) : ∀ i path d m, Safe (walk reg a flags fuel i path d m) := by
  induction fuel with
  | zero =>
    intro i path d m
    exact nofun
  | succ fuel ih =>
    intro i path d m
    rw [walk]
    dsimp only
    split
    · exact safe_put_return
    split
    · exact safe_ok
    refine safe_bind.mpr ⟨safe_lookupIn, ?_⟩
    rintro ⟨_ | new, m⟩ -
    · dsimp only
      split
      · exact safe_ok
      · exact safe_put_return
    · dsimp only
      split
      · exact safe_put_return
      split
      · split
        · exact safe_put_return
        · exact safe_ok
      split
      · exact safe_ok
      · exact ih _ _ _ _

theorem safe_lookup : Safe (m.lookupPathCommon reg a path flags) := by
  refine safe_bind.mpr ⟨safe_ran, fun m _ => ?_⟩
  split
  · exact nofun
  dsimp only
  split
  · exact safe_ok
  refine safe_bind.mpr ⟨safe_walk _ _ _ _ _, ?_⟩
  rintro ⟨_ | r, m⟩ -
  · exact safe_ok
  · exact safe_ok

/-! ### Calls that check -/

theorem safe_mount {fstype : Name} : Safe (m.vfsMount reg a fstype path) := by
  unfold vfsMount
  split
  · exact safe_ok
  split
  · split
    · exact safe_ok
    · exact safe_ran
  refine safe_bind.mpr ⟨safe_lookup, ?_⟩
  rintro ⟨_ | ⟨d, name⟩, m⟩ -
  · exact safe_ok
  dsimp only
  unfold mountOn
  split
  · exact safe_put_return
  split
  · exact safe_put_return
  split
  · exact safe_put_return
  refine safe_bind.mpr ⟨safe_ran, fun r _ => ?_⟩
  dsimp only
  split
  · exact safe_put_return
  · exact safe_ok

theorem safe_getdents {size : Nat} {start : Int} : Safe (m.vfsGetdents reg a path size start) := by
  refine safe_bind.mpr ⟨safe_lookup, ?_⟩
  rintro ⟨_ | ⟨d, name⟩, m⟩ -
  · exact safe_ok
  · exact safe_bind.mpr ⟨safe_ran, fun _ _ => safe_put_return⟩

theorem safe_unlink : Safe (m.vfsUnlink reg a path) := by
  refine safe_bind.mpr ⟨safe_lookup, ?_⟩
  rintro ⟨_ | ⟨d, name⟩, m⟩ -
  · exact safe_ok
  refine safe_bind.mpr ⟨?_, fun _ _ => safe_put_return⟩
  unfold vfsDunlink
  split
  · exact safe_ok
  split
  · exact safe_ok
  · exact safe_ran

theorem safe_findOrCreate {flags : BitVec 32} : Safe (m.findOrCreate reg a d name flags) := by
  refine safe_bind.mpr ⟨safe_ran, ?_⟩
  rintro ⟨_ | fd, m⟩ -
  · dsimp only
    split
    · exact safe_ok
    split
    · exact safe_ok
    refine safe_bind.mpr ⟨safe_ran, fun r _ => ?_⟩
    split
    · exact safe_ok
    · exact safe_ran
  · dsimp only
    split
    · exact safe_put_return
    split
    · exact safe_put_return
    · exact safe_ok

theorem safe_openFile {flags : BitVec 32} : Safe (m.openFile reg flags fd p) := by
  refine safe_bind.mpr ⟨safe_guarded, ?_⟩
  rintro ⟨ret, m⟩ -
  dsimp only
  split
  · exact safe_put_return
  split
  · exact safe_ok
  refine safe_bind.mpr ⟨safe_guarded, ?_⟩
  rintro ⟨ret, m⟩ -
  dsimp only
  split
  · exact safe_bind.mpr ⟨safe_guarded, fun _ _ => safe_put_return⟩
  · exact safe_ok

theorem safe_open {flags : BitVec 32} : Safe (m.vfsOpen reg a path flags) := by
  refine safe_bind.mpr ⟨safe_lookup, ?_⟩
  rintro ⟨_ | ⟨d, _ | name⟩, m⟩ -
  · exact safe_ok
  · exact nofun
  refine safe_bind.mpr ⟨safe_bind.mpr ⟨safe_findOrCreate, ?_⟩, fun _ _ => safe_put_return⟩
  rintro ⟨_ | fd, m⟩ -
  · exact safe_ok
  dsimp only
  split
  · exact safe_put_return
  · exact safe_openFile

theorem safe_close : Safe (m.vfsClose reg p) := by
  unfold Mounts.vfsClose
  split
  · exact nofun
  dsimp only
  split
  · exact safe_ok
  · exact safe_bind.mpr ⟨safe_guarded, fun _ _ => safe_put_return⟩

theorem safe_read {size : Nat} : Safe (m.vfsRead reg p size) := by
  unfold Mounts.vfsRead
  split
  · exact nofun
  dsimp only
  split
  · exact safe_ok
  split
  · exact safe_ok
  split
  · exact safe_ok
  · exact safe_bind.mpr ⟨safe_ran, fun _ _ => safe_ok⟩

theorem safe_write {buf : List UInt8} : Safe (m.vfsWrite reg a p buf) := by
  unfold Mounts.vfsWrite
  split
  · exact nofun
  dsimp only
  split
  · exact safe_ok
  split
  · exact safe_ok
  split
  · exact safe_ok
  · exact safe_bind.mpr ⟨safe_ran, fun _ _ => safe_ok⟩

theorem safe_lseek {offset : Nat} {whence : Int} : Safe (m.vfsLseek reg p offset whence) := by
  unfold Mounts.vfsLseek
  split
  · exact nofun
  dsimp only
  split
  · exact safe_ran
  · exact safe_ok

/-! ### Calls that do not -/

/-- The path leads to a directory in which the operation is to be called, and it is not there. -/
def VfsCall.Missing (reg : Registry) (a : MountAnswers) (m : Mounts) : VfsCall → Prop
  | .mkdir path => ∃ d name t, m.lookupPathCommon reg a path LAST_MUST_NOT_EXIST = .ok (.ok (d, some name), t) ∧
      slash ∉ name ∧ (t.node d).kind = .dir ∧ (t.mntOps reg d).mkdir = none
  | .rmdir path => ∃ d name t, m.lookupPathCommon reg a path LAST_MUST_BE_DIR = .ok (.ok (d, name), t) ∧
      (t.node d).kind = .dir ∧ t.mnt d = none ∧ (t.node d).parent ≠ 0 ∧ (t.ops reg d).rmdir = none
  | _ => False

theorem safe_dmkdir : Safe (m.vfsDmkdir reg a d name) ↔
    ¬ (slash ∉ name ∧ (m.node d).kind = .dir ∧ (m.mntOps reg d).mkdir = none) := by
  unfold vfsDmkdir
  by_cases plain : slash ∈ name
  · rw [if_pos plain]
    exact iff_of_true nofun fun all => all.1 plain
  rw [if_neg plain]
  by_cases file : (m.node d).kind ≠ .dir
  · rw [if_pos file]
    exact iff_of_true nofun fun all => file all.2.1
  rw [if_neg file, safe_bind, safe_through]
  constructor
  · exact fun both all => both.1 all.2.2
  · exact fun there => ⟨fun none => there ⟨plain, not_not.mp file, none⟩, fun _ _ => safe_ran⟩

theorem safe_mkdir : Safe (m.vfsMkdir reg a path) ↔ ¬ VfsCall.Missing reg a m (.mkdir path) := by
  unfold vfsMkdir VfsCall.Missing
  rw [safe_bind]
  constructor
  · rintro ⟨-, rest⟩ ⟨d, name, t, found, missing⟩
    exact safe_dmkdir.mp (safe_bind.mp (rest _ found)).1 missing
  · intro there
    refine ⟨safe_lookup, ?_⟩
    rintro ⟨_ | ⟨d, _ | name⟩, t⟩ found
    · exact safe_ok
    · exact nofun
    · exact safe_bind.mpr ⟨safe_dmkdir.mpr fun missing => there ⟨d, name, t, found, missing⟩,
        fun _ _ => safe_put_return⟩

theorem safe_drmdir : Safe (m.vfsDrmdir reg d) ↔ ¬ ((m.node d).kind = .dir ∧ m.mnt d = none ∧
    (m.node d).parent ≠ 0 ∧ (m.ops reg d).rmdir = none) := by
  unfold vfsDrmdir
  by_cases file : (m.node d).kind ≠ .dir
  · rw [if_pos file]
    exact iff_of_true nofun fun all => file all.1
  rw [if_neg file]
  by_cases busy : (m.mnt d).isSome ∨ (m.node d).parent = 0
  · rw [if_pos busy]
    refine iff_of_true nofun fun all => ?_
    rcases busy with mounted | top
    · rw [all.2.1] at mounted
      cases mounted
    · exact all.2.2.1 top
  rw [if_neg busy, safe_bind, safe_through]
  rw [not_or, Option.not_isSome_iff_eq_none] at busy
  constructor
  · exact fun both all => both.1 all.2.2.2
  · exact fun there => ⟨fun none => there ⟨not_not.mp file, busy.1, busy.2, none⟩, fun _ _ => safe_ran⟩

theorem safe_rmdir : Safe (m.vfsRmdir reg a path) ↔ ¬ VfsCall.Missing reg a m (.rmdir path) := by
  unfold vfsRmdir VfsCall.Missing
  rw [safe_bind]
  constructor
  · rintro ⟨-, rest⟩ ⟨d, name, t, found, missing⟩
    exact safe_drmdir.mp (safe_bind.mp (rest _ found)).1 missing
  · intro there
    refine ⟨safe_lookup, ?_⟩
    rintro ⟨_ | ⟨d, name⟩, t⟩ found
    · exact safe_ok
    · exact safe_bind.mpr ⟨safe_drmdir.mpr fun missing => there ⟨d, name, t, found, missing⟩,
        fun _ _ => safe_put_return⟩

theorem safe_act : Safe (call.act reg a m) ↔ ¬ call.Missing reg a m := by
  cases call with
  | mkdir path => exact safe_map.trans safe_mkdir
  | rmdir path => exact safe_map.trans safe_rmdir
  | mount => exact iff_of_true (safe_map.mpr safe_mount) id
  | lookup =>
    refine iff_of_true (safe_bind.mpr ⟨safe_lookup, ?_⟩) id
    rintro ⟨_ | ⟨d, name⟩, m⟩ -
    · exact safe_ok
    · exact safe_ok
  | getdents => exact iff_of_true (safe_map.mpr safe_getdents) id
  | unlink => exact iff_of_true (safe_map.mpr safe_unlink) id
  | opens => exact iff_of_true safe_open id
  | closes => exact iff_of_true (safe_map.mpr safe_close) id
  | read => exact iff_of_true (safe_map.mpr safe_read) id
  | write => exact iff_of_true (safe_map.mpr safe_write) id
  | lseek => exact iff_of_true (safe_map.mpr safe_lseek) id

/-! ### Errors instead -/

/-- The call comes to an operation that is not there and that the VFS has nothing instead of. -/
def VfsCall.Unsupported (reg : Registry) (a : MountAnswers) (m : Mounts) : VfsCall → Prop
  | .unlink path => ∃ d name t, m.lookupPathCommon reg a path LAST_NO_SLASHES = .ok (.ok (d, name), t) ∧
      (t.node d).kind ≠ .dir ∧ (t.ops reg d).unlink = none
  | .opens path flags => ∃ d name t err u,
      m.lookupPathCommon reg a path (LAST_RETURN ||| LAST_NO_SLASHES) = .ok (.ok (d, some name), t) ∧
        (t.ops reg (t.into d)).lookup (t.into d) name t = .ok (.error err, u) ∧ flags &&& O_CREAT ≠ 0 ∧
          (u.ops reg (t.into d)).create = none
  | .read p _ => p ∈ m.opened ∧ (m.file p).openmode &&& O_RDONLY ≠ 0 ∧ (m.ops reg (m.file p).dentry).read = none
  | .write p _ => p ∈ m.opened ∧ (m.file p).openmode &&& O_WRONLY ≠ 0 ∧ (m.ops reg (m.file p).dentry).write = none
  | call => call.Missing reg a m

def Refused (r : Except MountStop (Except Int Nat × Mounts)) : Prop := ∀ ret u, r = .ok (ret, u) → ∃ err, ret = .error err

theorem refused_put_return {err : Int} : Refused (m.put d >>= fun m => pure (.error err, m)) := by
  intro ret u returned
  cases put : m.put d with
  | error stop =>
    rw [put] at returned
    cases returned
  | ok t =>
    rw [put] at returned
    cases returned
    exact ⟨err, rfl⟩

theorem refused_map (err : Int) (negative : err < 0) {r : Except MountStop (Int × Mounts)}
    (all : ∀ ret u, r = .ok (ret, u) → ret = err) : Refused (r.map fun r => (VfsCall.act.value r.1, r.2)) := by
  intro ret u returned
  cases result : r with
  | error stop =>
    rw [result] at returned
    cases returned
  | ok x =>
    rw [result] at returned
    cases returned
    rw [all x.1 x.2 result]
    exact ⟨err, if_pos negative⟩

theorem unlink_unsupported (unsupported : VfsCall.Unsupported reg a m (.unlink path)) :
    Refused (VfsCall.act reg a m (.unlink path)) := by
  obtain ⟨d, name, t, found, file, none⟩ := unsupported
  apply refused_map (-ENOSYS) (by decide)
  intro ret u returned
  have refused : t.vfsDunlink reg d = .ok (-ENOSYS, t) := by
    unfold vfsDunlink
    rw [if_neg file, none]
  unfold vfsUnlink at returned
  rw [found] at returned
  change (t.vfsDunlink reg d >>= _) = _ at returned
  rw [refused] at returned
  change (t.put d >>= _) = _ at returned
  cases put : t.put d with
  | error stop =>
    rw [put] at returned
    cases returned
  | ok v =>
    rw [put] at returned
    cases returned
    rfl

theorem open_unsupported {flags : BitVec 32} (unsupported : VfsCall.Unsupported reg a m (.opens path flags)) :
    Refused (VfsCall.act reg a m (.opens path flags)) := by
  obtain ⟨d, name, t, err, u, found, missing, creates, none⟩ := unsupported
  have refused : t.vfsDopen reg a d name flags = .ok (.error (-ENOSYS), u) := by
    unfold vfsDopen findOrCreate
    rw [missing]
    change ((if flags &&& O_CREAT = 0 then _ else _) >>= _) = _
    rw [if_neg creates, none]
    rfl
  change Refused (m.vfsOpen reg a path flags)
  unfold vfsOpen
  rw [found]
  change Refused (t.vfsDopen reg a d name flags >>= _)
  rw [refused]
  exact refused_put_return

theorem unsupported_refused (unsupported : call.Unsupported reg a m) : Refused (call.act reg a m) := by
  cases call with
  | unlink path => exact unlink_unsupported unsupported
  | opens path flags => exact open_unsupported unsupported
  | read p size =>
    obtain ⟨opened, mode, none⟩ := unsupported
    have refused : m.vfsRead reg p size = .ok ((-ENOSYS, []), m) := by
      unfold Mounts.vfsRead
      dsimp only
      rw [if_neg (not_not.mpr opened), if_neg mode, none]
    rintro _ _ returned
    change Except.map _ _ = _ at returned
    rw [refused] at returned
    cases returned
    exact ⟨-ENOSYS, rfl⟩
  | write p buf =>
    obtain ⟨opened, mode, none⟩ := unsupported
    have refused : m.vfsWrite reg a p buf = .ok (-ENOSYS, m) := by
      unfold Mounts.vfsWrite
      dsimp only
      rw [if_neg (not_not.mpr opened), if_neg mode, none]
    rintro _ _ returned
    change Except.map _ _ = _ at returned
    rw [refused] at returned
    cases returned
    exact ⟨-ENOSYS, rfl⟩
  | mkdir path =>
    intro ret u returned
    have missing : ¬ Safe (VfsCall.act reg a m (.mkdir path)) := fun safe => safe_act.mp safe unsupported
    rw [returned] at missing
    exact absurd safe_ok missing
  | rmdir path =>
    intro ret u returned
    have missing : ¬ Safe (VfsCall.act reg a m (.rmdir path)) := fun safe => safe_act.mp safe unsupported
    rw [returned] at missing
    exact absurd safe_ok missing
  | mount | lookup | getdents | closes | lseek => exact absurd unsupported id

/-! ### Runs -/

/-- Calls one after the other, each with its own answers of the allocator. -/
def runCalls (reg : Registry) : List (MountAnswers × VfsCall) → Mounts → Except MountStop Mounts
  | [], m => .ok m
  | (a, call) :: calls, m => do
    let (_, m) ← call.act reg a m
    runCalls reg calls m

theorem safe_run (reg : Registry) (calls : List (MountAnswers × VfsCall)) : ∀ m : Mounts,
    Safe (runCalls reg calls m) ↔ ∀ before a call after t, calls = before ++ (a, call) :: after →
      runCalls reg before m = .ok t → ¬ call.Missing reg a t := by
  induction calls with
  | nil =>
    intro m
    refine iff_of_true nofun fun before a call after t split => ?_
    cases ((List.append_eq_nil_iff.mp split.symm).2)
  | cons first calls ih =>
    intro m
    obtain ⟨a, call⟩ := first
    change Safe (call.act reg a m >>= fun r => runCalls reg calls r.2) ↔ _
    rw [safe_bind, safe_act]
    constructor
    · rintro ⟨here, rest⟩ before b later after t split ran
      cases before with
      | nil =>
        obtain ⟨same, -⟩ := List.cons.inj split
        cases same
        cases ran
        exact here
      | cons first before =>
        obtain ⟨rfl, split'⟩ := List.cons.inj split
        change (call.act reg a m >>= fun r => runCalls reg before r.2) = _ at ran
        cases acts : call.act reg a m with
        | error stop =>
          rw [acts] at ran
          cases ran
        | ok r =>
          rw [acts] at ran
          exact (ih r.2).mp (rest r acts) before b later after t split' ran
    · intro all
      refine ⟨all [] a call calls m rfl rfl, fun r acts => (ih r.2).mpr ?_⟩
      intro before b later after t split ran
      refine all ((a, call) :: before) b later after t (by rw [split]; rfl) ?_
      change (call.act reg a m >>= fun r => runCalls reg before r.2) = _
      rw [acts]
      exact ran

/-- A run calls through no `NULL`, and gets an error instead, exactly when no `vfs_mkdir` and no `vfs_rmdir`
comes to a missing operation. -/
theorem no_null_call (reg : Registry) (calls : List (MountAnswers × VfsCall)) (m : Mounts) :
    (runCalls reg calls m ≠ .error .null ∧ ∀ before a call after t, calls = before ++ (a, call) :: after →
      runCalls reg before m = .ok t → call.Unsupported reg a t → Refused (call.act reg a t)) ↔
    ∀ before a call after t, calls = before ++ (a, call) :: after → runCalls reg before m = .ok t →
      ¬ call.Missing reg a t :=
  ⟨fun both => (safe_run reg calls m).mp both.1,
    fun all => ⟨(safe_run reg calls m).mpr all, fun _ _ _ _ _ _ _ => unsupported_refused⟩⟩

/-- `vfs_mkdir` in the devfs. -/
theorem mkdir_devfs : ¬ (runCalls (filesystems (fun _ => nullDevice) 2)
    [(plentiful 1, .mount [100, 101, 118, 102, 115] [47]), (plentiful 2, .mkdir [47, 120])] .bare ≠ .error .null ∧
      ∀ before a call after t, [(plentiful 1, VfsCall.mount [100, 101, 118, 102, 115] [47]),
        (plentiful 2, .mkdir [47, 120])] = before ++ (a, call) :: after →
        runCalls (filesystems (fun _ => nullDevice) 2) before .bare = .ok t →
        call.Unsupported (filesystems (fun _ => nullDevice) 2) a t →
        Refused (call.act (filesystems (fun _ => nullDevice) 2) a t)) :=
  fun both => both.1 rfl

end Landaux
