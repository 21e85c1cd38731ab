import Landaux.Fs.LastName
import Landaux.Fs.Refinement

/-!
# One ramfs

The calls on paths for a machine with one ramfs and no other mount, on the dentries alone and on the mounted
filesystems. Both end in the same way, so that what is known of the first is known of the second.
-/

namespace Landaux
open Lib

/-- Every dentry calls through the table of the ramfs, and nothing is mounted on any. -/
structure Alone (reg : Registry) (m : Mounts) : Prop where
  ops : ∀ x, m.ops reg x = ramfs
  mnt : ∀ x, m.mnt x = none

/-- The second call ends as the first one does, and leaves the same dentries. -/
def Mirrors {α : Type} (reg : Registry) (r : Except FsStop (α × Vfs)) (q : Except MountStop (α × Mounts)) : Prop :=
  match r with
  | .error stop => q = .error (.fs stop)
  | .ok (ret, s) => ∃ m, q = .ok (ret, m) ∧ m.toVfs = s ∧ Alone reg m

variable {reg : Registry} {m : Mounts} {s : Vfs} {a : MountAnswers} {d c p : Nat} {name : Name} {path : List UInt8}
  {α β : Type}

/-! ### Steps -/

theorem Alone.state (alone : Alone reg m) (s : Vfs) : Alone reg { m with toVfs := s } := ⟨alone.ops, alone.mnt⟩

theorem Alone.mntOps (alone : Alone reg m) (d : Nat) : m.mntOps reg d = ramfs := by
  unfold Mounts.mntOps
  rw [alone.mnt]
  exact alone.ops d

theorem Alone.into (alone : Alone reg m) (d : Nat) : m.into d = d := by
  unfold Mounts.into
  rw [alone.mnt]

namespace Mirrors

theorem pure (alone : Alone reg m) (ret : α) : Mirrors reg (.ok (ret, m.toVfs)) (.ok (ret, m)) := ⟨m, rfl, rfl, alone⟩

theorem bind {r : Except FsStop (α × Vfs)} {q : Except MountStop (α × Mounts)}
    {f : α × Vfs → Except FsStop (β × Vfs)} {g : α × Mounts → Except MountStop (β × Mounts)} (first : Mirrors reg r q)
    (rest : ∀ ret m, Alone reg m → r = .ok (ret, m.toVfs) → Mirrors reg (f (ret, m.toVfs)) (g (ret, m))) :
    Mirrors reg (r >>= f) (q >>= g) := by
  cases r with
  | error stop =>
    obtain rfl : q = .error (.fs stop) := first
    exact rfl
  | ok e =>
    obtain ⟨m, rfl, same, alone⟩ := first
    have goes := rest e.1 m alone (by rw [same])
    rwa [same] at goes

/-- A function that only changes the dentries. -/
theorem state {r : Except FsStop Vfs} {f : Vfs → Except FsStop (β × Vfs)} {g : Mounts → Except MountStop (β × Mounts)}
    (alone : Alone reg m)
    (rest : ∀ m, Alone reg m → r = .ok m.toVfs → Mirrors reg (f m.toVfs) (g m)) :
    Mirrors reg (r >>= f) (ran (r.map fun s => { m with toVfs := s }) >>= g) := by
  cases r with
  | error stop => exact rfl
  | ok s => exact rest _ (alone.state s) rfl

theorem put (alone : Alone reg m) (ret : α) (d : Nat) :
    Mirrors reg (m.toVfs.dentryPut d >>= fun s => Except.ok (ret, s)) (m.put d >>= fun m => Except.ok (ret, m)) :=
  state alone fun _ alone _ => pure alone ret

theorem ofVfs {r : Except FsStop (α × Vfs)} (alone : Alone reg m) : Mirrors reg r (ran (m.ofVfs r)) := by
  cases r with
  | error stop => exact rfl
  | ok e => exact ⟨_, rfl, rfl, alone.state e.2⟩

/-- An operation that changes nothing. -/
theorem value {γ : Type} {r : Except FsStop γ} {f : γ → Except FsStop (β × Vfs)}
    {g : γ → Except MountStop (β × Mounts)} (rest : ∀ x, Mirrors reg (f x) (g x)) :
    Mirrors reg (r >>= f) (ran r >>= g) := by
  cases r with
  | error stop => exact rfl
  | ok x => exact rest x

end Mirrors

/-! ### Lookups -/

theorem Alone.lookupIn (alone : Alone reg m) (d : Nat) (name : Name) :
    Mirrors reg (m.toVfs.ramfsLookup d name) (m.lookupIn reg d name) := by
  unfold Mounts.lookupIn Mounts.touch
  rw [alone.into, alone.mntOps]
  by_cases live : d ∈ m.live
  · rw [if_pos live]
    exact Mirrors.ofVfs alone
  · rw [if_neg live, Vfs.ramfsLookup, if_pos live]
    exact rfl

theorem Alone.walk (flags : BitVec 8) (fuel : Nat) : ∀ i path d m, Alone reg m →
    Mirrors reg (Vfs.walk a.toAnswers flags fuel i path d m.toVfs) (Mounts.walk reg a flags fuel i path d m) := by
  induction fuel with
  | zero => exact fun _ _ _ _ _ => rfl
  | succ fuel ih =>
    intro i path d m alone
    rw [Vfs.walk, Mounts.walk]
    generalize getNextComponent (a.name i) path = next
    obtain ⟨type, name, path⟩ := next
    dsimp only
    split
    · exact .put alone _ d
    split
    · exact .pure alone _
    refine .bind (alone.lookupIn d name) ?_
    rintro (err | new) m alone -
    · dsimp only
      split
      · exact .pure alone _
      · exact .put alone _ d
    · have alone : Alone reg (m.setParent new d) := alone.state _
      have same : m.toVfs.setParent new d = (m.setParent new d).toVfs := rfl
      dsimp only
      rw [same]
      generalize m.setParent new d = m at alone
      split
      · exact .put alone _ new
      split
      · split
        · exact .put alone _ new
        · exact .pure alone _
      split
      · exact .pure alone _
      · exact ih _ _ _ _ alone

theorem Alone.lookupPathCommon (alone : Alone reg m) (path : List UInt8) (flags : BitVec 8) :
    Mirrors reg (m.toVfs.lookupPathCommon a.toAnswers path flags) (m.lookupPathCommon reg a path flags) := by
  unfold Vfs.lookupPathCommon Mounts.lookupPathCommon
  refine .state alone fun m alone _ => ?_
  split
  · exact rfl
  dsimp only
  split
  · exact .pure alone _
  refine .bind (alone.walk flags _ 0 _ _ _) ?_
  rintro (err | ⟨d, name⟩) m alone -
  · exact .pure alone _
  · exact .pure alone _

/-! ### The dentry that a lookup returns -/

/-- A dentry that is returned is allocated. -/
def Alive {β : Type} (dentry : β → Nat) (r : Except Int β × Vfs) : Prop := ∀ x, r.1 = .ok x → dentry x ∈ r.2.live

theorem alive_error {dentry : β → Nat} {err : Int} : Alive dentry (.error err, s) := fun _ never => nomatch never

theorem put_alive {dentry : β → Nat} {err : Int} :
    Ends (s.dentryPut d >>= fun t => Except.ok (Except.error err, t)) (Alive dentry) fun _ => True := by
  cases s.dentryPut d with
  | error stop => trivial
  | ok t => exact alive_error

theorem ramfsLookup_alive :
    Ends (s.ramfsLookup d name) (fun r => Alive id r ∧ r.2.live = s.live) fun _ => True := by
  unfold Vfs.ramfsLookup
  split
  · trivial
  split
  · exact ⟨alive_error, rfl⟩
  cases s.findChild name (s.node d).children with
  | error stop => trivial
  | ok found =>
    cases found with
    | none => exact ⟨alive_error, rfl⟩
    | some c =>
      change Ends (s.dentryGet c >>= fun t => Except.ok (Except.ok c, t)) _ _
      unfold Vfs.dentryGet
      split
      · trivial
      rename_i live
      split
      · trivial
      · refine ⟨?_, rfl⟩
        rintro _ ⟨⟩
        exact not_not.mp live

theorem walk_alive {a : Answers} {flags : BitVec 8} (fuel : Nat) : ∀ i path d s, d ∈ s.live →
    Ends (Vfs.walk a flags fuel i path d s) (Alive Prod.fst) fun _ => True := by
  induction fuel with
  | zero => exact fun _ _ _ _ _ => trivial
  | succ fuel ih =>
    intro i path d s live
    have here : ∀ {name : Name} {d : Nat} {s : Vfs}, d ∈ s.live → Alive Prod.fst (.ok (d, name), s) := by
      rintro name d s live _ ⟨⟩
      exact live
    rw [Vfs.walk]
    generalize getNextComponent (a.name i) path = next
    obtain ⟨type, name, path⟩ := next
    dsimp only
    split
    · exact put_alive
    split
    · exact here live
    refine Ends.bind ramfsLookup_alive ?_
    rintro ⟨err | new, t⟩ ⟨alive, same⟩
    · dsimp only at same ⊢
      split
      · exact here (same ▸ live)
      · exact put_alive
    · have parent : new ∈ (t.setParent new d).live := alive new rfl
      dsimp only
      generalize t.setParent new d = t at parent
      split
      · exact put_alive
      split
      · split
        · exact put_alive
        · exact here parent
      split
      · exact here parent
      · exact ih _ _ _ _ parent

theorem lookupPathCommon_alive {a : Answers} {flags : BitVec 8} :
    Ends (s.lookupPathCommon a path flags) (Alive Prod.fst) fun _ => True := by
  unfold Vfs.lookupPathCommon Vfs.dentryGet
  split
  · trivial
  rename_i live
  split
  · trivial
  rw [ok_bind]
  split
  · trivial
  dsimp only
  split
  · rintro _ ⟨⟩
    exact not_not.mp live
  refine Ends.bind (walk_alive _ 0 _ _ _ (not_not.mp live)) ?_
  rintro ⟨err | ⟨d, name⟩, t⟩ alive
  · exact alive_error
  · rintro _ ⟨⟩
    exact alive (d, name) rfl

/-! ### Calls on paths -/

theorem Alone.vfsGetdents (alone : Alone reg m) (path : List UInt8) (size : Nat) (start : Int) :
    Mirrors reg (m.toVfs.vfsGetdents a.toAnswers path size start) (m.vfsGetdents reg a path size start) := by
  unfold Vfs.vfsGetdents Mounts.vfsGetdents
  refine .bind (alone.lookupPathCommon path _) ?_
  rintro (err | ⟨d, name⟩) m alone -
  · exact .pure alone _
  · dsimp only
    rw [alone.mntOps, alone.into]
    exact .value fun ret => .put alone ret d

theorem Alone.makeNode (alone : Alone reg m) (a : MountAnswers) (d : Nat) (name : Name) (kind : Kind) :
    Mirrors reg (m.toVfs.makeNode a.toAnswers d name kind) (ran (m.makeNode a d name kind)) := by
  unfold Mounts.makeNode
  cases dentry : a.dentry with
  | none =>
    unfold Vfs.makeNode
    rw [dentry]
    exact .pure alone _
  | some p =>
    dsimp only
    split
    · rename_i denied
      unfold Vfs.makeNode
      rw [dentry]
      dsimp only
      rw [if_pos denied]
      exact .pure alone _
    · cases m.toVfs.makeNode a.toAnswers d name kind with
      | error stop => exact rfl
      | ok e =>
        refine ⟨_, rfl, rfl, fun x => ?_, fun x => ?_⟩
        · change reg.fs (m.super (Function.update m.sb p (m.sb d) x)).fs = ramfs
          rw [Function.update_apply]
          split
          · exact alone.ops d
          · exact alone.ops x
        · change Function.update m.mnt p none x = none
          rw [Function.update_apply, alone.mnt, ite_self]

theorem Alone.vfsDmkdir (alone : Alone reg m) (a : MountAnswers) (live : d ∈ m.live) (name : Name) :
    Mirrors reg (m.toVfs.vfsDmkdir a.toAnswers d name) (m.vfsDmkdir reg a d name) := by
  unfold Vfs.vfsDmkdir Mounts.vfsDmkdir
  rw [if_neg (not_not.mpr live), alone.mntOps, alone.into]
  split
  · exact rfl
  split
  · exact .pure alone _
  · exact alone.makeNode a d name .dir

theorem Alone.vfsMkdir (alone : Alone reg m) (path : List UInt8) :
    Mirrors reg (m.toVfs.vfsMkdir a.toAnswers path) (m.vfsMkdir reg a path) := by
  unfold Vfs.vfsMkdir Mounts.vfsMkdir
  refine .bind (alone.lookupPathCommon path _) ?_
  rintro (err | ⟨d, name | name⟩) m alone looked
  · exact .pure alone _
  · exact rfl
  · have live : d ∈ m.live := lookupPathCommon_alive.of_ok looked _ rfl
    exact .bind (alone.vfsDmkdir a live name) fun ret m alone _ => .put alone ret d

theorem Alone.vfsDrmdir (alone : Alone reg m) (live : d ∈ m.live) :
    Mirrors reg (m.toVfs.vfsDrmdir d) (m.vfsDrmdir reg d) := by
  unfold Vfs.vfsDrmdir Mounts.vfsDrmdir
  rw [if_neg (not_not.mpr live), alone.ops, alone.mnt]
  split
  · exact .pure alone _
  simp only [Option.isSome_none, Bool.false_eq_true, false_or]
  split
  · exact .pure alone _
  · exact .ofVfs alone

theorem Alone.vfsRmdir (alone : Alone reg m) (path : List UInt8) :
    Mirrors reg (m.toVfs.vfsRmdir a.toAnswers path) (m.vfsRmdir reg a path) := by
  unfold Vfs.vfsRmdir Mounts.vfsRmdir
  refine .bind (alone.lookupPathCommon path _) ?_
  rintro (err | ⟨d, name⟩) m alone looked
  · exact .pure alone _
  · have live : d ∈ m.live := lookupPathCommon_alive.of_ok looked _ rfl
    exact .bind (alone.vfsDrmdir live) fun ret m alone _ => .put alone ret d

theorem Alone.vfsDunlink (alone : Alone reg m) (live : d ∈ m.live) :
    Mirrors reg (m.toVfs.vfsDunlink d) (m.vfsDunlink reg d) := by
  unfold Vfs.vfsDunlink Mounts.vfsDunlink
  rw [if_neg (not_not.mpr live), alone.ops]
  split
  · exact .pure alone _
  · exact .ofVfs alone

theorem Alone.vfsUnlink (alone : Alone reg m) (path : List UInt8) :
    Mirrors reg (m.toVfs.vfsUnlink a.toAnswers path) (m.vfsUnlink reg a path) := by
  unfold Vfs.vfsUnlink Mounts.vfsUnlink
  refine .bind (alone.lookupPathCommon path _) ?_
  rintro (err | ⟨d, name⟩) m alone looked
  · exact .pure alone _
  · have live : d ∈ m.live := lookupPathCommon_alive.of_ok looked _ rfl
    exact .bind (alone.vfsDunlink live) fun ret m alone _ => .put alone ret d

/-! ### Files -/

theorem Alone.findOrCreate (alone : Alone reg m) (a : MountAnswers) (d : Nat) (name : Name) (flags : BitVec 32) :
    Mirrors reg (m.toVfs.findOrCreate a.toAnswers d name flags) (m.findOrCreate reg a d name flags) := by
  unfold Vfs.findOrCreate Mounts.findOrCreate
  rw [alone.ops]
  refine .bind (.ofVfs alone) ?_
  rintro (err | fd) m alone -
  · dsimp only
    rw [alone.ops]
    split
    · exact .pure alone _
    refine .bind (alone.makeNode a d name .file) fun ret m alone _ => ?_
    dsimp only
    split
    · exact .pure alone _
    · rw [alone.ops]
      exact .ofVfs alone
  · dsimp only
    split
    · exact .put alone _ fd
    split
    · exact .put alone _ fd
    · exact .pure alone _

theorem setNode_self : s.setNode d (s.node d) = s := by
  have same : (fun x => if x = d then s.node d else s.node x) = s.node := funext fun x => by
    split
    · rename_i here
      rw [here]
    · rfl
  unfold Vfs.setNode
  rw [same]

/-- `ramfs` has no `open`, and its `truncate` is that of `newFile`. -/
theorem Alone.openFile {f : File} (alone : Alone reg m) (flags : BitVec 32) (file : m.file p = f) :
    ∃ t, m.openFile reg flags f.dentry p = .ok (.ok p, t) ∧ Alone reg t ∧
      t.toVfs = m.toVfs.setNode f.dentry { m.node f.dentry with
        data := if flags &&& O_TRUNC ≠ 0 then ramfsTruncate f.offset (m.node f.dentry).data
          else (m.node f.dentry).data } := by
  unfold Mounts.openFile
  rw [alone.ops]
  by_cases keeps : flags &&& O_TRUNC = 0
  · refine ⟨m, ?_, alone, ?_⟩
    · change (if flags &&& O_TRUNC = 0 then _ else _) = _
      rw [if_pos keeps]
      rfl
    · rw [if_neg (not_not.mpr keeps)]
      exact setNode_self.symm
  · refine ⟨m.setData f.dentry (ramfsTruncate f.offset (m.node f.dentry).data), ?_, alone.state _, ?_⟩
    · change (if flags &&& O_TRUNC = 0 then _ else _) = _
      rw [if_neg keeps, alone.ops, ← file]
      rfl
    · rw [if_pos keeps]
      rfl

theorem Alone.vfsDopen (alone : Alone reg m) (a : MountAnswers) (d : Nat) (name : Name) (flags : BitVec 32) :
    Mirrors reg (m.toVfs.vfsDopen a.toAnswers d name flags) (m.vfsDopen reg a d name flags) := by
  unfold Vfs.vfsDopen Mounts.vfsDopen
  rw [alone.into]
  refine .bind (alone.findOrCreate a d name flags) ?_
  rintro (err | fd) m alone -
  · exact .pure alone _
  dsimp only
  cases granted : a.file with
  | none => exact .put alone _ fd
  | some p =>
    obtain ⟨f, data, new⟩ := newFile_granted fd flags (m.node fd).data
    rw [Option.isSome_some, new]
    obtain ⟨opened, truncated⟩ := newFile_file new
    have alone : Alone reg (({ m with opened := insert p m.opened } : Mounts).setFile p f) := alone.state _
    obtain ⟨t, opens, alone, same⟩ := alone.openFile flags (if_pos rfl)
    rw [congrArg File.dentry opened] at opens same
    rw [truncated]
    dsimp only
    rw [← opened]
    exact ⟨t, opens, same, alone⟩

theorem Alone.vfsOpen (alone : Alone reg m) (path : List UInt8) (flags : BitVec 32) :
    Mirrors reg (m.toVfs.vfsOpen a.toAnswers path flags) (m.vfsOpen reg a path flags) := by
  unfold Vfs.vfsOpen Mounts.vfsOpen
  refine .bind (alone.lookupPathCommon path _) ?_
  rintro (err | ⟨d, name | name⟩) m alone -
  · exact .pure alone _
  · exact rfl
  · exact .bind (alone.vfsDopen a d name flags) fun ret m alone _ => .put alone ret d

theorem Alone.vfsClose (alone : Alone reg m) (p : Nat) :
    Mirrors reg (m.toVfs.vfsClose p) (m.vfsClose reg p) := by
  unfold Vfs.vfsClose Mounts.vfsClose
  split
  · exact rfl
  dsimp only
  cases Landaux.vfsClose (m.file p) with
  | some f => exact ⟨_, rfl, rfl, alone.state _⟩
  | none =>
    dsimp only
    have closing : Alone reg (m.setFile p { m.file p with refcnt := (m.file p).refcnt - 1 }) := alone.state _
    rw [closing.ops]
    have freed : Alone reg ((m.setFile p { m.file p with refcnt := (m.file p).refcnt - 1 }).kfreeFile p) :=
      closing.state _
    exact .put freed 0 (m.file p).dentry

/-! ### Runs -/

/-- A call on the mounted filesystems; what `lookup_path` returns is put back. -/
def FsCall.actMounted (reg : Registry) (a : MountAnswers) (m : Mounts) : FsCall → Except MountStop (FsRet × Mounts)
  | .lookup path => do
    match ← m.lookupPath reg a path with
    | (.error err, m) => return (.pointer (.error err), m)
    | (.ok d, m) => return (.pointer (.ok d), ← m.put d)
  | .getdents path size start => do
    let ((count, entries), m) ← m.vfsGetdents reg a path size start
    return (.dents count entries, m)
  | .mkdir path => do
    let (ret, m) ← m.vfsMkdir reg a path
    return (.int ret, m)
  | .rmdir path => do
    let (ret, m) ← m.vfsRmdir reg a path
    return (.int ret, m)
  | .unlink path => do
    let (ret, m) ← m.vfsUnlink reg a path
    return (.int ret, m)
  | .opens path flags => do
    let (ret, m) ← m.vfsOpen reg a path flags
    return (.pointer ret, m)
  | .closes p => do
    let (ret, m) ← m.vfsClose reg p
    return (.int ret, m)

theorem Alone.act (alone : Alone reg m) (a : MountAnswers) (call : FsCall) :
    Mirrors reg (call.act a.toAnswers m.toVfs) (call.actMounted reg a m) := by
  cases call with
  | lookup path =>
    unfold FsCall.act FsCall.actMounted Vfs.lookupPath Mounts.lookupPath
    dsimp only
    rw [bind_assoc, bind_assoc]
    refine .bind (alone.lookupPathCommon path 0) ?_
    rintro (err | ⟨d, name⟩) m alone -
    · exact .pure alone _
    · change Mirrors reg ((m.toVfs.dentryPut d >>= fun s => pure (Except.ok d, s)) >>= fun r =>
        pure (FsRet.pointer r.1, r.2)) (m.put d >>= fun m => pure (FsRet.pointer (.ok d), m))
      rw [bind_assoc]
      exact Mirrors.put alone (FsRet.pointer (.ok d)) d
  | getdents path size start => exact .bind (alone.vfsGetdents path size start) fun ret m alone _ => .pure alone _
  | mkdir path => exact .bind (alone.vfsMkdir path) fun ret m alone _ => .pure alone _
  | rmdir path => exact .bind (alone.vfsRmdir path) fun ret m alone _ => .pure alone _
  | unlink path => exact .bind (alone.vfsUnlink path) fun ret m alone _ => .pure alone _
  | opens path flags => exact .bind (alone.vfsOpen path flags) fun ret m alone _ => .pure alone _
  | closes p => exact .bind (alone.vfsClose p) fun ret m alone _ => .pure alone _

/-- A call that returns, with what its caller sees. -/
def MountStep (reg : Registry) (m : Mounts) (e : FsCall × Seen) (t : Mounts) : Prop :=
  ∃ a ret, e.1.Ordinary m.toVfs a.toAnswers ∧ e.1.actMounted reg a m = .ok (ret, t) ∧ e.2 = e.1.seen t.toVfs ret

theorem Alone.step {e : FsCall × Seen} {t : Mounts} (alone : Alone reg m) (step : MountStep reg m e t) :
    NameStep m.toVfs e t.toVfs ∧ Alone reg t := by
  obtain ⟨a, ret, ordinary, returns, shown⟩ := step
  have mirrors := alone.act a e.1
  cases result : e.1.act a.toAnswers m.toVfs with
  | error stop =>
    rw [result] at mirrors
    cases returns.symm.trans mirrors
  | ok r =>
    rw [result] at mirrors
    obtain ⟨u, eq, same, alone⟩ := mirrors
    obtain ⟨rfl, rfl⟩ := Prod.mk.inj (Except.ok.inj (returns.symm.trans eq))
    exact ⟨⟨a.toAnswers, r.1, ordinary, by rw [result, same], shown⟩, alone⟩

theorem mounted_alone {devices : Nat → Device} {count root : Nat} :
    Alone (filesystems devices count) (Mounts.mounted root) := ⟨fun _ => rfl, fun _ => rfl⟩

/-- In every run on a mounted ramfs, the calls return what they return on the tree of names. -/
theorem mounted_refines {devices : Nat → Device} {count root : Nat} {events : List (FsCall × Seen)} (nonnull : root ≠ 0)
    (run : Run (MountStep (filesystems devices count)) (Mounts.mounted root) events m) :
    Run TreeStep NameTree.empty events m.tree ∧ m.tree.Valid := by
  have simulates : ∀ m e t tree, (Named m.toVfs ∧ Alone (filesystems devices count) m ∧ m.tree = tree) →
      MountStep (filesystems devices count) m e t →
      ∃ tree', TreeStep tree e tree' ∧ Named t.toVfs ∧ Alone (filesystems devices count) t ∧ t.tree = tree' := by
    rintro m e t _ ⟨named, alone, rfl⟩ step
    obtain ⟨step, alone⟩ := alone.step step
    obtain ⟨same, named⟩ := step.refines named
    exact ⟨t.tree, same, named, alone, rfl⟩
  obtain ⟨tree, run', named, -, rfl⟩ := run.simulate simulates ⟨Named.mounted nonnull, mounted_alone, tree_mounted⟩
  exact ⟨run', named.valid⟩

end Landaux
