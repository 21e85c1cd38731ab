import Landaux.Fs.NamesKept

/-!
# New names

`make_node` copies the last component of a path into a new dentry, without looking at its length. The names fit
after every call of `vfs.c` that does not come there with a component that is too long.
-/

namespace Landaux
open Lib Mounts

variable {α β : Type} {m n : Mounts} {a : MountAnswers} {devices : Nat → Device} {count d p x : Nat} {name : Name}
  {path : List UInt8} {ret : Int}

def MountAnswers.ForNode (a : MountAnswers) : Prop := a.dentry.isSome ∧ a.priv = true

structure MadeNode (m n : Mounts) (parent p : Nat) (name : Name) (kind : Kind) : Prop where
  inside : parent ∈ m.live
  live : n.live = insert p m.live
  name : ∀ x, (n.node x).name = if x = p then name else (m.node x).name
  new : p ≠ parent → (n.node p).children = [] ∧ (n.node p).kind = kind

theorem MadeNode.fits {kind : Kind} (made : MadeNode m n d p name kind) (fits : NamesFit m.toVfs)
    (short : name.length < PATH_MAX) : NamesFit n.toVfs := by
  intro x
  rw [made.name]
  split
  · exact short
  · exact fits x

theorem makeNode_refused {kind : Kind} (refused : ¬ a.ForNode) : m.makeNode a d name kind = .ok (-ENOMEM, m) := by
  unfold Mounts.makeNode
  cases dentry : a.dentry with
  | none => rfl
  | some p =>
    cases priv : a.priv with
    | false => rfl
    | true => exact absurd ⟨by rw [dentry]; rfl, priv⟩ refused

theorem makeNode_made {kind : Kind} (dentry : a.dentry = some p) (priv : a.priv = true)
    (short : name.length < PATH_MAX) :
    Ends (m.makeNode a d name kind) (fun r => r.1 = 0 ∧ MadeNode m r.2 d p name kind) fun stop => stop ≠ .overrun := by
  have length : name.length < 255 := short
  unfold Mounts.makeNode Vfs.makeNode strcpyName
  rw [dentry]
  dsimp only
  rw [priv, if_neg (by decide), if_neg (by decide), if_pos (by omega)]
  rw [ok_bind]
  split
  · exact Ends.error (by decide)
  rename_i inside
  rw [not_not] at inside
  -- the two dentries that are written
  generalize wrote : Vfs.setNode (Vfs.setNode _ p _) d _ = s
  have live : s.live = insert p m.live := by rw [← wrote]; rfl
  have names : ∀ x, (s.node x).name = if x = p then name else (m.node x).name := by
    intro x
    rw [← wrote]
    unfold Vfs.setNode
    dsimp only
    rw [List.take_of_length_le (by omega)]
    split
    · rename_i here
      rw [here]
      split <;> rfl
    · split <;> rfl
  have new : p ≠ d → (s.node p).children = [] ∧ (s.node p).kind = kind := by
    intro other
    rw [← wrote]
    unfold Vfs.setNode
    dsimp only
    rw [if_neg other, if_pos rfl]
    exact ⟨rfl, rfl⟩
  unfold Vfs.dentryGet
  split
  · exact Ends.error (by decide)
  split
  · exact Ends.error (by decide)
  refine ⟨rfl, inside, live, fun x => ?_, fun other => ?_⟩
  · change ((s.addRefcnt p 1).node x).name = _
    rw [addRefcnt_node]
    exact names x
  · change ((s.addRefcnt p 1).node p).children = _ ∧ ((s.addRefcnt p 1).node p).kind = _
    rw [addRefcnt_node]
    exact new other

/-! ### Calls that make a dentry -/

/-- The call comes to `make_node` with memory and a name that is too long. -/
def VfsCall.TooLong (reg : Registry) (a : MountAnswers) (m : Mounts) : VfsCall → Prop
  | .mkdir path => ∃ d name t, m.lookupPathCommon reg a path LAST_MUST_NOT_EXIST = .ok (.ok (d, some name), t) ∧
      PATH_MAX ≤ name.length ∧ (t.node d).kind = .dir ∧ (t.mntOps reg d).mkdir.isSome ∧ a.ForNode
  | .opens path flags => ∃ d name t,
      m.lookupPathCommon reg a path (LAST_RETURN ||| LAST_NO_SLASHES) = .ok (.ok (d, some name), t) ∧
        PATH_MAX ≤ name.length ∧ flags &&& O_CREAT ≠ 0 ∧ (t.ops reg (t.into d)).create.isSome ∧ a.ForNode
  | _ => False

/-- The names fit after a call, and a component that is too long is refused. -/
structure ShortOnly (m : Mounts) (names : List Name) (r : Except Int Nat × Mounts) : Prop where
  fits : NamesFit r.2.toVfs
  refused : (∃ name ∈ names, PATH_MAX ≤ name.length) → (∃ err, r.1 = .error err) ∧ NoneMade m.toVfs r.2.toVfs

theorem ShortOnly.error {names : List Name} {err : Int} (fits : NamesFit m.toVfs) (none : NoneMade m.toVfs n.toVfs) :
    ShortOnly m names (.error err, n) :=
  ⟨none.fits fits, fun _ => ⟨⟨err, rfl⟩, none⟩⟩

theorem ShortOnly.ok {names : List Name} {r : Except Int Nat} (fits : NamesFit n.toVfs)
    (short : ∀ name ∈ names, name.length < PATH_MAX) : ShortOnly m names (r, n) := by
  refine ⟨fits, fun long => ?_⟩
  obtain ⟨name, member, long⟩ := long
  exact absurd (short name member) (not_lt.mpr long)

/-- The last component is the only one that can be too long after a lookup. -/
theorem LooksUpPath.short {t : Mounts} (looks : LooksUpPath m path (.ok (d, some name), t)) (fits : NamesFit m.toVfs)
    (last : some name = (components path).getLast?) (short : name.length < PATH_MAX) :
    ∀ b ∈ components path, b.length < PATH_MAX := by
  intro b member
  rw [← List.dropLast_append_getLast? name last.symm] at member
  rcases List.mem_append.mp member with before | here
  · exact looks.way fits d (some name) rfl b before
  · rw [List.mem_singleton.mp here]
    exact short

theorem value_negative (negative : ret < 0) : VfsCall.act.value ret = .error ret := if_pos negative

theorem mkdir_names (fits : NamesFit m.toVfs)
    (short : ¬ VfsCall.TooLong (filesystems devices count) a m (.mkdir path)) :
    Ends (m.vfsMkdir (filesystems devices count) a path)
      (fun r => ShortOnly m (components path) (VfsCall.act.value r.1, r.2)) fun stop => stop ≠ .fs .overrun := by
  unfold Mounts.vfsMkdir
  apply Ends.bind lookupPathCommon_names.returned
  intro r both
  obtain ⟨looks, result⟩ := both
  have last := lookupPathCommon_last.of_ok result
  obtain ⟨found, t⟩ := r
  cases found with
  | error err =>
    dsimp only
    change ShortOnly m _ (VfsCall.act.value err, t)
    rw [value_negative (looks.failed err rfl)]
    exact .error fits looks.none
  | ok found =>
    obtain ⟨d, last'⟩ := found
    cases last' with
    | none => exact Ends.error (by decide)
    | some name =>
      have last := last d (some name) rfl
      have makes : Ends (t.vfsDmkdir (filesystems devices count) a d name)
          (fun r => r.1 < 0 ∧ r.2 = t ∨ name.length < PATH_MAX ∧ NamesFit r.2.toVfs)
          fun stop => stop ≠ .fs .overrun := by
        unfold Mounts.vfsDmkdir
        split
        · exact Ends.error (by decide)
        split
        · exact Or.inl ⟨show -ENOTDIR < 0 by decide, rfl⟩
        rename_i dir
        have which : t.mntOps (filesystems devices count) d = ramfs ∨
            t.mntOps (filesystems devices count) d = devfs devices := mntOps_eq
        rcases which with fs | fs
        · rw [fs]
          apply ran_names
          dsimp only
          by_cases memory : a.ForNode
          swap
          · rw [makeNode_refused memory]
            exact Or.inl ⟨show -ENOMEM < 0 by decide, rfl⟩
          have length : name.length < PATH_MAX := by
            apply not_le.mp
            intro long
            apply short
            exact ⟨d, name, t, result, long, not_not.mp dir, by rw [fs]; rfl, memory⟩
          obtain ⟨p, dentry⟩ := Option.isSome_iff_exists.mp memory.1
          apply (makeNode_made dentry memory.2 length).mono _ fun _ => id
          intro r made
          exact Or.inr ⟨length, made.2.fits (looks.none.fits fits) length⟩
        · rw [fs]
          exact Ends.error (by decide)
      apply Ends.bind makes
      intro r made
      obtain ⟨ret, u⟩ := r
      apply Ends.bind put_names
      intro v none
      rcases made with ⟨negative, same⟩ | ⟨length, fits'⟩
      · obtain rfl : u = t := same
        rw [pure, Applicative.toPure]
        change ShortOnly m _ (VfsCall.act.value ret, v)
        rw [value_negative negative]
        exact .error fits (looks.none.trans none)
      · exact ShortOnly.ok (none.fits fits') (looks.short fits last length)

theorem openFile_names {flags : BitVec 32} : MakesNone m (m.openFile (filesystems devices count) flags d p) := by
  unfold Mounts.openFile
  apply MakesNone.bind (opens_names _)
  intro ret n
  dsimp only
  split
  · exact put_makesNone.freed
  split
  · exact .refl
  apply MakesNone.bind (truncate_names _)
  intro ret n
  dsimp only
  split
  · unfold Mounts.closeFailed
    apply MakesNone.bind (closes_names _)
    intro ret n
    exact put_makesNone.freed
  · exact .refl

/-- How `vfs_dopen` comes to a dentry. -/
theorem findOrCreate_names {flags : BitVec 32} (fits : NamesFit m.toVfs) (short : PATH_MAX ≤ name.length →
    flags &&& O_CREAT ≠ 0 → (m.ops (filesystems devices count) d).create.isSome → ¬ a.ForNode) :
    Ends (m.findOrCreate (filesystems devices count) a d name flags)
      (fun r => (∃ err, r.1 = .error err) ∧ NoneMade m.toVfs r.2.toVfs ∨ name.length < PATH_MAX ∧ NamesFit r.2.toVfs)
      fun stop => stop ≠ .fs .overrun := by
  unfold Mounts.findOrCreate
  apply Ends.bind (lookup_names _).returned
  intro r both
  obtain ⟨looks, result⟩ := both
  obtain ⟨found, n⟩ := r
  cases found with
  | error err =>
    dsimp only
    split
    · exact Or.inl ⟨⟨err, rfl⟩, looks.none⟩
    rename_i creates
    rw [lookup_ops result]
    cases create : (m.ops (filesystems devices count) d).create with
    | none => exact Or.inl ⟨⟨-ENOSYS, rfl⟩, looks.none⟩
    | some make =>
      have ramfs : make = fun a d name m => m.makeNode a d name .file := by
        have which : m.ops (filesystems devices count) d = ramfs ∨
            m.ops (filesystems devices count) d = devfs devices := ops_eq
        rcases which with fs | fs
        · rw [fs] at create
          exact (Option.some.inj create).symm
        · rw [fs] at create
          cases create
      subst ramfs
      dsimp only
      by_cases memory : a.ForNode
      swap
      · rw [makeNode_refused memory]
        exact Or.inl ⟨⟨-ENOMEM, rfl⟩, looks.none⟩
      have length : name.length < PATH_MAX := not_le.mp fun long => short long creates (by rw [create]; rfl) memory
      obtain ⟨p, dentry⟩ := Option.isSome_iff_exists.mp memory.1
      apply Ends.bind (ran_names (makeNode_made dentry memory.2 length))
      intro r made
      obtain ⟨ret, u⟩ := r
      have fits' := made.2.fits (looks.none.fits fits) length
      dsimp only
      split
      · exact Or.inr ⟨length, fits'⟩
      · apply (lookup_names _).mono _ fun _ => id
        exact fun r again => Or.inr ⟨length, again.none.fits fits'⟩
  | ok c =>
    have length : name.length < PATH_MAX := by
      rw [← looks.named, fits.string]
      exact fits c
    have fits' := looks.none.fits fits
    dsimp only
    split
    · exact Ends.bind put_names fun u none => Or.inr ⟨length, none.fits fits'⟩
    split
    · exact Ends.bind put_names fun u none => Or.inr ⟨length, none.fits fits'⟩
    · exact Or.inr ⟨length, fits'⟩

theorem vfsDopen_names {flags : BitVec 32} (fits : NamesFit m.toVfs) (short : PATH_MAX ≤ name.length →
    flags &&& O_CREAT ≠ 0 → (m.ops (filesystems devices count) (m.into d)).create.isSome → ¬ a.ForNode) :
    Ends (m.vfsDopen (filesystems devices count) a d name flags)
      (fun r => (∃ err, r.1 = .error err) ∧ NoneMade m.toVfs r.2.toVfs ∨ name.length < PATH_MAX ∧ NamesFit r.2.toVfs)
      fun stop => stop ≠ .fs .overrun := by
  unfold Mounts.vfsDopen
  apply Ends.bind (findOrCreate_names fits short)
  intro r comes
  obtain ⟨found, n⟩ := r
  cases found with
  | error err => exact comes
  | ok fd =>
    have both : name.length < PATH_MAX ∧ NamesFit n.toVfs := by
      rcases comes with ⟨failed, -⟩ | both
      · obtain ⟨err, same⟩ := failed
        cases same
      · exact both
    have kept : ∀ {r : Except MountStop (Except Int Nat × Mounts)}, MakesNone n r → Ends r (fun r =>
        (∃ err, r.1 = .error err) ∧ NoneMade m.toVfs r.2.toVfs ∨ name.length < PATH_MAX ∧ NamesFit r.2.toVfs)
        fun stop => stop ≠ .fs .overrun := fun none =>
      none.mono (fun _ none => Or.inr ⟨both.1, none.fits both.2⟩) fun _ => id
    dsimp only
    cases a.file with
    | none => exact kept put_makesNone
    | some p =>
      apply kept
      have opens : MakesNone _ (Mounts.openFile (({ n with opened := insert p n.opened } : Mounts).setFile p
        ⟨fd, flags &&& O_RDWR, if flags &&& O_APPEND ≠ 0 then (n.node fd).data.size else 0, 1⟩)
          (filesystems devices count) flags fd p) := openFile_names
      exact opens.mono (fun _ none => ⟨none.name, none.live⟩) fun _ => id

theorem open_names {flags : BitVec 32} (fits : NamesFit m.toVfs)
    (short : ¬ VfsCall.TooLong (filesystems devices count) a m (.opens path flags)) :
    Ends (m.vfsOpen (filesystems devices count) a path flags) (ShortOnly m (components path))
      fun stop => stop ≠ .fs .overrun := by
  unfold Mounts.vfsOpen
  apply Ends.bind lookupPathCommon_names.returned
  intro r both
  obtain ⟨looks, result⟩ := both
  have last := lookupPathCommon_last.of_ok result
  obtain ⟨found, t⟩ := r
  cases found with
  | error err => exact ShortOnly.error fits looks.none
  | ok found =>
    obtain ⟨d, last'⟩ := found
    cases last' with
    | none => exact Ends.error (by decide)
    | some name =>
      have last := last d (some name) rfl
      apply Ends.bind (vfsDopen_names (looks.none.fits fits)
        fun long creates create memory => short ⟨d, name, t, result, long, creates, create, memory⟩)
      intro r comes
      obtain ⟨ret, u⟩ := r
      apply Ends.bind put_names
      intro v none
      rcases comes with ⟨failed, none'⟩ | ⟨length, fits'⟩
      · obtain ⟨err, same⟩ := failed
        obtain rfl : ret = .error err := same
        exact ShortOnly.error fits (looks.none.trans (none'.trans none))
      · exact ShortOnly.ok (none.fits fits') (looks.short fits last length)

/-! ### All calls -/

theorem map_act {r : Except MountStop (α × Mounts)} {f : α → Except Int Nat} {post : Except Int Nat × Mounts → Prop}
    {stop : MountStop → Prop} (ends : Ends r (fun r => post (f r.1, r.2)) stop) :
    Ends (r.map fun r => (f r.1, r.2)) post stop := by
  cases r with
  | ok x => exact ends
  | error e => exact ends

theorem map_unmade {r : Except MountStop (α × Mounts)} {f : α → β} (none : Unmade m r) :
    Unmade m (r.map fun r => (f r.1, r.2)) := by
  cases r with
  | ok x => exact none
  | error e => exact none

/-- The components of the path, where a call may make a dentry. -/
def VfsCall.names : VfsCall → List Name
  | .mkdir path => components path
  | .opens path _ => components path
  | _ => []

def VfsCall.Copies : VfsCall → Prop
  | .mkdir _ | .opens _ _ => True
  | _ => False

/-- The names fit after every call, and a component that is too long is refused. -/
theorem act_shortOnly {call : VfsCall} (fits : NamesFit m.toVfs)
    (short : ¬ call.TooLong (filesystems devices count) a m) :
    Ends (call.act (filesystems devices count) a m) (ShortOnly m call.names)
      fun stop => call.Copies → stop ≠ .fs .overrun := by
  have made : ∀ {r : Except Int Nat × Mounts}, NamesFit r.2.toVfs → ShortOnly m [] r :=
    fun fits' => ⟨fits', fun long => by obtain ⟨name, member, -⟩ := long; cases member⟩
  have unmade : ∀ {r : Except MountStop (Except Int Nat × Mounts)}, Unmade m r →
      Ends r (ShortOnly m []) fun stop => False → stop ≠ .fs .overrun :=
    fun none => none.mono (fun _ none => made (none.fits fits)) fun _ _ => False.elim
  cases call with
  | mount fstype path => exact map_act ((mount_fits fits).mono (fun _ fits => made fits) fun _ _ => False.elim)
  | lookup path => exact unmade lookupPath_unmade
  | getdents path size start => exact unmade (map_unmade (f := fun r => VfsCall.act.value r.1) getdents_unmade)
  | mkdir path => exact map_act ((mkdir_names fits short).mono (fun _ => id) fun _ stop _ => stop)
  | rmdir path => exact unmade (map_unmade rmdir_unmade)
  | unlink path => exact unmade (map_unmade unlink_unmade)
  | opens path flags => exact (open_names fits short).mono (fun _ => id) fun _ stop _ => stop
  | closes p => exact unmade (map_unmade close_unmade)
  | read p size => exact unmade (map_unmade (f := fun r => VfsCall.act.value r.1) read_unmade)
  | write p buf => exact unmade (map_unmade write_unmade)
  | lseek p offset whence => exact unmade (map_unmade lseek_unmade)

end Landaux
