import Landaux.Fs.MountErrors

/-!
# The open files

What the calls of `vfs.c` do to the `file_t`s. Only `vfs_dopen` makes one, only `vfs_close` drops a
reference to one, and each leaves the others as they are.
-/

namespace Landaux
open Lib Mounts

variable {s t u : Vfs} {m n : Mounts} {reg : Registry} {a : MountAnswers} {devices : Nat → Device}
  {count c d p q size offset : Nat} {name : Name} {path : List UInt8} {flags : BitVec 32} {ret : Int}

def SameFiles (s t : Vfs) : Prop := t.opened = s.opened ∧ ∀ p ∈ s.opened, t.file p = s.file p

namespace SameFiles

theorem opened (same : SameFiles s t) : t.opened = s.opened := same.1

theorem file (same : SameFiles s t) : ∀ p ∈ s.opened, t.file p = s.file p := same.2

theorem refl : SameFiles s s := ⟨rfl, fun _ _ => rfl⟩

theorem trans (first : SameFiles s t) (second : SameFiles t u) : SameFiles s u :=
  ⟨second.opened.trans first.opened,
    fun p member => (second.file p (first.opened ▸ member)).trans (first.file p member)⟩

/-- The result of a step after which a program goes on. -/
theorem ends {α ε : Type} {r : Except ε (α × Mounts)} (same : SameFiles m.toVfs n.toVfs)
    (rest : Ends r (fun r => SameFiles n.toVfs r.2.toVfs) fun _ => True) :
    Ends r (fun r => SameFiles m.toVfs r.2.toVfs) fun _ => True :=
  rest.mono (fun _ later => same.trans later) fun _ _ => trivial

end SameFiles

/-! ### Dentries -/

theorem dentryGet_files : Ends (s.dentryGet d) (SameFiles s) fun _ => True := by
  unfold Vfs.dentryGet
  split
  · exact trivial
  split
  · exact trivial
  exact SameFiles.refl (s := s)

theorem kfreeDentry_files : Ends (s.kfreeDentry d) (SameFiles s) fun _ => True := by
  unfold Vfs.kfreeDentry
  split
  · exact trivial
  split
  · exact trivial
  exact SameFiles.refl (s := s)

theorem putUpTo_files (fuel : Nat) : ∀ d s, Ends (Vfs.putUpTo fuel d s) (SameFiles s) fun _ => True := by
  induction fuel with
  | zero => exact fun _ _ => trivial
  | succ fuel ih =>
    intro d s
    unfold Vfs.putUpTo
    dsimp only
    split
    · exact trivial
    split
    · split
      · refine Ends.bind (ih _ (s.addRefcnt d (-1))) fun t same => ?_
        exact kfreeDentry_files.mono (fun _ freed => SameFiles.trans (s := s) same freed) fun _ _ => trivial
      · exact kfreeDentry_files (s := s.addRefcnt d (-1))
    · exact SameFiles.refl (s := s)

theorem dentryPut_files : Ends (s.dentryPut d) (SameFiles s) fun _ => True := putUpTo_files _ d s

theorem ramfsLookup_files : Ends (s.ramfsLookup d name) (fun r => SameFiles s r.2) fun _ => True := by
  unfold Vfs.ramfsLookup
  split
  · exact trivial
  split
  · exact .refl
  refine Ends.bind ends_true fun found _ => ?_
  cases found with
  | none => exact .refl
  | some c => exact Ends.bind dentryGet_files fun t same => same

theorem vfsMakeNode_files {a : Answers} {kind : Kind} :
    Ends (s.makeNode a d name kind) (fun r => SameFiles s r.2) fun _ => True := by
  unfold Vfs.makeNode
  cases a.dentry with
  | none => exact .refl
  | some c =>
    dsimp only
    split
    · exact .refl
    refine Ends.bind ends_true fun node _ => ?_
    split
    · exact trivial
    exact Ends.bind dentryGet_files fun t same => same

/-! ### Steps of vfs.c -/

theorem put_files : Ends (m.put d) (fun n => SameFiles m.toVfs n.toVfs) fun _ => True := by
  apply ran_ends
  have put : Ends (m.dentryPut d) (SameFiles m.toVfs) fun _ => True := dentryPut_files
  cases eq : m.dentryPut d with
  | error stop => exact trivial
  | ok t =>
    rw [eq] at put
    exact put

theorem get_files : Ends (m.get d) (fun n => SameFiles m.toVfs n.toVfs) fun _ => True := by
  apply ran_ends
  have get : Ends (m.dentryGet d) (SameFiles m.toVfs) fun _ => True := dentryGet_files
  cases eq : m.dentryGet d with
  | error stop => exact trivial
  | ok t =>
    rw [eq] at get
    exact get

theorem put_return {α : Type} {x : α} :
    Ends (m.put d >>= fun n => pure (x, n)) (fun r => SameFiles m.toVfs r.2.toVfs) fun _ => True :=
  Ends.bind put_files fun _ same => same

theorem ofVfs_files {α : Type} {r : Except FsStop (α × Vfs)} (h : Ends r (fun r => SameFiles m.toVfs r.2) fun _ => True) :
    Ends (m.ofVfs r) (fun r => SameFiles m.toVfs r.2.toVfs) fun _ => True := by
  cases r with
  | ok x => exact h
  | error stop => exact trivial

theorem lookup_files (i : Nat) : Ends (((filesystems devices count).fs i).lookup d name m)
    (fun r => SameFiles m.toVfs r.2.toVfs) fun _ => True := by
  rw [filesystems_lookup]
  exact ofVfs_files ramfsLookup_files

/-- What is kept when a step keeps the files, and what comes after it does. -/
theorem bind_files {α β : Type} {r : Except MountStop (α × Mounts)} {f : α × Mounts → Except MountStop (β × Mounts)}
    (first : Ends r (fun r => SameFiles m.toVfs r.2.toVfs) fun _ => True)
    (rest : ∀ x n, Ends (f (x, n)) (fun r => SameFiles n.toVfs r.2.toVfs) fun _ => True) :
    Ends (r >>= f) (fun r => SameFiles m.toVfs r.2.toVfs) fun _ => True :=
  Ends.bind first fun r same => (rest r.1 r.2).mono (fun _ later => same.trans later) fun _ _ => trivial

theorem lookupIn_files : Ends (m.lookupIn (filesystems devices count) d name)
    (fun r => SameFiles m.toVfs r.2.toVfs) fun _ => True := by
  unfold Mounts.lookupIn Mounts.mntOps
  refine Ends.bind ends_true fun _ _ => ran_ends ?_
  split
  · exact lookup_files _
  · exact lookup_files _

theorem walk_files {flags : BitVec 8} (fuel : Nat) : ∀ i path d m,
    Ends (walk (filesystems devices count) a flags fuel i path d m)
      (fun r => SameFiles m.toVfs r.2.toVfs) fun _ => True := by
  induction fuel with
  | zero => exact fun _ _ _ _ => trivial
  | succ fuel ih =>
    intro i path d m
    unfold walk
    split
    rename_i type name path _
    dsimp only
    split
    · exact put_return
    split
    · exact .refl
    refine bind_files lookupIn_files fun found n => ?_
    cases found with
    | error err =>
      dsimp only
      split
      · exact .refl
      · exact put_return
    | ok new =>
      dsimp only
      split
      · exact put_return (m := n.setParent new d)
      split
      · split
        · exact put_return (m := n.setParent new d)
        · exact .refl
      split
      · exact .refl
      · exact ih _ _ _ (n.setParent new d)

theorem lookupPathCommon_files {flags : BitVec 8} :
    Ends (m.lookupPathCommon (filesystems devices count) a path flags)
      (fun r => SameFiles m.toVfs r.2.toVfs) fun _ => True := by
  unfold Mounts.lookupPathCommon
  refine Ends.bind get_files fun n same => ?_
  split
  · exact trivial
  dsimp only
  split
  · exact same
  refine Ends.bind (walk_files _ 0 _ n.root n) fun r kept => ?_
  obtain ⟨(err | ⟨d, name⟩), u⟩ := r
  · exact same.trans kept
  · exact same.trans kept

/-! ### Operations of the filesystems -/

theorem opens_files (i : Nat) : Ends (guarded (((filesystems devices count).fs i).opens.map fun op => op p flags) m)
    (fun r => SameFiles m.toVfs r.2.toVfs) fun _ => True := by
  rcases filesystems_fs devices count i with fs | fs
  · rw [fs]
    exact SameFiles.refl
  · rw [fs]
    apply ran_ends
    dsimp only
    split <;> exact SameFiles.refl

theorem truncate_files (i : Nat) :
    Ends (guarded (((filesystems devices count).fs i).truncate.map fun truncate => truncate p) m)
      (fun r => SameFiles m.toVfs r.2.toVfs) fun _ => True := by
  rcases filesystems_fs devices count i with fs | fs <;> rw [fs] <;> exact SameFiles.refl (s := m.toVfs)

theorem closes_files (i : Nat) :
    Ends (guarded (((filesystems devices count).fs i).closes.map fun close => close p) m)
      (fun r => SameFiles m.toVfs r.2.toVfs) fun _ => True := by
  rcases filesystems_fs devices count i with fs | fs <;> rw [fs] <;> exact SameFiles.refl (s := m.toVfs)

theorem makeNode_files {kind : Kind} : Ends (m.makeNode a d name kind) (fun r => SameFiles m.toVfs r.2.toVfs)
    fun _ => True := by
  unfold Mounts.makeNode
  cases a.dentry with
  | none => exact SameFiles.refl
  | some c =>
    dsimp only
    split
    · exact SameFiles.refl
    exact Ends.bind vfsMakeNode_files fun r same => same

theorem create_files {create : MountAnswers → Nat → Name → Mounts → Except FsStop (Int × Mounts)} (i : Nat)
    (there : ((filesystems devices count).fs i).create = some create) :
    Ends (ran (create a d name m)) (fun r => SameFiles m.toVfs r.2.toVfs) fun _ => True := by
  rcases filesystems_fs devices count i with fs | fs
  · rw [fs] at there
    cases there
    exact ran_ends makeNode_files
  · rw [fs] at there
    cases there

/-! ### vfs_open -/

theorem findOrCreate_files : Ends (m.findOrCreate (filesystems devices count) a d name flags)
    (fun r => SameFiles m.toVfs r.2.toVfs) fun _ => True := by
  unfold Mounts.findOrCreate
  refine bind_files (ran_ends (lookup_files _)) fun found n => ?_
  cases found with
  | error err =>
    dsimp only
    split
    · exact SameFiles.refl
    cases creates : (n.ops (filesystems devices count) d).create with
    | none => exact SameFiles.refl
    | some create =>
      refine bind_files (create_files _ creates) fun ret u => ?_
      dsimp only
      split
      · exact SameFiles.refl
      · exact ran_ends (lookup_files _)
  | ok fd =>
    dsimp only
    split
    · exact put_return
    split
    · exact put_return
    · exact SameFiles.refl

structure MakesFile (m t : Mounts) (q : Nat) : Prop where
  opened : t.opened = insert q m.opened
  once : (t.file q).refcnt = 1
  others : ∀ p ∈ m.opened, t.file p = m.file p

namespace MakesFile

theorem trans (makes : MakesFile m n q) {t : Mounts} (same : SameFiles n.toVfs t.toVfs) : MakesFile m t q where
  opened := same.opened.trans makes.opened
  once := by
    rw [same.file q (makes.opened ▸ Finset.mem_insert_self q m.opened)]
    exact makes.once
  others := fun p member =>
    (same.file p (makes.opened ▸ Finset.mem_insert_of_mem member)).trans (makes.others p member)

theorem after (same : SameFiles m.toVfs n.toVfs) {t : Mounts} (makes : MakesFile n t q) : MakesFile m t q where
  opened := by rw [makes.opened, same.opened]
  once := makes.once
  others := fun p member => (makes.others p (same.opened ▸ member)).trans (same.file p member)

/-- The `file_t` is freed again. -/
theorem freed (makes : MakesFile m n q) (fresh : q ∉ m.opened) : SameFiles m.toVfs (n.kfreeFile q).toVfs := by
  refine ⟨?_, makes.others⟩
  change n.opened.erase q = m.opened
  rw [makes.opened, Finset.erase_insert fresh]

end MakesFile

def OpenReturns (a : MountAnswers) (m : Mounts) (r : Except Int Nat × Mounts) : Prop :=
  (∃ q, r.1 = .ok q ∧ a.file = some q ∧ MakesFile m r.2 q) ∨
    (∃ err, r.1 = .error err) ∧ SameFiles m.toVfs r.2.toVfs

theorem openFile_files (fd : Nat) (granted : a.file = some q) (makes : MakesFile m n q) (fresh : q ∉ m.opened) :
    Ends (n.openFile (filesystems devices count) flags fd q) (OpenReturns a m) fun _ => True := by
  have freed : ∀ err t, MakesFile m t q → Ends ((t.kfreeFile q).put fd >>= fun u => pure (Except.error err, u))
      (OpenReturns a m) fun _ => True := by
    intro err t makes'
    refine Ends.bind put_files fun u same => Or.inr ⟨⟨err, rfl⟩, ?_⟩
    exact (makes'.freed fresh).trans same
  unfold Mounts.openFile
  refine Ends.bind (opens_files _) fun r same => ?_
  have makes₁ := makes.trans same
  dsimp only
  split
  · exact freed _ _ makes₁
  split
  · exact Or.inl ⟨q, rfl, granted, makes₁⟩
  refine Ends.bind (truncate_files _) fun r' same' => ?_
  have makes₂ := makes₁.trans same'
  split
  · unfold Mounts.closeFailed
    refine Ends.bind (closes_files _) fun r'' same'' => ?_
    exact freed _ _ (makes₂.trans same'')
  · exact Or.inl ⟨q, rfl, granted, makes₂⟩

theorem OpenReturns.after (same : SameFiles m.toVfs n.toVfs) {r : Except Int Nat × Mounts}
    (returns : OpenReturns a n r) : OpenReturns a m r := by
  rcases returns with ⟨q, ok, granted, makes⟩ | ⟨failed, kept⟩
  · exact Or.inl ⟨q, ok, granted, .after same makes⟩
  · exact Or.inr ⟨failed, same.trans kept⟩

theorem vfsDopen_files (fresh : ∀ q, a.file = some q → q ∉ m.opened) :
    Ends (m.vfsDopen (filesystems devices count) a d name flags) (OpenReturns a m) fun _ => True := by
  unfold Mounts.vfsDopen
  refine Ends.bind findOrCreate_files fun r same => ?_
  obtain ⟨(err | fd), n⟩ := r
  · exact Or.inr ⟨⟨err, rfl⟩, same⟩
  cases granted : a.file with
  | none =>
    refine Ends.bind put_files fun u kept => Or.inr ⟨⟨-ENOMEM, rfl⟩, same.trans kept⟩
  | some q =>
    have unused : q ∉ n.opened := same.opened ▸ fresh q granted
    refine (openFile_files fd granted ⟨rfl, ?_, fun p member => ?_⟩ unused).mono (fun r returns => returns.after same)
      fun _ _ => trivial
    · exact congrArg File.refcnt (if_pos rfl)
    · refine if_neg ?_
      rintro rfl
      exact unused member

theorem vfsOpen_files (fresh : ∀ q, a.file = some q → q ∉ m.opened) :
    Ends (m.vfsOpen (filesystems devices count) a path flags) (OpenReturns a m) fun _ => True := by
  unfold Mounts.vfsOpen
  refine Ends.bind lookupPathCommon_files fun r same => ?_
  obtain ⟨(err | ⟨d, (none | name)⟩), n⟩ := r
  · exact Or.inr ⟨⟨err, rfl⟩, same⟩
  · exact trivial
  refine Ends.bind (vfsDopen_files fun q granted => same.opened ▸ fresh q granted) fun r' returns => ?_
  obtain ⟨ret, u⟩ := r'
  refine Ends.bind put_files fun v kept => OpenReturns.after same ?_
  rcases returns with ⟨q, ok, granted, makes⟩ | ⟨failed, same'⟩
  · exact Or.inl ⟨q, ok, granted, makes.trans kept⟩
  · exact Or.inr ⟨failed, same'.trans kept⟩

/-! ### vfs_close -/

/-- What the `close` of the filesystem answers when the last reference to the `file_t` at `p` is dropped. -/
def Mounts.closeAnswer (m : Mounts) (reg : Registry) (p : Nat) : Int :=
  match guarded ((m.ops reg (m.file p).dentry).closes.map fun close => close p)
      (m.setFile p { m.file p with refcnt := (m.file p).refcnt - 1 }) with
  | .ok (ret, _) => ret
  | .error _ => 0

/-- The last reference frees the `file_t`, whatever the filesystem answers. -/
structure DropsFile (m : Mounts) (reg : Registry) (p : Nat) (ret : Int) (t : Mounts) : Prop where
  last : (m.file p).refcnt = 1 → ret = m.closeAnswer reg p ∧ t.opened = m.opened.erase p
  more : (m.file p).refcnt ≠ 1 → ret = 0 ∧ t.opened = m.opened ∧ (t.file p).refcnt = (m.file p).refcnt - 1
  others : ∀ q ∈ m.opened, q ≠ p → t.file q = m.file q

theorem vfsClose_files (member : p ∈ m.opened) : Ends (m.vfsClose (filesystems devices count) p)
    (fun r => DropsFile m (filesystems devices count) p r.1 r.2) fun _ => True := by
  unfold Mounts.vfsClose
  rw [if_neg (not_not.mpr member)]
  unfold Landaux.vfsClose
  dsimp only
  have setOthers : ∀ f, ∀ q ∈ m.opened, q ≠ p → (m.setFile p f).file q = m.file q := fun f q _ other => if_neg other
  by_cases last : (m.file p).refcnt - 1 = 0
  · rw [if_pos last]
    dsimp only
    have closes := @closes_files (m.setFile p { m.file p with refcnt := (m.file p).refcnt - 1 }) devices count p
      (m.super (m.sb (m.file p).dentry)).fs
    have answer : ∀ ret u, guarded ((m.ops (filesystems devices count) (m.file p).dentry).closes.map
        fun close => close p) (m.setFile p { m.file p with refcnt := (m.file p).refcnt - 1 }) = .ok (ret, u) →
          ret = m.closeAnswer (filesystems devices count) p := by
      intro ret u eq
      unfold Mounts.closeAnswer
      rw [eq]
    refine Ends.bind closes.returned fun r ⟨same, eq⟩ => Ends.bind put_files fun v kept => ?_
    refine ⟨fun _ => ⟨answer r.1 r.2 eq, ?_⟩, fun more => absurd (by omega) more, fun q inside other => ?_⟩
    · rw [kept.opened]
      exact congrArg (Finset.erase · p) same.opened
    · have still : q ∈ (r.2.kfreeFile p).opened := Finset.mem_erase.mpr ⟨other, same.opened ▸ inside⟩
      rw [kept.file q still]
      exact (same.file q inside).trans (setOthers _ q inside other)
  · rw [if_neg last]
    refine ⟨fun one => absurd (by omega) last, fun _ => ⟨rfl, rfl, congrArg File.refcnt (if_pos rfl)⟩, setOthers _⟩

/-! ### Calls through a file -/

def SameHandles (s t : Vfs) : Prop :=
  t.opened = s.opened ∧ ∀ p ∈ s.opened, { t.file p with offset := 0 } = { s.file p with offset := 0 }

namespace SameHandles

theorem refcnt (same : SameHandles s t) (member : p ∈ s.opened) : (t.file p).refcnt = (s.file p).refcnt := by
  have counts := congrArg File.refcnt (same.2 p member)
  exact counts

end SameHandles

theorem SameFiles.handles (same : SameFiles s t) : SameHandles s t :=
  ⟨same.opened, fun p member => by rw [same.file p member]⟩

theorem setOffset_handles (m : Mounts) (p offset : Nat) :
    SameHandles m.toVfs (m.setFile p { m.file p with offset := offset }).toVfs := by
  refine ⟨rfl, fun q _ => ?_⟩
  change { (if q = p then { m.file p with offset := offset } else m.file q) with offset := 0 } = _
  split
  · rename_i same
    rw [same]
  · rfl

theorem advance_handles (same : SameFiles m.toVfs n.toVfs) : SameHandles m.toVfs (n.advance p ret).toVfs := by
  have moved : SameHandles n.toVfs (n.advance p ret).toVfs := by
    unfold Mounts.advance
    split
    · exact setOffset_handles n p _
    · exact SameFiles.refl.handles
  refine ⟨moved.1.trans same.opened, fun q member => (moved.2 q (same.opened ▸ member)).trans ?_⟩
  rw [same.file q member]

theorem vfsRead_files : Ends (m.vfsRead (filesystems devices count) p size)
    (fun r => SameHandles m.toVfs r.2.toVfs) fun _ => True := by
  unfold Mounts.vfsRead
  split
  · exact trivial
  dsimp only
  split
  · exact SameFiles.refl.handles
  cases reads : (m.ops (filesystems devices count) (m.file p).dentry).read with
  | none => exact SameFiles.refl.handles
  | some read =>
    dsimp only
    split
    · exact SameFiles.refl.handles
    have same : Ends (ran (read p (m.file p).offset size m)) (fun r => SameFiles m.toVfs r.2.toVfs) fun _ => True := by
      apply ran_ends
      unfold Mounts.ops at reads
      rcases filesystems_fs devices count (m.super (m.sb (m.file p).dentry)).fs with fs | fs <;> rw [fs] at reads <;>
        cases reads <;> dsimp only <;> split <;> first | exact trivial | exact SameFiles.refl (s := m.toVfs)
    exact Ends.bind same fun r kept => advance_handles kept

theorem vfsWrite_files {buf : List UInt8} : Ends (m.vfsWrite (filesystems devices count) a p buf)
    (fun r => SameHandles m.toVfs r.2.toVfs) fun _ => True := by
  unfold Mounts.vfsWrite
  split
  · exact trivial
  dsimp only
  split
  · exact SameFiles.refl.handles
  cases writes : (m.ops (filesystems devices count) (m.file p).dentry).write with
  | none => exact SameFiles.refl.handles
  | some write =>
    dsimp only
    split
    · exact SameFiles.refl.handles
    have same : Ends (ran (write a.block p (m.file p).offset buf m)) (fun r => SameFiles m.toVfs r.2.toVfs)
        fun _ => True := by
      apply ran_ends
      unfold Mounts.ops at writes
      rcases filesystems_fs devices count (m.super (m.sb (m.file p).dentry)).fs with fs | fs <;> rw [fs] at writes <;>
        cases writes <;> dsimp only <;> split <;> first | exact trivial | exact SameFiles.refl (s := m.toVfs)
    exact Ends.bind same fun r kept => advance_handles kept

theorem vfsLseek_files {whence : Int} : Ends (m.vfsLseek (filesystems devices count) p offset whence)
    (fun r => SameHandles m.toVfs r.2.toVfs) fun _ => True := by
  unfold Mounts.vfsLseek
  split
  · exact trivial
  have noSeek : (m.ops (filesystems devices count) (m.file p).dentry).lseek = none := by
    unfold Mounts.ops
    rcases filesystems_fs devices count (m.super (m.sb (m.file p).dentry)).fs with fs | fs <;> rw [fs] <;> rfl
  dsimp only
  rw [noSeek]
  unfold Landaux.vfsLseek
  dsimp only
  split
  · exact setOffset_handles m p (m.file p).offset
  · split
    · exact setOffset_handles m p (m.file p).offset
    · exact setOffset_handles m p _

end Landaux
