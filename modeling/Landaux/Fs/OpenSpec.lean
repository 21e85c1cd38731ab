import Landaux.Fs.CallSpec

/-!
# What opening and closing do

A file that `vfs_open` returns is on a dentry of the tree, found or new.
-/

namespace Landaux
open Lib Vfs

variable {s t u v : Vfs} {held : Multiset Nat} {d c p q x : Nat} {name : Name} {n : Dentry}
  {path : List UInt8} {a : Answers} {flags : BitVec 32} {kind : Kind}

/-! ### A new dentry is found -/

/-- A name that `strcmp` still finds has not run into the reference count. -/
theorem strcpyName_found (copied : strcpyName name kind = .ok n)
    (found : ({ n with refcnt := n.refcnt + 1 } : Dentry).string = name) : n.refcnt = 0 :=
  strcpyName_refcnt copied ((strcpyName_string copied).mp found).1

/-! ### vfs_dopen -/

theorem newFile_granted (c : Nat) (flags : BitVec 32) (data : FileData) :
    ∃ f data', newFile true c flags data = .ok (f, data') := by
  unfold newFile
  dsimp only
  by_cases truncates : flags &&& O_TRUNC ≠ 0
  · exact ⟨_, _, if_pos truncates⟩
  · exact ⟨_, _, if_neg truncates⟩

/-- A new `file_t`: its dentry, mode and offset, and its one reference. -/
theorem newFile_file {f : File} {data data' : FileData} (new : newFile true c flags data = .ok (f, data')) :
    f = ⟨c, flags &&& O_RDWR, if flags &&& O_APPEND ≠ 0 then data.size else 0, 1⟩ ∧
      data' = if flags &&& O_TRUNC ≠ 0 then ramfsTruncate f.offset data else data := by
  unfold newFile at new
  dsimp only at new
  by_cases truncates : flags &&& O_TRUNC ≠ 0
  · obtain ⟨rfl, rfl⟩ := Prod.mk.inj (Except.ok.inj ((if_pos truncates).symm.trans new))
    exact ⟨rfl, (if_pos truncates).symm⟩
  · obtain ⟨rfl, rfl⟩ := Prod.mk.inj (Except.ok.inj ((if_neg truncates).symm.trans new))
    exact ⟨rfl, (if_neg truncates).symm⟩

theorem newFile_dentry {f : File} {data data' : FileData} (new : newFile true c flags data = .ok (f, data')) :
    f.dentry = c ∧ f.refcnt = 1 := by
  rw [(newFile_file new).1]
  exact ⟨rfl, rfl⟩

def Vfs.refusal (s : Vfs) (a : Answers) (d : Nat) (name : Name) (flags : BitVec 32) : Option Int :=
  match s.child d name with
  | none =>
    if flags &&& O_CREAT = 0 then some (-ENOENT)
    else if a.dentry = none ∨ a.priv = false then some (-ENOMEM)
    else none
  | some c =>
    if (s.node c).kind = .dir then some (-EISDIR)
    else if flags &&& O_CREAT ≠ 0 ∧ flags &&& O_EXCL ≠ 0 then some (-EEXIST)
    else if a.file = none then some (-ENOMEM)
    else none

def Vfs.Accepts (s : Vfs) (a : Answers) (d : Nat) (name : Name) (flags : BitVec 32) : Prop :=
  s.refusal a d name flags = none ∧ s.child d name = none

inductive DopenEnds (a : Answers) (s : Vfs) (d : Nat) (name : Name) (flags : BitVec 32) :
    Except Int Nat × Vfs → Prop where
  | refused {err : Int} (refused : s.refusal a d name flags = some err) : DopenEnds a s d name flags (.error err, s)
  | lost {err : Int} {p : Nat} {n : Dentry} {t : Vfs} (accepted : s.refusal a d name flags = none)
      (none : s.child d name = none) (copied : strcpyName name .file = .ok n) (made : Made s t d p n)
      (lost : a.file = Option.none ∨ 256 ≤ name.length) : DopenEnds a s d name flags (.error err, t)
  | opened {c q : Nat} {f : File} {data : FileData} {t : Vfs} (accepted : s.refusal a d name flags = none)
      (found : s.child d name = some c) (granted : a.file = some q) (opens : Opened s t c q f data)
      (new : newFile true c flags (s.node c).data = .ok (f, data)) : DopenEnds a s d name flags (.ok q, t)
  | created {p q : Nat} {n : Dentry} {f : File} {data : FileData} {u t : Vfs}
      (accepted : s.refusal a d name flags = none) (none : s.child d name = none)
      (copied : strcpyName name .file = .ok n) (made : Made s u d p n) (counted : n.refcnt = 0)
      (granted : a.file = some q) (opens : Opened u t p q f data)
      (new : newFile true p flags (u.node p).data = .ok (f, data)) : DopenEnds a s d name flags (.ok q, t)

/-- The end of `vfs_dopen`, with a reference to `c` taken in `s`. -/
theorem newFile_ends {post : Except Int Nat × Vfs → Prop} {stop : FsStop → Prop} (live : c ∈ s.live)
    (counted : (s.node c).refcnt ≠ 0) (denied : a.file = none → post (.error (-ENOMEM), s))
    (opens : ∀ q f data t, a.file = some q → Opened s t c q f data →
      newFile true c flags (s.node c).data = .ok (f, data) → post (.ok q, t)) :
    Ends (match newFile a.file.isSome c flags ((s.addRefcnt c 1).node c).data with
      | .error err => do return (.error err, ← (s.addRefcnt c 1).dentryPut c)
      | .ok (f, data) =>
        let p := a.file.getD 0
        let s := (s.addRefcnt c 1).setNode c { (s.addRefcnt c 1).node c with data := data }
        return (.ok p, { s with opened := insert p s.opened, file := fun q => if q = p then f else s.file q }))
      post stop := by
  cases granted : a.file with
  | none =>
    have shared : ((s.addRefcnt c 1).node c).refcnt ≠ 1 := by
      rw [addRefcnt_node, if_pos rfl]
      dsimp only
      omega
    change Ends ((s.addRefcnt c 1).dentryPut c >>= _) _ _
    rw [dentryPut_shared (s := s.addRefcnt c 1) live shared, addRefcnt_add, Int.add_right_neg, addRefcnt_zero]
    exact denied granted
  | some q =>
    have old : ((s.addRefcnt c 1).node c).data = (s.node c).data := by rw [addRefcnt_node]
    rw [Option.isSome_some, old]
    obtain ⟨f, data, new⟩ := newFile_granted c flags (s.node c).data
    rw [new]
    refine opens q f data _ granted ⟨rfl, rfl, rfl, rfl, fun x => ?_⟩ new
    change ((s.addRefcnt c 1).setNode c _).node x = _
    rw [setNode_node, addRefcnt_node, addRefcnt_node, if_pos rfl]
    split
    · rfl
    · rw [add_zero]

inductive FindEnds (a : Answers) (s : Vfs) (d : Nat) (name : Name) (flags : BitVec 32) :
    Except Int Nat × Vfs → Prop where
  | refused {err : Int} (refused : s.refusal a d name flags = some err) : FindEnds a s d name flags (.error err, s)
  | lost {p : Nat} {n : Dentry} {t : Vfs} (accepted : s.refusal a d name flags = none)
      (none : s.child d name = none) (copied : strcpyName name .file = .ok n) (made : Made s t d p n)
      (lost : 256 ≤ name.length) : FindEnds a s d name flags (.error (-ENOENT), t)
  | found {c : Nat} (found : s.child d name = some c) (file : (s.node c).kind ≠ .dir)
      (plain : ¬ (flags &&& O_CREAT ≠ 0 ∧ flags &&& O_EXCL ≠ 0)) : FindEnds a s d name flags (.ok c, s.addRefcnt c 1)
  | created {p : Nat} {n : Dentry} {t : Vfs} (accepted : s.refusal a d name flags = none)
      (none : s.child d name = none) (copied : strcpyName name .file = .ok n) (made : Made s t d p n)
      (counted : n.refcnt = 0) : FindEnds a s d name flags (.ok p, t.addRefcnt p 1)

theorem Made.found (made : Made s t d p n) (children : ∀ x ∈ (s.node d).children, x ∈ s.live)
    (live : d ∈ s.live) (none : s.child d name = none) (found : t.child d name = some c) : c = p := by
  obtain ⟨member, string⟩ := child_mem found
  rw [made.old (made.ne_new live)] at member
  dsimp only at member
  rw [if_pos rfl, List.mem_append, List.mem_singleton] at member
  apply member.resolve_left
  intro before
  rw [made.old (made.ne_new (children c before))] at string
  have same : (s.node c).string = name := string
  exact List.find?_eq_none.mp none c before (by simpa using same)

theorem findOrCreate_spec (h : Inv held s) (alive : d ∈ s.alive) (dir : (s.node d).kind = .dir)
    (fresh : Fresh a s) :
    Ends (s.findOrCreate a d name flags) (FindEnds a s d name flags)
      (s.Exceeds 1 fun given => given = name ∧ s.Accepts a d name flags) := by
  have live := (mem_alive.mp alive).1
  have children : ∀ x ∈ (s.node d).children, x ∈ s.live := fun x child =>
    (mem_alive.mp (h.child_alive alive child)).1
  unfold findOrCreate
  apply Ends.bind ((ramfsLookup_spec h alive dir).mono (fun _ looked => looked) fun _ => Or.inl)
  rintro _ (none | @⟨c, found, inv⟩)
  · dsimp only
    by_cases plain : flags &&& O_CREAT = 0
    · rw [if_pos plain]
      refine .refused ?_
      rw [refusal, none]
      exact if_pos plain
    rw [if_neg plain]
    have accepted : a.dentry ≠ Option.none → a.priv = true → s.refusal a d name flags = Option.none := by
      intro granted priv
      rw [refusal, none]
      dsimp only
      rw [if_neg plain]
      exact if_neg (by simp [granted, priv])
    refine Ends.bind ((makeNode_spec live fresh).mono (fun _ ends => ends) ?_) ?_
    · rintro stop ⟨granted, priv, long⟩
      exact Or.inr ⟨name, ⟨rfl, accepted granted priv, none⟩, long⟩
    rintro _ (denied | @⟨p, n, t, granted, priv, copied, made⟩)
    · refine .refused ?_
      rw [refusal, none]
      dsimp only
      rw [if_neg plain]
      exact if_pos denied
    have accepted := accepted (granted ▸ Option.some_ne_none p) priv
    have there : t.node d = _ := made.old (made.ne_new live)
    change Ends (t.ramfsLookup d name) _ _
    unfold ramfsLookup
    rw [if_neg (by rw [made.live]; simp [live]), if_neg (by rw [there]; simp [dir]), findChild_eq _ ?_]
    swap
    · rw [there, made.live]
      intro x member
      simp at member
      exact Finset.mem_insert.mpr (member.symm.imp_right (children x))
    change Ends (match t.child d name with
      | Option.none => _
      | some c => _) _ _
    cases lookup : t.child d name with
    | none =>
      refine .lost accepted none copied made ?_
      -- a name that fits is found again
      by_contra fits
      rw [not_le] at fits
      rw [strcpyName_fits fits.le] at copied
      cases copied
      have member : p ∈ (t.node d).children := by
        rw [there]
        simp
      apply List.find?_eq_none.mp lookup p member
      rw [made.new]
      simp [Dentry.string, fits]
    | some c =>
      obtain rfl := made.found children live none lookup
      dsimp only
      unfold dentryGet
      rw [if_neg (by rw [made.live]; simp)]
      split
      · rename_i large
        refine Or.inr ⟨name, ⟨rfl, accepted, none⟩, ?_⟩
        by_contra fits
        rw [strcpyName_fits (not_lt.mp fits)] at copied
        cases copied
        rw [made.new] at large
        exact absurd large (by decide : ¬ (0 + 1 + 1 : Int) ≥ 2 ^ 31)
      · refine .created accepted none copied made ?_
        apply strcpyName_found copied
        rw [← made.new]
        exact (child_mem lookup).2
  · dsimp only
    have kind : ((s.addRefcnt c 1).node c).kind = (s.node c).kind := by rw [addRefcnt_node]
    have counted := h.positive (h.child_alive alive (child_mem found).1)
    have shared : ((s.addRefcnt c 1).node c).refcnt ≠ 1 := by
      rw [addRefcnt_node, if_pos rfl]
      dsimp only
      omega
    have back : (s.addRefcnt c 1).dentryPut c = .ok s := by
      rw [dentryPut_shared (s := s.addRefcnt c 1) (children c (child_mem found).1) shared, addRefcnt_add,
        Int.add_right_neg, addRefcnt_zero]
    rw [kind, back]
    by_cases isDir : (s.node c).kind = .dir
    · rw [if_pos isDir]
      refine .refused ?_
      rw [refusal, found]
      exact if_pos isDir
    rw [if_neg isDir]
    by_cases exists' : flags &&& O_CREAT ≠ 0 ∧ flags &&& O_EXCL ≠ 0
    · rw [if_pos exists']
      refine .refused ?_
      rw [refusal, found]
      dsimp only
      rw [if_neg isDir]
      exact if_pos exists'
    · rw [if_neg exists']
      exact .found found isDir exists'

theorem vfsDopen_spec (h : Inv held s) (alive : d ∈ s.alive) (dir : (s.node d).kind = .dir)
    (fresh : Fresh a s) :
    Ends (s.vfsDopen a d name flags) (DopenEnds a s d name flags)
      (s.Exceeds 1 fun given => given = name ∧ s.Accepts a d name flags) := by
  unfold vfsDopen
  apply Ends.bind (findOrCreate_spec h alive dir fresh)
  rintro _ (@⟨err, refused⟩ | @⟨p, n, t, accepted, none, copied, made, lost⟩ | @⟨c, found, file, plain⟩ |
    @⟨p, n, t, accepted, none, copied, made, counted⟩)
  · exact .refused refused
  · exact .lost accepted none copied made (Or.inr lost)
  · have inside := h.child_alive alive (child_mem found).1
    have refusal : s.refusal a d name flags = if a.file = Option.none then some (-ENOMEM) else Option.none := by
      rw [Vfs.refusal, found]
      dsimp only
      rw [if_neg file, if_neg plain]
    refine newFile_ends (mem_alive.mp inside).1 (mem_alive.mp inside).2 (fun denied => ?_)
      fun q f data t granted opens new => ?_
    · rw [if_pos denied] at refusal
      exact .refused refusal
    · rw [if_neg (by rw [granted]; nofun)] at refusal
      exact .opened refusal found granted opens new
  · have live : p ∈ t.live := made.live ▸ Finset.mem_insert_self p s.live
    refine newFile_ends live (by rw [made.new, counted]; norm_num) (fun denied => ?_)
      fun q f data u granted opens new => ?_
    · exact .lost accepted none copied made (Or.inl denied)
    · exact .created accepted none copied made counted granted opens new

/-! ### vfs_open and vfs_close -/

theorem SameTree.refusal (same : SameTree s t) (short : Short s) :
    t.refusal a d name flags = s.refusal a d name flags := by
  unfold Vfs.refusal
  simp only [same.child short, same.kind]

def Vfs.Creates (s : Vfs) (a : Answers) (path : List UInt8) (flags : BitVec 32) (name : Name) : Prop :=
  ∃ d t, s.lookupPathCommon a path (LAST_RETURN ||| LAST_NO_SLASHES) = .ok (.ok (d, some name), t) ∧
    t.Accepts a d name flags

inductive OpenEnds (a : Answers) (path : List UInt8) (flags : BitVec 32) (held : Multiset Nat) (s : Vfs) :
    Except Int Nat × Vfs → Prop where
  | failed {err : Int} {t : Vfs}
      (visited : Visited (LAST_RETURN ||| LAST_NO_SLASHES) a path held s t (.error err)) :
      OpenEnds a path flags held s (.error err, t)
  | refused {d : Nat} {name : Name} {err : Int} {t : Vfs}
      (visited : Visited (LAST_RETURN ||| LAST_NO_SLASHES) a path held s t (.ok (d, name)))
      (refused : Short s → s.refusal a d name flags = some err) : OpenEnds a path flags held s (.error err, t)
  | lost {d p : Nat} {name : Name} {n : Dentry} {err : Int} {u t : Vfs}
      (visited : Visited (LAST_RETURN ||| LAST_NO_SLASHES) a path held s u (.ok (d, name)))
      (dir : (s.node d).kind = .dir) (creates : s.Creates a path flags name)
      (accepted : Short s → s.refusal a d name flags = none) (none : Short s → s.child d name = none)
      (copied : strcpyName name .file = .ok n) (made : Made u t d p n)
      (lost : a.file = Option.none ∨ 256 ≤ name.length) : OpenEnds a path flags held s (.error err, t)
  | opened {d c q : Nat} {name : Name} {f : File} {data : FileData} {u t : Vfs}
      (visited : Visited (LAST_RETURN ||| LAST_NO_SLASHES) a path held s u (.ok (d, name)))
      (link : c ∈ s.links) (accepted : Short s → s.refusal a d name flags = none)
      (found : Short s → s.child d name = some c) (granted : a.file = some q) (opens : Opened u t c q f data)
      (new : newFile true c flags (s.node c).data = .ok (f, data)) : OpenEnds a path flags held s (.ok q, t)
  | created {d p q : Nat} {name : Name} {n : Dentry} {f : File} {data : FileData} {u v t : Vfs}
      (visited : Visited (LAST_RETURN ||| LAST_NO_SLASHES) a path held s u (.ok (d, name)))
      (dir : (s.node d).kind = .dir) (creates : s.Creates a path flags name)
      (accepted : Short s → s.refusal a d name flags = none) (none : Short s → s.child d name = none)
      (copied : strcpyName name .file = .ok n) (made : Made u v d p n)
      (counted : n.refcnt = 0) (granted : a.file = some q) (opens : Opened v t p q f data)
      (new : newFile true p flags n.data = .ok (f, data)) : OpenEnds a path flags held s (.ok q, t)

theorem vfsOpen_spec (h : Inv held s) (absolute : Absolute path) (fresh : Fresh a s) :
    Ends (s.vfsOpen a path flags) (OpenEnds a path flags held s)
      (s.Exceeds (path.length + 2) (s.Creates a path flags)) := by
  unfold vfsOpen
  apply Ends.bind ((lookupPathCommon_spec h absolute).returned.mono (fun _ both => both)
    fun _ crowded => Or.inl (crowded.mono (Nat.le_succ _)))
  rintro _ ⟨⟨lookup, crosses, result⟩ | @⟨d, name, t, crossed, lookup, crosses, result⟩, eq⟩
  · exact .failed (lookup.failed crosses result)
  have visited := lookup.put crosses result
  have result := (dentryPut_linked lookup.holds lookup.inside).1
  have live := lookup.live
  have more := lookup.shared
  have inv := lookup.holds
  have dir : (t.node d).kind = .dir := by
    rw [lookup.tree.kind]
    exact lookup.dir d name rfl (by decide)
  have dir' : (s.node d).kind = .dir := lookup.tree.kind d ▸ dir
  have fresh' := fresh.congr lookup.tree.live lookup.tree.opened
  have refusal : Short s → t.refusal a d name flags = s.refusal a d name flags := lookup.tree.refusal
  have child : Short s → t.child d name = s.child d name := lookup.tree.child
  have grown := lookup.grown crosses.few
  dsimp only
  refine Ends.bind ((vfsDopen_spec inv inv.held_alive dir fresh').mono (fun _ ends => ends)
    fun _ exceeds => exceeds.mono (fun crowded => crowded.grown lookup.tree.live grown (by omega)) ?_) ?_
  · rintro _ ⟨rfl, accepts⟩
    exact ⟨d, t, eq, accepts⟩
  rintro _ (@⟨err, refused⟩ | @⟨err, p, n, v, accepted, none, copied, made, lost⟩ |
    @⟨c, q, f, data, v, accepted, found, granted, opens, new⟩ |
    @⟨p, q, n, f, data, v, w, accepted, none, copied, made, counted, granted, opens, new⟩)
  · dsimp only
    rw [result]
    exact .refused visited fun short => (refusal short).symm.trans refused
  · have more' : 2 ≤ (v.node d).refcnt := by
      rw [made.old (made.ne_new live)]
      exact more
    dsimp only
    rw [dentryPut_shared (made.live ▸ Finset.mem_insert_of_mem live) (by omega)]
    exact .lost visited dir' ⟨d, t, eq, accepted, none⟩ (fun short => (refusal short).symm.trans accepted)
      (fun short => (child short).symm.trans none) copied (made.addRefcnt live) lost
  · have more' : 2 ≤ (v.node d).refcnt := by
      rw [opens.node_eq]
      dsimp only
      split <;> omega
    have link : c ∈ s.links := by
      rw [← lookup.sameLinks.links]
      exact mem_links.mpr ⟨d, inv.held_alive, (child_mem found).1⟩
    dsimp only
    rw [dentryPut_shared (opens.live ▸ live) (by omega)]
    exact .opened visited link (fun short => (refusal short).symm.trans accepted)
      (fun short => (child short).symm.trans found) granted opens.addRefcnt (lookup.tree.data c ▸ new)
  · have other := made.ne_new live
    have more' : 2 ≤ (w.node d).refcnt := by
      rw [opens.node_eq, made.old other]
      dsimp only
      rw [if_neg other]
      omega
    dsimp only
    rw [dentryPut_shared (opens.live ▸ made.live ▸ Finset.mem_insert_of_mem live) (by omega)]
    exact .created visited dir' ⟨d, t, eq, accepted, none⟩ (fun short => (refusal short).symm.trans accepted)
      (fun short => (child short).symm.trans none) copied (made.addRefcnt live) counted granted opens.addRefcnt
      (by rw [made.new] at new; exact new)

theorem vfsClose_spec (h : Inv held s) (opened : q ∈ s.opened) : Ends (s.vfsClose q)
    (fun r => r.1 = 0 ∧ (∃ f, Put ((s.setFile q f).kfreeFile q) r.2) ∧ Inv held r.2) fun _ => False := by
  have last : Landaux.vfsClose (s.file q) = none := by
    unfold Landaux.vfsClose
    rw [h.closes q opened]
    rfl
  unfold Vfs.vfsClose
  rw [if_neg (not_not.mpr opened)]
  dsimp only
  rw [last]
  exact Ends.bind (dentryPut_spec (h.close opened _)) fun _ both => ⟨rfl, ⟨_, both.1⟩, both.2⟩

end Landaux
