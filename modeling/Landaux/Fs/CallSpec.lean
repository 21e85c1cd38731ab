import Landaux.Fs.Edits

/-!
# What the calls do

One theorem for each call of `vfs.c` that takes a path or a file: how it can end. Each call leaves its
lookup behind, then edits the tree at most once.
-/

namespace Landaux
open Lib Vfs

variable {s t u v : Vfs} {held : Multiset Nat} {d c p q x : Nat} {name : Name} {n : Dentry}
  {path : List UInt8} {a : Answers} {flags : BitVec 8} {openFlags : BitVec 32} {k l : Int}

theorem addRefcnt_add : (s.addRefcnt d k).addRefcnt d l = s.addRefcnt d (k + l) := by
  have nodes : ∀ x, ((s.addRefcnt d k).addRefcnt d l).node x = (s.addRefcnt d (k + l)).node x := fun x => by
    rw [addRefcnt_node, addRefcnt_node, addRefcnt_node]
    dsimp only
    split
    · rw [add_assoc]
    · rw [add_zero]
  exact congrArg (fun node => { s with node := node }) (funext nodes)

theorem addRefcnt_zero : s.addRefcnt d 0 = s := by
  have nodes : ∀ x, (s.addRefcnt d 0).node x = s.node x := fun x => by
    rw [addRefcnt_node, ite_self, add_zero]
  exact congrArg (fun node => { s with node := node }) (funext nodes)

theorem listDel_addRefcnt : (s.listDel d).addRefcnt c k = (s.addRefcnt c k).listDel d := by
  have nodes : ∀ x, ((s.listDel d).addRefcnt c k).node x = ((s.addRefcnt c k).listDel d).node x := fun x => by
    rw [addRefcnt_node, listDel_node, listDel_node, addRefcnt_node]
  exact congrArg (fun node => { s with node := node }) (funext nodes)

theorem freeData_addRefcnt : (s.freeData d).addRefcnt c k = (s.addRefcnt c k).freeData d := by
  have nodes : ∀ x, ((s.freeData d).addRefcnt c k).node x = ((s.addRefcnt c k).freeData d).node x := fun x => by
    rw [addRefcnt_node, freeData_node, freeData_node, addRefcnt_node, addRefcnt_node]
  exact congrArg (fun node => { s with node := node }) (funext nodes)

/-! ### A lookup whose result has been put -/

/-- Nothing has changed but the counts of the dentries that were gone on from. -/
structure Leaks (held : Multiset Nat) (s t : Vfs) (crossed : List Nat) : Prop where
  inv : Inv held t
  tree : SameTree s t
  alive : t.alive = s.alive
  refcnt : ∀ x, (t.node x).refcnt = (s.node x).refcnt + crossed.count x
  first : crossed = [] ∨ s.root ∈ crossed

/-- A call has looked `path` up, and changed nothing else. -/
structure Visited (flags : BitVec 8) (a : Answers) (path : List UInt8) (held : Multiset Nat) (s t : Vfs)
    (r : Except Int (Nat × Name)) : Prop where
  leaks : ∃ crossed, Leaks held s t crossed ∧ Crossing (s.GoesOn a flags path) path.length crossed
  result : Short s → r = s.target a flags path
  linked : ∀ e name, r = .ok (e, name) → e ∈ s.linked

namespace Visited

variable {r : Except Int (Nat × Name)}

theorem inv (visited : Visited flags a path held s t r) : Inv held t := visited.leaks.elim fun _ both => both.1.inv

theorem tree (visited : Visited flags a path held s t r) : SameTree s t :=
  visited.leaks.elim fun _ both => both.1.tree

theorem links (visited : Visited flags a path held s t r) : SameLinks s t := by
  obtain ⟨_, leaks, -⟩ := visited.leaks
  exact leaks.tree.links leaks.alive

end Visited

namespace Lookup

variable {crossed : List Nat} {err : Int}

theorem failed (lookup : Lookup flags s held (.error err) t crossed)
    (crosses : Crossing (s.GoesOn a flags path) path.length crossed)
    (result : Short s → .error err = s.target a flags path) :
    Visited flags a path held s t (.error err) := by
  have inv := lookup.inv
  rw [heldBy, zero_add] at inv
  refine ⟨⟨crossed, ⟨inv, lookup.tree, lookup.alive, fun x => ?_, lookup.first⟩, crosses⟩, result, fun _ _ same => ?_⟩
  · rw [lookup.refcnt]
    exact add_zero _
  · cases same

theorem holds (lookup : Lookup flags s held (.ok (d, name)) t crossed) : Inv (d ::ₘ held) t := by
  have inv := lookup.inv
  rwa [heldBy, Multiset.singleton_add] at inv

theorem sameLinks {r : Except Int (Nat × Name)} (lookup : Lookup flags s held r t crossed) : SameLinks s t :=
  lookup.tree.links lookup.alive

theorem inside (lookup : Lookup flags s held (.ok (d, name)) t crossed) : d ∈ t.linked := by
  rw [lookup.sameLinks.linked]
  exact lookup.linked d name rfl

/-- A dentry that is in the tree and held is not freed by `dentry_put`. -/
theorem shared (lookup : Lookup flags s held (.ok (d, name)) t crossed) : 2 ≤ (t.node d).refcnt := by
  have inv := lookup.holds
  have counted := inv.counted d inv.held_alive
  have member : d ∈ t.refs held := mem_refs_linked lookup.inside
  have once := Multiset.one_le_count_iff_mem.mpr member
  rw [refs_cons, Multiset.count_cons_self] at counted
  omega

theorem live (lookup : Lookup flags s held (.ok (d, name)) t crossed) : d ∈ t.live :=
  (mem_alive.mp lookup.holds.held_alive).1

theorem grown {r : Except Int (Nat × Name)} {k : Nat} (lookup : Lookup flags s held r t crossed)
    (few : crossed.length ≤ k) (x : Nat) : (t.node x).refcnt ≤ (s.node x).refcnt + (k + 1 : Nat) := by
  have count := crossed.count_le_length (a := x)
  rw [lookup.refcnt]
  split <;> omega

theorem put (lookup : Lookup flags s held (.ok (d, name)) t crossed)
    (crosses : Crossing (s.GoesOn a flags path) path.length crossed)
    (result : Short s → .ok (d, name) = s.target a flags path) :
    Visited flags a path held s (t.addRefcnt d (-1)) (.ok (d, name)) := by
  obtain ⟨-, inv, alive⟩ := dentryPut_linked lookup.holds lookup.inside
  refine ⟨⟨crossed, ⟨inv, lookup.tree.trans .addRefcnt, alive.trans lookup.alive, fun x => ?_, lookup.first⟩,
    crosses⟩, result, lookup.linked⟩
  rw [addRefcnt_node]
  dsimp only
  rw [lookup.refcnt]
  change _ + (if some d = some x then 1 else 0) + _ = _
  by_cases same : x = d
  · rw [if_pos (by rw [same]), if_pos same, add_neg_cancel_right]
  · rw [if_neg (by simpa using Ne.symm same), if_neg same, add_zero, add_zero]

end Lookup

theorem lookupPath_spec (h : Inv held s) (absolute : Absolute path) : Ends (s.lookupPath a path)
    (fun r => ∃ r', Visited 0 a path held s r.2 r' ∧ r.1 = r'.map Prod.fst) (s.Crowded (path.length + 1)) := by
  unfold lookupPath
  apply Ends.bind (lookupPathCommon_spec h absolute)
  rintro _ (⟨lookup, crosses, result⟩ | @⟨d, name, t, crossed, lookup, crosses, result⟩)
  · exact ⟨_, lookup.failed crosses result, rfl⟩
  · dsimp only
    rw [(dentryPut_linked lookup.holds lookup.inside).1]
    exact ⟨_, lookup.put crosses result, rfl⟩

/-! ### Calls that change directories -/

def Vfs.Makes (s : Vfs) (a : Answers) (path : List UInt8) (name : Name) : Prop :=
  a.dentry ≠ none ∧ a.priv = true ∧
    ∃ d t, s.lookupPathCommon a path LAST_MUST_NOT_EXIST = .ok (.ok (d, some name), t)

inductive MkdirEnds (a : Answers) (path : List UInt8) (held : Multiset Nat) (s : Vfs) : Int × Vfs → Prop where
  | failed {err : Int} {t : Vfs} (visited : Visited LAST_MUST_NOT_EXIST a path held s t (.error err)) :
      MkdirEnds a path held s (err, t)
  | refused {d : Nat} {name : Name} {t : Vfs}
      (visited : Visited LAST_MUST_NOT_EXIST a path held s t (.ok (d, name))) (file : (s.node d).kind ≠ .dir) :
      MkdirEnds a path held s (-ENOTDIR, t)
  | full {d : Nat} {name : Name} {t : Vfs}
      (visited : Visited LAST_MUST_NOT_EXIST a path held s t (.ok (d, name)))
      (denied : a.dentry = none ∨ a.priv = false) : MkdirEnds a path held s (-ENOMEM, t)
  | made {d p : Nat} {name : Name} {n : Dentry} {u t : Vfs}
      (visited : Visited LAST_MUST_NOT_EXIST a path held s u (.ok (d, name))) (dir : (s.node d).kind = .dir)
      (makes : s.Makes a path name) (granted : a.dentry = some p) (priv : a.priv = true)
      (copied : strcpyName name .dir = .ok n) (made : Made u t d p n) : MkdirEnds a path held s (0, t)

theorem Fresh.congr (fresh : Fresh a s) (live : t.live = s.live) (opened : t.opened = s.opened) : Fresh a t := by
  constructor
  · rw [live]
    exact fresh.dentry
  · rw [opened]
    exact fresh.file

theorem vfsMkdir_spec (h : Inv held s) (absolute : Absolute path) (fresh : Fresh a s) :
    Ends (s.vfsMkdir a path) (MkdirEnds a path held s) (s.Exceeds (path.length + 1) (s.Makes a path)) := by
  unfold vfsMkdir
  apply Ends.bind ((lookupPathCommon_spec h absolute).returned.mono (fun _ both => both) fun _ => Or.inl)
  rintro _ ⟨⟨lookup, crosses, result⟩ | @⟨d, name, t, crossed, lookup, crosses, result⟩, eq⟩
  · exact .failed (lookup.failed crosses result)
  have visited := lookup.put crosses result
  have result := (dentryPut_linked lookup.holds lookup.inside).1
  have live := lookup.live
  have kind := lookup.tree.kind d
  dsimp only
  unfold vfsDmkdir
  rw [if_neg (lookup.plain d name rfl), if_neg (not_not.mpr live)]
  by_cases dir : (t.node d).kind = .dir
  swap
  · rw [if_pos dir]
    change Ends (t.dentryPut d >>= _) _ _
    rw [result]
    exact .refused visited (kind ▸ dir)
  rw [if_neg (not_not.mpr dir)]
  have fresh' := fresh.congr lookup.tree.live lookup.tree.opened
  refine Ends.bind ((makeNode_spec live fresh').mono (fun _ ends => ends) ?_) ?_
  · rintro stop ⟨granted, priv, long⟩
    exact Or.inr ⟨name, ⟨granted, priv, d, t, eq⟩, long⟩
  rintro _ (denied | @⟨p, n, v, granted, priv, copied, made⟩)
  · dsimp only
    rw [result]
    exact .full visited denied
  · dsimp only
    have more := lookup.shared
    have more' : 2 ≤ (v.node d).refcnt := by
      rw [made.old (made.ne_new live)]
      exact more
    rw [dentryPut_shared (made.live ▸ Finset.mem_insert_of_mem live) (by omega)]
    have makes : s.Makes a path name := ⟨granted ▸ Option.some_ne_none p, priv, d, t, eq⟩
    exact .made visited (kind ▸ dir) makes granted priv copied (made.addRefcnt live)

inductive RmdirEnds (a : Answers) (path : List UInt8) (held : Multiset Nat) (s : Vfs) : Int × Vfs → Prop where
  | failed {err : Int} {t : Vfs} (visited : Visited LAST_MUST_BE_DIR a path held s t (.error err)) :
      RmdirEnds a path held s (err, t)
  | refused {d : Nat} {name : Name} {t : Vfs}
      (visited : Visited LAST_MUST_BE_DIR a path held s t (.ok (d, name))) (file : (s.node d).kind ≠ .dir) :
      RmdirEnds a path held s (-ENOTDIR, t)
  | nonempty {d : Nat} {name : Name} {t : Vfs}
      (visited : Visited LAST_MUST_BE_DIR a path held s t (.ok (d, name))) (dir : (s.node d).kind = .dir)
      (nonempty : (s.node d).children ≠ []) : RmdirEnds a path held s (-ENOTEMPTY, t)
  | removed {d : Nat} {name : Name} {u t : Vfs}
      (visited : Visited LAST_MUST_BE_DIR a path held s u (.ok (d, name))) (dir : (s.node d).kind = .dir)
      (empty : (s.node d).children = []) (link : d ∈ s.links) (put : Put (u.listDel d) t) (inv : Inv held t) :
      RmdirEnds a path held s (0, t)

/-- The two `dentry_put`s after a `list_del`. -/
theorem put_twice (inv : Inv (d ::ₘ d ::ₘ held) s) : s.dentryPut d = .ok (s.addRefcnt d (-1)) ∧
    Ends ((s.addRefcnt d (-1)).dentryPut d) (fun t => Put (s.addRefcnt d (-1)) t ∧ Inv held t) fun _ => False := by
  have alive := inv.held_alive
  have counted := inv.counted d alive
  rw [refs_cons, refs_cons, Multiset.count_cons_self, Multiset.count_cons_self] at counted
  have first := dentryPut_shared (mem_alive.mp alive).1 (show (s.node d).refcnt ≠ 1 by omega)
  exact ⟨first, dentryPut_spec ((dentryPut_spec inv).of_ok first).2⟩

theorem vfsRmdir_spec (h : Inv held s) (absolute : Absolute path) :
    Ends (s.vfsRmdir a path) (RmdirEnds a path held s) (s.Crowded (path.length + 1)) := by
  unfold vfsRmdir
  apply Ends.bind (lookupPathCommon_spec h absolute)
  rintro _ (⟨lookup, crosses, result⟩ | @⟨d, name, t, crossed, lookup, crosses, result⟩)
  · exact .failed (lookup.failed crosses result)
  have visited := lookup.put crosses result
  have result := (dentryPut_linked lookup.holds lookup.inside).1
  have kind := lookup.tree.kind d
  have children := lookup.tree.children d
  dsimp only
  unfold vfsDrmdir
  rw [if_neg (not_not.mpr lookup.live)]
  by_cases dir : (t.node d).kind = .dir
  swap
  · rw [if_pos dir]
    change Ends (t.dentryPut d >>= _) _ _
    rw [result]
    exact .refused visited (kind ▸ dir)
  obtain ⟨link, parent⟩ : d ∈ s.links ∧ (t.node d).parent ≠ 0 :=
    (lookup.parent d name rfl).resolve_left fun flag => flag (by decide)
  rw [if_neg (not_not.mpr dir), if_neg parent]
  unfold ramfsRmdir
  rw [if_neg (not_not.mpr lookup.live)]
  by_cases empty : (t.node d).children = []
  swap
  · rw [if_pos empty]
    change Ends (t.dentryPut d >>= _) _ _
    rw [result]
    exact .nonempty visited (kind ▸ dir) (children ▸ empty)
  rw [if_neg (not_not.mpr empty)]
  have inv := lookup.holds.listDel (lookup.sameLinks.links ▸ link) empty
  obtain ⟨first, second⟩ := put_twice inv
  rw [first]
  change Ends (((t.listDel d).addRefcnt d (-1)).dentryPut d >>= _) _ _
  refine Ends.bind (second.mono (fun _ both => both) fun _ never => never.elim) ?_
  rintro t' ⟨put, inv'⟩
  rw [listDel_addRefcnt] at put
  exact .removed visited (kind ▸ dir) (children ▸ empty) link put inv'

inductive GetdentsEnds (a : Answers) (path : List UInt8) (size : Nat) (start : Int) (held : Multiset Nat)
    (s : Vfs) : (Int × List Entry) × Vfs → Prop where
  | failed {err : Int} {t : Vfs} (visited : Visited LAST_MUST_BE_DIR a path held s t (.error err)) :
      GetdentsEnds a path size start held s ((err, []), t)
  | listed {d : Nat} {name : Name} {t : Vfs} {ret : Int × List Entry}
      (visited : Visited LAST_MUST_BE_DIR a path held s t (.ok (d, name)))
      (listed : Short s → s.ramfsGetdents d size start = .ok ret) : GetdentsEnds a path size start held s (ret, t)

theorem fillDents_returns (cs : List Nat) (live : ∀ c ∈ cs, c ∈ s.live) : ∀ size start done,
    ∃ ret, s.fillDents cs size start done = .ok ret := by
  induction cs with
  | nil => exact fun _ _ _ => ⟨_, rfl⟩
  | cons c cs ih =>
    intro size start done
    have rest := ih fun c member => live c (List.mem_cons_of_mem _ member)
    rw [fillDents, if_neg (not_not.mpr (live c List.mem_cons_self))]
    split
    · exact rest _ _ _
    · dsimp only
      split
      · exact ⟨_, rfl⟩
      · exact rest _ _ _

theorem SameTree.fillDents (same : SameTree s t) (short : Short s) (cs : List Nat) : ∀ size start done,
    t.fillDents cs size start done = s.fillDents cs size start done := by
  induction cs with
  | nil => exact fun _ _ _ => rfl
  | cons c cs ih =>
    intro size start done
    rw [Vfs.fillDents, Vfs.fillDents]
    simp only [ih, same.live, (same.short short).string, short.string, same.name, same.kind, same.data]

theorem vfsGetdents_spec {size : Nat} {start : Int} (h : Inv held s) (absolute : Absolute path) :
    Ends (s.vfsGetdents a path size start) (GetdentsEnds a path size start held s)
      (s.Crowded (path.length + 1)) := by
  unfold vfsGetdents
  apply Ends.bind (lookupPathCommon_spec h absolute)
  rintro _ (⟨lookup, crosses, result⟩ | @⟨d, name, t, crossed, lookup, crosses, result⟩)
  · exact .failed (lookup.failed crosses result)
  have visited := lookup.put crosses result
  have inv := lookup.holds
  have returns : ∃ ret, t.ramfsGetdents d size start = .ok ret := by
    unfold ramfsGetdents
    rw [if_neg (not_not.mpr lookup.live)]
    split
    · exact ⟨_, rfl⟩
    · exact fillDents_returns _ (fun c child => (mem_alive.mp (inv.child_alive inv.held_alive child)).1) _ _ _
  obtain ⟨ret, listed⟩ := returns
  dsimp only
  rw [listed]
  change Ends (t.dentryPut d >>= _) _ _
  rw [(dentryPut_linked inv lookup.inside).1]
  refine .listed visited fun short => ?_
  rw [← listed]
  unfold ramfsGetdents
  rw [lookup.tree.fillDents short, lookup.tree.live, lookup.tree.kind, lookup.tree.children]

inductive UnlinkEnds (a : Answers) (path : List UInt8) (held : Multiset Nat) (s : Vfs) : Int × Vfs → Prop where
  | failed {err : Int} {t : Vfs} (visited : Visited LAST_NO_SLASHES a path held s t (.error err)) :
      UnlinkEnds a path held s (err, t)
  | refused {d : Nat} {name : Name} {t : Vfs}
      (visited : Visited LAST_NO_SLASHES a path held s t (.ok (d, name))) (dir : (s.node d).kind = .dir) :
      UnlinkEnds a path held s (-EISDIR, t)
  | removed {d : Nat} {name : Name} {u t : Vfs}
      (visited : Visited LAST_NO_SLASHES a path held s u (.ok (d, name))) (file : (s.node d).kind ≠ .dir)
      (link : d ∈ s.links) (put : Put ((u.listDel d).freeData d) t) (inv : Inv held t) :
      UnlinkEnds a path held s (0, t)

theorem Inv.childless (h : Inv held s) (live : d ∈ s.live) (file : (s.node d).kind ≠ .dir) :
    (s.node d).children = [] := by
  by_contra nonempty
  exact file (h.dirs d live nonempty)

theorem vfsUnlink_spec (h : Inv held s) (absolute : Absolute path) :
    Ends (s.vfsUnlink a path) (UnlinkEnds a path held s) (s.Crowded (path.length + 1)) := by
  unfold vfsUnlink
  apply Ends.bind (lookupPathCommon_spec h absolute)
  rintro _ (⟨lookup, crosses, result⟩ | @⟨d, name, t, crossed, lookup, crosses, result⟩)
  · exact .failed (lookup.failed crosses result)
  have visited := lookup.put crosses result
  have result := (dentryPut_linked lookup.holds lookup.inside).1
  have kind := lookup.tree.kind d
  dsimp only
  unfold vfsDunlink
  rw [if_neg (not_not.mpr lookup.live)]
  by_cases dir : (t.node d).kind = .dir
  · rw [if_pos dir]
    change Ends (t.dentryPut d >>= _) _ _
    rw [result]
    exact .refused visited (kind ▸ dir)
  obtain ⟨link, -⟩ : d ∈ s.links ∧ (t.node d).parent ≠ 0 :=
    (lookup.parent d name rfl).resolve_left fun flag => flag (by decide)
  rw [if_neg dir]
  unfold ramfsUnlink
  rw [if_neg (not_not.mpr lookup.live)]
  have empty := lookup.holds.childless lookup.live dir
  have inv := (lookup.holds.listDel (lookup.sameLinks.links ▸ link) empty).freeData (d := d)
  obtain ⟨first, second⟩ := put_twice inv
  rw [first]
  change Ends ((((t.listDel d).freeData d).addRefcnt d (-1)).dentryPut d >>= _) _ _
  refine Ends.bind (second.mono (fun _ both => both) fun _ never => never.elim) ?_
  rintro t' ⟨put, inv'⟩
  rw [freeData_addRefcnt, listDel_addRefcnt] at put
  exact .removed visited (kind ▸ dir) link put inv'

end Landaux
