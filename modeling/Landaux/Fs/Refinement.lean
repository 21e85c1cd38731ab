import Landaux.Fs.Namespace

/-!
# The calls refine a tree of names

As long as memory lasts, every call returns what it returns on the tree, and leaves the tree that it leaves
there.
-/

namespace Landaux
open Lib Vfs

variable {s t u v : Vfs} {d c p q x : Nat} {name : Name} {dir : List Name} {n : Dentry} {path : List UInt8} {a : Answers}
  {flags : BitVec 8} {openFlags : BitVec 32} {r : Except Int (Nat × Name)}

/-- An absolute path with components that fit `name` in a dentry. -/
structure Addressed (path : List UInt8) : Prop where
  head : path.head? = some slash
  component : components path ≠ []
  short : ∀ name ∈ components path, name.length < 256

/-- Such a path that does not end in a slash. -/
structure Ordinary (path : List UInt8) : Prop extends Addressed path where
  plain : ¬ Trailing path

structure Generous (a : Answers) : Prop where
  name : ∀ i, a.name i = true
  dentry : a.dentry ≠ none
  priv : a.priv = true
  file : a.file ≠ none

/-- The directory that a path is in, and its last component. -/
def dirname (path : List UInt8) : List Name := (components path).dropLast

def basename (path : List UInt8) : Name := (components path).getLastD []

namespace Addressed

theorem split (ordinary : Addressed path) : components path = dirname path ++ [basename path] := by
  unfold dirname basename
  rw [List.getLastD_eq_getLast?, List.getLast?_eq_getLast_of_ne_nil ordinary.component]
  exact (List.dropLast_append_getLast ordinary.component).symm

theorem absolute (ordinary : Addressed path) : Absolute path :=
  absolute_of_components ordinary.head ordinary.component

theorem fits (ordinary : Addressed path) : (basename path).length < 256 :=
  ordinary.short _ (by rw [ordinary.split]; simp)

end Addressed

/-! ### What a lookup and the tree say -/

theorem SameTree.live_subset (same : SameTree s t) : t.live ⊆ s.live := same.live.subset

namespace Visited

theorem named (visited : Visited flags a path 0 s t r) (h : Named s) : Named t :=
  h.of_names visited.tree.names (visited.settled h.settled) visited.tree.live_subset

theorem sameTree (visited : Visited flags a path 0 s t r) (h : Named s) : t.tree = s.tree :=
  visited.tree.names.tree h.short

end Visited

/-- The directory at `dir`, as the tree has it, and what is in it at `name`. -/
structure There (s : Vfs) (dir : List Name) (name : Name) (d : Nat) : Prop where
  reached : follow s.child s.root dir = some d
  kind : (s.node d).kind = .dir
  names : s.tree.names dir = .ok ((s.node d).children.map fun c => (s.node c).name)
  entry : s.tree (dir ++ [name]) = (s.child d name).map s.item

/-- How a lookup ends, in terms of the tree. -/
inductive Arrives (s : Vfs) (flags : BitVec 8) (dir : List Name) (name : Name) : Except Int (Nat × Name) → Prop where
  | astray {err : Int} (names : s.tree.names dir = .error err) : Arrives s flags dir name (.error err)
  | there {d : Nat} (there : There s dir name d) : Arrives s flags dir name (s.lastStep flags d name)

namespace Arrives

variable {err : Int} {given : Name}

theorem error (arrives : Arrives s flags dir name (.error err)) :
    s.tree.names dir = .error err ∨ ∃ d, There s dir name d ∧ s.lastStep flags d name = .error err := by
  generalize failed : (Except.error err : Except Int (Nat × Name)) = r at arrives
  cases arrives with
  | astray names =>
    cases failed
    exact Or.inl names
  | there there => exact Or.inr ⟨_, there, rfl⟩

theorem ok (arrives : Arrives s flags dir name (.ok (c, given))) :
    ∃ d, There s dir name d ∧ s.lastStep flags d name = .ok (c, given) := by
  generalize found : (Except.ok (c, given) : Except Int (Nat × Name)) = r at arrives
  cases arrives with
  | astray => cases found
  | there there => exact ⟨_, there, rfl⟩

end Arrives

theorem target_arrives (h : Named s) (granted : ∀ i, a.name i = true) (ordinary : Addressed path)
    (plain : ¬ Trailing path ∨ flags &&& LAST_MUST_NOT_EXIST ≠ 0) :
    Arrives s flags (dirname path) (basename path) (s.target a flags path) := by
  rw [target_way granted ordinary.absolute ordinary.split plain h.settled.inv.top]
  cases found : s.way s.root (dirname path) with
  | error err => exact .astray (by rw [tree_names, found]; rfl)
  | ok d =>
    obtain ⟨reached, kind⟩ := way_ok found
    exact .there ⟨reached, kind, by rw [tree_names, found]; rfl, tree_snoc reached⟩

theorem Visited.arrives (visited : Visited flags a path 0 s t r) (h : Named s) (granted : ∀ i, a.name i = true)
    (ordinary : Addressed path) (plain : ¬ Trailing path ∨ flags &&& LAST_MUST_NOT_EXIST ≠ 0) :
    Arrives s flags (dirname path) (basename path) r := by
  rw [visited.result h.short]
  exact target_arrives h granted ordinary plain

theorem Visited.comes (visited : Visited flags a path 0 s t r) (h : Named s) (granted : ∀ i, a.name i = true)
    (ordinary : Ordinary path) : Arrives s flags (dirname path) (basename path) r :=
  visited.arrives h granted ordinary.toAddressed (Or.inl ordinary.plain)

theorem lastStep_name {given : Name} (found : s.lastStep flags d name = .ok (c, given)) : given = name := by
  unfold lastStep at found
  split at found
  · exact (Prod.ext_iff.mp (Except.ok.inj found)).2.symm
  · split at found
    · split at found
      · exact (Prod.ext_iff.mp (Except.ok.inj found)).2.symm
      · cases found
    · split at found
      · cases found
      · split at found
        · cases found
        · exact (Prod.ext_iff.mp (Except.ok.inj found)).2.symm

/-! ### The last step of each call -/

theorem lastStep_exists (returns : flags &&& LAST_RETURN = 0) (exists' : flags &&& LAST_MUST_NOT_EXIST = 0)
    (dir : flags &&& LAST_MUST_BE_DIR = 0) :
    s.lastStep flags d name = match s.child d name with
      | none => .error (-ENOENT)
      | some c => .ok (c, name) := by
  unfold lastStep
  cases s.child d name <;> simp [returns, exists', dir]

theorem lastStep_dir : s.lastStep LAST_MUST_BE_DIR d name = match s.child d name with
    | none => .error (-ENOENT)
    | some c => if (s.node c).kind = .dir then .ok (c, name) else .error (-ENOTDIR) := by
  unfold lastStep
  rw [if_neg (by decide)]
  cases s.child d name with
  | none => rfl
  | some c =>
    dsimp only
    rw [if_neg (by decide)]
    cases (s.node c).kind <;> rfl

theorem lastStep_free : s.lastStep LAST_MUST_NOT_EXIST d name =
    if (s.child d name).isSome then .error (-EEXIST) else .ok (d, name) := by
  unfold lastStep
  rw [if_neg (by decide)]
  cases s.child d name with
  | none => rfl
  | some c => rfl

theorem lastStep_return : s.lastStep (LAST_RETURN ||| LAST_NO_SLASHES) d name = .ok (d, name) := if_pos (by decide)

/-- An error of a lookup of a directory. -/
theorem Arrives.notDir {err : Int} (arrives : Arrives s LAST_MUST_BE_DIR dir name (.error err)) :
    s.tree.names dir = .error err ∨ (∃ names, s.tree.names dir = .ok names) ∧
      (s.tree (dir ++ [name]) = none ∧ err = -ENOENT ∨ s.tree (dir ++ [name]) = some .file ∧ err = -ENOTDIR) := by
  refine arrives.error.imp_right ?_
  rintro ⟨d, there, failed⟩
  refine ⟨⟨_, there.names⟩, ?_⟩
  rw [there.entry]
  rw [lastStep_dir] at failed
  cases found : s.child d name with
  | none =>
    rw [found] at failed
    cases failed
    exact Or.inl ⟨rfl, rfl⟩
  | some c =>
    rw [found] at failed
    dsimp only at failed
    split at failed
    · cases failed
    · rename_i notDir
      cases failed
      refine Or.inr ⟨congrArg some (item_file.mpr ?_), rfl⟩
      cases kind : (s.node c).kind with
      | file => rfl
      | dir => exact absurd kind notDir

/-- A lookup of a directory that finds one. -/
theorem Arrives.isDir {given : Name} (arrives : Arrives s LAST_MUST_BE_DIR dir name (.ok (c, given))) :
    given = name ∧ ∃ d, There s dir name d ∧ s.child d name = some c ∧ (s.node c).kind = .dir := by
  obtain ⟨d, there, found⟩ := arrives.ok
  refine ⟨lastStep_name found, d, there, ?_⟩
  rw [lastStep_dir] at found
  cases hit : s.child d name with
  | none =>
    rw [hit] at found
    cases found
  | some x =>
    rw [hit] at found
    dsimp only at found
    split at found
    · rename_i dir
      cases found
      exact ⟨rfl, dir⟩
    · cases found

/-! ### Calls that read -/

theorem lookupPath_refines (h : Named s) (granted : ∀ i, a.name i = true) (ordinary : Ordinary path) :
    Ends (s.lookupPath a path) (fun r => Named r.2 ∧ r.2.tree = s.tree ∧
      s.tree.lookup (dirname path) (basename path) = r.1.map r.2.item) fun stop => stop = .overflow := by
  refine (lookupPath_spec h.settled.inv ordinary.absolute).mono ?_ fun _ => And.left
  rintro ⟨ret, t⟩ ⟨r, visited, rfl⟩
  refine ⟨visited.named h, visited.sameTree h, ?_⟩
  have arrives := visited.comes h granted ordinary
  have items : t.item = s.item := visited.tree.names.item
  unfold NameTree.lookup
  cases arrives with
  | astray names => rw [names]; rfl
  | @there d there =>
    rw [there.names, lastStep_exists rfl rfl rfl]
    dsimp only
    rw [there.entry, items]
    cases s.child d (basename path) with
    | none => rfl
    | some c => rfl

def Entry.seen (e : Entry) : Name × Nat := (e.name, e.mode)

theorem fillDents_done (size : Nat) (done : List Entry) (cs : List Nat) : ∀ start : Int, start < 0 →
    s.fillDents cs size start done = .ok (done.length, done) := by
  induction cs with
  | nil => exact fun _ _ => rfl
  | cons c cs ih =>
    intro start negative
    rw [fillDents, if_pos (by omega)]
    exact ih (start - 1) (by omega)

/-- After the entry at `start` no other one is found. -/
theorem fillDents_eq (size : Nat) (cs : List Nat) (live : ∀ c ∈ cs, c ∈ s.live) : ∀ start : Int,
    s.fillDents cs size start [] = .ok (match if start < 0 then none else cs[start.toNat]? with
      | none => (0, [])
      | some c =>
        if size < recLen (s.node c).string then (-ENOMEM, [])
        else (1, [⟨recLen (s.node c).string, (s.node c).kind.mode, (s.node c).data.size, (s.node c).string⟩])) := by
  induction cs with
  | nil =>
    intro start
    rw [fillDents, List.getElem?_nil, ite_self]
    rfl
  | cons c cs ih =>
    intro start
    rw [fillDents]
    by_cases here : start = 0
    · subst here
      rw [if_neg (not_not.mpr rfl), if_neg (not_not.mpr (live c List.mem_cons_self))]
      dsimp only
      rw [if_neg (by decide : ¬ (0 : Int) < 0)]
      change _ = Except.ok (if size < recLen (s.node c).string then _ else _)
      split
      · rfl
      · rw [fillDents_done _ _ cs (0 - 1) (by decide)]
        rfl
    · rw [if_pos here, ih (fun x member => live x (List.mem_cons_of_mem _ member))]
      by_cases negative : start < 0
      · rw [if_pos negative, if_pos (by omega)]
      · obtain ⟨k, rfl⟩ : ∃ k : Nat, start = k + 1 := ⟨(start - 1).toNat, by omega⟩
        rw [if_neg (by omega), if_neg negative, show ((k : Int) + 1).toNat = k + 1 from rfl, List.getElem?_cons_succ,
          add_sub_cancel_right, Int.toNat_natCast]

theorem Named.child_mem (h : Named s) (live : d ∈ s.live) (child : c ∈ (s.node d).children) :
    s.child d (s.node c).name = some c := by
  cases found : s.child d (s.node c).name with
  | none => exact absurd (List.mem_map.mpr ⟨c, child, rfl⟩) (h.short.child_none found)
  | some x =>
    obtain ⟨child', string⟩ := Landaux.child_mem found
    rw [h.short.string] at string
    rw [List.inj_on_of_nodup_map (h.distinct d live) child' child string]

theorem There.below (there : There s dir name d) (found : s.child d name = some c) :
    follow s.child s.root (dir ++ [name]) = some c := by
  rw [follow_snoc, there.reached]
  exact found

theorem getdents_refines {size : Nat} {start : Int} (h : Named s) (granted : ∀ i, a.name i = true)
    (ordinary : Ordinary path) :
    Ends (s.vfsGetdents a path size start) (fun r => Named r.2 ∧ r.2.tree = s.tree ∧
      s.tree.getdents (dirname path) (basename path) size start = (r.1.1, r.1.2.map Entry.seen))
      fun stop => stop = .overflow := by
  have inv := h.settled.inv
  refine (vfsGetdents_spec inv ordinary.absolute).mono ?_ fun _ => And.left
  rintro _ (@⟨err, t, visited⟩ | @⟨x, name, t, ret, visited, listed⟩)
  · refine ⟨visited.named h, visited.sameTree h, ?_⟩
    unfold NameTree.getdents NameTree.lookup
    rcases (visited.comes h granted ordinary).notDir with
      names | ⟨⟨names, found⟩, ⟨none, rfl⟩ | ⟨file, rfl⟩⟩
    · rw [names]
      rfl
    · rw [found]
      dsimp only
      rw [none]
      rfl
    · rw [found]
      dsimp only
      rw [file]
      rfl
  · refine ⟨visited.named h, visited.sameTree h, ?_⟩
    obtain ⟨rfl, d, there, found, dir⟩ := (visited.comes h granted ordinary).isDir
    have below := there.below found
    have alive := reached_alive inv below
    have live := (mem_alive.mp alive).1
    have children : ∀ y ∈ (s.node x).children, y ∈ s.live := fun y child =>
      (mem_alive.mp (inv.child_alive alive child)).1
    have listed := listed h.short
    unfold ramfsGetdents at listed
    rw [if_neg (not_not.mpr live), if_neg (not_not.mpr dir), fillDents_eq size _ children] at listed
    obtain rfl := Except.ok.inj listed
    unfold NameTree.getdents NameTree.lookup
    rw [there.names]
    dsimp only
    rw [there.entry, found, Option.map_some, item_dir dir]
    dsimp only
    rw [List.getElem?_map]
    by_cases negative : start < 0
    · rw [if_pos negative, if_pos negative]
      rfl
    rw [if_neg negative, if_neg negative]
    cases at' : (s.node x).children[start.toNat]? with
    | none => rfl
    | some y =>
      have member := List.mem_of_getElem? at'
      rw [Option.map_some]
      dsimp only
      rw [h.short.string]
      split
      · rfl
      · rw [tree_snoc below, h.child_mem live member, Option.map_some, Option.map_some, item_kind]
        rfl

/-! ### Calls that change the tree -/

/-- A lookup returns the last component. -/
theorem lookup_name {given : Name} (h : Named s) (granted : ∀ i, a.name i = true) (ordinary : Addressed path)
    (plain : ¬ Trailing path ∨ flags &&& LAST_MUST_NOT_EXIST ≠ 0)
    (eq : s.lookupPathCommon a path flags = .ok (.ok (d, some given), t)) : given = basename path := by
  have ends : LookupEnds flags a path s 0 _ := (lookupPathCommon_spec h.settled.inv ordinary.absolute).of_ok eq
  cases ends with
  | found lookup crosses result =>
    have arrives : Arrives s flags _ _ _ := target_arrives h granted ordinary plain
    rw [← result h.short] at arrives
    obtain ⟨e, there, found⟩ := arrives.ok
    exact lastStep_name found

/-- A call that makes a dentry adds its name to the tree. -/
theorem Visited.adds {kind : Kind} (visited : Visited flags a path 0 s u (.ok (d, name))) (h : Named s)
    (there : There s dir name d) (miss : s.child d name = none) (fits : name.length < 256)
    (copied : strcpyName name kind = .ok n) (made : Made u t d p n) : Named t ∧
      t.tree = s.tree.add dir name (.new kind) ((s.node d).children.map fun c => (s.node c).name) := by
  have settled := visited.made h.settled there.kind copied fits.le made
  have same := visited.tree.names
  have named := visited.named h
  rw [strcpyName_fits fits.le] at copied
  cases copied
  have miss' : u.child d name = none := (same.child h.short).trans miss
  have reached' : follow u.child u.root dir = some d := by
    rw [same.children_eq h.short, same.root]
    exact there.reached
  refine ⟨made.named named settled miss' rfl fits, ?_⟩
  rw [made.tree visited.inv reached' ((same.kind d).trans there.kind) miss' rfl fits, same.tree h.short, same.children]
  simp only [same.name]

theorem mkdir_refines (h : Named s) (generous : Generous a) (ordinary : Addressed path) (fresh : Fresh a s) :
    Ends (s.vfsMkdir a path) (fun r => Named r.2 ∧
      s.tree.mkdir (dirname path) (basename path) = (r.1, r.2.tree)) (s.Crowded (path.length + 1)) := by
  refine (vfsMkdir_spec h.settled.inv ordinary.absolute fresh).mono ?_ ?_
  swap
  · rintro stop (crowded | ⟨name, ⟨-, -, d, t, eq⟩, long⟩)
    · exact crowded
    · have fits := ordinary.fits
      rw [lookup_name h generous.name ordinary (Or.inr (by decide)) eq] at long
      omega
  -- the name is free when the lookup returns
  have free : ∀ {d name t}, Visited LAST_MUST_NOT_EXIST a path 0 s t (.ok (d, name)) →
      name = basename path ∧ There s (dirname path) name d ∧ s.child d name = none := fun visited => by
    obtain ⟨e, there, found⟩ := (visited.arrives h generous.name ordinary (Or.inr (by decide))).ok
    rw [lastStep_free] at found
    split at found
    · cases found
    · rename_i miss
      cases found
      exact ⟨rfl, there, Option.not_isSome_iff_eq_none.mp miss⟩
  rintro _ (@⟨err, t, visited⟩ | @⟨d, name, t, visited, file⟩ | ⟨-, denied⟩ |
    @⟨d, p, name, n, u, t, visited, dir, makes, granted, priv, copied, made⟩)
  · refine ⟨visited.named h, ?_⟩
    rw [visited.sameTree h]
    unfold NameTree.mkdir
    rcases (visited.arrives h generous.name ordinary (Or.inr (by decide))).error with names | ⟨d, there, failed⟩
    · rw [names]
    · rw [there.names]
      dsimp only
      rw [there.entry, Option.isSome_map]
      rw [lastStep_free] at failed
      split at failed
      · rename_i found
        cases failed
        rw [if_pos found]
      · cases failed
  · obtain ⟨rfl, there, -⟩ := free visited
    exact absurd there.kind file
  · rcases denied with none | none
    · exact absurd none generous.dentry
    · rw [generous.priv] at none
      cases none
  · obtain ⟨rfl, there, miss⟩ := free visited
    obtain ⟨named, tree⟩ := visited.adds h there miss ordinary.fits copied made
    refine ⟨named, ?_⟩
    unfold NameTree.mkdir
    rw [there.names]
    dsimp only
    rw [there.entry, miss, tree]
    rfl

/-- A call that takes a leaf out of its directory takes its name out of the tree. -/
theorem Visited.removes (visited : Visited flags a path 0 s u (.ok (c, name))) (h : Named s)
    (there : There s dir name d) (found : s.child d name = some c) (empty : (s.node c).children = [])
    (same : SameNames (u.listDel c) v) (live : v.live ⊆ u.live) (settled : Settled v) : Named v ∧
      v.tree = s.tree.remove dir name ((s.node d).children.map fun c => (s.node c).name) := by
  have names := visited.tree.names
  have named := visited.named h
  have found' : u.child d name = some c := (names.child h.short).trans found
  have reached' : follow u.child u.root dir = some d := by
    rw [names.children_eq h.short, names.root]
    exact there.reached
  refine ⟨named.listDel same settled live, ?_⟩
  rw [same.tree named.short, named.listDel_tree reached' ((names.kind d).trans there.kind) found'
    ((names.children c).trans empty), names.tree h.short, names.children]
  simp only [names.name]

theorem rmdir_refines (h : Named s) (generous : Generous a) (ordinary : Ordinary path) :
    Ends (s.vfsRmdir a path) (fun r => Named r.2 ∧
      s.tree.rmdir (dirname path) (basename path) = (r.1, r.2.tree)) fun stop => stop = .overflow := by
  refine (vfsRmdir_spec h.settled.inv ordinary.absolute).mono ?_ fun _ => And.left
  rintro _ (@⟨err, t, visited⟩ | @⟨c, name, t, visited, file⟩ | @⟨c, name, t, visited, dir, nonempty⟩ |
    @⟨c, name, u, t, visited, dir, empty, link, put, inv⟩)
  · refine ⟨visited.named h, ?_⟩
    rw [visited.sameTree h]
    unfold NameTree.rmdir
    rcases (visited.comes h generous.name ordinary).notDir with
      names | ⟨⟨names, found⟩, ⟨none, rfl⟩ | ⟨file, rfl⟩⟩
    · rw [names]
    · rw [found]
      dsimp only
      rw [none]
    · rw [found]
      dsimp only
      rw [file]
  · obtain ⟨-, d, -, -, dir⟩ := (visited.comes h generous.name ordinary).isDir
    exact absurd dir file
  · obtain ⟨rfl, d, there, found, -⟩ := (visited.comes h generous.name ordinary).isDir
    refine ⟨visited.named h, ?_⟩
    rw [visited.sameTree h]
    unfold NameTree.rmdir
    rw [there.names]
    dsimp only
    rw [there.entry, found, Option.map_some, item_dir dir]
    exact if_pos (by simpa using nonempty)
  · obtain ⟨rfl, d, there, found, -⟩ := (visited.comes h generous.name ordinary).isDir
    have settled := (visited.settled h.settled).of_put put inv rfl fun x => by rw [listDel_node]
    obtain ⟨named, tree⟩ := visited.removes h there found empty put.names put.live settled
    refine ⟨named, ?_⟩
    unfold NameTree.rmdir
    rw [there.names]
    dsimp only
    rw [there.entry, found, Option.map_some, item_dir dir, tree, empty]
    rfl

theorem unlink_refines (h : Named s) (generous : Generous a) (ordinary : Ordinary path) :
    Ends (s.vfsUnlink a path) (fun r => Named r.2 ∧
      s.tree.unlink (dirname path) (basename path) = (r.1, r.2.tree)) fun stop => stop = .overflow := by
  have inv := h.settled.inv
  refine (vfsUnlink_spec inv ordinary.absolute).mono ?_ fun _ => And.left
  -- what the lookup has returned is at the path
  have hit : ∀ {c name t}, Visited LAST_NO_SLASHES a path 0 s t (.ok (c, name)) →
      name = basename path ∧ ∃ d, There s (dirname path) name d ∧ s.child d name = some c := fun visited => by
    obtain ⟨d, there, found⟩ := (visited.comes h generous.name ordinary).ok
    rw [lastStep_exists rfl rfl rfl] at found
    split at found
    · cases found
    · rename_i hit
      cases found
      exact ⟨rfl, d, there, hit⟩
  rintro _ (@⟨err, t, visited⟩ | @⟨c, name, t, visited, dir⟩ | @⟨c, name, u, t, visited, file, link, put, inv'⟩)
  · refine ⟨visited.named h, ?_⟩
    rw [visited.sameTree h]
    unfold NameTree.unlink
    rcases (visited.comes h generous.name ordinary).error with names | ⟨d, there, failed⟩
    · rw [names]
    · rw [there.names]
      dsimp only
      rw [there.entry]
      rw [lastStep_exists rfl rfl rfl] at failed
      split at failed
      · rename_i miss
        cases failed
        rw [miss]
        rfl
      · cases failed
  · obtain ⟨rfl, d, there, found⟩ := hit visited
    refine ⟨visited.named h, ?_⟩
    rw [visited.sameTree h]
    unfold NameTree.unlink
    rw [there.names]
    dsimp only
    rw [there.entry, found, Option.map_some, item_dir dir]
  · obtain ⟨rfl, d, there, found⟩ := hit visited
    have live := (mem_alive.mp (reached_alive inv (there.below found))).1
    have empty := inv.childless live file
    have settled := (visited.settled h.settled).of_put put inv' rfl fun x => by rw [freeData_node, listDel_node]
    obtain ⟨named, tree⟩ := visited.removes h there found empty (SameNames.freeData.trans put.names) put.live settled
    refine ⟨named, ?_⟩
    unfold NameTree.unlink
    rw [there.names]
    dsimp only
    have kind : (s.node c).kind = .file := by
      cases kind : (s.node c).kind with
      | file => rfl
      | dir => exact absurd kind file
    rw [there.entry, found, Option.map_some, item_file.mpr kind, tree]

/-- When memory lasts, the tree says why a file is not opened. -/
theorem There.opens (there : There s dir name d) (generous : Generous a) :
    s.tree.opens dir name openFlags = match s.refusal a d name openFlags with
      | some err => (.error err, s.tree)
      | none => (.ok (), match s.child d name with
        | none => s.tree.add dir name .file ((s.node d).children.map fun c => (s.node c).name)
        | some _ => s.tree) := by
  have memory : ¬ (a.dentry = none ∨ a.priv = false) := by simp [generous.dentry, generous.priv]
  unfold NameTree.opens refusal
  rw [there.names]
  dsimp only
  rw [there.entry]
  cases s.child d name with
  | none =>
    dsimp only [Option.map_none]
    by_cases plain : openFlags &&& O_CREAT = 0
    · rw [if_pos plain, if_pos plain]
    · rw [if_neg plain, if_neg plain, if_neg memory]
  | some c =>
    rw [Option.map_some]
    cases kind : (s.node c).kind with
    | dir =>
      rw [item_dir kind]
      dsimp only
      rw [if_pos kind]
    | file =>
      have plain : ¬ (s.node c).kind = .dir := by
        rw [kind]
        nofun
      rw [item_file.mpr kind]
      dsimp only
      rw [if_neg plain, if_neg generous.file]
      by_cases exists' : openFlags &&& O_CREAT ≠ 0 ∧ openFlags &&& O_EXCL ≠ 0
      · rw [if_pos exists', if_pos exists']
      · rw [if_neg exists', if_neg exists']

theorem open_fits (h : Named s) (generous : Generous a) (ordinary : Ordinary path) :
    (FsCall.opens path openFlags).Fits s a := by
  rintro name ⟨d, t, eq, -⟩
  rw [lookup_name h generous.name ordinary.toAddressed (Or.inl ordinary.plain) eq]
  exact ordinary.fits.le

theorem open_refines (h : Named s) (generous : Generous a) (ordinary : Ordinary path) (fresh : Fresh a s) :
    Ends (s.vfsOpen a path openFlags) (fun r => Named r.2 ∧
      s.tree.opens (dirname path) (basename path) openFlags = (r.1.map fun _ => (), r.2.tree))
      (s.Crowded (path.length + 2)) := by
  have inv := h.settled.inv
  have fits : (FsCall.opens path openFlags).Fits s a := open_fits h generous ordinary
  have proper : (FsCall.opens path openFlags).Proper s a := by
    refine ⟨fresh, ?_, nofun⟩
    rintro _ ⟨⟩
    exact ordinary.absolute
  have settled : ∀ {r t}, s.vfsOpen a path openFlags = .ok (r, t) → Settled t := fun eq =>
    (FsCall.act_settled h.settled proper fits).of_ok (a := (.pointer _, _)) (by rw [FsCall.act, eq]; rfl)
  -- a lookup for `vfs_open` returns the directory
  have arrives : ∀ {e name t}, Visited (LAST_RETURN ||| LAST_NO_SLASHES) a path 0 s t (.ok (e, name)) →
      name = basename path ∧ There s (dirname path) name e := fun visited => by
    obtain ⟨d, there, found⟩ := (visited.comes h generous.name ordinary).ok
    rw [lastStep_return] at found
    cases found
    exact ⟨rfl, there⟩
  refine ((vfsOpen_spec inv ordinary.absolute fresh).returned).mono ?_ ?_
  swap
  · rintro stop (crowded | ⟨name, creates, long⟩)
    · exact crowded
    · have := fits name creates
      omega
  rintro ⟨ret, t⟩ ⟨ends, eq⟩
  cases ends with
  | failed visited =>
    refine ⟨visited.named h, ?_⟩
    rw [visited.sameTree h]
    unfold NameTree.opens
    rcases (visited.comes h generous.name ordinary).error with names | ⟨d, -, failed⟩
    · rw [names]
      rfl
    · rw [lastStep_return] at failed
      cases failed
  | refused visited refused =>
    obtain ⟨rfl, there⟩ := arrives visited
    refine ⟨visited.named h, ?_⟩
    rw [visited.sameTree h, there.opens generous, refused h.short]
    rfl
  | lost visited dir creates accepted none copied made lost =>
    obtain ⟨rfl, there⟩ := arrives visited
    rcases lost with none | long
    · exact absurd none generous.file
    · exact absurd ordinary.fits (not_lt.mpr long)
  | opened visited link accepted found granted opens new =>
    obtain ⟨rfl, there⟩ := arrives visited
    have names := visited.tree.names.trans opens.names
    refine ⟨h.of_names names (settled eq) ((opens.live.subset).trans visited.tree.live_subset), ?_⟩
    rw [names.tree h.short, there.opens generous, accepted h.short]
    dsimp only
    rw [found h.short]
    rfl
  | created visited dir creates accepted none copied made counted granted opens new =>
    obtain ⟨rfl, there⟩ := arrives visited
    obtain ⟨named, tree⟩ := visited.adds h there (none h.short) ordinary.fits copied made
    refine ⟨named.of_names opens.names (settled eq) opens.live.subset, ?_⟩
    rw [opens.names.tree named.short, there.opens generous, accepted h.short]
    dsimp only
    rw [none h.short, tree]
    rfl

theorem close_refines (h : Named s) (opened : q ∈ s.opened) :
    Ends (s.vfsClose q) (fun r => Named r.2 ∧ r.1 = 0 ∧ r.2.tree = s.tree) fun _ => False := by
  refine (vfsClose_spec h.settled.inv opened).mono ?_ fun _ never => never
  rintro _ ⟨zero, ⟨f, put⟩, inv⟩
  have settled := h.settled.of_put put inv rfl fun _ => rfl
  have names : SameNames s _ := ⟨put.names.root, put.names.name, put.names.kind, put.names.children⟩
  exact ⟨h.of_names names settled put.live, zero, names.tree h.short⟩

/-! ### Runs -/

/-- What the caller sees of a call that ends in `t`. -/
def FsCall.seen (t : Vfs) : FsCall → FsRet → Seen
  | _, .int value => .int value
  | .lookup _, .pointer ret => .found (ret.map fun d => (t.node d).kind)
  | _, .pointer ret => .opened (ret.map fun _ => ())
  | _, .dents count entries => .dents count (entries.map Entry.seen)

/-- A call with an ordinary path, while memory lasts. -/
structure FsCall.Ordinary (s : Vfs) (a : Answers) (call : FsCall) : Prop where
  fresh : Fresh a s
  generous : Generous a
  path : ∀ path, call.path = some path → Landaux.Ordinary path
  opened : ∀ q, call = .closes q → q ∈ s.opened

def NameStep (s : Vfs) (e : FsCall × Seen) (t : Vfs) : Prop :=
  ∃ a ret, e.1.Ordinary s a ∧ e.1.act a s = .ok (ret, t) ∧ e.2 = e.1.seen t ret

def TreeStep (t : NameTree) (e : FsCall × Seen) (u : NameTree) : Prop := t.act e.1 = (e.2, u)

theorem FsCall.act_refines {call : FsCall} (h : Named s) (ordinary : call.Ordinary s a) :
    Ends (call.act a s) (fun r => Named r.2 ∧ s.tree.act call = (call.seen r.2 r.1, r.2.tree))
      fun stop => stop = .overflow := by
  obtain ⟨fresh, generous, path', opened⟩ := ordinary
  cases call with
  | lookup path =>
    refine Ends.bind (lookupPath_refines h generous.name (path' path rfl)) ?_
    rintro ⟨ret, t⟩ ⟨named, same, found⟩
    refine ⟨named, ?_⟩
    dsimp only at same found ⊢
    unfold NameTree.act seen
    change (Seen.found ((s.tree.lookup (dirname path) (basename path)).map Item.kind), s.tree) = _
    rw [found, same]
    cases ret with
    | error => rfl
    | ok d => simp [Except.map, item_kind]
  | getdents path size start =>
    refine Ends.bind (getdents_refines h generous.name (path' path rfl)) ?_
    rintro ⟨⟨count, entries⟩, t⟩ ⟨named, same, listed⟩
    refine ⟨named, ?_⟩
    change (Seen.dents (s.tree.getdents (dirname path) (basename path) size start).1
      (s.tree.getdents (dirname path) (basename path) size start).2, s.tree) = _
    rw [listed, ← same]
    rfl
  | mkdir path =>
    refine Ends.bind ((mkdir_refines h generous (path' path rfl).toAddressed fresh).mono (fun _ post => post)
      fun _ => And.left) ?_
    rintro ⟨ret, t⟩ ⟨named, same⟩
    refine ⟨named, ?_⟩
    change (Seen.int (s.tree.mkdir (dirname path) (basename path)).1,
      (s.tree.mkdir (dirname path) (basename path)).2) = _
    rw [same]
    rfl
  | rmdir path =>
    refine Ends.bind (rmdir_refines h generous (path' path rfl)) ?_
    rintro ⟨ret, t⟩ ⟨named, same⟩
    refine ⟨named, ?_⟩
    change (Seen.int (s.tree.rmdir (dirname path) (basename path)).1,
      (s.tree.rmdir (dirname path) (basename path)).2) = _
    rw [same]
    rfl
  | unlink path =>
    refine Ends.bind (unlink_refines h generous (path' path rfl)) ?_
    rintro ⟨ret, t⟩ ⟨named, same⟩
    refine ⟨named, ?_⟩
    change (Seen.int (s.tree.unlink (dirname path) (basename path)).1,
      (s.tree.unlink (dirname path) (basename path)).2) = _
    rw [same]
    rfl
  | opens path flags =>
    refine Ends.bind ((open_refines h generous (path' path rfl) fresh).mono (fun _ post => post) fun _ => And.left) ?_
    rintro ⟨ret, t⟩ ⟨named, same⟩
    refine ⟨named, ?_⟩
    change (Seen.opened (s.tree.opens (dirname path) (basename path) flags).1,
      (s.tree.opens (dirname path) (basename path) flags).2) = _
    rw [same]
    rfl
  | closes q =>
    refine Ends.bind ((close_refines h (opened q rfl)).mono (fun _ post => post) fun _ never => never.elim) ?_
    rintro ⟨ret, t⟩ ⟨named, rfl, same⟩
    refine ⟨named, ?_⟩
    dsimp only at same
    rw [same]
    rfl

theorem Named.mounted {root : Nat} (nonnull : root ≠ 0) : Named (Vfs.mounted root) :=
  ⟨Settled.mounted nonnull, fun _ => (by decide : [slash].length < 256), fun _ _ => List.nodup_nil⟩

theorem tree_mounted {root : Nat} : (Vfs.mounted root).tree = NameTree.empty := by
  funext path
  cases path with
  | nil => rfl
  | cons name path => rfl

theorem NameStep.refines {e : FsCall × Seen} (h : Named s) (step : NameStep s e t) :
    TreeStep s.tree e t.tree ∧ Named t := by
  obtain ⟨a, ret, ordinary, eq, shown⟩ := step
  obtain ⟨named, same⟩ := (FsCall.act_refines h ordinary).of_ok eq
  exact ⟨same.trans (Prod.ext shown.symm rfl), named⟩

theorem run_named {events : List (FsCall × Seen)} (h : Named s) (run : Run NameStep s events t) : Named t :=
  run.invariant (fun _ _ _ named step => (step.refines named).2) h

/-- In every run the calls return what they return on the tree of names, which is finite and has siblings of
different names; a call that fails leaves it alone. -/
theorem namespace_refines {root : Nat} {events : List (FsCall × Seen)} (nonnull : root ≠ 0)
    (run : Run NameStep (Vfs.mounted root) events s) :
    Run TreeStep NameTree.empty events s.tree ∧ s.tree.Valid ∧ ∀ (call : FsCall) (a : Answers), call.Ordinary s a →
      Ends (call.act a s) (fun r => s.tree.act call = (call.seen r.2 r.1, r.2.tree) ∧
        ((call.seen r.2 r.1).Fails → r.2.tree = s.tree)) fun stop => stop = .overflow := by
  have simulates : ∀ s e t (tree : NameTree), (Named s ∧ s.tree = tree) → NameStep s e t →
      ∃ tree', TreeStep tree e tree' ∧ Named t ∧ t.tree = tree' := by
    rintro s e t _ ⟨named, rfl⟩ step
    obtain ⟨same, named'⟩ := step.refines named
    exact ⟨t.tree, same, named', rfl⟩
  obtain ⟨tree, run', named, rfl⟩ := run.simulate simulates ⟨Named.mounted nonnull, tree_mounted⟩
  refine ⟨run', named.valid, fun call a ordinary => ?_⟩
  refine (FsCall.act_refines named ordinary).mono (fun r ends => ⟨ends.2, fun fails => ?_⟩) fun _ stop => stop
  have same := congrArg Prod.fst ends.2
  exact (congrArg Prod.snd ends.2).symm.trans (NameTree.act_fails (same.symm ▸ fails))

/-- The state after a call that returns, where memory is at `p`. -/
def FsCall.after (call : FsCall) (p : Nat) (s : Vfs) : Vfs := (call.act (allGranted p) s).toOption.elim s Prod.snd

theorem after_step {p : Nat} {call : FsCall} {seen : Seen} (ret : FsRet) (fresh : p ∉ s.live ∧ p ≠ 0)
    (unopened : p ∉ s.opened)
    (path : ∀ path, call.path = some path → Ordinary path) (opened : ∀ q, call = .closes q → q ∈ s.opened)
    (returns : call.act (allGranted p) s = .ok (ret, call.after p s)) (shown : seen = call.seen (call.after p s) ret) :
    NameStep s (call, seen) (call.after p s) := by
  refine ⟨allGranted p, ret, ⟨⟨?_, ?_⟩, ?_, path, opened⟩, returns, shown⟩
  · rintro _ ⟨⟩
    exact fresh
  · rintro _ ⟨⟩
    exact unopened
  · exact ⟨fun _ => rfl, Option.some_ne_none p, rfl, Option.some_ne_none p⟩

def dirMade : Vfs := (FsCall.mkdir [slash, 97]).after 2 (.mounted 1)

def fileMade : Vfs := (FsCall.opens [slash, 97, slash, 98] O_CREAT).after 4 dirMade

def fileClosed : Vfs := (FsCall.closes 4).after 5 fileMade

def dirKept : Vfs := (FsCall.rmdir [slash, 97]).after 5 fileClosed

def fileRemoved : Vfs := (FsCall.unlink [slash, 97, slash, 98]).after 5 dirKept

def dirRemoved : Vfs := (FsCall.rmdir [slash, 97]).after 5 fileRemoved

/-- A directory with a file in it is not removed. -/
def namesMade : List (FsCall × Seen) :=
  [(.mkdir [slash, 97], .int 0), (.opens [slash, 97, slash, 98] O_CREAT, .opened (.ok ())), (.closes 4, .int 0),
    (.rmdir [slash, 97], .int (-ENOTEMPTY)), (.unlink [slash, 97, slash, 98], .int 0), (.rmdir [slash, 97], .int 0)]

theorem namesMade_run : Run NameStep (Vfs.mounted 1) namesMade dirRemoved ∧ Named fileClosed := by
  have dir : ∀ path, some [slash, 97] = some path → Ordinary path := by
    rintro _ ⟨⟩
    exact ⟨⟨rfl, by decide, by decide⟩, by decide⟩
  have file : ∀ path, some [slash, 97, slash, 98] = some path → Ordinary path := by
    rintro _ ⟨⟩
    exact ⟨⟨rfl, by decide, by decide⟩, by decide⟩
  have open_file : ∀ q, FsCall.closes 4 = .closes q → q ∈ fileMade.opened := by
    rintro _ ⟨⟩
    decide +kernel
  have first : NameStep (Vfs.mounted 1) (.mkdir [slash, 97], .int 0) dirMade :=
    after_step (.int 0) (by decide) (by decide) dir (by rintro _ ⟨⟩) rfl rfl
  have second : NameStep dirMade (.opens [slash, 97, slash, 98] O_CREAT, .opened (.ok ())) fileMade :=
    after_step (.pointer (.ok 4)) (by decide +kernel) (by decide +kernel) file (by rintro _ ⟨⟩) rfl rfl
  have third : NameStep fileMade (.closes 4, .int 0) fileClosed :=
    after_step (.int 0) (by decide +kernel) (by decide +kernel) (by rintro _ ⟨⟩) open_file rfl rfl
  have fourth : NameStep fileClosed (.rmdir [slash, 97], .int (-ENOTEMPTY)) dirKept :=
    after_step (.int (-ENOTEMPTY)) (by decide +kernel) (by decide +kernel) dir (by rintro _ ⟨⟩) rfl rfl
  have fifth : NameStep dirKept (.unlink [slash, 97, slash, 98], .int 0) fileRemoved :=
    after_step (.int 0) (by decide +kernel) (by decide +kernel) file (by rintro _ ⟨⟩) rfl rfl
  have sixth : NameStep fileRemoved (.rmdir [slash, 97], .int 0) dirRemoved :=
    after_step (.int 0) (by decide +kernel) (by decide +kernel) dir (by rintro _ ⟨⟩) rfl rfl
  have made : Run NameStep (Vfs.mounted 1) (namesMade.take 3) fileClosed := .cons first (.cons second (.single third))
  exact ⟨made.append (.cons fourth (.cons fifth (.single sixth))), run_named (.mounted one_ne_zero) made⟩

theorem namespace_refines_names : Run TreeStep NameTree.empty namesMade dirRemoved.tree ∧ dirRemoved.tree.Valid ∧
    ∀ (call : FsCall) (a : Answers), call.Ordinary dirRemoved a →
      Ends (call.act a dirRemoved) (fun r => dirRemoved.tree.act call = (call.seen r.2 r.1, r.2.tree) ∧
        ((call.seen r.2 r.1).Fails → r.2.tree = dirRemoved.tree)) fun stop => stop = .overflow :=
  namespace_refines (by decide) namesMade_run.1

end Landaux
