import Landaux.Fs.Freed
import Landaux.Fs.Locate

/-!
# The calls change the tree of names

Reference counts and parent pointers leave the tree alone; a new dentry is one name more in its
directory, and `list_del` is one name less.
-/

namespace Landaux
open Lib Vfs

variable {s t u v : Vfs} {held : Multiset Nat} {d c p x y : Nat} {name : Name} {n : Dentry}
  {dir : List Name} {path : List UInt8} {a : Answers} {flags : BitVec 8} {kind : Kind}

/-! ### What the tree depends on -/

structure SameNames (s t : Vfs) : Prop where
  root : t.root = s.root
  name : ∀ x, (t.node x).name = (s.node x).name
  kind : ∀ x, (t.node x).kind = (s.node x).kind
  children : ∀ x, (t.node x).children = (s.node x).children

theorem SameTree.names (same : SameTree s t) : SameNames s t := ⟨same.root, same.name, same.kind, same.children⟩

theorem Put.names (put : Put s t) : SameNames s t :=
  ⟨put.root, fun x => by rw [put.node], fun x => by rw [put.node], fun x => by rw [put.node]⟩

theorem Opened.names {q : Nat} {f : File} {data : FileData} (opens : Opened s t c q f data) : SameNames s t :=
  ⟨opens.root, fun x => by rw [opens.node_eq], fun x => by rw [opens.node_eq], fun x => by rw [opens.node_eq]⟩

namespace SameNames

theorem trans (first : SameNames s t) (second : SameNames t u) : SameNames s u :=
  ⟨second.root.trans first.root, fun x => (second.name x).trans (first.name x),
    fun x => (second.kind x).trans (first.kind x), fun x => (second.children x).trans (first.children x)⟩

theorem freeData : SameNames s (s.freeData d) :=
  ⟨rfl, fun x => by rw [freeData_node], fun x => by rw [freeData_node], fun x => by rw [freeData_node]⟩

theorem short (same : SameNames s t) (short : Short s) : Short t := fun x => by
  rw [same.name]
  exact short x

theorem child (same : SameNames s t) (short : Short s) : t.child d name = s.child d name := by
  unfold Vfs.child
  rw [same.children]
  congr 1
  funext c
  rw [(same.short short).string, short.string, same.name]

theorem item (same : SameNames s t) : t.item = s.item := by
  funext x
  unfold Vfs.item
  simp only [same.kind, same.children, same.name]

theorem children_eq (same : SameNames s t) (short : Short s) : t.child = s.child :=
  funext fun _ => funext fun _ => same.child short

theorem tree (same : SameNames s t) (short : Short s) : t.tree = s.tree := by
  unfold Vfs.tree
  rw [same.children_eq short, same.item, same.root]

end SameNames

/-! ### The dentries make a tree -/

theorem reached_alive (h : Inv held s) (reached : follow s.child s.root dir = some x) : x ∈ s.alive :=
  follow_invariant (P := fun x => x ∈ s.alive) h.root_alive
    (fun _ _ _ alive edge => h.child_alive alive (child_mem edge).1) reached

theorem Inv.one_parent (h : Inv held s) (first : x ∈ s.alive) (second : y ∈ s.alive)
    (child : c ∈ (s.node x).children) (child' : c ∈ (s.node y).children) : x = y := by
  by_contra different
  have nodup : s.links.Nodup := (Multiset.nodup_cons.mp h.tree).2
  unfold Vfs.links at nodup
  rw [← Finset.add_sum_erase _ _ first] at nodup
  refine Multiset.disjoint_left.mp (Multiset.nodup_add.mp nodup).2.2 (Multiset.mem_coe.mpr child) ?_
  exact Multiset.mem_sum.mpr ⟨y, Finset.mem_erase.mpr ⟨Ne.symm different, second⟩, child'⟩

theorem Inv.rooted (h : Inv held s) : Rooted s.child s.root where
  top := fun path x b reached edge => by
    have link := mem_links.mpr ⟨x, reached_alive h reached, (child_mem edge).1⟩
    exact (Multiset.nodup_cons.mp h.tree).1 link
  unique := fun path rest x y b c z first second edge edge' => by
    obtain ⟨child, string⟩ := child_mem edge
    obtain ⟨child', string'⟩ := child_mem edge'
    exact ⟨h.one_parent (reached_alive h first) (reached_alive h second) child child', string.symm.trans string'⟩

/-- No file is on the way to a dentry. -/
theorem way_reached (h : Inv held s) (reached : follow s.child s.root dir = some d) (kind : (s.node d).kind = .dir) :
    s.way s.root dir = .ok d := by
  unfold way
  rw [if_neg, reached]
  intro onWay
  obtain ⟨q, before, file⟩ := List.any_eq_true.mp onWay
  obtain ⟨rest, rfl⟩ := (List.mem_inits _ _).mp before
  cases found : follow s.child s.root q with
  | none =>
    rw [found] at file
    cases file
  | some y =>
    rw [found] at file
    have file : (s.node y).kind = .file := by simpa using file
    rw [follow_append, found] at reached
    cases rest with
    | nil =>
      obtain rfl := Option.some.inj reached
      rw [kind] at file
      cases file
    | cons b rest =>
      have live := (mem_alive.mp (reached_alive h found)).1
      have empty := h.childless live (by rw [file]; nofun)
      have none : s.child y b = none := by
        unfold Vfs.child
        rw [empty]
        rfl
      rw [Option.bind_some, follow, none] at reached
      cases reached

/-- Names fit their dentries, and siblings have different ones. -/
structure Named (s : Vfs) : Prop where
  settled : Settled s
  short : Short s
  distinct : ∀ x ∈ s.live, ((s.node x).children.map fun c => (s.node c).name).Nodup

theorem Short.child_none (short : Short s) (none : s.child d name = none) :
    name ∉ (s.node d).children.map fun c => (s.node c).name := by
  intro member
  obtain ⟨c, child, same⟩ := List.mem_map.mp member
  refine List.find?_eq_none.mp none c child ?_
  rw [short.string]
  simpa using same

theorem Short.child_isSome (short : Short s) :
    (s.child d name).isSome ↔ name ∈ (s.node d).children.map fun c => (s.node c).name := by
  constructor
  · intro found
    obtain ⟨c, found⟩ := Option.isSome_iff_exists.mp found
    obtain ⟨child, string⟩ := child_mem found
    exact List.mem_map.mpr ⟨c, child, short.string.symm.trans string⟩
  · intro member
    by_contra none
    exact short.child_none (Option.not_isSome_iff_eq_none.mp none) member

/-! ### One name more -/

theorem childless (empty : (s.node x).children = []) : s.child x name = none := by
  unfold Vfs.child
  rw [empty]
  rfl

namespace Made

theorem fresh_child (made : Made s t d p n) (h : Inv held s) (alive : x ∈ s.alive) (child : c ∈ (s.node x).children) :
    c ≠ p := made.ne_new (mem_alive.mp (h.child_alive alive child)).1

theorem old_child (made : Made s t d p n) (h : Inv held s) (alive : x ∈ s.alive) (other : ¬ (x = d ∧ n.name = name))
    (fits : n.name.length < 256) : t.child x name = s.child x name := by
  have same : ∀ c ∈ (s.node x).children, (t.node c).string = (s.node c).string := fun c child => by
    rw [made.old (made.fresh_child h alive child)]
    rfl
  unfold Vfs.child
  rw [made.old (made.ne_new (mem_alive.mp alive).1)]
  dsimp only
  split
  · rename_i here
    have miss : (t.node p).string ≠ name := by
      rw [made.new]
      intro hit
      refine other ⟨here, ?_⟩
      unfold Dentry.string at hit
      rw [if_pos fits] at hit
      exact hit
    rw [List.find?_append, List.find?_cons_of_neg (by simpa using miss), List.find?_nil, Option.or_none]
    exact List.find?_congr fun c child => by rw [same c child]
  · exact List.find?_congr fun c child => by rw [same c child]

theorem new_child (made : Made s t d p n) (h : Inv held s) (alive : d ∈ s.alive) (miss : s.child d n.name = none)
    (fits : n.name.length < 256) : t.child d n.name = some p := by
  have same : ∀ c ∈ (s.node d).children, (t.node c).string = (s.node c).string := fun c child => by
    rw [made.old (made.fresh_child h alive child)]
    rfl
  have hit : (t.node p).string = n.name := by
    rw [made.new]
    exact if_pos fits
  have before : ((s.node d).children.find? fun c => decide ((t.node c).string = n.name)) = none := by
    rw [← miss]
    exact List.find?_congr fun c child => by rw [same c child]
  unfold Vfs.child
  rw [made.old (made.ne_new (mem_alive.mp alive).1)]
  dsimp only
  rw [if_pos rfl, List.find?_append, before, Option.none_or, List.find?_cons_of_pos (by simpa using hit)]

theorem item_new (made : Made s t d p n) (empty : n.children = []) :
    t.item p = .new n.kind := by
  unfold item Item.new
  rw [made.new]
  dsimp only
  rw [empty]
  rfl

/-- One path more is there than before. -/
theorem follow_new (made : Made s t d p n) (h : Inv held s) (reached : follow s.child s.root dir = some d)
    (none : s.child d n.name = none) (empty : n.children = []) (fits : n.name.length < 256) (q : List Name) :
    follow t.child t.root q = if q = dir ++ [n.name] then some p else follow s.child s.root q := by
  have alive := reached_alive h reached
  have new := made.new_child h alive none fits
  have leaf : ∀ name, t.child p name = Option.none := fun name => childless (by rw [made.new]; exact empty)
  rw [made.root, ← new]
  refine h.rooted.follow_edge reached (fun rest y b found other => ?_) (fun z b found => ?_) fun z b found => ?_
  · refine made.old_child h (reached_alive h found) (fun both => other ⟨both.1, both.2.symm⟩) fits
  · rw [none] at found
    cases found
  · rw [new] at found
    exact Option.some.inj found ▸ leaf b

theorem tree (made : Made s t d p n) (h : Inv held s) (reached : follow s.child s.root dir = some d)
    (kind : (s.node d).kind = .dir) (none : s.child d n.name = none) (empty : n.children = [])
    (fits : n.name.length < 256) :
    t.tree = s.tree.add dir n.name (.new n.kind) ((s.node d).children.map fun c => (s.node c).name) := by
  have alive := reached_alive h reached
  have rooted := h.rooted
  funext q
  unfold NameTree.add NameTree.update Vfs.tree
  rw [made.follow_new h reached none empty fits]
  by_cases isNew : q = dir ++ [n.name]
  · rw [if_pos isNew, if_pos isNew, Option.map_some, made.item_new empty]
  rw [if_neg isNew, if_neg isNew]
  -- the names of the children of an old dentry are the old ones
  have names : ∀ y ∈ s.alive, (s.node y).children.map (fun c => (t.node c).name) =
      (s.node y).children.map fun c => (s.node c).name := fun y alive =>
    List.map_congr_left fun c child => by rw [made.old (made.fresh_child h alive child)]
  by_cases isDir : q = dir
  · rw [if_pos isDir, isDir, reached, Option.map_some]
    have kind' : (t.node d).kind = .dir := by
      rw [made.old (made.ne_new (mem_alive.mp alive).1)]
      exact kind
    rw [item_dir kind', made.old (made.ne_new (mem_alive.mp alive).1)]
    dsimp only
    rw [if_pos rfl, List.map_append, names d alive, List.map_singleton, made.new]
  · rw [if_neg isDir]
    cases found : follow s.child s.root q with
    | none => rfl
    | some y =>
      have other : y ≠ d := by
        rintro rfl
        exact isDir (rooted.injective found reached)
      have alive' := reached_alive h found
      have old := made.old (made.ne_new (mem_alive.mp alive').1)
      rw [if_neg other] at old
      have same : t.item y = s.item y := by
        unfold item
        rw [old]
        dsimp only
        rw [names y alive']
      rw [Option.map_some, Option.map_some, same]

theorem named (made : Made s t d p n) (h : Named s) (settled : Settled t)
    (none : s.child d n.name = none) (empty : n.children = []) (fits : n.name.length < 256) : Named t := by
  have inv := h.settled.inv
  refine ⟨settled, fun x => ?_, fun x live => ?_⟩
  · rw [made.node]
    split
    · exact fits
    · split
      · exact h.short d
      · exact h.short x
  · rw [made.live, Finset.mem_insert] at live
    by_cases new : x = p
    · rw [new, made.new, empty]
      exact List.nodup_nil
    · have live' := live.resolve_left new
      have alive' : x ∈ s.alive := mem_alive.mpr ⟨live', h.settled.counted x live'⟩
      have names : (s.node x).children.map (fun c => (t.node c).name) =
          (s.node x).children.map fun c => (s.node c).name :=
        List.map_congr_left fun c child => by rw [made.old (made.fresh_child inv alive' child)]
      rw [made.old new]
      dsimp only
      split
      · rename_i here
        rw [List.map_append, names, List.map_singleton, made.new, List.nodup_append]
        refine ⟨h.distinct x live', List.nodup_singleton _, ?_⟩
        rintro b member _ last rfl
        rw [List.mem_singleton.mp last, here] at member
        exact h.short.child_none none member
      · rw [names]
        exact h.distinct x live'

end Made

/-! ### One name less -/

theorem map_erase_nodup {α β : Type} [BEq α] [LawfulBEq α] [BEq β] [LawfulBEq β] {f : α → β} {l : List α} {c : α}
    (nodup : (l.map f).Nodup) (member : c ∈ l) : (l.erase c).map f = (l.map f).erase (f c) := by
  induction l with
  | nil => exact absurd member List.not_mem_nil
  | cons b l ih =>
    rw [List.map_cons, List.nodup_cons] at nodup
    by_cases same : b = c
    · rw [same, List.erase_cons_head, List.map_cons, List.erase_cons_head]
    · have inside := (List.mem_cons.mp member).resolve_left (Ne.symm same)
      have different : f b ≠ f c := fun eq => nodup.1 (eq ▸ List.mem_map_of_mem inside)
      rw [List.erase_cons_tail (by simpa using same), List.map_cons, List.map_cons,
        List.erase_cons_tail (by simpa using different), ih nodup.2 inside]

theorem find?_erase_of_neg {α : Type} [DecidableEq α] {q : α → Bool} {l : List α} {c : α} (miss : q c = false) :
    (l.erase c).find? q = l.find? q := by
  induction l with
  | nil => rfl
  | cons b l ih =>
    by_cases same : b = c
    · rw [same, List.erase_cons_head, List.find?_cons_of_neg (by simpa using miss)]
    · rw [List.erase_cons_tail (by simpa using same), List.find?_cons, List.find?_cons, ih]

theorem listDel_string : ((s.listDel c).node x).string = (s.node x).string := rfl

theorem Named.listDel_tree (h : Named s) (reached : follow s.child s.root dir = some d)
    (kind : (s.node d).kind = .dir) (found : s.child d name = some c) (empty : (s.node c).children = []) :
    (s.listDel c).tree = s.tree.remove dir name ((s.node d).children.map fun c => (s.node c).name) := by
  have inv := h.settled.inv
  have alive := reached_alive inv reached
  have rooted := inv.rooted
  obtain ⟨child, string⟩ := child_mem found
  have named : (s.node c).name = name := h.short.string.symm.trans string
  have distinct := h.distinct d (mem_alive.mp alive).1
  have elsewhere : ∀ y ∈ s.alive, y ≠ d → ((s.listDel c).node y).children = (s.node y).children := by
    intro y alive' other
    rw [listDel_node]
    exact List.erase_of_not_mem fun also => other (inv.one_parent alive' alive also child)
  have names : ((s.listDel c).node d).children.map (fun x => (s.node x).name) =
      ((s.node d).children.map fun x => (s.node x).name).erase name := by
    rw [listDel_node, ← named]
    exact map_erase_nodup distinct child
  have gone : (s.listDel c).child d name = none := by
    by_contra some
    obtain ⟨x, found'⟩ := Option.ne_none_iff_exists'.mp some
    obtain ⟨child', string'⟩ := child_mem found'
    rw [listDel_string, h.short.string] at string'
    have member : name ∈ ((s.listDel c).node d).children.map fun x => (s.node x).name :=
      List.mem_map.mpr ⟨x, child', string'⟩
    rw [names] at member
    exact (List.Nodup.mem_erase_iff distinct).mp member |>.1 rfl
  have edge : ∀ q, follow (s.listDel c).child (s.listDel c).root q =
      if q = dir ++ [name] then none else follow s.child s.root q := by
    intro q
    rw [← gone]
    refine rooted.follow_edge reached (fun rest y b found' other => ?_) (fun z b found' => ?_) fun z b found' => ?_
    · unfold Vfs.child
      by_cases here : y = d
      · have different : b ≠ name := fun same => other ⟨here, same⟩
        rw [listDel_node]
        dsimp only
        refine find?_erase_of_neg (decide_eq_false ?_)
        rw [listDel_string, string]
        exact Ne.symm different
      · rw [elsewhere y (reached_alive inv found') here]
        rfl
    · rw [found] at found'
      obtain rfl := Option.some.inj found'
      exact childless empty
    · rw [gone] at found'
      cases found'
  funext q
  unfold NameTree.remove NameTree.update Vfs.tree
  rw [edge]
  by_cases isNew : q = dir ++ [name]
  · rw [if_pos isNew, if_pos isNew, Option.map_none]
  rw [if_neg isNew, if_neg isNew]
  by_cases isDir : q = dir
  · rw [if_pos isDir, isDir, reached, Option.map_some, item_dir (show ((s.listDel c).node d).kind = .dir from kind)]
    exact congrArg (fun l => some (Item.dir l)) names
  · rw [if_neg isDir]
    cases found' : follow s.child s.root q with
    | none => rfl
    | some y =>
      have other : y ≠ d := by
        rintro rfl
        exact isDir (rooted.injective found' reached)
      have same : (s.listDel c).item y = s.item y := by
        unfold item
        rw [elsewhere y (reached_alive inv found') other]
        rfl
      rw [Option.map_some, Option.map_some, same]

theorem Named.of_names (h : Named s) (same : SameNames s t) (settled : Settled t) (live : t.live ⊆ s.live) : Named t := by
  refine ⟨settled, same.short h.short, fun x inside => ?_⟩
  rw [same.children]
  simp only [same.name]
  exact h.distinct x (live inside)

theorem Named.listDel (h : Named s) (names : SameNames (s.listDel c) t) (settled : Settled t)
    (live : t.live ⊆ s.live) : Named t := by
  have short : Short (s.listDel c) := h.short
  refine ⟨settled, names.short short, fun x inside => ?_⟩
  rw [names.children]
  simp only [names.name]
  exact (h.distinct x (live inside)).sublist (List.Sublist.map _ List.erase_sublist)

/-! ### The tree is well formed -/

theorem Named.valid (h : Named s) : s.tree.Valid := by
  have inv := h.settled.inv
  have rooted := inv.rooted
  constructor
  case root =>
    refine ⟨(s.node s.root).children.map fun c => (s.node c).name, ?_⟩
    unfold Vfs.tree follow
    rw [Option.map_some, item_dir inv.top]
  case distinct =>
    intro path names found
    obtain ⟨x, reached, same⟩ := Option.map_eq_some_iff.mp found
    have live := (mem_alive.mp (reached_alive inv reached)).1
    unfold item at same
    cases kind : (s.node x).kind with
    | file =>
      rw [kind] at same
      cases same
    | dir =>
      rw [kind] at same
      exact Item.dir.inj same ▸ h.distinct x live
  case entries =>
    intro path name
    cases reached : follow s.child s.root path with
    | none =>
      unfold Vfs.tree
      rw [follow_snoc, reached]
      simp
    | some x =>
      have live := (mem_alive.mp (reached_alive inv reached)).1
      rw [tree_snoc reached, Option.isSome_map, h.short.child_isSome]
      unfold Vfs.tree
      rw [reached, Option.map_some]
      constructor
      · intro member
        have kind := inv.dirs x live (by
          rintro none
          rw [none] at member
          exact absurd member List.not_mem_nil)
        exact ⟨_, congrArg some (item_dir kind), member⟩
      · rintro ⟨names, same, member⟩
        have same := Option.some.inj same
        unfold item at same
        cases kind : (s.node x).kind with
        | file =>
          rw [kind] at same
          cases same
        | dir =>
          rw [kind] at same
          exact Item.dir.inj same ▸ member
  case finite =>
    have some : ∀ path, (s.tree path).isSome → ∃ x, follow s.child s.root path = some x := fun path found => by
      unfold Vfs.tree at found
      rw [Option.isSome_map] at found
      exact Option.isSome_iff_exists.mp found
    refine Set.Finite.of_injOn (f := fun path => (follow s.child s.root path).getD 0) (t := s.live) ?_ ?_
      s.live.finite_toSet
    · intro path found
      obtain ⟨x, reached⟩ := some path found
      dsimp only
      rw [reached]
      exact (mem_alive.mp (reached_alive inv reached)).1
    · intro path found rest found' same
      obtain ⟨x, reached⟩ := some path found
      obtain ⟨y, reached'⟩ := some rest found'
      dsimp only at same
      rw [reached, reached', Option.getD_some, Option.getD_some] at same
      rw [← same] at reached'
      exact rooted.injective reached reached'

end Landaux
