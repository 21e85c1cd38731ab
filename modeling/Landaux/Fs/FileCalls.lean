import Landaux.Fs.Contents
import Landaux.Fs.Refinement

/-!
# Reads and writes in the tree

`vfs_read` and `vfs_write` through a `file_t` that is on a dentry of the tree. A file with given bytes is
read back as these bytes, whatever else has been done in the tree.
-/

namespace Landaux
open Lib

variable {s t u v : Vfs} {held : Multiset Nat} {c d p q x : Nat} {name : Name} {n : Dentry} {path : List UInt8}
  {dir place : List Name} {a : Answers} {f : File} {data : FileData} {answer : Granted} {buf bytes : List UInt8}
  {flags : BitVec 8} {kind : Kind} {k : Nat}

namespace Vfs

def vfsRead (s : Vfs) (p size : Nat) : Except FsStop ((Int × List UInt8) × Vfs) :=
  if p ∉ s.opened then .error .freed
  else if (s.file p).dentry ∉ s.live then .error .freed
  else match Landaux.vfsRead size (s.file p) (s.node (s.file p).dentry).data with
    | .error _ => .error .overrun
    | .ok (ret, f) => .ok ((ret.value, ret.bytes), { s with file := fun q => if q = p then f else s.file q })

def vfsWrite (s : Vfs) (answer : Granted) (p : Nat) (buf : List UInt8) : Except FsStop (Int × Vfs) :=
  if p ∉ s.opened then .error .freed
  else if (s.file p).dentry ∉ s.live then .error .freed
  else match Landaux.vfsWrite answer buf (s.file p) (s.node (s.file p).dentry).data with
    | .error _ => .error .overrun
    | .ok (ret, f, data) =>
      let d := (s.file p).dentry
      let s := s.setNode d { s.node d with data := data }
      .ok (ret.value, { s with file := fun q => if q = p then f else s.file q })

def found (s : Vfs) (path : List Name) : Option (Kind × FileData) :=
  (follow s.child s.root path).map fun x => ((s.node x).kind, (s.node x).data)

end Vfs

/-! ### Files with given bytes -/

structure Contains (data : FileData) (bytes : List UInt8) : Prop where
  stores : Stores data (bytes.getD · 0)
  size : data.size = bytes.length

theorem Contains.new : Contains .new [] := ⟨.new, rfl⟩

theorem map_range_getD {l : List UInt8} {k : Nat} (le : k ≤ l.length) :
    (List.range k).map (fun i => l.getD i 0) = l.take k := by
  apply List.ext_getElem
  · rw [List.length_map, List.length_range, List.length_take, min_eq_left le]
  · intro i below below'
    rw [List.getElem_map, List.getElem_range, List.getElem_take, List.getD_eq_getElem?_getD,
      List.getElem?_eq_getElem]
    rfl

/-- A file that is opened for reading is read from its start. -/
theorem Contains.read (size : Nat) (contains : Contains data bytes) (mode : f.openmode &&& O_RDONLY ≠ 0)
    (start : f.offset = 0) (small : size < 2 ^ 31) : ∃ f', vfsRead size f data =
      .ok (⟨(min size bytes.length : Nat), bytes.take size⟩, f') := by
  have reads := contains.stores.vfsRead mode (show f.offset + size < 2 ^ 31 by omega)
  rw [start, Nat.sub_zero, contains.size] at reads
  simp only [Nat.zero_add] at reads
  rw [map_range_getD (Nat.min_le_right _ _), ← List.take_take, List.take_length] at reads
  exact ⟨_, reads⟩

/-- A write of all the bytes to a file that is empty. -/
theorem Contains.write (empty : Contains data []) (mode : f.openmode &&& O_WRONLY ≠ 0) (start : f.offset = 0)
    (small : buf.length < 2 ^ 31) (granted : answer ≠ none) :
    Ends (vfsWrite answer buf f data) (fun r => r.2.1.dentry = f.dentry ∧ r.2.1.refcnt = f.refcnt ∧
      Contains r.2.2 buf) fun _ => False := by
  have size : data.size = 0 := empty.size
  refine (empty.stores.vfsWrite (by omega)).mono ?_ fun _ never => never
  rintro _ (closed | zero | ⟨positive, nowhere⟩ | @⟨block, data', -, positive, found, wrote⟩)
  · exact absurd closed mode
  · exact ⟨rfl, rfl, List.eq_nil_of_length_eq_zero zero ▸ empty⟩
  · unfold FileData.target at nowhere
    split at nowhere
    · exact absurd nowhere granted
    · have none := empty.stores.unused (Option.map_eq_none_iff.mp nowhere)
      omega
  · refine ⟨rfl, rfl, ?_, ?_⟩
    · refine wrote.stores.congr fun i below => ?_
      rw [wrote.size, size, start, Nat.zero_add, Nat.zero_max] at below
      unfold overlay
      rw [start, if_pos ⟨Nat.zero_le i, by omega⟩, Nat.sub_zero]
    · rw [wrote.size, size, start, Nat.zero_add, Nat.zero_max]

/-! ### What is at a path -/

theorem SameNames.found (same : SameNames s t) (short : Short s) (data : ∀ x, (t.node x).data = (s.node x).data) :
    t.found = s.found := by
  funext path
  unfold Vfs.found
  simp only [same.children_eq short, same.root, same.kind, data]

theorem tree_kind (path : List Name) : (s.tree path).map Item.kind = (s.found path).map Prod.fst := by
  unfold Vfs.found Vfs.tree
  rw [Option.map_map, Option.map_map]
  exact congrFun (congrArg Option.map (funext fun x => item_kind)) _

theorem Made.found_eq (made : Made s t d p n) (h : Inv held s) (reached : follow s.child s.root dir = some d)
    (none : s.child d n.name = none) (empty : n.children = []) (fits : n.name.length < 256) (path : List Name) :
    t.found path = if path = dir ++ [n.name] then some (n.kind, n.data) else s.found path := by
  unfold Vfs.found
  rw [made.follow_new h reached none empty fits]
  split
  · rw [Option.map_some, made.new]
  · cases found : follow s.child s.root path with
    | none => rfl
    | some y =>
      have alive := reached_alive h found
      rw [Option.map_some, Option.map_some, made.old (made.ne_new (mem_alive.mp alive).1)]

/-- The data of one dentry are others. -/
theorem SameNames.found_data (same : SameNames s t) (short : Short s) (h : Inv held s)
    (reached : follow s.child s.root place = some c)
    (changed : ∀ x, (t.node x).data = if x = c then data else (s.node x).data) (path : List Name) :
    t.found path = if path = place then some ((s.node c).kind, data) else s.found path := by
  unfold Vfs.found
  rw [same.children_eq short, same.root]
  by_cases here : path = place
  · rw [if_pos here, here, reached, Option.map_some, same.kind, changed, if_pos rfl]
  · rw [if_neg here]
    cases found : follow s.child s.root path with
    | none => rfl
    | some y =>
      have other : y ≠ c := by
        rintro rfl
        exact here (h.rooted.injective found reached)
      rw [Option.map_some, Option.map_some, same.kind, changed, if_neg other]

/-! ### What is added -/

/-- `t` is `s` with something new at `place`, and counts that have grown by at most `k`. -/
structure Adds (s t : Vfs) (place : List Name) (kind : Kind) (data : FileData) (k : Nat) : Prop where
  named : Named t
  found : ∀ path, t.found path = if path = place then some (kind, data) else s.found path
  grown : ∀ b : Int, 1 ≤ b → (∀ x ∈ s.live, (s.node x).refcnt ≤ b) → ∀ x ∈ t.live, (t.node x).refcnt ≤ b + k

theorem Adds.kind_eq {x : Nat} (adds : Adds s t place kind data k) (reached : follow t.child t.root place = some x) :
    (t.node x).kind = kind := by
  have here := adds.found place
  rw [if_pos rfl] at here
  unfold Vfs.found at here
  rw [reached] at here
  exact congrArg Prod.fst (Option.some.inj here)

/-- The place of a new name: its directory is there, and it is not. -/
structure Place (s : Vfs) (path : List UInt8) (d : Nat) : Prop where
  reached : follow s.child s.root (dirname path) = some d
  kind : (s.node d).kind = .dir
  free : s.child d (basename path) = none

theorem place_of_found (addressed : Addressed path) (parent : (s.found (dirname path)).map Prod.fst = some .dir)
    (free : s.found (components path) = none) : ∃ d, Place s path d := by
  unfold Vfs.found at parent free
  cases reached : follow s.child s.root (dirname path) with
  | none =>
    rw [reached] at parent
    cases parent
  | some d =>
    rw [reached] at parent
    refine ⟨d, reached, Option.some.inj parent, ?_⟩
    rw [addressed.split, follow_snoc, reached] at free
    exact Option.map_eq_none_iff.mp free

namespace Place

theorem there (place : Place s path d) (h : Named s) : There s (dirname path) (basename path) d := by
  refine ⟨place.reached, place.kind, ?_, tree_snoc place.reached⟩
  rw [tree_names, way_reached h.settled.inv place.reached place.kind]
  rfl

theorem target (flags : BitVec 8) (place : Place s path d) (h : Named s)
    (granted : ∀ i, a.name i = true) (addressed : Addressed path)
    (plain : ¬ Trailing path ∨ flags &&& LAST_MUST_NOT_EXIST ≠ 0) :
    s.target a flags path = s.lastStep flags d (basename path) := by
  have inv := h.settled.inv
  rw [target_way granted addressed.absolute addressed.split plain inv.top, way_reached inv place.reached place.kind]
  rfl

end Place

theorem Visited.grown {r : Except Int (Nat × Name)} (visited : Visited flags a path held s t r) (x : Nat) :
    (t.node x).refcnt ≤ (s.node x).refcnt + path.length := by
  obtain ⟨crossed, leaks, crossing⟩ := visited.leaks
  have count := crossed.count_le_length (a := x)
  have few := crossing.few
  rw [leaks.refcnt]
  omega

/-- A lookup and a new dentry. -/
theorem Visited.made_adds {r : Except Int (Nat × Name)} (visited : Visited flags a path 0 s u r) (h : Named s)
    (result : r = .ok (d, basename path)) (place : Place s path d) (addressed : Addressed path)
    (copied : strcpyName (basename path) kind = .ok n) (made : Made u t d p n) :
    Adds s t (components path) kind .new path.length ∧ follow t.child t.root (components path) = some p := by
  subst result
  obtain ⟨named, -⟩ := visited.adds h (place.there h) place.free addressed.fits copied made
  have fits := addressed.fits
  rw [strcpyName_fits fits.le] at copied
  cases copied
  have names := visited.tree.names
  have reached : follow u.child u.root (dirname path) = some d := by
    rw [names.children_eq h.short, names.root]
    exact place.reached
  have free : u.child d (basename path) = none := (names.child h.short).trans place.free
  have split := addressed.split
  refine ⟨⟨named, fun q => ?_, fun b one bound x live => ?_⟩, ?_⟩
  · rw [made.found_eq visited.inv reached free rfl fits, names.found h.short visited.tree.data, split]
  · rw [made.live, Finset.mem_insert] at live
    by_cases new : x = p
    · rw [new, made.new]
      dsimp only
      omega
    · have old := live.resolve_left new
      rw [made.old new]
      have grown := visited.grown x
      have before := bound x (visited.tree.live ▸ old)
      dsimp only
      omega
  · rw [made.follow_new visited.inv reached free rfl fits, split, if_pos rfl]

theorem mkdir_adds (h : Named s) (generous : Generous a) (fresh : Fresh a s) (addressed : Addressed path)
    (place : Place s path d) : Ends (s.vfsMkdir a path)
      (fun r => Adds s r.2 (components path) .dir .new path.length ∧ r.2.opened = s.opened)
      (s.Crowded (path.length + 1)) := by
  have target := place.target LAST_MUST_NOT_EXIST h generous.name addressed (Or.inr (by decide))
  rw [lastStep_free, place.free] at target
  refine (vfsMkdir_spec h.settled.inv addressed.absolute fresh).mono ?_ ?_
  swap
  · rintro stop (crowded | ⟨name, ⟨-, -, e, t, eq⟩, long⟩)
    · exact crowded
    · have fits := addressed.fits
      rw [lookup_name h generous.name addressed (Or.inr (by decide)) eq] at long
      omega
  rintro _ (@⟨err, t, visited⟩ | @⟨e, name, t, visited, file⟩ | ⟨-, denied⟩ |
    @⟨e, p, name, n, u, t, visited, dir, makes, granted, priv, copied, made⟩)
  · have failed := (visited.result h.short).trans target
    cases failed
  · have found := (visited.result h.short).trans target
    obtain ⟨rfl, rfl⟩ := Prod.mk.inj (Except.ok.inj found)
    exact absurd place.kind file
  · rcases denied with none | none
    · exact absurd none generous.dentry
    · rw [generous.priv] at none
      cases none
  · have found := (visited.result h.short).trans target
    obtain ⟨rfl, rfl⟩ := Prod.mk.inj (Except.ok.inj found)
    exact ⟨(visited.made_adds h rfl place addressed copied made).1, made.opened.trans visited.tree.opened⟩

/-! ### A new file is filled -/

/-- `t` is `s` with a new file at `place` that is open as `q`. -/
structure Filling (s t : Vfs) (place : List Name) (q : Nat) (data : FileData) (k : Nat) : Prop
    extends Adds s t place .file data k where
  opened : t.opened = insert q s.opened
  unused : q ∉ s.opened
  reached : follow t.child t.root place = some (t.file q).dentry
  holds : (t.node (t.file q).dentry).data = data
  once : (t.file q).refcnt = 1
  shared : (t.node (t.file q).dentry).refcnt ≠ 1

def createFlags : BitVec 32 := O_WRONLY ||| O_CREAT ||| O_TRUNC

theorem create_adds (h : Named s) (generous : Generous a) (fresh : Fresh a s) (ordinary : Ordinary path)
    (place : Place s path d) : Ends (s.vfsOpen a path createFlags)
      (fun r => ∃ q, r.1 = .ok q ∧ Filling s r.2 (components path) q .new (path.length + 1) ∧
        (r.2.file q).openmode = O_WRONLY ∧ (r.2.file q).offset = 0)
      (s.Crowded (path.length + 2)) := by
  have addressed := ordinary.toAddressed
  have target := place.target (LAST_RETURN ||| LAST_NO_SLASHES) h generous.name addressed (Or.inl ordinary.plain)
  rw [lastStep_return] at target
  refine ((vfsOpen_spec h.settled.inv addressed.absolute fresh).returned.mono ?_ ?_)
  swap
  · rintro stop (crowded | ⟨name, creates, long⟩)
    · exact crowded
    · have fits : name.length ≤ 256 := open_fits h generous ordinary name creates
      omega
  rintro ⟨ret, t⟩ ⟨ends, eq⟩
  have refines := (open_refines h generous ordinary fresh).of_ok eq
  cases ends with
  | failed visited => exact nomatch (visited.result h.short).trans target
  | refused visited refused =>
    obtain ⟨rfl, rfl⟩ := Prod.mk.inj (Except.ok.inj ((visited.result h.short).trans target))
    have refused := refused h.short
    unfold Vfs.refusal at refused
    rw [place.free] at refused
    simp [createFlags, generous.dentry, generous.priv, O_WRONLY, O_CREAT, O_TRUNC] at refused
  | lost visited dir creates accepted none copied made lost =>
    obtain ⟨rfl, rfl⟩ := Prod.mk.inj (Except.ok.inj ((visited.result h.short).trans target))
    rcases lost with none | long
    · exact absurd none generous.file
    · exact absurd addressed.fits (not_lt.mpr long)
  | opened visited link accepted found granted opens new =>
    obtain ⟨rfl, rfl⟩ := Prod.mk.inj (Except.ok.inj ((visited.result h.short).trans target))
    cases ((found h.short).symm.trans place.free)
  | @created d p q name n f data u v t visited dir creates accepted none copied made counted granted opens new =>
    obtain ⟨rfl, rfl⟩ := Prod.mk.inj (Except.ok.inj ((visited.result h.short).trans target))
    obtain ⟨adds, reached⟩ := visited.made_adds h rfl place addressed copied made
    obtain ⟨rfl, truncated⟩ := newFile_file new
    have empty : data = .new := by
      rw [truncated]
      rw [strcpyName_fits addressed.fits.le] at copied
      cases copied
      rfl
    have file : t.file q = ⟨p, O_WRONLY, 0, 1⟩ := by
      rw [opens.file]
      exact if_pos rfl
    have node := fun x => opens.node_eq (x := x)
    have short := adds.named.short
    have kind := adds.kind_eq reached
    refine ⟨q, rfl, ⟨⟨refines.1, fun path' => ?_, fun b one bound x live => ?_⟩, ?_, ?_, ?_, ?_, ?_, ?_⟩, ?_, ?_⟩
    · rw [opens.names.found_data short adds.named.settled.inv reached fun x => by rw [node], adds.found, kind, empty]
      split
      · rfl
      · rfl
    · have before := adds.grown b one bound x (opens.live ▸ live)
      rw [node]
      dsimp only
      split <;> omega
    · rw [opens.opened, made.opened, visited.tree.opened]
    · exact fresh.file q granted
    · rw [file, opens.names.children_eq short, opens.root]
      exact reached
    · rw [file, node]
      exact (if_pos rfl).trans empty
    · rw [file]
    · rw [file, node, made.new, counted]
      dsimp only
      rw [if_pos rfl]
      decide
    · rw [file]
    · rw [file]

theorem Filling.live {q : Nat} (filling : Filling s t place q data k) :
    q ∈ t.opened ∧ (t.file q).dentry ∈ t.live :=
  ⟨filling.opened ▸ Finset.mem_insert_self q s.opened,
    (mem_alive.mp (reached_alive filling.named.settled.inv filling.reached)).1⟩

theorem Filling.setData {q : Nat} {old : FileData} (filling : Filling s t place q old k)
    (points : f.dentry = (t.file q).dentry) (once : f.refcnt = (t.file q).refcnt) :
    Filling s { t.setNode (t.file q).dentry { t.node (t.file q).dentry with data := data } with
      file := fun p => if p = q then f else t.file p } place q data k := by
  have named := filling.named
  have inv := named.settled.inv
  generalize filled : ({ t.setNode (t.file q).dentry { t.node (t.file q).dentry with data := data } with
    file := fun p => if p = q then f else t.file p } : Vfs) = u
  have node : ∀ x, u.node x = { t.node x with data := if x = (t.file q).dentry then data else (t.node x).data } :=
    fun x => by
      rw [← filled]
      exact setData_node
  have file : u.file q = f := by
    rw [← filled]
    exact if_pos rfl
  have inv' : Inv 0 u := filled ▸ (inv.setData).setFile points once
  have live : u.live = t.live := by rw [← filled]; rfl
  have root : u.root = t.root := by rw [← filled]; rfl
  have names : SameNames t u := ⟨root, fun x => by rw [node], fun x => by rw [node], fun x => by rw [node]⟩
  have settled : Settled u := ⟨inv', fun x inside => by
    rw [node]
    exact named.settled.counted x (live ▸ inside)⟩
  refine ⟨⟨named.of_names names settled live.subset, fun path => ?_, fun b one bound x inside => ?_⟩,
    ?_, filling.unused, ?_, ?_, ?_, ?_⟩
  · rw [names.found_data named.short inv filling.reached fun x => by rw [node], filling.found,
      filling.kind_eq filling.reached]
    split
    · rfl
    · rfl
  · rw [node]
    exact filling.grown b one bound x (live ▸ inside)
  · rw [← filling.opened, ← filled]
    rfl
  · rw [file, points, names.children_eq named.short, root]
    exact filling.reached
  · rw [file, points, node]
    exact if_pos rfl
  · rw [file, once]
    exact filling.once
  · rw [file, points, node]
    exact filling.shared

/-- `vfs_write` to a new file. -/
theorem Filling.write {q : Nat} (filling : Filling s t place q .new k) (mode : (t.file q).openmode = O_WRONLY)
    (start : (t.file q).offset = 0) (small : buf.length < 2 ^ 31) (granted : answer ≠ none) :
    Ends (t.vfsWrite answer q buf) (fun r => ∃ data, Filling s r.2 place q data k ∧ Contains data buf)
      fun _ => False := by
  obtain ⟨inside, live⟩ := filling.live
  have writes := Contains.new.write (f := t.file q) (by rw [mode]; decide) start small granted
  unfold Vfs.vfsWrite
  rw [if_neg (not_not.mpr inside), if_neg (not_not.mpr live), filling.holds]
  cases written : vfsWrite answer buf (t.file q) .new with
  | error stop =>
    rw [written] at writes
    exact writes
  | ok r =>
    rw [written] at writes
    obtain ⟨points, once, contains⟩ := writes
    exact ⟨r.2.2, filling.setData points once, contains⟩

/-- The file is there when it has been closed. -/
theorem Filling.close {q : Nat} (filling : Filling s t place q data k) :
    Ends (t.vfsClose q) (fun r => Adds s r.2 place .file data k ∧ r.2.opened = s.opened) fun _ => False := by
  have named := filling.named
  obtain ⟨inside, live⟩ := filling.live
  have last : Landaux.vfsClose (t.file q) = none := by
    unfold Landaux.vfsClose
    rw [filling.once]
    rfl
  refine (close_refines named inside).returned.mono ?_ fun _ never => never
  rintro ⟨ret, u⟩ ⟨⟨closed, -, -⟩, result⟩
  unfold Vfs.vfsClose at result
  rw [if_neg (not_not.mpr inside)] at result
  dsimp only at result
  rw [last] at result
  dsimp only at result
  let closing := (t.setFile q { t.file q with refcnt := (t.file q).refcnt - 1 }).kfreeFile q
  have node : ∀ x, (closing.addRefcnt (t.file q).dentry (-1)).node x =
      { t.node x with refcnt := (t.node x).refcnt + if x = (t.file q).dentry then -1 else 0 } := fun x => addRefcnt_node
  rw [dentryPut_shared (s := closing) live filling.shared] at result
  cases result
  have names : SameNames t (closing.addRefcnt (t.file q).dentry (-1)) :=
    ⟨rfl, fun x => by rw [node], fun x => by rw [node], fun x => by rw [node]⟩
  refine ⟨⟨closed, fun path => ?_, fun b one bound x inside => ?_⟩, ?_⟩
  · rw [names.found named.short fun x => by rw [node], filling.found]
  · have before := filling.grown b one bound x inside
    rw [node]
    dsimp only
    split <;> omega
  · change t.opened.erase q = s.opened
    rw [filling.opened, Finset.erase_insert filling.unused]

/-! ### A file is opened and read -/

theorem there_of_found (h : Named s) (addressed : Addressed path)
    (found : s.found (components path) = some (kind, data)) :
    ∃ d c, There s (dirname path) (basename path) d ∧ s.child d (basename path) = some c ∧
      (s.node c).kind = kind ∧ (s.node c).data = data := by
  have inv := h.settled.inv
  obtain ⟨c, reached, is⟩ := Option.map_eq_some_iff.mp found
  obtain ⟨rfl, rfl⟩ := Prod.mk.inj is
  rw [addressed.split] at reached
  obtain ⟨d, above, edge⟩ := follow_snoc_some.mp reached
  have dir : (s.node d).kind = .dir := by
    by_contra file
    have empty := inv.childless (mem_alive.mp (reached_alive inv above)).1 file
    cases ((childless empty).symm.trans edge)
  refine ⟨d, c, ⟨above, dir, ?_, tree_snoc above⟩, edge, rfl, rfl⟩
  rw [tree_names, way_reached inv above dir]
  rfl

/-- `vfs_open` of a file that is there, for reading. -/
theorem open_found (h : Named s) (generous : Generous a) (fresh : Fresh a s) (ordinary : Ordinary path)
    (found : s.found (components path) = some (.file, data)) : Ends (s.vfsOpen a path O_RDONLY)
      (fun r => ∃ q, r.1 = .ok q ∧ q ∈ r.2.opened ∧ (r.2.file q).dentry ∈ r.2.live ∧
        (r.2.file q).openmode = O_RDONLY ∧ (r.2.file q).offset = 0 ∧ (r.2.node (r.2.file q).dentry).data = data)
      (s.Crowded (path.length + 2)) := by
  have addressed := ordinary.toAddressed
  have inv := h.settled.inv
  obtain ⟨e, x, there, edge, kind, rfl⟩ := there_of_found h addressed found
  have target : s.target a (LAST_RETURN ||| LAST_NO_SLASHES) path = .ok (e, basename path) := by
    rw [target_way generous.name addressed.absolute addressed.split (Or.inl ordinary.plain) inv.top,
      way_reached inv there.reached there.kind]
    exact lastStep_return
  have accepted : s.refusal a e (basename path) O_RDONLY = none := by
    unfold Vfs.refusal
    rw [edge]
    simp [kind, generous.file, O_RDONLY, O_CREAT]
  refine ((vfsOpen_spec inv addressed.absolute fresh).mono ?_ ?_)
  swap
  · rintro stop (crowded | ⟨name, creates, long⟩)
    · exact crowded
    · have fits : name.length ≤ 256 := open_fits h generous ordinary name creates
      omega
  rintro ⟨ret, t⟩ ends
  cases ends with
  | failed visited => exact nomatch (visited.result h.short).trans target
  | refused visited refused =>
    obtain ⟨rfl, rfl⟩ := Prod.mk.inj (Except.ok.inj ((visited.result h.short).trans target))
    cases ((refused h.short).symm.trans accepted)
  | lost visited dir creates accepted none =>
    obtain ⟨rfl, rfl⟩ := Prod.mk.inj (Except.ok.inj ((visited.result h.short).trans target))
    cases ((none h.short).symm.trans edge)
  | created visited dir creates accepted none =>
    obtain ⟨rfl, rfl⟩ := Prod.mk.inj (Except.ok.inj ((visited.result h.short).trans target))
    cases ((none h.short).symm.trans edge)
  | @opened d c q name f data u t visited link accepted found granted opens new =>
    obtain ⟨rfl, rfl⟩ := Prod.mk.inj (Except.ok.inj ((visited.result h.short).trans target))
    obtain rfl := Option.some.inj ((found h.short).symm.trans edge)
    obtain ⟨rfl, truncated⟩ := newFile_file new
    have file : t.file q = ⟨c, O_RDONLY, 0, 1⟩ := by
      rw [opens.file]
      exact if_pos rfl
    have live : c ∈ s.live := (mem_alive.mp (reached_alive inv (there.below edge))).1
    refine ⟨q, rfl, ?_, ?_, ?_, ?_, ?_⟩
    · rw [opens.opened]
      exact Finset.mem_insert_self q u.opened
    · rw [file, opens.live, visited.tree.live]
      exact live
    · rw [file]
    · rw [file]
    · rw [file, opens.node_eq]
      exact (if_pos rfl).trans truncated

end Landaux
