import Landaux.Fs.References
import Mathlib.Data.List.TakeWhile

/-!
# Walks along a path

A walk changes counts and parent pointers only. Each dentry that it goes on from keeps the reference
that the walk had on it.
-/

namespace Landaux
open Lib Vfs

variable {s t u : Vfs} {held : Multiset Nat} {d e x : Nat} {name : Name} {path rest : List UInt8}
  {granted : Bool} {type : Comp} {a : Answers} {flags : BitVec 8}

/-! ### Components -/

def Starts (path : List UInt8) : Prop := path ≠ [] ∧ path.head? ≠ some slash

theorem starts_dropWhile (nonempty : path.dropWhile (· = slash) ≠ []) :
    Starts (path.dropWhile (· = slash)) := by
  refine ⟨nonempty, fun head => ?_⟩
  have first := List.head?_dropWhile_not (fun b => decide (b = slash)) path
  rw [head] at first
  simp at first

inductive Next (path : List UInt8) : Bool → Comp × Name × List UInt8 → Prop where
  | noMore : Next path false (.noMore, [], path)
  | last {name : Name} (plain : slash ∉ name) (whole : path = name) : Next path true (.last, name, [])
  | lastSlash {name : Name} (plain : slash ∉ name) : Next path true (.lastSlash, name, [])
  | norm {name : Name} {rest : List UInt8} (plain : slash ∉ name) (starts : Starts rest)
      (shorter : rest.length < path.length) : Next path true (.norm, name, rest)

theorem getNextComponent_spec (granted : Bool) (starts : Starts path) :
    Next path granted (getNextComponent granted path) := by
  obtain ⟨nonempty, head⟩ := starts
  unfold getNextComponent
  cases granted with
  | false =>
    rw [if_pos (Or.inr rfl)]
    exact .noMore
  | true =>
    have plain : slash ∉ path.takeWhile (· ≠ slash) := fun member => by
      have kept := List.mem_takeWhile_imp member
      simp at kept
    rw [if_neg (by simpa using nonempty)]
    dsimp only
    split
    · rename_i all
      refine .last plain ?_
      have parts := List.takeWhile_append_dropWhile (p := fun b => decide (b ≠ slash)) (l := path)
      rw [all, List.append_nil] at parts
      exact parts.symm
    split
    · exact .lastSlash plain
    · rename_i more
      refine .norm plain (starts_dropWhile more) ?_
      refine lt_of_le_of_lt (List.length_dropWhile_le _ _) ?_
      cases path with
      | nil => exact absurd rfl nonempty
      | cons b path =>
        have first : b ≠ slash := fun same => head (by rw [same]; rfl)
        rw [List.dropWhile_cons_of_pos (by simpa using first)]
        exact Nat.lt_succ_of_le (List.length_dropWhile_le _ _)

/-! ### One step -/

def Vfs.child (s : Vfs) (d : Nat) (name : Name) : Option Nat :=
  (s.node d).children.find? fun c => (s.node c).string = name

theorem child_mem (found : s.child d name = some x) :
    x ∈ (s.node d).children ∧ (s.node x).string = name := by
  have hit := List.find?_some found
  exact ⟨List.mem_of_find?_eq_some found, by simpa using hit⟩

theorem findChild_eq (cs : List Nat) (live : ∀ c ∈ cs, c ∈ s.live) :
    s.findChild name cs = .ok (cs.find? fun c => (s.node c).string = name) := by
  induction cs with
  | nil => rfl
  | cons c cs ih =>
    rw [findChild, if_neg (not_not.mpr (live c List.mem_cons_self))]
    by_cases hit : (s.node c).string = name
    · rw [if_pos hit, List.find?_cons_of_pos (by simpa using hit)]
    · rw [if_neg hit, List.find?_cons_of_neg (by simpa using hit)]
      exact ih fun c member => live c (List.mem_cons_of_mem _ member)

inductive Looked (s : Vfs) (held : Multiset Nat) (d : Nat) (name : Name) : Except Int Nat × Vfs → Prop where
  | missing (none : s.child d name = none) : Looked s held d name (.error (-ENOENT), s)
  | found {c : Nat} (found : s.child d name = some c) (inv : Inv (c ::ₘ held) (s.addRefcnt c 1)) :
      Looked s held d name (.ok c, s.addRefcnt c 1)

theorem ramfsLookup_spec (h : Inv held s) (alive : d ∈ s.alive) (dir : (s.node d).kind = .dir) :
    Ends (s.ramfsLookup d name) (Looked s held d name) (s.Crowded 1) := by
  have finds : s.findChild name (s.node d).children = .ok (s.child d name) :=
    findChild_eq _ fun c child => (mem_alive.mp (h.child_alive alive child)).1
  unfold ramfsLookup
  rw [if_neg (not_not.mpr (mem_alive.mp alive).1), if_neg (not_not.mpr dir), finds, Lib.ok_bind]
  cases found : s.child d name with
  | none => exact .missing found
  | some c =>
    refine Ends.bind (dentryGet_spec h (h.child_alive alive (child_mem found).1)) ?_
    rintro _ ⟨rfl, inv⟩
    exact .found found inv

/-- A dentry of the tree is not freed by `dentry_put`. -/
theorem dentryPut_linked (h : Inv (d ::ₘ held) s) (linked : d ∈ s.linked) :
    s.dentryPut d = .ok (s.addRefcnt d (-1)) ∧ Inv held (s.addRefcnt d (-1)) ∧
      (s.addRefcnt d (-1)).alive = s.alive := by
  have alive := h.held_alive
  have more : 2 ≤ (s.node d).refcnt := by
    have counted := h.counted d alive
    have member : d ∈ s.refs held := mem_refs_linked linked
    have once := Multiset.one_le_count_iff_mem.mpr member
    rw [refs_cons, Multiset.count_cons_self] at counted
    omega
  have result := dentryPut_shared (mem_alive.mp alive).1 (show (s.node d).refcnt ≠ 1 by omega)
  exact ⟨result, ((dentryPut_spec h).of_ok result).2, (SameLinks.addRefcnt alive (by omega)).alive⟩

/-- The tree is the same, but for counts and parent pointers. -/
structure SameTree (s t : Vfs) : Prop where
  root : t.root = s.root
  live : t.live = s.live
  opened : t.opened = s.opened
  file : t.file = s.file
  name : ∀ x, (t.node x).name = (s.node x).name
  kind : ∀ x, (t.node x).kind = (s.node x).kind
  children : ∀ x, (t.node x).children = (s.node x).children
  data : ∀ x, (t.node x).data = (s.node x).data

theorem SameTree.refl : SameTree s s :=
  ⟨rfl, rfl, rfl, rfl, fun _ => rfl, fun _ => rfl, fun _ => rfl, fun _ => rfl⟩

theorem SameTree.trans (first : SameTree s t) (second : SameTree t u) : SameTree s u where
  root := second.root.trans first.root
  live := second.live.trans first.live
  opened := second.opened.trans first.opened
  file := second.file.trans first.file
  name := fun x => (second.name x).trans (first.name x)
  kind := fun x => (second.kind x).trans (first.kind x)
  children := fun x => (second.children x).trans (first.children x)
  data := fun x => (second.data x).trans (first.data x)

theorem SameTree.links (same : SameTree s t) (alive : t.alive = s.alive) : SameLinks s t :=
  ⟨same.root, same.live, alive, same.children, same.kind, same.opened, same.file⟩

theorem SameTree.addRefcnt {k : Int} : SameTree s (s.addRefcnt d k) where
  root := rfl
  live := rfl
  opened := rfl
  file := rfl
  name := fun x => by rw [addRefcnt_node]
  kind := fun x => by rw [addRefcnt_node]
  children := fun x => by rw [addRefcnt_node]
  data := fun x => by rw [addRefcnt_node]

theorem setParent_node : (s.setParent x d).node e =
    { s.node e with parent := if e = x then d else (s.node e).parent } := by
  unfold Vfs.setParent
  rw [setNode_node]
  split
  · rename_i same
    rw [same]
  · rfl

theorem SameTree.setParent : SameTree s (s.setParent x d) where
  root := rfl
  live := rfl
  opened := rfl
  file := rfl
  name := fun y => by rw [setParent_node]
  kind := fun y => by rw [setParent_node]
  children := fun y => by rw [setParent_node]
  data := fun y => by rw [setParent_node]

theorem SameLinks.setParent : SameLinks s (s.setParent x d) where
  root := rfl
  live := rfl
  alive := Finset.filter_congr fun y _ => by rw [setParent_node]
  children := fun y => by rw [setParent_node]
  kind := fun y => by rw [setParent_node]
  opened := rfl
  file := rfl

/-- A parent pointer takes over the reference that the walk had. -/
theorem Inv.setParent (h : Inv (d ::ₘ held) s) (alive : x ∈ s.alive) : Inv held (s.setParent x d) := by
  have same : SameLinks s (s.setParent x d) := .setParent
  have parents : (s.setParent x d).parents + (s.node x).parentRef = s.parents + {d} := by
    have mine : ((s.setParent x d).node x).parentRef = {d} := by
      rw [setParent_node, Dentry.parentRef, if_pos rfl]
      exact if_neg h.held_nonzero
    unfold Vfs.parents
    rw [same.alive, ← Finset.add_sum_erase _ _ alive, ← Finset.add_sum_erase _ _ alive, mine]
    have others : ∑ y ∈ s.alive.erase x, ((s.setParent x d).node y).parentRef =
        ∑ y ∈ s.alive.erase x, (s.node y).parentRef := by
      refine Finset.sum_congr rfl fun y member => ?_
      refine parentRef_congr ?_
      rw [setParent_node, if_neg (Finset.ne_of_mem_erase member)]
    rw [others]
    abel
  have fewer : (s.setParent x d).refs held ≤ s.refs (d ::ₘ held) := by
    have sum : (s.setParent x d).refs held + (s.node x).parentRef = s.refs (d ::ₘ held) := by
      unfold Vfs.refs
      rw [same.linked, same.handles, ← Multiset.singleton_add]
      calc s.linked + (s.setParent x d).parents + s.handles + held + (s.node x).parentRef
          = s.linked + ((s.setParent x d).parents + (s.node x).parentRef) + s.handles + held := by abel
        _ = s.linked + s.parents + s.handles + ({d} + held) := by
          rw [parents]
          abel
    rw [← sum]
    exact Multiset.le_add_right _ _
  refine h.move same (fun y member => h.known y (Multiset.mem_of_le fewer member)) fun y live => ?_
  rw [setParent_node]
  have counted := h.counted y live
  have less := Multiset.count_le_of_le y fewer
  dsimp only
  omega

/-! ### The whole walk -/

/-- A walk from `d` has gone on from the dentries `crossed`, and holds `out`. -/
structure Crossed (s t : Vfs) (d : Nat) (crossed : List Nat) (out : Option Nat) : Prop where
  tree : SameTree s t
  refcnt : ∀ x, (t.node x).refcnt = (s.node x).refcnt + crossed.count x +
    (if out = some x then 1 else 0) - (if x = d then 1 else 0)

theorem Crossed.stay : Crossed s s d [] (some d) := by
  refine ⟨.refl, fun x => ?_⟩
  by_cases same : x = d
  · rw [if_pos same, if_pos (by rw [same]), List.count_nil]
    omega
  · rw [if_neg same, if_neg (by simpa using Ne.symm same), List.count_nil]
    omega

theorem Crossed.put : Crossed s (s.addRefcnt d (-1)) d [] none := by
  refine ⟨.addRefcnt, fun x => ?_⟩
  have nothing : (none : Option Nat) ≠ some x := Option.some_ne_none x |>.symm
  rw [addRefcnt_node, if_neg nothing, List.count_nil]
  dsimp only
  split <;> omega

theorem Crossed.cross {c : Nat} {crossed : List Nat} {out : Option Nat}
    (rest : Crossed ((s.addRefcnt c 1).setParent c d) t c crossed out) : Crossed s t d (d :: crossed) out := by
  refine ⟨(SameTree.addRefcnt.trans .setParent).trans rest.tree, fun x => ?_⟩
  have moved := rest.refcnt x
  rw [setParent_node, addRefcnt_node] at moved
  dsimp only at moved
  generalize (if x = c then (1 : Int) else 0) = taken at moved
  rw [moved, List.count_cons]
  by_cases same : x = d
  · subst same
    rw [if_pos (beq_self_eq_true x), if_pos rfl]
    push_cast
    omega
  · have other : (d == x) ≠ true := by simpa using Ne.symm same
    rw [if_neg same, if_neg other]
    push_cast
    omega

/-- What a walk has returned is still held. -/
def heldBy : Except Int (Nat × Name) → Multiset Nat
  | .ok (e, _) => {e}
  | .error _ => 0

structure Walked (flags : BitVec 8) (s : Vfs) (held : Multiset Nat) (d : Nat)
    (r : Except Int (Nat × Name)) (t : Vfs) (crossed : List Nat) : Prop where
  inv : Inv (heldBy r + held) t
  alive : t.alive = s.alive
  moved : Crossed s t d crossed (r.toOption.map Prod.fst)
  first : crossed = [] ∨ d ∈ crossed
  linked : ∀ e name, r = .ok (e, name) → e ∈ s.linked
  plain : ∀ e name, r = .ok (e, name) → slash ∉ name
  dir : ∀ e name, r = .ok (e, name) → flags &&& LAST_RETURN ≠ 0 → (s.node e).kind = .dir
  parent : ∀ e name, r = .ok (e, name) →
    crossed = [] ∧ e = d ∧ (t.node e).parent = (s.node e).parent ∧
      flags &&& (LAST_RETURN ||| LAST_MUST_NOT_EXIST) ≠ 0 ∨ e ∈ s.links ∧ (t.node e).parent ≠ 0

theorem Walked.stay (h : Inv (d ::ₘ held) s) (linked : d ∈ s.linked) (dir : flags &&& LAST_RETURN ≠ 0 →
    (s.node d).kind = .dir) (plain : slash ∉ name)
    (here : flags &&& (LAST_RETURN ||| LAST_MUST_NOT_EXIST) ≠ 0 ∨ d ∈ s.links ∧ (s.node d).parent ≠ 0) :
    Walked flags s held d (.ok (d, name)) s [] where
  inv := by
    rw [heldBy, Multiset.singleton_add]
    exact h
  alive := rfl
  moved := .stay
  first := Or.inl rfl
  linked := by
    rintro e name ⟨⟩
    exact linked
  plain := by
    rintro e name ⟨⟩
    exact plain
  dir := by
    rintro e name ⟨⟩
    exact dir
  parent := by
    rintro e name ⟨⟩
    exact here.imp_left fun flag => ⟨rfl, rfl, rfl, flag⟩

theorem Walked.put {err : Int} (inv : Inv held (s.addRefcnt d (-1)))
    (alive : (s.addRefcnt d (-1)).alive = s.alive) :
    Walked flags s held d (.error err) (s.addRefcnt d (-1)) [] where
  inv := by
    rw [heldBy, zero_add]
    exact inv
  alive := alive
  moved := .put
  first := Or.inl rfl
  linked := nofun
  plain := nofun
  dir := nofun
  parent := nofun

theorem Walked.cross {c : Nat} {crossed : List Nat} {r : Except Int (Nat × Name)}
    (rest : Walked flags ((s.addRefcnt c 1).setParent c d) held c r t crossed) (nonnull : d ≠ 0)
    (child : c ∈ s.links)
    (links : SameLinks s ((s.addRefcnt c 1).setParent c d)) : Walked flags s held d r t (d :: crossed) where
  inv := rest.inv
  alive := rest.alive.trans links.alive
  moved := rest.moved.cross
  first := Or.inr List.mem_cons_self
  linked := links.linked ▸ rest.linked
  plain := rest.plain
  dir := fun e name found returns => by
    have dir := rest.dir e name found returns
    rwa [(SameTree.addRefcnt.trans .setParent).kind] at dir
  parent := fun e name found => by
    rcases rest.parent e name found with ⟨-, rfl, same, -⟩ | ⟨link, set⟩
    · rw [setParent_node, if_pos rfl] at same
      exact Or.inr ⟨child, same ▸ nonnull⟩
    · exact Or.inr ⟨links.links ▸ link, set⟩

/-- The walk goes on from `d`: its first component is looked up and found. -/
def Crosses (s : Vfs) (a : Answers) (flags : BitVec 8) (i : Nat) (path : List UInt8) (d : Nat) : Prop :=
  let (type, name, _) := getNextComponent (a.name i) path
  type ≠ .noMore ∧ ¬ (isLast type flags ∧ flags &&& LAST_RETURN ≠ 0) ∧ (s.child d name).isSome

/-- What a walk returns, as long as names do not run into the rest of a dentry. -/
def locate (s : Vfs) (a : Answers) (flags : BitVec 8) :
    Nat → Nat → List UInt8 → Nat → Except Int (Nat × Name)
  | 0, _, _, d => .ok (d, [])
  | fuel + 1, i, path, d =>
    let (type, name, path) := getNextComponent (a.name i) path
    if type = .noMore then .error (-ENOMEM)
    else if isLast type flags ∧ flags &&& LAST_RETURN ≠ 0 then .ok (d, name)
    else
      match s.child d name with
      | none =>
        if isLast type flags ∧ flags &&& LAST_MUST_NOT_EXIST ≠ 0 then .ok (d, name) else .error (-ENOENT)
      | some new =>
        if isLast type flags ∧ flags &&& LAST_MUST_NOT_EXIST ≠ 0 then .error (-EEXIST)
        else if (s.node new).kind ≠ .dir then
          if type = .norm ∨ type = .lastSlash ∨ flags &&& LAST_MUST_BE_DIR ≠ 0 then .error (-ENOTDIR)
          else .ok (new, name)
        else if type = .last ∨ type = .lastSlash then .ok (new, name)
        else locate s a flags fuel (i + 1) path new

/-- No name fills `name` and the padding after it. -/
def Short (s : Vfs) : Prop := ∀ x, (s.node x).name.length < 256

theorem Short.string (short : Short s) : (s.node x).string = (s.node x).name := if_pos (short x)

theorem SameTree.short (same : SameTree s t) (short : Short s) : Short t := fun x => by
  rw [same.name]
  exact short x

theorem SameTree.child (same : SameTree s t) (short : Short s) : t.child d name = s.child d name := by
  unfold Vfs.child
  rw [same.children]
  congr 1
  funext c
  rw [(same.short short).string, short.string, same.name]

theorem SameTree.locate (same : SameTree s t) (short : Short s) (fuel : Nat) : ∀ i path d,
    locate t a flags fuel i path d = locate s a flags fuel i path d := by
  induction fuel with
  | zero => exact fun _ _ _ => rfl
  | succ fuel ih =>
    intro i path d
    rw [Landaux.locate, Landaux.locate]
    simp only [same.child short, same.kind, ih]

theorem flag_or {x y : BitVec 8} (one : flags &&& x ≠ 0 ∨ flags &&& y ≠ 0) : flags &&& (x ||| y) ≠ 0 := by
  intro none
  have gone : ∀ z, (x ||| y) &&& z = z → flags &&& z = 0 := fun z inside => by
    rw [← inside, ← BitVec.and_assoc, none]
    exact BitVec.zero_and
  rcases one with first | second
  · apply first
    apply gone
    ext i inside
    rw [BitVec.getElem_and, BitVec.getElem_or]
    cases x[i] <;> simp
  · apply second
    apply gone
    ext i inside
    rw [BitVec.getElem_and, BitVec.getElem_or]
    cases y[i] <;> simp

theorem Next.cases {c : Comp × Name × List UInt8} (next : Next path granted c) : c.1 = .noMore ∨
    c.1 ≠ .noMore ∧ slash ∉ c.2.1 ∧
      (¬ (c.1 = .last ∨ c.1 = .lastSlash) → Starts c.2.2 ∧ c.2.2.length < path.length) := by
  cases next with
  | noMore => exact Or.inl rfl
  | last plain => exact Or.inr ⟨nofun, plain, fun more => absurd (Or.inl rfl) more⟩
  | lastSlash plain => exact Or.inr ⟨nofun, plain, fun more => absurd (Or.inr rfl) more⟩
  | norm plain starts shorter => exact Or.inr ⟨nofun, plain, fun _ => ⟨starts, shorter⟩⟩

/-- A walk has gone on from at most `n` dentries; `crosses` says whether there was one. -/
structure Crossing (crosses : Prop) (n : Nat) (crossed : List Nat) : Prop where
  goesOn : crossed ≠ [] ↔ crosses
  few : crossed.length ≤ n

theorem Crossing.none {crosses : Prop} {n : Nat} (stays : ¬ crosses) : Crossing crosses n [] :=
  ⟨iff_of_false (fun never => absurd rfl never) stays, Nat.zero_le n⟩

/-- A walk ends; `result` is what it returns. -/
def WalkEnds (flags : BitVec 8) (s : Vfs) (held : Multiset Nat) (d : Nat) (crosses : Prop) (n : Nat)
    (result : Except Int (Nat × Name)) (r : Except Int (Nat × Name) × Vfs) : Prop :=
  ∃ crossed, Walked flags s held d r.1 r.2 crossed ∧ Crossing crosses n crossed ∧ (Short s → r.1 = result)

theorem walk_spec (fuel : Nat) : ∀ i path d s, Inv (d ::ₘ held) s → d ∈ s.linked →
    (s.node d).kind = .dir → Starts path → path.length ≤ fuel →
    Ends (walk a flags fuel i path d s)
      (WalkEnds flags s held d (Crosses s a flags i path d) fuel (locate s a flags fuel i path d))
      (s.Crowded fuel) := by
  induction fuel with
  | zero =>
    intro i path d s _ _ _ starts short
    exact absurd (List.eq_nil_of_length_eq_zero (Nat.le_zero.mp short)) starts.1
  | succ fuel ih =>
    intro i path d s h linked dir starts length
    rw [walk, locate]
    unfold Crosses
    have next := (getNextComponent_spec (a.name i) starts).cases
    generalize getNextComponent (a.name i) path = component at next ⊢
    obtain ⟨type, name, rest⟩ := component
    dsimp only at next ⊢
    rcases next with none | ⟨some, plain, more⟩
    · rw [if_pos none, if_pos none]
      obtain ⟨result, inv, alive⟩ := dentryPut_linked h linked
      rw [result]
      exact ⟨[], .put inv alive, .none fun crosses => crosses.1 none, fun _ => rfl⟩
    rw [if_neg some, if_neg some]
    by_cases returns : isLast type flags ∧ flags &&& LAST_RETURN ≠ 0
    · rw [if_pos returns, if_pos returns]
      exact ⟨[], .stay h linked (fun _ => dir) plain (Or.inl (flag_or (Or.inl returns.2))),
        .none fun crosses => crosses.2.1 returns, fun _ => rfl⟩
    rw [if_neg returns, if_neg returns]
    refine Ends.bind ((ramfsLookup_spec h h.held_alive dir).mono (fun _ looked => looked) fun _ crowded => ?_) ?_
    · exact crowded.mono (by omega)
    rintro _ (none | @⟨c, found, inv⟩)
    · -- nothing has the name
      dsimp only
      rw [none]
      dsimp only
      by_cases create : isLast type flags ∧ flags &&& LAST_MUST_NOT_EXIST ≠ 0
      · rw [if_pos ⟨rfl, create⟩, if_pos create]
        exact ⟨[], .stay h linked (fun _ => dir) plain (Or.inl (flag_or (Or.inr create.2))), .none (by simp),
          fun _ => rfl⟩
      · rw [if_neg fun all => create all.2, if_neg create]
        obtain ⟨result, inv, alive⟩ := dentryPut_linked h linked
        rw [result]
        exact ⟨[], .put inv alive, .none (by simp), fun _ => rfl⟩
    -- the walk goes on from the child
    dsimp only
    rw [found]
    dsimp only
    have child := (child_mem found).1
    have same : SameTree s ((s.addRefcnt c 1).setParent c d) := SameTree.addRefcnt.trans .setParent
    have crosses : type ≠ .noMore ∧ ¬ (isLast type flags ∧ flags &&& LAST_RETURN ≠ 0) ∧
        (Option.some c).isSome := ⟨some, returns, rfl⟩
    have links : SameLinks s ((s.addRefcnt c 1).setParent c d) := by
      have alive := h.child_alive h.held_alive child
      have positive := h.positive alive
      exact same.links (SameLinks.setParent.alive.trans (SameLinks.addRefcnt alive (by omega)).alive)
    have inside : c ∈ ((s.addRefcnt c 1).setParent c d).linked := by
      rw [links.linked]
      exact Inv.child_linked h.held_alive child
    have alive : c ∈ (s.addRefcnt c 1).alive := inv.held_alive
    have link : c ∈ s.links := mem_links.mpr ⟨d, h.held_alive, child⟩
    rw [Multiset.cons_swap] at inv
    have holds := inv.setParent alive
    have kind := same.kind c
    have here : c ∈ ((s.addRefcnt c 1).setParent c d).links ∧
        (((s.addRefcnt c 1).setParent c d).node c).parent ≠ 0 := by
      rw [links.links, setParent_node, if_pos rfl]
      exact ⟨link, h.held_nonzero⟩
    -- what holds of a walk from the child holds of the walk from `d`
    have cross : ∀ {r : Except Int (Nat × Name) × Vfs} {crossed},
        Walked flags ((s.addRefcnt c 1).setParent c d) held c r.1 r.2 crossed →
        crossed.length ≤ fuel → WalkEnds flags s held d _ (fuel + 1) r.1 r := fun walked few =>
      ⟨_, walked.cross h.held_nonzero link links, ⟨iff_of_true (List.cons_ne_nil _ _) crosses,
        Nat.succ_le_succ few⟩, fun _ => rfl⟩
    obtain ⟨result, inv, alive'⟩ := dentryPut_linked holds inside
    rw [result, same.kind]
    by_cases exists' : isLast type flags ∧ flags &&& LAST_MUST_NOT_EXIST ≠ 0
    · rw [if_pos exists', if_pos exists']
      exact cross (.put inv alive') (Nat.zero_le _)
    rw [if_neg exists', if_neg exists']
    by_cases file : (s.node c).kind ≠ .dir
    · rw [if_pos file, if_pos file]
      by_cases wants : type = .norm ∨ type = .lastSlash ∨ flags &&& LAST_MUST_BE_DIR ≠ 0
      · rw [if_pos wants, if_pos wants]
        exact cross (.put inv alive') (Nat.zero_le _)
      · rw [if_neg wants, if_neg wants]
        refine cross (.stay holds inside (fun flag => ?_) plain (Or.inr here)) (Nat.zero_le _)
        have last : type = .last := by
          cases type with
          | last => rfl
          | noMore => exact absurd rfl some
          | norm => exact absurd (Or.inl rfl) wants
          | lastSlash => exact absurd (Or.inr (Or.inl rfl)) wants
        exact absurd ⟨Or.inl last, flag⟩ returns
    rw [if_neg file, if_neg file]
    rw [not_not] at file
    by_cases last : type = .last ∨ type = .lastSlash
    · rw [if_pos last, if_pos last]
      exact cross (.stay holds inside (fun _ => kind.trans file) plain (Or.inr here)) (Nat.zero_le _)
    rw [if_neg last, if_neg last]
    obtain ⟨starts', shorter⟩ := more last
    refine (ih (i + 1) rest c _ holds inside (kind.trans file) starts' (by omega)).mono ?_ ?_
    swap
    · intro stop crowded
      refine crowded.grown same.live (fun x => ?_) le_rfl
      rw [setParent_node, addRefcnt_node]
      dsimp only
      split <;> omega
    rintro r ⟨crossed, walked, crossing, result⟩
    refine ⟨_, walked.cross h.held_nonzero link links,
      ⟨iff_of_true (List.cons_ne_nil _ _) crosses, Nat.succ_le_succ crossing.few⟩, fun short => ?_⟩
    exact (result (same.short short)).trans (same.locate short fuel _ _ _)

/-! ### Lookups from the root -/

structure Absolute (path : List UInt8) : Prop where
  head : path.head? = some slash
  component : path.dropWhile (· = slash) ≠ []

/-- A lookup has gone on from `crossed` and holds what it has returned. -/
structure Lookup (flags : BitVec 8) (s : Vfs) (held : Multiset Nat) (r : Except Int (Nat × Name)) (t : Vfs)
    (crossed : List Nat) : Prop where
  inv : Inv (heldBy r + held) t
  tree : SameTree s t
  alive : t.alive = s.alive
  refcnt : ∀ x, (t.node x).refcnt = (s.node x).refcnt + crossed.count x +
    if r.toOption.map Prod.fst = some x then 1 else 0
  first : crossed = [] ∨ s.root ∈ crossed
  linked : ∀ e name, r = .ok (e, name) → e ∈ s.linked
  plain : ∀ e name, r = .ok (e, name) → slash ∉ name
  dir : ∀ e name, r = .ok (e, name) → flags &&& LAST_RETURN ≠ 0 → (s.node e).kind = .dir
  parent : ∀ e name, r = .ok (e, name) →
    flags &&& (LAST_RETURN ||| LAST_MUST_NOT_EXIST) ≠ 0 ∨ e ∈ s.links ∧ (t.node e).parent ≠ 0

theorem root_linked : s.root ∈ s.linked := Multiset.mem_cons_self _ _

theorem Inv.root_alive (h : Inv held s) : s.root ∈ s.alive := h.known _ (mem_refs_linked root_linked)

theorem child_addRefcnt {k : Int} (other : x ∉ (s.node d).children) :
    (s.addRefcnt x k).child d name = s.child d name := by
  unfold Vfs.child
  have children : ((s.addRefcnt x k).node d).children = (s.node d).children := by rw [addRefcnt_node]
  rw [children]
  refine List.find?_congr fun c member => ?_
  have different : c ≠ x := by
    rintro rfl
    exact other member
  rw [addRefcnt_node, if_neg different, add_zero]

def Vfs.GoesOn (s : Vfs) (a : Answers) (flags : BitVec 8) (path : List UInt8) : Prop :=
  Crosses s a flags 0 (path.dropWhile (· = slash)) s.root

/-- What a lookup returns, as long as names do not run into the rest of a dentry. -/
def Vfs.target (s : Vfs) (a : Answers) (flags : BitVec 8) (path : List UInt8) : Except Int (Nat × Name) :=
  locate s a flags (path.dropWhile (· = slash)).length 0 (path.dropWhile (· = slash)) s.root

inductive LookupEnds (flags : BitVec 8) (a : Answers) (path : List UInt8) (s : Vfs) (held : Multiset Nat) :
    Except Int (Nat × Option Name) × Vfs → Prop where
  | failed {err : Int} {t : Vfs} {crossed : List Nat} (lookup : Lookup flags s held (.error err) t crossed)
      (crosses : Crossing (s.GoesOn a flags path) path.length crossed)
      (result : Short s → .error err = s.target a flags path) : LookupEnds flags a path s held (.error err, t)
  | found {d : Nat} {name : Name} {t : Vfs} {crossed : List Nat}
      (lookup : Lookup flags s held (.ok (d, name)) t crossed)
      (crosses : Crossing (s.GoesOn a flags path) path.length crossed)
      (result : Short s → .ok (d, name) = s.target a flags path) : LookupEnds flags a path s held (.ok (d, some name), t)

theorem lookupPathCommon_spec (h : Inv held s) (absolute : Absolute path) :
    Ends (s.lookupPathCommon a path flags) (LookupEnds flags a path s held) (s.Crowded (path.length + 1)) := by
  unfold lookupPathCommon
  refine Ends.bind ((dentryGet_spec h h.root_alive).mono (fun _ post => post) fun _ crowded => crowded.mono (by omega)) ?_
  rintro _ ⟨rfl, inv⟩
  dsimp only
  rw [if_neg (not_not.mpr absolute.head), if_neg absolute.component]
  have positive := h.positive h.root_alive
  have links : SameLinks s (s.addRefcnt s.root 1) := .addRefcnt h.root_alive (by omega)
  have outside : s.root ∉ (s.node s.root).children := fun child =>
    (Multiset.nodup_cons.mp h.tree).1 (mem_links.mpr ⟨s.root, h.root_alive, child⟩)
  have linked : s.root ∈ (s.addRefcnt s.root 1).linked := by
    rw [links.linked]
    exact root_linked
  have dir : ((s.addRefcnt s.root 1).node s.root).kind = .dir := (links.kind _).trans h.top
  have shorter := List.length_dropWhile_le (fun b => decide (b = slash)) path
  refine Ends.bind ((walk_spec _ 0 _ _ _ inv linked dir (starts_dropWhile absolute.component) le_rfl).mono
    (fun _ ends => ends) fun stop crowded => ?_) ?_
  · refine crowded.grown rfl (fun x => ?_) (Nat.add_le_add_right shorter 1)
    rw [addRefcnt_node]
    dsimp only
    split <;> omega
  rintro ⟨r, t⟩ ⟨crossed, walked, crosses, result⟩
  have lookup : Lookup flags s held r t crossed := by
    refine ⟨walked.inv, SameTree.addRefcnt.trans walked.moved.tree, walked.alive.trans links.alive,
      fun x => ?_, walked.first, ?_,
      walked.plain, ?_, ?_⟩
    · have moved := walked.moved.refcnt x
      rw [addRefcnt_node] at moved
      dsimp only at moved ⊢
      generalize (if x = s.root then (1 : Int) else 0) = taken at moved
      rw [moved]
      omega
    · intro e name found
      have linked := walked.linked e name found
      rwa [links.linked] at linked
    · intro e name found flag
      have dir := walked.dir e name found flag
      rwa [links.kind] at dir
    · intro e name found
      rcases walked.parent e name found with ⟨-, -, -, flag⟩ | set
      · exact Or.inl flag
      · rw [links.links] at set
        exact Or.inr set
  have crosses' : Crossing (s.GoesOn a flags path) path.length crossed := by
    refine ⟨?_, crosses.few.trans shorter⟩
    rw [crosses.goesOn]
    unfold GoesOn Crosses
    dsimp only
    rw [child_addRefcnt outside]
  have result' : Short s → r = s.target a flags path := fun short =>
    (result (SameTree.addRefcnt.short short)).trans (SameTree.addRefcnt.locate short _ _ _ _)
  cases r with
  | error err => exact .failed lookup crosses' result'
  | ok p => exact .found lookup crosses' result'

end Landaux
