import Landaux.Fs.PathSpec

/-!
# Edits of the tree

A dentry is made, taken out of its directory, opened or closed. Every pointer is still counted then.
-/

namespace Landaux
open Lib Vfs

variable {s t u : Vfs} {held : Multiset Nat} {d c p q x : Nat} {name : Name} {n : Dentry}
  {a : Answers} {kind : Kind} {f : File} {data : FileData} {k : Int}

/-- The allocator gives memory that is not in use. -/
structure Fresh (a : Answers) (s : Vfs) : Prop where
  dentry : ∀ p, a.dentry = some p → p ∉ s.live ∧ p ≠ 0
  file : ∀ p, a.file = some p → p ∉ s.opened

/-! ### A new dentry -/

theorem strcpyName_fits (fits : name.length ≤ 256) :
    strcpyName name kind = .ok ⟨name, 0, 0, kind, [], .new⟩ := by
  unfold strcpyName
  rw [if_pos (by omega), List.take_of_length_le fits, List.drop_eq_nil_of_le fits,
    List.drop_eq_nil_of_le (by omega)]
  rfl

theorem strcpyName_ok (copied : strcpyName name kind = .ok n) : n = {
    name := name.take 256
    parent := ofBytes ((name.drop 256).take 8)
    refcnt := int32 (ofBytes ((name.drop 264).take 4))
    kind := kind
    children := []
    data := .new } := by
  unfold strcpyName at copied
  split at copied
  · exact (Except.ok.inj copied).symm
  · cases copied

/-- The copy of a name that ends before the reference count leaves it 0. -/
theorem strcpyName_refcnt (copied : strcpyName name kind = .ok n) (short : name.length < 264) : n.refcnt = 0 := by
  rw [strcpyName_ok copied]
  dsimp only
  rw [List.drop_eq_nil_of_le short.le]
  rfl

theorem int32_emod {x : Nat} : int32 x % 256 = (x : Int) % 256 := by
  unfold int32
  rw [BitVec.toInt_eq_toNat_bmod, BitVec.toNat_ofNat, Int.bmod_def]
  split <;> omega

theorem toBytes_succ {n x : Nat} : toBytes (n + 1) x = UInt8.ofNat x :: toBytes n (x / 256) := by
  unfold toBytes
  rw [List.range_succ_eq_map, List.map_cons, List.map_map, Nat.pow_zero, Nat.div_one]
  refine congrArg _ (List.map_congr_left fun i _ => ?_)
  simp only [Function.comp_apply, Nat.pow_succ', Nat.div_div_eq_div_mul]

theorem toBytes_zero {n : Nat} : toBytes n 0 = List.replicate n 0 := by
  unfold toBytes
  simp

theorem toBytes_ofBytes (bytes : List UInt8) : ∀ n, bytes.length ≤ n →
    toBytes n (ofBytes bytes) = bytes ++ List.replicate (n - bytes.length) 0 := by
  induction bytes with
  | nil => exact fun n _ => toBytes_zero
  | cons b bytes ih =>
    intro n enough
    obtain ⟨n, rfl⟩ := Nat.exists_eq_add_of_le' (Nat.one_le_of_lt enough)
    have bound := b.toNat_lt
    have value : ofBytes (b :: bytes) = b.toNat + 256 * ofBytes bytes := rfl
    have low : UInt8.ofNat (b.toNat + 256 * ofBytes bytes) = b := by
      apply UInt8.toNat.inj
      rw [UInt8.toNat_ofNat']
      omega
    rw [toBytes_succ, value, low, show (b.toNat + 256 * ofBytes bytes) / 256 = ofBytes bytes by omega,
      ih n (Nat.le_of_succ_le_succ enough), List.length_cons, Nat.add_sub_add_right]
    rfl

theorem takeWhile_stop {bytes rest : List UInt8} :
    (bytes ++ 0 :: rest).takeWhile (· ≠ 0) = bytes.takeWhile (· ≠ 0) := by
  rw [List.takeWhile_append]
  simp only [ne_eq, decide_not, List.takeWhile_cons, decide_true, Bool.not_true, Bool.false_eq_true, if_false,
    List.append_nil, ite_eq_right_iff]
  intro all
  exact (List.takeWhile_prefix _).eq_of_length all |>.symm

/-- What follows the first 256 bytes: it is read back as long as it does not come to the count, of which the low
byte is one more than was copied there. -/
theorem read_back (tail : List UInt8) : (toBytes 8 (ofBytes (tail.take 8)) ++
    toBytes 4 ((int32 (ofBytes ((tail.drop 8).take 4)) + 1) % 2 ^ 32).toNat).takeWhile (· ≠ 0) = tail ↔
      tail.length < 8 ∧ 0 ∉ tail := by
  by_cases short : tail.length < 8
  · obtain ⟨k, gap⟩ : ∃ k, 8 - tail.length = k + 1 := Nat.exists_eq_add_of_lt (by omega : 0 < 8 - tail.length) |>.imp
      fun k eq => by omega
    rw [List.take_of_length_le short.le, toBytes_ofBytes tail 8 short.le, gap, List.replicate_succ, List.append_assoc,
      List.cons_append, takeWhile_stop, List.takeWhile_eq_self_iff]
    simp only [short, true_and, ne_eq, decide_not, Bool.not_eq_eq_eq_not, Bool.not_true, decide_eq_false_iff_not]
    exact ⟨fun all zero => all 0 zero rfl, fun none x member is => none (is ▸ member)⟩
  refine iff_of_false (fun found => ?_) fun both => short both.1
  have eight : (tail.take 8).length = 8 := by
    rw [List.length_take]
    omega
  rw [toBytes_ofBytes _ 8 eight.le, eight, Nat.sub_self, List.replicate_zero, List.append_nil, toBytes_succ,
    List.takeWhile_append] at found
  split at found
  · have rest := congrArg (List.drop 8) found
    rw [List.drop_left' eight] at rest
    generalize tail.drop 8 = after at rest
    cases after with
    | nil => cases rest
    | cons b bytes =>
      rw [List.takeWhile_cons] at rest
      split at rest
      · have same := (List.cons.inj rest).1
        have value : ofBytes (b :: bytes.take 3) = b.toNat + 256 * ofBytes (bytes.take 3) := rfl
        have narrow := int32_emod (x := b.toNat + 256 * ofBytes (bytes.take 3))
        have number := congrArg UInt8.toNat same
        rw [UInt8.toNat_ofNat', List.take_succ_cons, value] at number
        omega
      · cases rest
  · rename_i stops
    have le := (List.takeWhile_prefix (l := tail.take 8) fun x => decide (x ≠ 0)).length_le
    rw [found] at le stops
    omega

/-- `strcmp` finds the copy of a name that has not run into the reference count. -/
theorem strcpyName_string (copied : strcpyName name kind = .ok n) :
    ({ n with refcnt := n.refcnt + 1 } : Dentry).string = name ↔ name.length < 264 ∧ 0 ∉ name.drop 256 := by
  rw [strcpyName_ok copied]
  unfold Dentry.string
  dsimp only
  rw [List.length_take]
  by_cases inside : name.length < 256
  · rw [if_pos (by omega), List.take_of_length_le inside.le, List.drop_eq_nil_of_le inside.le]
    exact iff_of_true rfl ⟨by omega, List.not_mem_nil⟩
  rw [if_neg (by omega), show name.drop 264 = (name.drop 256).drop 8 by rw [List.drop_drop]]
  have whole : name.take 256 ++ name.drop 256 = name := List.take_append_drop ..
  have size : (name.drop 256).length = name.length - 256 := List.length_drop
  generalize name.take 256 = front at *
  generalize name.drop 256 = tail at *
  rw [← whole, List.append_right_inj, read_back, whole, size]
  exact and_congr_left fun _ => by omega

/-- `p` is a new child of `d`; `n` is what `strcpy` has made of it. -/
structure Made (s t : Vfs) (d p : Nat) (n : Dentry) : Prop where
  fresh : p ∉ s.live
  nonnull : p ≠ 0
  root : t.root = s.root
  live : t.live = insert p s.live
  opened : t.opened = s.opened
  file : t.file = s.file
  node : ∀ x, t.node x = if x = p then { n with refcnt := n.refcnt + 1 }
    else if x = d then { s.node d with children := (s.node d).children ++ [p] } else s.node x

namespace Made

theorem new (made : Made s t d p n) : t.node p = { n with refcnt := n.refcnt + 1 } := by
  rw [made.node, if_pos rfl]

/-- Only the children of an old dentry can be other ones than before. -/
theorem old (made : Made s t d p n) (other : x ≠ p) : t.node x = { s.node x with
    children := if x = d then (s.node x).children ++ [p] else (s.node x).children } := by
  rw [made.node, if_neg other]
  by_cases same : x = d
  · rw [if_pos same, if_pos same, same]
  · rw [if_neg same, if_neg same]

theorem ne_new (made : Made s t d p n) (live : x ∈ s.live) : x ≠ p := by
  rintro rfl
  exact made.fresh live

theorem addRefcnt (made : Made s t d p n) (live : d ∈ s.live) :
    Made (s.addRefcnt d k) (t.addRefcnt d k) d p n where
  fresh := made.fresh
  nonnull := made.nonnull
  root := made.root
  live := made.live
  opened := made.opened
  file := made.file
  node := fun x => by
    rw [addRefcnt_node, addRefcnt_node, addRefcnt_node, made.node]
    by_cases new : x = p
    · have other : x ≠ d := fun same => made.ne_new live (same.symm.trans new)
      rw [if_pos new, if_pos new, if_neg other, add_zero]
    · rw [if_neg new, if_neg new]
      by_cases same : x = d
      · rw [if_pos same, if_pos same, if_pos same, if_pos rfl]
      · rw [if_neg same, if_neg same, if_neg same, add_zero]

theorem alive (made : Made s t d p n) (counted : n.refcnt = 0) : t.alive = insert p s.alive := by
  ext x
  rw [Finset.mem_insert, mem_alive, mem_alive, made.live, Finset.mem_insert]
  by_cases new : x = p
  · rw [new, made.new, counted]
    exact iff_of_true ⟨Or.inl rfl, (by norm_num : (0 : Int) + 1 ≠ 0)⟩ (Or.inl rfl)
  · rw [made.old new]
    exact ⟨fun both => Or.inr ⟨both.1.resolve_left new, both.2⟩,
      fun either => have both := either.resolve_left new; ⟨Or.inr both.1, both.2⟩⟩

theorem links (made : Made s t d p n) (counted : n.refcnt = 0) (childless : n.children = [])
    (alive : d ∈ s.alive) : t.links = p ::ₘ s.links := by
  have dead : p ∉ s.alive := fun alive => made.fresh (mem_alive.mp alive).1
  have old : ∀ x ∈ s.alive, (t.node x).children =
      if x = d then (s.node x).children ++ [p] else (s.node x).children := fun x member => by
    rw [made.old (made.ne_new (mem_alive.mp member).1)]
  have others : ∑ x ∈ s.alive.erase d, ((t.node x).children : Multiset Nat) =
      ∑ x ∈ s.alive.erase d, ((s.node x).children : Multiset Nat) := by
    apply Finset.sum_congr rfl
    intro x member
    obtain ⟨other, inside⟩ := Finset.mem_erase.mp member
    rw [old x inside, if_neg other]
  unfold Vfs.links
  rw [made.alive counted, Finset.sum_insert dead, made.new, ← Finset.add_sum_erase _ _ alive,
    ← Finset.add_sum_erase s.alive _ alive, others, old d alive, if_pos rfl]
  dsimp only
  rw [childless, Multiset.coe_nil, zero_add, ← Multiset.coe_add, Multiset.coe_singleton,
    ← Multiset.singleton_add]
  abel

theorem parents (made : Made s t d p n) (counted : n.refcnt = 0) (orphan : n.parent = 0) :
    t.parents = s.parents := by
  have dead : p ∉ s.alive := fun alive => made.fresh (mem_alive.mp alive).1
  have mine : (t.node p).parentRef = 0 := by
    rw [made.new]
    exact if_pos orphan
  unfold Vfs.parents
  rw [made.alive counted, Finset.sum_insert dead, mine, zero_add]
  apply Finset.sum_congr rfl
  intro x member
  apply parentRef_congr
  rw [made.old (made.ne_new (mem_alive.mp member).1)]

/-- A new dentry has one reference, that of the list of children. -/
theorem inv (made : Made s t d p n) (h : Inv held s) (linked : d ∈ s.linked) (dir : (s.node d).kind = .dir)
    (counted : n.refcnt = 0) (orphan : n.parent = 0) (childless : n.children = []) : Inv held t := by
  have alive := h.known d (mem_refs_linked linked)
  have links : t.linked = p ::ₘ s.linked := by
    unfold Vfs.linked
    rw [made.links counted childless alive, made.root, Multiset.cons_swap]
  have refs : t.refs held = p ::ₘ s.refs held := by
    unfold Vfs.refs Vfs.handles
    rw [links, made.parents counted orphan, made.opened, made.file]
    simp only [Multiset.cons_add]
  have unknown : p ∉ s.refs held := fun member => made.fresh (mem_alive.mp (h.known p member)).1
  constructor
  case nonnull =>
    rw [made.live, Finset.mem_insert, not_or]
    exact ⟨made.nonnull.symm, h.nonnull⟩
  case known =>
    intro x member
    rw [refs, Multiset.mem_cons] at member
    rw [made.alive counted, Finset.mem_insert]
    exact member.imp_right (h.known x)
  case counted =>
    intro x member
    rw [made.alive counted, Finset.mem_insert] at member
    by_cases new : x = p
    · rw [refs, new, Multiset.count_cons_self, Multiset.count_eq_zero.mpr unknown, made.new, counted]
      rfl
    · rw [refs, Multiset.count_cons_of_ne new, made.old new]
      exact h.counted x (member.resolve_left new)
  case tree =>
    rw [links]
    exact Multiset.nodup_cons.mpr ⟨fun member => unknown (mem_refs_linked member), h.tree⟩
  case leaf =>
    intro x live unlinked
    rw [links, Multiset.mem_cons, not_or] at unlinked
    rw [made.live, Finset.mem_insert] at live
    have other : x ≠ d := by
      rintro rfl
      exact unlinked.2 linked
    rw [made.old unlinked.1, if_neg other]
    exact h.leaf x (live.resolve_left unlinked.1) unlinked.2
  case top =>
    rw [made.root, made.old (made.ne_new (mem_alive.mp h.root_alive).1)]
    exact h.top
  case dirs =>
    intro x live nonempty
    rw [made.live, Finset.mem_insert] at live
    by_cases new : x = p
    · rw [new, made.new] at nonempty
      exact absurd childless nonempty
    · rw [made.old new] at nonempty ⊢
      dsimp only at nonempty ⊢
      by_cases here : x = d
      · rw [here]
        exact dir
      · rw [if_neg here] at nonempty
        exact h.dirs x (live.resolve_left new) nonempty
  case closes =>
    rw [made.opened, made.file]
    exact h.closes

end Made

inductive MakeEnds (a : Answers) (s : Vfs) (d : Nat) (name : Name) (kind : Kind) : Int × Vfs → Prop where
  | full (denied : a.dentry = none ∨ a.priv = false) : MakeEnds a s d name kind (-ENOMEM, s)
  | made {p : Nat} {n : Dentry} {t : Vfs} (granted : a.dentry = some p) (priv : a.priv = true)
      (copied : strcpyName name kind = .ok n) (made : Made s t d p n) : MakeEnds a s d name kind (0, t)

/-- A count overflows that is within `n` of 2^31, or one of the names given to new dentries is too long;
a count can overflow then, too. -/
def Vfs.Exceeds (s : Vfs) (n : Nat) (names : Name → Prop) (stop : FsStop) : Prop :=
  s.Crowded n stop ∨ ∃ name, names name ∧ 256 < name.length

theorem Vfs.Exceeds.mono {names given : Name → Prop} {i j : Nat} {stop : FsStop} (exceeds : t.Exceeds i names stop)
    (crowded : t.Crowded i stop → s.Crowded j stop)
    (also : ∀ name, names name → given name) : s.Exceeds j given stop :=
  exceeds.imp crowded fun ⟨name, named, long⟩ => ⟨name, also name named, long⟩

theorem makeNode_spec (live : d ∈ s.live) (fresh : Fresh a s) :
    Ends (s.makeNode a d name kind) (MakeEnds a s d name kind)
      (fun _ => a.dentry ≠ none ∧ a.priv = true ∧ 256 < name.length) := by
  unfold makeNode
  cases granted : a.dentry with
  | none => exact .full (Or.inl granted)
  | some p =>
    obtain ⟨unused, nonnull⟩ := fresh.dentry p granted
    dsimp only
    cases priv : a.priv with
    | false => exact .full (Or.inr priv)
    | true =>
      cases copied : strcpyName name kind with
      | error stop =>
        unfold strcpyName at copied
        split at copied
        · cases copied
        · rename_i long
          cases copied
          exact ⟨Option.some_ne_none p, rfl, by omega⟩
      | ok n =>
        change Ends (if d ∉ s.live then _ else _) _ _
        rw [if_neg (not_not.mpr live)]
        have different : d ≠ p := by
          rintro rfl
          exact unused live
        unfold dentryGet
        split
        · rename_i gone
          exact absurd (Finset.mem_insert_self p s.live) gone
        split
        · rename_i large
          refine ⟨Option.some_ne_none p, rfl, ?_⟩
          by_contra fits
          -- the count of a new dentry is 0
          rw [strcpyName_fits (not_lt.mp fits)] at copied
          cases copied
          rw [setNode_node, if_neg different.symm, setNode_node, if_pos rfl] at large
          exact absurd large (by decide : ¬ (0 + 1 : Int) ≥ 2 ^ 31)
        refine .made granted priv copied ⟨unused, nonnull, rfl, rfl, rfl, rfl, fun x => ?_⟩
        rw [addRefcnt_node, setNode_node, setNode_node, setNode_node, if_neg different]
        by_cases new : x = p
        · have other : x ≠ d := fun same => different (same.symm.trans new)
          rw [if_neg other, if_pos new, if_pos new, if_pos new]
        · rw [if_neg new, if_neg new, if_neg new]
          by_cases same : x = d
          · rw [if_pos same, add_zero]
          · rw [if_neg same, add_zero]

/-! ### A dentry taken out of its directory -/

theorem listDel_node : (s.listDel d).node x = { s.node x with children := (s.node x).children.erase d } := rfl

theorem alive_listDel : (s.listDel d).alive = s.alive := rfl

theorem Inv.listDel_links (h : Inv held s) (link : d ∈ s.links) : d ::ₘ (s.listDel d).links = s.links := by
  have nodup : s.links.Nodup := (Multiset.nodup_cons.mp h.tree).2
  obtain ⟨y, alive, child⟩ := mem_links.mp link
  have split : s.links = (s.node y).children + ∑ x ∈ s.alive.erase y, ((s.node x).children : Multiset Nat) :=
    (Finset.add_sum_erase _ _ alive).symm
  have others : ∑ x ∈ s.alive.erase y, (((s.listDel d).node x).children : Multiset Nat) =
      ∑ x ∈ s.alive.erase y, ((s.node x).children : Multiset Nat) := by
    apply Finset.sum_congr rfl
    intro x member
    have elsewhere : d ∉ (s.node x).children := fun also => by
      rw [split] at nodup
      refine Multiset.disjoint_left.mp (Multiset.nodup_add.mp nodup).2.2 (Multiset.mem_coe.mpr child) ?_
      exact Multiset.mem_sum.mpr ⟨x, member, also⟩
    rw [listDel_node, List.erase_of_not_mem elsewhere]
  rw [split, Vfs.links, alive_listDel, ← Finset.add_sum_erase _ _ alive, others, listDel_node,
    ← Multiset.cons_add, ← Multiset.coe_erase, Multiset.cons_erase (Multiset.mem_coe.mpr child)]

/-- The reference of the list of children is held instead. -/
theorem Inv.listDel (h : Inv held s) (link : d ∈ s.links) (childless : (s.node d).children = []) :
    Inv (d ::ₘ held) (s.listDel d) := by
  have links := h.listDel_links link
  have parents : (s.listDel d).parents = s.parents :=
    Finset.sum_congr rfl fun x _ => parentRef_congr rfl
  have linked : d ::ₘ (s.listDel d).linked = s.linked := by
    unfold Vfs.linked
    rw [Multiset.cons_swap, links]
    rfl
  have refs : (s.listDel d).refs (d ::ₘ held) = s.refs held := by
    rw [refs_cons]
    unfold Vfs.refs
    rw [parents, ← linked]
    change d ::ₘ (_ + _ + s.handles + _) = _
    simp only [Multiset.cons_add]
  constructor
  case nonnull => exact h.nonnull
  case known =>
    rw [refs]
    exact h.known
  case counted =>
    rw [refs]
    exact h.counted
  case tree =>
    have tree := h.tree
    rw [← linked] at tree
    exact (Multiset.nodup_cons.mp tree).2
  case leaf =>
    intro x live unlinked
    rw [listDel_node]
    by_cases same : x = d
    · rw [same, childless]
      rfl
    · have before : x ∉ s.linked := by
        rw [← linked, Multiset.mem_cons, not_or]
        exact ⟨same, unlinked⟩
      rw [h.leaf x live before]
      rfl
  case top => exact h.top
  case dirs =>
    intro x live nonempty
    apply h.dirs x live
    intro none
    rw [listDel_node, none] at nonempty
    exact nonempty rfl
  case closes => exact h.closes

theorem setData_node : (s.setNode d { s.node d with data := data }).node x =
    { s.node x with data := if x = d then data else (s.node x).data } := by
  rw [setNode_node]
  split
  · rename_i same
    rw [same]
  · rfl

theorem freeData_node : (s.freeData d).node x = { s.node x with data := if x = d then
    { (s.node d).data with data := (s.node d).data.data.map fun b => { b with size := 0 } }
    else (s.node x).data } := setData_node

/-- Data are no pointers to dentries. -/
theorem Inv.setData (h : Inv held s) : Inv held (s.setNode d { s.node d with data := data }) := by
  have alive : (s.setNode d { s.node d with data := data }).alive = s.alive :=
    Finset.filter_congr fun x _ => by rw [setData_node]
  have same : SameLinks s (s.setNode d { s.node d with data := data }) :=
    ⟨rfl, rfl, alive, fun x => by rw [setData_node], fun x => by rw [setData_node], rfl, rfl⟩
  have refs : (s.setNode d { s.node d with data := data }).refs held = s.refs held :=
    same.refs fun x _ => by rw [setData_node]
  apply h.move same
  · rw [refs]
    exact h.known
  · intro x live
    rw [refs, setData_node]
    exact h.counted x live

theorem Inv.freeData (h : Inv held s) : Inv held (s.freeData d) := h.setData

/-- A file that stays on its dentry. -/
theorem Inv.setFile (h : Inv held s) (points : f.dentry = (s.file q).dentry) (once : f.refcnt = (s.file q).refcnt) :
    Inv held { s with file := fun p => if p = q then f else s.file p } := by
  have handles : ({ s with file := fun p => if p = q then f else s.file p } : Vfs).handles = s.handles := by
    unfold Vfs.handles
    refine Finset.sum_congr rfl fun p _ => ?_
    dsimp only
    by_cases same : p = q
    · rw [if_pos same, points, same]
    · rw [if_neg same]
  have refs : ({ s with file := fun p => if p = q then f else s.file p } : Vfs).refs held = s.refs held := by
    unfold Vfs.refs
    rw [handles]
    rfl
  exact {
    nonnull := h.nonnull
    known := by
      rw [refs]
      exact h.known
    counted := by
      rw [refs]
      exact h.counted
    tree := h.tree
    leaf := h.leaf
    top := h.top
    dirs := h.dirs
    closes := fun p member => by
      dsimp only
      by_cases same : p = q
      · rw [if_pos same, once, ← same]
        exact h.closes p member
      · rw [if_neg same]
        exact h.closes p member }

/-! ### Files -/

structure Opened (s t : Vfs) (c q : Nat) (f : File) (data : FileData) : Prop where
  root : t.root = s.root
  live : t.live = s.live
  opened : t.opened = insert q s.opened
  file : t.file = fun p => if p = q then f else s.file p
  node : ∀ x, t.node x = if x = c then { s.node c with refcnt := (s.node c).refcnt + 1, data := data }
    else s.node x

namespace Opened

theorem node_eq (opens : Opened s t c q f data) : t.node x = { s.node x with
    refcnt := (s.node x).refcnt + (if x = c then 1 else 0)
    data := if x = c then data else (s.node x).data } := by
  rw [opens.node]
  by_cases same : x = c
  · rw [if_pos same, if_pos same, if_pos same, same]
  · rw [if_neg same, if_neg same, if_neg same, add_zero]

theorem addRefcnt (opens : Opened s t c q f data) :
    Opened (s.addRefcnt d k) (t.addRefcnt d k) c q f data where
  root := opens.root
  live := opens.live
  opened := opens.opened
  file := opens.file
  node := fun x => by
    rw [addRefcnt_node, addRefcnt_node, addRefcnt_node, opens.node]
    by_cases same : x = c
    · rw [if_pos same, if_pos same, same, add_right_comm]
    · rw [if_neg same, if_neg same]

/-- The new file has a reference. -/
theorem inv (opens : Opened s t c q f data) (h : Inv held s) (alive : c ∈ s.alive) (unused : q ∉ s.opened)
    (points : f.dentry = c) (once : f.refcnt = 1) : Inv held t := by
  have positive := h.positive alive
  have same : t.alive = s.alive := by
    unfold Vfs.alive
    rw [opens.live]
    apply Finset.filter_congr
    intro x live
    rw [opens.node_eq]
    dsimp only
    by_cases same : x = c
    · rw [if_pos same, same]
      exact iff_of_true (by omega) (by omega)
    · rw [if_neg same, add_zero]
  have old : ∀ p ∈ s.opened, t.file p = s.file p := fun p member => by
    have other : p ≠ q := by
      rintro rfl
      exact unused member
    rw [opens.file]
    exact if_neg other
  have linked : t.linked = s.linked := by
    unfold Vfs.linked Vfs.links
    rw [opens.root, same]
    exact congrArg _ (Finset.sum_congr rfl fun x _ => by rw [opens.node_eq])
  have parents : t.parents = s.parents := by
    unfold Vfs.parents
    rw [same]
    exact Finset.sum_congr rfl fun x _ => parentRef_congr (by rw [opens.node_eq])
  have handles : t.handles = c ::ₘ s.handles := by
    unfold Vfs.handles
    rw [opens.opened, Finset.sum_insert unused, Finset.sum_congr rfl fun p member => by rw [old p member],
      opens.file, ← Multiset.singleton_add]
    dsimp only
    rw [if_pos rfl, points]
  have refs : t.refs held = c ::ₘ s.refs held := by
    unfold Vfs.refs
    rw [linked, parents, handles]
    simp only [Multiset.cons_add, Multiset.add_cons]
  constructor
  case nonnull =>
    rw [opens.live]
    exact h.nonnull
  case known =>
    intro x member
    rw [refs, Multiset.mem_cons] at member
    rw [same]
    exact member.elim (fun eq => eq ▸ alive) (h.known x)
  case counted =>
    intro x member
    rw [same] at member
    have counted := h.counted x member
    rw [refs, Multiset.count_cons, opens.node_eq]
    dsimp only
    split <;> push_cast <;> omega
  case tree =>
    rw [linked]
    exact h.tree
  case leaf =>
    rw [opens.live, linked]
    intro x
    rw [opens.node_eq]
    exact h.leaf x
  case top =>
    rw [opens.root, opens.node_eq]
    exact h.top
  case dirs =>
    rw [opens.live]
    intro x
    rw [opens.node_eq]
    exact h.dirs x
  case closes =>
    intro p member
    rw [opens.opened, Finset.mem_insert] at member
    by_cases new : p = q
    · rw [opens.file]
      dsimp only
      rw [if_pos new]
      exact once
    · have before := member.resolve_left new
      rw [old p before]
      exact h.closes p before

end Opened

/-- The reference of a file that is closed is held instead. -/
theorem Inv.close (h : Inv held s) (open' : q ∈ s.opened) (f : File) :
    Inv ((s.file q).dentry ::ₘ held) ((s.setFile q f).kfreeFile q) := by
  have others : ((s.setFile q f).kfreeFile q).handles = ∑ p ∈ s.opened.erase q, {(s.file p).dentry} :=
    Finset.sum_congr rfl fun p inside => by
      unfold Vfs.setFile Vfs.kfreeFile
      dsimp only
      rw [if_neg (Finset.ne_of_mem_erase inside)]
  have handles : ((s.setFile q f).kfreeFile q).handles + {(s.file q).dentry} = s.handles := by
    rw [others, add_comm]
    exact Finset.add_sum_erase s.opened (fun p => ({(s.file p).dentry} : Multiset Nat)) open'
  have refs : ((s.setFile q f).kfreeFile q).refs ((s.file q).dentry ::ₘ held) = s.refs held := by
    unfold Vfs.refs
    rw [← handles, ← Multiset.singleton_add]
    change s.linked + s.parents + _ + _ = s.linked + s.parents + _ + held
    abel
  exact {
    nonnull := h.nonnull
    known := by
      rw [refs]
      exact h.known
    counted := by
      rw [refs]
      exact h.counted
    tree := h.tree
    leaf := h.leaf
    top := h.top
    dirs := h.dirs
    closes := fun p member => by
      have other : ((s.setFile q f).kfreeFile q).file p = s.file p := if_neg (Finset.ne_of_mem_erase member)
      rw [other]
      exact h.closes p (Finset.mem_of_mem_erase member) }

end Landaux
