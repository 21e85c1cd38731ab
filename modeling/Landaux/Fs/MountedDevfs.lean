import Landaux.Fs.Register
import Landaux.Fs.Edits
import Landaux.Lib.Machine

/-!
# The mounted devfs

`devfs_register` on the dentries of devfs alone, which have numbers, and on those of the mounted filesystems, which
have addresses. Each registration returns the same, and the dentries stay the same but for their places.
-/

namespace Landaux
open Lib Mounts

/-- A dentry of devfs at an address. -/
structure Depicts (place : Nat → Nat) (n : DevNode Device) (e : Dentry) : Prop where
  name : e.name = n.name
  short : n.name.length ≤ 255
  kind : e.kind = n.mode
  refcnt : BitVec.ofInt 32 e.refcnt = n.refcnt
  children : e.children = n.children.map place

/-- `place` is where the dentries of devfs are, by their numbers. -/
structure Laid (place : Nat → Nat) (s : Devfs Device) (u : DevMounts) : Prop where
  live : ∀ x < s.count, place x ∈ u.live
  single : ∀ x < s.count, ∀ y < s.count, place x = place y → x = y
  inside : ∀ x < s.count, ∀ c ∈ (s.node x).children, c < s.count
  node : ∀ x < s.count, Depicts place (s.node x) (u.node (place x))
  devices : ∀ x < s.count, ∀ ops, (s.node x).ops = some ops → u.devices (place x) = ops

/-- What two functions return that make or find a dentry. -/
structure Alike (place : Nat → Nat) (devices : Nat → Device) (r : Except Int Nat × Devfs Device)
    (q : Except Int Nat × Mounts) : Prop where
  ret : q.1 = r.1.map place
  inside : ∀ c, r.1 = .ok c → c < r.2.count
  laid : Laid place r.2 ⟨q.2, devices⟩

/-- The dentries that were there stay where they were. -/
structure Extends (place place' : Nat → Nat) (s t : Devfs Device) : Prop where
  count : s.count ≤ t.count
  kept : ∀ x < s.count, place' x = place x

/-- What the allocator answers in a registration, without the addresses. -/
def RegisterAnswers.granted (b : RegisterAnswers) : DevAnswers :=
  ⟨b.name, fun i => ((b.node i).dentry.isSome, (b.node i).priv), (b.dev.dentry.isSome, b.dev.priv)⟩

/-- The new dentries from component `i` on, and that of `dev`, are at different addresses that are not in use. -/
structure RegisterAnswers.AllFresh (b : RegisterAnswers) (i : Nat) (m : Mounts) : Prop extends b.Fresh i m where
  nonnull : ∀ j, (b.node j).dentry ≠ some 0
  dev : ∀ p, b.dev.dentry = some p → p ∉ m.live ∧ p ≠ 0 ∧ ∀ j, (b.node j).dentry ≠ some p

variable {place : Nat → Nat} {s t : Devfs Device} {u : DevMounts} {m n : Mounts} {a : MountAnswers}
  {b : RegisterAnswers} {ops : Device} {d c p x i parent : Nat} {name : Name} {path : List UInt8} {kind : Kind}

theorem Extends.refl : Extends place place s s := ⟨le_rfl, fun _ _ => rfl⟩

theorem Extends.trans {place' place'' : Nat → Nat} {v : Devfs Device} (first : Extends place place' s t)
    (second : Extends place' place'' t v) : Extends place place'' s v :=
  ⟨first.count.trans second.count, fun x lt => (second.kept x (lt.trans_le first.count)).trans (first.kept x lt)⟩

theorem Depicts.string {e : Dentry} {n : DevNode Device} (depicts : Depicts place n e) : e.string = n.name := by
  have short := depicts.short
  unfold Dentry.string
  rw [depicts.name, if_pos (by omega)]

/-- Dentries that keep their places are found by the same numbers. -/
theorem Depicts.congr {other : Nat → Nat} {n : DevNode Device} {e : Dentry} (depicts : Depicts place n e)
    (same : ∀ c ∈ n.children, other c = place c) : Depicts other n e :=
  ⟨depicts.name, depicts.short, depicts.kind, depicts.refcnt,
    depicts.children.trans (List.map_congr_left fun c member => (same c member).symm)⟩

namespace Laid

/-! ### Lookups -/

theorem child (laid : Laid place s u) (inside : d < s.count) : u.toVfs.child (place d) name =
    ((s.node d).children.find? fun c => (s.node c).name = name).map place := by
  unfold Vfs.child
  rw [(laid.node d inside).children, List.find?_map]
  congr 1
  apply List.find?_congr
  intro c member
  exact congrArg (fun n => decide (n = name)) (laid.node c (laid.inside d inside c member)).string

theorem children_live (laid : Laid place s u) (inside : d < s.count) :
    ∀ c ∈ (u.node (place d)).children, c ∈ u.live := by
  intro c member
  rw [(laid.node d inside).children] at member
  obtain ⟨x, child, rfl⟩ := List.mem_map.mp member
  exact laid.live x (laid.inside d inside x child)

theorem lookedUp (laid : Laid place s u) (inside : d < s.count) :
    u.toVfs.lookedUp (place d) name = (s.child d name).map place := by
  unfold Vfs.lookedUp Devfs.child
  rw [(laid.node d inside).kind, laid.child inside]
  split
  · rfl
  · rfl

/-- Dentries that have the children they had. -/
theorem rewritten {v : DevMounts} (laid : Laid place s u) (count : t.count = s.count) (live : v.live = u.live)
    (children : ∀ x, (t.node x).children = (s.node x).children)
    (node : ∀ x < s.count, Depicts place (t.node x) (v.node (place x)))
    (devices : ∀ x < s.count, ∀ ops, (t.node x).ops = some ops → v.devices (place x) = ops) : Laid place t v := by
  refine ⟨?_, ?_, ?_, ?_, ?_⟩
  · rw [count, live]
    exact laid.live
  · rw [count]
    exact laid.single
  · intro x
    rw [count, children]
    exact laid.inside x
  · rw [count]
    exact node
  · rw [count]
    exact devices

/-- A reference more. -/
theorem get (laid : Laid place s u) (inside : c < s.count) :
    Laid place (s.setNode c { s.node c with refcnt := (s.node c).refcnt + 1 })
      ⟨{ u.toMounts with toVfs := u.toVfs.addRefcnt (place c) 1 }, u.devices⟩ := by
  have node : ∀ x, (s.setNode c { s.node c with refcnt := (s.node c).refcnt + 1 }).node x =
      { s.node x with refcnt := if x = c then (s.node x).refcnt + 1 else (s.node x).refcnt } := by
    intro x
    unfold Devfs.setNode
    dsimp only
    split
    · rename_i here
      rw [here]
    · rfl
  refine laid.rewritten rfl rfl (fun x => by rw [node]) ?node ?devices
  case node =>
    intro x below
    have depicts := laid.node x below
    change Depicts place _ ((u.toVfs.addRefcnt (place c) 1).node (place x))
    rw [node, addRefcnt_node]
    refine ⟨depicts.name, depicts.short, depicts.kind, ?_, depicts.children⟩
    dsimp only
    by_cases here : x = c
    · rw [if_pos here, if_pos (congrArg place here), BitVec.ofInt_add, depicts.refcnt]
      rfl
    · rw [if_neg here, if_neg fun same => here (laid.single x below c inside same), add_zero, depicts.refcnt]
  case devices =>
    intro x below ops
    rw [node]
    exact laid.devices x below ops

/-- The operations of a device. -/
theorem device (laid : Laid place s u) (inside : d < s.count) :
    Laid place (s.setNode d { s.node d with ops := some ops })
      ⟨u.toMounts, Function.update u.devices (place d) ops⟩ := by
  have node : ∀ x, (s.setNode d { s.node d with ops := some ops }).node x =
      { s.node x with ops := if x = d then some ops else (s.node x).ops } := by
    intro x
    unfold Devfs.setNode
    dsimp only
    split
    · rename_i here
      rw [here]
    · rfl
  refine laid.rewritten rfl rfl (fun x => by rw [node]) ?node ?devices
  case node =>
    intro x below
    have depicts := laid.node x below
    rw [node]
    exact ⟨depicts.name, depicts.short, depicts.kind, depicts.refcnt, depicts.children⟩
  case devices =>
    intro x below other
    rw [node]
    dsimp only
    by_cases here : x = d
    · rw [if_pos here, here, Function.update_self]
      exact Option.some.inj
    · rw [if_neg here, Function.update_of_ne fun same => here (laid.single x below d inside same)]
      exact laid.devices x below other

theorem lookup (laid : Laid place s u) (inside : d < s.count) :
    Ends (lookupNode (place d) name u.toMounts) (fun q => Alike place u.devices (s.devfsLookup d name) q ∧
      Extends place place s (s.devfsLookup d name).2 ∧ q.2.live = u.live) fun _ => True := by
  have depicts := laid.node d inside
  unfold lookupNode Vfs.ramfsLookup Devfs.devfsLookup
  rw [if_neg (not_not.mpr (laid.live d inside)), depicts.kind]
  by_cases dir : (s.node d).mode = .dir
  swap
  · rw [if_pos dir, if_pos dir]
    exact ⟨⟨rfl, fun _ never => (nomatch never), laid⟩, .refl, rfl⟩
  have finds : u.toVfs.findChild name (u.node (place d)).children = .ok (u.toVfs.child (place d) name) :=
    findChild_eq _ (laid.children_live inside)
  rw [if_neg (not_not.mpr dir), if_neg (not_not.mpr dir), finds, laid.child inside]
  cases found : (s.node d).children.find? fun c => (s.node c).name = name with
  | none => exact ⟨⟨rfl, fun _ never => (nomatch never), laid⟩, .refl, rfl⟩
  | some c =>
    have below := laid.inside d inside c (List.mem_of_find?_eq_some found)
    rw [Option.map_some, ok_bind]
    dsimp only
    unfold Vfs.dentryGet
    rw [if_neg (not_not.mpr (laid.live c below))]
    split
    · trivial
    · refine ⟨⟨rfl, ?_, laid.get below⟩, ⟨le_rfl, fun _ _ => rfl⟩, rfl⟩
      rintro _ ⟨⟩
      exact below

/-! ### One node more -/

theorem make (laid : Laid place s u) (inside : parent < s.count) (short : name.length ≤ 255) {e : Dentry}
    (copied : strcpyName name kind = .ok e) (made : Made u.toVfs n.toVfs (place parent) p e)
    (makes : Devfs.Makes s parent name kind t) :
    Laid (Function.update place s.count p) t ⟨n, u.devices⟩ := by
  rw [strcpyName_fits (by omega)] at copied
  cases copied
  have below : ∀ x, x < t.count → x ≠ s.count → x < s.count := by
    intro x lt other
    have count := makes.count
    omega
  have kept : ∀ x < s.count, Function.update place s.count p x = place x := fun x lt =>
    Function.update_of_ne lt.ne p place
  have here : Function.update place s.count p s.count = p := Function.update_self s.count p place
  have old : ∀ x < s.count, place x ≠ p := by
    intro x lt same
    exact made.fresh (same ▸ laid.live x lt)
  constructor
  case live =>
    intro x lt
    change _ ∈ n.live
    rw [made.live]
    by_cases new : x = s.count
    · rw [new, here]
      exact Finset.mem_insert_self p u.live
    · rw [kept x (below x lt new)]
      exact Finset.mem_insert_of_mem (laid.live x (below x lt new))
  case single =>
    intro x lt y lt' same
    by_cases new : x = s.count
    · by_cases new' : y = s.count
      · exact new.trans new'.symm
      · rw [new, here, kept y (below y lt' new')] at same
        exact absurd same.symm (old y (below y lt' new'))
    · by_cases new' : y = s.count
      · rw [new', here, kept x (below x lt new)] at same
        exact absurd same (old x (below x lt new))
      · rw [kept x (below x lt new), kept y (below y lt' new')] at same
        exact laid.single x (below x lt new) y (below y lt' new') same
  case inside =>
    intro x lt c member
    rw [makes.count]
    by_cases new : x = s.count
    · rw [new, makes.new] at member
      cases member
    · rw [makes.children_eq (below x lt new), List.mem_append] at member
      rcases member with child | added
      · have lt := laid.inside x (below x lt new) c child
        omega
      · split at added
        · rw [List.mem_singleton.mp added]
          exact Nat.lt_succ_self s.count
        · cases added
  case node =>
    intro x lt
    change Depicts _ _ (n.node _)
    rw [made.node]
    by_cases new : x = s.count
    · rw [new, here, if_pos rfl, makes.new]
      exact ⟨rfl, short, rfl, rfl, rfl⟩
    · have depicts := (laid.node x (below x lt new)).congr fun c child =>
        kept c (laid.inside x (below x lt new) c child)
      rw [kept x (below x lt new), if_neg (old x (below x lt new))]
      by_cases grown : x = parent
      · subst grown
        rw [if_pos rfl, makes.grown]
        refine ⟨depicts.name, depicts.short, depicts.kind, depicts.refcnt, ?_⟩
        rw [List.map_append, List.map_singleton, here]
        exact congrArg (· ++ [p]) depicts.children
      · rw [if_neg fun same => grown (laid.single x (below x lt new) parent inside same), makes.others x new grown]
        exact depicts
  case devices =>
    intro x lt ops
    by_cases new : x = s.count
    · rw [new, makes.new]
      exact fun never => nomatch never
    · rw [kept x (below x lt new), makes.ops_eq (below x lt new)]
      exact laid.devices x (below x lt new) ops

theorem newNode (laid : Laid place s u) (inside : parent < s.count) (kind : Kind) (short : name.length ≤ 255)
    (fresh : ∀ p, a.dentry = some p → p ∉ u.live ∧ p ≠ 0) :
    Ends (u.toMounts.newNode a (place parent) name kind) (fun q => ∃ r place',
      s.makeNode (a.dentry.isSome, a.priv) parent name kind = .ok r ∧ Alike place' u.devices r q ∧
        Extends place place' s r.2 ∧ ∀ c, r.1 = .ok c → ∃ p, a.dentry = some p ∧ q.2.live = insert p u.live)
      fun _ => True := by
  by_cases memory : a.ForNode
  swap
  · have denied : a.dentry.isSome = false ∨ a.priv = false := by
      by_contra both
      simp only [not_or, Bool.not_eq_false] at both
      exact memory both
    rw [newNode_refused memory]
    exact ⟨_, place, if_pos denied, ⟨rfl, fun _ never => (nomatch never), laid⟩, .refl, fun _ never => nomatch never⟩
  obtain ⟨p, dentry⟩ := Option.isSome_iff_exists.mp memory.1
  have priv : a.priv = true := memory.2
  have answers : Fresh { a.toAnswers with file := none } u.toVfs := ⟨fresh, fun _ never => nomatch never⟩
  have spec : Ends (u.toVfs.makeNode a.toAnswers (place parent) name kind) _ _ :=
    makeNode_spec (a := { a.toAnswers with file := none }) (laid.live parent inside) answers
  obtain ⟨t, makes, grown⟩ := Devfs.makeNode_makes kind inside short
  unfold Mounts.newNode Mounts.makeNode
  rw [dentry, priv]
  dsimp only
  rw [if_neg (by decide)]
  cases result : u.toVfs.makeNode a.toAnswers (place parent) name kind with
  | error stop => trivial
  | ok r =>
    cases spec.of_ok result with
    | full denied =>
      rcases denied with none | refused
      · cases none.symm.trans dentry
      · cases refused.symm.trans priv
    | @made q e v granted _ copied made =>
      obtain rfl : q = p := Option.some.inj (granted.symm.trans dentry)
      have alike : Alike (Function.update place s.count q) u.devices (.ok s.count, t)
          (.ok q, ⟨v, Function.update u.sb q (u.sb (place parent)), Function.update u.mnt q none, u.super⟩) := by
        refine ⟨congrArg Except.ok (Function.update_self s.count q place).symm, ?_,
          laid.make inside short copied made grown⟩
        rintro _ ⟨⟩
        rw [grown.count]
        exact Nat.lt_succ_self s.count
      refine ⟨_, _, makes, alike, ⟨?_, fun x lt => Function.update_of_ne lt.ne q place⟩,
        fun _ _ => ⟨q, rfl, made.live⟩⟩
      rw [grown.count]
      exact Nat.le_succ s.count

end Laid

/-! ### Registrations -/

theorem RegisterAnswers.AllFresh.unused_node (fresh : b.AllFresh i m) (dentry : (b.node i).dentry = some p) :
    p ∉ m.live ∧ p ≠ 0 := by
  refine ⟨fresh.unused i p le_rfl dentry, ?_⟩
  rintro rfl
  exact fresh.nonnull i dentry

theorem RegisterAnswers.AllFresh.later (fresh : b.AllFresh i m) (live : n.live = m.live) : b.AllFresh (i + 1) n := by
  refine ⟨fresh.toFresh.later live, fresh.nonnull, ?_⟩
  rw [live]
  exact fresh.dev

theorem RegisterAnswers.AllFresh.made (fresh : b.AllFresh i m) (dentry : (b.node i).dentry = some p)
    (live : n.live = insert p m.live) : b.AllFresh (i + 1) n := by
  refine ⟨fresh.toFresh.made dentry live, fresh.nonnull, fun q granted => ?_⟩
  obtain ⟨unused, nonnull, other⟩ := fresh.dev q granted
  rw [live, Finset.mem_insert, not_or]
  refine ⟨⟨?_, unused⟩, nonnull, other⟩
  rintro rfl
  exact other i dentry

theorem inDevfs_returns {α : Type} {post : α → Prop} {r : Except FsStop α} (ends : Ends r post fun _ => True) :
    Ends (inDevfs r) post fun _ => True := by
  cases r with
  | ok x => exact ends
  | error stop => trivial

/-- The registration in devfs alone returns the same, and dentries stay where they are. -/
def Registers (place : Nat → Nat) (s : Devfs Device) (r : Except DevStop (Int × Devfs Device)) (q : Int × DevMounts) :
    Prop :=
  ∃ t place', r = .ok (q.1, t) ∧ Laid place' t q.2 ∧ Extends place place' s t

namespace Laid

theorem registerLast (laid : Laid place s u) (inside : parent < s.count) (short : name.length ≤ 255)
    (fresh : b.AllFresh i u.toMounts) :
    Ends (u.registerLast b ops i name (place parent))
      (Registers place s (s.registerLast b.granted ops i name parent)) fun _ => True := by
  have first := laid.newNode inside .dir short fun p dentry => fresh.unused_node dentry
  unfold DevMounts.registerLast Devfs.registerLast
  refine Ends.bind (inDevfs_returns first) ?_
  rintro ⟨q, m⟩ ⟨⟨r, t⟩, place', makes, alike, extends', live⟩
  change Ends _ (Registers place s (s.makeNode ((b.node i).dentry.isSome, (b.node i).priv) parent name .dir >>= _)) _
  rw [makes, ok_bind]
  obtain rfl : q = r.map place' := alike.ret
  cases r with
  | error err => exact ⟨t, place', rfl, alike.laid, extends'⟩
  | ok d =>
    obtain ⟨p, dentry, lives⟩ := live d rfl
    have fresh' := (fresh.made dentry lives).dev
    have second := alike.laid.newNode (alike.inside d rfl) .file (show devName.length ≤ 255 by decide)
      fun p granted => ⟨(fresh' p granted).1, (fresh' p granted).2.1⟩
    refine Ends.bind (inDevfs_returns second) ?_
    rintro ⟨q, n⟩ ⟨⟨r, v⟩, place'', makes', alike', extends'', -⟩
    change Ends _ (Registers place s (t.makeNode (b.dev.dentry.isSome, b.dev.priv) d devName .file >>= _)) _
    rw [makes', ok_bind]
    obtain rfl : q = r.map place'' := alike'.ret
    cases r with
    | error err => trivial
    | ok dev =>
      have all : Extends place place'' s (v.setNode dev { v.node dev with ops := some ops }) :=
        extends'.trans ⟨extends''.count, extends''.kept⟩
      exact ⟨_, place'', rfl, alike'.laid.device (alike'.inside dev rfl), all⟩

theorem registerFrom (fuel : Nat) : ∀ i path parent s u place, Laid place s u → parent < s.count →
    (∀ name ∈ devNames path, name.length ≤ 255) → b.AllFresh i u.toMounts →
    Ends (u.registerFrom b ops fuel i path (place parent))
      (Registers place s (s.registerFrom b.granted ops fuel i path parent)) fun _ => True := by
  induction fuel with
  | zero => exact fun _ _ _ _ _ _ _ _ _ _ => trivial
  | succ fuel ih =>
    intro i path parent s u place laid inside short fresh
    rw [DevMounts.registerFrom, Devfs.registerFrom, show b.granted.name = b.name from rfl]
    by_cases ends : path = [] ∨ b.name i = false
    · rw [getNextComponent, if_pos ends]
      exact trivial
    rw [not_or, Bool.not_eq_false] at ends
    obtain ⟨nonempty, named⟩ := ends
    rw [named]
    have next := devNext nonempty
    generalize getNextComponent true path = component at next
    cases next with
    | last some ends only =>
      dsimp only
      rw [if_neg some, if_pos ends, if_neg some, if_pos ends]
      exact laid.registerLast inside (short _ (only ▸ List.mem_singleton_self _)) fresh
    | @norm name rest first more =>
      dsimp only
      rw [if_neg (by decide), if_neg (by decide), if_neg (by decide), if_neg (by decide)]
      rw [first] at short
      have later : ∀ name ∈ devNames rest, name.length ≤ 255 := fun name member =>
        short name (List.mem_cons_of_mem _ member)
      refine Ends.bind (inDevfs_returns (laid.lookup inside)) ?_
      rintro ⟨q, m⟩ ⟨alike, extends', live⟩
      generalize s.devfsLookup parent name = looked at alike extends'
      obtain ⟨r, t⟩ := looked
      obtain rfl : q = r.map place := alike.ret
      cases r with
      | ok c =>
        have fresh' := fresh.later live
        refine (ih (i + 1) rest c t _ place alike.laid (alike.inside c rfl) later fresh').mono ?_ fun _ => id
        rintro q ⟨v, place', same, laid, more⟩
        exact ⟨v, place', same, laid, extends'.trans more⟩
      | error err =>
        dsimp only [Except.map]
        have made := alike.laid.newNode (inside.trans_le extends'.count) .dir
          (short name List.mem_cons_self) fun p dentry => live ▸ fresh.unused_node dentry
        refine Ends.bind (inDevfs_returns made) ?_
        rintro ⟨q, n⟩ ⟨⟨r, v⟩, place', makes, alike', extends'', lives⟩
        change Ends _
          (Registers place s (t.makeNode ((b.node i).dentry.isSome, (b.node i).priv) parent name .dir >>= _)) _
        rw [makes, ok_bind]
        obtain rfl : q = r.map place' := alike'.ret
        have all := extends'.trans extends''
        cases r with
        | error err => exact ⟨v, place', rfl, alike'.laid, all⟩
        | ok c =>
          obtain ⟨p, dentry, lives⟩ := lives c rfl
          have fresh' := fresh.made dentry (lives.trans (congrArg (insert p) live))
          refine (ih (i + 1) rest c v _ place' alike'.laid (alike'.inside c rfl) later fresh').mono ?_ fun _ => id
          rintro q ⟨w, place'', same, laid, more⟩
          exact ⟨w, place'', same, laid, all.trans more⟩

theorem reached {names : List Name} (laid : Laid place s u) (nonempty : 0 < s.count)
    (reached : Lib.follow s.child 0 names = some x) : x < s.count := by
  apply follow_invariant (P := (· < s.count)) nonempty _ reached
  intro x b y below edge
  exact laid.inside x below y (Devfs.child_mem edge).2.1

/-- Names lead to the same dentries. -/
theorem follow (laid : Laid place s u) (names : List Name) : ∀ x < s.count,
    Lib.follow u.toVfs.lookedUp (place x) names = (Lib.follow s.child x names).map place := by
  induction names with
  | nil => exact fun _ _ => rfl
  | cons name names ih =>
    intro x below
    rw [Lib.follow, Lib.follow, laid.lookedUp below]
    cases found : s.child x name with
    | none => rfl
    | some c => exact ih c (laid.inside x below c (Devfs.child_mem found).2.1)

end Laid

/-! ### Runs -/

theorem mountRoot_laid {fs : Nat} (devices : Nat → Device) (mounted : m.mountRoot a fs = .ok (0, n)) :
    ∃ root, a.dentry = some root ∧ Laid (fun _ => root) .mounted ⟨n, devices⟩ := by
  unfold mountRoot at mounted
  cases dentry : a.dentry with
  | none =>
    rw [dentry] at mounted
    cases mounted
  | some root =>
    rw [dentry] at mounted
    dsimp only at mounted
    split at mounted
    swap
    · cases mounted
    obtain rfl := (Prod.mk.inj (Except.ok.inj mounted)).2
    refine ⟨root, rfl, ⟨?_, ?_, ?_, ?_, ?_⟩⟩
    · exact fun _ _ => Finset.mem_insert_self root m.live
    · intro x below y below' _
      exact (Nat.lt_one_iff.mp below).trans (Nat.lt_one_iff.mp below').symm
    · exact fun _ _ _ never => nomatch never
    · intro x below
      change Depicts _ _ (if root = root then _ else _)
      rw [if_pos rfl]
      exact ⟨rfl, (by decide : 1 ≤ 255), rfl, rfl, rfl⟩
    · exact fun _ _ _ never => nomatch never

/-- A registration that returns: its components fit, and its memory is not in use. -/
def MountedStep (root : Nat) (u : DevMounts) (e : (List UInt8 × Device) × Int) (t : DevMounts) : Prop :=
  ∃ b, (∀ name ∈ devNames e.1.1, name.length ≤ 255) ∧ b.AllFresh 0 u.toMounts ∧
    u.devfsRegister b root e.1.1 e.1.2 = .ok (e.2, t)

def DevfsStep (s : Devfs Device) (e : (List UInt8 × Device) × Int) (t : Devfs Device) : Prop :=
  ∃ a, s.devfsRegister a e.1.1 e.1.2 = .ok (e.2, t)

/-- The type of the dentry that the names lead to from `root`, and the operations of a device there. -/
def DevMounts.entry (u : DevMounts) (root : Nat) (names : List Name) : Option (Kind × Device) :=
  (follow u.toVfs.lookedUp root names).map fun x => ((u.node x).kind, u.devices x)

theorem Laid.entry (laid : Laid place s u) (nonempty : 0 < s.count) (names : List Name) :
    (u.entry (place 0) names).map Prod.fst = (s.entry names).map Prod.fst ∧
      ∀ kind ops, s.entry names = some (kind, some ops) → u.entry (place 0) names = some (kind, ops) := by
  unfold DevMounts.entry Devfs.entry
  rw [laid.follow names 0 nonempty]
  cases reached : Lib.follow s.child 0 names with
  | none => exact ⟨rfl, fun _ _ never => nomatch never⟩
  | some x =>
    have below := laid.reached nonempty reached
    refine ⟨congrArg some (laid.node x below).kind, ?_⟩
    intro kind ops here
    obtain ⟨rfl, registered⟩ := Prod.mk.inj (Option.some.inj here)
    rw [Option.map_some, Option.map_some, (laid.node x below).kind, laid.devices x below ops registered]

/-- What is registered in a mounted devfs is found by the names that lead to it in devfs alone. -/
theorem mounted_devfs {fs root : Nat} {devices : Nat → Device} {events : List ((List UInt8 × Device) × Int)}
    (mounted : m.mountRoot a fs = .ok (0, n)) (dentry : a.dentry = some root)
    (run : Run (MountedStep root) ⟨n, devices⟩ events u) :
    ∃ s, Run DevfsStep .mounted events s ∧ ∀ names, (u.entry root names).map Prod.fst = (s.entry names).map Prod.fst ∧
      ∀ kind ops, s.entry names = some (kind, some ops) → u.entry root names = some (kind, ops) := by
  have simulates : ∀ u e u' s, (∃ place, Laid place s u ∧ 0 < s.count ∧ place 0 = root) → MountedStep root u e u' →
      ∃ t, DevfsStep s e t ∧ ∃ place, Laid place t u' ∧ 0 < t.count ∧ place 0 = root := by
    rintro u e u' s ⟨place, laid, nonempty, rfl⟩ ⟨b, short, fresh, returns⟩
    have registers : Ends (u.devfsRegister b (place 0) e.1.1 e.1.2)
        (Registers place s (s.devfsRegister b.granted e.1.1 e.1.2)) fun _ => True :=
      laid.registerFrom _ 0 _ 0 s u place nonempty short fresh
    obtain ⟨t, place', same, laid, more⟩ := registers.of_ok returns
    exact ⟨t, ⟨_, same⟩, place', laid, nonempty.trans_le more.count, more.kept 0 nonempty⟩
  obtain ⟨root', granted, start⟩ := mountRoot_laid devices mounted
  obtain rfl := Option.some.inj (granted.symm.trans dentry)
  obtain ⟨s, run', place, laid, nonempty, rfl⟩ := run.simulate simulates ⟨_, start, Nat.one_pos, rfl⟩
  exact ⟨s, run', laid.entry nonempty⟩

end Landaux
