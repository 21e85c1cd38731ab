import Landaux.Fs.Devfs

/-!
# Registered devices

Every device that is registered under a path is found there, as long as no path is an earlier one, a
directory of an earlier one, or leads through the `dev` of an earlier one.
-/

namespace Landaux

open Lib

def plenty : DevAnswers := ⟨fun _ => true, fun _ => (true, true), (true, true)⟩

namespace Devfs

variable {α : Type} {s t : Devfs α} {parent i fuel x c d : Nat} {name : Name} {ops : α} {base p r rest : List Name}
  {path : List UInt8} {ret : Int} {o : Option α}

/-! ### Prefixes of a path -/

theorem entry_some (reached : follow s.child 0 r = some x) : s.entry r = some ((s.node x).mode, (s.node x).ops) := by
  unfold entry
  rw [reached]
  rfl

theorem entry_none : s.entry r = none ↔ follow s.child 0 r = none := Option.map_eq_none_iff

/-- What leads on is a directory. -/
theorem prefix_dir (wf : Wf s) (reached : follow s.child 0 base = some d) (dir : (s.node d).mode = .dir)
    (before : r <+: base) : s.entry r = some (.dir, none) := by
  obtain ⟨rest, rfl⟩ := before
  rw [follow_append] at reached
  obtain ⟨y, first, later⟩ := Option.bind_eq_some_iff.mp reached
  have mode : (s.node y).mode = .dir := by
    cases rest with
    | nil =>
      obtain rfl := Option.some.inj later
      exact dir
    | cons b rest =>
      obtain ⟨z, edge, -⟩ := Option.bind_eq_some_iff.mp later
      exact (child_mem edge).1
  rw [entry_some first, mode, wf.plain y (wf.reached first) mode]

/-- Nothing is below a file. -/
theorem below_file (file : s.entry r = some (.file, o)) (more : rest ≠ []) : s.entry (r ++ rest) = none := by
  obtain ⟨x, reached, kind⟩ := Option.map_eq_some_iff.mp file
  have mode : (s.node x).mode = .file := congrArg Prod.fst kind
  rw [entry_none, follow_append, reached, Option.bind_some]
  cases rest with
  | nil => exact absurd rfl more
  | cons b rest =>
    have none : s.child x b = none := by
      unfold child
      rw [mode]
      exact if_neg (by decide)
    rw [follow, none]
    rfl

/-- The path is free: nothing is there, and no file is on the way. -/
structure Free (s : Devfs α) (p : List Name) : Prop where
  missing : s.entry p = none
  way : ∀ r o, r <+: p → s.entry r ≠ some (.file, o)

/-! ### Registration at a free path -/

/-- The device is there, with the directories on the way to it, and the rest is as it was. -/
structure Added (s : Devfs α) (p : List Name) (ops : α) (t : Devfs α) : Prop where
  wf : Wf t
  distinct : Distinct s → Distinct t
  entry : ∀ r, t.entry r = if r = p ++ [devName] then some (.file, some ops)
    else if r <+: p then some (.dir, none) else s.entry r

/-- A new directory that is found. -/
theorem Makes.entry_seen (makes : Makes s parent name .dir t) (wf : Wf s)
    (reached : follow s.child 0 base = some parent) (dir : (s.node parent).mode = .dir)
    (missing : s.child parent name = none) :
    t.entry r = if r = base ++ [name] then some (.dir, none) else s.entry r := by
  have seen := makes.follow_seen wf reached dir missing (r := r)
  split
  · rename_i here
    rw [if_pos here] at seen
    rw [entry_some seen, makes.new]
  · rename_i other
    rw [if_neg other] at seen
    exact makes.entry_eq wf seen

/-- A new file that gets its operations. -/
theorem Makes.entry_device (makes : Makes s parent name .file t) (wf : Wf s)
    (reached : follow s.child 0 base = some parent) (dir : (s.node parent).mode = .dir)
    (missing : s.child parent name = none) :
    (t.setNode s.count { t.node s.count with ops := some ops }).entry r =
      if r = base ++ [name] then some (.file, some ops) else s.entry r := by
  have same : SameNames t (t.setNode s.count { t.node s.count with ops := some ops }) := sameNames_setNode rfl rfl rfl
  have seen := makes.follow_seen wf reached dir missing (r := r)
  split
  · rename_i here
    rw [if_pos here, ← same.child] at seen
    rw [entry_some seen]
    simp [setNode, makes.new]
  · rename_i other
    rw [if_neg other] at seen
    rw [← makes.entry_eq wf seen]
    unfold entry
    rw [same.child, seen]
    cases found : follow s.child 0 r with
    | none => rfl
    | some x =>
      have old := (wf.reached found).ne
      simp [setNode, old]

/-- The two nodes that the last component makes. -/
structure Pair (s : Devfs α) (parent : Nat) (name : Name) (ops : α) (u v t : Devfs α) : Prop where
  dir : Makes s parent name .dir u
  dev : Makes u s.count devName .file v
  eq : t = v.setNode u.count { v.node u.count with ops := some ops }
  wf : Wf u
  inside : s.count < u.count

theorem registerLast_pair (ops : α) (i : Nat) (wf : Wf s) (inside : parent < s.count) (short : name.length ≤ 255) :
    ∃ u v t, s.registerLast plenty ops i name parent = .ok (0, t) ∧ Pair s parent name ops u v t := by
  obtain ⟨u, made, makes⟩ := makeNode_makes .dir inside short
  have inside' : s.count < u.count := by
    have count := makes.count
    omega
  obtain ⟨v, made', makes'⟩ := makeNode_makes .file inside'
    (show devName.length ≤ 255 by decide)
  refine ⟨u, v, _, ?_, makes, makes', rfl, makes.wf wf inside short, inside'⟩
  unfold registerLast
  dsimp only [plenty]
  rw [made, ok_bind]
  dsimp only
  rw [made']
  rfl

theorem registerLast_long (long : ¬ name.length ≤ 255) :
    s.registerLast plenty ops i name parent = .error .overrun := by
  unfold registerLast
  dsimp only [plenty]
  rw [makeNode_overrun long]
  rfl

theorem registerLast_added (wf : Wf s) (reached : follow s.child 0 base = some parent)
    (dir : (s.node parent).mode = .dir) (missing : s.child parent name = none) (short : name.length ≤ 255) :
    ∃ t, s.registerLast plenty ops i name parent = .ok (0, t) ∧ Added s (base ++ [name]) ops t := by
  obtain ⟨u, v, t, result, pair⟩ := registerLast_pair ops i wf (wf.reached reached) short
  refine ⟨t, result, ?_⟩
  have makes := pair.dir
  have makes' := pair.dev
  have inside := pair.inside
  obtain rfl := pair.eq
  have reached' : follow u.child 0 (base ++ [name]) = some s.count := by
    rw [makes.follow_seen wf reached dir missing, if_pos rfl]
  have dir' : (u.node s.count).mode = .dir := by
    rw [makes.new]
  have same : SameNames v (v.setNode u.count { v.node u.count with ops := some ops }) := sameNames_setNode rfl rfl rfl
  constructor
  case wf =>
    have wf'' := makes'.wf pair.wf inside (by decide)
    refine same.wf wf'' fun x below file => ?_
    have other : x ≠ u.count := by
      rintro rfl
      rw [makes'.new] at file
      cases file
    have kept : (v.setNode u.count { v.node u.count with ops := some ops }).node x = v.node x := if_neg other
    rw [kept]
    exact wf''.plain x below file
  case distinct =>
    intro before
    have first := makes.distinct wf before (wf.reached reached) dir missing
    exact same.distinct (makes'.distinct pair.wf first inside dir' makes.child_new)
  case entry =>
    intro r
    rw [makes'.entry_device pair.wf reached' dir' makes.child_new, makes.entry_seen wf reached dir missing]
    by_cases last : r = base ++ [name] ++ [devName]
    · rw [if_pos last, if_pos last]
    rw [if_neg last, if_neg last]
    by_cases here : r = base ++ [name]
    · rw [if_pos here, if_pos (here ▸ List.prefix_rfl)]
    rw [if_neg here]
    split
    · rename_i before
      exact prefix_dir wf reached dir ((List.prefix_concat_iff.mp before).resolve_left here)
    · rfl

/-- One turn of the loop: the last component, or another one that is found or made. -/
inductive Turn (α : Type) (path : List UInt8) : Prop where
  | last {name : Name} (only : components path = [name])
      (eq : ∀ (ops : α) fuel i parent s, registerFrom plenty ops (fuel + 1) i path parent s =
        s.registerLast plenty ops i name parent) : Turn α path
  | norm {name : Name} {rest : List UInt8} (first : components path = name :: components rest) (starts : Starts rest)
      (shorter : rest.length < path.length)
      (found : ∀ (ops : α) fuel i parent s c, s.child parent name = some c →
        registerFrom plenty ops (fuel + 1) i path parent s =
          registerFrom plenty ops fuel (i + 1) rest c (s.setNode c { s.node c with refcnt := (s.node c).refcnt + 1 }))
      (missing : ∀ (ops : α) fuel i parent s d t, s.child parent name = none →
        s.makeNode (true, true) parent name .dir = .ok (.ok d, t) →
        registerFrom plenty ops (fuel + 1) i path parent s = registerFrom plenty ops fuel (i + 1) rest d t)
      (overrun : ∀ (ops : α) fuel i parent s stop, s.child parent name = none →
        s.makeNode (true, true) parent name .dir = .error stop →
        registerFrom plenty ops (fuel + 1) i path parent s = .error stop) : Turn α path

theorem turn (starts : Starts path) : Turn α path := by
  have delivers := getNextComponent_delivers starts
  have ends : ∀ type name rest, getNextComponent true path = (type, name, rest) → type ≠ .noMore → type ≠ .norm →
      components path = [name] → Turn α path := by
    intro type name rest next some ends only
    refine .last only fun ops fuel i parent s => ?_
    rw [registerFrom]
    dsimp only [plenty]
    rw [next]
    dsimp only
    rw [if_neg some, if_pos ends]
  generalize next : getNextComponent true path = component at delivers
  cases delivers with
  | last only => exact ends _ _ _ next (by decide) (by decide) only
  | lastSlash only => exact ends _ _ _ next (by decide) (by decide) only
  | norm first starts' trailing shorter =>
    refine .norm first starts' shorter (fun ops fuel i parent s c found => ?_)
      (fun ops fuel i parent s d t missing made => ?_) fun ops fuel i parent s stop missing failed => ?_
    · rw [registerFrom]
      dsimp only [plenty]
      rw [next]
      dsimp only
      rw [if_neg (by decide), if_neg (by decide), devfsLookup_found found]
    · obtain ⟨err, lookup⟩ := devfsLookup_missing missing
      rw [registerFrom]
      dsimp only [plenty]
      rw [next]
      dsimp only
      rw [if_neg (by decide), if_neg (by decide), lookup]
      dsimp only
      rw [made]
      rfl
    · obtain ⟨err, lookup⟩ := devfsLookup_missing missing
      rw [registerFrom]
      dsimp only [plenty]
      rw [next]
      dsimp only
      rw [if_neg (by decide), if_neg (by decide), lookup]
      dsimp only
      rw [failed]
      rfl

/-- The components that are missing are made, and then the device. -/
theorem registerFrom_added (wf : Wf s) (reached : follow s.child 0 base = some parent)
    (dir : (s.node parent).mode = .dir) (starts : Starts path) (enough : path.length < fuel)
    (short : ∀ n ∈ components path, n.length ≤ 255) (free : Free s (base ++ components path)) :
    ∃ t, registerFrom plenty ops fuel i path parent s = .ok (0, t) ∧ Added s (base ++ components path) ops t := by
  induction fuel generalizing s i path parent base with
  | zero => omega
  | succ fuel ih =>
    cases turn (α := α) starts with
    | @last name only eq =>
      rw [only] at free short ⊢
      rw [eq]
      have missing : s.child parent name = none := by
        have none := entry_none.mp free.missing
        rwa [follow_snoc, reached] at none
      exact registerLast_added wf reached dir missing (short name List.mem_cons_self)
    | @norm name rest first starts' shorter found missing =>
      rw [first] at short
      rw [first, List.append_cons] at free ⊢
      have short' : ∀ n ∈ components rest, n.length ≤ 255 := fun n member => short n (List.mem_cons_of_mem _ member)
      have way : base ++ [name] <+: base ++ [name] ++ components rest := List.prefix_append _ _
      cases child : s.child parent name with
      | some c =>
        rw [found _ _ _ _ _ c child]
        have reached' : follow s.child 0 (base ++ [name]) = some c := by
          rw [follow_snoc, reached]
          exact child
        have dir' : (s.node c).mode = .dir := by
          cases mode : (s.node c).mode with
          | dir => rfl
          | file => exact absurd ((entry_some reached').trans (by rw [mode])) (free.way _ _ way)
        have same : SameNames s (s.setNode c { s.node c with refcnt := (s.node c).refcnt + 1 }) := sameNames_get
        obtain ⟨t, result, added⟩ := ih (wf_get wf) (same.child ▸ reached') (same.mode c ▸ dir') starts' (by omega)
          short' ⟨entry_get.trans free.missing, fun r o before same =>
            free.way r o before (entry_get.symm.trans same)⟩
        exact ⟨t, result, added.wf, fun before => added.distinct (same.distinct before), fun r =>
          (added.entry r).trans (by rw [entry_get])⟩
      | none =>
        obtain ⟨u, made, makes⟩ := makeNode_makes .dir (wf.reached reached) (short name List.mem_cons_self)
        rw [missing _ _ _ _ _ _ u child made]
        have entry := fun r => makes.entry_seen wf reached dir child (r := r)
        have longer : base ++ [name] ++ components rest ≠ base ++ [name] := fun same => by
          have lengths := congrArg List.length same
          have more := List.length_pos_of_ne_nil starts'.components_ne_nil
          rw [List.length_append] at lengths
          omega
        have reached' : follow u.child 0 (base ++ [name]) = some s.count := by
          rw [makes.follow_seen wf reached dir child, if_pos rfl]
        have dir' : (u.node s.count).mode = .dir := by
          rw [makes.new]
        obtain ⟨t, result, added⟩ := ih (makes.wf wf (wf.reached reached) (short name List.mem_cons_self)) reached' dir'
          starts' (by omega) short' ⟨by rw [entry, if_neg longer]; exact free.missing, fun r o before => by
            rw [entry]
            split
            · simp
            · exact free.way r o before⟩
        refine ⟨t, result, added.wf,
          fun before => added.distinct (makes.distinct wf before (wf.reached reached) dir child), fun r => ?_⟩
        rw [added.entry, entry]
        split
        · rfl
        split
        · rfl
        · rename_i other
          have aside : r ≠ base ++ [name] := fun here => other (here ▸ way)
          rw [if_neg aside]

/-! ### Registration at any other path -/

/-- A name that is too long is never there. -/
theorem Wf.child_long (wf : Wf s) (inside : parent < s.count) (long : ¬ name.length ≤ 255) :
    s.child parent name = none := by
  cases found : s.child parent name with
  | none => rfl
  | some c =>
    obtain ⟨-, member, rfl⟩ := child_mem found
    exact absurd (wf.short c (wf.inside parent inside c member).2) long

theorem registerFrom_long (wf : Wf s) (inside : parent < s.count) (starts : Starts path) (enough : path.length < fuel)
    (long : ∃ n ∈ components path, ¬ n.length ≤ 255) :
    registerFrom plenty ops fuel i path parent s = .error .overrun := by
  induction fuel generalizing s i path parent with
  | zero => omega
  | succ fuel ih =>
    obtain ⟨n, member, long⟩ := long
    cases turn (α := α) starts with
    | @last name only eq =>
      rw [only] at member
      obtain rfl := List.mem_singleton.mp member
      rw [eq]
      exact registerLast_long long
    | @norm name rest first starts' shorter found missing overrun =>
      by_cases short : name.length ≤ 255
      · rw [first] at member
        have later : n ∈ components rest := (List.mem_cons.mp member).resolve_left fun same => long (same ▸ short)
        cases child : s.child parent name with
        | some c =>
          rw [found _ _ _ _ _ c child]
          exact ih (wf_get wf) (wf.inside parent inside c (child_mem child).2.1).2 starts' (by omega) ⟨n, later, long⟩
        | none =>
          obtain ⟨u, made, makes⟩ := makeNode_makes .dir inside short
          rw [missing _ _ _ _ _ _ u child made]
          have count := makes.count
          exact ih (makes.wf wf inside short) (by omega) starts' (by omega) ⟨n, later, long⟩
      · exact overrun _ _ _ _ _ _ (wf.child_long inside short) (makeNode_overrun short)

/-- A path that ends in `d` ends in a file. -/
def Lost (s : Devfs α) (d : Nat) : Prop := ∀ path, follow s.child 0 path = some d → (s.node d).mode = .file

/-- What is made where no path leads changes nothing. -/
theorem registerLast_hidden (wf : Wf s) (inside : parent < s.count) (hidden : ∀ path,
    follow s.child 0 path = some parent → (s.node parent).mode = .file ∨ s.child parent name ≠ none)
    (result : s.registerLast plenty ops i name parent = .ok (ret, t)) : t.entry r = s.entry r := by
  by_cases short : name.length ≤ 255
  · obtain ⟨u, v, t', made, pair⟩ := registerLast_pair ops i wf inside short
    obtain rfl := congrArg Prod.snd (Except.ok.inj (made.symm.trans result))
    obtain rfl := pair.eq
    have first : ∀ path, follow u.child 0 path = follow s.child 0 path := fun path =>
      pair.dir.follow_hidden wf hidden
    have second : ∀ path, follow v.child 0 path = follow u.child 0 path := fun path => by
      apply pair.dev.follow_hidden pair.wf
      intro path reached
      rw [first] at reached
      exact absurd (wf.reached reached) (lt_irrefl _)
    have same : SameNames v (v.setNode u.count { v.node u.count with ops := some ops }) := sameNames_setNode rfl rfl rfl
    rw [← pair.dir.entry_eq wf (first r), ← pair.dev.entry_eq pair.wf (second r)]
    unfold entry
    rw [same.child]
    cases reached : follow v.child 0 r with
    | none => rfl
    | some x =>
      rw [second] at reached
      have old := (pair.wf.reached reached).ne
      simp [setNode, old]
  · rw [registerLast_long short] at result
    cases result

theorem registerFrom_lost (wf : Wf s) (inside : parent < s.count) (lost : Lost s parent) (starts : Starts path)
    (enough : path.length < fuel) (result : registerFrom plenty ops fuel i path parent s = .ok (ret, t)) :
    t.entry r = s.entry r := by
  induction fuel generalizing s i path parent with
  | zero => omega
  | succ fuel ih =>
    cases turn (α := α) starts with
    | @last name only eq =>
      rw [eq] at result
      exact registerLast_hidden wf inside (fun path reached => Or.inl (lost path reached)) result
    | @norm name rest first starts' shorter found missing overrun =>
      cases child : s.child parent name with
      | some c =>
        rw [found _ _ _ _ _ c child] at result
        obtain ⟨dir, member, -⟩ := child_mem child
        obtain ⟨positive, below⟩ := wf.inside parent inside c member
        have unreached : ∀ path, follow s.child 0 path ≠ some c := by
          intro path reached
          cases path using List.reverseRecOn with
          | nil =>
            obtain rfl := Option.some.inj reached
            exact lt_irrefl _ positive
          | append_singleton path b =>
            obtain ⟨y, before, edge⟩ := follow_snoc_some.mp reached
            obtain rfl := wf.single y (wf.reached before) parent inside c (child_mem edge).2.1 member
            have file := lost path before
            rw [dir] at file
            cases file
        have same : SameNames s (s.setNode c { s.node c with refcnt := (s.node c).refcnt + 1 }) := sameNames_get
        refine (ih (wf_get wf) below (fun path reached => ?_) starts' (by omega) result).trans entry_get
        rw [same.child] at reached
        exact absurd reached (unreached path)
      | none =>
        by_cases short : name.length ≤ 255
        · obtain ⟨u, made, makes⟩ := makeNode_makes .dir inside short
          rw [missing _ _ _ _ _ _ u child made] at result
          have count := makes.count
          have kept : ∀ path, follow u.child 0 path = follow s.child 0 path := fun path =>
            makes.follow_hidden wf fun path reached => Or.inl (lost path reached)
          refine (ih (makes.wf wf inside short) (by omega) (fun path reached => ?_) starts' (by omega) result).trans
            (makes.entry_eq wf (kept r))
          rw [kept] at reached
          exact absurd (wf.reached reached) (lt_irrefl _)
        · rw [overrun _ _ _ _ _ _ child (makeNode_overrun short)] at result
          cases result

/-- Behind a file nothing is added. -/
theorem registerFrom_file (wf : Wf s) (reached : follow s.child 0 base = some parent)
    (dir : (s.node parent).mode = .dir) (starts : Starts path) (enough : path.length < fuel)
    (file : s.entry p = some (.file, o)) (way : p <+: base ++ components path) (more : p ≠ base ++ components path)
    (result : registerFrom plenty ops fuel i path parent s = .ok (ret, t)) : t.entry r = s.entry r := by
  have beyond : ¬ p <+: base := by
    intro before
    rw [prefix_dir wf reached dir before] at file
    cases file
  induction fuel generalizing s i path parent base with
  | zero => omega
  | succ fuel ih =>
    cases turn (α := α) starts with
    | @last name only eq =>
      rw [only] at way more
      exact absurd ((List.prefix_concat_iff.mp way).resolve_left more) beyond
    | @norm name rest first starts' shorter found missing overrun =>
      rw [first, List.append_cons] at way more
      have on : base ++ [name] <+: p := by
        rcases List.prefix_or_prefix_of_prefix way (List.prefix_append _ _) with short | long
        · rcases List.prefix_concat_iff.mp short with same | before
          · exact same ▸ List.prefix_rfl
          · exact absurd before beyond
        · exact long
      obtain ⟨tail, rfl⟩ := on
      obtain ⟨x, passes, -⟩ := Option.map_eq_some_iff.mp file
      rw [follow_append] at passes
      obtain ⟨c, reached', -⟩ := Option.bind_eq_some_iff.mp passes
      have child : s.child parent name = some c := by
        have edge := reached'
        rwa [follow_snoc, reached] at edge
      rw [found _ _ _ _ _ c child] at result
      have same : SameNames s (s.setNode c { s.node c with refcnt := (s.node c).refcnt + 1 }) := sameNames_get
      cases mode : (s.node c).mode with
      | file =>
        exact (registerFrom_lost (wf_get wf) (wf.reached reached') (fun _ _ => (same.mode c).trans mode) starts'
          (by omega) result).trans entry_get
      | dir =>
        refine (ih (wf_get wf) (same.child ▸ reached') ((same.mode c).trans mode) starts' (by omega)
          (entry_get.trans file) way more result fun before => ?_).trans entry_get
        have kind := prefix_dir wf reached' mode before
        rw [file] at kind
        cases kind

/-- A second directory of the same name is made. -/
theorem registerFrom_shadowed (wf : Wf s) (reached : follow s.child 0 base = some parent)
    (starts : Starts path) (enough : path.length < fuel) (there : s.entry (base ++ components path) ≠ none)
    (result : registerFrom plenty ops fuel i path parent s = .ok (ret, t)) : ¬ Distinct t := by
  induction fuel generalizing s i path parent base with
  | zero => omega
  | succ fuel ih =>
    cases turn (α := α) starts with
    | @last name only eq =>
      rw [eq] at result
      rw [only] at there
      have inside := wf.reached reached
      have child : s.child parent name ≠ none := by
        intro none
        rw [Ne, entry_none, follow_snoc, reached] at there
        exact there none
      obtain ⟨c, found⟩ := Option.ne_none_iff_exists'.mp child
      obtain ⟨-, member, named⟩ := child_mem found
      have below := (wf.inside parent inside c member).2
      have short : name.length ≤ 255 := named ▸ wf.short c below
      obtain ⟨u, v, t', made, pair⟩ := registerLast_pair ops i wf inside short
      obtain rfl := congrArg Prod.snd (Except.ok.inj (made.symm.trans result))
      obtain rfl := pair.eq
      have same : SameNames v (v.setNode u.count { v.node u.count with ops := some ops }) := sameNames_setNode rfl rfl rfl
      have count := pair.dev.count
      have inside' := pair.inside
      have list : (v.node parent).children = (s.node parent).children ++ [s.count] := by
        rw [pair.dev.children_eq (by omega), pair.dir.children_eq inside, if_pos rfl, if_neg inside.ne, List.append_nil]
      have old : (v.node c).name = name := by
        rw [pair.dev.name_eq (by omega), pair.dir.name_eq below, named]
      have new : (v.node s.count).name = name := by
        rw [pair.dev.name_eq pair.inside, pair.dir.new]
      intro distinct
      have nodup := distinct parent (by rw [same.count, count]; omega)
      rw [same.children, list] at nodup
      simp only [same.name, List.map_append] at nodup
      exact List.disjoint_of_nodup_append nodup (List.mem_map.mpr ⟨c, member, old⟩)
        (List.mem_map.mpr ⟨s.count, List.mem_singleton_self _, new⟩)
    | @norm name rest first starts' shorter found missing overrun =>
      rw [first, List.append_cons] at there
      obtain ⟨_, whole⟩ := Option.ne_none_iff_exists'.mp there
      obtain ⟨x, passes, -⟩ := Option.map_eq_some_iff.mp whole
      rw [follow_append] at passes
      obtain ⟨c, reached', -⟩ := Option.bind_eq_some_iff.mp passes
      have child : s.child parent name = some c := by
        have edge := reached'
        rwa [follow_snoc, reached] at edge
      rw [found _ _ _ _ _ c child] at result
      have same : SameNames s (s.setNode c { s.node c with refcnt := (s.node c).refcnt + 1 }) := sameNames_get
      exact ih (wf_get wf) (same.child ▸ reached') starts' (by omega) (by rwa [entry_get]) result

theorem register_added (ops : α) (wf : Wf s) (starts : Starts path)
    (short : ∀ n ∈ components path, n.length ≤ 255) (free : Free s (components path)) :
    ∃ t, s.devfsRegister plenty path ops = .ok (0, t) ∧ Added s (components path) ops t :=
  registerFrom_added wf (show follow s.child 0 [] = some 0 from rfl) wf.root starts (Nat.lt_succ_self _) short free

/-- The device is found afterwards, and no two names are the same, exactly when the path is free and its
names fit. -/
theorem register_iff (wf : Wf s) (distinct : Distinct s) (starts : Starts path) :
    (∃ t, s.devfsRegister plenty path ops = .ok (0, t) ∧ Distinct t ∧
      t.entry (components path ++ [devName]) = some (.file, some ops)) ↔
      (∀ n ∈ components path, n.length ≤ 255) ∧ Free s (components path) := by
  have reached : follow s.child 0 [] = some 0 := rfl
  constructor
  · rintro ⟨t, result, distinct', device⟩
    unfold devfsRegister at result
    refine ⟨fun n member => ?_, ?_, fun r o way file => ?_⟩
    · by_contra long
      rw [registerFrom_long wf wf.nonempty starts (Nat.lt_succ_self _) ⟨n, member, long⟩] at result
      cases result
    · by_contra there
      exact registerFrom_shadowed wf reached starts (Nat.lt_succ_self _) there result distinct'
    · by_cases whole : r = components path
      · have there : s.entry (components path) ≠ none := by
          rw [← whole, file]
          simp
        exact registerFrom_shadowed wf reached starts (Nat.lt_succ_self _) there result distinct'
      · rw [registerFrom_file wf reached wf.root starts (Nat.lt_succ_self _) file way whole result] at device
        obtain ⟨rest, same⟩ := way
        rw [← same, List.append_assoc, below_file file (by simp)] at device
        cases device
  · rintro ⟨short, free⟩
    obtain ⟨t, result, added⟩ := register_added ops wf starts short free
    refine ⟨t, result, added.distinct distinct, ?_⟩
    rw [added.entry]
    exact if_pos rfl

/-! ### Sequences of registrations -/

abbrev Call (α : Type) := List UInt8 × α

/-- Every device registered is found under its path, and the names in every directory are different. -/
structure Shown (s : Devfs α) (done : List (Call α)) : Prop where
  found : ∀ call ∈ done, s.entry (components call.1 ++ [devName]) = some (.file, some call.2)
  distinct : Distinct s

/-- After each of the calls all devices registered so far are found. -/
def AllShown : List (Call α) → Devfs α → List (Call α) → Prop
  | _, _, [] => True
  | done, s, call :: calls => ∃ t, s.devfsRegister plenty call.1 call.2 = .ok (0, t) ∧ Shown t (done ++ [call]) ∧
      AllShown (done ++ [call]) t calls

/-- The path of `later` is no directory on the way to the device of `earlier`, nor behind that device. -/
def Apart (earlier later : Call α) : Prop :=
  ¬ components later.1 <+: components earlier.1 ∧ ¬ components earlier.1 ++ [devName] <+: components later.1

/-- Names fit, and every path is apart from the ones before it. -/
structure Good (calls : List (Call α)) : Prop where
  short : ∀ call ∈ calls, ∀ n ∈ components call.1, n.length ≤ 255
  apart : calls.Pairwise Apart

/-- The tree holds the registered devices, and the directories on the way to them. -/
structure Holds (s : Devfs α) (done : List (Call α)) : Prop where
  wf : Wf s
  distinct : Distinct s
  file : ∀ r o, s.entry r = some (.file, o) ↔ ∃ call ∈ done, r = components call.1 ++ [devName] ∧ o = some call.2
  there : ∀ r, s.entry r ≠ none ↔ r = [] ∨ ∃ call ∈ done, r <+: components call.1 ++ [devName]

variable {done calls : List (Call α)} {call : Call α}

theorem mounted_entry : (mounted : Devfs α).entry r = if r = [] then some (.dir, none) else none := by
  cases r with
  | nil => rfl
  | cons b r => rfl

theorem holds_mounted : Holds (mounted : Devfs α) [] := by
  constructor
  case wf =>
    constructor
    case nonempty => exact Nat.one_pos
    case root => rfl
    case inside => exact fun _ _ _ member => absurd member List.not_mem_nil
    case single => exact fun _ _ _ _ _ member => absurd member List.not_mem_nil
    case plain => exact fun _ _ _ => rfl
    case short => exact fun _ _ => (by decide : 1 ≤ 255)
  case distinct => exact fun _ _ => List.nodup_nil
  case file =>
    intro r o
    rw [mounted_entry]
    split
    · simp
    · simp
  case there =>
    intro r
    rw [mounted_entry]
    simp

theorem Holds.shown (holds : Holds s done) : Shown s done :=
  ⟨fun call member => (holds.file _ _).mpr ⟨call, member, rfl, rfl⟩, holds.distinct⟩

theorem Holds.free_iff (holds : Holds s done) (starts : Starts call.1) :
    Free s (components call.1) ↔ ∀ earlier ∈ done, Apart earlier call := by
  constructor
  · intro free earlier member
    constructor
    · intro before
      have there := (holds.there _).mpr (Or.inr ⟨earlier, member, before.trans (List.prefix_append _ _)⟩)
      exact there free.missing
    · intro behind
      exact free.way _ _ behind ((holds.file _ _).mpr ⟨earlier, member, rfl, rfl⟩)
  · intro apart
    constructor
    · by_contra there
      rcases (holds.there _).mp there with empty | ⟨earlier, member, before⟩
      · exact starts.components_ne_nil empty
      · rcases List.prefix_concat_iff.mp before with same | before
        · exact (apart earlier member).2 (same ▸ List.prefix_rfl)
        · exact (apart earlier member).1 before
    · intro r o way file
      obtain ⟨earlier, member, rfl, -⟩ := (holds.file _ _).mp file
      exact (apart earlier member).2 way

theorem Holds.added (holds : Holds s done) (free : Free s (components call.1))
    (added : Added s (components call.1) call.2 t) : Holds t (done ++ [call]) := by
  have last : call ∈ done ++ [call] := by simp
  constructor
  case wf => exact added.wf
  case distinct => exact added.distinct holds.distinct
  case file =>
    intro r o
    rw [added.entry]
    by_cases device : r = components call.1 ++ [devName]
    · rw [if_pos device]
      constructor
      · intro same
        obtain ⟨-, rfl⟩ := Prod.ext_iff.mp (Option.some.inj same)
        exact ⟨call, last, device, rfl⟩
      · rintro ⟨other, member, place, rfl⟩
        rcases List.mem_append.mp member with before | now
        · have there := (holds.there r).mpr (Or.inr ⟨other, before, place ▸ List.prefix_rfl⟩)
          have same := (List.append_inj' (device.symm.trans place) rfl).1
          have whole : components call.1 <+: components other.1 ++ [devName] := same ▸ List.prefix_append _ _
          exact absurd free.missing ((holds.there _).mpr (Or.inr ⟨other, before, whole⟩))
        · rw [List.mem_singleton.mp now]
    rw [if_neg device]
    by_cases way : r <+: components call.1
    · rw [if_pos way]
      apply iff_of_false (by simp)
      rintro ⟨other, member, place, rfl⟩
      rcases List.mem_append.mp member with before | now
      · exact free.way r _ way ((holds.file r _).mpr ⟨other, before, place, rfl⟩)
      · exact device (List.mem_singleton.mp now ▸ place)
    · rw [if_neg way, holds.file]
      constructor
      · rintro ⟨other, member, place, same⟩
        exact ⟨other, List.mem_append_left _ member, place, same⟩
      · rintro ⟨other, member, place, same⟩
        rcases List.mem_append.mp member with before | now
        · exact ⟨other, before, place, same⟩
        · exact absurd (List.mem_singleton.mp now ▸ place) device
  case there =>
    intro r
    rw [added.entry]
    by_cases device : r = components call.1 ++ [devName]
    · rw [if_pos device]
      exact iff_of_true (by simp) (Or.inr ⟨call, last, device ▸ List.prefix_rfl⟩)
    rw [if_neg device]
    by_cases way : r <+: components call.1
    · rw [if_pos way]
      exact iff_of_true (by simp) (Or.inr ⟨call, last, way.trans (List.prefix_append _ _)⟩)
    · rw [if_neg way, holds.there]
      constructor
      · rintro (empty | ⟨other, member, before⟩)
        · exact Or.inl empty
        · exact Or.inr ⟨other, List.mem_append_left _ member, before⟩
      · rintro (empty | ⟨other, member, before⟩)
        · exact Or.inl empty
        · rcases List.mem_append.mp member with earlier | now
          · exact Or.inr ⟨other, earlier, before⟩
          · rw [List.mem_singleton.mp now] at before
            exact absurd (List.prefix_concat_iff.mp before) (by simp [device, way])

theorem allShown_from (holds : Holds s done) (starts : ∀ call ∈ calls, Starts call.1) :
    AllShown done s calls ↔ Good calls ∧ ∀ earlier ∈ done, ∀ call ∈ calls, Apart earlier call := by
  induction calls generalizing done s with
  | nil => exact iff_of_true trivial ⟨⟨by simp, .nil⟩, by simp⟩
  | cons call calls ih =>
    have starts' : ∀ call ∈ calls, Starts call.1 := fun call member => starts call (List.mem_cons_of_mem _ member)
    have first := starts call List.mem_cons_self
    unfold AllShown
    constructor
    · rintro ⟨t, result, shown, rest⟩
      obtain ⟨short, free⟩ := (register_iff holds.wf holds.distinct first).mp
        ⟨t, result, shown.distinct, shown.found call (by simp)⟩
      obtain ⟨t', result', added⟩ := register_added call.2 holds.wf first short free
      obtain rfl := congrArg Prod.snd (Except.ok.inj (result'.symm.trans result))
      obtain ⟨good, apart⟩ := (ih (holds.added free added) starts').mp rest
      have before := (holds.free_iff first).mp free
      refine ⟨⟨?_, ?_⟩, ?_⟩
      · intro other member
        rcases List.mem_cons.mp member with rfl | later
        · exact short
        · exact good.short other later
      · exact List.pairwise_cons.mpr ⟨fun later member => apart call (by simp) later member, good.apart⟩
      · intro earlier member other later
        rcases List.mem_cons.mp later with rfl | later
        · exact before earlier member
        · exact apart earlier (List.mem_append_left _ member) other later
    · rintro ⟨good, apart⟩
      have short := good.short call List.mem_cons_self
      have free := (holds.free_iff first).mpr fun earlier member => apart earlier member call List.mem_cons_self
      obtain ⟨pairs, later⟩ := List.pairwise_cons.mp good.apart
      obtain ⟨t, result, added⟩ := register_added call.2 holds.wf first short free
      have holds' := holds.added free added
      refine ⟨t, result, holds'.shown, (ih holds' starts').mpr ⟨⟨?_, later⟩, ?_⟩⟩
      · exact fun other member => good.short other (List.mem_cons_of_mem _ member)
      · intro earlier member other later'
        rcases List.mem_append.mp member with before | now
        · exact apart earlier before other (List.mem_cons_of_mem _ later')
        · rw [List.mem_singleton.mp now]
          exact pairs other later'

/-- Registered devices stay reachable exactly when the paths are apart and the names fit. -/
theorem devices_reachable_iff (calls : List (Call α)) (starts : ∀ call ∈ calls, Starts call.1) :
    AllShown [] mounted calls ↔ Good calls := by
  rw [allShown_from holds_mounted starts]
  simp

def bus : List (Call Nat) := [([97], 1), ([98, 47, 99], 2)]

theorem devices_reachable_iff_bus : AllShown [] mounted bus ↔ Good bus :=
  devices_reachable_iff bus (by simp [bus, Starts, slash])

/-- A second device under the same path is hidden by the first one. -/
theorem second_device_hidden :
    ¬ ∀ calls : List (Call Nat), (∀ call ∈ calls, Starts call.1) → AllShown [] mounted calls := by
  intro claim
  obtain ⟨_, first, -, _, second, shown, -⟩ := claim [([97], 1), ([97], 2)] (by simp [Starts, slash])
  cases first
  cases second
  exact absurd (shown.found ([97], 2) (by decide)) (by decide)

end Devfs
end Landaux
