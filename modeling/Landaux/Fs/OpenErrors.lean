import Landaux.Fs.Edits
import Landaux.Fs.MountErrors

/-!
# Opens that fail

`vfs_open` over mounted filesystems. A file that it has made stays when there is no memory for a `file_t`, and when
its name has run into the reference count, so that it is not found.
-/

namespace Landaux
open Lib Mounts

variable {m t u v : Mounts} {a : MountAnswers} {devices : Nat → Device} {c d e fd p q x : Nat} {name : Name}
  {path : List UInt8} {held : List Nat} {k count : Nat} {flags : BitVec 32} {place : List Name}

/-! ### The directory of a name -/

/-- A lookup for `vfs_open` returns a directory. -/
theorem locate_place (fuel : Nat) : ∀ i path x, (m.node x).kind = .dir → Starts path → path.length ≤ fuel →
    locate m.view a.toAnswers (LAST_RETURN ||| LAST_NO_SLASHES) fuel i path x = .ok (d, name) →
      (m.node d).kind = .dir ∧ ∃ place, follow m.entry x place = some d := by
  induction fuel with
  | zero =>
    intro i path x _ starts short
    exact absurd (List.eq_nil_of_length_eq_zero (Nat.le_zero.mp short)) starts.1
  | succ fuel ih =>
    intro i path x dir starts length found
    rw [locate] at found
    have next := (getNextComponent_spec (a.name i) starts).cases
    generalize getNextComponent (a.name i) path = component at next found
    obtain ⟨type, given, rest⟩ := component
    dsimp only at next found
    rcases next with none | ⟨some, -, more⟩
    · rw [if_pos none] at found
      cases found
    rw [if_neg some] at found
    by_cases last : type = .last ∨ type = .lastSlash
    · have last' : isLast type (LAST_RETURN ||| LAST_NO_SLASHES) :=
        last.imp id fun slashes => ⟨slashes, by decide⟩
      rw [if_pos ⟨last', by decide⟩] at found
      cases found
      exact ⟨dir, [], rfl⟩
    have more' : ¬ isLast type (LAST_RETURN ||| LAST_NO_SLASHES) := fun is =>
      last (is.imp id And.left)
    have norm : type = .norm := by
      cases type with
      | noMore => exact absurd rfl some
      | norm => rfl
      | last => exact absurd (Or.inl rfl) last
      | lastSlash => exact absurd (Or.inr rfl) last
    rw [if_neg fun both => more' both.1, view_child] at found
    cases child : m.entry x given with
    | none =>
      rw [child] at found
      dsimp only at found
      rw [if_neg fun both => more' both.1] at found
      cases found
    | some y =>
      rw [child] at found
      dsimp only at found
      rw [if_neg fun both => more' both.1, view_kind] at found
      by_cases file : (m.node y).kind ≠ .dir
      · rw [if_pos file, if_pos (Or.inl norm)] at found
        cases found
      rw [if_neg file, if_neg last] at found
      obtain ⟨starts', shorter⟩ := more last
      obtain ⟨kind, place, reached⟩ := ih _ _ _ (not_not.mp file) starts' (by omega) found
      refine ⟨kind, given :: place, ?_⟩
      rw [follow, child]
      exact reached

theorem target_place (steady : Steady m) (mounted : m.root ≠ 0)
    (found : m.target a (LAST_RETURN ||| LAST_NO_SLASHES) path = .ok (d, some name)) :
    (m.node d).kind = .dir ∧ ∃ place, m.reached place = some d := by
  unfold Mounts.target at found
  dsimp only at found
  split at found
  · cases found
  rename_i more
  cases located : locate m.view a.toAnswers (LAST_RETURN ||| LAST_NO_SLASHES) (path.dropWhile (· = slash)).length 0
      (path.dropWhile (· = slash)) m.root with
  | error err =>
    rw [located] at found
    cases found
  | ok r =>
    rw [located] at found
    cases found
    obtain ⟨kind, place, reached⟩ := locate_place _ _ _ _ (steady.root mounted).2 (starts_dropWhile more) le_rfl located
    refine ⟨kind, place, ?_⟩
    unfold Mounts.reached
    rw [if_neg mounted]
    exact reached

/-! ### A new file -/

/-- `p` is a new file below `e`; `n` is what `strcpy` has made of it. -/
structure NewFile (t u : Mounts) (e p : Nat) (n : Dentry) : Prop where
  root : u.root = t.root
  live : u.live = insert p t.live
  node : ∀ x, u.node x = if x = p then { n with refcnt := n.refcnt + 1 }
    else if x = e then { t.node e with children := (t.node e).children ++ [p] } else t.node x
  sb : u.sb = Function.update t.sb p (t.sb e)
  mnt : u.mnt = Function.update t.mnt p none
  super : u.super = t.super

theorem noMemory : -ENOMEM < 0 := by decide

/-- How `create` of the ramfs ends in a directory. -/
theorem create_ends (live : e ∈ t.live) (fresh : ∀ p, a.dentry = some p → p ∉ t.live ∧ p ≠ 0) :
    Ends (t.makeNode a e name .file) (fun r => r.1 < 0 ∧ r.2 = t ∧ (a.dentry = none ∨ a.priv = false) ∨
      r.1 = 0 ∧ a.priv = true ∧ ∃ p n, a.dentry = some p ∧ strcpyName name .file = .ok n ∧ NewFile t r.2 e p n)
      fun _ => True := by
  have makes : Ends (t.toVfs.makeNode { a.toAnswers with file := none } e name .file)
      (MakeEnds _ t.toVfs e name .file) _ :=
    makeNode_spec live ⟨fresh, nofun⟩
  unfold Mounts.makeNode
  cases dentry : a.dentry with
  | none => exact Or.inl ⟨noMemory, rfl, Or.inl rfl⟩
  | some p =>
    dsimp only
    cases priv : a.priv with
    | false =>
      rw [if_pos (by decide)]
      exact Or.inl ⟨noMemory, rfl, Or.inr rfl⟩
    | true =>
      rw [if_neg (by decide)]
      refine Ends.bind (makes.mono (fun _ ends => ends) fun _ _ => trivial) ?_
      rintro _ (denied | ⟨granted, -, copied, made⟩)
      · exact absurd denied (by simp [dentry, priv])
      · obtain rfl := Option.some.inj (dentry.symm.trans granted)
        exact Or.inr ⟨rfl, rfl, p, _, rfl, copied, made.root, made.live, made.node, rfl, rfl, rfl⟩

/-- `w` has a new file below `d`, and is otherwise `m` but for counts and parent pointers. -/
structure Created (m w : Mounts) (d p : Nat) (name : Name) : Prop where
  root : w.root = m.root
  names : ∀ x ∈ m.live, (w.node x).name = (m.node x).name
  children : ∀ x ∈ m.live, (w.node x).children = (m.node x).children ++ if x = m.into d then [p] else []
  mnt : ∀ x ∈ m.live, w.mnt x = m.mnt x
  super : w.super = m.super
  new : (w.node p).name = name.take 256

namespace Created

theorem same (created : Created m u d p name) (same : SameMounts u v) : Created m v d p name where
  root := same.root.trans created.root
  names := fun x live => (same.name x).trans (created.names x live)
  children := fun x live => (same.children x).trans (created.children x live)
  mnt := fun x live => by rw [same.mnt, created.mnt x live]
  super := same.super.trans created.super
  new := (same.name p).trans created.new

theorem into (created : Created m u d p name) (live : x ∈ m.live) : u.into x = m.into x := by
  unfold Mounts.into
  rw [created.mnt x live, created.super]

theorem string (created : Created m u d p name) (steady : Steady m) (live : x ∈ m.live) :
    (u.node x).string = (m.node x).string := by
  have short : (u.node x).name.length < 256 := by
    rw [created.names x live]
    exact steady.short x
  unfold Dentry.string
  rw [if_pos short, if_pos (steady.short x), created.names x live]

theorem entry (created : Created m u d p name) (steady : Steady m) (live : x ∈ m.live) (given : Name) :
    u.entry x given = (m.entry x given).or
      ((if m.into x = m.into d then [p] else []).find? fun c => (u.node c).string = given) := by
  have inside := steady.into_live live
  unfold Mounts.entry Vfs.child
  rw [created.into live, created.children _ inside, List.find?_append]
  congr 1
  exact List.find?_congr fun c child => by rw [created.string steady (steady.children _ inside c child)]

theorem follow (created : Created m u d p name) (steady : Steady m) (place : List Name) : ∀ x ∈ m.live, ∀ z,
    follow m.entry x place = some z → follow u.entry x place = some z := by
  induction place with
  | nil => exact fun _ _ _ reached => reached
  | cons given place ih =>
    intro x live z reached
    rw [Lib.follow] at reached ⊢
    cases found : m.entry x given with
    | none =>
      rw [found] at reached
      cases reached
    | some y =>
      rw [found] at reached
      rw [created.entry steady live, found]
      exact ih y (steady.below live found) z reached

/-- What the new file is called now is a name that was not there: it is the one asked for, or a longer one than
any other. -/
theorem hidden (created : Created m u d p name) (steady : Steady m) (free : m.entry d name = none) :
    m.entry d (u.node p).string = none := by
  unfold Dentry.string
  rw [created.new, List.length_take]
  by_cases short : name.length < 256
  · rw [if_pos (by omega), List.take_of_length_le short.le]
    exact free
  rw [if_neg (by omega)]
  cases found : m.entry d _ with
  | none => rfl
  | some c =>
    have called := congrArg List.length (child_mem found).2
    have fits := steady.short c
    unfold Dentry.string at called
    rw [if_pos fits, List.length_append, List.length_take] at called
    omega

/-- The new file is reached. -/
theorem not_same (created : Created m u d p name) (steady : Steady m) (reached : m.reached place = some d)
    (free : m.entry d name = none) : ¬ SameNamespace m u := by
  intro same
  have live := steady.reached_live reached
  have none := created.hidden steady free
  have here := same.reached (place ++ [(u.node p).string])
  unfold Mounts.reached at reached here
  by_cases bare : m.root = 0
  · rw [if_pos bare] at reached
    cases reached
  rw [if_neg bare] at reached
  have found : u.entry d (u.node p).string = some p := by
    rw [created.entry steady live, none, if_pos rfl, Option.none_or, List.find?_cons_of_pos (by simp)]
  have way := created.follow steady place _ (steady.root bare).1 d reached
  rw [created.root, if_neg bare, if_neg bare, follow_snoc, follow_snoc, way, reached] at here
  change u.entry d (u.node p).string = m.entry d (u.node p).string at here
  rw [found, none] at here
  cases here

end Created

theorem NewFile.created {n : Dentry} (new : NewFile t u (m.into d) p n) (same : SameMounts m t) (fresh : p ∉ m.live)
    (copied : strcpyName name .file = .ok n) : Created m u d p name where
  root := new.root.trans same.root
  names := fun x live => by
    have old : x ≠ p := fun is => fresh (is ▸ live)
    rw [new.node, if_neg old, ← same.name]
    split
    · rename_i here
      rw [here]
    · rfl
  children := fun x live => by
    have old : x ≠ p := fun is => fresh (is ▸ live)
    rw [new.node, if_neg old, ← same.children]
    by_cases here : x = m.into d
    · rw [if_pos here, if_pos here, here]
    · rw [if_neg here, if_neg here, List.append_nil]
  mnt := fun x live => by
    have old : x ≠ p := fun is => fresh (is ▸ live)
    rw [new.mnt, Function.update_of_ne old, same.mnt]
  super := new.super.trans same.super
  new := by rw [new.node, if_pos rfl, strcpyName_ok copied]

/-! ### The dentry to open -/

def Creates (reg : Registry) (a : MountAnswers) (m : Mounts) (d : Nat) (name : Name) (flags : BitVec 32) : Prop :=
  m.entry d name = none ∧ flags &&& O_CREAT ≠ 0 ∧ (m.ops reg (m.into d)).create.isSome ∧ a.dentry.isSome ∧
    a.priv = true

inductive Opening (reg : Registry) (a : MountAnswers) (m : Mounts) (d : Nat) (name : Name) (flags : BitVec 32)
    (k : Nat) : Except Int Nat × Mounts → Prop where
  | failed {err : Int} {u : Mounts} (stays : ¬ Creates reg a m d name flags) (ahead : Ahead m u [d] k) :
      Opening reg a m d name flags k (.error err, u)
  | found {fd : Nat} {u : Mounts} (stays : ¬ Creates reg a m d name flags) (live : fd ∈ m.live)
      (ahead : Ahead m u [fd, d] k) : Opening reg a m d name flags k (.ok fd, u)
  | lost {err : Int} {p : Nat} {u : Mounts} (creates : Creates reg a m d name flags) (lost : ¬ FoundAgain name)
      (created : Created m u d p name) (held : d ∈ u.live) (shared : 2 ≤ (u.node d).refcnt) :
      Opening reg a m d name flags k (.error err, u)
  | created {p : Nat} {u : Mounts} (creates : Creates reg a m d name flags) (again : FoundAgain name)
      (created : Created m u d p name) (inside : p ∈ u.live) (count : (u.node p).refcnt = 2) (other : d ≠ p)
      (held : d ∈ u.live)
      (shared : 2 ≤ (u.node d).refcnt) (ops : u.ops reg p = ramfs) : Opening reg a m d name flags k (.ok p, u)

theorem SameMounts.ops (same : SameMounts m t) (reg : Registry) (x : Nat) : t.ops reg x = m.ops reg x := by
  unfold Mounts.ops
  rw [same.sb, same.super]

theorem NewFile.lookup {n : Dentry} (new : NewFile t u (m.into d) p n) (steady : Steady m) (same : SameMounts m t)
    (live : d ∈ m.live) (dir : (m.node d).kind = .dir) (fresh : p ∉ m.live) (copied : strcpyName name .file = .ok n)
    (free : m.entry d name = none) :
    (FoundAgain name → (u.node p).refcnt = 1 ∧
      lookupNode (m.into d) name u = .ok (.ok p, { u with toVfs := u.toVfs.addRefcnt p 1 })) ∧
    (¬ FoundAgain name → lookupNode (m.into d) name u = .ok (.error (-ENOENT), u)) := by
  obtain ⟨inside, kind⟩ := steady.into live dir
  have created := new.created same fresh copied
  have other : m.into d ≠ p := fun is => fresh (is ▸ inside)
  have lives : ∀ x ∈ m.live, x ∈ u.live := fun x member => by
    rw [new.live, same.live]
    exact Finset.mem_insert_of_mem member
  have newLive : p ∈ u.live := by
    rw [new.live]
    exact Finset.mem_insert_self p t.live
  have dir' : (u.node (m.into d)).kind = .dir := by
    rw [new.node, if_neg other, if_pos rfl]
    exact (same.kind _).trans kind
  have children : ∀ c ∈ (u.node (m.into d)).children, c ∈ u.live := by
    rw [created.children _ inside, if_pos rfl]
    intro c member
    rcases List.mem_append.mp member with old | here
    · exact lives c (steady.children _ inside c old)
    · rw [List.mem_singleton.mp here]
      exact newLive
  have hit : (u.node p).string = name ↔ FoundAgain name := by
    rw [new.node, if_pos rfl]
    exact strcpyName_string copied
  have found : ((u.node (m.into d)).children.find? fun c => decide ((u.node c).string = name)) =
      [p].find? fun c => decide ((u.node c).string = name) := by
    have entry := created.entry steady live name
    rw [free, if_pos rfl, Option.none_or] at entry
    unfold Mounts.entry Vfs.child at entry
    rw [created.into live] at entry
    exact entry
  unfold lookupNode Vfs.ramfsLookup
  rw [if_neg (not_not.mpr (lives _ inside)), if_neg (not_not.mpr dir'), findChild_eq _ children, found]
  constructor
  · intro again
    have one : (u.node p).refcnt = 1 := by
      rw [new.node, if_pos rfl]
      exact congrArg (· + 1) (strcpyName_refcnt copied again.1)
    refine ⟨one, ?_⟩
    rw [List.find?_cons_of_pos (by simpa using hit.mpr again)]
    change u.ofVfs ((u.toVfs.dentryGet p).map fun s => (Except.ok p, s)) = _
    unfold Vfs.dentryGet
    rw [if_neg (not_not.mpr newLive), one, if_neg (by decide)]
    rfl
  · intro lost
    rw [List.find?_cons_of_neg (by simpa using hit.not.mpr lost)]
    rfl

theorem findOrCreate_opening (steady : Steady m) (fresh : MountFresh a m) (ahead : Ahead m t [d] k) (live : d ∈ m.live)
    (dir : (m.node d).kind = .dir) : Ends (t.findOrCreate (filesystems devices count) a (t.into d) name flags)
      (Opening (filesystems devices count) a m d name flags (k + 1)) fun _ => True := by
  obtain ⟨inside, kind⟩ := steady.into live dir
  have same := ahead.same
  unfold Mounts.findOrCreate
  rw [same.into]
  have op : (t.ops (filesystems devices count) (m.into d)).lookup = lookupNode := filesystems_lookup _
  rw [op]
  refine Ends.bind ((lookupNode_spec steady ahead inside kind).mono (fun _ finds => finds) fun _ _ => trivial) ?_
  rintro _ (none | @⟨c, u, found, ahead'⟩)
  · have free : m.entry d name = Option.none := none
    dsimp only
    by_cases plain : flags &&& O_CREAT = 0
    · rw [if_pos plain]
      exact .failed (fun creates => creates.2.1 plain) (ahead.mono (Nat.le_succ k))
    rw [if_neg plain]
    have there := same.ops (filesystems devices count) (m.into d)
    rcases ops_eq (m := t) (d := m.into d) with isRamfs | isDevfs
    swap
    · rw [isDevfs]
      refine .failed (fun creates => ?_) (ahead.mono (Nat.le_succ k))
      have creates := creates.2.2.1
      rw [← there, isDevfs] at creates
      cases creates
    rw [isRamfs]
    have fresh' : ∀ p, a.dentry = some p → p ∉ t.live ∧ p ≠ 0 := fun p dentry => by
      rw [same.live]
      exact fresh.dentry p dentry
    refine Ends.bind (ran_ends (create_ends (same.live ▸ inside) fresh')) ?_
    rintro ⟨ret, u⟩ (⟨negative, rfl, memory⟩ | ⟨zero, priv, p, n, dentry, copied, new⟩)
    · dsimp only at negative ⊢
      rw [if_pos negative]
      refine .failed (fun creates => ?_) (ahead.mono (Nat.le_succ k))
      rcases memory with none | none
      · have some := creates.2.2.2.1
        rw [none] at some
        cases some
      · cases (none.symm.trans creates.2.2.2.2)
    dsimp only at zero new ⊢
    rw [if_neg (by omega)]
    have unused := (fresh.dentry p dentry).1
    have op' : (u.ops (filesystems devices count) (m.into d)).lookup = lookupNode := filesystems_lookup _
    rw [op']
    obtain ⟨finds, misses⟩ := new.lookup steady same live dir unused copied free
    have creates : Creates (filesystems devices count) a m d name flags := by
      refine ⟨free, plain, ?_, by rw [dentry]; rfl, priv⟩
      rw [← there, isRamfs]
      rfl
    have created := new.created same unused copied
    have old : m.into d ≠ p := fun is => unused (is ▸ inside)
    have other : d ≠ p := fun is => unused (is ▸ live)
    have held : d ∈ u.live := by
      rw [new.live, same.live]
      exact Finset.mem_insert_of_mem live
    have shared : 2 ≤ (u.node d).refcnt := by
      have once := steady.counted d live
      have kept := ahead.kept d
      rw [List.count_cons_self, List.count_nil] at kept
      have count' : (u.node d).refcnt = (t.node d).refcnt := by
        rw [new.node, if_neg other]
        split
        · rename_i here
          exact congrArg (fun x => (t.node x).refcnt) here.symm
        · rfl
      rw [count']
      push_cast at kept
      omega
    by_cases again : FoundAgain name
    swap
    · rw [misses again]
      exact .lost creates again created held shared
    obtain ⟨one, finds⟩ := finds again
    rw [finds]
    refine .created creates again (created.same .addRefcnt) ?_ ?_ other held ?_ ?_
    · change p ∈ u.live
      rw [new.live]
      exact Finset.mem_insert_self p t.live
    · dsimp only
      rw [addRefcnt_node, if_pos rfl]
      dsimp only
      rw [one]
      rfl
    · dsimp only
      rw [addRefcnt_node, if_neg other]
      dsimp only
      rwa [add_zero]
    · change (filesystems devices count).fs (u.super (u.sb p)).fs = ramfs
      rw [new.sb, new.super, Function.update_self]
      exact isRamfs
  · have stays : ¬ Creates (filesystems devices count) a m d name flags := fun creates =>
      nomatch creates.1.symm.trans found
    have below := steady.children _ inside c (child_mem found).1
    dsimp only
    split
    · obtain ⟨v, put, back⟩ := ahead'.put steady below
      rw [put]
      exact .failed stays back
    split
    · obtain ⟨v, put, back⟩ := ahead'.put steady below
      rw [put]
      exact .failed stays back
    · exact .found stays below ahead'

/-! ### The `file_t` -/

theorem Ahead.setFile {f : File} (ahead : Ahead m t held k) : Ahead m (t.setFile q f) held k :=
  ⟨ahead.same.trans ⟨rfl, rfl, fun _ => rfl, fun _ => rfl, fun _ => rfl, rfl, rfl, rfl⟩, ahead.kept, ahead.grown⟩

theorem Ahead.setOpened (opened : Finset Nat) (ahead : Ahead m t held k) :
    Ahead m { t with opened := opened } held k :=
  ⟨ahead.same.trans ⟨rfl, rfl, fun _ => rfl, fun _ => rfl, fun _ => rfl, rfl, rfl, rfl⟩, ahead.kept, ahead.grown⟩

/-- The ramfs opens every file. -/
theorem openFile_ramfs (ramfs : t.ops (filesystems devices count) fd = ramfs) :
    Ends (t.openFile (filesystems devices count) flags fd q) (fun r => r.1 = .ok q) fun _ => True := by
  unfold Mounts.openFile
  rw [ramfs]
  change Ends (if flags &&& O_TRUNC = 0 then _ else _) _ _
  split
  · rfl
  rw [ramfs]
  rfl

theorem openFile_kept (steady : Steady m) (ahead : Ahead m t (fd :: held) k) (live : fd ∈ m.live) :
    Ends (t.openFile (filesystems devices count) flags fd q)
      (fun r => ∀ err, r.1 = .error err → Ahead m r.2 held k) fun _ => True := by
  rcases ops_eq (m := t) (d := fd) with isRamfs | isDevfs
  · refine (openFile_ramfs isRamfs).mono (fun r opened err failed => ?_) fun _ => id
    cases (opened.symm.trans failed)
  unfold Mounts.openFile
  rw [isDevfs]
  have opens : Ends (guarded ((devfs devices).opens.map fun op => op q flags) t) (fun r => r.2 = t) fun _ => True := by
    change Ends (ran (if _ then _ else _)) _ _
    split
    · rfl
    · rfl
  refine Ends.bind opens ?_
  rintro ⟨ret, u⟩ rfl
  dsimp only
  split
  · obtain ⟨v, put, back⟩ := (ahead.setOpened (u.opened.erase q)).put steady live
    change Ends (({ u with opened := u.opened.erase q } : Mounts).put fd >>= _) _ _
    rw [put]
    exact fun err _ => back
  split
  · exact nofun
  rw [isDevfs]
  exact nofun

inductive Dopened (reg : Registry) (a : MountAnswers) (m : Mounts) (d : Nat) (name : Name) (flags : BitVec 32)
    (k : Nat) : Except Int Nat × Mounts → Prop where
  | kept {err : Int} {u : Mounts} (stays : ¬ (Creates reg a m d name flags ∧ (a.file = none ∨ ¬ FoundAgain name)))
      (ahead : Ahead m u [d] k) :
      Dopened reg a m d name flags k (.error err, u)
  | opened {q : Nat} {u : Mounts} (stays : ¬ (Creates reg a m d name flags ∧ (a.file = none ∨ ¬ FoundAgain name))) :
      Dopened reg a m d name flags k (.ok q, u)
  | left {err : Int} {p : Nat} {u : Mounts} (creates : Creates reg a m d name flags)
      (without : a.file = none ∨ ¬ FoundAgain name) (created : Created m u d p name) (held : d ∈ u.live)
      (shared : 2 ≤ (u.node d).refcnt) :
      Dopened reg a m d name flags k (.error err, u)

theorem vfsDopen_dopened (steady : Steady m) (fresh : MountFresh a m) (ahead : Ahead m t [d] k) (live : d ∈ m.live)
    (dir : (m.node d).kind = .dir) : Ends (t.vfsDopen (filesystems devices count) a d name flags)
      (Dopened (filesystems devices count) a m d name flags (k + 1)) fun _ => True := by
  unfold Mounts.vfsDopen
  refine Ends.bind (findOrCreate_opening steady fresh ahead live dir) ?_
  rintro _ (⟨stays, ahead'⟩ | @⟨fd, u, stays, below, ahead'⟩ |
    @⟨err, p, u, creates, lost, created, held, shared⟩ |
    @⟨p, u, creates, again, created, inside, two, other, held, shared, isRamfs⟩)
  · exact .kept (fun both => stays both.1) ahead'
  · have stays' : ¬ (Creates (filesystems devices count) a m d name flags ∧ (a.file = none ∨ ¬ FoundAgain name)) :=
      fun both => stays both.1
    dsimp only
    cases file : a.file with
    | none =>
      obtain ⟨v, put, back⟩ := ahead'.put steady below
      dsimp only
      rw [put]
      exact .kept stays' back
    | some q =>
      refine (openFile_kept steady (ahead'.setOpened _).setFile below).mono ?_ fun _ stop => stop
      rintro ⟨_ | q, v⟩ kept
      · exact .kept stays' (kept _ rfl)
      · exact .opened stays'
  · exact .left creates (Or.inr lost) created held shared
  · dsimp only
    cases file : a.file with
    | none =>
      have put : u.put p = .ok { u with toVfs := u.toVfs.addRefcnt p (-1) } := by
        unfold Mounts.put
        rw [dentryPut_shared inside (by omega)]
        rfl
      dsimp only
      rw [put]
      refine .left creates (Or.inl file) (created.same .addRefcnt) held ?_
      dsimp only
      rw [addRefcnt_node]
      dsimp only
      rw [if_neg other, add_zero]
      exact shared
    | some q =>
      refine (openFile_ramfs (t := ({ u with opened := insert q u.opened } : Mounts).setFile q _) isRamfs).mono ?_
        fun _ stop => stop
      rintro ⟨_ | q, v⟩ opened
      · cases opened
      · refine .opened fun both => both.2.elim (fun none => ?_) fun lost => lost again
        cases none.symm.trans file

/-- A `vfs_open` that fails has harmed the namespace exactly when it has made a file. -/
theorem open_kept (steady : Steady m) (fresh : MountFresh a m) :
    Ends (m.vfsOpen (filesystems devices count) a path flags) (fun r => (∀ err, r.1 = .error err → SameNamespace m r.2) ↔
      ¬ VfsCall.Leaves (filesystems devices count) a m (.opens path flags)) fun _ => True := by
  unfold Mounts.vfsOpen
  dsimp only [VfsCall.Leaves]
  refine Ends.bind (lookup_ends steady) ?_
  rintro ⟨r, t⟩ ⟨mounted, rfl, ahead, live⟩
  cases target : m.target a (LAST_RETURN ||| LAST_NO_SLASHES) path with
  | error err =>
    rw [target] at ahead
    refine iff_of_true (fun _ _ => ahead.sameNamespace steady) ?_
    rintro ⟨d, name, found, -⟩
    cases found
  | ok e =>
    obtain ⟨d, _ | name⟩ := e
    · exact trivial
    rw [target] at ahead live
    have live := live d (some name) rfl
    obtain ⟨dir, place, reached⟩ := target_place steady mounted target
    have ahead : Ahead m t [d] (path.length + 1) := ahead
    -- a file is left when one is made that no `file_t` is had for, or that is not found again
    have leaves : (∃ e given, (Except.ok (d, some name) : Except Int (Nat × Option Name)) = .ok (e, some given) ∧
        m.entry e given = none ∧ flags &&& O_CREAT ≠ 0 ∧
          ((m.ops (filesystems devices count) (m.into e)).create).isSome ∧ a.dentry.isSome ∧ a.priv = true ∧
            (a.file = none ∨ ¬ FoundAgain given)) ↔
        Creates (filesystems devices count) a m d name flags ∧ (a.file = none ∨ ¬ FoundAgain name) := by
      constructor
      · rintro ⟨_, _, ⟨⟩, free, create, op, dentry, priv, without⟩
        exact ⟨⟨free, create, op, dentry, priv⟩, without⟩
      · rintro ⟨⟨free, create, op, dentry, priv⟩, without⟩
        exact ⟨d, name, rfl, free, create, op, dentry, priv, without⟩
    rw [leaves]
    refine Ends.bind (vfsDopen_dopened steady fresh ahead live dir) ?_
    rintro _ (⟨stays, ahead'⟩ | ⟨stays⟩ | @⟨err, p, u, creates, without, created, held, shared⟩)
    · obtain ⟨v, put, back⟩ := ahead'.put steady live
      dsimp only
      rw [put]
      exact iff_of_true (fun _ _ => back.sameNamespace steady) stays
    · exact Ends.bind ends_true fun v _ => iff_of_true nofun stays
    · have put : u.put d = .ok { u with toVfs := u.toVfs.addRefcnt d (-1) } := by
        unfold Mounts.put
        rw [dentryPut_shared held (by omega)]
        rfl
      dsimp only
      rw [put]
      refine iff_of_false (fun same => ?_) fun stays => stays ⟨creates, without⟩
      exact (created.same .addRefcnt).not_same steady reached creates.1 (same err rfl)

/-! ### All calls -/

end Landaux
