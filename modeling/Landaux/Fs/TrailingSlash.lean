import Landaux.Fs.OpenErrors

/-!
# Paths that end in a slash

A walk without `LAST_RETURN` and `LAST_MUST_NOT_EXIST` ends in a directory when a slash follows the last
component. With one of these flags the slash makes no difference.
-/

namespace Landaux
open Lib Mounts

variable {s : Vfs} {m t u : Mounts} {reg : Registry} {a : MountAnswers} {devices : Nat → Device} {c d e p q x : Nat}
  {name : Name} {path : List UInt8} {held : List Nat} {k count : Nat} {dir : List Name}

/-! ### Walks that look the last component up -/

theorem not_isLast_lastSlash' : ¬ isLast .lastSlash LAST_NO_SLASHES := by
  unfold isLast
  decide

/-- A walk that has returned a dentry has returned a directory. -/
def ToDir (r : Except Int (Nat × Name) × Mounts) : Prop :=
  ∀ e name, r.1 = .ok (e, name) → (r.2.node e).kind = .dir

theorem walk_trailing {flags : BitVec 8} (plain : ¬ isLast .lastSlash flags) (fuel : Nat) : ∀ i path d m,
    Starts path → Trailing path → Ends (walk reg a flags fuel i path d m) ToDir fun _ => True := by
  induction fuel with
  | zero => exact fun _ _ _ _ _ _ => trivial
  | succ fuel ih =>
    intro i path d m starts slashes
    have failed : ∀ (err : Int) (r : Except MountStop Mounts),
        Ends (do return (.error err, ← r)) ToDir fun _ => True := fun err r =>
      Ends.bind ends_true fun _ _ _ _ none => absurd none nofun
    rw [walk]
    cases granted : a.name i with
    | false =>
      rw [getNextComponent, if_pos (Or.inr rfl)]
      exact failed _ _
    | true =>
      have delivers := getNextComponent_delivers starts
      generalize getNextComponent true path = next at delivers ⊢
      have kind : next.1 = .lastSlash ∨ next.1 = .norm ∧ Starts next.2.2 ∧ Trailing next.2.2 := by
        cases delivers with
        | last only plain => exact absurd slashes plain
        | lastSlash => exact Or.inl rfl
        | norm first starts trailing => exact Or.inr ⟨rfl, starts, trailing.mpr slashes⟩
      obtain ⟨type, name, rest⟩ := next
      dsimp only at kind ⊢
      have open' : ¬ isLast type flags := by
        rcases kind with rfl | ⟨rfl, -⟩
        · exact plain
        · exact not_isLast_norm
      have some : type ≠ .noMore := by
        rcases kind with rfl | ⟨rfl, -⟩ <;> simp
      rw [if_neg some, if_neg fun both => open' both.1]
      apply Ends.bind ends_true
      intro r _
      obtain ⟨found, m⟩ := r
      cases found with
      | error err =>
        dsimp only
        rw [if_neg fun all => open' all.2.1]
        exact failed _ _
      | ok new =>
        dsimp only
        rw [if_neg fun all => open' all.1]
        by_cases file : ((m.setParent new d).node new).kind ≠ .dir
        · have wants : type = .norm ∨ type = .lastSlash ∨ flags &&& LAST_MUST_BE_DIR ≠ 0 := by
            rcases kind with rfl | ⟨rfl, -⟩
            · exact Or.inr (Or.inl rfl)
            · exact Or.inl rfl
          rw [if_pos file, if_pos wants]
          exact failed _ _
        rw [if_neg file]
        rcases kind with rfl | ⟨rfl, starts', slashes'⟩
        · rw [if_pos (Or.inr rfl)]
          intro e name same
          obtain ⟨rfl, -⟩ := Prod.mk.inj (Except.ok.inj same)
          exact not_not.mp file
        · rw [if_neg (by simp)]
          exact ih _ _ _ _ starts' slashes'

theorem lookupPathCommon_trailing {flags : BitVec 8} (plain : ¬ isLast .lastSlash flags)
    (component : components path ≠ []) (slashes : Trailing path) : Ends (m.lookupPathCommon reg a path flags)
      (fun r => ∀ e name, r.1 = .ok (e, name) → (r.2.node e).kind = .dir) fun _ => True := by
  have more : path.dropWhile (· = slash) ≠ [] := mt components_eq_nil.mp component
  unfold lookupPathCommon
  apply Ends.bind ends_true
  intro t _
  split
  · trivial
  dsimp only
  rw [if_neg more]
  apply Ends.bind (walk_trailing plain _ _ _ _ _ (starts_dropWhile more) ((trailing_dropWhile more).mpr slashes))
  intro r toDir
  obtain ⟨found, t⟩ := r
  cases found with
  | error err => exact fun e name same => absurd same nofun
  | ok found =>
    intro e name same
    obtain ⟨rfl, -⟩ := Prod.mk.inj (Except.ok.inj same)
    exact toDir _ _ rfl

theorem lookupPath_trailing (component : components path ≠ []) (slashes : Trailing path) :
    Ends (m.lookupPath reg a path) (fun r => ∀ e, r.1 = .ok e → (r.2.node e).kind = .dir) fun _ => True := by
  unfold lookupPath
  apply Ends.bind (lookupPathCommon_trailing not_isLast_lastSlash component slashes)
  intro r toDir
  obtain ⟨found, t⟩ := r
  cases found with
  | error err => exact fun e same => absurd same nofun
  | ok found =>
    intro e same
    obtain rfl := Except.ok.inj same
    exact toDir _ _ rfl

theorem locate_negative {flags : BitVec 8} {err : Int} (fuel : Nat) : ∀ i path x,
    locate s a.toAnswers flags fuel i path x = .error err → err < 0 := by
  induction fuel with
  | zero => exact fun i path x failed => absurd failed nofun
  | succ fuel ih =>
    intro i path x failed
    rw [locate] at failed
    generalize getNextComponent (a.name i) path = next at failed
    obtain ⟨type, name, rest⟩ := next
    dsimp only at failed
    by_cases none : type = .noMore
    · rw [if_pos none] at failed
      cases failed
      decide
    rw [if_neg none] at failed
    by_cases returns : isLast type flags ∧ flags &&& LAST_RETURN ≠ 0
    · rw [if_pos returns] at failed
      cases failed
    rw [if_neg returns] at failed
    cases found : s.child x name with
    | none =>
      rw [found] at failed
      dsimp only at failed
      split at failed
      · cases failed
      · cases failed
        decide
    | some y =>
      rw [found] at failed
      dsimp only at failed
      split at failed
      · cases failed
        decide
      split at failed
      · split at failed
        · cases failed
          decide
        · cases failed
      split at failed
      · cases failed
      · exact ih _ _ _ failed

theorem target_negative {flags : BitVec 8} {err : Int} (failed : m.target a flags path = .error err) : err < 0 := by
  unfold Mounts.target at failed
  dsimp only at failed
  split at failed
  · cases failed
  cases located : locate m.view a.toAnswers flags (path.dropWhile (· = slash)).length 0 (path.dropWhile (· = slash))
      m.root with
  | error other =>
    rw [located] at failed
    cases failed
    exact locate_negative _ _ _ _ located
  | ok found =>
    rw [located] at failed
    cases failed

/-- `vfs_unlink` of a path that ends in a slash fails. -/
theorem vfsUnlink_trailing (steady : Steady m) (component : components path ≠ []) (slashes : Trailing path) :
    Ends (m.vfsUnlink (filesystems devices count) a path) (fun r => r.1 < 0) fun _ => True := by
  unfold vfsUnlink
  apply Ends.bind (lookup_ends steady).returned
  intro r ends
  obtain ⟨⟨-, returns⟩, looked⟩ := ends
  obtain ⟨found, t⟩ := r
  cases found with
  | error err => exact target_negative returns.same.symm
  | ok found =>
    obtain ⟨d, name⟩ := found
    have dir := (lookupPathCommon_trailing not_isLast_lastSlash' component slashes).of_ok looked d name rfl
    dsimp only at dir ⊢
    rw [vfsDunlink, if_pos dir]
    change Ends (t.put d >>= fun u => pure (-EISDIR, u)) _ _
    exact Ends.bind ends_true fun _ _ => (by decide : -EISDIR < 0)

/-! ### Walks that return before the last component -/

/-- The directory of a path, and its last component, when the allocator has memory for all the names. -/
def Mounts.IsPlace (m : Mounts) (a : MountAnswers) (path : List UInt8) (d : Nat) (name : Name) : Prop :=
  (∀ i < (components path).length, a.name i = true) ∧
    ∃ dir, components path = dir ++ [name] ∧ m.view.way m.root dir = .ok d

/-- A walk that takes a slash after the last component as if it was not there. -/
theorem locate_last (s : Vfs) (d : Nat) (name : Name) {flags : BitVec 8} (slashes : isLast .lastSlash flags)
    (ends : flags &&& LAST_RETURN ≠ 0 ∨ flags &&& LAST_MUST_NOT_EXIST ≠ 0) (fuel : Nat) : ∀ i path x, Starts path →
    (s.node x).kind = .dir → path.length ≤ fuel → (locate s a.toAnswers flags fuel i path x = .ok (d, name) ↔
      (∀ j < (components path).length, a.name (i + j) = true) ∧
        (∃ dir, components path = dir ++ [name] ∧ s.way x dir = .ok d) ∧
          (flags &&& LAST_RETURN ≠ 0 ∨ s.child d name = none)) := by
  induction fuel with
  | zero =>
    intro i path x starts _ short
    exact absurd (List.eq_nil_of_length_eq_zero (Nat.le_zero.mp short)) starts.1
  | succ fuel ih =>
    intro i path x starts kind length
    have nonempty := List.length_pos_of_ne_nil starts.components_ne_nil
    rw [locate]
    cases granted : a.name i with
    | false =>
      rw [getNextComponent, if_pos (Or.inr rfl)]
      dsimp only
      rw [if_pos rfl]
      refine iff_of_false (by simp) fun all => ?_
      exact absurd ((all.1 0 nonempty).symm.trans granted) (by simp)
    | true =>
      have delivers := getNextComponent_delivers starts
      generalize getNextComponent true path = next at delivers ⊢
      have split : (isLast next.1 flags ∧ next.1 ≠ .noMore ∧ components path = [next.2.1]) ∨
          next.1 = .norm ∧ Starts next.2.2 ∧ components path = next.2.1 :: components next.2.2 ∧
            next.2.2.length < path.length := by
        cases delivers with
        | last only => exact Or.inl ⟨isLast_last, by simp, only⟩
        | lastSlash only => exact Or.inl ⟨slashes, by simp, only⟩
        | norm first starts _ shorter => exact Or.inr ⟨rfl, starts, first, shorter⟩
      obtain ⟨type, given, rest⟩ := next
      dsimp only at split ⊢
      rcases split with ⟨last, some, only⟩ | ⟨rfl, starts', first, shorter⟩
      · have granted' : ∀ j < (components path).length, a.name (i + j) = true := fun j below => by
          rw [only, List.length_singleton, Nat.lt_one_iff] at below
          rw [below, Nat.add_zero, granted]
        have place : (∃ dir, components path = dir ++ [name] ∧ s.way x dir = .ok d) ↔ x = d ∧ given = name := by
          constructor
          · intro found
            obtain ⟨dir, comps, way⟩ := found
            obtain ⟨rfl, same⟩ := List.append_inj' (show [] ++ [given] = dir ++ [name] from only.symm.trans comps) rfl
            rw [way_nil kind] at way
            exact ⟨Except.ok.inj way, List.singleton_inj.mp same⟩
          · intro same
            obtain ⟨rfl, rfl⟩ := same
            exact ⟨[], only, way_nil kind⟩
        rw [if_neg some, and_iff_right granted', place]
        by_cases returns : flags &&& LAST_RETURN ≠ 0
        · rw [if_pos ⟨last, returns⟩, and_iff_left (Or.inl returns), Except.ok.injEq, Prod.mk.injEq]
        have create := ends.resolve_left returns
        rw [if_neg fun both => returns both.2, or_iff_right returns]
        cases found : s.child x given with
        | none =>
          dsimp only
          rw [if_pos ⟨last, create⟩, Except.ok.injEq, Prod.mk.injEq]
          refine ⟨fun same => ⟨same, ?_⟩, And.left⟩
          rw [← same.1, ← same.2, found]
        | some y =>
          dsimp only
          rw [if_pos ⟨last, create⟩]
          refine iff_of_false (by simp) fun all => ?_
          obtain ⟨⟨rfl, rfl⟩, none⟩ := all
          exact absurd (none.symm.trans found) (by simp)
      · have names : (∀ j < (components path).length, a.name (i + j) = true) ↔
            ∀ j < (components rest).length, a.name (i + 1 + j) = true := by
          rw [first, List.length_cons]
          constructor
          · intro all j below
            have next := all (j + 1) (Nat.succ_lt_succ below)
            rwa [show i + (j + 1) = i + 1 + j by omega] at next
          · intro all j below
            cases j with
            | zero => exact granted
            | succ j =>
              have next := all j (Nat.lt_of_succ_lt_succ below)
              rwa [show i + 1 + j = i + (j + 1) by omega] at next
        have place : (∃ dir, components path = dir ++ [name] ∧ s.way x dir = .ok d) ↔
            ∃ dir, components rest = dir ++ [name] ∧ s.way x (given :: dir) = .ok d := by
          rw [first]
          constructor
          · intro found
            obtain ⟨dir, comps, way⟩ := found
            cases dir with
            | nil => exact absurd (List.cons.inj comps).2 starts'.components_ne_nil
            | cons b dir =>
              obtain ⟨rfl, tail⟩ := List.cons.inj comps
              exact ⟨dir, tail, way⟩
          · intro found
            obtain ⟨dir, comps, way⟩ := found
            exact ⟨given :: dir, by rw [comps, List.cons_append], way⟩
        rw [if_neg (by simp), if_neg fun both => not_isLast_norm both.1, names, place]
        simp only [way_cons kind]
        cases found : s.child x given with
        | none =>
          dsimp only
          rw [if_neg fun both => not_isLast_norm both.1]
          exact iff_of_false (by simp) fun all => by simp at all
        | some y =>
          dsimp only
          rw [if_neg fun both => not_isLast_norm both.1]
          cases file : (s.node y).kind with
          | file =>
            rw [if_pos (by decide), if_pos (Or.inl trivial)]
            exact iff_of_false (by simp) fun all => by simp at all
          | dir =>
            rw [if_neg (by decide), if_neg (by simp)]
            simp only [reduceCtorEq, if_false]
            exact ih (i + 1) rest y starts' file (by omega)

theorem target_last {flags : BitVec 8} (slashes : isLast .lastSlash flags)
    (ends : flags &&& LAST_RETURN ≠ 0 ∨ flags &&& LAST_MUST_NOT_EXIST ≠ 0) (component : components path ≠ [])
    (top : (m.node m.root).kind = .dir) : m.target a flags path = .ok (d, some name) ↔
      m.IsPlace a path d name ∧ (flags &&& LAST_RETURN ≠ 0 ∨ m.entry d name = none) := by
  have more : path.dropWhile (· = slash) ≠ [] := mt components_eq_nil.mp component
  have walk := locate_last (a := a) m.view d name slashes ends
    (path.dropWhile (· = slash)).length 0 _ m.root (starts_dropWhile more) top le_rfl
  unfold Mounts.target Mounts.IsPlace
  dsimp only
  rw [if_neg more, and_assoc]
  simp only [components_dropWhile, Nat.zero_add, view_child] at walk
  rw [← walk]
  cases locate m.view a.toAnswers flags (path.dropWhile (· = slash)).length 0 (path.dropWhile (· = slash)) m.root with
  | error err => exact iff_of_false nofun nofun
  | ok found =>
    obtain ⟨e, given⟩ := found
    simp [Except.map]

/-! ### Opens that are refused -/

def Device.Refuses (device : Device) (q : Nat) (flags : BitVec 32) : Prop :=
  flags &&& O_RDONLY ≠ 0 ∧ device.read.isNone ∨ flags &&& O_WRONLY ≠ 0 ∧ device.write.isNone ∨
    device.opens q flags < 0

def Mounts.Refuses (m : Mounts) (reg : Registry) (devices : Nat → Device) (a : MountAnswers) (d : Nat) (name : Name)
    (flags : BitVec 32) : Prop :=
  ¬ Creates reg a m d name flags ∧ ∀ c, m.entry d name = some c →
    (m.node c).kind = .dir ∨ flags &&& O_CREAT ≠ 0 ∧ flags &&& O_EXCL ≠ 0 ∨
      ∀ q, a.file = some q → (m.ops reg c).opens.isSome ∧ (devices c).Refuses q flags

def Failed {α : Type} (r : Except Int α × Mounts) : Prop := ∃ err, r.1 = .error err

theorem put_failed {α : Type} {err : Int} : Ends (t.put d >>= fun u => pure (Except.error err, u)) (Failed (α := α))
    fun _ => True :=
  Ends.bind ends_true fun _ _ => ⟨err, rfl⟩

variable {flags : BitVec 32}

theorem openFile_devfs (isDevfs : t.ops (filesystems devices count) c = devfs devices)
    (on : (t.file q).dentry = c) : Ends (t.openFile (filesystems devices count) flags c q)
      (fun r => Failed r ↔ (devices c).Refuses q flags) fun _ => True := by
  unfold Mounts.openFile
  rw [isDevfs]
  have opens : ∃ ret, guarded ((devfs devices).opens.map fun op => op q flags) t = .ok (ret, t) ∧
      (ret < 0 ↔ (devices c).Refuses q flags) := by
    change ∃ ret, ran (if flags &&& O_RDONLY ≠ 0 ∧ (devices (t.file q).dentry).read.isNone ∨
      flags &&& O_WRONLY ≠ 0 ∧ (devices (t.file q).dentry).write.isNone then _ else _) = _ ∧ _
    unfold Device.Refuses
    rw [on, ← or_assoc]
    split
    · rename_i access
      exact ⟨_, rfl, iff_of_true (by decide) (Or.inl access)⟩
    · rename_i access
      exact ⟨_, rfl, (or_iff_right access).symm⟩
  obtain ⟨ret, result, refuses⟩ := opens
  rw [result, Lib.ok_bind]
  dsimp only
  by_cases negative : ret < 0
  · rw [if_pos negative]
    exact put_failed.mono (fun _ failed => iff_of_true failed (refuses.mp negative)) fun _ => id
  rw [if_neg negative]
  have opened : ¬ Failed (Except.ok q, t) := fun failed => absurd failed.choose_spec nofun
  split
  · exact iff_of_false opened (mt refuses.mpr negative)
  rw [isDevfs]
  exact iff_of_false opened (mt refuses.mpr negative)

/-- An open of a dentry that is there. -/
theorem openFile_failed (same : SameMounts m t) (on : (t.file q).dentry = c) :
    Ends (t.openFile (filesystems devices count) flags c q)
      (fun r => Failed r ↔ (m.ops (filesystems devices count) c).opens.isSome ∧ (devices c).Refuses q flags)
      fun _ => True := by
  rw [← same.ops]
  rcases ops_eq (m := t) (d := c) with isRamfs | isDevfs
  · apply (openFile_ramfs isRamfs).mono _ fun _ => id
    intro r opened
    rw [isRamfs]
    refine iff_of_false (fun failed => ?_) fun both => absurd both.1 nofun
    exact absurd (opened.symm.trans failed.choose_spec) nofun
  · apply (openFile_devfs isDevfs on).mono _ fun _ => id
    intro r failed
    rw [failed, isDevfs]
    exact (and_iff_right rfl).symm

/-- The search for the dentry to open, when the name is there. -/
theorem findOrCreate_found (steady : Steady m) (ahead : Ahead m t [d] k) (live : d ∈ m.live)
    (dir : (m.node d).kind = .dir) (found : m.entry d name = some c) :
    Ends (t.findOrCreate (filesystems devices count) a (t.into d) name flags)
      (fun r => Failed r ∧ ((m.node c).kind = .dir ∨ flags &&& O_CREAT ≠ 0 ∧ flags &&& O_EXCL ≠ 0) ∨
        ¬ ((m.node c).kind = .dir ∨ flags &&& O_CREAT ≠ 0 ∧ flags &&& O_EXCL ≠ 0) ∧ r.1 = .ok c ∧ SameMounts m r.2)
      fun _ => True := by
  obtain ⟨inside, kind⟩ := steady.into live dir
  unfold Mounts.findOrCreate
  rw [ahead.same.into]
  have op : (t.ops (filesystems devices count) (m.into d)).lookup = lookupNode := filesystems_lookup _
  rw [op]
  apply Ends.bind ((lookupNode_spec steady ahead inside kind).mono (fun _ finds => finds) fun _ _ => trivial)
  intro r finds
  cases finds with
  | missing none => exact absurd (none.symm.trans found) nofun
  | @found e _ here ahead' =>
    obtain rfl : e = c := Option.some.inj (here.symm.trans found)
    dsimp only
    rw [ahead'.same.kind]
    by_cases isDir : (m.node e).kind = .dir
    · rw [if_pos isDir]
      exact put_failed.mono (fun _ failed => Or.inl ⟨failed, Or.inl isDir⟩) fun _ => id
    rw [if_neg isDir]
    by_cases excl : flags &&& O_CREAT ≠ 0 ∧ flags &&& O_EXCL ≠ 0
    · rw [if_pos excl]
      exact put_failed.mono (fun _ failed => Or.inl ⟨failed, Or.inr excl⟩) fun _ => id
    · rw [if_neg excl]
      exact Or.inr ⟨not_or.mpr ⟨isDir, excl⟩, rfl, ahead'.same⟩

/-- The search for the dentry to open, when the name is not there and is not made. -/
theorem findOrCreate_missing (steady : Steady m) (fresh : MountFresh a m) (ahead : Ahead m t [d] k) (live : d ∈ m.live)
    (dir : (m.node d).kind = .dir) (none : m.entry d name = none)
    (stays : ¬ Creates (filesystems devices count) a m d name flags) :
    Ends (t.findOrCreate (filesystems devices count) a (t.into d) name flags) Failed fun _ => True := by
  obtain ⟨inside, kind⟩ := steady.into live dir
  have same := ahead.same
  unfold Mounts.findOrCreate
  rw [same.into]
  have op : (t.ops (filesystems devices count) (m.into d)).lookup = lookupNode := filesystems_lookup _
  rw [op]
  apply Ends.bind ((lookupNode_spec steady ahead inside kind).mono (fun _ finds => finds) fun _ _ => trivial)
  intro r finds
  cases finds with
  | found here => exact absurd (none.symm.trans here) nofun
  | missing =>
    dsimp only
    by_cases plain : flags &&& O_CREAT = 0
    · rw [if_pos plain]
      exact ⟨-ENOENT, rfl⟩
    rw [if_neg plain]
    have there := same.ops (filesystems devices count) (m.into d)
    rcases ops_eq (m := t) (d := m.into d) with isRamfs | isDevfs
    · rw [isRamfs]
      have fresh' : ∀ p, a.dentry = some p → p ∉ t.live ∧ p ≠ 0 := fun p dentry => by
        rw [same.live]
        exact fresh.dentry p dentry
      apply Ends.bind (ran_ends (create_ends (same.live ▸ inside) fresh'))
      intro r made
      rcases made with ⟨negative, -⟩ | ⟨-, priv, p, -, dentry, -⟩
      · rw [if_pos negative]
        exact ⟨r.1, rfl⟩
      · apply absurd _ stays
        refine ⟨none, plain, ?_, ?_, priv⟩
        · rw [← there, isRamfs]
          rfl
        · rw [dentry]
          rfl
    · rw [isDevfs]
      exact ⟨-ENOSYS, rfl⟩

/-- `vfs_dopen` fails and makes nothing exactly when it refuses. -/
theorem vfsDopen_refuses (steady : Steady m) (fresh : MountFresh a m) (ahead : Ahead m t [d] k) (live : d ∈ m.live)
    (dir : (m.node d).kind = .dir) : Ends (t.vfsDopen (filesystems devices count) a d name flags)
      (fun r => Failed r ∧ ¬ Creates (filesystems devices count) a m d name flags ↔
        m.Refuses (filesystems devices count) devices a d name flags) fun _ => True := by
  unfold Mounts.Refuses
  by_cases creates : Creates (filesystems devices count) a m d name flags
  · exact ends_true.mono (fun r _ => iff_of_false (fun both => both.2 creates) fun both => both.1 creates) fun _ => id
  rw [and_iff_right creates]
  simp only [and_iff_left creates]
  unfold Mounts.vfsDopen
  cases found : m.entry d name with
  | none =>
    apply Ends.bind (findOrCreate_missing steady fresh ahead live dir found creates)
    intro r failed
    obtain ⟨result, u⟩ := r
    obtain ⟨err, rfl⟩ := failed
    exact iff_of_true ⟨err, rfl⟩ nofun
  | some c =>
    have reduce : (∀ c', some c = some c' → (m.node c').kind = .dir ∨ flags &&& O_CREAT ≠ 0 ∧ flags &&& O_EXCL ≠ 0 ∨
        ∀ q, a.file = some q → (m.ops (filesystems devices count) c').opens.isSome ∧ (devices c').Refuses q flags) ↔
        (m.node c).kind = .dir ∨ flags &&& O_CREAT ≠ 0 ∧ flags &&& O_EXCL ≠ 0 ∨
        ∀ q, a.file = some q → (m.ops (filesystems devices count) c).opens.isSome ∧ (devices c).Refuses q flags := by
      simp
    rw [reduce, ← or_assoc]
    apply Ends.bind (findOrCreate_found steady ahead live dir found)
    intro r ends
    obtain ⟨result, u⟩ := r
    rcases ends with ⟨⟨err, rfl⟩, refuses⟩ | ⟨refuses, rfl, same⟩
    · exact iff_of_true ⟨err, rfl⟩ (Or.inl refuses)
    rw [or_iff_right refuses]
    dsimp only
    cases file : a.file with
    | none => exact put_failed.mono (fun _ failed => iff_of_true failed nofun) fun _ => id
    | some q =>
      have same' : SameMounts m (({ u with opened := insert q u.opened } : Mounts).setFile q
          ⟨c, flags &&& O_RDWR, if flags &&& O_APPEND ≠ 0 then (u.node c).data.size else 0, 1⟩) :=
        same.trans ⟨rfl, rfl, fun _ => rfl, fun _ => rfl, fun _ => rfl, rfl, rfl, rfl⟩
      apply (openFile_failed same' (congrArg File.dentry (if_pos rfl))).mono _ fun _ => id
      intro r failed
      rw [failed]
      simp

/-- A file that is made is opened, if it is found and there is memory for the `file_t`. -/
theorem vfsDopen_creates (steady : Steady m) (fresh : MountFresh a m) (ahead : Ahead m t [d] k) (live : d ∈ m.live)
    (dir : (m.node d).kind = .dir) (creates : Creates (filesystems devices count) a m d name flags)
    (granted : a.file = some q) (again : FoundAgain name) :
    Ends (t.vfsDopen (filesystems devices count) a d name flags) (fun r => ¬ Failed r) fun _ => True := by
  unfold Mounts.vfsDopen
  apply Ends.bind (findOrCreate_opening steady fresh ahead live dir)
  intro r opening
  cases opening with
  | failed stays => exact absurd creates stays
  | found stays => exact absurd creates stays
  | lost _ lost => exact absurd again lost
  | @created p u _ _ _ _ _ _ _ _ isRamfs =>
    dsimp only
    rw [granted]
    apply (openFile_ramfs (t := ({ u with opened := insert q u.opened } : Mounts).setFile q _) isRamfs).mono _
      fun _ => id
    intro r opened failed
    exact absurd (opened.symm.trans failed.choose_spec) nofun

/-! ### The calls -/

def Mounts.lookupPathForCreateFile (m : Mounts) (reg : Registry) (a : MountAnswers) (path : List UInt8) :
    Except MountStop (Except Int (Nat × Option Name) × Mounts) :=
  m.lookupPathCommon reg a path (LAST_MUST_NOT_EXIST ||| LAST_NO_SLASHES)

/-- The calls that are given a path, and may come to a regular file. -/
inductive FileCall where
  | opens (flags : BitVec 32)
  | lookup
  | createFile
  | unlink

namespace FileCall

/-- What a call returns: a number, a `file_t` or a dentry. -/
def act (reg : Registry) (a : MountAnswers) (m : Mounts) (path : List UInt8) :
    FileCall → Except MountStop (Except Int Nat × Mounts)
  | .opens flags => m.vfsOpen reg a path flags
  | .lookup => m.lookupPath reg a path
  | .createFile => (m.lookupPathForCreateFile reg a path).map fun r => (r.1.map Prod.fst, r.2)
  | .unlink => (m.vfsUnlink reg a path).map fun r => (VfsCall.act.value r.1, r.2)

/-- No regular file was found, opened, made or removed. -/
def Spares (m : Mounts) (r : Except Int Nat × Mounts) : FileCall → Prop
  | .lookup => ∀ d, r.1 = .ok d → (r.2.node d).kind ≠ .file
  | .createFile => Failed r
  | .opens _ => Failed r ∧ SameNamespace m r.2
  | .unlink => Failed r ∧ SameNamespace m r.2

/-- What makes a call spare the file, when a slash follows its name. -/
def Guarded (reg : Registry) (devices : Nat → Device) (a : MountAnswers) (m : Mounts) (path : List UInt8) :
    FileCall → Prop
  | .opens flags => ∀ d name, m.IsPlace a path d name → m.Refuses reg devices a d name flags
  | .createFile => ∀ d name, m.IsPlace a path d name → m.entry d name ≠ none
  | .lookup => True
  | .unlink => True

end FileCall

theorem target_named {flags : BitVec 8} {given : Option Name} (component : components path ≠ [])
    (found : m.target a flags path = .ok (d, given)) : ∃ name, given = some name := by
  unfold Mounts.target at found
  dsimp only at found
  rw [if_neg (mt components_eq_nil.mp component)] at found
  cases located : locate m.view a.toAnswers flags (path.dropWhile (· = slash)).length 0 (path.dropWhile (· = slash))
      m.root with
  | error err =>
    rw [located] at found
    cases found
  | ok r =>
    rw [located] at found
    cases found
    exact ⟨r.2, rfl⟩

theorem createFile_trailing (steady : Steady m) (component : components path ≠ []) :
    Ends (FileCall.act (filesystems devices count) a m path .createFile)
      (fun r => Failed r ↔ ∀ d name, m.IsPlace a path d name → m.entry d name ≠ none) fun _ => True := by
  have looks : Ends (m.lookupPathCommon (filesystems devices count) a path (LAST_MUST_NOT_EXIST ||| LAST_NO_SLASHES))
      _ _ := lookup_ends steady
  change Ends (Except.map _ (m.lookupPathCommon _ _ _ _)) _ _
  cases looked : m.lookupPathCommon (filesystems devices count) a path (LAST_MUST_NOT_EXIST ||| LAST_NO_SLASHES) with
  | error stop => trivial
  | ok r =>
    rw [looked] at looks
    obtain ⟨mounted, same, -, -⟩ := looks
    have last : ∀ d name, m.target a (LAST_MUST_NOT_EXIST ||| LAST_NO_SLASHES) path = .ok (d, some name) ↔
        m.IsPlace a path d name ∧ m.entry d name = none := fun d name => by
      rw [target_last (by decide) (Or.inr (by decide)) component (steady.root mounted).2, or_iff_right (by decide)]
    obtain ⟨result, t⟩ := r
    dsimp only at same
    cases result with
    | error err =>
      refine iff_of_true ⟨err, rfl⟩ fun d name place free => ?_
      exact absurd (same.trans ((last d name).mpr ⟨place, free⟩)) nofun
    | ok found =>
      obtain ⟨d, given⟩ := found
      obtain ⟨name, rfl⟩ := target_named component same.symm
      obtain ⟨place, free⟩ := (last d name).mp same.symm
      exact iff_of_false (fun failed => absurd failed.choose_spec nofun) fun all => all d name place free

theorem vfsOpen_trailing (steady : Steady m) (fresh : MountFresh a m) (component : components path ≠ []) :
    Ends (m.vfsOpen (filesystems devices count) a path flags) (fun r => Failed r ∧ SameNamespace m r.2 ↔
      ∀ d name, m.IsPlace a path d name → m.Refuses (filesystems devices count) devices a d name flags)
      fun _ => True := by
  have kept : Ends (m.vfsOpen (filesystems devices count) a path flags) _ _ := open_kept steady fresh
  have looks : Ends (m.lookupPathCommon (filesystems devices count) a path (LAST_RETURN ||| LAST_NO_SLASHES)) _ _ :=
    lookup_ends steady
  unfold Mounts.vfsOpen at kept ⊢
  dsimp only [VfsCall.Leaves] at kept
  cases looked : m.lookupPathCommon (filesystems devices count) a path (LAST_RETURN ||| LAST_NO_SLASHES) with
  | error stop => trivial
  | ok r =>
    rw [looked] at looks kept
    obtain ⟨mounted, same, ahead, live⟩ := looks
    have last : ∀ d name, m.target a (LAST_RETURN ||| LAST_NO_SLASHES) path = .ok (d, some name) ↔
        m.IsPlace a path d name := fun d name => by
      rw [target_last (by decide) (Or.inl (by decide)) component (steady.root mounted).2,
        and_iff_left (Or.inl (by decide))]
    obtain ⟨result, t⟩ := r
    dsimp only at same
    cases result with
    | error err =>
      refine iff_of_true ⟨⟨err, rfl⟩, ?_⟩ fun d name place => absurd (same.trans ((last d name).mpr place)) nofun
      exact ahead.sameNamespace steady
    | ok found =>
      obtain ⟨d, given⟩ := found
      obtain ⟨name, rfl⟩ := target_named component same.symm
      obtain ⟨dir, -⟩ := target_place steady mounted same.symm
      rw [← same] at ahead live
      have live := live d (some name) rfl
      have only : (∀ d name, m.IsPlace a path d name → m.Refuses (filesystems devices count) devices a d name flags) ↔
          m.Refuses (filesystems devices count) devices a d name flags := by
        constructor
        · exact fun all => all d name ((last d name).mp same.symm)
        · intro refuses d' name' place
          cases (same.trans ((last d' name').mpr place))
          exact refuses
      rw [only]
      have refuses : Ends (t.vfsDopen (filesystems devices count) a d name flags) _ _ :=
        vfsDopen_refuses steady fresh ahead live dir
      have creates : Creates (filesystems devices count) a m d name flags → ∀ q, a.file = some q →
          FoundAgain name → Ends (t.vfsDopen (filesystems devices count) a d name flags) _ _ :=
        fun makes q granted again => vfsDopen_creates steady fresh ahead live dir makes granted again
      dsimp only at kept ⊢
      rw [Lib.ok_bind] at kept ⊢
      dsimp only at kept ⊢
      cases opened : t.vfsDopen (filesystems devices count) a d name flags with
      | error stop => trivial
      | ok r =>
        obtain ⟨ret, u⟩ := r
        rw [opened] at refuses creates kept
        rw [Lib.ok_bind] at kept ⊢
        dsimp only at kept ⊢
        cases put : u.put d with
        | error stop => trivial
        | ok v =>
          rw [put] at kept
          have kept : (∀ err, ret = .error err → SameNamespace m v) ↔ ¬ ∃ e given,
              m.target a (LAST_RETURN ||| LAST_NO_SLASHES) path = .ok (e, some given) ∧ m.entry e given = none ∧
                flags &&& O_CREAT ≠ 0 ∧ ((m.ops (filesystems devices count) (m.into e)).create).isSome ∧
                  a.dentry.isSome ∧ a.priv = true ∧ (a.file = none ∨ ¬ FoundAgain given) := kept
          have refuses : Failed (ret, u) ∧ ¬ Creates (filesystems devices count) a m d name flags ↔ _ := refuses
          change (∃ err, ret = .error err) ∧ SameNamespace m v ↔ _
          rw [← refuses]
          constructor
          · intro both
            refine ⟨both.1, fun makes => ?_⟩
            have leaves (without : a.file = none ∨ ¬ FoundAgain name) : False := by
              apply kept.mp fun _ _ => both.2
              exact ⟨d, name, same.symm, makes.1, makes.2.1, makes.2.2.1, makes.2.2.2.1, makes.2.2.2.2, without⟩
            cases file : a.file with
            | none => exact leaves (Or.inl file)
            | some q => exact creates makes q file (not_not.mp fun lost => leaves (Or.inr lost)) both.1
          · intro both
            obtain ⟨⟨err, failed⟩, stays⟩ := both
            refine ⟨⟨err, failed⟩, kept.mpr (fun leaves => ?_) err failed⟩
            obtain ⟨e, given, found, free, create, op, dentry, priv, -⟩ := leaves
            cases (same.trans found)
            exact stays ⟨free, create, op, dentry, priv⟩

theorem vfsUnlink_spares (steady : Steady m) (component : components path ≠ []) (slashes : Trailing path) :
    Ends (FileCall.act (filesystems devices count) a m path .unlink)
      (fun r => Failed r ∧ SameNamespace m r.2) fun _ => True := by
  have fails : Ends (m.vfsUnlink (filesystems devices count) a path) _ _ := vfsUnlink_trailing steady component slashes
  have kept : Ends (m.vfsUnlink (filesystems devices count) a path) _ _ := unlink_kept steady
  change Ends (Except.map _ (m.vfsUnlink _ _ _)) _ _
  cases unlinked : m.vfsUnlink (filesystems devices count) a path with
  | error stop => trivial
  | ok r =>
    rw [unlinked] at fails kept
    exact ⟨⟨r.1, if_pos fails⟩, kept fails⟩

theorem slash_spares_file_iff (devices : Nat → Device) (count : Nat) (m t : Mounts) (steady : Steady m)
    (a : MountAnswers) (fresh : MountFresh a m) (path : List UInt8) (component : components path ≠ [])
    (slashes : Trailing path) (call : FileCall) (ret : Except Int Nat)
    (returned : call.act (filesystems devices count) a m path = .ok (ret, t)) :
    call.Spares m (ret, t) ↔ call.Guarded (filesystems devices count) devices a m path := by
  cases call with
  | opens flags => exact (vfsOpen_trailing steady fresh component).of_ok returned
  | lookup =>
    refine iff_of_true (fun d found => ?_) trivial
    rw [(lookupPath_trailing component slashes).of_ok returned d found]
    nofun
  | createFile => exact (createFile_trailing steady component).of_ok returned
  | unlink => exact iff_of_true ((vfsUnlink_spares steady component slashes).of_ok returned) trivial

def oneFile : Mounts where
  root := 1
  live := {1, 2}
  node := fun x => ⟨if x = 2 then [97] else [slash], 0, 1, if x = 2 then .file else .dir, if x = 1 then [2] else [], .new⟩
  opened := ∅
  file := fun _ => ⟨0, 0, 0, 0⟩
  sb := fun _ => 0
  mnt := fun _ => none
  super := fun _ => ⟨0, 1⟩

theorem oneFile_steady : Steady oneFile where
  nonnull := by decide
  children := by decide
  mounted := nofun
  root := by decide
  counted := fun x live => le_rfl
  short := by
    intro x
    change (if x = 2 then [97] else [slash] : List UInt8).length < 256
    split <;> decide

theorem oneFile_fresh : MountFresh (plentiful 9) oneFile where
  dentry := by
    rintro _ ⟨⟩
    decide
  super := by
    rintro _ ⟨⟩
    exact ⟨by decide, nofun⟩

theorem slash_spares_file_iff_lookup : ∃ t,
    FileCall.lookup.Spares oneFile (.error (-ENOTDIR), t) ↔
      FileCall.lookup.Guarded (filesystems (fun _ => nullDevice) 1) (fun _ => nullDevice) (plentiful 9) oneFile
        [slash, 97, slash] :=
  ⟨_, slash_spares_file_iff (fun _ => nullDevice) 1 oneFile _ oneFile_steady (plentiful 9) oneFile_fresh
    [slash, 97, slash] (by decide) (by decide) .lookup (.error (-ENOTDIR)) rfl⟩

/-- `vfs_open` of "/a/" opens the file. -/
theorem slash_opens_file : components [slash, 97, slash] ≠ [] ∧ Trailing [slash, 97, slash] ∧
    ¬ ∀ (call : FileCall) ret t,
      call.act (filesystems (fun _ => nullDevice) 1) (plentiful 9) oneFile [slash, 97, slash] = .ok (ret, t) →
        call.Spares oneFile (ret, t) := by
  refine ⟨by decide, by decide, fun all => ?_⟩
  have failed := (all (.opens O_RDONLY) (.ok 9) _ rfl).1
  exact absurd failed.choose_spec nofun

end Landaux
