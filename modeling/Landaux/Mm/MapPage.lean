import Landaux.Lib.Trail
import Landaux.Mm.Counts

/-!
# Walking the whole directory

`find_user_pte` and `map_page` go down from a directory in the same way, for addresses of either half,
and allocate the tables that are missing. What the processor makes of the tables is `hardwareWalk`;
entries of the levels above the last may name large pages, as those of the kernel image do.
-/

namespace Landaux
open Lib Radix

/-! ### What the processor reads -/

/-- The tables of a whole directory. An entry of a large page names no table. -/
def wholeTables : Radix Word where
  radix := 512
  width _ := 512
  narrow _ := le_rfl
  next e := if Pte.present e && !Pte.large e then some (Pte.frame e) else none

/-- The entries that translate: of the top level there are none. -/
def translates (n : Nat) (e : Word) : Bool :=
  Pte.present e && (n == 0 || (n != 3 && Pte.large e))

/-- The entries that the processor reads for page `v`, down to the one that translates it. -/
def hardwareWalk (ram : Memory Word) (root v : Nat) : Option (List Word) :=
  wholeTables.trail translates ram v 3 root

instance (address : Nat) : Decidable (Canonical address) :=
  inferInstanceAs (Decidable (_ ∨ _))

/-- The same for an address. -/
def translation (ram : Memory Word) (root address : Nat) : Option (List Word) :=
  if Canonical address then hardwareWalk ram root (address / PAGE_SIZE) else none

/-- No large page lies on the way down for page `v` from table `t` of level `n`. -/
def SmallPages (ram : Memory Word) (v : Nat) : Nat → Nat → Prop
  | 0, _ => True
  | n + 1, t => Pte.present (ram t (v / 512 ^ (n + 1) % 512)) = true →
    Pte.large (ram t (v / 512 ^ (n + 1) % 512)) = false ∧
      SmallPages ram v n (Pte.frame (ram t (v / 512 ^ (n + 1) % 512)))

/-! ### `map_page` -/

def tableEntry (new : Nat) (flags : BitVec 8) : Word :=
  Pte.setFlags (Pte.setFrame 0 new) (PTE_PRESENT ||| PTE_WRITE ||| flags)

/-- The loop of `map_page`: the table of the last level, in which the entry of page `v` is `v % 512`. -/
def mapTables (flags : BitVec 8) (v : Nat) : Nat → Nat → State → Except Stop (Nat × State)
  | 0, table, s => .ok (table, s)
  | n + 1, table, s =>
    let i := v / 512 ^ (n + 1) % 512
    if Pte.present (s.ram table i) then mapTables flags v n (Pte.frame (s.ram table i)) s
    else do
      let (new, s) ← allocPage s
      if new = 0 then throw .noMemory
      let s := s.zeroPage new
      let s := s.setWord table i (tableEntry new flags)
      mapTables flags v n new s

/-- `map_page`; `flags` is an `int`, of which an entry keeps 8 bits. -/
def mapPage (frame address : Nat) (flags : BitVec 32) (s : State) : Except Stop State :=
  if address % PAGE_SIZE ≠ 0 then throw .mapping
  else do
    let v := address / PAGE_SIZE
    let (table, s) ← mapTables (flags.setWidth 8) v 3 s.current.pageDir s
    if Pte.present (s.ram table (v % 512)) then throw .mapping
    let s := s.setWord table (v % 512)
      (Pte.setFlags (Pte.setFrame 0 frame) (PTE_PRESENT ||| flags.setWidth 8))
    return s.invalidate v

def mapKernelPage (frame address : Nat) (s : State) : Except Stop State :=
  mapPage frame address (PTE_WRITE.setWidth 32) s

/-- `find_user_pte` goes down with `PTE_USER`. -/
theorem findUserPte_eq (v n table : Nat) (s : State) :
    findUserPte v n table s = mapTables PTE_USER v n table s := by
  induction n generalizing table s with
  | zero => rfl
  | succ n ih =>
    rw [findUserPte, mapTables]
    simp only [ih]
    rfl

/-! ### Frames that can be handed out -/

/-- A frame that `alloc_phys_page` may still return. -/
def Pmm.State.Spare (s : Pmm.State) (f : Nat) : Prop :=
  ∃ k, k < s.frames ∧ s.bitmap.bit k = false ∧ f = s.firstFrame + k

/-- The allocator in order, at any time after `init_pmm`. Frame numbers fit an entry. -/
structure Allocates (s : Pmm.State) : Prop where
  inv : Pmm.Inv s
  narrow : s.firstFrame + s.frames ≤ 2 ^ 40

structure Handed (s : Pmm.State) (f : Nat) (s' : Pmm.State) : Prop where
  allocates : Allocates s'
  spare : s.Spare f
  rest : ∀ g, s'.Spare g ↔ s.Spare g ∧ g ≠ f
  room : s.room = s'.room + 1

variable {s s' t : State} {root v w table new n i u : Nat} {flags : BitVec 8}
  {fresh fresh' : Multiset Nat}

theorem spare_taken {p : Pmm.State} {k g : Nat} {pages : Option Pmm.Pages} :
    (p.taken k pages).Spare g ↔ p.Spare g ∧ g ≠ p.firstFrame + k := by
  constructor
  · intro ⟨j, inside, off, number⟩
    rw [Pmm.State.taken_bit, Bool.or_eq_false_iff, decide_eq_false_iff_not] at off
    change g = p.firstFrame + j at number
    exact ⟨⟨j, inside, off.1, number⟩, by omega⟩
  · intro ⟨⟨j, inside, off, number⟩, other⟩
    refine ⟨j, inside, ?_, number⟩
    rw [Pmm.State.taken_bit, off, decide_eq_false (by omega)]
    rfl

theorem allocPage_hands (alloc : Allocates s.pmm) : Ends (allocPage s)
    (fun r => (r.1 = 0 ∧ s.room = 0) ∨
      (r.1 ≠ 0 ∧ ∃ pmm, r.2 = { s with pmm } ∧ Handed s.pmm r.1 pmm)) (fun _ => False) := by
  have inv := alloc.inv
  unfold allocPage
  rcases inv.alloc with ⟨full, eq⟩ | ⟨k, pages, inside, off, -, eq, shape⟩
  · rw [eq]
    exact Or.inl ⟨rfl, Pmm.room_full full⟩
  · rw [eq]
    have taken := Pmm.step_inv inv (.alloc eq)
    refine Or.inr ⟨fun zero => ?_, s.pmm.taken k pages, rfl, ⟨taken, alloc.narrow⟩,
      ⟨k, inside, off, rfl⟩, fun g => spare_taken, Pmm.room_taken taken inside off⟩
    rw [show k = 0 by dsimp only at zero; omega] at off inside
    simp [inv.own 0 (by unfold Pmm.State.frames at inside; unfold Pmm.bitmapFrames PAGE_SIZE; omega)] at off

/-! ### Growing the tree -/

/-- A tree of tables none of which is reached twice or can be handed out. -/
structure Unshared (s : State) (root : Nat) : Prop where
  once : (wholeTables.tables s.ram 3 root).Nodup
  kept : ∀ u ∈ wholeTables.tables s.ram 3 root, ¬ s.pmm.Spare u

/-- `s'` is `s` with the tables `fresh` added to the tree, and nothing else: they are empty but for the
entries that name them, which were not in use, and no translation changes. -/
structure Extended (s : State) (root : Nat) (flags : BitVec 8) (fresh : Multiset Nat) (s' : State) :
    Prop where
  only : s' = { s with ram := s'.ram, pmm := s'.pmm }
  tables : wholeTables.tables s'.ram 3 root = wholeTables.tables s.ram 3 root + fresh
  spare : ∀ u ∈ fresh, s.pmm.Spare u
  fewer : ∀ u, s'.pmm.Spare u → s.pmm.Spare u
  words : ∀ u i, s'.ram u i = s.ram u i ∧ u ∉ fresh ∨ s'.ram u i = 0 ∧ u ∈ fresh ∨
    ∃ new ∈ fresh, s'.ram u i = tableEntry new flags ∧
      (u ∈ fresh ∨ u ∈ wholeTables.tables s.ram 3 root ∧ Pte.present (s.ram u i) = false)
  walks : ∀ w, hardwareWalk s'.ram root w = hardwareWalk s.ram root w

theorem inside_whole (v n : Nat) : wholeTables.Inside v n :=
  fun k _ => Nat.mod_lt _ (show 0 < 512 by omega)

theorem leaf_ends (k : Nat) (e : Word) (leaf : translates (k + 1) e = true) :
    wholeTables.next e = none := by
  have large : Pte.large e = true := by
    simp [translates] at leaf
    exact leaf.2.2
  simp [wholeTables, large]

theorem next_whole (present : Pte.present (s.ram table i) = true)
    (small : Pte.large (s.ram table i) = false) :
    wholeTables.next (s.ram table i) = some (Pte.frame (s.ram table i)) := by
  simp [wholeTables, present, small]

theorem entry_flags (plain : flags &&& PTE_SIZE = 0) :
    (PTE_PRESENT ||| PTE_WRITE ||| flags) &&& PTE_PRESENT ≠ 0 ∧
      (PTE_PRESENT ||| PTE_WRITE ||| flags) &&& PTE_SIZE = 0 := by
  revert flags
  decide

theorem present_entry (plain : flags &&& PTE_SIZE = 0) :
    Pte.present (tableEntry new flags) = true := by
  rw [tableEntry, Pte.present_setFlags]
  simpa using (entry_flags plain).1

theorem large_entry (plain : flags &&& PTE_SIZE = 0) : Pte.large (tableEntry new flags) = false := by
  rw [tableEntry, Pte.large, Pte.flags_setFlags]
  simpa using (entry_flags plain).2

theorem next_entry (narrow : new < 2 ^ 40) (plain : flags &&& PTE_SIZE = 0) :
    wholeTables.next (tableEntry new flags) = some new := by
  have frame : Pte.frame (tableEntry new flags) = new := by
    rw [tableEntry, Pte.frame_setFlags, Pte.frame_setFrame narrow]
  simp [wholeTables, present_entry plain, large_entry plain, frame]

theorem next_absent {e : Word} (absent : Pte.present e = false) : wholeTables.next e = none := by
  simp [wholeTables, absent]

theorem translates_absent {e : Word} (absent : Pte.present e = false) : translates n e = false := by
  simp [translates, absent]

/-- Nothing is translated below an empty table. -/
theorem trail_empty {ram : Memory Word} (empty : ∀ j, ram table j = 0) :
    wholeTables.trail translates ram v n table = none := by
  apply trail_none
  · rw [empty]
    exact translates_absent Pte.present_zero
  · rw [empty]
    exact Or.inr (next_absent Pte.present_zero)

/-- The stores that make an empty table out of page `new` and enter it. -/
def State.enter (s : State) (table i new : Nat) (flags : BitVec 8) : State :=
  (s.zeroPage new).setWord table i (tableEntry new flags)

theorem enter_off : Off (s.zeroPage new).ram (s.enter table i new flags).ram table i :=
  fun a j other => if_neg (by tauto)

theorem enter_word : (s.enter table i new flags).ram table i = tableEntry new flags :=
  if_pos ⟨rfl, rfl⟩

/-- An entry that was not in use and names an empty table translates nothing. -/
theorem walks_enter {ram ram' : Memory Word} (once : (wholeTables.tables ram 3 root).Nodup)
    (le : n + 1 ≤ 3) (path : wholeTables.tableOf ram v (n + 1) 3 root = some table)
    (off : Off ram ram' table (wholeTables.index v (n + 1)))
    (absent : Pte.present (ram table (wholeTables.index v (n + 1))) = false)
    (used : wholeTables.next (ram' table (wholeTables.index v (n + 1))) = some new)
    (bare : translates (n + 1) (ram' table (wholeTables.index v (n + 1))) = false)
    (empty : ∀ j, ram' new j = 0) (w : Nat) : hardwareWalk ram' root w = hardwareWalk ram root w := by
  unfold hardwareWalk
  by_cases parts : ∃ k, n + 1 ≤ k ∧ k ≤ 3 ∧ wholeTables.index w k ≠ wholeTables.index v k
  · exact trail_apart once (inside_whole v 3) (inside_whole w 3) le path off parts
  · -- the walk for `w` comes to the entry: it ended there, and now ends in the new table
    have agree : ∀ k, n + 1 ≤ k → k ≤ 3 → wholeTables.index w k = wholeTables.index v k := by
      intro k low high
      by_contra different
      exact parts ⟨k, low, high, different⟩
    have path' := (tableOf_agree (fun k above high => agree k (by omega) high) le).trans path
    obtain ⟨upper, reads⟩ := trail_along leaf_ends once (inside_whole w 3) le path'
    have same := agree (n + 1) le_rfl le
    rw [reads ram fun _ _ _ => rfl, reads ram' (same ▸ off)]
    rw [← same] at absent used bare
    rw [trail_none (translates_absent absent) (Or.inr (next_absent absent)), trail_succ bare used,
      trail_empty empty]
    rfl

/-- A new table is entered at the end of a path. -/
theorem enter_spec {pmm : Pmm.State} (plain : flags &&& PTE_SIZE = 0) (alloc : Allocates s.pmm)
    (tree : Unshared s root) (below : n < 3)
    (path : wholeTables.tableOf s.ram v (n + 1) 3 root = some table)
    (absent : Pte.present (s.ram table (wholeTables.index v (n + 1))) = false)
    (handed : Handed s.pmm new pmm) :
    ∃ s', s' = State.enter { s with pmm } table (wholeTables.index v (n + 1)) new flags ∧
      Extended s root flags {new} s' ∧ Unshared s' root ∧
      wholeTables.tableOf s'.ram v n 3 root = some new ∧ ∀ j, s'.ram new j = 0 := by
  have inside := inside_whole v 3
  have member := tableOf_mem inside below path
  have notNew : ∀ u ∈ wholeTables.tables s.ram 3 root, u ≠ new :=
    fun u inTree same => tree.kept u inTree (same ▸ handed.spare)
  have apart := notNew table member
  have narrow : new < 2 ^ 40 := by
    obtain ⟨k, inside, -, rfl⟩ := handed.spare
    have := alloc.narrow
    omega
  -- first the new table alone, which is not in the tree yet
  generalize middle : State.zeroPage { s with pmm } new = mid
  have midWords : ∀ u j, mid.ram u j = if u = new then 0 else s.ram u j := fun u j => by
    rw [← middle]
    rfl
  have midSame : ∀ u ∈ wholeTables.tables s.ram 3 root, mid.ram u = s.ram u :=
    fun u inTree => funext fun j => by rw [midWords, if_neg (notNew u inTree)]
  have midOnce : (wholeTables.tables mid.ram 3 root).Nodup := by
    rw [tables_congr midSame]
    exact tree.once
  have midPath := (tableOf_congr inside midSame).trans path
  have midAbsent : Pte.present (mid.ram table (wholeTables.index v (n + 1))) = false := by
    rwa [midSame table member]
  -- then the entry that names it
  refine ⟨State.enter { s with pmm } table (wholeTables.index v (n + 1)) new flags, rfl, ?_⟩
  have off : Off (State.zeroPage { s with pmm } new).ram
      (State.enter { s with pmm } table (wholeTables.index v (n + 1)) new flags).ram table
      (wholeTables.index v (n + 1)) := enter_off
  rw [middle] at off
  have word : (State.enter { s with pmm } table (wholeTables.index v (n + 1)) new flags).ram table
      (wholeTables.index v (n + 1)) = tableEntry new flags := enter_word
  have only : State.enter { s with pmm } table (wholeTables.index v (n + 1)) new flags =
      { s with pmm, ram := (State.enter { s with pmm } table (wholeTables.index v (n + 1)) new flags).ram } := rfl
  generalize State.enter { s with pmm } table (wholeTables.index v (n + 1)) new flags = s' at *
  have used := next_entry narrow plain
  rw [← word] at used
  have empty : ∀ j, s'.ram new j = 0 := fun j => by
    rw [off new j (Or.inl apart.symm), midWords, if_pos rfl]
  have single : wholeTables.tables s'.ram n new = {new} :=
    tables_unused fun j _ => next_absent (by rw [empty]; exact Pte.present_zero)
  have tables := tables_replace midOnce inside (by omega) midPath off
  rw [tablesAt_none (next_absent midAbsent), tablesAt_succ used, single, tables_congr midSame,
    add_zero] at tables
  have newPath := tableOf_down (by omega) (tableOf_replace midOnce inside (by omega) midPath off) used
  have pmm' : s'.pmm = pmm := by rw [only]
  refine ⟨⟨by rw [pmm']; exact only, tables, ?_, ?_, ?_, ?_⟩, ⟨?_, ?_⟩, newPath, empty⟩
  · intro u isNew
    rw [Multiset.mem_singleton.mp isNew]
    exact handed.spare
  · intro u spare
    rw [pmm', handed.rest] at spare
    exact spare.1
  · intro u j
    by_cases entry : u = table ∧ j = wholeTables.index v (n + 1)
    · obtain ⟨rfl, rfl⟩ := entry
      exact Or.inr (Or.inr ⟨new, Multiset.mem_singleton_self new, word, Or.inr ⟨member, absent⟩⟩)
    · rw [off u j (by tauto), midWords]
      by_cases isNew : u = new
      · rw [if_pos isNew]
        exact Or.inr (Or.inl ⟨rfl, Multiset.mem_singleton.mpr isNew⟩)
      · rw [if_neg isNew]
        exact Or.inl ⟨rfl, fun clash => isNew (Multiset.mem_singleton.mp clash)⟩
  · intro w
    have kept : hardwareWalk mid.ram root w = hardwareWalk s.ram root w :=
      trail_congr (inside_whole w 3) midSame
    rw [← kept]
    exact walks_enter midOnce (by omega) midPath off midAbsent used
      (by rw [word, translates, large_entry plain]; simp) empty w
  · rw [tables, Multiset.nodup_add]
    refine ⟨tree.once, Multiset.nodup_singleton new, Multiset.disjoint_left.mpr ?_⟩
    intro u inTree isNew
    exact notNew u inTree (Multiset.mem_singleton.mp isNew)
  · intro u inTree spare
    rw [pmm', handed.rest] at spare
    rw [tables] at inTree
    rcases Multiset.mem_add.mp inTree with before | isNew
    · exact tree.kept u before spare.1
    · exact spare.2 (Multiset.mem_singleton.mp isNew)

theorem Extended.refl : Extended s root flags 0 s :=
  ⟨rfl, by rw [add_zero], by simp, fun _ h => h, fun _ _ => Or.inl ⟨rfl, by simp⟩, fun _ => rfl⟩

theorem Extended.trans (plain : flags &&& PTE_SIZE = 0) (first : Extended s root flags fresh t)
    (rest : Extended t root flags fresh' s') : Extended s root flags (fresh + fresh') s' := by
  refine ⟨?_, by rw [rest.tables, first.tables, add_assoc], ?_, fun u h => first.fewer u (rest.fewer u h),
    fun u i => ?_, fun w => (rest.walks w).trans (first.walks w)⟩
  · rw [rest.only, first.only]
  · intro u member
    rcases Multiset.mem_add.mp member with early | late
    · exact first.spare u early
    · exact first.fewer u (rest.spare u late)
  · simp only [Multiset.mem_add, not_or]
    rcases rest.words u i with ⟨same, old⟩ | ⟨zero, isNew⟩ | ⟨new, late, entry, place⟩
    · rw [same]
      rcases first.words u i with ⟨same, older⟩ | ⟨zero, isNew⟩ | ⟨new, early, entry, place⟩
      · exact Or.inl ⟨same, older, old⟩
      · exact Or.inr (Or.inl ⟨zero, Or.inl isNew⟩)
      · exact Or.inr (Or.inr ⟨new, Or.inl early, entry, place.imp_left Or.inl⟩)
    · exact Or.inr (Or.inl ⟨zero, Or.inr isNew⟩)
    · refine Or.inr (Or.inr ⟨new, Or.inr late, entry, ?_⟩)
      rcases place with isNew | ⟨inTree, absent⟩
      · exact Or.inl (Or.inr isNew)
      rw [first.tables] at inTree
      rcases Multiset.mem_add.mp inTree with before | isNew
      · rcases first.words u i with ⟨same, -⟩ | ⟨-, isNew⟩ | ⟨_, -, taken, -⟩
        · exact Or.inr ⟨before, same ▸ absent⟩
        · exact Or.inl (Or.inl isNew)
        · rw [taken, present_entry plain] at absent
          cases absent
      · exact Or.inl (Or.inl isNew)

theorem smallPages_empty {ram : Memory Word} (empty : ∀ j, ram table j = 0) (n : Nat) :
    SmallPages ram v n table := by
  cases n with
  | zero => trivial
  | succ n =>
    intro present
    rw [empty, Pte.present_zero] at present
    cases present

/-- The loop goes down to the table of the last level on the path of `v`, and only stops when the frames
run out. -/
theorem mapTables_spec (plain : flags &&& PTE_SIZE = 0) (n : Nat) (atMost : n ≤ 3) : ∀ table s,
    Allocates s.pmm → Unshared s root → wholeTables.tableOf s.ram v n 3 root = some table →
    SmallPages s.ram v n table →
    Ends (mapTables flags v n table s)
      (fun r => ∃ fresh, Extended s root flags fresh r.2 ∧ Unshared r.2 root ∧
        wholeTables.tableOf r.2.ram v 0 3 root = some r.1)
      (fun e => e = .noMemory ∧ s.room < n) := by
  induction n with
  | zero => exact fun table s _ tree path _ => ⟨0, .refl, tree, path⟩
  | succ n ih =>
    intro table s alloc tree path small
    rw [mapTables]
    change Ends (if Pte.present (s.ram table (wholeTables.index v (n + 1))) = true then _ else _) _ _
    by_cases present : Pte.present (s.ram table (wholeTables.index v (n + 1))) = true
    · rw [if_pos present]
      obtain ⟨little, deeper⟩ := small present
      have down := tableOf_down (by omega) path (next_whole present little)
      exact (ih (by omega) _ s alloc tree down deeper).mono (fun _ h => h)
        fun e ⟨why, short⟩ => ⟨why, by omega⟩
    · rw [if_neg present]
      apply Ends.bind ((allocPage_hands alloc).mono (fun _ h => h) fun _ never => never.elim)
      rintro ⟨new, t⟩ (⟨rfl, full⟩ | ⟨nonzero, pmm, rfl, handed⟩)
      · exact ⟨rfl, by omega⟩
      dsimp only at nonzero handed ⊢
      rw [if_neg nonzero]
      obtain ⟨s', eq, grown, tree', path', empty⟩ :=
        enter_spec plain alloc tree (by omega) path (by simpa using present) handed
      change Ends (mapTables flags v n new (State.enter _ _ (wholeTables.index v (n + 1)) new flags)) _ _
      rw [← eq]
      have pmm' : s'.pmm = pmm := by rw [eq]; rfl
      have room : s.room = s'.room + 1 := by
        unfold State.room
        rw [pmm']
        exact handed.room
      apply (ih (by omega) new s' (pmm' ▸ handed.allocates) tree' path' (smallPages_empty empty n)).mono
      · rintro ⟨last, s''⟩ ⟨fresh, more, rest⟩
        exact ⟨_, grown.trans plain more, rest⟩
      · exact fun e ⟨why, short⟩ => ⟨why, by omega⟩

/-! ### The entry of the last level -/

/-- Entry `i` of `table` is the one of the last level for page `v`: the walk ends there with whatever it
holds. -/
def UsesSlot (ram : Memory Word) (root v table i : Nat) : Prop :=
  ∃ upper : List Word, ∀ ram', Off ram ram' table i → hardwareWalk ram' root v =
    if Pte.present (ram' table i) then some (upper ++ [ram' table i]) else none

theorem translates_zero {e : Word} : translates 0 e = Pte.present e := by simp [translates]

theorem slot_index (v : Nat) : wholeTables.index v 0 = v % 512 := by
  show v / 512 ^ 0 % 512 = _
  rw [Nat.pow_zero, Nat.div_one]

theorem Unshared.usesSlot (tree : Unshared s root)
    (path : wholeTables.tableOf s.ram v 0 3 root = some table) :
    UsesSlot s.ram root v table (v % 512) := by
  have slot := slot_index v
  obtain ⟨upper, reads⟩ := trail_along leaf_ends tree.once (inside_whole v 3) (Nat.zero_le 3) path
  refine ⟨upper, fun ram' off => ?_⟩
  rw [hardwareWalk, reads ram' (slot ▸ off), trail, translates_zero, slot]
  split <;> rfl

/-- After `map_page` the page of `address` is translated by an entry with the frame and the flags, and
every other page as before. -/
structure Mapped (s : State) (frame address : Nat) (flags : BitVec 32) (s' : State) : Prop where
  same : s'.current = s.current
  here : ∀ a, a / PAGE_SIZE = address / PAGE_SIZE → ∃ upper e,
    translation s'.ram s.current.pageDir a = some (upper ++ [e]) ∧
      Pte.frame e = frame % 2 ^ 40 ∧ Pte.flags e = PTE_PRESENT ||| flags.setWidth 8
  others : ∀ a, a / PAGE_SIZE ≠ address / PAGE_SIZE →
    translation s'.ram s.current.pageDir a = translation s.ram s.current.pageDir a
  flushed : s'.tlb (address / PAGE_SIZE) = none

/-- Pages of canonical addresses have paths of their own. -/
theorem paths_part {a b : Nat} (canon : Canonical a) (canon' : Canonical b)
    (other : a / PAGE_SIZE ≠ b / PAGE_SIZE) : ∃ k, 0 ≤ k ∧ k ≤ 3 ∧
      wholeTables.index (a / PAGE_SIZE) k ≠ wholeTables.index (b / PAGE_SIZE) k := by
  by_contra same
  have agree : ∀ k, k ≤ 3 → a / PAGE_SIZE / 512 ^ k % 512 = b / PAGE_SIZE / 512 ^ k % 512 := by
    intro k high
    by_contra different
    exact same ⟨k, Nat.zero_le k, high, different⟩
  have digits : ∀ n : Nat, n % 2 ^ 36 = n / 512 ^ 0 % 512 + 512 * (n / 512 ^ 1 % 512) +
      512 ^ 2 * (n / 512 ^ 2 % 512) + 512 ^ 3 * (n / 512 ^ 3 % 512) := by omega
  have low : a / PAGE_SIZE % 2 ^ 36 = b / PAGE_SIZE % 2 ^ 36 := by
    rw [digits, digits, agree 0 (by decide), agree 1 (by decide), agree 2 (by decide), agree 3 (by decide)]
  unfold Canonical at canon canon'
  clear agree same digits
  unfold PAGE_SIZE at *
  omega

theorem flags_present (flags : BitVec 8) : (PTE_PRESENT ||| flags) &&& PTE_PRESENT ≠ 0 := by
  revert flags
  decide

theorem mapPage_spec {frame address : Nat} {flags : BitVec 32} (canon : Canonical address)
    (aligned : address % PAGE_SIZE = 0) (plain : flags.setWidth 8 &&& PTE_SIZE = 0)
    (alloc : Allocates s.pmm) (tree : Unshared s s.current.pageDir)
    (small : SmallPages s.ram (address / PAGE_SIZE) 3 s.current.pageDir)
    (absent : translation s.ram s.current.pageDir address = none) :
    Ends (mapPage frame address flags s) (Mapped s frame address flags)
      (fun e => e = .noMemory ∧ s.room < 3) := by
  unfold mapPage
  rw [if_neg (by omega)]
  apply Ends.bind (mapTables_spec plain 3 le_rfl _ s alloc tree tableOf_self small)
  rintro ⟨table, t⟩ ⟨fresh, grown, tree', path⟩
  dsimp only at grown tree' path ⊢
  obtain ⟨upper, slot⟩ := tree'.usesSlot path
  rw [translation, if_pos canon] at absent
  have free : Pte.present (t.ram table (address / PAGE_SIZE % 512)) = false := by
    have walk := slot t.ram fun _ _ _ => rfl
    rw [grown.walks, absent] at walk
    by_contra present
    rw [if_pos (by simpa using present)] at walk
    cases walk
  rw [if_neg (by simp [free])]
  generalize filled : Pte.setFlags (Pte.setFrame 0 frame) (PTE_PRESENT ||| flags.setWidth 8) = e
  have off : Off t.ram (t.setWord table (address / PAGE_SIZE % 512) e).ram table
      (address / PAGE_SIZE % 512) := fun a j other => if_neg (by tauto)
  have word : (t.setWord table (address / PAGE_SIZE % 512) e).ram table (address / PAGE_SIZE % 512) = e :=
    if_pos ⟨rfl, rfl⟩
  have present : Pte.present e = true := by
    rw [← filled, Pte.present_setFlags]
    simpa using flags_present (flags.setWidth 8)
  refine ⟨by rw [grown.only]; rfl, fun a page => ?_, fun a other => ?_, if_pos rfl⟩
  · have canonA : Canonical a := by
      unfold Canonical PAGE_SIZE at *
      omega
    refine ⟨upper, e, ?_, ?_, ?_⟩
    · show translation (t.setWord table (address / PAGE_SIZE % 512) e).ram _ a = _
      rw [translation, if_pos canonA, page, slot _ off, word, if_pos present]
    · rw [← filled, Pte.frame_setFlags, Pte.frame_setFrame_mod]
    · rw [← filled, Pte.flags_setFlags]
  · show translation (t.setWord table (address / PAGE_SIZE % 512) e).ram _ a = _
    unfold translation
    by_cases canonA : Canonical a
    · rw [if_pos canonA, if_pos canonA, ← grown.walks]
      exact trail_apart tree'.once (inside_whole _ 3) (inside_whole _ 3) (Nat.zero_le 3) path
        (slot_index _ ▸ off) (paths_part canonA canon other)
    · rw [if_neg canonA, if_neg canonA]

/-- `map_kernel_page` passes no `PTE_SIZE`. -/
theorem mapKernelPage_spec {frame address : Nat} (canon : Canonical address)
    (aligned : address % PAGE_SIZE = 0) (alloc : Allocates s.pmm) (tree : Unshared s s.current.pageDir)
    (small : SmallPages s.ram (address / PAGE_SIZE) 3 s.current.pageDir)
    (absent : translation s.ram s.current.pageDir address = none) :
    Ends (mapKernelPage frame address s) (Mapped s frame address (PTE_WRITE.setWidth 32))
      (fun e => e = .noMemory ∧ s.room < 3) :=
  mapPage_spec canon aligned (by decide) alloc tree small absent

/-- Over a tree without shared tables, `find_user_pte` returns the entry of the last level that the
processor's walk uses, adds empty tables only and changes no translation; and `map_page` translates the
page it is given, and no other. They stop only when fewer than three frames are left. -/
theorem table_walk_and_insertion {address : Nat} (canon : Canonical address) (alloc : Allocates s.pmm)
    (tree : Unshared s s.current.pageDir)
    (small : SmallPages s.ram (address / PAGE_SIZE) 3 s.current.pageDir) :
    Ends (findUserPte (address / PAGE_SIZE) 3 s.current.pageDir s)
        (fun r => (∃ fresh, Extended s s.current.pageDir PTE_USER fresh r.2) ∧
          UsesSlot r.2.ram s.current.pageDir (address / PAGE_SIZE) r.1 (address / PAGE_SIZE % 512))
        (fun e => e = .noMemory ∧ s.room < 3) ∧
      ∀ frame (flags : BitVec 32), flags.setWidth 8 &&& PTE_SIZE = 0 → address % PAGE_SIZE = 0 →
        translation s.ram s.current.pageDir address = none →
        Ends (mapPage frame address flags s) (Mapped s frame address flags)
          (fun e => e = .noMemory ∧ s.room < 3) := by
  constructor
  · rw [findUserPte_eq]
    apply (mapTables_spec (by decide) 3 le_rfl _ s alloc tree tableOf_self small).mono
    · rintro ⟨table, t⟩ ⟨fresh, grown, tree', path⟩
      exact ⟨⟨fresh, grown⟩, tree'.usesSlot path⟩
    · exact fun _ h => h
  · exact fun frame flags plain aligned absent =>
      mapPage_spec canon aligned plain alloc tree small absent

/-- An empty directory in frame 0 and 63 frames to allocate. -/
theorem empty_directory : ∃ s : State, s.current.pageDir = 0 ∧ s.room = 63 ∧ Allocates s.pmm ∧
    Unshared s 0 ∧ s.ram = fun _ _ => 0 := by
  obtain ⟨marked, boot, bits⟩ := Pmm.initPmm_spec (fun _ => 0) 4096 (2 ^ 18) (by decide) (by decide)
    (by decide) (by decide) fun k _ => Pmm.blank_bit _ k
  simp only [Pmm.blank_bit, Bool.false_or] at bits
  change ∀ k, marked.bit k = decide (k < 1) at bits
  change Pmm.initPmm _ _ _ = some ⟨marked, 1, 8, 2 ^ 18, PAGE_SIZE * 1, none⟩ at boot
  have regs : Regs := ⟨0, 0, 0, 0, 0, 0, 0, 0, 0, 0, 0, 0, 0, 0, 0, 0, 0, 0, 0, 0⟩
  have single : wholeTables.tables (fun _ _ => 0) 3 0 = {0} :=
    tables_unused fun _ _ => next_absent Pte.present_zero
  refine ⟨⟨_, fun _ _ => 0, ⟨1, 2, 0, [], regs⟩, [], 2, [], fun _ => none⟩, rfl, ?_,
    ⟨Pmm.boot_inv (by decide) (by decide) boot, by simp [Pmm.State.frames]⟩, ⟨?_, fun u inTree => ?_⟩, rfl⟩
  · simp only [State.room, Pmm.State.room, Pmm.State.frames]
    rw [Bitmap.ones_eq (by omega) fun k _ => bits k]
  · exact single ▸ Multiset.nodup_singleton 0
  · rintro ⟨k, -, -, number⟩
    rw [single] at inTree
    rw [Multiset.mem_singleton.mp inTree] at number
    change 0 = 1 + k at number
    omega

/-- A page of the heap, with `PTE_WRITE`, in an empty directory. -/
theorem table_walk_and_insertion_heap : ∃ (s : State) (table : Nat) (s' s'' : State),
    findUserPte (HEAP_START / PAGE_SIZE) 3 0 s = .ok (table, s') ∧
      UsesSlot s'.ram 0 (HEAP_START / PAGE_SIZE) table (HEAP_START / PAGE_SIZE % 512) ∧
      mapPage 5 HEAP_START (PTE_WRITE.setWidth 32) s = .ok s'' ∧
      Mapped s 5 HEAP_START (PTE_WRITE.setWidth 32) s'' := by
  obtain ⟨s, dir, room, alloc, tree, zero⟩ := empty_directory
  have empty : ∀ j, s.ram 0 j = 0 := fun j => by rw [zero]
  rw [← dir] at tree empty
  have canon : Canonical HEAP_START := by decide
  obtain ⟨walk, insert⟩ := table_walk_and_insertion canon alloc tree (smallPages_empty empty 3)
  obtain ⟨⟨table, s'⟩, found, -, slot⟩ := walk.total fun e stop => by omega
  obtain ⟨s'', mapped, spec⟩ := (insert 5 (PTE_WRITE.setWidth 32) (by decide) (by decide)
    (by
      rw [translation, if_pos (by decide)]
      exact trail_empty empty)).total fun e stop => by omega
  rw [dir] at found slot
  exact ⟨s, table, s', s'', found, slot, mapped, spec⟩

end Landaux
