import Landaux.Kernel.Effects

/-!
# Page faults keep the address spaces in order
-/

namespace Landaux
open Lib Radix

variable {static v table address : Nat} {s s' t : State} {e : Word} {area : Area} {io : FileOps}
  {code : FaultCode}

/-- On a page that is present, `find_user_pte` only reads. -/
theorem findUserPte_present {n : Nat} (found : pageTables.walk s.ram v n table = some e) :
    ∃ u, findUserPte v n table s = .ok (u, s) ∧ pageTables.tableOf s.ram v 0 n table = some u ∧
      s.ram u (v % 512) = e ∧ Pte.present e = true := by
  induction n generalizing table with
  | zero =>
    rw [walk_eq, tableOf_self, Option.bind_some] at found
    obtain ⟨f, used, word⟩ := Option.map_eq_some_iff.mp found
    have index : pageTables.index v 0 = v % 512 := by simp [Radix.index]
    rw [index] at used word
    exact ⟨table, rfl, tableOf_self, word, word ▸ (next_eq_some.mp used).1⟩
  | succ n ih =>
    rw [walk_eq, tableOf_succ (Nat.zero_le n), Option.bind_assoc] at found
    obtain ⟨c, used, rest⟩ := Option.bind_eq_some_iff.mp found
    rw [← walk_eq] at rest
    obtain ⟨present, rfl⟩ := next_eq_some.mp used
    obtain ⟨u, eq, path, word⟩ := ih rest
    refine ⟨u, ?_, ?_, word⟩
    · rw [findUserPte]
      exact (if_pos present).trans eq
    · rw [tableOf_succ (Nat.zero_le n), used]
      exact path

/-! ### Areas -/

theorem covers_page (ok : AreasOk s.current.areas)
    (found : mmFindArea s.current.areas address = some area) :
    area ∈ s.current.areas ∧ area.covers (address / PAGE_SIZE * PAGE_SIZE) = true := by
  obtain ⟨member, covers⟩ := mmFindArea_mem found
  obtain ⟨aligned, -⟩ := ok area member
  refine ⟨member, ?_⟩
  rw [Area.covers_iff] at covers ⊢
  simp only [PAGE_SIZE] at aligned ⊢
  omega

/-- No area reaches the upper half. -/
theorem find_upper (ok : AreasOk s.current.areas) (upper : 2 ^ 64 - 2 ^ 47 ≤ address) :
    mmFindArea s.current.areas address = none := by
  cases found : mmFindArea s.current.areas address with
  | none => rfl
  | some area =>
    obtain ⟨member, covers⟩ := mmFindArea_mem found
    obtain ⟨-, low⟩ := ok area member
    rw [Area.covers_iff] at covers
    simp only [roundPageUp, roundPageDown, PAGE_SIZE] at covers
    omega

/-! ### A write to a present page -/

theorem cnt_setWord {i u : Nat} : (s.setWord table i e).cnt u = s.cnt u := rfl

theorem Ready.setWord {i : Nat} (ready : Ready s) : Ready (s.setWord table i e) :=
  ⟨ready.inv, ready.pages, ready.positive, ready.small, ready.nonneg⟩

theorem Ready.invalidate (ready : Ready s) : Ready (s.invalidate v) :=
  ⟨ready.inv, ready.pages, ready.positive, ready.small, ready.nonneg⟩

theorem copyPage_words {page source u : Nat} :
    (s.copyPage page source).ram u = if u = page then s.ram source else s.ram u := rfl

/-- The last reference: write is enabled again. -/
theorem cowFault_last (h : Holds static 0 s) (lower : v < 2 ^ 35)
    (path : pageTables.tableOf s.ram v 0 3 s.current.pageDir = some table)
    (word : s.ram table (v % 512) = e) (present : Pte.present e = true)
    (leaf : (v, e) ∈ s.current.leaves s.ram) (one : s.cnt (Pte.frame e) = 1)
    (mayWrite : ∃ a ∈ s.current.areas, a.allows PROT_WRITE = true ∧ a.covers (v * PAGE_SIZE) = true) :
    Effect static s 0 ((s.setWord table (v % 512) (Pte.allowWrite e)).invalidate v) := by
  have old : frames (leafAt s.ram table v) = {Pte.frame e} := by
    rw [leafAt_some (by rwa [word]), word]
    rfl
  refine Effect.setLeaf h lower path (e := Pte.allowWrite e) (by rwa [Pte.present_allowWrite])
    h.ready.setWord.invalidate ⟨rfl, rfl, rfl, rfl, rfl⟩ rfl rfl ?_ le_rfl ?_ (fun _ one => one)
    (fun _ positive => positive) ?_
  · intro u
    change s.cnt u + _ + _ = _
    rw [old, Multiset.count_singleton, Pte.frame_allowWrite]
    push_cast
    ring
  · rw [Pte.frame_allowWrite]
    intro owned
    exact Multiset.disjoint_left.mp h.apart owned
      (Holds.frames_mapped Holds.current_mem (mem_frames leaf))
  · intro _
    rw [Pte.frame_allowWrite]
    exact ⟨one, mayWrite⟩

/-- Another reference is left: the page is copied. -/
theorem cowFault_copy {page : Nat} (h : Holds static 0 s) (lower : v < 2 ^ 35)
    (path : pageTables.tableOf s.ram v 0 3 s.current.pageDir = some table)
    (word : s.ram table (v % 512) = e) (present : Pte.present e = true)
    (leaf : (v, e) ∈ s.current.leaves s.ram) (more : 1 < s.cnt (Pte.frame e))
    (taken : Taken s page t)
    (mayWrite : ∃ a ∈ s.current.areas, a.allows PROT_WRITE = true ∧ a.covers (v * PAGE_SIZE) = true) :
    Effect static s 0 ((((t.copyPage page (Pte.frame e)).setWord table (v % 512)
      (Pte.allowWrite (Pte.setFrame e page))).addCount (Pte.frame e) (-1)).invalidate v) := by
  have small := taken.small
  have frame : Pte.frame (Pte.allowWrite (Pte.setFrame e page)) = page := by
    rw [Pte.frame_allowWrite, Pte.frame_setFrame (by omega)]
  have different : Pte.frame e ≠ page := fun same =>
    taken.fresh (same ▸ h.busy_mapped (Holds.frames_mapped Holds.current_mem (mem_frames leaf)))
  have copied : Effect static s ({page} + 0) (t.copyPage page (Pte.frame e)) :=
    Effect.take h taken _ fun u other => (if_neg other).trans (congrFun taken.ram u)
  have cnt : ∀ u, (t.copyPage page (Pte.frame e)).cnt u = s.cnt u + if u = page then 1 else 0 :=
    taken.cnt
  have inTree : ∀ u ∈ s.current.tables s.ram, (t.copyPage page (Pte.frame e)).ram u = s.ram u := by
    intro u member
    refine (if_neg ?_).trans (congrFun taken.ram u)
    rintro rfl
    exact taken.fresh ((h.tree Holds.current_mem).busy u member)
  have path' : pageTables.tableOf (t.copyPage page (Pte.frame e)).ram v 0 3
      (t.copyPage page (Pte.frame e)).current.pageDir = some table := by
    rw [copied.same.current, tableOf_congr (inside_lower lower) inTree]
    exact path
  have word' : (t.copyPage page (Pte.frame e)).ram table (v % 512) = e := by
    rw [inTree table (tableOf_mem (inside_lower lower) (by omega) path), word]
  generalize t.copyPage page (Pte.frame e) = s₂ at *
  have old : frames (leafAt s₂.ram table v) = {Pte.frame e} := by
    rw [leafAt_some (by rwa [word']), word']
    rfl
  have count : s₂.cnt (Pte.frame e) = s.cnt (Pte.frame e) := by
    rw [cnt, if_neg different, add_zero]
  have given : Counted (s₂.setWord table (v % 512) (Pte.allowWrite (Pte.setFrame e page)))
      (Pte.frame e) (-1) _ :=
    addCount_spec _ copied.holds.ready.setWord (by rw [cnt_setWord]; omega) (by rw [cnt_setWord]; omega)
  have after : ∀ u, ((s₂.setWord table (v % 512) (Pte.allowWrite (Pte.setFrame e page))).addCount
      (Pte.frame e) (-1)).cnt u = s₂.cnt u + if u = Pte.frame e then -1 else 0 := given.cnt
  refine copied.trans (Effect.setLeaf copied.holds lower path'
    (by rwa [Pte.present_allowWrite, Pte.present_setFrame]) given.ready.invalidate
    ⟨rfl, rfl, rfl, rfl, rfl⟩ rfl rfl (fun u => ?_) (Multiset.zero_le _) ?_ (fun u one => ?_)
    (fun u positive => ?_) fun _ => ?_)
  · refine (congrArg (fun n => n + _ + _) (after u)).trans ?_
    rw [old, frame, add_zero, Multiset.count_singleton, Multiset.count_singleton, Multiset.count_zero]
    push_cast
    by_cases isPage : u = page
    · rw [if_pos isPage, if_neg (by rintro rfl; exact different isPage), if_neg (by rintro rfl; exact different isPage)]
      ring
    · rw [if_neg isPage]
      split <;> ring
  · rw [frame]
    have once := copied.holds.once
    rw [add_zero, Multiset.nodup_add] at once
    rw [zero_add]
    exact Multiset.disjoint_left.mp once.2.2 (Multiset.mem_singleton_self page)
  · refine (after u).trans ?_
    rw [if_neg, add_zero, one]
    rintro rfl
    omega
  · refine lt_of_lt_of_eq ?_ (after u).symm
    by_cases same : u = Pte.frame e
    · rw [if_pos same, same]
      omega
    · rw [if_neg same]
      omega
  · rw [frame]
    refine ⟨(after page).trans ?_, ?_⟩
    · have mine : page ∈ ({page} + 0 : Multiset Nat) := by simp
      rw [if_neg different.symm, add_zero]
      exact copied.holds.cnt_owned (Multiset.mem_add.mpr (Or.inl mine)) (copied.holds.extra_root mine)
    · rw [copied.same.current]
      exact mayWrite

/-! ### A page that is not present -/

def pageFlags (area : Area) : BitVec 8 :=
  PTE_PRESENT ||| PTE_USER ||| (if area.allows PROT_WRITE then PTE_WRITE else 0)

theorem pageFlags_bits : (pageFlags area &&& PTE_PRESENT != 0) = true ∧
    (pageFlags area &&& PTE_WRITE != 0) = area.allows PROT_WRITE := by
  unfold pageFlags
  cases area.allows PROT_WRITE <;> decide

/-- A frame that has come in at page `v`, with what it holds. -/
structure Entered (static : Nat) (s : State) (v : Nat) (bytes : Nat → UInt8) (s' : State) : Prop where
  effect : Effect static s 0 s'
  leaf : ∃ e, s'.current.leaves s'.ram = s.current.leaves s.ram + {(v, e)} ∧
    ∀ i, s'.ram (Pte.frame e) i = wordOfBytes bytes i
  tables : s'.current.tables s'.ram = s.current.tables s.ram

/-- A new frame is entered where nothing was mapped. -/
theorem demandFault_fill {frame : Nat} {w : Word} (bytes : Nat → UInt8) (h : Holds static 0 s)
    (lower : v < 2 ^ 35) (path : pageTables.tableOf s.ram v 0 3 s.current.pageDir = some table)
    (word : s.ram table (v % 512) = w) (unused : Pte.present w = false) (taken : Taken s frame t)
    (mayWrite : area ∈ s.current.areas ∧ area.covers (v * PAGE_SIZE) = true) :
    Entered static s v bytes (((t.fillPage frame bytes).setWord table (v % 512)
      (Pte.setFlags (Pte.setFrame w frame) (pageFlags area))).invalidate v) := by
  have small := taken.small
  have framed : Pte.frame (Pte.setFlags (Pte.setFrame w frame) (pageFlags area)) = frame := by
    rw [Pte.frame_setFlags, Pte.frame_setFrame (by omega)]
  have used : Pte.present (Pte.setFlags (Pte.setFrame w frame) (pageFlags area)) = true := by
    rw [Pte.present_setFlags, pageFlags_bits.1]
  have filled : Effect static s ({frame} + 0) (t.fillPage frame bytes) :=
    Effect.take h taken _ fun u other => funext fun j =>
      (if_neg other).trans (congrFun (congrFun taken.ram u) j)
  have inTree : ∀ u ∈ s.current.tables s.ram, (t.fillPage frame bytes).ram u = s.ram u := by
    intro u member
    refine filled.kept u ((h.tree Holds.current_mem).busy u member) |> fun _ => funext fun j => ?_
    refine (if_neg ?_).trans (congrFun (congrFun taken.ram u) j)
    rintro rfl
    exact taken.fresh ((h.tree Holds.current_mem).busy u member)
  have path' : pageTables.tableOf (t.fillPage frame bytes).ram v 0 3
      (t.fillPage frame bytes).current.pageDir = some table := by
    rw [filled.same.current, tableOf_congr (inside_lower lower) inTree]
    exact path
  have word' : (t.fillPage frame bytes).ram table (v % 512) = w := by
    rw [inTree table (tableOf_mem (inside_lower lower) (by omega) path), word]
  have bytesThere : ∀ i, (t.fillPage frame bytes).ram frame i = wordOfBytes bytes i := fun i => if_pos rfl
  have notTable : frame ≠ table := by
    rintro rfl
    exact taken.fresh ((h.tree Holds.current_mem).busy _
      (tableOf_mem (inside_lower lower) (by omega) path))
  have current : (t.fillPage frame bytes).current = s.current := filled.same.current
  generalize t.fillPage frame bytes = s₂ at *
  have mine : frame ∈ ({frame} + 0 : Multiset Nat) := by simp
  have old : leafAt s₂.ram table v = 0 := leafAt_none (by rwa [word'])
  obtain ⟨tables, leaves⟩ :=
    setWord_leaves (filled.holds.tree Holds.current_mem) lower path' used rfl
  rw [old, add_zero] at leaves
  rw [filled.same.current] at tables leaves
  refine ⟨?_, ⟨Pte.setFlags (Pte.setFrame w frame) (pageFlags area), ?_, fun i => ?_⟩, ?_⟩
  · refine filled.trans (Effect.setLeaf filled.holds lower path' used
      filled.holds.ready.setWord.invalidate ⟨rfl, rfl, rfl, rfl, rfl⟩ rfl rfl (fun u => ?_)
      (Multiset.zero_le _) ?_ (fun _ one => one) (fun _ positive => positive) fun writable => ?_)
    · change s₂.cnt u + _ + _ = _
      rw [old, framed, add_zero, Multiset.count_singleton]
      simp [frames]
    · rw [framed, zero_add]
      have once := filled.holds.once
      rw [add_zero, Multiset.nodup_add] at once
      exact Multiset.disjoint_left.mp once.2.2 (Multiset.mem_singleton_self frame)
    · rw [framed]
      refine ⟨?_, area, ?_, ?_, mayWrite.2⟩
      · exact filled.holds.cnt_owned (Multiset.mem_add.mpr (Or.inl mine)) (filled.holds.extra_root mine)
      · rw [filled.same.current]
        exact mayWrite.1
      · unfold Pte.writable at writable
        rwa [Pte.flags_setFlags, pageFlags_bits.2] at writable
  · change pageTables.leaves _ 3 s₂.current.pageDir 0 = _
    rw [current]
    refine leaves.trans (congrArg (fun m => m + _) ?_)
    exact Task.leaves_congr inTree
  · rw [framed]
    refine setWord_words.trans ((if_neg ?_).trans (bytesThere i))
    exact fun both => notTable both.1
  · change pageTables.tables _ 3 s₂.current.pageDir = _
    rw [current]
    exact tables.trans (Task.tables_congr inTree)

/-- What the branch for a page that is not present needs to go through. -/
structure Served (io : FileOps) (address : Nat) (write : Bool) (s : State) (area : Area) : Prop where
  found : mmFindArea s.current.areas address = some area
  allowed : ((!write && area.allows (PROT_READ ||| PROT_EXEC)) ||
    (write && area.allows PROT_WRITE)) = true
  read : (pageContents io area address).1 = true
  room : 4 ≤ s.room

/-- The page at `address` has come in: at most three tables and a frame were allocated for it. -/
structure Paged (static : Nat) (io : FileOps) (address : Nat) (s s' : State) : Prop where
  effect : Effect static s 0 s'
  present : (s'.entry (address / PAGE_SIZE)).isSome = true
  came : ∃ area e, mmFindArea s.current.areas address = some area ∧
    (pageContents io area address).1 = true ∧
    s'.current.leaves s'.ram = s.current.leaves s.ram + {(address / PAGE_SIZE, e)} ∧
    ∀ i, s'.ram (Pte.frame e) i = wordOfBytes (pageContents io area address).2 i
  room : s.room ≤ s'.room + 4
  few : (s'.current.tables s'.ram).card ≤ (s.current.tables s.ram).card + 3
  dropped : s'.tlb (address / PAGE_SIZE) = none

/-- An area that lets the access to a page that is not present through. -/
structure Permitted (s : State) (address : Nat) (write : Bool) (area : Area) : Prop where
  found : mmFindArea s.current.areas address = some area
  allowed : ((!write && area.allows (PROT_READ ||| PROT_EXEC)) ||
    (write && area.allows PROT_WRITE)) = true

theorem Permitted.unique {write : Bool} {other : Area} (h : Permitted s address write area)
    (k : Permitted s address write other) : other = area :=
  Option.some.inj (k.found.symm.trans h.found)

theorem Served.permitted {write : Bool} (h : Served io address write s area) :
    Permitted s address write area := ⟨h.found, h.allowed⟩

def State.missing (s : State) (address : Nat) : Nat :=
  missingTables s.ram (address / PAGE_SIZE) 3 s.current.pageDir

/-- What the branch for a page that is not present can come to: it gives up before anything happens, it
has the tables but no frame for the page, it has the frame but cannot read the file, or it returns. -/
inductive Demanded (static : Nat) (io : FileOps) (address : Nat) (write : Bool) (s : State) :
    Bool × State → Prop where
  | refused (never : ∀ area, ¬ Permitted s address write area) :
      Demanded static io address write s (false, s)
  | starved {area : Area} {table : Nat} {fresh : Multiset Nat} {t : State}
      (permitted : Permitted s address write area)
      (found : Found s s.current.pageDir (address / PAGE_SIZE) fresh table t)
      (all : fresh.card = s.missing address) (full : s.room = s.missing address)
      (none : fresh = 0 → t = s) : Demanded static io address write s (false, t)
  | unread {area : Area} {frame : Nat} {t : State} (permitted : Permitted s address write area)
      (read : (pageContents io area address).1 = false) (effect : Effect static s {frame} t)
      (room : s.missing address < s.room) : Demanded static io address write s (false, t)
  | paged {area : Area} {t : State} (permitted : Permitted s address write area)
      (read : (pageContents io area address).1 = true) (paged : Paged static io address s t)
      (room : s.missing address < s.room) : Demanded static io address write s (true, t)

theorem demandFault_cases {write : Bool} (h : Holds static 0 s) (lower : address < 2 ^ 47)
    (missing : s.entry (address / PAGE_SIZE) = none) :
    Ends (demandFault io address write s) (Demanded static io address write s)
      (fun e => e = .noMemory ∧ s.room < s.missing address ∧
        ∃ area, Permitted s address write area) := by
  have page : address / PAGE_SIZE < 2 ^ 35 := by
    simp only [PAGE_SIZE]
    omega
  unfold demandFault
  dsimp only
  cases found : mmFindArea s.current.areas address with
  | none =>
    refine Demanded.refused fun area permitted => ?_
    have clash := permitted.found
    rw [found] at clash
    cases clash
  | some area =>
    obtain ⟨member, covers⟩ := covers_page (h.areas _ Holds.current_mem) found
    dsimp only
    by_cases allowed : ((!write && area.allows (PROT_READ ||| PROT_EXEC)) ||
        (write && area.allows PROT_WRITE)) = true
    · have permitted : Permitted s address write area := ⟨found, allowed⟩
      rw [if_pos allowed]
      refine Ends.bind ((findUserPte_spec 3 le_rfl page s.current.pageDir s h.ready
        (h.tree Holds.current_mem) tableOf_self).mono (fun _ found => found)
        fun e stops => ⟨stops.1, stops.2, area, permitted⟩) ?_
      rintro ⟨table, s₁⟩ ⟨fresh, walked, all, room, none⟩
      have effect := Effect.found h walked
      have same := effect.same
      change fresh.card = s.missing address at all
      change s.room = s₁.room + s.missing address at room
      -- the entry is still not present, as no leaf has come
      have unused : Pte.present (s₁.ram table (address / PAGE_SIZE % 512)) = false := by
        by_contra used
        have leaf : (address / PAGE_SIZE, s₁.ram table (address / PAGE_SIZE % 512)) ∈
            s.current.leaves s.ram := by
          rw [Task.leaves, ← walked.leaves]
          refine mem_leaves.mpr ⟨lower_number page, inside_lower page, ?_⟩
          have index : pageTables.index (address / PAGE_SIZE) 0 = address / PAGE_SIZE % 512 := by
            simp [Radix.index]
          rw [walk_eq, walked.path, Option.bind_some, index,
            next_eq_some.mpr ⟨by simpa using used, rfl⟩]
          rfl
        rw [(entry_iff page).mpr leaf] at missing
        cases missing
      refine Ends.bind ((allocPage_spec walked.cloned.ready).mono (fun _ h => h)
        fun _ never => never.elim) ?_
      rintro ⟨frame, t⟩ (⟨rfl, rfl, full⟩ | ⟨nonzero, taken⟩)
      · dsimp only at room full
        exact Demanded.starved permitted walked all (by omega) none
      dsimp only at nonzero taken ⊢
      rw [if_neg nonzero]
      have taking := taken.room
      have path := walked.path
      rw [← same.current] at path
      by_cases read : (pageContents io area address).1 = true
      · rw [if_neg (by simp [read])]
        have kept : (t.fillPage frame (pageContents io area address).2).ram table
            (address / PAGE_SIZE % 512) =
            s₁.ram table (address / PAGE_SIZE % 512) := by
          refine (if_neg ?_).trans (congrFun (congrFun taken.ram table) _)
          rintro rfl
          exact taken.fresh ((effect.holds.tree Holds.current_mem).busy _
            (tableOf_mem (inside_lower page) (by omega) path))
        have fill := demandFault_fill (pageContents io area address).2 effect.holds page
          path rfl unused taken ⟨same.current ▸ member, covers⟩
        rw [kept]
        obtain ⟨filled, ⟨entry, leaves, bytes⟩, tables⟩ := fill
        have few : s.missing address ≤ 3 := missingTables_le
        have before : s₁.current.leaves s₁.ram = s.current.leaves s.ram := by
          rw [same.current]
          exact walked.leaves
        have entered := (entry_iff page).mpr (leaves ▸ Multiset.mem_add.mpr
          (Or.inr (Multiset.mem_singleton_self _)))
        refine Demanded.paged permitted read ⟨effect.trans filled,
          (congrArg Option.isSome entered).trans rfl,
          ⟨area, entry, found, read, leaves.trans (by rw [before]), bytes⟩, ?_, ?_, if_pos rfl⟩ (by omega)
        · change s.room ≤ t.room + 4
          omega
        · have card := congrArg Multiset.card walked.tables
          rw [Multiset.card_add] at card
          refine (congrArg Multiset.card tables).le.trans ?_
          rw [same.current]
          change (pageTables.tables s₁.ram 3 s.current.pageDir).card ≤
            (pageTables.tables s.ram 3 s.current.pageDir).card + 3
          dsimp only at card
          omega
      · rw [if_pos (by simpa using read)]
        have filled : Effect static s₁ ({frame} + 0)
            (t.fillPage frame (pageContents io area address).2) :=
          Effect.take effect.holds taken _ fun u other => funext fun j =>
            (if_neg other).trans (congrFun (congrFun taken.ram u) j)
        rw [add_zero] at filled
        exact Demanded.unread permitted (by simpa using read) (effect.trans filled) (by omega)
    · rw [if_neg allowed]
      refine Demanded.refused fun other permitted => allowed ?_
      have same : other = area := Option.some.inj (permitted.found.symm.trans found)
      exact same ▸ permitted.allowed

theorem demandFault_spec {write : Bool} (h : Holds static 0 s) (lower : address < 2 ^ 47)
    (missing : s.entry (address / PAGE_SIZE) = none) :
    Ends (demandFault io address write s)
      (fun r => (r.1 = true → Paged static io address s r.2) ∧
        ∀ area, Served io address write s area → r.1 = true)
      (fun e => e = .noMemory ∧ s.room < 3) := by
  have few : s.missing address ≤ 3 := missingTables_le
  refine (demandFault_cases h lower missing).mono ?_ fun e ⟨why, short, _⟩ => ⟨why, by omega⟩
  intro r demanded
  cases demanded with
  | refused never =>
    exact ⟨fun no => absurd no Bool.false_ne_true, fun area served => (never area served.permitted).elim⟩
  | starved permitted found all full none =>
    refine ⟨fun no => absurd no Bool.false_ne_true, fun area served => ?_⟩
    have enough := served.room
    omega
  | unread permitted read effect room =>
    refine ⟨fun no => absurd no Bool.false_ne_true, fun area served => ?_⟩
    have answer := served.read
    rw [permitted.unique served.permitted, read] at answer
    cases answer
  | paged permitted read paged room => exact ⟨fun _ => paged, fun _ _ => rfl⟩

/-- The branch for a present page: it ends at `bad`, or its effect is a fault's. -/
theorem cowFault_spec (h : Holds static 0 s) (lower : address < 2 ^ 47)
    (found : s.entry (address / PAGE_SIZE) = some e)
    (room : s.Shared address → ∀ t, allocPage s ≠ .ok (0, t)) :
    Ends (cowFault address s) (fun r => r.1 = true → Effect static s 0 r.2) (fun _ => False) := by
  have page : address / PAGE_SIZE < 2 ^ 35 := by
    simp only [PAGE_SIZE]
    omega
  have leaf := (entry_iff page).mp found
  have positive := h.counted (Holds.frames_mapped Holds.current_mem (mem_frames leaf))
  unfold cowFault
  dsimp only
  cases area : mmFindArea s.current.areas address with
  | none => exact fun false => by cases false
  | some a =>
    obtain ⟨member, covers⟩ := covers_page (h.areas _ Holds.current_mem) area
    dsimp only
    by_cases allows : a.allows PROT_WRITE = true
    · have mayWrite : ∃ a ∈ s.current.areas, a.allows PROT_WRITE = true ∧
          a.covers (address / PAGE_SIZE * PAGE_SIZE) = true := ⟨a, member, allows, covers⟩
      obtain ⟨table, eq, path, word, present⟩ := findUserPte_present found
      rw [if_neg (by simp [allows]), eq]
      rw [ok_bind]
      dsimp only
      rw [word, h.ready.count_eq (by omega)]
      dsimp only
      rw [if_neg (by omega)]
      by_cases one : s.cnt (Pte.frame e) = 1
      · rw [if_pos one]
        exact fun _ => cowFault_last h page path word present leaf one mayWrite
      · rw [if_neg one]
        have shared : s.Shared address := by
          refine ⟨e, found, ?_⟩
          rw [h.ready.count_eq (by omega)]
          exact fun same => one (Option.some.inj same)
        have alloc := allocPage_spec h.ready
        cases result : allocPage s with
        | error stop => exact (alloc.of_error result).elim
        | ok r =>
          obtain ⟨new, t⟩ := r
          rcases alloc.of_ok result with ⟨rfl, -, -⟩ | ⟨nonzero, taken⟩
          · exact absurd result (room shared t)
          dsimp only at nonzero taken
          have target : t.pageAt new = some (new, new) := if_pos nonzero
          rw [ok_bind]
          dsimp only
          rw [target]
          intro _
          have kept : (t.copyPage new (Pte.frame e)).ram table (address / PAGE_SIZE % 512) = e := by
            rw [copyPage_words, if_neg, taken.ram, word]
            rintro rfl
            exact taken.fresh ((h.tree Holds.current_mem).busy _
              (tableOf_mem (inside_lower page) (by omega) path))
          have effect := cowFault_copy h page path word present leaf (by omega) taken mayWrite
          change Effect static s 0 ((State.addCount (State.setWord _ _ _ (Pte.allowWrite
            (Pte.setFrame ((t.copyPage new (Pte.frame e)).ram table _) new))) _ _).invalidate _)
          rw [kept]
          exact effect
    · rw [if_pos (by simpa using allows)]
      exact fun false => by cases false

/-- A fault that returns has changed nothing but the pages of the running process. -/
theorem doPageFault_spec (h : Holds static 0 s) (enabled : Enabled s (.fault io code address)) :
    Ends (doPageFault io code address s) (fun r => r.1 = true → Effect static s 0 r.2)
      (fun e => e = .noMemory ∧ s.room < 3) := by
  obtain ⟨canonical, user, walked, room⟩ := enabled
  have bad : Ends (.ok (false, s) : Except Stop (Bool × State))
      (fun r => r.1 = true → Effect static s 0 r.2) (fun e => e = .noMemory ∧ s.room < 3) :=
    fun no => absurd no Bool.false_ne_true
  have areas := h.areas _ Holds.current_mem
  unfold doPageFault
  by_cases rsvd : code.rsvd = true
  · rw [if_pos rsvd]
    exact bad
  rw [if_neg rsvd]
  by_cases cow : (code.present && code.write && code.usermode) = true
  · rw [if_pos cow]
    simp only [Bool.and_eq_true] at cow
    obtain ⟨⟨present, write⟩, -⟩ := cow
    rcases canonical with lower | ⟨upper, -⟩
    · obtain ⟨e, found⟩ := Option.isSome_iff_exists.mp ((walked lower).symm.trans present)
      exact (cowFault_spec h lower found (room write)).mono (fun _ ok => ok) fun _ never => never.elim
    · unfold cowFault
      dsimp only
      rw [find_upper areas upper]
      exact bad
  rw [if_neg cow]
  by_cases missing : (!code.present && code.usermode) = true
  · rw [if_pos missing]
    simp only [Bool.and_eq_true, Bool.not_eq_true'] at missing
    rcases canonical with lower | ⟨upper, -⟩
    · have none := Option.isNone_iff_eq_none.mp (by
        rw [← Option.not_isSome, ← walked lower, missing.1]
        rfl)
      exact (demandFault_spec h lower none).mono (fun _ ok yes => (ok.1 yes).effect) fun _ stop => stop
    · unfold demandFault
      dsimp only
      rw [find_upper areas upper]
      exact bad
  · rw [if_neg missing]
    exact bad

end Landaux
