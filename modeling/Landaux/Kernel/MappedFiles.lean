import Landaux.Kernel.ExecSpec
import Landaux.Kernel.Process
import Landaux.Lib.Machine

/-!
# Files that are mapped

The areas of the processes keep pointers to the file that `do_exec_elf` has mapped. `vfs_close` frees a
`file_t`, which has no other reference than that of its `vfs_open`.
-/

namespace Landaux
open Lib

structure MappedFiles where
  procs : State
  opened : Finset FileId
  /-- those that a call of `vfs_open` has returned, which are to be passed to `vfs_close` -/
  held : Finset FileId

/-- How often `do_exec_elf` passes its file to `vfs_close`. -/
def execCloses (src : ElfSource) (areas : List Area) (regs : Regs) : Nat :=
  match doExecElf src areas regs with
  | .ok (_, loading) => loading.closed
  | .error _ => 0

def filesAfter (src : ElfSource) (areas : List Area) (regs : Regs) (opened : Finset FileId) : Finset FileId :=
  match src.file with
  | .error _ => opened
  | .ok f => if execCloses src areas regs = 0 then insert f opened else opened.erase f

def kernelExec (src : ElfSource) (s : State) : Except Stop (Int × State) := do
  let (ret, loading) ← doExecElf src s.current.areas s.current.regs
  return (ret, { s with current := { s.current with areas := loading.areas, regs := loading.regs } })

inductive MapEvent where
  | proc (e : Event)
  | kernelExec (src : ElfSource)
  | opens (f : FileId)
  | closes (f : FileId)

namespace MapEvent

/-- The program that is loaded, and the areas that it is loaded over. -/
def loads (s : State) : MapEvent → Option (ElfSource × List Area)
  | .proc (.exec src) => some (src, [])
  | .proc (.execSwitch src _) => some (src, [])
  | .kernelExec src => some (src, s.current.areas)
  | _ => none

/-- The `file_t` of a `vfs_open` is not in use, and one that a call has returned is closed once. -/
def Enabled (s : MappedFiles) (e : MapEvent) : Prop :=
  (∀ src areas f, e.loads s.procs = some (src, areas) → src.file = .ok f → f ∉ s.opened) ∧
    match e with
    | .proc e => Landaux.Enabled s.procs e
    | .kernelExec _ => True
    | .opens f => f ∉ s.opened
    | .closes f => f ∈ s.held

/-- Allocations may fail in any step, and a fault may end at `bad`. -/
def act : MapEvent → MappedFiles → Except Stop MappedFiles
  | .proc e, s => do
    let (_, procs) ← Landaux.act e s.procs
    match (proc e).loads s.procs with
    | some (src, areas) =>
      return { s with procs := procs, opened := filesAfter src areas s.procs.current.regs s.opened }
    | none => return { s with procs := procs }
  | .kernelExec src, s => do
    let (_, procs) ← Landaux.kernelExec src s.procs
    return { s with
      procs := procs
      opened := filesAfter src s.procs.current.areas s.procs.current.regs s.opened }
  | .opens f, s => .ok { s with opened := insert f s.opened, held := insert f s.held }
  | .closes f, s => .ok { s with opened := s.opened.erase f, held := s.held.erase f }

end MapEvent

def MapStep (s : MappedFiles) (e : MapEvent) (t : MappedFiles) : Prop := e.Enabled s ∧ e.act s = .ok t

/-- The file pointers of the areas of every process point to files that are not freed. -/
def MappedFiles.Alive (s : MappedFiles) : Prop :=
  ∀ p ∈ s.procs.current :: s.procs.others, ∀ a ∈ p.areas, ∀ f, a.file = some f → f ∈ s.opened

/-! ### What a program makes of its file -/

/-- The first area that a header asks for is one of the file, and there is memory for it. -/
def ElfSource.Maps (src : ElfSource) (f : FileId) : Prop :=
  src.Readable ∧ (src.wanted f).1 ≠ [] ∧ src.alloc 0 = true

/-- `do_exec_elf` returns without a close: an address is too high, or there is no memory for an area of
the file. -/
def ElfSource.Leaves (src : ElfSource) (f : FileId) : Prop :=
  src.Readable ∧ ((src.wanted f).2 = .high ∨
    ∃ k r, (src.wanted f).1[k]? = some r ∧ r.checked = true ∧ src.alloc k = false)

/-- A program that is loaded maps no part of its file, or is given up without a close. -/
def MapEvent.Careful (s : MappedFiles) (e : MapEvent) : Prop :=
  ∀ src areas f, e.loads s.procs = some (src, areas) → src.file = .ok f → src.Maps f → src.Leaves f

variable {src : ElfSource} {f g : FileId} {s t : Loading} {areas : List Area} {regs : Regs} {r : Request}
  {rs : List Request} {phoff : Nat}

def MapsFile (areas : List Area) (g : FileId) : Prop := ∃ a ∈ areas, a.file = some g

/-- A header asks for an area of the file first. -/
theorem headers_first (n : Nat) : ∀ i flags, (src.headers f phoff n i flags).1 = [] ∨
    ∃ r rs, (src.headers f phoff n i flags).1 = r :: rs ∧ r.area.file = some f ∧ r.checked = true := by
  induction n with
  | zero => exact fun _ _ => Or.inl rfl
  | succ n ih =>
    intro i flags
    rw [ElfSource.headers]
    dsimp only
    split
    · exact Or.inl rfl
    split
    · exact Or.inl rfl
    split
    · exact Or.inl rfl
    split
    · exact ih _ _
    · exact Or.inr ⟨_, _, rfl, rfl, rfl⟩
    · exact ih _ _
    · exact Or.inl rfl
    · exact Or.inl rfl

/-- No header asks for an area of another file. -/
theorem headers_file (n : Nat) : ∀ i flags, ∀ r ∈ (src.headers f phoff n i flags).1,
    ∀ g, r.area.file = some g → g = f := by
  induction n with
  | zero => exact fun _ _ r member => absurd member List.not_mem_nil
  | succ n ih =>
    intro i flags r member g points
    rw [ElfSource.headers] at member
    dsimp only at member
    split at member
    · cases member
    split at member
    · cases member
    split at member
    · cases member
    split at member
    · exact ih _ _ r member g points
    · rcases List.mem_append.mp member with mine | later
      · unfold Phdr.requests at mine
        rcases List.mem_cons.mp mine with rfl | bare
        · exact (Option.some.inj points).symm
        · split at bare
          · rw [List.mem_singleton.mp bare] at points
            cases points
          · cases bare
      · exact ih _ _ r later g points
    · exact ih _ _ r member g points
    · cases member
    · cases member

/-! ### Placing the areas -/

/-- One request. -/
theorem request_files : Ends (request src r s) (fun x => x.2.closed = s.closed ∧ x.2.allocs = s.allocs + 1 ∧
    (x.1 = none ↔ ¬ (r.checked = true ∧ src.alloc s.allocs = false)) ∧
    ∀ g, MapsFile x.2.areas g ↔ r.area.file = some g ∧ src.alloc s.allocs = true ∨ MapsFile s.areas g)
    fun _ => True := by
  unfold request
  have members : Ends (insertArea r.area s.areas) (fun longer => ∀ a, a ∈ longer ↔ a = r.area ∨ a ∈ s.areas)
      fun e => e = .area := insertArea_spec
  cases inserted : insertArea r.area s.areas with
  | error stop => exact trivial
  | ok longer =>
    rw [inserted] at members
    change ∀ a, a ∈ longer ↔ a = r.area ∨ a ∈ s.areas at members
    cases answer : src.alloc s.allocs with
    | true =>
      refine ⟨rfl, rfl, by simp, fun g => ?_⟩
      unfold MapsFile
      dsimp only
      rw [if_pos rfl]
      simp only [members, or_and_right, exists_or, exists_eq_left, and_true]
    | false =>
      refine ⟨rfl, rfl, ?_, fun g => by simp⟩
      cases r.checked <;> simp

/-- The requests are made one after the other, up to the first that is checked and denied. -/
theorem place_files (rs : List Request) : ∀ s, Ends (place src rs s) (fun x => x.2.closed = s.closed ∧
    (x.1 = none ↔ ¬ ∃ k r, rs[k]? = some r ∧ r.checked = true ∧ src.alloc (s.allocs + k) = false) ∧
    (∀ g, MapsFile s.areas g → MapsFile x.2.areas g) ∧
    ∀ g, MapsFile x.2.areas g → MapsFile s.areas g ∨ ∃ r ∈ rs, r.area.file = some g) fun _ => True := by
  induction rs with
  | nil => exact fun s => ⟨rfl, by simp, fun _ maps => maps, fun _ maps => Or.inl maps⟩
  | cons r rs ih =>
    intro s
    have denied : (∃ k q, (r :: rs)[k]? = some q ∧ q.checked = true ∧ src.alloc (s.allocs + k) = false) ↔
        (r.checked = true ∧ src.alloc s.allocs = false) ∨
          ∃ k q, rs[k]? = some q ∧ q.checked = true ∧ src.alloc (s.allocs + 1 + k) = false := by
      constructor
      · rintro ⟨k, q, at', checked, answer⟩
        cases k with
        | zero =>
          obtain rfl := Option.some.inj at'
          exact Or.inl ⟨checked, answer⟩
        | succ k => exact Or.inr ⟨k, q, at', checked, by rw [Nat.add_right_comm]; exact answer⟩
      · rintro (⟨checked, answer⟩ | ⟨k, q, at', checked, answer⟩)
        · exact ⟨0, r, rfl, checked, answer⟩
        · exact ⟨k + 1, q, at', checked, by rw [← Nat.add_assoc, Nat.add_right_comm]; exact answer⟩
    rw [place]
    apply Ends.bind request_files
    intro x requested
    obtain ⟨closed, allocs, goes, files⟩ := requested
    have kept : ∀ g, MapsFile s.areas g → MapsFile x.2.areas g := fun g maps => (files g).mpr (Or.inr maps)
    have new : ∀ g, MapsFile x.2.areas g → MapsFile s.areas g ∨ r.area.file = some g := fun g maps =>
      ((files g).mp maps).symm.imp_right And.left
    obtain ⟨(none | ret), u⟩ := x
    · apply (ih u).mono _ fun _ h => h
      intro y placed
      obtain ⟨closed', goes', kept', new'⟩ := placed
      refine ⟨closed'.trans closed, ?_, fun g maps => kept' g (kept g maps), ?_⟩
      · dsimp only at allocs
        rw [goes', denied, allocs, or_iff_right (goes.mp rfl)]
      · intro g maps
        rcases new' g maps with before | ⟨q, member, points⟩
        · rcases new g before with old | mine
          · exact Or.inl old
          · exact Or.inr ⟨r, List.mem_cons_self, mine⟩
        · exact Or.inr ⟨q, List.mem_cons_of_mem _ member, points⟩
    · refine ⟨closed, ?_, kept, fun g maps => (new g maps).imp_right fun points => ⟨r, List.mem_cons_self, points⟩⟩
      rw [denied]
      have fails : r.checked = true ∧ src.alloc s.allocs = false := by
        by_contra passes
        cases goes.mpr passes
      exact iff_of_false (by simp) fun none => none (Or.inl fails)

/-- The file is mapped exactly when the first area is added. -/
theorem place_first (first : rs = [] ∨ ∃ r rest, rs = r :: rest ∧ r.area.file = some f ∧ r.checked = true) :
    Ends (place src rs s) (fun x => MapsFile x.2.areas f ↔
      rs ≠ [] ∧ src.alloc s.allocs = true ∨ MapsFile s.areas f) fun _ => True := by
  rcases first with rfl | ⟨r, rest, rfl, points, checked⟩
  · exact (or_iff_right (by simp)).symm
  rw [place]
  apply Ends.bind request_files
  intro x requested
  obtain ⟨closed, allocs, goes, files⟩ := requested
  have mine : MapsFile x.2.areas f ↔ src.alloc s.allocs = true ∨ MapsFile s.areas f := by
    rw [files f, points]
    simp
  obtain ⟨(none | ret), u⟩ := x
  · have granted : src.alloc s.allocs = true := by
      have passes := goes.mp rfl
      rw [checked] at passes
      simpa using passes
    apply (place_files rest u).mono _ fun _ h => h
    intro y placed
    obtain ⟨-, -, kept, -⟩ := placed
    exact iff_of_true (kept f (mine.mpr (Or.inl granted))) (Or.inl ⟨List.cons_ne_nil r rest, granted⟩)
  · exact mine.trans (by simp)

/-- `do_exec_elf` maps its file, and leaves it open, as its headers say. -/
theorem doExecElf_files (file : src.file = .ok f) : Ends (doExecElf src areas regs)
    (fun x => (∀ g, MapsFile x.2.areas g ↔ MapsFile areas g ∨ g = f ∧ src.Maps f) ∧
      (x.2.closed = 0 ↔ src.Leaves f)) fun _ => True := by
  by_cases readable : src.Readable
  · rw [doExecElf_eq file readable]
    cases placed : place src (src.wanted f).1 ⟨areas, regs, 0, 0⟩ with
    | error stop => exact trivial
    | ok x =>
      obtain ⟨closed, goes, kept, new⟩ := (place_files _ _).of_ok placed
      have mine := (place_first (headers_first _ _ _)).of_ok placed
      have maps : src.Maps f ↔ (src.wanted f).1 ≠ [] ∧ src.alloc 0 = true := and_iff_right readable
      have leaves : src.Leaves f ↔ (src.wanted f).2 = .high ∨ x.1 ≠ none := by
        rw [Ne, goes, not_not]
        simp only [Nat.zero_add]
        exact and_iff_right readable
      have files : ∀ g, MapsFile x.2.areas g ↔ MapsFile areas g ∨ g = f ∧ src.Maps f := by
        intro g
        by_cases same : g = f
        · subst same
          rw [mine, maps, and_iff_right rfl, or_comm]
          exact Iff.rfl
        · constructor
          · intro points
            rcases new g points with old | ⟨r, member, points'⟩
            · exact Or.inl old
            · exact absurd (headers_file _ _ _ r member g points') same
          · rintro (old | ⟨eq, -⟩)
            · exact kept g old
            · exact absurd eq same
      obtain ⟨(none | ret), u⟩ := x
      · cases ends : (src.wanted f).2 with
        | refused ret =>
          refine ⟨files, iff_of_false ?_ fun open' => ?_⟩
          · exact Nat.succ_ne_zero _
          · rw [leaves, ends] at open'
            simp at open'
        | high => exact ⟨files, iff_of_true closed (leaves.mpr (Or.inl ends))⟩
        | all flags =>
          have shut : ¬ src.Leaves f := fun open' => by
            rw [leaves, ends] at open'
            simp at open'
          change Ends ((request src ⟨stackOf flags, true⟩ u.close).map _) _ _
          cases made : request src ⟨stackOf flags, true⟩ u.close with
          | error stop => exact trivial
          | ok y =>
            obtain ⟨closed', -, -, files'⟩ := request_files.of_ok made
            have bare : ∀ g, MapsFile y.2.areas g ↔ MapsFile areas g ∨ g = f ∧ src.Maps f := fun g =>
              ((files' g).trans (or_iff_right (by simp [stackOf]))).trans (files g)
            have once : y.2.closed = 0 ↔ src.Leaves f := iff_of_false (by rw [closed']; exact Nat.succ_ne_zero _) shut
            obtain ⟨(none | ret), v⟩ := y
            · exact ⟨bare, once⟩
            · exact ⟨bare, once⟩
      · exact ⟨files, iff_of_true closed (leaves.mpr (Or.inr (by simp)))⟩
  · obtain ⟨ret, -, eq⟩ := doExecElf_unreadable areas regs file readable
    rw [eq]
    refine ⟨fun g => (or_iff_left fun maps => readable maps.2.1).symm, ?_⟩
    exact iff_of_false one_ne_zero fun leaves => readable leaves.1

/-! ### Steps that leave the processes as they are -/

def SameProcs (s t : State) : Prop := t.current = s.current ∧ t.others = s.others

section Frames

variable {s t u : State}

theorem SameProcs.refl : SameProcs s s := ⟨rfl, rfl⟩

theorem SameProcs.trans (first : SameProcs s t) (second : SameProcs t u) : SameProcs s u :=
  ⟨second.1.trans first.1, second.2.trans first.2⟩

theorem allocPage_procs : Ends (allocPage s) (fun r => SameProcs s r.2) fun _ => True := by
  unfold allocPage
  cases Pmm.allocPhysPage s.pmm with
  | none => exact trivial
  | some r => exact SameProcs.refl (s := s)

theorem freePage_procs {frame : Nat} : Ends (freePage frame s) (SameProcs s) fun _ => True := by
  unfold freePage
  cases Pmm.freePhysPage s.pmm frame with
  | none => exact trivial
  | some pmm => exact SameProcs.refl (s := s)

/-- A loop whose turns leave the processes as they are. -/
theorem turns_procs {body : Nat → State → Except Stop State}
    (turn : ∀ i t, Ends (body i t) (SameProcs t) fun _ => True) (n : Nat) :
    Ends (turns body n s) (SameProcs s) fun _ => True :=
  Ends.turns (fun _ => SameProcs s) .refl n fun i t _ same =>
    (turn i t).mono (fun _ later => same.trans later) fun _ h => h

theorem findUserPte_procs {v : Nat} (n : Nat) : ∀ table s,
    Ends (findUserPte v n table s) (fun r => SameProcs s r.2) fun _ => True := by
  induction n with
  | zero => exact fun _ _ => SameProcs.refl
  | succ n ih =>
    intro table s
    unfold findUserPte
    dsimp only
    split
    · exact ih _ s
    refine Ends.bind allocPage_procs fun r same => ?_
    split
    · exact trivial
    · exact (ih _ _).mono (fun _ later => same.trans later) fun _ h => h

theorem doPageFault_procs {io : FileOps} {code : FaultCode} {address : Nat} :
    Ends (doPageFault io code address s) (fun r => SameProcs s r.2) fun _ => True := by
  unfold doPageFault
  split
  · exact SameProcs.refl
  split
  · unfold cowFault
    dsimp only
    split
    · exact SameProcs.refl
    split
    · exact SameProcs.refl
    refine Ends.bind (findUserPte_procs 3 _ s) fun r same => ?_
    split
    · exact trivial
    split
    · exact trivial
    split
    · exact same
    refine Ends.bind allocPage_procs fun r' later => ?_
    split
    · exact trivial
    · exact same.trans later
  split
  · unfold demandFault
    dsimp only
    split
    · exact SameProcs.refl
    split
    · refine Ends.bind (findUserPte_procs 3 _ s) fun r same => ?_
      refine Ends.bind allocPage_procs fun r' later => ?_
      have both := same.trans later
      split
      · exact both
      split
      · exact both
      · exact both
    · exact SameProcs.refl
  · exact SameProcs.refl

/-! ### Steps that copy or drop areas -/

theorem cloneLeaf_procs {old new p l : Nat} : Ends (cloneLeaf old new p l s) (SameProcs s) fun _ => True := by
  unfold cloneLeaf
  split
  · exact SameProcs.refl
  dsimp only
  split
  · exact trivial
  split
  · exact trivial
  · exact SameProcs.refl (s := s)

theorem cloneEntry_procs {child : Nat → Nat → Nat → State → Except Stop State} {source new p i : Nat}
    (below : ∀ old new p s, Ends (child old new p s) (SameProcs s) fun _ => True) :
    Ends (cloneEntry child source new p i s) (SameProcs s) fun _ => True := by
  unfold cloneEntry
  split
  · exact SameProcs.refl
  refine Ends.bind allocPage_procs fun r same => ?_
  dsimp only
  split
  · exact trivial
  · exact (below _ _ _ _).mono (fun _ later => same.trans later) fun _ h => h

theorem cloneMm_procs : Ends (cloneMm s) (fun r => SameProcs s r.2 ∧ ∀ dir areas, r.1 = some (dir, areas) →
    areas = s.current.areas) fun _ => True := by
  have l1 : ∀ old new p s, Ends (cloneL1 old new p s) (SameProcs s) fun _ => True := fun old new p s =>
    turns_procs (fun _ _ => cloneLeaf_procs) 512
  have l2 : ∀ old new p s, Ends (cloneL2 old new p s) (SameProcs s) fun _ => True := fun old new p s =>
    turns_procs (fun _ _ => cloneEntry_procs l1) 512
  have l3 : ∀ old new p s, Ends (cloneL3 old new p s) (SameProcs s) fun _ => True := fun old new p s =>
    turns_procs (fun _ _ => cloneEntry_procs l2) 512
  unfold cloneMm
  refine Ends.bind allocPage_procs fun r same => ?_
  dsimp only
  split
  · exact ⟨same, by simp⟩
  refine Ends.bind (turns_procs (fun _ _ => cloneEntry_procs l3) 256) fun t later => ?_
  have both := same.trans later
  refine ⟨both, fun dir areas eq => ?_⟩
  obtain ⟨-, rfl⟩ := Prod.mk.inj (Option.some.inj eq)
  rw [both.1]

theorem freeLeaf_procs {l1 l : Nat} : Ends (freeLeaf l1 l s) (SameProcs s) fun _ => True := by
  unfold freeLeaf
  split
  · exact SameProcs.refl
  dsimp only
  split
  · exact trivial
  split
  · exact trivial
  split
  · exact freePage_procs
  · exact SameProcs.refl (s := s)

theorem freeEntry_procs {child : Nat → State → Except Stop State} {table i : Nat}
    (below : ∀ table s, Ends (child table s) (SameProcs s) fun _ => True) :
    Ends (freeEntry child table i s) (SameProcs s) fun _ => True := by
  unfold freeEntry
  split
  · exact SameProcs.refl
  dsimp only
  refine Ends.bind (below _ s) fun t same => ?_
  exact freePage_procs.mono (fun _ later => same.trans later) fun _ h => h

theorem freeMm_procs : Ends (freeMm s) (fun t => t.current = { s.current with areas := [] } ∧ t.others = s.others)
    fun _ => True := by
  have l1 : ∀ table s, Ends (freeL1 table s) (SameProcs s) fun _ => True := fun table s =>
    turns_procs (fun _ _ => freeLeaf_procs) 512
  have l2 : ∀ table s, Ends (freeL2 table s) (SameProcs s) fun _ => True := fun table s =>
    turns_procs (fun _ _ => freeEntry_procs l1) 512
  have l3 : ∀ table s, Ends (freeL3 table s) (SameProcs s) fun _ => True := fun table s =>
    turns_procs (fun _ _ => freeEntry_procs l2) 512
  unfold freeMm
  refine Ends.bind (turns_procs (fun _ _ => freeEntry_procs l3) 256) fun t same => ?_
  refine ⟨?_, same.2⟩
  dsimp only
  rw [same.1]

/-- Every process after the step has the areas of one before it. -/
def AreasFrom (s t : State) : Prop :=
  ∀ p ∈ t.current :: t.others, p.areas = [] ∨ ∃ q ∈ s.current :: s.others, p.areas = q.areas

theorem AreasFrom.of_same (same : SameProcs s t) : AreasFrom s t := fun p member =>
  Or.inr ⟨p, by rw [← same.1, ← same.2]; exact member, rfl⟩

theorem AreasFrom.trans (first : AreasFrom s t) (second : AreasFrom t u) : AreasFrom s u := by
  intro p member
  rcases second p member with none | ⟨q, member', same⟩
  · exact Or.inl none
  · rw [same]
    exact first q member'

theorem sysFork_areas : Ends (sysFork s) (fun r => AreasFrom s r.2) fun _ => True := by
  have child : ∀ (u : State) (task : Task), SameProcs s u → task.areas = s.current.areas →
      AreasFrom s { u with others := task :: u.others } := by
    intro u task same copied p member
    rcases List.mem_cons.mp member with rfl | inside
    · exact Or.inr ⟨u.current, same.1 ▸ List.mem_cons_self, rfl⟩
    rcases List.mem_cons.mp inside with rfl | old
    · exact Or.inr ⟨s.current, List.mem_cons_self, copied⟩
    · exact Or.inr ⟨p, List.mem_cons_of_mem _ (same.2 ▸ old), rfl⟩
  unfold sysFork
  refine Ends.bind allocPage_procs fun r same => ?_
  dsimp only
  split
  · exact trivial
  split
  · exact trivial
  refine Ends.bind cloneMm_procs fun r' ⟨later, copies⟩ => ?_
  obtain ⟨(none | ⟨dir, areas⟩), u⟩ := r'
  · refine Ends.bind freePage_procs fun v last => ?_
    have all : SameProcs s v := (same.trans later).trans last
    have copied : v.current.areas = s.current.areas := congrArg Task.areas all.1
    exact child v _ all copied
  · have copied : areas = r.2.current.areas := copies dir areas rfl
    exact child u _ (same.trans later) (copied.trans (congrArg Task.areas same.1))

/-- A switch goes on with one of the other processes. -/
theorem mem_switchTo {next p : Task} (there : next ∈ s.others) :
    p ∈ (s.switchTo next).current :: (s.switchTo next).others ↔ p ∈ s.current :: s.others := by
  change p ∈ next :: s.current :: s.others.erase next ↔ _
  simp only [List.mem_cons]
  constructor
  · rintro (rfl | rfl | other)
    · exact Or.inr there
    · exact Or.inl rfl
    · exact Or.inr (List.mem_of_mem_erase other)
  · rintro (rfl | other)
    · exact Or.inr (Or.inl rfl)
    · by_cases same : p = next
      · exact Or.inl same
      · exact Or.inr (Or.inr ((List.mem_erase_of_ne same).mpr other))

theorem switchTo_areas {next : Task} (there : next ∈ s.others) : AreasFrom s (s.switchTo next) := fun p member =>
  Or.inr ⟨p, (mem_switchTo there).mp member, rfl⟩

theorem sysExit_areas {next : Task} (there : next ∈ s.others) :
    Ends (sysExit next s) (AreasFrom s) fun _ => True := by
  unfold sysExit
  dsimp only
  split
  · exact trivial
  refine Ends.bind freeMm_procs fun t ⟨current, others⟩ => ?_
  have emptied : AreasFrom s t := by
    intro p member
    rcases List.mem_cons.mp member with rfl | old
    · exact Or.inl (by rw [current])
    · exact Or.inr ⟨p, List.mem_cons_of_mem _ (others ▸ old), rfl⟩
  have switched : AreasFrom s (t.switchTo next) := emptied.trans (switchTo_areas (others ▸ there))
  unfold freeTask
  refine Ends.bind freePage_procs fun u same => ?_
  refine freePage_procs.mono (fun v later => switched.trans fun p member => ?_) fun _ h => h
  rw [later.1, later.2] at member
  refine Or.inr ⟨p, ?_, rfl⟩
  rw [← same.1, ← same.2]
  rcases List.mem_cons.mp member with rfl | old
  · exact List.mem_cons_self
  · exact List.mem_cons_of_mem _ (List.mem_of_mem_erase old)

/-- The processes after a program is loaded. -/
theorem sysExec_loads : Ends (sysExec src s) (fun r => ∃ ret loading,
    doExecElf src [] s.current.regs = .ok (ret, loading) ∧ r.2.current.areas = loading.areas ∧
      r.2.others = s.others) fun _ => True := by
  unfold sysExec
  refine Ends.bind freeMm_procs fun t ⟨current, others⟩ => ?_
  have areas : (t.zeroLower t.current.pageDir).current.areas = [] := by
    change t.current.areas = []
    rw [current]
  have regs : (t.zeroLower t.current.pageDir).current.regs = s.current.regs := by
    change t.current.regs = _
    rw [current]
  dsimp only
  rw [areas, regs]
  cases loads : doExecElf src [] s.current.regs with
  | error stop => exact trivial
  | ok r => exact ⟨r.1, r.2, rfl, rfl, others⟩

/-- `sys_exec`, and what is done with the state after it. -/
theorem sysExec_then (f : State → State) {r : Bool × State}
    (ok : (sysExec src s >>= fun x => Except.ok (true, f x.2)) = Except.ok r) :
    ∃ x, sysExec src s = .ok x ∧ r = (true, f x.2) := by
  cases called : sysExec src s with
  | error stop =>
    rw [called] at ok
    cases ok
  | ok x =>
    rw [called] at ok
    exact ⟨x, rfl, (Except.ok.inj ok).symm⟩

/-- An event that loads no program. -/
theorem act_areas {e : Event} (enabled : Enabled s e) (none : (MapEvent.proc e).loads s = none) :
    Ends (act e s) (fun r => AreasFrom s r.2) fun _ => True := by
  cases e with
  | fault io code address => exact doPageFault_procs.mono (fun _ same => .of_same same) fun _ h => h
  | touch v =>
    apply AreasFrom.of_same
    dsimp only
    unfold State.fillTlb
    split <;> exact SameProcs.refl (s := s)
  | store v i w =>
    apply AreasFrom.of_same
    dsimp only
    unfold State.write
    split <;> exact SameProcs.refl (s := s)
  | copyOut v i w =>
    apply AreasFrom.of_same
    dsimp only
    unfold State.write
    split <;> exact SameProcs.refl (s := s)
  | fork => exact Ends.bind sysFork_areas fun r from' => from'
  | exec src => cases none
  | execSwitch src next => cases none
  | exit next => exact Ends.bind (sysExit_areas enabled) fun t from' => from'
  | switch next => exact switchTo_areas enabled
  | idle => exact AreasFrom.of_same (s := s) SameProcs.refl
  | grow contents => exact Ends.bind allocPage_procs fun r same => .of_same same

end Frames

/-! ### Runs -/

section Runs

variable {s t : MappedFiles} {e : MapEvent}

/-- No file that an area points to is in the hands of another caller of `vfs_open`. -/
structure MappedFiles.InOrder (s : MappedFiles) : Prop where
  alive : s.Alive
  held : s.held ⊆ s.opened
  apart : ∀ p ∈ s.procs.current :: s.procs.others, ∀ g, MapsFile p.areas g → g ∉ s.held

theorem MappedFiles.InOrder.file (order : s.InOrder) {p : Task} (member : p ∈ s.procs.current :: s.procs.others)
    (maps : MapsFile p.areas g) : g ∈ s.opened ∧ g ∉ s.held := by
  obtain ⟨a, inside, points⟩ := maps
  exact ⟨order.alive p member a inside g points, order.apart p member g ⟨a, inside, points⟩⟩

/-- Nothing is mapped that was not, and no file is freed. -/
theorem MappedFiles.InOrder.areasFrom (order : s.InOrder) {procs : State} (from' : AreasFrom s.procs procs) :
    ({ s with procs := procs } : MappedFiles).InOrder := by
  have maps : ∀ p ∈ procs.current :: procs.others, ∀ g, MapsFile p.areas g → g ∈ s.opened ∧ g ∉ s.held := by
    rintro p member g ⟨a, inside, points⟩
    rcases from' p member with none | ⟨q, member', same⟩
    · rw [none] at inside
      exact absurd inside List.not_mem_nil
    · exact order.file member' ⟨a, same ▸ inside, points⟩
  exact ⟨fun p member a inside g points => (maps p member g ⟨a, inside, points⟩).1, order.held,
    fun p member g mapped => (maps p member g mapped).2⟩

/-- A program is loaded: the files of the areas are there exactly when it maps none of its file, or leaves
that open. -/
theorem MappedFiles.InOrder.loaded (order : s.InOrder) {procs : State} {ret : Int} {loading : Loading}
    (runs : doExecElf src areas s.procs.current.regs = .ok (ret, loading))
    (base : ∀ g, MapsFile areas g → g ∈ s.opened ∧ g ∉ s.held) (fresh : ∀ f, src.file = .ok f → f ∉ s.opened)
    (tasks : ∀ p ∈ procs.current :: procs.others,
      p.areas = loading.areas ∨ ∃ q ∈ s.procs.current :: s.procs.others, p.areas = q.areas)
    (loads : ∃ p ∈ procs.current :: procs.others, p.areas = loading.areas) :
    let t : MappedFiles := ⟨procs, filesAfter src areas s.procs.current.regs s.opened, s.held⟩
    (t.Alive ↔ ∀ f, src.file = .ok f → src.Maps f → src.Leaves f) ∧ (t.Alive → t.InOrder) := by
  intro t
  -- what a process can point to, and what of it is still there
  have points : ∀ g, (∃ p ∈ procs.current :: procs.others, MapsFile p.areas g) ↔
      MapsFile loading.areas g ∨ ∃ p ∈ procs.current :: procs.others,
        (∃ q ∈ s.procs.current :: s.procs.others, p.areas = q.areas) ∧ MapsFile p.areas g := by
    intro g
    constructor
    · rintro ⟨p, member, maps⟩
      rcases tasks p member with new | old
      · exact Or.inl (new ▸ maps)
      · exact Or.inr ⟨p, member, old, maps⟩
    · rintro (maps | ⟨p, member, -, maps⟩)
      · obtain ⟨p, member, same⟩ := loads
        exact ⟨p, member, same ▸ maps⟩
      · exact ⟨p, member, maps⟩
  have old : ∀ g, (∃ p ∈ procs.current :: procs.others,
      (∃ q ∈ s.procs.current :: s.procs.others, p.areas = q.areas) ∧ MapsFile p.areas g) →
        g ∈ s.opened ∧ g ∉ s.held := by
    rintro g ⟨p, -, ⟨q, member, same⟩, maps⟩
    exact order.file member (same ▸ maps)
  have alive : t.Alive ↔ ∀ g, (∃ p ∈ procs.current :: procs.others, MapsFile p.areas g) → g ∈ t.opened :=
    ⟨fun all g ⟨p, member, a, inside, maps⟩ => all p member a inside g maps,
      fun all p member a inside g maps => all g ⟨p, member, a, inside, maps⟩⟩
  cases file : src.file with
  | error err =>
    have same : loading.areas = areas := by
      unfold doExecElf at runs
      rw [file] at runs
      cases runs
      rfl
    have kept : t.opened = s.opened := by
      change filesAfter _ _ _ _ = _
      unfold filesAfter
      rw [file]
    have both : ∀ g, (∃ p ∈ procs.current :: procs.others, MapsFile p.areas g) → g ∈ s.opened ∧ g ∉ s.held := by
      intro g maps
      rcases (points g).mp maps with new | from'
      · exact base g (same ▸ new)
      · exact old g from'
    refine ⟨iff_of_true (alive.mpr fun g maps => kept ▸ (both g maps).1) (by simp), fun living => ?_⟩
    exact ⟨living, kept ▸ order.held, fun p member g maps => (both g ⟨p, member, maps⟩).2⟩
  | ok f =>
    have unused := fresh f file
    obtain ⟨files, closes⟩ := (doExecElf_files file).of_ok runs
    have opened : t.opened = if loading.closed = 0 then insert f s.opened else s.opened.erase f := by
      change filesAfter _ _ _ _ = _
      unfold filesAfter execCloses
      rw [file, runs]
    have still : ∀ g ∈ s.opened, g ∈ t.opened := by
      intro g member
      rw [opened]
      split
      · exact Finset.mem_insert_of_mem member
      · refine Finset.mem_erase.mpr ⟨?_, member⟩
        rintro rfl
        exact unused member
    have mine : f ∈ t.opened ↔ src.Leaves f := by
      rw [opened, ← closes]
      split
      · rename_i zero
        exact iff_of_true (Finset.mem_insert_self f s.opened) zero
      · rename_i positive
        exact iff_of_false (Finset.notMem_erase f s.opened) positive
    have split' : ∀ g, (∃ p ∈ procs.current :: procs.others, MapsFile p.areas g) →
        g ∈ s.opened ∧ g ∉ s.held ∨ g = f ∧ src.Maps f := by
      intro g maps
      rcases (points g).mp maps with new | from'
      · exact ((files g).mp new).imp (base g) id
      · exact Or.inl (old g from')
    constructor
    · rw [alive]
      constructor
      · intro all f' eq maps
        obtain rfl := Except.ok.inj eq
        have here := all f ((points f).mpr (Or.inl ((files f).mpr (Or.inr ⟨rfl, maps⟩))))
        exact mine.mp here
      · intro leaves g maps
        rcases split' g maps with known | ⟨rfl, maps⟩
        · exact still g known.1
        · exact mine.mpr (leaves _ rfl maps)
    · refine fun living => ⟨living, fun g member => still g (order.held member), fun p member g maps => ?_⟩
      rcases split' g ⟨p, member, maps⟩ with known | ⟨rfl, -⟩
      · exact known.2
      · exact fun inside => unused (order.held inside)

/-- One event. -/
theorem MapStep.alive_iff (order : s.InOrder) (step : MapStep s e t) :
    (t.Alive ↔ e.Careful s) ∧ (t.Alive → t.InOrder) := by
  obtain ⟨⟨fresh, enabled⟩, ok⟩ := step
  have kept : e.loads s.procs = none → t.InOrder → (t.Alive ↔ e.Careful s) ∧ (t.Alive → t.InOrder) := by
    intro none order'
    refine ⟨iff_of_true order'.alive fun src areas f eq => ?_, fun _ => order'⟩
    rw [none] at eq
    cases eq
  have loaded : ∀ src areas, e.loads s.procs = some (src, areas) →
      ((t.Alive ↔ ∀ f, src.file = .ok f → src.Maps f → src.Leaves f) ∧ (t.Alive → t.InOrder)) →
        (t.Alive ↔ e.Careful s) ∧ (t.Alive → t.InOrder) := by
    rintro src areas eq ⟨exact', good⟩
    refine ⟨exact'.trans ⟨fun all src' areas' f eq' => ?_, fun all f => all src areas f eq⟩, good⟩
    rw [eq] at eq'
    obtain ⟨rfl, -⟩ := Prod.mk.inj (Option.some.inj eq')
    exact all f
  cases e with
  | opens f =>
    cases ok
    refine kept rfl ⟨fun p member a inside g points => ?_, ?_, fun p member g maps => ?_⟩
    · exact Finset.mem_insert_of_mem (order.alive p member a inside g points)
    · exact Finset.insert_subset_insert f order.held
    · intro here
      rcases Finset.mem_insert.mp here with rfl | inside
      · exact enabled (order.file member maps).1
      · exact (order.file member maps).2 inside
  | closes f =>
    cases ok
    refine kept rfl ⟨fun p member a inside g points => ?_, ?_, fun p member g maps here => ?_⟩
    · have known := order.file member ⟨a, inside, points⟩
      refine Finset.mem_erase.mpr ⟨?_, known.1⟩
      rintro rfl
      exact known.2 enabled
    · exact Finset.erase_subset_erase f order.held
    · exact (order.file member maps).2 (Finset.mem_of_mem_erase here)
  | kernelExec src =>
    change (Landaux.kernelExec src s.procs >>= _) = _ at ok
    unfold Landaux.kernelExec at ok
    cases runs : doExecElf src s.procs.current.areas s.procs.current.regs with
    | error stop =>
      rw [runs] at ok
      cases ok
    | ok r =>
      obtain ⟨ret, loading⟩ := r
      rw [runs] at ok
      cases ok
      refine loaded src _ rfl (order.loaded runs (fun g maps => order.file List.mem_cons_self maps)
        (fun f file => fresh src _ f rfl file) (fun p member => ?_) ⟨_, List.mem_cons_self, rfl⟩)
      rcases List.mem_cons.mp member with rfl | other
      · exact Or.inl rfl
      · exact Or.inr ⟨p, List.mem_cons_of_mem _ other, rfl⟩
  | proc e =>
    change (Landaux.act e s.procs >>= _) = _ at ok
    cases acts : Landaux.act e s.procs with
    | error stop =>
      rw [acts] at ok
      cases ok
    | ok r =>
      rw [acts, ok_bind] at ok
      cases which : (MapEvent.proc e).loads s.procs with
      | none =>
        rw [which] at ok
        cases ok
        exact kept which (order.areasFrom ((act_areas enabled which).of_ok acts))
      | some program =>
        rw [which] at ok
        cases ok
        cases e with
        | exec src =>
          cases which
          obtain ⟨x, called, rfl⟩ := sysExec_then id acts
          obtain ⟨ret, loading, runs, areas, others⟩ := sysExec_loads.of_ok called
          refine loaded src [] rfl (order.loaded runs (fun g ⟨a, inside, _⟩ => absurd inside List.not_mem_nil)
            (fun f file => fresh src [] f rfl file) (fun p member => ?_) ⟨_, List.mem_cons_self, areas⟩)
          rcases List.mem_cons.mp member with rfl | other
          · exact Or.inl areas
          · exact Or.inr ⟨p, List.mem_cons_of_mem _ (others ▸ other), rfl⟩
        | execSwitch src next =>
          cases which
          obtain ⟨x, called, rfl⟩ := sysExec_then (State.switchTo · next) acts
          obtain ⟨ret, loading, runs, areas, others⟩ := sysExec_loads.of_ok called
          have there : next ∈ x.2.others := others ▸ enabled
          refine loaded src [] rfl (order.loaded runs (fun g ⟨a, inside, _⟩ => absurd inside List.not_mem_nil)
            (fun f file => fresh src [] f rfl file) (fun p member => ?_)
            ⟨x.2.current, (mem_switchTo there).mpr List.mem_cons_self, areas⟩)
          rcases List.mem_cons.mp ((mem_switchTo there).mp member) with rfl | other
          · exact Or.inl areas
          · exact Or.inr ⟨p, List.mem_cons_of_mem _ (others ▸ other), rfl⟩
        | fault | touch | store | copyOut | fork | exit | switch | idle | grow => cases which

/-- In every state of a run the files of the areas are there exactly when no program is loaded that maps a
part of its file and is then closed. -/
theorem mapped_files_alive_iff (s : MappedFiles) (order : s.InOrder) (events : List MapEvent) :
    Throughout MapStep (fun _ _ t => t.Alive) s events ↔ Throughout MapStep (fun s e _ => e.Careful s) s events := by
  apply Throughout.congr MappedFiles.InOrder order
  · exact fun s e t good step => (step.alive_iff good).1
  · exact fun s e t good step => (step.alive_iff good).2

def MappedFiles.blank : MappedFiles where
  procs := ⟨⟨fun _ => 0, 1, 8, 2 ^ 18, PAGE_SIZE, none⟩, fun _ _ => 0, ⟨1, 2, 0, [], startRegs 0⟩, [], 2, [],
    fun _ => none⟩
  opened := ∅
  held := ∅

theorem MappedFiles.blank_inOrder : blank.InOrder := by
  have bare : ∀ p ∈ blank.procs.current :: blank.procs.others, p.areas = [] := by
    intro p member
    rw [List.mem_singleton.mp member]
    rfl
  refine ⟨fun p member a inside => ?_, Finset.empty_subset _, fun p member g ⟨a, inside, _⟩ => ?_⟩
  · rw [bare p member] at inside
    exact absurd inside List.not_mem_nil
  · rw [bare p member] at inside
    exact absurd inside List.not_mem_nil

def textHeader : Phdr := ⟨PT_LOAD, PF_R ||| PF_X, 0, 0x400000, 0x1000, 0x1000⟩

/-- A program without memory for its area. -/
theorem mapped_files_alive_iff_text :
    Throughout MapStep (fun _ _ t => t.Alive) MappedFiles.blank
      [.kernelExec (segmentProgram textHeader fun _ => false), .opens 2, .closes 2] ↔
    Throughout MapStep (fun s e _ => e.Careful s) MappedFiles.blank
      [.kernelExec (segmentProgram textHeader fun _ => false), .opens 2, .closes 2] :=
  mapped_files_alive_iff .blank MappedFiles.blank_inOrder _

/-- The first program that is loaded: its code is mapped from a `file_t` that is freed. -/
theorem exec_frees_mapped_file : ¬ ∀ s : MappedFiles, s.InOrder → ∀ events t, Run MapStep s events t → t.Alive := by
  intro all
  have step : ∃ t, MapStep .blank (.kernelExec (segmentProgram textHeader fun _ => true)) t ∧ t.opened = ∅ ∧
      ∃ a ∈ t.procs.current.areas, a.file = some 1 :=
    ⟨_, ⟨⟨fun _ _ f _ _ => Finset.notMem_empty f, trivial⟩, rfl⟩, rfl, _, List.mem_cons_self, rfl⟩
  obtain ⟨t, step, closed, a, inside, points⟩ := step
  have alive := all .blank MappedFiles.blank_inOrder _ t (.single step) _ List.mem_cons_self a inside 1 points
  rw [closed] at alive
  exact Finset.notMem_empty 1 alive

end Runs

end Landaux
