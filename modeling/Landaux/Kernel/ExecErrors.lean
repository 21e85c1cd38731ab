import Landaux.Kernel.ExecSpec
import Landaux.Kernel.Boot

/-!
# Bad executables and failing allocations

Which files make `do_exec_elf` stop the machine or build areas that overlap, and which failures it
does not clean up after.
-/

namespace Landaux
open Lib Radix

variable {src : ElfSource} {f : FileId} {alloc : Nat → Bool} {k k' : Nat} {areas areas' : List Area}
  {rs rest : List Request} {regs : Regs}

/-! ### Overlapping areas -/

def Area.Apart (a b : Area) : Prop := ∀ x, ¬ (a.covers x = true ∧ b.covers x = true)

theorem Area.Apart.symm {a b : Area} (apart : a.Apart b) : b.Apart a := fun x both => apart x both.symm

theorem Area.Apart.of_le {a b : Area} (before : roundPageUp a.end ≤ b.start) : a.Apart b := by
  rintro x ⟨first, second⟩
  have inside := (Area.covers_iff.mp first).2
  have later := (Area.covers_iff.mp second).1
  omega

/-- What the areas of an address space should be. -/
structure Layout (areas : List Area) : Prop where
  sorted : Sorted areas
  apart : areas.Pairwise Area.Apart
  inside : ∀ a ∈ areas, a.end ≤ MEM_BOTTOM_HALF

/-- What do_exec_elf owes to every file: an error, or a layout. -/
def SafeLoad (src : ElfSource) (regs : Regs) : Prop :=
  ∃ ret s, doExecElf src [] regs = .ok (ret, s) ∧ (ret < 0 ∨ ret = 0 ∧ Layout s.areas)

def starts (rs : List Request) : List Nat := rs.map fun r => r.area.start

/-- No two areas asked for have the same start, and if no header is refused, they and the stack do not
overlap and end in the lower half. -/
def WellLaid (src : ElfSource) : Prop :=
  ∀ f, src.file = .ok f → src.Readable → (starts (src.wanted f).1).Nodup ∧
    ∀ flags, (src.wanted f).2 = .all flags →
      (stackOf flags).start ∉ starts (src.wanted f).1 ∧
      (stackOf flags :: (src.wanted f).1.map Request.area).Pairwise Area.Apart ∧
      ∀ r ∈ (src.wanted f).1, r.area.end ≤ MEM_BOTTOM_HALF

/-- With memory at hand, the areas are those of the requests made. -/
theorem Reaches.all_granted (granted : ∀ n, alloc n = true)
    (reaches : Reaches alloc k areas rs k' areas' rest) : ∃ made, rs = made ++ rest ∧
      areas' = (made.map Request.area).reverse ++ areas ∧
      (starts made).Nodup ∧ ∀ a ∈ areas, a.start ∉ starts made := by
  induction reaches with
  | here => exact ⟨[], rfl, rfl, List.nodup_nil, fun _ _ => List.not_mem_nil⟩
  | @added _ _ areas _ r _ _ free _ _ ih =>
    obtain ⟨made, rfl, rfl, nodup, apart⟩ := ih
    refine ⟨r :: made, rfl, by simp, List.nodup_cons.mpr ⟨?_, nodup⟩, fun a member clash => ?_⟩
    · exact apart r.area List.mem_cons_self
    · rcases List.mem_cons.mp clash with same | later
      · exact free ⟨a, member, same⟩
      · exact apart a (List.mem_cons_of_mem _ member) later
  | lost _ denied =>
    rw [granted] at denied
    cases denied

theorem occupied_made {r : Request} (made : List Request) :
    Occupied ((made.map Request.area).reverse ++ []) r ↔ r.area.start ∈ starts made := by
  unfold Occupied starts
  simp

theorem bad_executable_iff (granted : ∀ n, src.alloc n = true) :
    SafeLoad src regs ↔ WellLaid src := by
  constructor
  · rintro ⟨ret, s, result, outcome⟩ f file readable
    obtain ⟨k, areas', closed, exits, filled⟩ :=
      (doExecElf_spec regs List.Pairwise.nil file readable).of_ok result
    have none : ∀ {k}, src.alloc k = false → False := fun {k} denied => by
      rw [granted] at denied
      cases denied
    cases exits with
    | area _ _ denied => exact (none denied).elim
    | stack _ _ _ denied => exact (none denied).elim
    | header reaches refused =>
      obtain ⟨made, eq, -, nodup, -⟩ := reaches.all_granted granted
      rw [List.append_nil] at eq
      refine ⟨eq ▸ nodup, fun flags all => ?_⟩
      rw [refused] at all
      cases all
    | high reaches high =>
      obtain ⟨made, eq, -, nodup, -⟩ := reaches.all_granted granted
      rw [List.append_nil] at eq
      refine ⟨eq ▸ nodup, fun flags all => ?_⟩
      rw [high] at all
      cases all
    | loaded reaches all free _ =>
      obtain ⟨made, eq, rfl, nodup, -⟩ := reaches.all_granted granted
      rw [List.append_nil] at eq
      rw [occupied_made] at free
      obtain ⟨-, layout⟩ := outcome.resolve_left (lt_irrefl 0)
      have perm := filled.perm
      rw [List.append_nil] at perm
      have same := perm.trans ((List.reverse_perm (made.map Request.area)).cons _)
      refine ⟨eq ▸ nodup, fun flags all' => ?_⟩
      obtain rfl := HeadersEnd.all.inj (all.symm.trans all')
      rw [eq]
      refine ⟨free, ?_, fun r member => ?_⟩
      · exact (same.pairwise_iff Area.Apart.symm).mp layout.apart
      · apply layout.inside
        apply same.mem_iff.mpr
        exact List.mem_cons_of_mem _ (List.mem_map_of_mem member)
  · intro wellLaid
    cases file : src.file with
    | error err =>
      refine ⟨err.val, ⟨[], regs, 0, 0⟩, ?_, Or.inl (of_decide_eq_true err.property).2⟩
      unfold doExecElf
      rw [file]
    | ok f =>
      by_cases readable : src.Readable
      swap
      · obtain ⟨ret, negative, result⟩ := doExecElf_unreadable _ _ file readable
        exact ⟨ret, _, result, Or.inl negative⟩
      obtain ⟨nodup, whole⟩ := wellLaid f file readable
      rcases halts_or_exits src f [] with halts | ⟨ret, k, areas', closed, exits⟩
      · cases halts with
        | area reaches occupied =>
          obtain ⟨made, eq, rfl, -, -⟩ := reaches.all_granted granted
          rw [eq] at nodup
          unfold starts at nodup
          rw [List.map_append, List.nodup_append] at nodup
          exact absurd rfl (nodup.2.2 _ ((occupied_made made).mp occupied) _ List.mem_cons_self)
        | stack reaches all occupied =>
          obtain ⟨made, eq, rfl, -, -⟩ := reaches.all_granted granted
          rw [List.append_nil] at eq
          exact absurd (eq ▸ (occupied_made made).mp occupied) (whole _ all).1
      · obtain ⟨s, result, filled⟩ := exits.returns regs List.Pairwise.nil file readable
        refine ⟨ret, s, result, ?_⟩
        cases exits with
        | area => exact Or.inl (by decide)
        | header _ refused => exact Or.inl (headers_refused _ _ _ refused)
        | high => exact Or.inl (by decide)
        | stack => exact Or.inl (by decide)
        | loaded reaches all =>
          obtain ⟨made, eq, rfl, -, -⟩ := reaches.all_granted granted
          rw [List.append_nil] at eq
          obtain ⟨-, apart, inside⟩ := whole _ all
          rw [eq] at apart inside
          have perm := filled.perm
          rw [List.append_nil] at perm
          have same := perm.trans ((List.reverse_perm (made.map Request.area)).cons _)
          refine Or.inr ⟨rfl, filled.sorted, ?_, fun a member => ?_⟩
          · exact (same.pairwise_iff Area.Apart.symm).mpr apart
          · rcases List.mem_cons.mp (same.mem_iff.mp member) with rfl | asked
            · exact le_rfl
            · obtain ⟨r, inRs, rfl⟩ := List.mem_map.mp asked
              exact inside r inRs

/-- A segment with two pages of zeros after one page of the file. -/
def dataHeader : Phdr := ⟨PT_LOAD, PF_R ||| PF_W, 0x1000, 0x400000, 0x1000, 0x3000⟩

def dataAreas : List Area :=
  [⟨0x400000, 0x401000, 3, some 1, 0x1000⟩, ⟨0x401000, 0x403000, 3, none, 0⟩, stackArea]

theorem dataAreas_layout : Layout dataAreas := by
  have order : dataAreas.Pairwise fun a b => roundPageUp a.end ≤ b.start := by decide
  have sorted : dataAreas.Pairwise fun a b => a.start < b.start := by decide
  exact ⟨sorted, order.imp Area.Apart.of_le, by decide⟩

theorem bad_executable_iff_data : WellLaid (segmentProgram dataHeader fun _ => true) := by
  obtain ⟨s, loads, areas⟩ : ∃ s, doExecElf (segmentProgram dataHeader fun _ => true) [] (startRegs 0) = .ok (0, s) ∧
      s.areas = dataAreas := ⟨_, rfl, rfl⟩
  apply (bad_executable_iff fun _ => rfl).mp
  exact ⟨0, s, loads, Or.inr ⟨rfl, areas ▸ dataAreas_layout⟩⟩

/-- A segment without bytes in the file. -/
def bssHeader : Phdr := ⟨PT_LOAD, PF_R ||| PF_W, 0, 0x400000, 0, 0x2000⟩

/-- The empty area of the file and the area of the zeros start at one address. -/
theorem bss_halts : ¬ ∀ (src : ElfSource) (regs : Regs), (∀ n, src.alloc n = true) → SafeLoad src regs := by
  intro all
  obtain ⟨ret, s, result, -⟩ := all (segmentProgram bssHeader fun _ => true) (startRegs 0) fun _ => rfl
  have stops : doExecElf (segmentProgram bssHeader fun _ => true) [] (startRegs 0) = .error .area := rfl
  rw [stops] at result
  cases result

/-! ### Failures on the way -/

/-- The file is closed once, nothing that was asked for is missing after a return of 0, and a failure to
add an area is reported. -/
structure ErrorPaths (src : ElfSource) (areas : List Area) (ret : Int) (s : Loading) : Prop where
  closed : ∀ f, src.file = .ok f → s.closed = 1
  added : ret = 0 → ∃ f flags, src.file = .ok f ∧ (src.wanted f).2 = .all flags ∧
    s.areas.Perm (stackOf flags :: (src.wanted f).1.map Request.area ++ areas)
  reported : (∃ j < s.allocs, src.alloc j = false) → ret < 0

/-- No `kzalloc` for the file part of a segment fails, the headers do not end at one with an address
above the lower half, and if the stack is added, no `kzalloc` has failed before. -/
def Careful (src : ElfSource) (areas : List Area) : Prop :=
  ∀ f, src.file = .ok f → src.Readable →
    (∀ k areas' r rest, Reaches src.alloc 0 areas (src.wanted f).1 k areas' (r :: rest) →
      ¬ Occupied areas' r → r.checked = true → src.alloc k = true) ∧
    ∀ k areas', Reaches src.alloc 0 areas (src.wanted f).1 k areas' [] →
      (src.wanted f).2 ≠ .high ∧
      ∀ flags, (src.wanted f).2 = .all flags → ¬ Occupied areas' ⟨stackOf flags, true⟩ →
        src.alloc k = true → ∀ j < k, src.alloc j = true

theorem Careful.of_paths (sorted : Sorted areas) (paths : ∀ ret s,
    doExecElf src areas regs = .ok (ret, s) → ErrorPaths src areas ret s) : Careful src areas := by
  intro f file readable
  constructor
  · intro k areas' r rest reaches free checked
    by_contra denied
    have exits : Exits src f areas (-ENOMEM) (k + 1) areas' 0 :=
      .area reaches free (by simpa using denied) checked
    obtain ⟨s, result, filled⟩ := exits.returns regs sorted file readable
    have closed := (paths _ s result).closed f file
    rw [filled.closed] at closed
    cases closed
  · intro k areas' reaches
    refine ⟨fun high => ?_, fun flags all free granted j below => ?_⟩
    · have exits : Exits src f areas (-ENOEXEC) k areas' 0 := .high reaches high
      obtain ⟨s, result, filled⟩ := exits.returns regs sorted file readable
      have closed := (paths _ s result).closed f file
      rw [filled.closed] at closed
      cases closed
    · by_contra denied
      have exits : Exits src f areas 0 (k + 1) (stackOf flags :: areas') 1 :=
        .loaded reaches all free granted
      obtain ⟨s, result, filled⟩ := exits.returns regs sorted file readable
      have negative := (paths _ s result).reported
        ⟨j, by rw [filled.allocs]; omega, by simpa using denied⟩
      exact absurd negative (lt_irrefl 0)

theorem error_paths_iff (sorted : Sorted areas) :
    (∀ ret s, doExecElf src areas regs = .ok (ret, s) → ErrorPaths src areas ret s) ↔
      Careful src areas := by
  refine ⟨Careful.of_paths sorted, fun careful ret s result => ?_⟩
  cases file : src.file with
  | error err =>
    have negative := (of_decide_eq_true err.property).2
    unfold doExecElf at result
    rw [file] at result
    obtain ⟨rfl, rfl⟩ := Prod.mk.inj (Except.ok.inj result)
    refine ⟨fun f opened => ?_, fun zero => absurd zero negative.ne, fun _ => negative⟩
    rw [file] at opened
    cases opened
  | ok f =>
    by_cases readable : src.Readable
    swap
    · obtain ⟨ret', negative, result'⟩ := doExecElf_unreadable areas regs file readable
      obtain ⟨rfl, rfl⟩ := Prod.mk.inj (Except.ok.inj (result'.symm.trans result))
      exact ⟨fun _ _ => rfl, fun zero => absurd zero negative.ne, fun _ => negative⟩
    obtain ⟨first, last⟩ := careful f file readable
    obtain ⟨k, areas', closed, exits, filled⟩ := (doExecElf_spec _ sorted file readable).of_ok result
    cases exits with
    | area reaches free denied checked =>
      rw [first _ _ _ _ reaches free checked] at denied
      cases denied
    | header _ refused =>
      have negative := headers_refused _ _ _ refused
      exact ⟨fun _ _ => filled.closed, fun zero => absurd zero negative.ne, fun _ => negative⟩
    | high reaches high => exact absurd high (last _ _ reaches).1
    | stack =>
      exact ⟨fun _ _ => filled.closed, fun zero => absurd zero (by decide), fun _ => by decide⟩
    | loaded reaches all free granted =>
      have before := (last _ _ reaches).2 _ all free granted
      refine ⟨fun _ _ => filled.closed, fun _ => ⟨f, _, file, all, ?_⟩, ?_⟩
      · have perm := filled.perm
        rw [reaches.granted fun j _ below => before j below] at perm
        exact perm.trans (((List.reverse_perm _).append_right _).cons _)
      · rintro ⟨j, below, denied⟩
        rw [filled.allocs] at below
        rcases Nat.lt_succ_iff_lt_or_eq.mp below with earlier | rfl
        · rw [before j earlier] at denied
          cases denied
        · rw [granted] at denied
          cases denied

/-- The failure of the third `kzalloc`, for the stack, is reported, and the file is closed. -/
theorem error_paths_iff_data : Careful (segmentProgram dataHeader fun n => n != 2) [] := by
  have exact_condition : (∀ ret s, doExecElf (segmentProgram dataHeader fun n => n != 2) [] (startRegs 0) = .ok (ret, s) →
      ErrorPaths (segmentProgram dataHeader fun n => n != 2) [] ret s) ↔ _ := error_paths_iff List.Pairwise.nil
  apply exact_condition.mp
  intro ret s result
  obtain ⟨t, loads, closed⟩ : ∃ t, doExecElf (segmentProgram dataHeader fun n => n != 2) [] (startRegs 0) =
      .ok (-ENOMEM, t) ∧ t.closed = 1 := ⟨_, rfl, rfl⟩
  obtain ⟨rfl, rfl⟩ := Prod.mk.inj (Except.ok.inj (loads.symm.trans result))
  exact ⟨fun _ _ => closed, fun zero => absurd zero (by decide), fun _ => by decide⟩

/-- The second `kzalloc` fails: the zeros are missing and 0 is returned. -/
theorem lost_area_succeeds : ¬ ∀ (src : ElfSource) (areas : List Area) (regs : Regs) (ret : Int)
    (s : Loading), Sorted areas → doExecElf src areas regs = .ok (ret, s) → ErrorPaths src areas ret s := by
  intro all
  have returns : ∃ s, doExecElf (segmentProgram dataHeader fun n => n != 1) [] (startRegs 0) = .ok (0, s) ∧
      s.allocs = 3 := ⟨_, rfl, rfl⟩
  obtain ⟨s, result, allocs⟩ := returns
  have negative := (all _ _ _ _ _ List.Pairwise.nil result).reported ⟨1, by omega, rfl⟩
  exact absurd negative (lt_irrefl 0)

/-! ### A failed `sys_exec` -/

/-- The address space and the registers of the running process are what they were. -/
structure SameCaller (s s' : State) : Prop where
  dir : s'.current.pageDir = s.current.pageDir
  tables : ∀ u ∈ s.current.tables s.ram, s'.ram u = s.ram u
  counts : ∀ u ∈ s.current.tables s.ram + frames (s.current.leaves s.ram), s'.cnt u = s.cnt u
  areas : s'.current.areas = s.current.areas
  regs : s'.current.regs = s.current.regs

/-- The load ends with an error number, after the areas `left` were added. -/
inductive Fails (src : ElfSource) : List Area → Prop where
  | missing {err : Errno} (file : src.file = .error err) : Fails src []
  | unreadable {f : FileId} (file : src.file = .ok f) (unreadable : ¬ src.Readable) : Fails src []
  | stopped {f : FileId} {ret : Int} {k closed : Nat} {left : List Area} (file : src.file = .ok f)
      (readable : src.Readable) (exits : Exits src f [] ret k left closed) (negative : ret < 0) :
      Fails src left

theorem Fails.returns {left : List Area} (fails : Fails src left) (regs : Regs) : ∃ ret s,
    doExecElf src [] regs = .ok (ret, s) ∧ ret < 0 ∧ s.areas.Perm left ∧ Sorted s.areas ∧ s.regs = regs := by
  cases fails with
  | @missing err file =>
    refine ⟨err.val, ⟨[], regs, 0, 0⟩, ?_, (of_decide_eq_true err.property).2, List.Perm.refl _,
      List.Pairwise.nil, rfl⟩
    unfold doExecElf
    rw [file]
  | unreadable file unreadable =>
    obtain ⟨ret, negative, result⟩ := doExecElf_unreadable [] regs file unreadable
    exact ⟨ret, _, result, negative, List.Perm.refl _, List.Pairwise.nil, rfl⟩
  | stopped file readable exits negative =>
    obtain ⟨s, result, filled⟩ := exits.returns regs List.Pairwise.nil file readable
    exact ⟨_, s, result, negative, filled.perm, filled.sorted, filled.regs.trans (if_neg negative.ne)⟩

theorem fails_of_result {ret : Int} {s : Loading} (result : doExecElf src [] regs = .ok (ret, s))
    (negative : ret < 0) : ∃ left, Fails src left := by
  cases file : src.file with
  | error err => exact ⟨[], .missing file⟩
  | ok f =>
    by_cases readable : src.Readable
    · obtain ⟨k, left, closed, exits, -⟩ :=
        (doExecElf_spec _ List.Pairwise.nil file readable).of_ok result
      exact ⟨left, .stopped file readable exits negative⟩
    · exact ⟨[], .unreadable file readable⟩

variable {static : Nat} {extra : Multiset Nat} {s : State}

theorem sysExec_eq (h : Holds static extra s) : ∃ t, Released s t ∧ ∀ src, sysExec src s =
    (doExecElf src [] s.current.regs).map fun r => (r.1, t.emptied r.2.areas r.2.regs) := by
  have frees := freeMm_spec h
  cases freed : freeMm s with
  | error stop => exact (frees.of_error freed).elim
  | ok u =>
    obtain ⟨t, released, rfl⟩ := frees.of_ok freed
    refine ⟨t, released, fun src => ?_⟩
    have regs : t.current.regs = s.current.regs := congrArg Task.regs released.same.current
    unfold sysExec
    rw [freed, ← regs]
    change (doExecElf src [] t.current.regs).bind _ = _
    cases doExecElf src [] t.current.regs with
    | error stop => rfl
    | ok r => rfl

/-- The lower half of the directory of the running process has never been used. -/
def Blank (s : State) : Prop := ∀ i, i < 256 → s.ram s.current.pageDir i = 0

theorem Blank.unused (blank : Blank s) : s.current.tables s.ram = {s.current.pageDir} ∧
    s.current.leaves s.ram = 0 ∧ inner s.ram 3 s.current.pageDir = 0 := by
  have unused : ∀ i, i < pageTables.width 3 →
      pageTables.next (s.ram s.current.pageDir i) = none := fun i inside => by
    rw [width_top] at inside
    rw [blank i inside]
    exact next_eq_none.mpr Pte.present_zero
  have tables : s.current.tables s.ram = {s.current.pageDir} := tables_unused unused
  refine ⟨tables, leaves_unused unused, ?_⟩
  rw [Holds.tables_inner] at tables
  exact add_eq_left.mp tables

theorem emptied_ram {t : State} {areas : List Area} (released : Released s t) (u i : Nat) :
    (t.emptied areas regs).ram u i = if u = s.current.pageDir ∧ i < 256 then 0 else s.ram u i := by
  rw [← released.ram, ← released.same.current]
  exact zeroLower_words (s := t)

theorem failed_exec_iff (h : Holds static extra s) :
    (∀ ret s', sysExec src s = .ok (ret, s') → ret < 0 → SameCaller s s') ↔
      ∀ left, Fails src left → Blank s ∧ Sorted s.current.areas ∧ s.current.areas.Perm left := by
  obtain ⟨t, released, eq⟩ := sysExec_eq h
  constructor
  · intro harmless left fails
    obtain ⟨ret, loading, result, negative, perm, sorted, -⟩ := fails.returns s.current.regs
    have same := harmless ret (t.emptied loading.areas loading.regs) (by rw [eq, result]; rfl) negative
    have areas : loading.areas = s.current.areas := same.areas
    refine ⟨fun i below => ?_, areas ▸ sorted, areas ▸ perm⟩
    rw [← same.tables _ mem_tables_self, emptied_ram released, if_pos ⟨rfl, below⟩]
  · intro blank ret s' result negative
    rw [eq] at result
    cases load : doExecElf src [] s.current.regs with
    | error stop =>
      rw [load] at result
      cases result
    | ok r =>
      obtain ⟨ret', loading⟩ := r
      rw [load] at result
      obtain ⟨rfl, rfl⟩ := Prod.mk.inj (Except.ok.inj result)
      obtain ⟨left, fails⟩ := fails_of_result load negative
      obtain ⟨blank, sorted, perm⟩ := blank left fails
      obtain ⟨ret, loading', result', -, perm', sorted', regs⟩ := fails.returns s.current.regs
      obtain ⟨rfl, rfl⟩ := Prod.mk.inj (Except.ok.inj (result'.symm.trans load))
      obtain ⟨-, leaves, inner⟩ := blank.unused
      have dir : t.current.pageDir = s.current.pageDir := congrArg Task.pageDir released.same.current
      refine ⟨dir, fun u _ => funext fun i => ?_, fun u _ => ?_,
        sorted'.eq_of_perm sorted (perm'.trans perm.symm), regs⟩
      · rw [emptied_ram released]
        split
        · rename_i lower
          rw [lower.1, blank i lower.2]
        · rfl
      · have cnt := released.cnt u
        rw [leaves, inner, frames_zero, Multiset.count_zero] at cnt
        change t.cnt u = s.cnt u
        simpa using cnt

/-- A path that does not exist: `vfs_open` returns -2. -/
def missingProgram : ElfSource := { bareProgram with file := .error ⟨-2, rfl⟩ }

theorem failed_exec_iff_64 : ∃ s, Booted 0 s ∧ (∃ s', sysExec missingProgram s = .ok (-2, s')) ∧
    ((∀ ret s', sysExec missingProgram s = .ok (ret, s') → ret < 0 → SameCaller s s') ↔
      ∀ left, Fails missingProgram left → Blank s ∧ Sorted s.current.areas ∧ s.current.areas.Perm left) := by
  obtain ⟨s, boot, -, -⟩ := booted_64
  obtain ⟨t, -, eq⟩ := sysExec_eq boot.holds
  exact ⟨s, boot, ⟨_, eq missingProgram⟩, failed_exec_iff boot.holds⟩

/-- The first process calls `sys_exec` on a path that does not exist, and has lost its stack. -/
theorem missing_program_destroys : ¬ ∀ (static : Nat) (s s' : State) (src : ElfSource) (ret : Int),
    Booted static s → sysExec src s = .ok (ret, s') → ret < 0 → SameCaller s s' := by
  intro all
  obtain ⟨s, boot, areas, -⟩ := booted_64
  obtain ⟨t, -, eq⟩ := sysExec_eq boot.holds
  have same := all 0 s _ missingProgram (-2) boot (eq missingProgram) (by decide)
  have lost : [] = s.current.areas := same.areas
  rw [areas] at lost
  cases lost

end Landaux
