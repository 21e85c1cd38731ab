import Landaux.Kernel.ExecElf

/-!
# What an executable asks for

The program headers up to the first refused one, as a list of areas to be added, and `do_exec_elf` as
a walk over that list.
-/

namespace Landaux
open Lib

/-- An area that a header asks for; `checked` says whether the loader looks at the result. -/
structure Request where
  area : Area
  checked : Bool

namespace Phdr

def offsetInPage (h : Phdr) : Nat := h.offset.toNat % PAGE_SIZE
def fileOffset (h : Phdr) : Nat := (h.offset.toNat - h.offsetInPage) % 2 ^ 32
def virtAddr (h : Phdr) : Nat := h.vaddr.toNat - h.offsetInPage
def readSize (h : Phdr) : Nat := (h.filesz.toNat + h.offsetInPage) % 2 ^ 32
def memSize (h : Phdr) : Nat := (h.memsz.toNat + h.offsetInPage) % 2 ^ 32

def fileArea (h : Phdr) (f : FileId) : Area :=
  ⟨h.virtAddr, h.virtAddr + h.readSize, elfFlagsToMmapProt h.flags, some f, h.fileOffset⟩

def memArea (h : Phdr) : Area :=
  ⟨h.virtAddr + roundPageUp32 h.readSize,
    h.virtAddr + roundPageUp32 h.readSize + (h.memSize - roundPageUp32 h.readSize),
    elfFlagsToMmapProt h.flags, none, 0⟩

def requests (h : Phdr) (f : FileId) : List Request :=
  ⟨h.fileArea f, true⟩ :: if h.memSize > roundPageUp32 h.readSize then [⟨h.memArea, false⟩] else []

end Phdr

/-- What becomes of a header that has been read. -/
inductive Verdict where
  | skip
  | load
  | stack
  /-- the file is closed, and `-ENOEXEC` returned -/
  | refuse
  /-- `-ENOEXEC` is returned -/
  | high
  deriving DecidableEq

def Phdr.verdict (h : Phdr) : Verdict :=
  if h.type = PT_NULL ∨ h.type = PT_NOTE then .skip
  else if h.type = PT_LOAD then
    if h.filesz.toNat > h.memsz.toNat then .refuse
    else if h.vaddr.toNat % PAGE_SIZE ≠ h.offsetInPage then .refuse
    else if h.virtAddr > MEM_BOTTOM_HALF then .high
    else .load
  else if h.type = PT_GNU_STACK then .stack
  else .refuse

/-- How the loop over the headers ends, when all areas asked for are added. -/
inductive HeadersEnd where
  | all (stackFlags : BitVec 32)
  | refused (ret : Int)
  | high

/-- The areas that the headers from the `i`-th on ask for, up to a refused header. -/
def ElfSource.headers (src : ElfSource) (f : FileId) (phoff : Nat) :
    Nat → Nat → BitVec 32 → List Request × HeadersEnd
  | 0, _, stackFlags => ([], .all stackFlags)
  | n + 1, i, stackFlags =>
    let at' := (phoff + i * PHDR_SIZE) % 2 ^ 32
    if src.seek at' < 0 then ([], .refused (src.seek at'))
    else if (src.phdr at').1 < 0 then ([], .refused (src.phdr at').1)
    else if (src.phdr at').1 ≠ PHDR_SIZE then ([], .refused (-ENOEXEC))
    else
      let h := (src.phdr at').2
      match h.verdict with
      | .skip => src.headers f phoff n (i + 1) stackFlags
      | .load =>
        let later := src.headers f phoff n (i + 1) stackFlags
        (h.requests f ++ later.1, later.2)
      | .stack => src.headers f phoff n (i + 1) h.flags
      | .refuse => ([], .refused (-ENOEXEC))
      | .high => ([], .high)

def ElfSource.wanted (src : ElfSource) (f : FileId) : List Request × HeadersEnd :=
  src.headers f src.ehdr.2.phoff.toNat src.ehdr.2.phnum.toNat 0 (PF_R ||| PF_W ||| PF_X)

def ElfSource.Readable (src : ElfSource) : Prop :=
  src.ehdr.1 = EHDR_SIZE ∧ src.ehdr.2.accepted = true

def stackOf (stackFlags : BitVec 32) : Area :=
  ⟨STACK_START - STACK_SIZE, STACK_START, elfFlagsToMmapProt stackFlags, none, 0⟩

/-! ### Adding areas -/

/-- One `do_mmap` of the loader: the value that it makes `do_exec_elf` return, if it does. -/
def request (src : ElfSource) (r : Request) (s : Loading) : Except Stop (Option Int × Loading) :=
  (insertArea r.area s.areas).map fun longer =>
    if src.alloc s.allocs then (none, { s with areas := longer, allocs := s.allocs + 1 })
    else (if r.checked then some (-ENOMEM) else none, { s with allocs := s.allocs + 1 })

def place (src : ElfSource) : List Request → Loading → Except Stop (Option Int × Loading)
  | [], s => .ok (none, s)
  | r :: rest, s => (request src r s).bind fun
    | (some ret, s) => .ok (some ret, s)
    | (none, s) => place src rest s

variable {src : ElfSource} {f : FileId} {s s' : Loading}

theorem place_append (rs later : List Request) : place src (rs ++ later) s =
    (place src rs s).bind fun
      | (some ret, s) => .ok (some ret, s)
      | (none, s) => place src later s := by
  induction rs generalizing s with
  | nil => rfl
  | cons r rs ih =>
    rw [List.cons_append, place, place]
    cases request src r s with
    | error stop => rfl
    | ok result =>
      obtain ⟨ret | ret, s₁⟩ := result
      · exact ih
      · rfl

/-- An address at the start of a page is not taken for an error, after it has gone through an `int`. -/
theorem aligned_not_err {vaddr : Nat} (aligned : vaddr % PAGE_SIZE = 0) :
    isErr (toInt32 vaddr) = false := by
  unfold isErr toInt32
  simp only [BitVec.ofInt_natCast, BitVec.toInt_ofNat', PAGE_SIZE] at aligned ⊢
  apply decide_eq_false
  rw [Int.bmod_def]
  split <;> omega

theorem doMmap_checked {file : Option FileId} {offset vaddr len : Nat} {prot : BitVec 32} {α : Type}
    (aligned : vaddr % PAGE_SIZE = 0) (refused : Int → Loading → Except Stop α)
    (added : Loading → Except Stop α) :
    ((doMmap src file offset vaddr len prot s).bind fun r =>
      if isErr (toInt32 r.1) then refused (toInt32 r.1) r.2 else added r.2) =
    (request src ⟨⟨vaddr, vaddr + len, prot, file, offset⟩, true⟩ s).bind fun
      | (some ret, s) => refused ret s
      | (none, s) => added s := by
  unfold doMmap mmAddArea request
  cases insertArea ⟨vaddr, vaddr + len, prot, file, offset⟩ s.areas with
  | error stop => rfl
  | ok longer =>
    cases alloc : src.alloc s.allocs with
    | true =>
      change (if isErr (toInt32 vaddr) = true then _ else _) = _
      rw [aligned_not_err aligned]
      simp [Except.map, Except.bind]
    | false =>
      simp [Except.map, Except.bind]
      rfl

theorem doMmap_unchecked {file : Option FileId} {offset vaddr len : Nat} {prot : BitVec 32} {α : Type}
    (next : Loading → Except Stop α) :
    ((doMmap src file offset vaddr len prot s).bind fun r => next r.2) =
    (request src ⟨⟨vaddr, vaddr + len, prot, file, offset⟩, false⟩ s).bind fun r => next r.2 := by
  unfold doMmap mmAddArea request
  cases insertArea ⟨vaddr, vaddr + len, prot, file, offset⟩ s.areas with
  | error stop => rfl
  | ok longer =>
    cases alloc : src.alloc s.allocs with
    | true => simp [Except.map, Except.bind]; rfl
    | false => simp [Except.map, Except.bind]; rfl

theorem request_unchecked {a : Area} {ret : Option Int}
    (made : request src ⟨a, false⟩ s = .ok (ret, s')) : ret = none := by
  unfold request at made
  cases inserted : insertArea a s.areas with
  | error stop =>
    rw [inserted] at made
    cases made
  | ok longer =>
    rw [inserted] at made
    cases alloc : src.alloc s.allocs with
    | true =>
      simp only [Except.map, alloc, if_true] at made
      exact (Prod.mk.inj (Except.ok.inj made)).1.symm
    | false =>
      simp only [Except.map, alloc, Bool.false_eq_true, if_false] at made
      exact (Prod.mk.inj (Except.ok.inj made)).1.symm

/-! ### The loader walks over the list -/

theorem loadSegment_load {h : Phdr} (load : h.verdict = .load) :
    loadSegment src f h s = place src (h.requests f) s := by
  unfold Phdr.verdict at load
  split at load
  · cases load
  split at load
  swap
  · split at load <;> cases load
  split at load
  · cases load
  split at load
  · cases load
  split at load
  · cases load
  rename_i sizes offsets high
  have aligned : h.virtAddr % PAGE_SIZE = 0 := by
    unfold Phdr.virtAddr Phdr.offsetInPage at *
    simp only [PAGE_SIZE] at *
    omega
  unfold loadSegment
  rw [if_neg sizes]
  change (if h.vaddr.toNat % PAGE_SIZE ≠ h.offsetInPage then _ else
    if h.virtAddr > MEM_BOTTOM_HALF then _ else
    (doMmap src (some f) h.fileOffset h.virtAddr h.readSize (elfFlagsToMmapProt h.flags) s).bind fun r =>
      if isErr (toInt32 r.1) then _ else if h.memSize > roundPageUp32 h.readSize then
        (doMmap src none 0 (h.virtAddr + roundPageUp32 h.readSize) (h.memSize - roundPageUp32 h.readSize)
          (elfFlagsToMmapProt h.flags) r.2).bind fun r => .ok (none, r.2)
      else .ok (none, r.2)) = _
  rw [if_neg offsets, if_neg high]
  refine (doMmap_checked aligned (fun ret s => .ok (some ret, s)) fun s =>
    if h.memSize > roundPageUp32 h.readSize then
      (doMmap src none 0 (h.virtAddr + roundPageUp32 h.readSize) (h.memSize - roundPageUp32 h.readSize)
        (elfFlagsToMmapProt h.flags) s).bind fun r => .ok (none, r.2)
    else .ok (none, s)).trans ?_
  unfold Phdr.requests
  rw [place]
  refine congrArg (Except.bind _) (funext fun r => ?_)
  obtain ⟨ret | ret, s₁⟩ := r
  · dsimp only
    by_cases more : h.memSize > roundPageUp32 h.readSize
    · rw [if_pos more, if_pos more, doMmap_unchecked fun s => .ok (none, s), place]
      change (request src ⟨h.memArea, false⟩ s₁).bind _ = (request src ⟨h.memArea, false⟩ s₁).bind _
      cases made : request src ⟨h.memArea, false⟩ s₁ with
      | error stop => rfl
      | ok result =>
        obtain ⟨ret, s₂⟩ := result
        obtain rfl := request_unchecked made
        rfl
    · rw [if_neg more, if_neg more]
      rfl
  · rfl

def HeadersEnd.finish (e : HeadersEnd) (s : Loading) : Except Int (BitVec 32) × Loading :=
  match e with
  | .all stackFlags => (.ok stackFlags, s)
  | .refused ret => (.error ret, s.close)
  | .high => (.error (-ENOEXEC), s)

def HeadersEnd.after (e : HeadersEnd) :
    Option Int × Loading → Except Stop (Except Int (BitVec 32) × Loading)
  | (some ret, s) => .ok (.error ret, s)
  | (none, s) => .ok (e.finish s)

theorem loadSegment_refuse {h : Phdr} (type : h.type = PT_LOAD) (refuse : h.verdict = .refuse) :
    loadSegment src f h s = .ok (some (-ENOEXEC), s.close) := by
  unfold Phdr.verdict at refuse
  rw [if_neg (by rw [type]; decide), if_pos type] at refuse
  unfold loadSegment
  split at refuse
  · rename_i sizes
    rw [if_pos sizes]
  rename_i sizes
  rw [if_neg sizes]
  split at refuse
  · rename_i offsets
    exact if_pos offsets
  split at refuse <;> cases refuse

theorem loadSegment_high {h : Phdr} (type : h.type = PT_LOAD) (high : h.verdict = .high) :
    loadSegment src f h s = .ok (some (-ENOEXEC), s) := by
  unfold Phdr.verdict at high
  rw [if_neg (by rw [type]; decide), if_pos type] at high
  unfold loadSegment
  split at high
  · cases high
  rename_i sizes
  rw [if_neg sizes]
  split at high
  · cases high
  rename_i offsets
  split at high
  · rename_i above
    exact (if_neg offsets).trans (if_pos above)
  · cases high

theorem loadSegments_eq {phoff : Nat} (n : Nat) : ∀ i stackFlags s,
    loadSegments src f phoff n i stackFlags s =
      (place src (src.headers f phoff n i stackFlags).1 s).bind
        (src.headers f phoff n i stackFlags).2.after := by
  induction n with
  | zero => exact fun _ _ _ => rfl
  | succ n ih =>
    intro i stackFlags s
    rw [loadSegments, ElfSource.headers]
    generalize (phoff + i * PHDR_SIZE) % 2 ^ 32 = at'
    cases read : src.phdr at' with
    | mk ret h =>
    dsimp only
    by_cases seek : src.seek at' < 0
    · rw [if_pos seek, if_pos seek]
      rfl
    rw [if_neg seek, if_neg seek]
    by_cases negative : ret < 0
    · rw [if_pos negative, if_pos negative]
      rfl
    rw [if_neg negative, if_neg negative]
    by_cases short : ret ≠ PHDR_SIZE
    · rw [if_pos short, if_pos short]
      rfl
    rw [if_neg short, if_neg short]
    by_cases skipped : h.type = PT_NULL ∨ h.type = PT_NOTE
    · have verdict : h.verdict = .skip := if_pos skipped
      rw [if_pos skipped, verdict]
      exact ih _ _ _
    rw [if_neg skipped]
    by_cases load : h.type = PT_LOAD
    · rw [if_pos load]
      cases verdict : h.verdict with
      | load =>
        rw [loadSegment_load verdict]
        dsimp only
        rw [place_append]
        cases place src (h.requests f) s with
        | error stop => rfl
        | ok result =>
          obtain ⟨ret | ret, s₁⟩ := result
          · exact ih _ _ _
          · rfl
      | refuse =>
        rw [loadSegment_refuse load verdict]
        rfl
      | high =>
        rw [loadSegment_high load verdict]
        rfl
      | skip =>
        unfold Phdr.verdict at verdict
        rw [if_neg skipped, if_pos load] at verdict
        split_ifs at verdict
      | stack =>
        unfold Phdr.verdict at verdict
        rw [if_neg skipped, if_pos load] at verdict
        split_ifs at verdict
    rw [if_neg load]
    by_cases stack : h.type = PT_GNU_STACK
    · have verdict : h.verdict = .stack := (if_neg skipped).trans ((if_neg load).trans (if_pos stack))
      rw [if_pos stack, verdict]
      exact ih _ _ _
    · have verdict : h.verdict = .refuse := (if_neg skipped).trans ((if_neg load).trans (if_neg stack))
      rw [if_neg stack, verdict]
      rfl

/-- What follows the loop over the headers. -/
def stackRequest (src : ElfSource) :
    Except Int (BitVec 32) × Loading → Except Stop (Int × Loading)
  | (.error ret, s) => .ok (ret, s)
  | (.ok stackFlags, s) => (request src ⟨stackOf stackFlags, true⟩ s.close).map fun
    | (some ret, s) => (ret, s)
    | (none, s) => (0, { s with regs := startRegs src.ehdr.2.entry })

theorem doExecElf_eq {areas : List Area} {regs : Regs} (file : src.file = .ok f) (readable : src.Readable) :
    doExecElf src areas regs = ((place src (src.wanted f).1 ⟨areas, regs, 0, 0⟩).bind
      (src.wanted f).2.after).bind (stackRequest src) := by
  obtain ⟨whole, accepted⟩ := readable
  unfold doExecElf ElfSource.wanted
  rw [file]
  dsimp only
  rw [if_neg (by rw [whole]; decide), if_neg (by rw [whole]; decide), if_neg (by rw [accepted]; decide),
    loadSegments_eq]
  generalize (place src _ _).bind _ = loaded
  cases loaded with
  | error stop => rfl
  | ok result =>
    obtain ⟨ret | flags, s⟩ := result
    · rfl
    · refine (doMmap_checked (by decide) (fun ret s => .ok (ret, s)) fun s =>
        .ok (0, { s with regs := startRegs src.ehdr.2.entry })).trans ?_
      change (request src ⟨stackOf flags, true⟩ s.close).bind _ =
        (request src ⟨stackOf flags, true⟩ s.close).map _
      cases request src ⟨stackOf flags, true⟩ s.close with
      | error stop => rfl
      | ok result =>
        obtain ⟨ret | ret, s₁⟩ := result <;> rfl

/-- A file that cannot be read or is none of an executable is closed. -/
theorem doExecElf_unreadable (areas : List Area) (regs : Regs) (file : src.file = .ok f)
    (unreadable : ¬ src.Readable) :
    ∃ ret, ret < 0 ∧ doExecElf src areas regs = .ok (ret, ⟨areas, regs, 0, 1⟩) := by
  unfold doExecElf
  rw [file]
  dsimp only
  split
  · rename_i negative
    exact ⟨_, negative, rfl⟩
  split
  · exact ⟨_, by decide, rfl⟩
  split
  · exact ⟨_, by decide, rfl⟩
  · rename_i whole accepted
    exact absurd ⟨not_not.mp whole, by simpa using accepted⟩ unreadable

theorem headers_refused {phoff : Nat} {ret : Int} (n : Nat) : ∀ i stackFlags,
    (src.headers f phoff n i stackFlags).2 = .refused ret → ret < 0 := by
  induction n with
  | zero => exact fun _ _ none => by cases none
  | succ n ih =>
    intro i stackFlags refused
    rw [ElfSource.headers] at refused
    dsimp only at refused
    split at refused
    · rename_i negative
      exact HeadersEnd.refused.inj refused ▸ negative
    split at refused
    · rename_i negative
      exact HeadersEnd.refused.inj refused ▸ negative
    split at refused
    · exact HeadersEnd.refused.inj refused ▸ (by decide)
    split at refused
    · exact ih _ _ refused
    · exact ih _ _ refused
    · exact ih _ _ refused
    · exact HeadersEnd.refused.inj refused ▸ (by decide)
    · cases refused

/-! ### How far the requests are made -/

def Occupied (areas : List Area) (r : Request) : Prop := ∃ a ∈ areas, a.start = r.area.start

/-- From `areas` and the `k`-th call of `kzalloc` on, the requests before those of the last list are
made, and no answer to them is the end. -/
inductive Reaches (alloc : Nat → Bool) :
    Nat → List Area → List Request → Nat → List Area → List Request → Prop where
  | here {k : Nat} {areas : List Area} {rs : List Request} : Reaches alloc k areas rs k areas rs
  | added {k k' : Nat} {areas areas' : List Area} {r : Request} {rs rs' : List Request}
      (free : ¬ Occupied areas r) (granted : alloc k = true)
      (rest : Reaches alloc (k + 1) (r.area :: areas) rs k' areas' rs') :
      Reaches alloc k areas (r :: rs) k' areas' rs'
  | lost {k k' : Nat} {areas areas' : List Area} {r : Request} {rs rs' : List Request}
      (free : ¬ Occupied areas r) (denied : alloc k = false) (unchecked : r.checked = false)
      (rest : Reaches alloc (k + 1) areas rs k' areas' rs') :
      Reaches alloc k areas (r :: rs) k' areas' rs'

variable {alloc : Nat → Bool} {k k' : Nat} {areas areas' : List Area} {rs rs' : List Request}
  {r : Request}

theorem Occupied.perm (perm : areas.Perm areas') : Occupied areas r ↔ Occupied areas' r := by
  unfold Occupied
  simp only [perm.mem_iff]

/-- What is left of `s` when the requests have been made up to call `k`: the areas are those of `areas`,
in order. -/
structure Filled (s : Loading) (k : Nat) (areas : List Area) (s' : Loading) : Prop where
  perm : s'.areas.Perm areas
  sorted : Sorted s'.areas
  allocs : s'.allocs = k
  closed : s'.closed = s.closed
  regs : s'.regs = s.regs

theorem request_spec (src : ElfSource) (r : Request) (filled : Filled s k areas s') : Ends (request src r s')
    (fun result => ¬ Occupied areas r ∧ (src.alloc k = true ∧ result.1 = none ∧
        Filled s (k + 1) (r.area :: areas) result.2 ∨
      src.alloc k = false ∧ result.1 = (if r.checked then some (-ENOMEM) else none) ∧
        Filled s (k + 1) areas result.2))
    (fun e => e = .area ∧ Occupied areas r) := by
  obtain ⟨perm, sorted, rfl, closed, regs⟩ := filled
  have spec := insertArea_sorted r.area sorted
  unfold request
  cases inserted : insertArea r.area s'.areas with
  | error stop =>
    obtain ⟨rfl, taken⟩ := spec.of_error inserted
    exact ⟨rfl, (Occupied.perm perm).mp taken⟩
  | ok longer =>
    obtain ⟨longerPerm, longerSorted, free⟩ := spec.of_ok inserted
    refine ⟨fun taken => ?_, ?_⟩
    · obtain ⟨a, member, same⟩ := (Occupied.perm perm).mpr taken
      exact free a member same
    · cases alloc : src.alloc s'.allocs with
      | true =>
        left
        dsimp only
        rw [if_pos rfl]
        exact ⟨rfl, rfl, longerPerm.trans (perm.cons _), longerSorted, rfl, closed, regs⟩
      | false =>
        right
        dsimp only
        rw [if_neg Bool.false_ne_true]
        exact ⟨rfl, rfl, perm, sorted, rfl, closed, regs⟩

theorem request_occupied (filled : Filled s k areas s') (occupied : Occupied areas r) :
    request src r s' = .error .area := by
  have spec := request_spec src r filled
  cases made : request src r s' with
  | error stop => rw [(spec.of_error made).1]
  | ok result => exact absurd occupied (spec.of_ok made).1

theorem request_free (src : ElfSource) (filled : Filled s k areas s') (free : ¬ Occupied areas r) :
    ∃ s₁, (src.alloc k = true → request src r s' = .ok (none, s₁) ∧ Filled s (k + 1) (r.area :: areas) s₁) ∧
      (src.alloc k = false → request src r s' = .ok (if r.checked then some (-ENOMEM) else none, s₁) ∧
        Filled s (k + 1) areas s₁) := by
  have spec := request_spec src r filled
  cases made : request src r s' with
  | error stop => exact absurd (spec.of_error made).2 free
  | ok result =>
    obtain ⟨ret, s₁⟩ := result
    obtain ⟨-, ⟨granted, rfl, filled⟩ | ⟨denied, rfl, filled⟩⟩ := spec.of_ok made
    · exact ⟨s₁, fun _ => ⟨rfl, filled⟩, fun denied => absurd (granted.symm.trans denied) (by decide)⟩
    · exact ⟨s₁, fun granted => absurd (granted.symm.trans denied) (by decide), fun _ => ⟨rfl, filled⟩⟩

/-- The loader goes where the requests go. -/
theorem Reaches.place (reaches : Reaches src.alloc k areas rs k' areas' rs') :
    ∀ s₁, Filled s k areas s₁ → ∃ s₂, Filled s k' areas' s₂ ∧ place src rs s₁ = place src rs' s₂ := by
  induction reaches with
  | here => exact fun s₁ filled => ⟨s₁, filled, rfl⟩
  | added free granted _ ih =>
    intro s₁ filled
    obtain ⟨s₂, grants, -⟩ := request_free src filled free
    obtain ⟨made, filled⟩ := grants granted
    obtain ⟨s₃, filled, eq⟩ := ih s₂ filled
    refine ⟨s₃, filled, ?_⟩
    rw [Landaux.place, made]
    exact eq
  | lost free denied unchecked _ ih =>
    intro s₁ filled
    obtain ⟨s₂, -, denies⟩ := request_free src filled free
    obtain ⟨made, filled⟩ := denies denied
    obtain ⟨s₃, filled, eq⟩ := ih s₂ filled
    refine ⟨s₃, filled, ?_⟩
    rw [Landaux.place, made, unchecked]
    exact eq

/-- The requests go on to the end, or up to one that the loader does not survive. -/
theorem reaches_stuck (alloc : Nat → Bool) (rs : List Request) : ∀ k areas, ∃ k' areas' rs',
    Reaches alloc k areas rs k' areas' rs' ∧ (rs' = [] ∨ ∃ r rest, rs' = r :: rest ∧
      (Occupied areas' r ∨ ¬ Occupied areas' r ∧ alloc k' = false ∧ r.checked = true)) := by
  induction rs with
  | nil => exact fun k areas => ⟨k, areas, [], .here, Or.inl rfl⟩
  | cons r rs ih =>
    intro k areas
    by_cases occupied : Occupied areas r
    · exact ⟨k, areas, r :: rs, .here, Or.inr ⟨r, rs, rfl, Or.inl occupied⟩⟩
    cases granted : alloc k with
    | true =>
      obtain ⟨k', areas', rs', reaches, stuck⟩ := ih (k + 1) (r.area :: areas)
      exact ⟨k', areas', rs', .added occupied granted reaches, stuck⟩
    | false =>
      cases checked : r.checked with
      | true => exact ⟨k, areas, r :: rs, .here, Or.inr ⟨r, rs, rfl, Or.inr ⟨occupied, granted, checked⟩⟩⟩
      | false =>
        obtain ⟨k', areas', rs', reaches, stuck⟩ := ih (k + 1) areas
        exact ⟨k', areas', rs', .lost occupied granted checked reaches, stuck⟩

theorem Reaches.le (reaches : Reaches alloc k areas rs k' areas' rs') : k ≤ k' := by
  induction reaches with
  | here => exact le_rfl
  | added _ _ _ ih => omega
  | lost _ _ _ _ ih => omega

/-- When no call fails, everything asked for is there. -/
theorem Reaches.granted (reaches : Reaches alloc k areas rs k' areas' [])
    (granted : ∀ j, k ≤ j → j < k' → alloc j = true) :
    areas' = (rs.map Request.area).reverse ++ areas := by
  generalize ended : ([] : List Request) = rs' at reaches
  induction reaches with
  | here =>
    subst ended
    rfl
  | added _ _ _ ih =>
    rw [ih (fun j after below => granted j (by omega) below) ended]
    simp
  | lost _ denied _ reaches _ =>
    have before := reaches.le
    rw [granted _ le_rfl (by omega)] at denied
    cases denied

/-! ### The ends of `do_exec_elf` -/

/-- The returns of `do_exec_elf` on a readable file: the value, the calls of `kzalloc`, the areas and
how often the file is closed. -/
inductive Exits (src : ElfSource) (f : FileId) (areas : List Area) :
    Int → Nat → List Area → Nat → Prop where
  | area {k : Nat} {areas' : List Area} {r : Request} {rest : List Request}
      (reaches : Reaches src.alloc 0 areas (src.wanted f).1 k areas' (r :: rest))
      (free : ¬ Occupied areas' r) (denied : src.alloc k = false) (checked : r.checked = true) :
      Exits src f areas (-ENOMEM) (k + 1) areas' 0
  | header {k : Nat} {areas' : List Area} {ret : Int}
      (reaches : Reaches src.alloc 0 areas (src.wanted f).1 k areas' [])
      (refused : (src.wanted f).2 = .refused ret) : Exits src f areas ret k areas' 1
  | high {k : Nat} {areas' : List Area}
      (reaches : Reaches src.alloc 0 areas (src.wanted f).1 k areas' [])
      (high : (src.wanted f).2 = .high) : Exits src f areas (-ENOEXEC) k areas' 0
  | stack {k : Nat} {areas' : List Area} {flags : BitVec 32}
      (reaches : Reaches src.alloc 0 areas (src.wanted f).1 k areas' [])
      (all : (src.wanted f).2 = .all flags) (free : ¬ Occupied areas' ⟨stackOf flags, true⟩)
      (denied : src.alloc k = false) : Exits src f areas (-ENOMEM) (k + 1) areas' 1
  | loaded {k : Nat} {areas' : List Area} {flags : BitVec 32}
      (reaches : Reaches src.alloc 0 areas (src.wanted f).1 k areas' [])
      (all : (src.wanted f).2 = .all flags) (free : ¬ Occupied areas' ⟨stackOf flags, true⟩)
      (granted : src.alloc k = true) : Exits src f areas 0 (k + 1) (stackOf flags :: areas') 1

/-- `BUG_ON` finds two areas with one start. -/
inductive Halts (src : ElfSource) (f : FileId) (areas : List Area) : Prop where
  | area {k : Nat} {areas' : List Area} {r : Request} {rest : List Request}
      (reaches : Reaches src.alloc 0 areas (src.wanted f).1 k areas' (r :: rest))
      (occupied : Occupied areas' r)
  | stack {k : Nat} {areas' : List Area} {flags : BitVec 32}
      (reaches : Reaches src.alloc 0 areas (src.wanted f).1 k areas' [])
      (all : (src.wanted f).2 = .all flags) (occupied : Occupied areas' ⟨stackOf flags, true⟩)

theorem Filled.close (filled : Filled s k areas s') : Filled s.close k areas s'.close :=
  ⟨filled.perm, filled.sorted, filled.allocs, congrArg (fun n => n + 1) filled.closed, filled.regs⟩

def regsAfter (src : ElfSource) (regs : Regs) (ret : Int) : Regs :=
  if ret = 0 then startRegs src.ehdr.2.entry else regs

theorem Exits.returns {ret : Int} {closed : Nat} (regs : Regs) (sorted : Sorted areas)
    (file : src.file = .ok f) (readable : src.Readable) (exits : Exits src f areas ret k areas' closed) :
    ∃ s', doExecElf src areas regs = .ok (ret, s') ∧
      Filled ⟨areas, regsAfter src regs ret, 0, closed⟩ k areas' s' := by
  rw [doExecElf_eq file readable]
  have start : Filled ⟨areas, regs, 0, 0⟩ 0 areas ⟨areas, regs, 0, 0⟩ :=
    ⟨List.Perm.refl _, sorted, rfl, rfl, rfl⟩
  cases exits with
  | area reaches free denied checked =>
    obtain ⟨s₁, filled, eq⟩ := reaches.place _ start
    obtain ⟨s₂, -, denies⟩ := request_free src filled free
    obtain ⟨made, filled⟩ := denies denied
    rw [eq, place, made, checked]
    exact ⟨s₂, rfl, filled⟩
  | header reaches refused =>
    obtain ⟨s₁, filled, eq⟩ := reaches.place _ start
    have negative : ret < 0 := headers_refused _ _ _ refused
    have same : regsAfter src regs ret = regs := if_neg negative.ne
    rw [eq, place, refused, same]
    exact ⟨s₁.close, rfl, filled.close⟩
  | high reaches high =>
    obtain ⟨s₁, filled, eq⟩ := reaches.place _ start
    rw [eq, place, high]
    exact ⟨s₁, rfl, filled⟩
  | stack reaches all free denied =>
    obtain ⟨s₁, filled, eq⟩ := reaches.place _ start
    obtain ⟨s₂, -, denies⟩ := request_free src filled.close free
    obtain ⟨made, filled⟩ := denies denied
    rw [eq, place, all]
    change ∃ s', (request src ⟨stackOf _, true⟩ s₁.close).map _ = _ ∧ _
    rw [made]
    exact ⟨s₂, rfl, filled⟩
  | loaded reaches all free granted =>
    obtain ⟨s₁, filled, eq⟩ := reaches.place _ start
    obtain ⟨s₂, grants, -⟩ := request_free src filled.close free
    obtain ⟨made, perm, sorted, allocs, closed, -⟩ := grants granted
    rw [eq, place, all]
    change ∃ s', (request src ⟨stackOf _, true⟩ s₁.close).map _ = _ ∧ _
    rw [made]
    exact ⟨_, rfl, perm, sorted, allocs, closed, rfl⟩

theorem Halts.stops {regs : Regs} (sorted : Sorted areas) (file : src.file = .ok f)
    (readable : src.Readable) (halts : Halts src f areas) : doExecElf src areas regs = .error .area := by
  rw [doExecElf_eq file readable]
  have start : Filled ⟨areas, regs, 0, 0⟩ 0 areas ⟨areas, regs, 0, 0⟩ :=
    ⟨List.Perm.refl _, sorted, rfl, rfl, rfl⟩
  cases halts with
  | area reaches occupied =>
    obtain ⟨s₁, filled, eq⟩ := reaches.place _ start
    rw [eq, place, request_occupied filled occupied]
    rfl
  | stack reaches all occupied =>
    obtain ⟨s₁, filled, eq⟩ := reaches.place _ start
    rw [eq, place, all]
    change (request src ⟨stackOf _, true⟩ s₁.close).map _ = _
    rw [request_occupied filled.close occupied]
    rfl

/-- The loader stops at `BUG_ON`, or it exits. -/
theorem halts_or_exits (src : ElfSource) (f : FileId) (areas : List Area) :
    Halts src f areas ∨ ∃ ret k areas' closed, Exits src f areas ret k areas' closed := by
  obtain ⟨k, areas', rs', reaches, rfl | ⟨r, rest, rfl, occupied | ⟨free, denied, checked⟩⟩⟩ :=
    reaches_stuck src.alloc (src.wanted f).1 0 areas
  · cases ends : (src.wanted f).2 with
    | refused ret => exact Or.inr ⟨_, _, _, _, .header reaches ends⟩
    | high => exact Or.inr ⟨_, _, _, _, .high reaches ends⟩
    | all flags =>
      by_cases occupied : Occupied areas' ⟨stackOf flags, true⟩
      · exact Or.inl (.stack reaches ends occupied)
      cases granted : src.alloc k with
      | true => exact Or.inr ⟨_, _, _, _, .loaded reaches ends occupied granted⟩
      | false => exact Or.inr ⟨_, _, _, _, .stack reaches ends occupied granted⟩
  · exact Or.inl (.area reaches occupied)
  · exact Or.inr ⟨_, _, _, _, .area reaches free denied checked⟩

theorem doExecElf_spec (regs : Regs) (sorted : Sorted areas) (file : src.file = .ok f)
    (readable : src.Readable) : Ends (doExecElf src areas regs)
      (fun r => ∃ k areas' closed, Exits src f areas r.1 k areas' closed ∧
        Filled ⟨areas, regsAfter src regs r.1, 0, closed⟩ k areas' r.2)
      (fun e => e = .area ∧ Halts src f areas) := by
  rcases halts_or_exits src f areas with halts | ⟨ret, k, areas', closed, exits⟩
  · rw [halts.stops sorted file readable]
    exact ⟨rfl, halts⟩
  · obtain ⟨s', result, filled⟩ := exits.returns regs sorted file readable
    rw [result]
    exact ⟨k, areas', closed, exits, filled⟩

def segmentProgram (h : Phdr) (alloc : Nat → Bool) : ElfSource where
  file := .ok 1
  ehdr := (EHDR_SIZE, {
    ident := fun i => [0x7f, 0x45, 0x4c, 0x46, 2, 1, 1].getD i 0
    type := ET_EXEC
    machine := EM_X86_64
    version := EV_CURRENT
    entry := 0x400000
    phoff := 64
    phnum := 1 })
  seek offset := offset
  phdr _ := (PHDR_SIZE, h)
  alloc := alloc

end Landaux
