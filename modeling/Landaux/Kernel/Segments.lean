import Landaux.Kernel.ExecSpec
import Landaux.Mm.AddressSpace

/-!
# The areas of an accepted executable

For segments that do not overlap, which area `mm_find_area` finds for a page, and what
`do_page_fault` reads into that page from a regular file.
-/

namespace Landaux
open Lib

/-- The `i`-th program header as the loader reads it. -/
def ElfSource.header (src : ElfSource) (i : Nat) : Phdr :=
  (src.phdr ((src.ehdr.2.phoff.toNat + i * PHDR_SIZE) % 2 ^ 32)).2

def ElfSource.segments (src : ElfSource) : List Phdr :=
  ((List.range' 0 src.ehdr.2.phnum.toNat).map src.header).filter fun h => h.type == PT_LOAD

/-- Where a segment lies, out to whole pages. -/
def Phdr.first (h : Phdr) : Nat := roundPageDown h.vaddr.toNat

def Phdr.stop (h : Phdr) : Nat := roundPageUp (h.vaddr.toNat + h.memsz.toNat)

def Phdr.Apart (g h : Phdr) : Prop := g.stop ≤ h.first ∨ h.stop ≤ g.first

instance : Std.Symm Phdr.Apart := ⟨fun _ _ => Or.symm⟩

/-- Segments inside a file of `size` bytes, below the stack and apart from each other. -/
structure Fits (segments : List Phdr) (size : Nat) : Prop where
  small : size < 2 ^ 31
  nonempty : ∀ h ∈ segments, 0 < h.filesz.toNat + h.offset.toNat % PAGE_SIZE
  short : ∀ h ∈ segments, h.memsz.toNat + h.offset.toNat % PAGE_SIZE < 2 ^ 32
  inFile : ∀ h ∈ segments, h.offset.toNat + h.filesz.toNat ≤ size
  below : ∀ h ∈ segments, h.vaddr.toNat + h.memsz.toNat ≤ STACK_START - STACK_SIZE
  apart : segments.Pairwise Phdr.Apart

variable {src : ElfSource} {f : FileId} {size : Nat} {h : Phdr} {areas : List Area} {flags : BitVec 32}

/-! ### What is asked for -/

theorem headers_all {phoff : Nat} {last : BitVec 32} (n : Nat) : ∀ i first,
    (src.headers f phoff n i first).2 = .all last →
      (src.headers f phoff n i first).1 = (((List.range' i n).map fun j =>
        (src.phdr ((phoff + j * PHDR_SIZE) % 2 ^ 32)).2).filter fun h => h.type == PT_LOAD).flatMap
          (fun h => h.requests f) ∧
      ∀ h ∈ ((List.range' i n).map fun j => (src.phdr ((phoff + j * PHDR_SIZE) % 2 ^ 32)).2),
        h.type = PT_LOAD → h.verdict = .load := by
  induction n with
  | zero => exact fun i first _ => ⟨rfl, fun h member => absurd member List.not_mem_nil⟩
  | succ n ih =>
    intro i first all
    rw [ElfSource.headers] at all ⊢
    rw [List.range'_succ, List.map_cons]
    dsimp only at all ⊢
    split at all
    · cases all
    rename_i seek
    rw [if_neg seek]
    split at all
    · cases all
    rename_i negative
    rw [if_neg negative]
    split at all
    · cases all
    rename_i short
    rw [if_neg short]
    generalize (src.phdr ((phoff + i * PHDR_SIZE) % 2 ^ 32)).2 = h at all ⊢
    have skipped : h.type ≠ PT_LOAD → ((h :: (List.range' (i + 1) n).map fun j =>
        (src.phdr ((phoff + j * PHDR_SIZE) % 2 ^ 32)).2).filter fun h => h.type == PT_LOAD) =
        ((List.range' (i + 1) n).map fun j =>
          (src.phdr ((phoff + j * PHDR_SIZE) % 2 ^ 32)).2).filter fun h => h.type == PT_LOAD :=
      fun other => List.filter_cons_of_neg (by simpa using other)
    cases verdict : h.verdict with
    | skip =>
      rw [verdict] at all
      obtain ⟨requests, verdicts⟩ := ih (i + 1) first all
      have other : h.type ≠ PT_LOAD := fun load => by
        unfold Phdr.verdict at verdict
        rw [if_neg (by rw [load]; decide), if_pos load] at verdict
        split_ifs at verdict
      rw [skipped other]
      refine ⟨requests, fun g member load => ?_⟩
      rcases List.mem_cons.mp member with rfl | later
      · exact absurd load other
      · exact verdicts g later load
    | stack =>
      rw [verdict] at all
      obtain ⟨requests, verdicts⟩ := ih (i + 1) h.flags all
      have other : h.type ≠ PT_LOAD := fun load => by
        unfold Phdr.verdict at verdict
        rw [if_neg (by rw [load]; decide), if_pos load] at verdict
        split_ifs at verdict
      rw [skipped other]
      refine ⟨requests, fun g member load => ?_⟩
      rcases List.mem_cons.mp member with rfl | later
      · exact absurd load other
      · exact verdicts g later load
    | load =>
      rw [verdict] at all
      obtain ⟨requests, verdicts⟩ := ih (i + 1) first all
      have load : h.type = PT_LOAD := by
        unfold Phdr.verdict at verdict
        split_ifs at verdict
        assumption
      rw [List.filter_cons_of_pos (by simpa using load), List.flatMap_cons]
      refine ⟨congrArg (fun rs => h.requests f ++ rs) requests, fun g member loads => ?_⟩
      rcases List.mem_cons.mp member with rfl | later
      · exact verdict
      · exact verdicts g later loads
    | refuse =>
      rw [verdict] at all
      cases all
    | high =>
      rw [verdict] at all
      cases all

theorem wanted_all (all : (src.wanted f).2 = .all flags) :
    (src.wanted f).1 = src.segments.flatMap (fun h => h.requests f) ∧
      ∀ h ∈ src.segments, h.verdict = .load := by
  obtain ⟨requests, verdicts⟩ := headers_all _ _ _ all
  refine ⟨requests, fun h member => ?_⟩
  obtain ⟨inHeaders, load⟩ := List.mem_filter.mp member
  exact verdicts h inHeaders (by simpa using load)

/-! ### Where the areas of a segment lie -/

theorem verdict_load (load : h.verdict = .load) : h.filesz.toNat ≤ h.memsz.toNat ∧
    h.vaddr.toNat % PAGE_SIZE = h.offsetInPage := by
  unfold Phdr.verdict at load
  split_ifs at load
  exact ⟨by omega, by omega⟩

/-- A segment of an executable that fits, without the narrowing of the loader. -/
structure Shape (h : Phdr) (f : FileId) : Prop where
  file : h.fileArea f = ⟨h.first, h.vaddr.toNat + h.filesz.toNat, elfFlagsToMmapProt h.flags, some f,
    roundPageDown h.offset.toNat⟩
  mem : h.memArea = ⟨roundPageUp (h.vaddr.toNat + h.filesz.toNat),
    max (roundPageUp (h.vaddr.toNat + h.filesz.toNat)) (h.vaddr.toNat + h.memsz.toNat),
    elfFlagsToMmapProt h.flags, none, 0⟩
  more : h.memSize > roundPageUp32 h.readSize ↔
    roundPageUp (h.vaddr.toNat + h.filesz.toNat) < h.vaddr.toNat + h.memsz.toNat

theorem Fits.shape (fits : Fits src.segments size) (member : h ∈ src.segments) (load : h.verdict = .load) :
    Shape h f := by
  obtain ⟨sizes, offsets⟩ := verdict_load load
  have short := fits.short h member
  have inFile := fits.inFile h member
  have small := fits.small
  unfold Phdr.offsetInPage at offsets
  have virt : h.virtAddr = h.first := by
    simp only [Phdr.virtAddr, Phdr.offsetInPage, Phdr.first, roundPageDown, PAGE_SIZE] at *
    omega
  have read : h.readSize = h.filesz.toNat + h.offset.toNat % PAGE_SIZE := by
    simp only [Phdr.readSize, Phdr.offsetInPage, PAGE_SIZE] at *
    omega
  have mem : h.memSize = h.memsz.toNat + h.offset.toNat % PAGE_SIZE := Nat.mod_eq_of_lt short
  have offset : h.fileOffset = roundPageDown h.offset.toNat := by
    simp only [Phdr.fileOffset, Phdr.offsetInPage, roundPageDown, PAGE_SIZE] at *
    omega
  have stop : h.first + (h.filesz.toNat + h.offset.toNat % PAGE_SIZE) =
      h.vaddr.toNat + h.filesz.toNat := by
    simp only [Phdr.first, roundPageDown, PAGE_SIZE] at *
    omega
  have round : h.first + roundPageUp32 (h.filesz.toNat + h.offset.toNat % PAGE_SIZE) =
      roundPageUp (h.vaddr.toNat + h.filesz.toNat) := by
    simp only [Phdr.first, roundPageUp32, roundPageUp, roundPageDown, PAGE_SIZE] at *
    omega
  have all : h.first + (h.memsz.toNat + h.offset.toNat % PAGE_SIZE) =
      h.vaddr.toNat + h.memsz.toNat := by
    simp only [Phdr.first, roundPageDown, PAGE_SIZE] at *
    omega
  refine ⟨?_, ?_, ?_⟩
  · unfold Phdr.fileArea
    rw [virt, read, stop, offset]
  · unfold Phdr.memArea
    rw [virt, read, mem, round]
    have size : roundPageUp (h.vaddr.toNat + h.filesz.toNat) +
        (h.memsz.toNat + h.offset.toNat % PAGE_SIZE -
          roundPageUp32 (h.filesz.toNat + h.offset.toNat % PAGE_SIZE)) =
        max (roundPageUp (h.vaddr.toNat + h.filesz.toNat)) (h.vaddr.toNat + h.memsz.toNat) := by
      omega
    rw [size]
  · rw [mem, read]
    omega

/-! ### Finding an area -/

/-- The areas of the executable and its stack. -/
def AreasOf (src : ElfSource) (f : FileId) (flags : BitVec 32) (areas : List Area) : Prop :=
  ∀ a, a ∈ areas ↔ a = stackOf flags ∨ ∃ h ∈ src.segments,
    a = h.fileArea f ∨ h.memSize > roundPageUp32 h.readSize ∧ a = h.memArea

theorem doExecElf_loads {regs : Regs} {s : Loading} (file : src.file = .ok f)
    (granted : ∀ n, src.alloc n = true) (result : doExecElf src [] regs = .ok (0, s)) :
    ∃ flags, AreasOf src f flags s.areas ∧ ∀ h ∈ src.segments, h.verdict = .load := by
  by_cases readable : src.Readable
  swap
  · obtain ⟨ret, negative, fails⟩ := doExecElf_unreadable [] regs file readable
    obtain ⟨rfl, -⟩ := Prod.mk.inj (Except.ok.inj (fails.symm.trans result))
    exact absurd negative (lt_irrefl 0)
  obtain ⟨k, areas, closed, exits, filled⟩ :=
    (doExecElf_spec _ List.Pairwise.nil file readable).of_ok result
  dsimp only at exits filled
  generalize zero : (0 : Int) = ret at exits filled
  cases exits with
  | area => exact absurd zero (by decide)
  | header _ refused => exact absurd (headers_refused _ _ _ refused) (by omega)
  | high => exact absurd zero (by decide)
  | stack => exact absurd zero (by decide)
  | @loaded k areas flags reaches all =>
    obtain ⟨requests, verdicts⟩ := wanted_all all
    refine ⟨flags, fun a => ?_, verdicts⟩
    rw [filled.perm.mem_iff, reaches.granted fun j _ _ => granted j, requests]
    simp only [List.append_nil, List.mem_cons, List.mem_reverse, List.mem_map, List.mem_flatMap]
    refine or_congr_right ⟨?_, ?_⟩
    · rintro ⟨r, ⟨h, member, asked⟩, rfl⟩
      refine ⟨h, member, ?_⟩
      rcases List.mem_cons.mp asked with rfl | more
      · exact Or.inl rfl
      · split at more
        · rename_i wants
          rw [List.mem_singleton.mp more]
          exact Or.inr ⟨wants, rfl⟩
        · exact absurd more List.not_mem_nil
    · rintro ⟨h, member, rfl | ⟨wants, rfl⟩⟩
      · exact ⟨⟨h.fileArea f, true⟩, ⟨h, member, List.mem_cons_self⟩, rfl⟩
      · refine ⟨⟨h.memArea, false⟩, ⟨h, member, List.mem_cons_of_mem _ ?_⟩, rfl⟩
        rw [if_pos wants]
        exact List.mem_singleton_self _

theorem mmFindArea_only {a : Area} {x : Nat} (member : a ∈ areas) (covers : a.covers x = true)
    (only : ∀ b ∈ areas, b.covers x = true → b = a) : mmFindArea areas x = some a := by
  cases found : mmFindArea areas x with
  | none =>
    have never := List.find?_eq_none.mp found a member
    exact absurd covers never
  | some b =>
    obtain ⟨inside, hit⟩ := mmFindArea_mem found
    rw [only b inside hit]

/-- The area for address `x` of segment `h`. -/
def Phdr.areaAt (h : Phdr) (f : FileId) (x : Nat) : Area :=
  if x < roundPageUp (h.vaddr.toNat + h.filesz.toNat) then h.fileArea f else h.memArea

/-- Two areas of one segment do not overlap, and lie in it. -/
theorem Shape.covers {a : Area} {x : Nat} (shape : Shape h f) (sizes : h.filesz.toNat ≤ h.memsz.toNat)
    (asked : a = h.fileArea f ∨ h.memSize > roundPageUp32 h.readSize ∧ a = h.memArea)
    (covers : a.covers x = true) : h.first ≤ x ∧ x < h.stop ∧ a = h.areaAt f x := by
  obtain ⟨file, mem, more⟩ := shape
  rw [Area.covers_iff] at covers
  unfold Phdr.areaAt Phdr.stop
  rcases asked with rfl | ⟨wants, rfl⟩
  · rw [file] at covers ⊢
    dsimp only at covers
    have inside : x < roundPageUp (h.vaddr.toNat + h.memsz.toNat) := by
      simp only [roundPageUp, roundPageDown, PAGE_SIZE] at *
      omega
    exact ⟨covers.1, inside, (if_pos covers.2).symm⟩
  · rw [mem] at covers ⊢
    dsimp only at covers
    have above : ¬ x < roundPageUp (h.vaddr.toNat + h.filesz.toNat) := by omega
    rw [if_neg above]
    rw [more] at wants
    rw [max_eq_right wants.le] at covers
    refine ⟨?_, covers.2, rfl⟩
    simp only [Phdr.first, roundPageUp, roundPageDown, PAGE_SIZE] at *
    omega

theorem Fits.find {x : Nat} (fits : Fits src.segments size) (list : AreasOf src f flags areas)
    (verdicts : ∀ h ∈ src.segments, h.verdict = .load) (member : h ∈ src.segments)
    (inside : h.first ≤ x ∧ x < h.stop) : mmFindArea areas x = some (h.areaAt f x) := by
  have shape := fits.shape (f := f) member (verdicts h member)
  have nonempty := fits.nonempty h member
  obtain ⟨sizes, offsets⟩ := verdict_load (verdicts h member)
  have asked : h.areaAt f x = h.fileArea f ∨
      h.memSize > roundPageUp32 h.readSize ∧ h.areaAt f x = h.memArea := by
    unfold Phdr.areaAt
    by_cases below : x < roundPageUp (h.vaddr.toNat + h.filesz.toNat)
    · exact Or.inl (if_pos below)
    · refine Or.inr ⟨shape.more.mpr ?_, if_neg below⟩
      unfold Phdr.stop at inside
      simp only [roundPageUp, roundPageDown, PAGE_SIZE] at *
      omega
  refine mmFindArea_only ((list _).mpr (Or.inr ⟨h, member, asked⟩)) ?_ fun b there covers => ?_
  · rw [Area.covers_iff]
    unfold Phdr.areaAt
    by_cases below : x < roundPageUp (h.vaddr.toNat + h.filesz.toNat)
    · rw [if_pos below, shape.file]
      exact ⟨inside.1, below⟩
    · rw [if_neg below, shape.mem]
      unfold Phdr.stop at inside
      simp only [roundPageUp, roundPageDown, PAGE_SIZE] at *
      omega
  · rcases (list b).mp there with rfl | ⟨g, among, asks⟩
    · -- the stack is above
      have below := fits.below h member
      rw [Area.covers_iff] at covers
      unfold Phdr.stop at inside
      simp only [stackOf, STACK_START, STACK_SIZE, MEM_BOTTOM_HALF, roundPageUp, roundPageDown,
        PAGE_SIZE] at *
      omega
    · have shape' := fits.shape (f := f) among (verdicts g among)
      obtain ⟨sizes', -⟩ := verdict_load (verdicts g among)
      obtain ⟨first, stop, eq⟩ := shape'.covers sizes' asks covers
      by_cases same : h = g
      · rw [eq, same]
      · have apart := fits.apart.forall member among same
        unfold Phdr.Apart at apart
        omega

/-! ### What is read -/

/-- `vfs_lseek` and `vfs_read` of a regular file that is open for reading. -/
structure Regular (io : FileOps) (f : FileId) (content : Nat → UInt8) (size : Nat) : Prop where
  lseek : ∀ offset ≤ size, io.lseek f offset = offset
  read : ∀ offset len, offset + len ≤ size → (io.read f offset len).1 = len ∧
    ∀ k < len, (io.read f offset len).2 k = content (offset + k)

/-- Byte `i` of a segment: from the file, or zero. -/
def Phdr.imageByte (h : Phdr) (content : Nat → UInt8) (i : Nat) : UInt8 :=
  if i < h.filesz.toNat then content (h.offset.toNat + i) else 0

theorem Fits.contents {io : FileOps} {content : Nat → UInt8} {i x : Nat} (fits : Fits src.segments size)
    (regular : Regular io f content size) (verdict : h.verdict = .load) (member : h ∈ src.segments)
    (inside : i < h.memsz.toNat) (page : x / PAGE_SIZE = (h.vaddr.toNat + i) / PAGE_SIZE) :
    (pageContents io (h.areaAt f x) x).1 = true ∧
      (pageContents io (h.areaAt f x) x).2 ((h.vaddr.toNat + i) % PAGE_SIZE) = h.imageByte content i := by
  have shape := fits.shape (f := f) member verdict
  have inFile := fits.inFile h member
  have small := fits.small
  obtain ⟨sizes, offsets⟩ := verdict_load verdict
  unfold Phdr.offsetInPage at offsets
  unfold Phdr.areaAt Phdr.imageByte
  by_cases below : x < roundPageUp (h.vaddr.toNat + h.filesz.toNat)
  · rw [if_pos below, shape.file]
    unfold pageContents
    dsimp only
    unfold readPage
    dsimp only
    generalize offset : (roundPageDown h.offset.toNat + (roundPageDown x - h.first)) % 2 ^ 32 = at'
    generalize len : min PAGE_SIZE (h.vaddr.toNat + h.filesz.toNat - roundPageDown x) = count
    have start : at' + (h.vaddr.toNat + i) % PAGE_SIZE = h.offset.toNat + i ∧ at' + count ≤ size := by
      simp only [Phdr.first, roundPageUp, roundPageDown, PAGE_SIZE] at *
      omega
    have bytes : (h.vaddr.toNat + i) % PAGE_SIZE < count ↔ i < h.filesz.toNat := by
      simp only [roundPageUp, roundPageDown, PAGE_SIZE] at *
      omega
    obtain ⟨ret, read⟩ := regular.read at' count start.2
    rw [if_neg (by rw [regular.lseek at' (by omega)]; omega)]
    refine ⟨?_, ?_⟩
    · change ((io.read f at' count).1 == (count : Int)) = true
      rw [ret]
      simp
    · change (if (h.vaddr.toNat + i) % PAGE_SIZE < count then (io.read f at' count).2 _ else 0) = _
      by_cases fromFile : i < h.filesz.toNat
      · rw [if_pos (bytes.mpr fromFile), if_pos fromFile, read _ (bytes.mpr fromFile), start.1]
      · rw [if_neg fun less => fromFile (bytes.mp less), if_neg fromFile]
  · rw [if_neg below, shape.mem]
    have zero : ¬ i < h.filesz.toNat := by
      simp only [roundPageUp, roundPageDown, PAGE_SIZE] at *
      omega
    rw [if_neg zero]
    exact ⟨rfl, rfl⟩

end Landaux
