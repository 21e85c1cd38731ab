import Landaux.Kernel.Accesses
import Landaux.Kernel.ExecErrors
import Landaux.Kernel.Segments

/-!
# The image of a program

After `do_exec_elf` the tables map no page. Whatever pages the program touches, and in whatever order, they show
the bytes of the file and zeros until the program stores to them. That is what the program reads, unless the
processor still keeps a translation of the program before.
-/

namespace Landaux
open Lib Radix

variable {static size a x i : Nat} {s t : State} {e : Event} {events : List Event} {io : FileOps}
  {src : ElfSource} {f : FileId} {h : Phdr} {areas : List Area} {content : Nat → UInt8} {b : UInt8}
  {code : FaultCode} {address : Nat}

/-! ### Bytes -/

def wordByte (w : Word) (k : Nat) : UInt8 := ⟨(w >>> (8 * k)).setWidth 8⟩

/-- What the running process reads at address `a`, if that does not fault. -/
def State.byteAt (s : State) (a : Nat) : Option UInt8 :=
  (s.translation (a / PAGE_SIZE)).map fun x => wordByte (s.ram x.frame (a % PAGE_SIZE / 8)) (a % 8)

/-- The byte at address `a` by the tables, if the page is there. -/
def State.mappedByte (s : State) (a : Nat) : Option UInt8 :=
  (s.entry (a / PAGE_SIZE)).map fun e => wordByte (s.ram (Pte.frame e) (a % PAGE_SIZE / 8)) (a % 8)

theorem State.Fresh.byteAt (fresh : s.Fresh (a / PAGE_SIZE)) (byte : s.byteAt a = some b) : s.mappedByte a = some b := by
  obtain ⟨x, found, rfl⟩ := Option.map_eq_some_iff.mp byte
  obtain ⟨e, entry, frame, -⟩ := fresh.entry found
  unfold mappedByte
  rw [entry, ← frame]
  rfl

theorem byteAt_cold (cold : s.tlb (a / PAGE_SIZE) = none) : s.byteAt a = s.mappedByte a := by
  unfold State.byteAt State.mappedByte State.translation
  rw [cold]
  exact Option.map_map ..

theorem packed_bit (bytes : Nat → UInt8) (n : Nat) : ∀ first j, j < 64 →
    ((List.range' first n).foldr (fun k (e : Word) => e <<< 8 ||| (bytes k).toBitVec.setWidth 64) 0).getLsbD
      j = (decide (j / 8 < n) && (bytes (first + j / 8)).toBitVec.getLsbD (j % 8)) := by
  induction n with
  | zero => simp
  | succ n ih =>
    intro first j below
    rw [List.range'_succ, List.foldr_cons, BitVec.getLsbD_or, BitVec.getLsbD_shiftLeft,
      BitVec.getLsbD_setWidth]
    by_cases low : j < 8
    · have number : j / 8 = 0 := Nat.div_eq_of_lt low
      simp [below, low, number, Nat.mod_eq_of_lt low]
    · have number : j / 8 = (j - 8) / 8 + 1 := by omega
      have off : (bytes first).toBitVec.getLsbD j = false := BitVec.getLsbD_of_ge _ _ (by omega)
      have index : first + ((j - 8) / 8 + 1) = first + 1 + (j - 8) / 8 := by omega
      have rest : j % 8 = (j - 8) % 8 := by omega
      rw [ih (first + 1) (j - 8) (by omega), off, number, rest, index]
      simp [below, low]

theorem wordByte_ofBytes (bytes : Nat → UInt8) (i : Nat) {k : Nat} (inside : k < 8) :
    wordByte (wordOfBytes bytes i) k = bytes (8 * i + k) := by
  apply UInt8.toBitVec_inj.mp
  apply BitVec.eq_of_getLsbD_eq
  intro j below
  have bit := packed_bit (fun k => bytes (8 * i + k)) 8 0 (8 * k + j) (by omega)
  have number : (8 * k + j) / 8 = k := by omega
  have rest : (8 * k + j) % 8 = j := by omega
  rw [number, rest, Nat.zero_add, decide_eq_true inside, Bool.true_and] at bit
  change (((wordOfBytes bytes i) >>> (8 * k)).setWidth 8).getLsbD j = _
  rw [BitVec.getLsbD_setWidth, BitVec.getLsbD_ushiftRight, decide_eq_true below, Bool.true_and]
  unfold wordOfBytes
  rw [List.range_eq_range']
  exact bit

theorem Coherent.byteAt (coherent : Coherent s) : s.byteAt a = s.mappedByte a := by
  cases kept : s.tlb (a / PAGE_SIZE) with
  | none => exact byteAt_cold kept
  | some x =>
    obtain ⟨-, e, entry, frame, -⟩ := coherent _ x kept
    unfold State.byteAt State.mappedByte State.translation
    rw [kept, entry, Option.map_some, Option.map_some, frame]

/-! ### First touches -/

/-- The events of a program on its own, as long as nothing is shared: pages come in, and it stores. -/
def FirstTouch (io : FileOps) : Event → Prop
  | .fault io' code _ => io' = io ∧ code.present = false
  | .touch _ | .store .. | .idle => True
  | _ => False

/-- A store that leaves the byte at `a` as it is, or stores `b` there. -/
def Keeps (a : Nat) (b : UInt8) : Event → Prop
  | .store v i w => v = a / PAGE_SIZE → i = a % PAGE_SIZE / 8 → wordByte w (a % 8) = b
  | _ => True

theorem absentFault_spec (h : Holds static 0 s) (step : Step s (.fault io code address) t)
    (absent : code.present = false) : address < 2 ^ 47 ∧ Paged static io address s t := by
  obtain ⟨⟨canonical, user, walked, -⟩, result⟩ := step
  change doPageFault io code address s = .ok (true, t) at result
  unfold doPageFault at result
  split at result
  · cases result
  rw [absent, user] at result
  change demandFault io address code.write s = _ at result
  rcases canonical with lower | ⟨upper, -⟩
  · have missing : s.entry (address / PAGE_SIZE) = none := by
      rw [← Option.not_isSome_iff_eq_none, ← walked lower, absent]
      decide
    exact ⟨lower, ((demandFault_spec h lower missing).of_ok result).1 rfl⟩
  · unfold demandFault at result
    rw [find_upper (h.areas _ Holds.current_mem) upper] at result
    cases result

/-- The running process has the given areas, and if its tables map the byte at `a`, it is `b`. -/
structure Showing (static : Nat) (areas : List Area) (a : Nat) (b : UInt8) (s : State) : Prop where
  holds : Holds static 0 s
  areas : s.current.areas = areas
  byte : ∀ c, s.mappedByte a = some c → c = b

theorem mappedByte_some {c : UInt8} (byte : s.mappedByte a = some c) : ∃ e, s.entry (a / PAGE_SIZE) = some e ∧
    wordByte (s.ram (Pte.frame e) (a % PAGE_SIZE / 8)) (a % 8) = c :=
  Option.map_eq_some_iff.mp byte

theorem Showing.fault (showing : Showing static areas a b s) (lower : a < 2 ^ 47)
    (find : ∀ x area, x / PAGE_SIZE = a / PAGE_SIZE → mmFindArea areas x = some area →
      (pageContents io area x).2 (a % PAGE_SIZE) = b)
    (paged : Paged static io address s t) : Showing static areas a b t := by
  obtain ⟨holds, list, before⟩ := showing
  have page : a / PAGE_SIZE < 2 ^ 35 := by
    simp only [PAGE_SIZE]
    omega
  obtain ⟨area, new, found, -, leaves, contents⟩ := paged.came
  refine ⟨paged.effect.holds, by rw [paged.effect.same.current, list], fun c byte => ?_⟩
  obtain ⟨e, entry, rfl⟩ := mappedByte_some byte
  have leaf := (entry_iff page).mp entry
  rw [leaves, Multiset.mem_add, Multiset.mem_singleton] at leaf
  rcases leaf with old | fresh
  · have entry := (entry_iff page).mpr old
    have mapped := Holds.frames_mapped Holds.current_mem (mem_frames old)
    rw [paged.effect.kept _ (holds.busy_mapped mapped)
      ((holds.entry_mapped page entry).2 _ Holds.current_mem)]
    apply before
    unfold State.mappedByte
    rw [entry]
    rfl
  · obtain ⟨same, rfl⟩ := Prod.mk.inj fresh
    rw [list] at found
    have index : 8 * (a % PAGE_SIZE / 8) + a % 8 = a % PAGE_SIZE := by
      simp only [PAGE_SIZE]
      omega
    rw [contents, wordByte_ofBytes _ _ (by omega), index]
    exact find address area same.symm found

theorem Showing.store {v : Nat} {w : Word} (showing : Showing static areas a b s) (lower : a < 2 ^ 47)
    (enabled : Enabled s (.store v i w)) (keeps : Keeps a b (.store v i w)) :
    Showing static areas a b (s.write v i w) := by
  obtain ⟨holds, list, before⟩ := showing
  obtain ⟨lowerV, e, found, writable⟩ := enabled
  have page : a / PAGE_SIZE < 2 ^ 35 := by
    simp only [PAGE_SIZE]
    omega
  have write : s.write v i w = s.setWord (Pte.frame e) i w := by
    unfold State.write
    rw [found]
  have kept := (holds.write_entry (i := i) (w := w) lowerV (by rw [found]; rfl)).1
  rw [write] at kept ⊢
  refine ⟨kept, list, fun c byte => ?_⟩
  have leaves : s.current.leaves (s.setWord (Pte.frame e) i w).ram = s.current.leaves s.ram := by
    apply Task.leaves_congr
    intro u inTree
    refine funext fun j => setWord_words.trans (if_neg ?_)
    rintro ⟨rfl, -⟩
    exact (holds.entry_mapped lowerV found).2 _ Holds.current_mem inTree
  obtain ⟨e', entry, rfl⟩ := mappedByte_some byte
  have leaf := (entry_iff page).mp entry
  change (_, e') ∈ s.current.leaves (s.setWord (Pte.frame e) i w).ram at leaf
  rw [leaves] at leaf
  rw [setWord_words]
  by_cases hit : Pte.frame e' = Pte.frame e ∧ a % PAGE_SIZE / 8 = i
  · obtain ⟨frame, word⟩ := hit
    rw [if_pos ⟨frame, word⟩]
    -- a writable entry is the only one of its frame
    have only : v = a / PAGE_SIZE := by
      have one := (holds.write _ Holds.current_mem v e ((entry_iff lowerV).mp found) writable).1
      by_contra other
      have both : {(v, e), (a / PAGE_SIZE, e')} ≤ s.current.leaves s.ram := by
        refine (Multiset.le_iff_subset ?_).mpr ?_
        · simpa using fun same _ => other same
        · intro p member
          simp only [Multiset.insert_eq_cons, Multiset.mem_cons, Multiset.mem_singleton] at member
          rcases member with rfl | rfl
          · exact (entry_iff lowerV).mp found
          · exact leaf
      have twice := Multiset.count_le_of_le (Pte.frame e) (Multiset.map_le_map both
        (f := fun p : Nat × Word => Pte.frame p.2))
      have total := holds.cnt_mapped (Holds.frames_mapped Holds.current_mem
        (mem_frames ((entry_iff lowerV).mp found)))
      rw [one, mapped_eq, Multiset.count_add] at total
      simp only [Multiset.insert_eq_cons, Multiset.map_cons, Multiset.map_singleton, frame] at twice
      change Multiset.count _ (Pte.frame e ::ₘ {Pte.frame e}) ≤
        (frames (s.current.leaves s.ram)).count _ at twice
      rw [Multiset.count_cons_self, Multiset.count_singleton_self] at twice
      omega
    exact keeps only word.symm
  · rw [if_neg hit]
    apply before
    unfold State.mappedByte
    rw [(entry_iff page).mpr leaf]
    rfl

theorem Showing.step (showing : Showing static areas a b s) (lower : a < 2 ^ 47)
    (find : ∀ x area, x / PAGE_SIZE = a / PAGE_SIZE → mmFindArea areas x = some area →
      (pageContents io area x).2 (a % PAGE_SIZE) = b)
    (touches : FirstTouch io e) (keeps : Keeps a b e) (step : Step s e t) :
    Showing static areas a b t := by
  cases e with
  | fault io' code address =>
    obtain ⟨rfl, absent⟩ := touches
    exact showing.fault lower find (absentFault_spec showing.holds step absent).2
  | touch v =>
    obtain ⟨-, rfl⟩ := step_done showing.holds step
    have ram : (s.fillTlb v).ram = s.ram ∧ (s.fillTlb v).current = s.current := by
      unfold State.fillTlb
      split <;> exact ⟨rfl, rfl⟩
    have byte : (s.fillTlb v).mappedByte a = s.mappedByte a := by
      unfold State.mappedByte State.entry
      rw [ram.1, ram.2]
    exact ⟨step_holds showing.holds step, by rw [ram.2, showing.areas], byte ▸ showing.byte⟩
  | store v i w =>
    obtain ⟨-, rfl⟩ := step_done showing.holds step
    exact showing.store lower step.1 keeps
  | idle =>
    have holds := step_holds showing.holds step
    obtain rfl := step_done showing.holds step
    exact ⟨holds, showing.areas, showing.byte⟩
  | copyOut | fork | exec | execSwitch | exit | switch | grow => exact touches.elim

theorem Showing.run (run : Run Processor.Step s events t)
    (fresh : Throughout Processor.Step (fun s e _ => UpToDate s e) s events)
    (showing : Showing static areas a b s) (lower : a < 2 ^ 47)
    (find : ∀ x area, x / PAGE_SIZE = a / PAGE_SIZE → mmFindArea areas x = some area →
      (pageContents io area x).2 (a % PAGE_SIZE) = b)
    (touches : ∀ e ∈ events, FirstTouch io e) (keeps : ∀ e ∈ events, Keeps a b e) :
    Showing static areas a b t := by
  induction run with
  | nil => exact showing
  | cons first _ ih =>
    obtain ⟨now, later⟩ := Throughout.cons_iff.mp fresh _ first
    refine ih later ?_ (fun e later => touches e (List.mem_cons_of_mem _ later))
      fun e later => keeps e (List.mem_cons_of_mem _ later)
    rcases now.step first with step | ⟨-, rfl⟩
    · exact showing.step lower find (touches _ List.mem_cons_self) (keeps _ List.mem_cons_self) step
    · exact showing

/-! ### ELF files -/

/-- `n` bytes from `offset` on, the least significant one first. -/
def littleEndian (content : Nat → UInt8) (offset : Nat) : Nat → Nat
  | 0 => 0
  | n + 1 => (content offset).toNat + 256 * littleEndian content (offset + 1) n

/-- The bytes of an `Elf64_Ehdr`. -/
def Ehdr.read (content : Nat → UInt8) : Ehdr where
  ident := content
  type := BitVec.ofNat 16 (littleEndian content 16 2)
  machine := BitVec.ofNat 16 (littleEndian content 18 2)
  version := BitVec.ofNat 32 (littleEndian content 20 4)
  entry := BitVec.ofNat 64 (littleEndian content 24 8)
  phoff := BitVec.ofNat 64 (littleEndian content 32 8)
  phnum := BitVec.ofNat 16 (littleEndian content 56 2)

/-- The bytes of an `Elf64_Phdr`. -/
def Phdr.read (content : Nat → UInt8) (offset : Nat) : Phdr where
  type := BitVec.ofNat 32 (littleEndian content offset 4)
  flags := BitVec.ofNat 32 (littleEndian content (offset + 4) 4)
  offset := BitVec.ofNat 64 (littleEndian content (offset + 8) 8)
  vaddr := BitVec.ofNat 64 (littleEndian content (offset + 16) 8)
  filesz := BitVec.ofNat 64 (littleEndian content (offset + 32) 8)
  memsz := BitVec.ofNat 64 (littleEndian content (offset + 40) 8)

/-- The segments that a file asks to be loaded. -/
def elfSegments (content : Nat → UInt8) : List Phdr :=
  ((List.range' 0 (Ehdr.read content).phnum.toNat).map fun i =>
    Phdr.read content ((Ehdr.read content).phoff.toNat + i * PHDR_SIZE)).filter fun h => h.type == PT_LOAD

/-- `src` and `io` read the file `f`, and its program headers lie inside it. -/
structure ElfFile (content : Nat → UInt8) (size : Nat) (f : FileId) (src : ElfSource) (io : FileOps) :
    Prop where
  file : src.file = .ok f
  ehdr : src.ehdr.2 = Ehdr.read content
  phdr : ∀ offset, offset + PHDR_SIZE ≤ size → (src.phdr offset).2 = Phdr.read content offset
  headers : (Ehdr.read content).phoff.toNat + (Ehdr.read content).phnum.toNat * PHDR_SIZE ≤ size
  regular : Regular io f content size

theorem ElfFile.segments (elf : ElfFile content size f src io) (small : size < 2 ^ 31) :
    src.segments = elfSegments content := by
  unfold ElfSource.segments elfSegments
  rw [elf.ehdr]
  refine congrArg _ (List.map_congr_left fun i member => ?_)
  have inside := elf.headers
  have below : i < (Ehdr.read content).phnum.toNat := by
    rw [List.mem_range'_1] at member
    omega
  unfold ElfSource.header
  rw [elf.ehdr]
  have whole : (Ehdr.read content).phoff.toNat + i * PHDR_SIZE + PHDR_SIZE ≤ size := by
    simp only [PHDR_SIZE] at inside ⊢
    omega
  rw [Nat.mod_eq_of_lt (by omega)]
  exact elf.phdr _ whole

/-! ### The image -/

/-- `do_exec_elf` has accepted `src` for the running process, and no page of it is there yet. -/
structure Executed (static : Nat) (src : ElfSource) (s : State) : Prop where
  holds : Holds static 0 s
  loaded : ∃ regs loading, doExecElf src [] regs = .ok (0, loading) ∧ s.current.areas = loading.areas
  leaves : s.current.leaves s.ram = 0

theorem Booted.executed (boot : Booted static s) : ∃ src, Executed static src s := by
  obtain ⟨src, regs, loading, result, areas, -⟩ := boot.program
  exact ⟨src, boot.holds, ⟨regs, loading, result, areas⟩, boot.leaves⟩

theorem sysExec_executed (h : Holds static 0 s) (result : sysExec src s = .ok (0, t)) :
    Executed static src t := by
  have replaced := (sysExec_spec src h).of_ok result
  obtain ⟨mid, -, eq⟩ := sysExec_eq h
  rw [eq] at result
  cases load : doExecElf src [] s.current.regs with
  | error stop =>
    rw [load] at result
    cases result
  | ok r =>
    obtain ⟨ret, loading⟩ := r
    rw [load] at result
    obtain ⟨rfl, rfl⟩ := Prod.mk.inj (Except.ok.inj result)
    exact ⟨replaced.holds, ⟨_, loading, load, rfl⟩, replaced.leaves⟩

/-- The segment flags let the program read or write. -/
def Phdr.permits (h : Phdr) (write : Bool) : Prop :=
  if write then h.flags &&& PF_W ≠ 0 else h.flags &&& PF_R ≠ 0 ∨ h.flags &&& PF_X ≠ 0

theorem Phdr.permits_allows {area : Area} {write : Bool} (permits : h.permits write)
    (prot : area.prot = elfFlagsToMmapProt h.flags) :
    ((!write && area.allows (PROT_READ ||| PROT_EXEC)) || (write && area.allows PROT_WRITE)) = true := by
  unfold Area.allows
  rw [prot]
  unfold elfFlagsToMmapProt
  unfold Phdr.permits at permits
  cases write with
  | true =>
    rw [if_pos rfl] at permits
    rw [if_pos permits]
    split <;> split <;> decide
  | false =>
    rw [if_neg Bool.false_ne_true] at permits
    rcases permits with read | exec
    · rw [if_pos read]
      split <;> split <;> decide
    · rw [if_pos exec]
      split <;> split <;> decide

theorem loaded_image (executed : Executed static src s) (elf : ElfFile content size f src io)
    (fits : Fits (elfSegments content) size) (granted : ∀ n, src.alloc n = true)
    (member : h ∈ elfSegments content) (inside : i < h.memsz.toNat) (run : Run Processor.Step s events t)
    (fresh : Throughout Processor.Step (fun s e _ => UpToDate s e) s events)
    (touches : ∀ e ∈ events, FirstTouch io e)
    (keeps : ∀ e ∈ events, Keeps (h.vaddr.toNat + i) (h.imageByte content i) e) :
    (t.Fresh ((h.vaddr.toNat + i) / PAGE_SIZE) → ∀ c, t.byteAt (h.vaddr.toNat + i) = some c →
      c = h.imageByte content i) ∧
      ∀ write, h.permits write → t.byteAt (h.vaddr.toNat + i) = none → 4 ≤ t.room →
        ∃ t', Processor.Step t (.fault io ⟨false, write, true, false⟩ (h.vaddr.toNat + i)) t' ∧
          t'.byteAt (h.vaddr.toNat + i) = some (h.imageByte content i) := by
  have same := elf.segments fits.small
  rw [← same] at fits member
  obtain ⟨holds, ⟨regs, loading, load, areas⟩, leaves⟩ := executed
  obtain ⟨flags, list, verdicts⟩ := doExecElf_loads elf.file granted load
  rw [← areas] at list
  have lower : h.vaddr.toNat + i < 2 ^ 47 := by
    have below := fits.below h member
    simp only [STACK_START, STACK_SIZE, MEM_BOTTOM_HALF, PAGE_SIZE] at below
    omega
  have near : ∀ x, x / PAGE_SIZE = (h.vaddr.toNat + i) / PAGE_SIZE → h.first ≤ x ∧ x < h.stop := by
    intro x page
    simp only [Phdr.first, Phdr.stop, roundPageUp, roundPageDown, PAGE_SIZE] at *
    omega
  have shows : ∀ x, x / PAGE_SIZE = (h.vaddr.toNat + i) / PAGE_SIZE →
      mmFindArea s.current.areas x = some (h.areaAt f x) ∧
      (pageContents io (h.areaAt f x) x).1 = true ∧
      (pageContents io (h.areaAt f x) x).2 ((h.vaddr.toNat + i) % PAGE_SIZE) = h.imageByte content i :=
    fun x page => ⟨fits.find list verdicts member (near x page),
      fits.contents elf.regular (verdicts h member) member inside page⟩
  have find : ∀ x area, x / PAGE_SIZE = (h.vaddr.toNat + i) / PAGE_SIZE →
      mmFindArea s.current.areas x = some area →
      (pageContents io area x).2 ((h.vaddr.toNat + i) % PAGE_SIZE) = h.imageByte content i := by
    intro x area page found
    obtain ⟨only, -, byte⟩ := shows x page
    obtain rfl := Option.some.inj (only.symm.trans found)
    exact byte
  have start : Showing static s.current.areas (h.vaddr.toNat + i) (h.imageByte content i) s := by
    refine ⟨holds, rfl, fun c byte => ?_⟩
    obtain ⟨e, entry, -⟩ := mappedByte_some byte
    rw [entry_none leaves (by simp only [PAGE_SIZE]; omega)] at entry
    cases entry
  have showing := start.run run fresh lower find touches keeps
  refine ⟨fun current c byte => showing.byte c (current.byteAt byte), fun write permits absent room => ?_⟩
  obtain ⟨cold, missing⟩ := State.entry_of_translation (Option.map_eq_none_iff.mp absent)
  obtain ⟨found, read, -⟩ := shows _ rfl
  have prot : (h.areaAt f (h.vaddr.toNat + i)).prot = elfFlagsToMmapProt h.flags := by
    unfold Phdr.areaAt
    split <;> rfl
  rw [← showing.areas] at found
  obtain ⟨t', step, paged⟩ := absentFault_step showing.holds lower missing
    ⟨found, Phdr.permits_allows permits prot, read, room⟩
  refine ⟨t', Processor.absentFault cold missing step, ?_⟩
  have after := showing.fault lower find paged
  obtain ⟨e, entry⟩ := Option.isSome_iff_exists.mp paged.present
  have byte : t'.mappedByte (h.vaddr.toNat + i) = some (wordByte (t'.ram (Pte.frame e)
      ((h.vaddr.toNat + i) % PAGE_SIZE / 8)) ((h.vaddr.toNat + i) % 8)) := by
    unfold State.mappedByte
    rw [entry]
    rfl
  rw [byteAt_cold paged.dropped, byte, after.byte _ byte]

/-! ### A small file -/

/-- What the code reads of a file that is not changed. -/
def ElfSource.ofFile (content : Nat → UInt8) (size : Nat) : ElfSource where
  file := .ok 1
  ehdr := ((min EHDR_SIZE size : Nat), Ehdr.read content)
  seek offset := if offset > size then -22 else offset
  phdr offset := ((min PHDR_SIZE (size - offset) : Nat), Phdr.read content offset)
  alloc _ := true

def FileOps.ofFile (content : Nat → UInt8) (size : Nat) : FileOps where
  lseek _ offset := if offset > size then -22 else offset
  read _ offset len := ((min len (size - offset) : Nat), fun k => content (offset + k))

theorem Regular.ofFile : Regular (.ofFile content size) f content size := by
  refine ⟨fun offset inside => if_neg (by omega), fun offset len inside => ⟨?_, fun _ _ => rfl⟩⟩
  change ((min len (size - offset) : Nat) : Int) = len
  rw [min_eq_left (by omega)]

/-- One segment: the file itself and zeros after it, up to the middle of the next page. -/
def smallFile : Nat → UInt8
  | 0 => 0x7f
  | 1 => 0x45
  | 2 => 0x4c
  | 3 => 0x46
  | 4 => 2
  | 5 => 1
  | 6 => 1
  | 16 => 2
  | 18 => 62
  | 20 => 1
  | 24 => 0x78
  | 26 => 0x40
  | 32 => 64
  | 56 => 1
  | 64 => 1
  | 68 => 7
  | 82 => 0x40
  | 96 => 120
  | 105 => 0x18
  | _ => 0

def smallHeader : Phdr := ⟨1, 7, 0, 0x400000, 120, 0x1800⟩

theorem smallFile_segments : elfSegments smallFile = [smallHeader] := rfl

theorem smallFile_header : smallHeader ∈ elfSegments smallFile := by
  rw [smallFile_segments]
  exact List.mem_singleton_self _

theorem smallFile_fits : Fits (elfSegments smallFile) 120 := by
  rw [smallFile_segments]
  refine ⟨by decide, ?_, ?_, ?_, ?_, List.pairwise_singleton _ _⟩
  all_goals
    intro h member
    obtain rfl := List.mem_singleton.mp member
    decide

theorem smallFile_loads (regs : Regs) : doExecElf (.ofFile smallFile 120) [] regs = .ok (0,
    ⟨[⟨0x400000, 0x400078, 7, some 1, 0⟩, ⟨0x401000, 0x401800, 7, none, 0⟩, stackArea],
      startRegs 0x400078, 3, 1⟩) := rfl

theorem smallFile_elf : ElfFile smallFile 120 1 (.ofFile smallFile 120) (.ofFile smallFile 120) :=
  ⟨rfl, rfl, fun _ _ => rfl, by decide, .ofFile⟩

/-- The page at 0x401000 is touched first. Byte 1 of the program is still the second byte of the file. -/
theorem loaded_image_64 : ∃ s t u, Executed 0 (.ofFile smallFile 120) s ∧
    Run Processor.Step s [.fault (.ofFile smallFile 120) ⟨false, true, true, false⟩ 0x401000] t ∧
    Processor.Step t (.fault (.ofFile smallFile 120) ⟨false, false, true, false⟩ 0x400001) u ∧
    u.byteAt 0x400001 = some 0x45 := by
  obtain ⟨s, boot, areas, room⟩ := booted_program (smallFile_loads (startRegs 0))
  have executed : Executed 0 (.ofFile smallFile 120) s :=
    ⟨boot.holds, ⟨_, _, smallFile_loads (startRegs 0), areas⟩, boot.leaves⟩
  have missing : s.entry (0x401000 / PAGE_SIZE) = none := entry_none boot.leaves (by decide)
  have find : mmFindArea s.current.areas 0x401000 = some ⟨0x401000, 0x401800, 7, none, 0⟩ := by
    rw [areas]
    rfl
  have served : Served (.ofFile smallFile 120) 0x401000 true s _ := ⟨find, by decide, rfl, by omega⟩
  obtain ⟨t, step, paged⟩ := absentFault_step boot.holds (by decide) missing served
  have run : Run Processor.Step s [.fault (.ofFile smallFile 120) ⟨false, true, true, false⟩ 0x401000] t :=
    .single (Processor.absentFault (by rw [boot.tlb]) missing step)
  have first : ∀ e ∈ [Event.fault (.ofFile smallFile 120) ⟨false, true, true, false⟩ 0x401000],
      FirstTouch (.ofFile smallFile 120) e ∧ Keeps (smallHeader.vaddr.toNat + 1) (smallHeader.imageByte smallFile 1) e ∧
        ∀ s, ColdExec s e := by
    intro e member
    obtain rfl := List.mem_singleton.mp member
    exact ⟨⟨rfl, rfl⟩, trivial, fun _ => trivial⟩
  obtain ⟨-, comes⟩ := loaded_image (i := 1) executed smallFile_elf smallFile_fits (fun _ => rfl)
    smallFile_header (by decide) run (Processor.upToDate_of_cold boot fun e member => (first e member).2.2)
    (fun e member => (first e member).1) fun e member => (first e member).2.1
  have apart : t.entry (0x400001 / PAGE_SIZE) = none := by
    obtain ⟨-, e, -, -, leaves, -⟩ := paged.came
    cases found : t.entry (0x400001 / PAGE_SIZE) with
    | none => rfl
    | some x =>
      have leaf := (entry_iff (by decide)).mp found
      rw [leaves, boot.leaves, zero_add, Multiset.mem_singleton] at leaf
      exact absurd (Prod.mk.inj leaf).1 (by decide)
  have absent : t.byteAt 0x400001 = none := by
    rw [(paged.effect.coherent (.of_cold boot.tlb)).byteAt]
    unfold State.mappedByte
    rw [apart]
    rfl
  have left := paged.room
  obtain ⟨u, step, byte⟩ := comes false (Or.inl (by decide)) absent (by omega)
  exact ⟨s, t, u, executed, run, step, byte⟩

/-! ### A page of the program before -/

/-- The same file with a segment that is not to be written to. -/
def textFile (k : Nat) : UInt8 := if k = 68 then 5 else smallFile k

theorem textFile_loads (regs : Regs) : doExecElf (.ofFile textFile 120) [] regs = .ok (0,
    ⟨[⟨0x400000, 0x400078, 5, some 1, 0⟩, ⟨0x401000, 0x401800, 5, none, 0⟩, stackArea],
      startRegs 0x400078, 3, 1⟩) := rfl

theorem textFile_contents : (pageContents (.ofFile textFile 120) ⟨0x400000, 0x400078, 5, some 1, 0⟩ 0x400001).2 =
    fun k => if k < 120 then textFile k else 0 := by
  funext k
  change (if k < 120 then textFile (0 + k) else 0) = _
  rw [Nat.zero_add]

/-- What `sys_exec` leaves when it has replaced the program by `src`. -/
structure Left (static : Nat) (src : ElfSource) (s t : State) : Prop where
  executed : Executed static src t
  blank : Blank t
  tlb : t.tlb = s.tlb
  ram : ∀ u, u ≠ s.current.pageDir → t.ram u = s.ram u
  room : s.room ≤ t.room

theorem sysExec_left {loading : Loading} (h : Holds static 0 s)
    (load : doExecElf src [] s.current.regs = .ok (0, loading)) :
    ∃ t, sysExec src s = .ok (0, t) ∧ Left static src s t ∧ t.current.areas = loading.areas := by
  obtain ⟨freed, released, result⟩ := sysExec_eq h
  have exec := (result src).trans (congrArg (Except.map _) load)
  have replaced := (sysExec_spec src h).of_ok exec
  have dir : freed.current.pageDir = s.current.pageDir := congrArg Task.pageDir released.same.current
  refine ⟨_, exec, ⟨sysExec_executed h exec, fun i lower => ?_, replaced.tlb, fun u other => funext fun i => ?_,
    released.room⟩, rfl⟩
  · exact (emptied_ram released _ i).trans (if_pos ⟨dir, lower⟩)
  · exact (emptied_ram released _ i).trans (if_neg fun both => other both.1)

/-- The program is read. -/
def staleRun : List Event :=
  [.fault (.ofFile textFile 120) ⟨false, false, true, false⟩ 0x400001, .touch 0x400]

/-- The processor keeps a page of `textFile` that the tables may not have any more. -/
structure Stale (x : Translation) (s : State) : Prop where
  kept : s.tlb 0x400 = some x
  write : x.write = false
  bytes : ∀ i, s.ram x.frame i = wordOfBytes (fun k => if k < 120 then textFile k else 0) i

/-- `textFile` is read, and before the processor forgets that, `smallFile` replaces it. -/
theorem stale_64 : ∃ s mid t x, Booted 0 s ∧ Run Processor.Step s staleRun mid ∧
    sysExec (.ofFile smallFile 120) mid = .ok (0, t) ∧ Left 0 (.ofFile smallFile 120) mid t ∧ Stale x t ∧
    t.current.areas = [⟨0x400000, 0x400078, 7, some 1, 0⟩, ⟨0x401000, 0x401800, 7, none, 0⟩, stackArea] ∧
    3 ≤ t.room := by
  obtain ⟨s, boot, areas, room⟩ := booted_program (textFile_loads (startRegs 0))
  have missing : s.entry (0x400001 / PAGE_SIZE) = none := entry_none boot.leaves (by decide)
  have find : mmFindArea s.current.areas 0x400001 = some ⟨0x400000, 0x400078, 5, some 1, 0⟩ := by
    rw [areas]
    rfl
  have served : Served (.ofFile textFile 120) 0x400001 false s _ := ⟨find, by decide, rfl, by omega⟩
  obtain ⟨one, fault, paged⟩ := absentFault_step boot.holds (by decide) missing served
  obtain ⟨area, e, found, -, leaves, bytes⟩ := paged.came
  obtain rfl := Option.some.inj (find.symm.trans found)
  rw [boot.leaves, zero_add] at leaves
  have leaf : (0x400, e) ∈ one.current.leaves one.ram := by
    rw [leaves]
    exact Multiset.mem_singleton_self _
  have entry : one.entry 0x400 = some e := (entry_iff (by decide)).mpr leaf
  have textOnly : Pte.writable e = false := by
    by_contra writable
    obtain ⟨-, a, member, allows, covers⟩ :=
      paged.effect.holds.write _ Holds.current_mem _ e leaf (Bool.eq_true_of_not_eq_false writable)
    rw [paged.effect.same.current, areas] at member
    simp only [List.mem_cons, List.not_mem_nil, or_false] at member
    rcases member with rfl | rfl | rfl
    · exact absurd allows (by decide)
    · exact absurd allows (by decide)
    · exact absurd covers (by decide)
  have touch : Processor.Step one (.touch 0x400) (one.fillTlb 0x400) :=
    ⟨⟨by decide, State.translation_isSome (by rw [entry]; rfl)⟩, rfl⟩
  have fresh : UpToDate one (.touch 0x400) := trivial
  have holds := Processor.step_holds paged.effect.holds fresh touch
  have cold : one.tlb 0x400 = none := paged.dropped
  rw [State.fillTlb_found cold entry] at touch holds
  obtain ⟨t, exec, left, list⟩ := sysExec_left holds (smallFile_loads one.current.regs)
  have apart : Pte.frame e ≠ one.current.pageDir := fun same =>
    (paged.effect.holds.entry_mapped (by decide) entry).2 _ Holds.current_mem (same ▸ mem_tables_self)
  have stale : Stale ⟨Pte.frame e, Pte.writable e⟩ t := by
    refine ⟨(congrFun left.tlb 0x400).trans (by simp), textOnly, fun i => ?_⟩
    exact (congrFun (left.ram _ apart) i).trans ((bytes i).trans (congrArg (wordOfBytes · i) textFile_contents))
  have came := paged.room
  have kept : one.room ≤ t.room := left.room
  exact ⟨s, _, t, _, boot, .cons (Processor.absentFault (by rw [boot.tlb]) missing fault) (.single touch), exec,
    left, stale, list, by omega⟩

/-- Byte 68 of the new program is still the one of the program before. -/
theorem stale_image : ¬ ∀ (static size i : Nat) (first mid s t : State) (before events : List Event)
    (src : ElfSource) (io : FileOps) (f : FileId) (content : Nat → UInt8) (h : Phdr) (c : UInt8),
    Booted static first → Run Processor.Step first before mid → sysExec src mid = .ok (0, s) →
    ElfFile content size f src io → Fits (elfSegments content) size → (∀ n, src.alloc n = true) →
    h ∈ elfSegments content → i < h.memsz.toNat → Run Processor.Step s events t →
    (∀ e ∈ events, FirstTouch io e) → (∀ e ∈ events, Keeps (h.vaddr.toNat + i) (h.imageByte content i) e) →
    t.byteAt (h.vaddr.toNat + i) = some c → c = h.imageByte content i := by
  intro all
  obtain ⟨first, mid, s, x, boot, before, exec, -, stale, -⟩ := stale_64
  have byte : s.byteAt (smallHeader.vaddr.toNat + 68) = some 5 := by
    change (s.translation 0x400).map (fun x => wordByte (s.ram x.frame 8) 4) = some 5
    unfold State.translation
    rw [stale.kept, Option.map_some, stale.bytes, wordByte_ofBytes _ _ (by decide)]
    rfl
  have wrong := all 0 120 68 first mid s s staleRun [] (.ofFile smallFile 120) (.ofFile smallFile 120) 1 smallFile
    smallHeader 5 boot before exec smallFile_elf smallFile_fits (fun _ => rfl) smallFile_header (by decide) (.nil s)
    (fun _ never => absurd never List.not_mem_nil) (fun _ never => absurd never List.not_mem_nil) byte
  exact absurd wrong (by decide)

end Landaux
