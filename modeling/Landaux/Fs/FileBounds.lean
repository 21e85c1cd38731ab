import Landaux.Fs.Contents

/-!
# Offsets and sizes of any width

`ramfs_read` and `ramfs_write` for every `u32` offset and size, where the sums of `ramfs.c` can wrap, and
the arithmetic of `vfs_lseek`, which wraps on purpose.
-/

namespace Landaux
open Lib

/-- The block of a file has the `alloc_size` bytes, and the bytes of the file are among them. -/
structure Backed (d : FileData) : Prop where
  fits : d.size ≤ d.allocSize
  unused : d.data = none → d.allocSize = 0
  block : ∀ b, d.data = some b → d.allocSize ≤ b.size ∧ b.size < 2 ^ 32

/-- What is copied are the bytes of the file from `offset` on, `size` of them or those that there are. -/
def ReadsWithin (d : FileData) (offset size : Nat) : Prop :=
  ∃ ret bytes, ramfsRead offset size d = .ok (ret, bytes) ∧ bytes.length = min size (d.size - offset) ∧
    ∀ b, d.data = some b → ∀ i < bytes.length, bytes.getD i 0 = b.bytes (offset + i)

/-- The call fails and leaves the file alone, or the copy goes to a block that has room for it. -/
def WritesWithin (answer : Granted) (d : FileData) (offset : Nat) (buf : List UInt8) : Prop :=
  ∃ ret d', ramfsWrite answer offset buf d = .ok (ret, d') ∧
    (ret = -ENOMEM ∧ d' = d ∨ ∃ b, d'.data = some b ∧ offset + buf.length ≤ b.size)

/-- Nothing is read, or `offset + size` does not wrap. -/
def ReadFits (d : FileData) (offset size : Nat) : Prop := d.size ≤ offset ∨ offset + size < 2 ^ 32

/-- `kmalloc` is asked and fails, or `offset + n` does not wrap and neither does the size of the block:
that there is, that is rounded up, or that is doubled. -/
def WriteFits (answer : Granted) (d : FileData) (offset n : Nat) : Prop :=
  (offset + n) % 2 ^ 32 > d.allocSize ∧ answer = none ∨
    offset + n < 2 ^ 32 ∧ (offset + n ≤ d.allocSize ∨ offset + n ≤ 2 ^ 32 - 4096 ∨
      d.data ≠ none ∧ offset + n ≤ d.allocSize * 2 % 2 ^ 32)

variable {d : FileData} {answer : Granted} {offset size stop n : Nat} {buf : List UInt8} {f : File}

/-! ### Reads -/

theorem Block.read_eq {b : Block} (inside : offset + n ≤ b.size) :
    b.read offset n = .ok ((List.range n).map fun k => b.bytes (offset + k)) := if_pos inside

/-- What `ramfs_read` passes to `memcpy`. -/
theorem ramfsRead_eq {b : Block} (data : d.data = some b) (before : offset < d.size) :
    ramfsRead offset size d =
      (b.read offset (if (offset + size) % 2 ^ 32 > d.size then d.size - offset else size)).map fun bytes =>
        (int32 (if (offset + size) % 2 ^ 32 > d.size then d.size - offset else size), bytes) := by
  unfold ramfsRead
  rw [if_neg (by omega), data]
  dsimp only
  cases b.read offset (if (offset + size) % 2 ^ 32 > d.size then d.size - offset else size) <;> rfl

theorem ramfsRead_copies {b : Block} (data : d.data = some b) (before : offset < d.size)
    (inside : offset + n ≤ b.size)
    (count : (if (offset + size) % 2 ^ 32 > d.size then d.size - offset else size) = n) :
    ramfsRead offset size d = .ok (int32 n, (List.range n).map fun k => b.bytes (offset + k)) := by
  rw [ramfsRead_eq data before, count, Block.read_eq inside]
  rfl

theorem readsWithin_iff (backed : Backed d) (low : offset < 2 ^ 32) (narrow : size < 2 ^ 32) :
    ReadsWithin d offset size ↔ ReadFits d offset size := by
  have fits := backed.fits
  by_cases past : d.size ≤ offset
  · refine iff_of_true ⟨0, [], if_pos past, ?_, ?_⟩ (Or.inl past)
    · rw [Nat.sub_eq_zero_of_le past, Nat.min_zero]
      rfl
    · intro b _ i inside
      exact absurd inside (Nat.not_lt_zero i)
  cases data : d.data with
  | none =>
    have zero := backed.unused data
    omega
  | some b =>
    obtain ⟨room, short⟩ := backed.block b data
    constructor
    · rintro ⟨ret, bytes, result, length, -⟩
      right
      by_contra wraps
      -- the wrapped sum lies below the offset, and nothing is cut off
      have whole : (if (offset + size) % 2 ^ 32 > d.size then d.size - offset else size) = size :=
        if_neg (by omega)
      rw [ramfsRead_eq data (by omega), whole] at result
      unfold Block.read at result
      rw [if_neg (by omega)] at result
      cases result
    · rintro (none | exact')
      · exact absurd none past
      · have count : (if (offset + size) % 2 ^ 32 > d.size then d.size - offset else size) =
            min size (d.size - offset) := by
          rw [Nat.mod_eq_of_lt exact']
          split <;> omega
        refine ⟨_, _, ramfsRead_copies data (by omega) (by omega) count, ?_, ?_⟩
        · rw [List.length_map, List.length_range]
        · intro b' same i inside
          obtain rfl := Option.some.inj (data.symm.trans same)
          rw [List.length_map, List.length_range] at inside
          simp [List.getD_eq_getElem?_getD, inside]

/-! ### Writes -/

theorem roundChunk_le (narrow : stop < 2 ^ 32) :
    roundChunk stop < 2 ^ 32 ∧ (stop ≤ roundChunk stop ↔ stop ≤ 2 ^ 32 - 4096) := by
  unfold roundChunk
  omega

def FileData.request (d : FileData) (stop : Nat) : Nat :=
  if d.data ≠ none ∧ stop ≤ d.allocSize * 2 % 2 ^ 32 then d.allocSize * 2 % 2 ^ 32 else roundChunk stop

theorem request_lt (narrow : stop < 2 ^ 32) : d.request stop < 2 ^ 32 := by
  unfold FileData.request
  split
  · exact Nat.mod_lt _ (by decide)
  · exact (roundChunk_le narrow).1

theorem le_request_iff (narrow : stop < 2 ^ 32) :
    stop ≤ d.request stop ↔ stop ≤ 2 ^ 32 - 4096 ∨ d.data ≠ none ∧ stop ≤ d.allocSize * 2 % 2 ^ 32 := by
  unfold FileData.request
  by_cases doubled : d.data ≠ none ∧ stop ≤ d.allocSize * 2 % 2 ^ 32
  · rw [if_pos doubled]
    exact iff_of_true doubled.2 (Or.inr doubled)
  · rw [if_neg doubled, (roundChunk_le narrow).2]
    exact ⟨Or.inl, fun either => either.resolve_right doubled⟩

/-- What the branch that allocates can come to. A block that is too small for the old contents is
already written past here. -/
theorem ramfsGrow_cases (backed : Backed d) (answer : Granted) (stop : Nat) :
    answer = none ∧ ramfsGrow answer stop d = .ok none ∨
    ∃ bytes, answer = some bytes ∧ (d.size ≤ d.request stop ∧ (∃ bytes', ramfsGrow answer stop d =
        .ok (some { d with allocSize := d.request stop, data := some ⟨d.request stop, bytes'⟩ })) ∨
      d.request stop < d.size ∧ ramfsGrow answer stop d = .error .overrun) := by
  have fits := backed.fits
  unfold ramfsGrow FileData.request
  cases data : d.data with
  | none =>
    cases answer with
    | none => exact Or.inl ⟨rfl, rfl⟩
    | some bytes =>
      have zero := backed.unused data
      refine Or.inr ⟨bytes, rfl, Or.inl ⟨by omega, bytes, ?_⟩⟩
      rw [if_neg fun both => both.1 rfl]
      rfl
  | some old =>
    have room := (backed.block old data).1
    have size : (if d.allocSize * 2 % 2 ^ 32 < stop then roundChunk stop else d.allocSize * 2 % 2 ^ 32) =
        if some old ≠ none ∧ stop ≤ d.allocSize * 2 % 2 ^ 32 then d.allocSize * 2 % 2 ^ 32
          else roundChunk stop := by
      by_cases less : d.allocSize * 2 % 2 ^ 32 < stop
      · rw [if_pos less, if_neg fun both => absurd both.2 (by omega)]
      · rw [if_neg less, if_pos ⟨Option.some_ne_none old, by omega⟩]
    dsimp only
    rw [size]
    generalize (if some old ≠ none ∧ stop ≤ d.allocSize * 2 % 2 ^ 32 then d.allocSize * 2 % 2 ^ 32
      else roundChunk stop) = allocSize
    cases answer with
    | none => exact Or.inl ⟨rfl, rfl⟩
    | some bytes =>
      refine Or.inr ⟨bytes, rfl, ?_⟩
      have length : ((List.range d.size).map fun k => old.bytes (0 + k)).length = d.size := by
        rw [List.length_map, List.length_range]
      dsimp only
      rw [Block.read_eq (by omega), ok_bind]
      unfold Block.write
      rw [length]
      by_cases enough : d.size ≤ allocSize
      · rw [if_pos (by dsimp only; omega)]
        exact Or.inl ⟨enough, _, rfl⟩
      · rw [if_neg (by dsimp only; omega)]
        exact Or.inr ⟨by omega, rfl⟩

/-- Once there is a block, `ramfs_write` copies into it. -/
theorem ramfsWrite_copies {d₁ : FileData} {b : Block}
    (chosen : (if (offset + buf.length) % 2 ^ 32 > d.allocSize then
      ramfsGrow answer ((offset + buf.length) % 2 ^ 32) d else .ok (some d)) = .ok (some d₁))
    (data : d₁.data = some b) : ramfsWrite answer offset buf d = b.write offset buf >>= fun b => .ok
      (int32 buf.length, { d₁ with size := max d₁.size ((offset + buf.length) % 2 ^ 32), data := some b }) := by
  unfold ramfsWrite
  dsimp only
  by_cases more : (offset + buf.length) % 2 ^ 32 > d.allocSize
  · rw [if_pos more] at chosen ⊢
    rw [chosen, ok_bind]
    dsimp only
    rw [data]
    rfl
  · rw [if_neg more] at chosen ⊢
    obtain rfl := Option.some.inj (Except.ok.inj chosen)
    rw [ok_bind]
    dsimp only
    rw [data]
    rfl

theorem writesWithin_block {d₁ : FileData} {b : Block}
    (chosen : (if (offset + buf.length) % 2 ^ 32 > d.allocSize then
      ramfsGrow answer ((offset + buf.length) % 2 ^ 32) d else .ok (some d)) = .ok (some d₁))
    (data : d₁.data = some b) : WritesWithin answer d offset buf ↔ offset + buf.length ≤ b.size := by
  unfold WritesWithin
  rw [ramfsWrite_copies chosen data]
  unfold Block.write
  by_cases inside : offset + buf.length ≤ b.size
  · rw [if_pos inside]
    exact iff_of_true ⟨_, _, rfl, Or.inr ⟨_, rfl, inside⟩⟩ inside
  · rw [if_neg inside]
    refine iff_of_false ?_ inside
    rintro ⟨ret, d', result, -⟩
    cases result

theorem writesWithin_iff (backed : Backed d) (answer : Granted) (bytes : buf ≠ []) :
    WritesWithin answer d offset buf ↔ WriteFits answer d offset buf.length := by
  have length := List.length_pos_iff.mpr bytes
  have narrow : (offset + buf.length) % 2 ^ 32 < 2 ^ 32 := Nat.mod_lt _ (by decide)
  by_cases more : (offset + buf.length) % 2 ^ 32 > d.allocSize
  · rcases ramfsGrow_cases backed answer ((offset + buf.length) % 2 ^ 32) with
      ⟨none, fails⟩ | ⟨bytes, granted, ⟨-, bytes', grows⟩ | ⟨short, overrun⟩⟩
    · refine iff_of_true ⟨-ENOMEM, d, ?_, Or.inl ⟨rfl, rfl⟩⟩ (Or.inl ⟨more, none⟩)
      unfold ramfsWrite
      dsimp only
      rw [if_pos more, fails]
      rfl
    · rw [writesWithin_block ((if_pos more).trans grows) rfl]
      have below := request_lt (d := d) narrow
      have enough := le_request_iff (d := d) narrow
      unfold WriteFits
      dsimp only
      constructor
      · intro inside
        rw [Nat.mod_eq_of_lt (by omega)] at enough inside
        exact Or.inr ⟨by omega, Or.inr (enough.mp inside)⟩
      · rintro (⟨-, none⟩ | ⟨whole, either⟩)
        · rw [granted] at none
          cases none
        · rw [Nat.mod_eq_of_lt whole] at more enough ⊢
          exact enough.mpr (either.resolve_left (by omega))
    · refine iff_of_false ?_ ?_
      · rintro ⟨ret, d', result, -⟩
        unfold ramfsWrite at result
        dsimp only at result
        rw [if_pos more, overrun] at result
        cases result
      · have fits := backed.fits
        have enough := le_request_iff (d := d) narrow
        rintro (⟨-, none⟩ | ⟨whole, either⟩)
        · rw [granted] at none
          cases none
        · rw [Nat.mod_eq_of_lt whole] at more enough short
          have room := enough.mpr (either.resolve_left (by omega))
          omega
  · cases data : d.data with
    | none =>
      have zero := backed.unused data
      refine iff_of_false ?_ ?_
      · rintro ⟨ret, d', result, -⟩
        unfold ramfsWrite at result
        dsimp only at result
        rw [if_neg more, ok_bind] at result
        dsimp only at result
        rw [data] at result
        cases result
      · rintro (⟨asked, -⟩ | ⟨whole, -⟩)
        · exact more asked
        · rw [Nat.mod_eq_of_lt whole] at more
          omega
    | some b =>
      obtain ⟨room, short⟩ := backed.block b data
      rw [writesWithin_block (if_neg more) data]
      constructor
      · intro inside
        rw [Nat.mod_eq_of_lt (by omega)] at more
        exact Or.inr ⟨by omega, Or.inl (by omega)⟩
      · rintro (⟨asked, -⟩ | ⟨whole, -⟩)
        · exact absurd asked more
        · rw [Nat.mod_eq_of_lt whole] at more
          omega

/-! ### Every file is backed -/

theorem Backed.new : Backed .new where
  fits := le_rfl
  unused := fun _ => rfl
  block := nofun

theorem Backed.truncate (backed : Backed d) (place : offset = 0 ∨ offset = d.size) :
    Backed (ramfsTruncate offset d) := by
  have fits := backed.fits
  unfold ramfsTruncate
  by_cases zero : offset = 0
  · rw [if_pos zero, zero]
    exact ⟨le_rfl, fun _ => rfl, nofun⟩
  · rw [if_neg zero, place.resolve_left zero]
    refine ⟨le_rfl, fun none => ?_, fun b data => ?_⟩
    · have unused := backed.unused none
      dsimp only
      omega
    · obtain ⟨room, short⟩ := backed.block b data
      exact ⟨fits.trans room, short⟩

/-- A write that returns keeps the block large enough, even where a sum has wrapped. -/
theorem Backed.write (backed : Backed d) : Ends (ramfsWrite answer offset buf d) (fun r => Backed r.2)
    fun _ => True := by
  have narrow : (offset + buf.length) % 2 ^ 32 < 2 ^ 32 := Nat.mod_lt _ (by decide)
  -- what the copy leaves of a file with room for the old contents
  have copied : ∀ d₁ b, (if (offset + buf.length) % 2 ^ 32 > d.allocSize then
      ramfsGrow answer ((offset + buf.length) % 2 ^ 32) d else .ok (some d)) = .ok (some d₁) →
      d₁.data = some b → d₁.size ≤ d₁.allocSize → d₁.allocSize ≤ b.size → b.size < 2 ^ 32 →
      (offset + buf.length ≤ b.size → (offset + buf.length) % 2 ^ 32 ≤ d₁.allocSize) →
      Ends (ramfsWrite answer offset buf d) (fun r => Backed r.2) fun _ => True := by
    intro d₁ b chosen data fits room short enough
    rw [ramfsWrite_copies chosen data]
    unfold Block.write
    by_cases inside : offset + buf.length ≤ b.size
    · rw [if_pos inside]
      refine ⟨max_le fits (enough inside), nofun, fun b' same => ?_⟩
      obtain rfl := Option.some.inj same
      exact ⟨room, short⟩
    · rw [if_neg inside]
      exact trivial
  by_cases more : (offset + buf.length) % 2 ^ 32 > d.allocSize
  · rcases ramfsGrow_cases backed answer ((offset + buf.length) % 2 ^ 32) with
      ⟨-, fails⟩ | ⟨bytes, -, ⟨fits, bytes', grows⟩ | ⟨-, overrun⟩⟩
    · unfold ramfsWrite
      dsimp only
      rw [if_pos more, fails]
      exact backed
    · exact copied _ _ ((if_pos more).trans grows) rfl fits le_rfl (request_lt narrow)
        fun inside => (Nat.mod_le _ _).trans inside
    · unfold ramfsWrite
      dsimp only
      rw [if_pos more, overrun]
      exact trivial
  · cases data : d.data with
    | none =>
      unfold ramfsWrite
      dsimp only
      rw [if_neg more, ok_bind]
      dsimp only
      rw [data]
      exact trivial
    | some b =>
      obtain ⟨room, short⟩ := backed.block b data
      exact copied d b (if_neg more) data backed.fits room short fun _ => by omega

/-- Reads and writes stay inside the file and its block exactly when their sums do not wrap. -/
theorem file_io_within_iff (backed : Backed d) (low : offset < 2 ^ 32) :
    (∀ size < 2 ^ 32, ReadsWithin d offset size ↔ ReadFits d offset size) ∧
      ∀ answer buf, buf ≠ [] → (WritesWithin answer d offset buf ↔ WriteFits answer d offset buf.length) :=
  ⟨fun _ narrow => readsWithin_iff backed low narrow,
    fun answer _ bytes => writesWithin_iff backed answer bytes⟩

/-- A file of two bytes in a block of a page. -/
def twoBytes : FileData := ⟨2, 4096, some ⟨4096, fun _ => 0⟩⟩

theorem twoBytes_backed : Backed twoBytes where
  fits := by decide
  unused := nofun
  block := by
    intro b same
    obtain rfl := Option.some.inj same
    exact ⟨le_rfl, by decide⟩

theorem file_io_within_iff_two : Backed twoBytes ∧
    ((∀ size < 2 ^ 32, ReadsWithin twoBytes 1 size ↔ ReadFits twoBytes 1 size) ∧
      ∀ answer buf, buf ≠ [] → (WritesWithin answer twoBytes 1 buf ↔ WriteFits answer twoBytes 1 buf.length)) :=
  ⟨twoBytes_backed, file_io_within_iff twoBytes_backed (by decide)⟩

/-- A read of 2^32 - 1 bytes from the second byte on. -/
theorem read_past_end : ¬ ∀ (d : FileData) (offset size : Nat), Backed d → offset < 2 ^ 32 → size < 2 ^ 32 →
    ReadsWithin d offset size := by
  intro all
  have within := all twoBytes 1 (2 ^ 32 - 1) twoBytes_backed (by decide) (by decide)
  rcases (readsWithin_iff twoBytes_backed (by decide) (by decide)).mp within with past | whole
  · exact absurd past (by decide)
  · omega

/-! ### Seeks -/

/-- The offset that a `whence` counts from. -/
def seekBase (whence : Int) (f : File) (d : FileData) : Option Nat :=
  if whence = SEEK_SET then some 0
  else if whence = SEEK_CUR then some f.offset
  else if whence = SEEK_END then some d.size
  else none

/-- What a seek is to do, in integers that do not wrap. -/
def seek (displacement whence : Int) (f : File) (d : FileData) : Ret × File :=
  match seekBase whence f d with
  | none => (⟨-EINVAL, []⟩, f)
  | some base =>
    if 0 ≤ base + displacement ∧ base + displacement ≤ d.size then
      (⟨base + displacement, []⟩, { f with offset := (base + displacement).toNat })
    else (⟨-EINVAL, []⟩, f)

theorem seekTarget_eq (whence : Int) (f : File) (d : FileData) (displacement : Int) :
    seekTarget (u32 displacement) whence f d =
      (seekBase whence f d).map fun base : Nat => u32 ((base : Int) + displacement) := by
  unfold seekTarget seekBase
  by_cases cur : whence = SEEK_CUR
  · subst cur
    rw [if_neg (by decide), if_pos rfl, if_neg (by decide), if_pos rfl, Option.map_some]
    unfold u32
    congr 1
    omega
  by_cases set : whence = SEEK_SET
  · subst set
    rw [if_neg (by decide), if_neg (by decide), if_pos rfl, if_pos rfl, Option.map_some, Nat.cast_zero,
      zero_add]
  rw [if_neg cur, if_neg set, if_neg set, if_neg cur]
  split
  · rw [Option.map_some]
    unfold u32
    congr 1
    omega
  · rfl

theorem lseek_seeks (whence displacement : Int) (f : File) (d : FileData) (short : d.size < 2 ^ 31)
    (low : f.offset ≤ 2 ^ 31) (above : -2 ^ 31 ≤ displacement) (below : displacement < 2 ^ 31) :
    vfsLseek (u32 displacement) whence f d = seek displacement whence f d := by
  unfold vfsLseek seek
  rw [seekTarget_eq]
  have bounded : ∀ base, seekBase whence f d = some base → base ≤ 2 ^ 31 := by
    intro base found
    unfold seekBase at found
    split_ifs at found <;> have same := Option.some.inj found <;> omega
  cases found : seekBase whence f d with
  | none => rfl
  | some base =>
    have small := bounded base found
    rw [Option.map_some]
    dsimp only
    by_cases inside : 0 ≤ (base : Int) + displacement ∧ (base : Int) + displacement ≤ d.size
    · have whole : u32 (base + displacement) = ((base : Int) + displacement).toNat := by
        unfold u32
        omega
      rw [if_pos inside, whole, if_neg (by omega), int32_small (by omega), Int.toNat_of_nonneg inside.1]
    · -- below zero the wrapped sum is past every size
      rw [if_neg inside, if_pos (by unfold u32; omega)]

theorem lseek_seeks_back : vfsLseek (u32 (-1)) SEEK_END ⟨0, O_RDWR, 1, 1⟩ twoBytes =
    seek (-1) SEEK_END ⟨0, O_RDWR, 1, 1⟩ twoBytes :=
  lseek_seeks SEEK_END (-1) ⟨0, O_RDWR, 1, 1⟩ twoBytes (by decide) (by decide) (by decide) (by decide)

end Landaux
