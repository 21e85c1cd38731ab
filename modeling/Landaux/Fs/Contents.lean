import Landaux.Fs.File
import Landaux.Lib.Machine
import Landaux.Lib.Splice

/-!
# One file is an array of bytes

Reads, writes and seeks through one `file_t` do to the blocks of a file what they do to a list of bytes
with a cursor, whether `kmalloc` succeeds or not.
-/

namespace Landaux
open Lib

variable {d d' : FileData} {content other : Nat → UInt8} {answer : Granted} {offset size stop : Nat}
  {buf : List UInt8} {f f' : File} {bytes : Nat → UInt8}

theorem int32_small {x : Nat} (small : x < 2 ^ 31) : int32 x = x := by
  unfold int32
  rw [BitVec.toInt_eq_toNat_of_lt, BitVec.toNat_ofNat, Nat.mod_eq_of_lt] <;>
    first
    | omega
    | (rw [BitVec.toNat_ofNat, Nat.mod_eq_of_lt] <;> omega)

theorem u32_small {x : Nat} (small : x < 2 ^ 32) : u32 x = x := by
  unfold u32
  omega

theorem roundChunk_spec (small : stop < 2 ^ 31) : stop ≤ roundChunk stop ∧ roundChunk stop < 2 ^ 32 := by
  unfold roundChunk
  omega

/-! ### What a file stores -/

structure Stores (d : FileData) (content : Nat → UInt8) : Prop where
  fits : d.size ≤ d.allocSize
  short : d.size < 2 ^ 31
  small : d.allocSize < 2 ^ 32
  unused : d.data = none → d.allocSize = 0
  block : ∀ b, d.data = some b → d.allocSize ≤ b.size
  bytes : ∀ b, d.data = some b → ∀ i < d.size, b.bytes i = content i

theorem Stores.new : Stores .new content where
  fits := le_rfl
  short := by decide
  small := by decide
  unused := fun _ => rfl
  block := nofun
  bytes := nofun

theorem Stores.congr (stores : Stores d content) (same : ∀ i < d.size, content i = other i) :
    Stores d other :=
  ⟨stores.fits, stores.short, stores.small, stores.unused, stores.block,
    fun b data i below => (stores.bytes b data i below).trans (same i below)⟩

theorem Stores.truncate (stores : Stores d content) (place : offset = 0 ∨ offset = d.size) :
    Stores (ramfsTruncate offset d) content := by
  unfold ramfsTruncate
  have fits := stores.fits
  have short := stores.short
  by_cases zero : offset = 0
  · rw [if_pos zero, zero]
    exact ⟨le_rfl, by decide, by decide, fun _ => rfl, nofun, nofun⟩
  · rw [if_neg zero, place.resolve_left zero]
    refine ⟨le_rfl, short, by dsimp only; omega, fun none => ?_, fun b data => ?_, stores.bytes⟩
    · have unused := stores.unused none
      dsimp only
      omega
    · exact fits.trans (stores.block b data)

def overlay (content : Nat → UInt8) (offset : Nat) (buf : List UInt8) (i : Nat) : UInt8 :=
  if offset ≤ i ∧ i < offset + buf.length then buf.getD (i - offset) 0 else content i

/-! ### Reads -/

theorem Stores.read (stores : Stores d content) (small : offset + size < 2 ^ 31) :
    ramfsRead offset size d = .ok ((min size (d.size - offset) : Nat),
      (List.range (min size (d.size - offset))).map fun k => content (offset + k)) := by
  unfold ramfsRead
  have short := stores.short
  by_cases past : offset ≥ d.size
  · have none : min size (d.size - offset) = 0 := by omega
    rw [if_pos past, none]
    rfl
  rw [if_neg past, Nat.mod_eq_of_lt (by omega)]
  have count : (if offset + size > d.size then d.size - offset else size) = min size (d.size - offset) := by
    split <;> omega
  dsimp only
  rw [count]
  have below := min_le_right size (d.size - offset)
  generalize min size (d.size - offset) = n at below ⊢
  have fits := stores.fits
  cases data : d.data with
  | none =>
    have zero := stores.unused data
    omega
  | some b =>
    have room := stores.block b data
    dsimp only
    unfold Block.read
    rw [if_pos (by omega), int32_small (by omega)]
    refine congrArg (fun l => Except.ok ((n : Int), l)) (List.map_congr_left fun k member => ?_)
    have inside := List.mem_range.mp member
    exact stores.bytes b data (offset + k) (by omega)

theorem Stores.vfsRead (stores : Stores d content) (mode : f.openmode &&& O_RDONLY ≠ 0)
    (small : f.offset + size < 2 ^ 31) : vfsRead size f d =
      .ok (⟨(min size (d.size - f.offset) : Nat),
        (List.range (min size (d.size - f.offset))).map fun k => content (f.offset + k)⟩,
        { f with offset := f.offset + min size (d.size - f.offset) }) := by
  unfold Landaux.vfsRead
  rw [if_neg mode]
  by_cases zero : size = 0
  · rw [if_pos zero, zero, Nat.zero_min]
    rfl
  rw [if_neg zero, stores.read small]
  have below := min_le_left size (d.size - f.offset)
  generalize min size (d.size - f.offset) = n at below ⊢
  change Except.ok _ = Except.ok _
  refine congrArg (fun g => Except.ok ((⟨_, _⟩ : Ret), g)) ?_
  by_cases none : n = 0
  · rw [none]
    rfl
  · rw [if_pos (by omega), ← Nat.cast_add, u32_small (by omega)]

/-! ### Writes -/

/-- The bytes of the block that a write up to `stop` goes to: the block there is, or a new one. -/
def FileData.target (answer : Granted) (stop : Nat) (d : FileData) : Option (Nat → UInt8) :=
  if stop > d.allocSize then answer else d.data.map Block.bytes

/-- A block is there for a write up to `stop`; what follows the contents is as in `bytes`. -/
structure Enlarged (d : FileData) (content : Nat → UInt8) (stop : Nat) (bytes : Nat → UInt8)
    (d' : FileData) : Prop where
  stores : Stores d' content
  size : d'.size = d.size
  room : stop ≤ d'.allocSize
  block : ∃ b, d'.data = some b ∧ ∀ i, d.size ≤ i → b.bytes i = bytes i

theorem Stores.grow (stores : Stores d content) (more : stop > d.allocSize) (small : stop < 2 ^ 31) :
    Ends (ramfsGrow answer stop d) (fun r => r = none ∧ answer = none ∨
      ∃ bytes d', answer = some bytes ∧ r = some d' ∧ Enlarged d content stop bytes d') fun _ => False := by
  obtain ⟨covers, below⟩ := roundChunk_spec small
  have fits := stores.fits
  unfold ramfsGrow
  cases data : d.data with
  | none =>
    have zero := stores.unused data
    cases answer with
    | none => exact Or.inl ⟨rfl, rfl⟩
    | some bytes =>
      refine Or.inr ⟨bytes, _, rfl, rfl, ⟨?_, rfl, covers, _, rfl, fun _ _ => rfl⟩⟩
      refine ⟨?_, stores.short, below, nofun, ?_, fun b _ i inside => ?_⟩
      · dsimp only
        omega
      · intro b same
        obtain rfl := Option.some.inj same
        exact le_rfl
      · dsimp only at inside
        omega
  | some old =>
    dsimp only
    generalize choice : (if d.allocSize * 2 % 2 ^ 32 < stop then roundChunk stop
      else d.allocSize * 2 % 2 ^ 32) = allocSize
    have enough : stop ≤ allocSize ∧ allocSize < 2 ^ 32 := by
      rw [← choice]
      split
      · exact ⟨covers, below⟩
      · exact ⟨by omega, Nat.mod_lt _ (by decide)⟩
    cases answer with
    | none => exact Or.inl ⟨rfl, rfl⟩
    | some bytes =>
      have room := stores.block old data
      have length : ((List.range d.size).map fun k => old.bytes (0 + k)).length = d.size := by
        rw [List.length_map, List.length_range]
      dsimp only
      unfold Block.read
      rw [if_pos (by omega)]
      change Ends (Block.write _ _ _ >>= _) _ _
      unfold Block.write
      rw [length, if_pos (by dsimp only; omega)]
      refine Or.inr ⟨bytes, _, rfl, rfl, ⟨?_, rfl, enough.1, _, rfl, fun i past => ?_⟩⟩
      · refine ⟨by dsimp only; omega, stores.short, enough.2, nofun, ?_, ?_⟩
        · intro b same
          obtain rfl := Option.some.inj same
          exact le_rfl
        · intro b same i inside
          obtain rfl := Option.some.inj same
          dsimp only at inside ⊢
          rw [if_pos ⟨Nat.zero_le i, by omega⟩, Nat.sub_zero, List.getD_eq_getElem?_getD,
            List.getElem?_eq_getElem (by omega), Option.getD_some, List.getElem_map, List.getElem_range,
            zero_add]
          exact stores.bytes old data i inside
      · dsimp only
        exact if_neg (by omega)

/-- A write has gone through: `d'` has `buf` at `offset`, and `bytes` between the old end and `offset`. -/
structure Wrote (d : FileData) (content bytes : Nat → UInt8) (offset : Nat) (buf : List UInt8)
    (d' : FileData) : Prop where
  stores : Stores d' (overlay (fun i => if i < d.size then content i else bytes i) offset buf)
  size : d'.size = max d.size (offset + buf.length)

theorem Enlarged.store (grown : Enlarged d content (offset + buf.length) bytes d')
    (small : offset + buf.length < 2 ^ 31) : ∃ b, d'.data = some b ∧ Ends (b.write offset buf)
      (fun b => Wrote d content bytes offset buf
        { d' with size := max d'.size (offset + buf.length), data := some b }) fun _ => False := by
  obtain ⟨stores, same, room, b, data, past⟩ := grown
  refine ⟨b, data, ?_⟩
  have inside := stores.block b data
  have fits := stores.fits
  have short := stores.short
  unfold Block.write
  rw [if_pos (by omega)]
  refine ⟨⟨max_le fits room, max_lt short small, stores.small, nofun, ?_, ?_⟩, ?_⟩
  · intro b' eq
    obtain rfl := Option.some.inj eq
    exact inside
  · intro b' eq i below
    obtain rfl := Option.some.inj eq
    dsimp only [overlay] at below ⊢
    refine if_congr Iff.rfl rfl ?_
    split
    · rename_i old
      exact stores.bytes b data i (same ▸ old)
    · rename_i new
      exact past i (by omega)
  · dsimp only
    rw [same]

theorem Stores.write (stores : Stores d content) (small : offset + buf.length < 2 ^ 31)
    (positive : 0 < buf.length) :
    Ends (ramfsWrite answer offset buf d)
      (fun r => r = (-ENOMEM, d) ∧ d.target answer (offset + buf.length) = none ∨
        ∃ bytes, d.target answer (offset + buf.length) = some bytes ∧ r.1 = buf.length ∧
          Wrote d content bytes offset buf r.2) fun _ => False := by
  unfold ramfsWrite FileData.target
  rw [Nat.mod_eq_of_lt (by omega)]
  dsimp only
  by_cases more : offset + buf.length > d.allocSize
  · rw [if_pos more, if_pos more]
    refine Ends.bind (stores.grow more small) ?_
    rintro r (⟨rfl, none⟩ | ⟨bytes, d', some, rfl, grown⟩)
    · exact Or.inl ⟨rfl, none⟩
    · obtain ⟨b, data, writes⟩ := grown.store small
      dsimp only
      rw [data]
      refine Ends.bind writes fun b wrote => Or.inr ⟨bytes, some, ?_, wrote⟩
      exact int32_small (by omega)
  · rw [if_neg more, if_neg more]
    dsimp only [bind, Except.bind, pure, Except.pure]
    cases data : d.data with
    | none =>
      have zero := stores.unused data
      omega
    | some b =>
      have grown : Enlarged d content (offset + buf.length) b.bytes d :=
        ⟨stores, rfl, by omega, b, data, fun _ _ => rfl⟩
      obtain ⟨b', data', writes⟩ := grown.store small
      obtain rfl := Option.some.inj (data.symm.trans data')
      refine Ends.bind writes fun b' wrote => Or.inr ⟨b.bytes, rfl, ?_, wrote⟩
      exact int32_small (by omega)

inductive WriteEnds (answer : Granted) (buf : List UInt8) (f : File) (d : FileData)
    (content : Nat → UInt8) : Ret × File × FileData → Prop where
  | closed (mode : f.openmode &&& O_WRONLY = 0) : WriteEnds answer buf f d content (⟨-EINVAL, []⟩, f, d)
  | nothing (zero : buf.length = 0) : WriteEnds answer buf f d content (⟨0, []⟩, f, d)
  | full (positive : 0 < buf.length) (nowhere : d.target answer (f.offset + buf.length) = none) :
      WriteEnds answer buf f d content (⟨-ENOMEM, []⟩, f, d)
  | wrote {bytes : Nat → UInt8} {d' : FileData} (mode : f.openmode &&& O_WRONLY ≠ 0)
      (positive : 0 < buf.length) (found : d.target answer (f.offset + buf.length) = some bytes)
      (wrote : Wrote d content bytes f.offset buf d') :
      WriteEnds answer buf f d content
        (⟨buf.length, []⟩, { f with offset := f.offset + buf.length }, d')

theorem Stores.vfsWrite (stores : Stores d content) (small : f.offset + buf.length < 2 ^ 31) :
    Ends (vfsWrite answer buf f d) (WriteEnds answer buf f d content) fun _ => False := by
  unfold Landaux.vfsWrite
  by_cases mode : f.openmode &&& O_WRONLY = 0
  · rw [if_pos mode]
    exact .closed mode
  rw [if_neg mode]
  by_cases zero : buf.length = 0
  · rw [if_pos zero]
    exact .nothing zero
  rw [if_neg zero]
  refine Ends.bind (stores.write small (by omega)) ?_
  rintro ⟨count, d'⟩ (⟨failed, nowhere⟩ | ⟨bytes, found, count', wrote⟩)
  · obtain ⟨rfl, rfl⟩ := Prod.mk.inj failed
    exact .full (by omega) nowhere
  · dsimp only at count' wrote ⊢
    subst count'
    rw [if_pos (by omega), ← Nat.cast_add, u32_small (by omega)]
    exact .wrote mode (by omega) found wrote

/-! ### An array with a cursor -/

structure CursorArray where
  bytes : List UInt8
  cursor : Nat

/-- Where a seek goes, if that is not past the end. -/
def CursorArray.seek (a : CursorArray) (offset : Nat) (whence : Int) : Option Nat :=
  (if whence = SEEK_END then some ((offset + a.bytes.length) % 2 ^ 32)
    else if whence = SEEK_CUR then some ((offset + a.cursor) % 2 ^ 32)
    else if whence = SEEK_SET then some offset
    else none).filter (· ≤ a.bytes.length)

inductive CursorArray.Step : CursorArray → Call × Ret → CursorArray → Prop where
  | read (a : CursorArray) (size : Nat) :
      Step a (.read size, ⟨(min size (a.bytes.length - a.cursor) : Nat), (a.bytes.drop a.cursor).take size⟩)
        { a with cursor := a.cursor + min size (a.bytes.length - a.cursor) }
  | write (a : CursorArray) (buf : List UInt8) (answer : Granted) :
      Step a (.write buf answer, ⟨buf.length, []⟩)
        ⟨splice a.bytes a.cursor buf, a.cursor + buf.length⟩
  | full (a : CursorArray) (buf : List UInt8) : Step a (.write buf none, ⟨-ENOMEM, []⟩) a
  | seek {a : CursorArray} {offset target : Nat} {whence : Int}
      (found : a.seek offset whence = some target) :
      Step a (.lseek offset whence, ⟨target, []⟩) { a with cursor := target }
  | lost {a : CursorArray} {offset : Nat} {whence : Int} (none : a.seek offset whence = none) :
      Step a (.lseek offset whence, ⟨-EINVAL, []⟩) a

/-- The file open as `f` is the array `a`. -/
structure Represents (f : File) (d : FileData) (a : CursorArray) : Prop where
  mode : f.openmode = O_RDWR
  stores : Stores d (a.bytes.getD · 0)
  size : d.size = a.bytes.length
  offset : f.offset = a.cursor
  inside : a.cursor ≤ a.bytes.length

def CallStep (s : File × FileData) (e : Call × Ret) (t : File × FileData) : Prop :=
  e.1.Small s.1 ∧ e.1.act s.1 s.2 = .ok (e.2, t)

theorem getD_splice {l new : List UInt8} {i j : Nat} (inside : i ≤ l.length) :
    (splice l i new).getD j 0 = overlay (l.getD · 0) i new j := by
  unfold overlay
  rw [List.getD_eq_getElem?_getD, getElem?_splice inside]
  split
  · rw [List.getD_eq_getElem?_getD]
  · exact List.getD_eq_getElem?_getD.symm

theorem range_getD {l : List UInt8} {i n : Nat} :
    ((List.range (min n (l.length - i))).map fun k => l.getD (i + k) 0) = (l.drop i).take n := by
  apply List.ext_getElem
  · rw [List.length_map, List.length_range, List.length_take, List.length_drop]
  · intro k first second
    rw [List.length_map, List.length_range] at first
    rw [List.getElem_map, List.getElem_range, List.getElem_take, List.getElem_drop,
      List.getD_eq_getElem?_getD, List.getElem?_eq_getElem (by omega), Option.getD_some]

variable {a : CursorArray} {call : Call} {s t : File × FileData}

def Simulated (f : File) (d : FileData) (a : CursorArray) (call : Call) (r : Ret × File × FileData) : Prop :=
  (∃ a', CursorArray.Step a (call, r.1) a' ∧ Represents r.2.1 r.2.2 a') ∧
    (r.1.value < 0 → r.2 = (f, d))

theorem Represents.read (h : Represents f d a) (small : f.offset + size < 2 ^ 31) :
    Ends (Call.act (.read size) f d) (Simulated f d a (.read size)) fun _ => False := by
  have mode : f.openmode &&& O_RDONLY ≠ 0 := by
    rw [h.mode]
    decide
  change Ends (vfsRead size f d >>= _) _ _
  rw [h.stores.vfsRead mode small, h.size, h.offset, range_getD]
  refine ⟨⟨_, .read a size, ?_⟩, fun negative => absurd negative (by simp)⟩
  refine ⟨h.mode, h.stores, h.size, rfl, ?_⟩
  have inside := h.inside
  dsimp only
  omega

theorem Represents.write (h : Represents f d a) (small : f.offset + buf.length < 2 ^ 31) :
    Ends (Call.act (.write buf answer) f d) (Simulated f d a (.write buf answer)) fun _ => False := by
  have inside := h.inside
  have size := h.size
  refine (h.stores.vfsWrite small).mono (fun r ends => ?_) fun _ never => never
  cases ends with
  | closed mode =>
    rw [h.mode] at mode
    exact absurd mode (by decide)
  | nothing zero =>
    obtain rfl := List.eq_nil_of_length_eq_zero zero
    have same : splice a.bytes a.cursor [] = a.bytes := by
      unfold splice
      simp
    have step := CursorArray.Step.write a [] answer
    rw [same] at step
    exact ⟨⟨a, step, h⟩, fun negative => absurd negative (by simp)⟩
  | full positive nowhere =>
    have denied : answer = none := by
      unfold FileData.target at nowhere
      split at nowhere
      · exact nowhere
      · rename_i room
        rw [Option.map_eq_none_iff] at nowhere
        have unused := h.stores.unused nowhere
        omega
    subst denied
    exact ⟨⟨a, .full a buf, h⟩, fun _ => rfl⟩
  | wrote mode positive found wrote =>
    refine ⟨⟨_, .write a buf answer, h.mode, ?_, ?_, ?_, ?_⟩, fun negative => absurd negative (by simp)⟩
    · refine wrote.stores.congr fun i below => ?_
      rw [wrote.size, h.offset] at below
      rw [getD_splice inside, h.offset]
      unfold overlay
      by_cases within : a.cursor ≤ i ∧ i < a.cursor + buf.length
      · rw [if_pos within, if_pos within]
      · rw [if_neg within, if_neg within]
        exact if_pos (by omega)
    · rw [wrote.size, length_splice inside, h.size, h.offset]
    · dsimp only
      rw [h.offset]
    · dsimp only
      rw [length_splice inside]
      omega

theorem Represents.lseek {whence : Int} (h : Represents f d a) :
    Simulated f d a (.lseek offset whence)
      ((vfsLseek offset whence f d).1, (vfsLseek offset whence f d).2, d) := by
  have short := h.stores.short
  have inside := h.inside
  have target : (seekTarget offset whence f d).filter (· ≤ a.bytes.length) = a.seek offset whence := by
    have size := h.size
    have cursor := h.offset
    unfold seekTarget CursorArray.seek
    split
    · refine congrArg (fun n => (some n).filter _) ?_
      unfold u32
      omega
    split
    · refine congrArg (fun n => (some n).filter _) ?_
      unfold u32
      omega
    rfl
  unfold vfsLseek
  cases found : seekTarget offset whence f d with
  | none =>
    rw [found] at target
    exact ⟨⟨a, .lost target.symm, h⟩, fun _ => rfl⟩
  | some n =>
    rw [found, ← h.size] at target
    dsimp only
    by_cases past : n > d.size
    · rw [if_pos past]
      rw [Option.filter_some_neg (by simpa using past)] at target
      exact ⟨⟨a, .lost target.symm, h⟩, fun _ => rfl⟩
    · rw [if_neg past, int32_small (by omega)]
      rw [Option.filter_some_pos (by simpa using past)] at target
      refine ⟨⟨_, .seek target.symm, h.mode, h.stores, h.size, rfl, ?_⟩, ?_⟩
      · have size := h.size
        dsimp only
        omega
      · intro negative
        exact absurd negative (by simp)

theorem Represents.act (h : Represents f d a) (small : call.Small f) :
    Ends (call.act f d) (Simulated f d a call) fun _ => False := by
  cases call with
  | read size => exact h.read small
  | write buf answer => exact h.write small
  | lseek offset whence => exact h.lseek

theorem newFile_represents {granted : Bool} {fd : Nat} {flags : BitVec 32}
    (opened : newFile granted fd flags .new = .ok (f, d)) (mode : flags &&& O_RDWR = O_RDWR) :
    Represents f d ⟨[], 0⟩ := by
  unfold newFile at opened
  split at opened
  · cases opened
  have zero : (if flags &&& O_APPEND ≠ 0 then FileData.new.size else 0) = 0 := by split <;> rfl
  dsimp only at opened
  rw [zero] at opened
  split at opened
  all_goals
    obtain ⟨rfl, rfl⟩ := Prod.mk.inj (Except.ok.inj opened)
    exact ⟨mode, .new, rfl, rfl, le_rfl⟩

theorem file_is_array {granted : Bool} {fd : Nat} {flags : BitVec 32} {events : List (Call × Ret)}
    (opened : newFile granted fd flags .new = .ok (f, d)) (mode : flags &&& O_RDWR = O_RDWR)
    (run : Run CallStep (f, d) events (f', d')) :
    (∃ a, Run CursorArray.Step ⟨[], 0⟩ events a ∧ Represents f' d' a) ∧ d'.size ≤ d'.allocSize ∧
      ∀ call : Call, call.Small f' → ∃ ret f'' d'', call.act f' d' = .ok (ret, f'', d'') ∧
        (ret.value < 0 → f'' = f' ∧ d'' = d') := by
  have simulates : ∀ (s : File × FileData) e (t : File × FileData) a, Represents s.1 s.2 a → CallStep s e t →
      ∃ b, CursorArray.Step a e b ∧ Represents t.1 t.2 b := by
    intro s e t a h step
    exact ((h.act step.1).of_ok step.2).1
  obtain ⟨a, runs, h⟩ := run.simulate simulates (newFile_represents opened mode)
  refine ⟨⟨a, runs, h⟩, h.stores.fits, fun call small => ?_⟩
  have ends := h.act small
  cases result : call.act f' d' with
  | error misuse => exact (ends.of_error result).elim
  | ok r =>
    obtain ⟨-, unchanged⟩ := ends.of_ok result
    exact ⟨r.1, r.2.1, r.2.2, rfl, fun negative => Prod.mk.inj (unchanged negative)⟩

/-- Three bytes are written, and read again after a seek to the second one. -/
theorem file_is_array_abc : ∃ f d f' d', newFile true 0 (O_RDWR ||| O_CREAT) .new = .ok (f, d) ∧
    Run CallStep (f, d) [(.write [97, 98, 99] (some fun _ => 7), ⟨3, []⟩), (.lseek 1 SEEK_SET, ⟨1, []⟩),
      (.read 9, ⟨2, [98, 99]⟩)] (f', d') ∧ d'.size ≤ d'.allocSize := by
  have opened : newFile true 0 (O_RDWR ||| O_CREAT) .new = .ok (⟨0, O_RDWR, 0, 1⟩, .new) := rfl
  have run : Run CallStep (⟨0, O_RDWR, 0, 1⟩, .new) _ _ :=
    .cons (e := (.write [97, 98, 99] (some fun _ => 7), ⟨3, []⟩)) ⟨by decide, rfl⟩
      (.cons (e := (.lseek 1 SEEK_SET, ⟨1, []⟩)) ⟨by decide, rfl⟩
        (.single (e := (.read 9, ⟨2, [98, 99]⟩)) ⟨by decide, rfl⟩))
  exact ⟨_, _, _, _, opened, run, (file_is_array opened rfl run).2.1⟩

end Landaux
