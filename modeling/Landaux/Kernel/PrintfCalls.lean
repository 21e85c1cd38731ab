import Landaux.Kernel.Console
import Landaux.Lib.Machine
import Landaux.Lib.Stores
import Landaux.Kernel.PrintfNumbers
import Landaux.Strings.CString

/-!
# printk and snprintf

The calls that `kernel/printf.c` exports. `snprintf` keeps the start of the text as a string. It leaves the
last byte of its buffer alone, and with a buffer of one byte it writes the NUL in front of it.
-/

namespace Landaux.Printf
open Lib Strings

variable {σ : Type} {fn : UInt8 → σ → Int × σ} {fmt : CStr} {args : List Arg} {chars : List UInt8}

/-- All the characters that a helper is passed. -/
def text (fmt : CStr) (args : List Arg) : Except Fault (List UInt8) := (doPrintf keep fmt args []).map Prod.snd

/-! ### printk -/

def printfHelper (c : UInt8) (s : Console) : Int × Console := (0, s.consolePutc c)

def printk (fmt : CStr) (args : List Arg) (s : Console) : Except Fault (Int × Console) :=
  doPrintf printfHelper fmt args s

/-! ### snprintf -/

structure SprintfData where
  str : Nat
  size : Nat
  off : Nat

def sprintfHelper (c : UInt8) (s : Bytes × SprintfData) : Int × Bytes × SprintfData :=
  let data := s.2
  let mem := if data.off < data.size then s.1.store8 ((data.str + data.off) % 2 ^ 64) c else s.1
  (0, mem, { data with off := data.off + 1 })

def vsnprintf (str size : Nat) (fmt : CStr) (args : List Arg) (mem : Bytes) : Except Fault (Int × Bytes) :=
  if size = 0 then .ok (0, mem) else do
    let (_, mem, data) ← doPrintf sprintfHelper fmt args (mem, ⟨str, size - 1, 0⟩)
    let off := if data.off < data.size then data.off else (data.size + (2 ^ 64 - 1)) % 2 ^ 64
    return (toInt data.off, mem.store8 ((data.str + off) % 2 ^ 64) 0)

def sprintf (str : Nat) (fmt : CStr) (args : List Arg) (mem : Bytes) : Except Fault (Int × Bytes) :=
  vsnprintf str 0xFFFFFFFF fmt args mem

def snprintf (str size : Nat) (fmt : CStr) (args : List Arg) (mem : Bytes) : Except Fault (Int × Bytes) :=
  vsnprintf str size fmt args mem

/-! ### One text for every helper -/

def Takes (fn : UInt8 → σ → Int × σ) : Prop := ∀ c p, (fn c p).1 = 0

theorem deliver_takes (takes : Takes fn) {fault : Option Fault} {n : Nat} {ptr : σ} :
    deliver fn fault chars n ptr = match fault with
      | none => .ok (toInt (n + chars.length), chars.foldl (fun p c => (fn c p).2) ptr)
      | some f => .error f := by
  induction chars generalizing n ptr with
  | nil => cases fault <;> rfl
  | cons c chars ih =>
    rw [deliver, if_neg (by simpa using takes c ptr), ih, List.length_cons, Nat.add_right_comm, Nat.add_assoc]
    rfl

theorem keep_takes : Takes keep := fun _ _ => rfl

theorem foldl_keep {kept : List UInt8} : chars.foldl (fun p c => (keep c p).2) kept = kept ++ chars := by
  induction chars generalizing kept with
  | nil => simp
  | cons c chars ih =>
    rw [List.foldl_cons, ih]
    simp [keep]

theorem text_spelled {pieces : List Piece} {tail : Option Spec} (spelled : fmt.chars = spell pieces tail) :
    text fmt args = match (output tail pieces args).2 with
      | none => .ok (output tail pieces args).1
      | some f => .error f := by
  rw [text, doPrintf_spelled spelled, deliver_takes keep_takes]
  cases (output tail pieces args).2 with
  | some f => rfl
  | none => simp [Except.map, foldl_keep]

/-- Every helper that takes all characters is passed the same ones. -/
theorem doPrintf_text (takes : Takes fn) {ptr : σ} : doPrintf fn fmt args ptr =
    (text fmt args).map fun chars => (toInt chars.length, chars.foldl (fun p c => (fn c p).2) ptr) := by
  obtain ⟨pieces, tail, spelled⟩ := exists_spelling fmt.plain
  rw [text_spelled spelled, doPrintf_spelled spelled, deliver_takes takes]
  cases (output tail pieces args).2 with
  | some f => rfl
  | none => simp [Except.map]

/-! ### No NUL is printed -/

theorem field_plain {p : Spec} {zero : Bool} {size : Nat} {sign body : List UInt8} (first : (0 : UInt8) ∉ sign)
    (inner : (0 : UInt8) ∉ body) : (0 : UInt8) ∉ p.field zero size sign body := by
  have filling {c : UInt8} {k : Nat} (other : c ≠ 0) : (0 : UInt8) ∉ List.replicate k c :=
    fun member => other (List.eq_of_mem_replicate member).symm
  have blanks {k : Nat} : (0 : UInt8) ∉ List.replicate k space := filling (by decide)
  have zeros {k : Nat} : (0 : UInt8) ∉ List.replicate k nought := filling (by decide)
  unfold Spec.field
  dsimp only
  split_ifs <;> simp only [List.mem_append, not_or] <;> tauto

theorem render_plain {d : Directive} {chars : List UInt8} {left : List Arg}
    (printed : d.render args = .ok (chars, left)) : (0 : UInt8) ∉ chars := by
  unfold Directive.render at printed
  split at printed
  · rename_i l conv
    split at printed
    · obtain ⟨rfl, -⟩ := Prod.mk.inj (Except.ok.inj printed)
      obtain ⟨base, small⟩ := letter_radix l
      refine field_plain ?_ fun member => digits_nonzero base small 0 member rfl
      unfold Directive.sign
      cases l <;> split_ifs <;> simp <;> decide
    · cases printed
  · split at printed
    · obtain ⟨rfl, -⟩ := Prod.mk.inj (Except.ok.inj printed)
      refine field_plain (by simp) ?_
      split <;> simp_all [eq_comm]
    · cases printed
  · split at printed
    · obtain ⟨rfl, -⟩ := Prod.mk.inj (Except.ok.inj printed)
      exact field_plain (by simp) fun member => orNull_nonzero 0 member rfl
    · cases printed
  · obtain ⟨rfl, -⟩ := Prod.mk.inj (Except.ok.inj printed)
    simp

theorem output_plain {pieces : List Piece} {tail : Option Spec} (plain : (0 : UInt8) ∉ spell pieces tail) :
    (0 : UInt8) ∉ (output tail pieces args).1 := by
  induction pieces generalizing args with
  | nil => simp [output]
  | cons piece pieces ih =>
    have parts : (0 : UInt8) ∉ piece.text ∧ (0 : UInt8) ∉ spell pieces tail := by
      simpa [spell, List.append_assoc] using plain
    rw [output]
    split
    · simp
    · rename_i printed left rendered
      refine fun member => (List.mem_append.mp member).elim ?_ (ih parts.2)
      cases piece with
      | plain c other =>
        obtain ⟨rfl, -⟩ := Prod.mk.inj (Except.ok.inj rendered)
        exact parts.1
      | percent side =>
        obtain ⟨rfl, -⟩ := Prod.mk.inj (Except.ok.inj rendered)
        decide
      | dashes =>
        obtain ⟨rfl, -⟩ := Prod.mk.inj (Except.ok.inj rendered)
        simp
      | directive d => exact render_plain rendered

theorem text_plain (printed : text fmt args = .ok chars) : (0 : UInt8) ∉ chars := by
  obtain ⟨pieces, tail, spelled⟩ := exists_spelling fmt.plain
  have plain : (0 : UInt8) ∉ (output tail pieces args).1 := output_plain (spelled ▸ fmt.plain)
  rw [text_spelled spelled] at printed
  split at printed
  · obtain rfl := Except.ok.inj printed
    exact plain
  · cases printed

/-! ### The buffer of snprintf -/

variable {mem : Bytes} {str size off : Nat}

theorem sprintf_kept (room : str + size ≤ 2 ^ 64) :
    chars.foldl (fun p c => (sprintfHelper c p).2) (mem, ⟨str, size, off⟩) =
      (mem.store (str + off) (chars.take (size - off)), ⟨str, size, off + chars.length⟩) := by
  induction chars generalizing mem off with
  | nil =>
    rw [List.take_nil, Bytes.store_nil]
    rfl
  | cons c chars ih =>
    rw [List.foldl_cons, sprintfHelper]
    dsimp only
    rw [ih, Nat.add_right_comm, List.length_cons, Nat.add_assoc]
    split
    · have next : size - off = size - (off + 1) + 1 := by omega
      rw [Nat.mod_eq_of_lt (by omega), ← Nat.add_assoc, Bytes.store_cons, next]
      rfl
    · have full : size - (off + 1) = 0 ∧ size - off = 0 := by omega
      rw [full.1, full.2, List.take_zero, List.take_zero, Bytes.store_nil, Bytes.store_nil]

theorem vsnprintf_eq (printed : text fmt args = .ok chars) (positive : size ≠ 0) (room : str + size ≤ 2 ^ 64) :
    vsnprintf str size fmt args mem = .ok (toInt chars.length, (mem.store str (chars.take (size - 1))).store8
      ((str + (if chars.length < size - 1 then chars.length else (size - 1 + (2 ^ 64 - 1)) % 2 ^ 64)) % 2 ^ 64) 0) := by
  have takes : Takes sprintfHelper := fun _ _ => rfl
  have kept : chars.foldl (fun p c => (sprintfHelper c p).2) (mem, ⟨str, size - 1, 0⟩) = _ :=
    sprintf_kept (show str + (size - 1) ≤ 2 ^ 64 by omega)
  rw [Nat.add_zero, Nat.sub_zero, Nat.zero_add] at kept
  rw [vsnprintf, if_neg positive, doPrintf_text takes, printed, Except.map, ok_bind, kept]
  rfl

theorem vsnprintf_keeps (printed : text fmt args = .ok chars) (room : str + size ≤ 2 ^ 64) (positive : 0 < str) :
    vsnprintf str size fmt args mem =
      if size = 0 then .ok (0, mem)
      else if size = 1 then .ok (toInt chars.length, mem.store (str - 1) [0])
      else .ok (toInt chars.length, mem.store str (chars.take (size - 2) ++ [0])) := by
  split_ifs with none one
  · rw [none, vsnprintf, if_pos rfl]
  · have front : (str + (if chars.length < 0 then chars.length else (0 + (2 ^ 64 - 1)) % 2 ^ 64)) % 2 ^ 64 = str - 1 := by
      rw [if_neg (by omega)]
      omega
    rw [vsnprintf_eq printed none room, one, front, List.take_zero, Bytes.store_nil, ← Bytes.store_cons, Bytes.store_nil]
  · obtain fits | long := Nat.lt_or_ge chars.length (size - 1)
    · rw [vsnprintf_eq printed none room, if_pos fits, Nat.mod_eq_of_lt (by omega), List.take_of_length_le fits.le,
        Bytes.store_last (le_refl _) (by omega), List.take_length, List.take_of_length_le (by omega)]
    · have last : (str + (size - 1 + (2 ^ 64 - 1)) % 2 ^ 64) % 2 ^ 64 = str + (size - 2) := by omega
      have size' : (chars.take (size - 1)).length = size - 1 := by simp [long]
      rw [vsnprintf_eq printed none room, if_neg (by omega), last, Bytes.store_last (by omega) (by omega), List.take_take,
        Nat.min_eq_left (by omega)]

/-- `snprintf` leaves in its buffer a string: the start of the text that leaves two bytes of the buffer. Nothing
else is written, except with a buffer of one byte, where the NUL goes to the byte before it. -/
theorem snprintf_keeps (printed : text fmt args = .ok chars) (room : str + size ≤ 2 ^ 64) (positive : 0 < str) :
    (0 : UInt8) ∉ chars ∧ snprintf str size fmt args mem =
      if size = 0 then .ok (0, mem)
      else if size = 1 then .ok (toInt chars.length, mem.store (str - 1) [0])
      else .ok (toInt chars.length, mem.store str (chars.take (size - 2) ++ [0])) :=
  ⟨text_plain printed, vsnprintf_keeps printed room positive⟩

/-- `sprintf` leaves the whole text. -/
theorem sprintf_keeps (printed : text fmt args = .ok chars) (room : str + 0xFFFFFFFF ≤ 2 ^ 64) (positive : 0 < str)
    (fits : chars.length ≤ 0xFFFFFFFD) :
    sprintf str fmt args mem = .ok (toInt chars.length, mem.store str (chars ++ [0])) := by
  rw [sprintf, vsnprintf_keeps printed room positive, if_neg (by decide), if_neg (by decide),
    List.take_of_length_le fits]

/-- `"%d\n"` in a buffer of 4 bytes -/
theorem snprintf_keeps_two :
    snprintf 100 4 ⟨['%', 'd', '\n'], by decide, by decide⟩ [.word 1234] (fun _ => 0) =
      .ok (5, Bytes.store (fun _ => 0) 100 ['1', '2', 0]) := by
  have closes : (⟨false, false, [], [], by decide⟩ : Spec).Closes 'd' :=
    ⟨by decide, fun m => by cases m <;> decide, fun _ => by decide, fun _ => by decide⟩
  have spelled : (⟨['%', 'd', '\n'], by decide, by decide⟩ : CStr).chars =
      spell [.directive ⟨_, .number .d, closes, by simp⟩, .plain '\n' (by decide)] none := rfl
  have printed : text ⟨['%', 'd', '\n'], by decide, by decide⟩ [.word 1234] = .ok ['1', '2', '3', '4', '\n'] := by
    rw [text_spelled spelled]
    rfl
  exact (snprintf_keeps printed (by decide) (by decide)).2

/-! ### The screen -/

def Prints (s : Console) (call : CStr × List Arg) (t : Console) : Prop :=
  ∃ n, printk call.1 call.2 s = .ok (n, t)

theorem prints_iff {s t : Console} {call : CStr × List Arg} :
    Prints s call t ↔ ∃ chars, text call.1 call.2 = .ok chars ∧ t = chars.foldl Console.consolePutc s := by
  have takes : Takes printfHelper := fun _ _ => rfl
  unfold Prints printk
  rw [doPrintf_text takes]
  cases text call.1 call.2 with
  | error f => simp [Except.map]
  | ok chars => simp [Except.map, printfHelper, eq_comm]

theorem run_prints {s t : Console} {calls : List (CStr × List Arg)} (run : Run Prints s calls t) :
    ∃ texts : List (List UInt8), List.Forall₂ (fun call chars => text call.1 call.2 = .ok chars) calls texts ∧
      t = texts.flatten.foldl Console.consolePutc s := by
  induction run with
  | nil => exact ⟨[], .nil, rfl⟩
  | cons first _ ih =>
    obtain ⟨chars, printed, rfl⟩ := prints_iff.mp first
    obtain ⟨texts, all, rfl⟩ := ih
    exact ⟨chars :: texts, .cons printed all, by rw [List.flatten_cons, List.foldl_append]⟩

/-- After calls of `printk` on a blank screen, the screen shows the last rows of what they print. -/
theorem printk_on_screen {s t : Console} {calls : List (CStr × List Arg)} (blank : s.Blank)
    (run : Run Prints s calls t) : ∃ texts : List (List UInt8),
      List.Forall₂ (fun call chars => text call.1 call.2 = .ok chars) calls texts ∧
      t = texts.flatten.foldl Console.consolePutc s ∧
      (9 ∉ texts.flatten → Console.Window t (texts.flatten.foldl Grid.write .blank)) := by
  obtain ⟨texts, all, rfl⟩ := run_prints run
  refine ⟨texts, all, rfl, fun noTab => ?_⟩
  have tidy := Console.text_tidy (Console.blank_tidy blank) noTab
  exact ⟨tidy.cells, tidy.cursor, Console.text_registers blank.registers⟩

theorem printk_on_screen_hi : ∃ t, Prints Console.clean (⟨['h', 'i', '\n'], by decide, by decide⟩, []) t ∧
    ∃ texts : List (List UInt8), t = texts.flatten.foldl Console.consolePutc Console.clean := by
  have spelled : (⟨['h', 'i', '\n'], by decide, by decide⟩ : CStr).chars =
      spell [.plain 'h' (by decide), .plain 'i' (by decide), .plain '\n' (by decide)] none := rfl
  have printed : text ⟨['h', 'i', '\n'], by decide, by decide⟩ [] = .ok ['h', 'i', '\n'] := by
    rw [text_spelled spelled]
    rfl
  have first : Prints Console.clean (⟨['h', 'i', '\n'], by decide, by decide⟩, []) _ :=
    prints_iff.mpr ⟨_, printed, rfl⟩
  obtain ⟨texts, -, shown, -⟩ := printk_on_screen Console.clean_blank (.single first)
  exact ⟨_, first, texts, shown⟩

end Landaux.Printf
