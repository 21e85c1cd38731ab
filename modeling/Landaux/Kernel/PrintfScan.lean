import Mathlib.Data.List.TakeWhile
import Landaux.Kernel.PrintfPieces

/-!
# The scan of a format

`do_printf` passes to its helper the characters that the pieces of its format stand for.
-/

namespace Landaux.Printf
open Lib

variable {σ : Type} {fn : UInt8 → σ → Int × σ} {s : Call σ} {c : UInt8} {flags : Flags}
  {givenWd actualWd n : Nat} {chars left right rest fmt : List UInt8}

/-! ### Output -/

def emitAll (fn : UInt8 → σ → Int × σ) : List UInt8 → Call σ → Except (Stop σ) (Call σ)
  | [], s => .ok s
  | c :: rest, s => emit fn c s >>= emitAll fn rest

theorem emitAll_append : emitAll fn (left ++ right) s = emitAll fn left s >>= emitAll fn right := by
  induction left generalizing s with
  | nil => rfl
  | cons c rest ih =>
    rw [List.cons_append, emitAll, emitAll]
    cases emit fn c s with
    | error e => rfl
    | ok s => exact ih

theorem emitAll_single : emitAll fn [c] s = emit fn c s := by
  rw [emitAll]
  cases emit fn c s <;> rfl

theorem emitString_eq : emitString fn chars s = emitAll fn (chars.takeWhile (· ≠ 0)) s := by
  induction chars generalizing s with
  | nil => rfl
  | cons c rest ih =>
    rw [emitString, List.takeWhile_cons]
    obtain rfl | other := eq_or_ne c 0
    · rfl
    · simp only [other, if_false, ne_eq, not_false_eq_true, decide_true, if_true, emitAll]
      cases emit fn c s with
      | error e => rfl
      | ok s => exact ih

theorem padLeft_eq : padLeft fn c actualWd givenWd s =
    emitAll fn (List.replicate (givenWd - actualWd) c) s >>= fun s => .ok (min givenWd actualWd, s) := by
  induction givenWd generalizing s with
  | zero => simp [padLeft, emitAll, ok_bind]
  | succ givenWd ih =>
    rw [padLeft]
    split
    · rw [Nat.succ_sub (by omega), List.replicate_succ, emitAll]
      cases emit fn c s with
      | error e => rfl
      | ok s =>
        rw [ok_bind, ih, ok_bind, show min (givenWd + 1) actualWd = min givenWd actualWd by omega]
    · rw [Nat.sub_eq_zero_of_le (by omega), Nat.min_eq_left (by omega)]
      rfl

theorem padRight_eq : padRight fn n s = emitAll fn (List.replicate n space) s := by
  induction n generalizing s with
  | zero => rfl
  | succ n ih =>
    rw [padRight, List.replicate_succ, emitAll]
    cases emit fn space s with
    | error e => rfl
    | ok s => exact ih

def text2 (flags : Flags) (givenWd actualWd : Nat) (chars : List UInt8) : List UInt8 :=
  (if flags.lj then [] else List.replicate (givenWd - actualWd) (if flags.lz then nought else space)) ++
    ((if flags.ws && !flags.lz then [minus] else []) ++
      (chars.takeWhile (· ≠ 0) ++ List.replicate (if flags.lj then givenWd - actualWd else 0) space))

/-- A character that is printed only sometimes. -/
theorem emit_if {b : Bool} : (if b then emit fn c s else .ok s) = emitAll fn (if b then [c] else []) s := by
  cases b
  · rfl
  · exact emitAll_single.symm

theorem emit2_eq : emit2 fn flags givenWd actualWd chars s = emitAll fn (text2 flags givenWd actualWd chars) s := by
  have last (n : Nat) (s : Call σ) : ((if flags.ws && !flags.lz then emit fn minus s else .ok s) >>= fun s =>
      emitString fn chars s >>= padRight fn n) =
      emitAll fn ((if flags.ws && !flags.lz then [minus] else []) ++ (chars.takeWhile (· ≠ 0) ++
        List.replicate n space)) s := by
    rw [emit_if, emitAll_append]
    congr 1
    funext s
    rw [emitAll_append, emitString_eq]
    congr 1
    funext s
    exact padRight_eq
  unfold emit2 text2
  cases left : flags.lj
  · simp only [Bool.false_eq_true, if_false, padLeft_eq]
    rw [emitAll_append]
    cases emitAll fn (List.replicate (givenWd - actualWd) (if flags.lz then nought else space)) s with
    | error e => rfl
    | ok s =>
      have none : (if min givenWd actualWd < actualWd then 0 else min givenWd actualWd - actualWd) = 0 := by
        split <;> omega
      simp only [ok_bind, none]
      exact last 0 s
  · have gap : (if givenWd < actualWd then 0 else givenWd - actualWd) = givenWd - actualWd := by
      split <;> omega
    simp only [if_true, ok_bind, gap, List.nil_append]
    exact last (givenWd - actualWd) s

def text1 (c : UInt8) (flags : Flags) (givenWd : Nat) (chars : List UInt8) : List UInt8 :=
  (if flags.ws && flags.lz then [c] else []) ++
    text2 flags givenWd (chars.length + if flags.ws then 1 else 0) chars

theorem emit1_eq (short : flags.ox = false) :
    emit1 fn c flags givenWd chars s = emitAll fn (text1 c flags givenWd chars) s := by
  unfold emit1 text1
  rw [short, emitAll_append]
  simp only [Bool.false_eq_true, if_false, ok_bind]
  rw [emit_if]
  congr 1
  funext s
  exact emit2_eq

/-! ### Numbers -/

theorem convert_eq {radix index num : Nat} (base : 1 < radix) (room : (numeral radix num).length ≤ index) :
    convert (σ := σ) radix flags index num chars = .ok ((numeral radix num).map (digit flags) ++ chars) := by
  induction index generalizing num chars with
  | zero => exact absurd (List.length_eq_zero_iff.mp (Nat.le_zero.mp room)) numeral_ne_nil
  | succ index ih =>
    rw [convert]
    obtain small | large := Nat.lt_or_ge num radix
    · rw [Nat.div_eq_of_lt small, Nat.mod_eq_of_lt small, numeral_small small]
      rfl
    · rw [numeral_step base large] at room ⊢
      have rest : (numeral radix (num / radix)).length ≤ index := by simpa using room
      rw [if_pos (Nat.div_pos large (by omega)).ne', ih rest]
      simp

/-- The digits of a number of 64 bits take at most 22 of the 26 places. -/
theorem numeral_fits (l : Letter) (num : BitVec 64) : (numeral l.radix num.toNat).length ≤ 22 := by
  have bound := num.isLt
  cases l <;> exact numeral_length_le (by decide) (by decide) (lt_of_lt_of_le bound (by decide))

theorem natAbs_toInt (num : BitVec 64) : num.toInt.natAbs = (if num.msb then -num else num).toNat := by
  have bound := num.isLt
  rw [BitVec.toInt_eq_msb_cond]
  cases msb : num.msb
  · simp
  · have large := BitVec.msb_eq_true_iff_two_mul_ge.mp msb
    simp only [if_true, BitVec.toNat_neg]
    omega

/-- The flags with which a letter comes to `DO_NUM`. -/
def numberFlags (l : Letter) (flags : Flags) : Flags :=
  match l with
  | .X => { flags with ca := true }
  | .p => { flags with l64 := true }
  | .d | .i => { flags with sg := true }
  | _ => flags

theorem conversion_number {l : Letter} :
    conversion fn l.char flags givenWd s = doNum fn l.char l.radix (numberFlags l flags) givenWd s := by
  cases l <;> rfl

theorem numberFlags_sg {l : Letter} {p : Spec} : (numberFlags l p.flags).sg = l.signed := by
  cases l <;> rfl

theorem numberFlags_l64 {l : Letter} {p : Spec} : (numberFlags l p.flags).l64 = true ↔ p.long = true ∨ l = .p := by
  cases l <;> simp [numberFlags, Spec.flags]

/-- The number in the slot is the number that the code loads. -/
theorem value_eq {l : Letter} {p : Spec} {w : BitVec 64} :
    p.value l w = if l.signed then (loadNum (numberFlags l p.flags) w).toInt
      else (loadNum (numberFlags l p.flags) w).toNat := by
  have short : (numberFlags l p.flags).l32 = false := by cases l <;> rfl
  have half : (numberFlags l p.flags).l16 = p.half := by cases l <;> rfl
  unfold loadNum Spec.value
  simp only [short, half, numberFlags_l64, numberFlags_sg, Bool.false_eq_true, if_false]
  have masked : ((w.setWidth 32 &&& 0xFFFF).setWidth 64).toNat = w.toNat % 2 ^ 16 := by
    rw [BitVec.toNat_setWidth, BitVec.toNat_and, BitVec.toNat_setWidth]
    rw [show (0xFFFF : BitVec 32).toNat = 2 ^ 16 - 1 from rfl, Nat.and_two_pow_sub_one_eq_mod]
    omega
  by_cases long : p.long = true ∨ l = .p
  · simp only [long, if_true]
  · simp only [long, if_false]
    cases half : p.half
    · have signed : ((w.setWidth 32).signExtend 64).toInt = (w.setWidth 32).toInt :=
        BitVec.toInt_signExtend_of_le (by omega)
      have unsigned : ((w.setWidth 32).setWidth 64).toNat = w.toNat % 2 ^ 32 := by
        rw [BitVec.toNat_setWidth, BitVec.toNat_setWidth]
        omega
      cases l.signed <;> simp only [Bool.false_eq_true, if_false, if_true, signed, unsigned]
      omega
    · have positive : ((w.setWidth 32 &&& 0xFFFF).setWidth 64).toInt = w.toNat % 2 ^ 16 := by
        rw [BitVec.toInt_eq_toNat_of_lt (by omega), masked]
        omega
      simp only [if_true, masked, positive]
      split <;> omega

theorem value_neg {l : Letter} {p : Spec} {w : BitVec 64} :
    p.value l w < 0 ↔ (l.signed && (loadNum (numberFlags l p.flags) w).msb) = true := by
  rw [value_eq, BitVec.msb_eq_toInt]
  cases l.signed <;> simp

theorem value_natAbs {l : Letter} {p : Spec} {w : BitVec 64} : (p.value l w).natAbs =
    (if (l.signed && (loadNum (numberFlags l p.flags) w).msb) = true then -loadNum (numberFlags l p.flags) w
      else loadNum (numberFlags l p.flags) w).toNat := by
  rw [value_eq]
  cases l.signed
  · simp
  · simpa using natAbs_toInt (loadNum (numberFlags l p.flags) w)

theorem digit_ne_zero {n : Nat} (small : n < 16) : digit flags n ≠ 0 := by
  unfold digit
  split_ifs <;> interval_cases n <;> simp_all

theorem digit_glyph : digit flags = glyph flags.ca := rfl

theorem digits_nonzero {radix num : Nat} (base : 1 < radix) (small : radix ≤ 16) :
    ∀ c ∈ (numeral radix num).map (digit flags), c ≠ 0 := by
  intro c member
  obtain ⟨d, inside, rfl⟩ := List.mem_map.mp member
  exact digit_ne_zero (lt_of_lt_of_le (numeral_lt base d inside) small)

theorem takeWhile_plain (nonzero : ∀ c ∈ chars, c ≠ 0) : chars.takeWhile (· ≠ 0) = chars :=
  List.takeWhile_eq_self_iff.mpr fun c member => decide_eq_true (nonzero c member)

/-- The three places where a sign can be printed. -/
theorem text1_field {d : Directive} {body : List UInt8} (nonzero : ∀ c ∈ body, c ≠ 0) (lj : flags.lj = d.left) :
    text1 c flags d.givenWd body =
      d.field flags.lz ((if flags.ws then 1 else 0) + body.length)
        (if flags.ws then [if flags.lz then c else minus] else []) body := by
  unfold text1 text2 Spec.field
  rw [takeWhile_plain nonzero, lj, Nat.add_comm]
  cases d.left <;> cases flags.lz <;> cases flags.ws <;> simp

theorem letter_radix (l : Letter) : 1 < l.radix ∧ l.radix ≤ 16 := by
  cases l <;> decide

theorem emit_number {d : Directive} {l : Letter} {w : BitVec 64} (lj : flags.lj = d.left) (lz : flags.lz = d.zero)
    (ca : flags.ca = decide (l = .X)) (ox : flags.ox = false) (ws : flags.ws = decide (d.value l w < 0)) :
    emit1 fn l.char flags d.givenWd ((numeral l.radix (d.value l w).natAbs).map (digit flags)) s =
      emitAll fn (d.number l w) s := by
  obtain ⟨base, small⟩ := letter_radix l
  rw [emit1_eq ox, text1_field (digits_nonzero base small) lj, digit_glyph, ca, lz, ws]
  unfold Directive.number Directive.sign
  by_cases negative : d.value l w < 0 <;> simp [negative]

theorem doNum_eq {d : Directive} {l : Letter} :
    doNum fn l.char l.radix (numberFlags l d.flags) d.givenWd s =
      vaWord s >>= fun r => emitAll fn (d.number l r.1) r.2 := by
  unfold doNum
  congr 1
  funext r
  obtain ⟨w, s⟩ := r
  have base := (letter_radix l).1
  have split := value_neg (l := l) (p := d.toSpec) (w := w)
  have size := value_natAbs (l := l) (p := d.toSpec) (w := w)
  generalize num_eq : loadNum (numberFlags l d.flags) w = num at split size
  have room := numeral_fits l (if (l.signed && num.msb) = true then -num else num)
  have ws : (numberFlags l d.flags).ws = false := by cases l <;> rfl
  have ox : (numberFlags l d.flags).ox = false := by cases l <;> rfl
  have lj : (numberFlags l d.flags).lj = d.left := by cases l <;> rfl
  have lz : (numberFlags l d.flags).lz = d.zero := by cases l <;> rfl
  have ca : (numberFlags l d.flags).ca = decide (l = .X) := by cases l <;> rfl
  dsimp only
  rw [num_eq, numberFlags_sg, ws, Bool.false_or, ← size]
  rw [← size] at room
  rw [convert_eq base (room.trans (by decide)), ok_bind, List.append_nil]
  refine emit_number ?_ ?_ ?_ ?_ ?_
  · exact lj
  · exact lz
  · exact ca
  · exact ox
  · exact Bool.eq_iff_iff.mpr (split.symm.trans decide_eq_true_iff.symm)

/-! ### A conversion -/

/-- The characters of a piece for the helper, or the fault it ends in. -/
def emitPiece (fn : UInt8 → σ → Int × σ) (r : Except Fault (List UInt8 × List Arg)) (s : Call σ) :
    Except (Stop σ) (Call σ) :=
  match r with
  | .error f => .error (.fault f)
  | .ok (text, args) => emitAll fn text { s with args }

theorem text2_field {d : Directive} {size : Nat} (lj : flags.lj = d.left) (lz : flags.lz = false)
    (ws : flags.ws = false) :
    text2 flags d.givenWd size chars = d.field false size [] (chars.takeWhile (· ≠ 0)) := by
  unfold text2 Spec.field
  rw [lj, lz, ws]
  cases d.left <;> simp

theorem conversion_char {d : Directive} :
    conversion fn 'c' d.flags d.givenWd s = vaWord s >>= fun r =>
      emitAll fn (d.field false 1 [] (if UInt8.ofNat (r.1.toNat % 256) = 0 then [] else [.ofNat (r.1.toNat % 256)]))
        r.2 := by
  change (vaWord s >>= fun r => emit2 fn _ d.givenWd 1 _ r.2) = _
  congr 1
  funext r
  rw [emit2_eq, text2_field rfl rfl rfl]
  split <;> simp_all

theorem orNull_nonzero {t : Option CStr} : ∀ c ∈ orNull t, c ≠ 0 := by
  cases t with
  | none =>
    simp only [orNull, List.forall_mem_cons]
    exact ⟨by decide, by decide, by decide, by decide, by decide, by decide, by simp⟩
  | some t => exact fun c member zero => t.plain (zero ▸ member)

theorem conversion_string {d : Directive} :
    conversion fn 's' d.flags d.givenWd s = vaString s >>= fun r =>
      emitAll fn (d.field false (orNull r.1).length [] (orNull r.1)) r.2 := by
  change (vaString s >>= fun r => emit1 fn _ _ d.givenWd (orNull r.1) r.2) = _
  congr 1
  funext r
  rw [emit1_eq rfl, text1_field orNull_nonzero rfl]
  simp [Spec.flags]

theorem conversion_other {d : Directive} (other : d.conv = .other c) :
    conversion fn c d.flags d.givenWd s = .ok s := by
  obtain ⟨char, string, letter⟩ := d.plain c other
  have X := letter .X
  have x := letter .x
  have n := letter .n
  have p := letter .p
  have d := letter .d
  have i := letter .i
  have u := letter .u
  have o := letter .o
  simp_all [conversion, Letter.char]

theorem conversion_eq {d : Directive} :
    conversion fn d.conv.symbol d.flags d.givenWd s = emitPiece fn (d.render s.args) s := by
  unfold Directive.render
  obtain ⟨count, args, ptr⟩ := s
  cases conv : d.conv with
  | number l =>
    rw [Conversion.symbol, conversion_number, doNum_eq]
    rcases args with _ | ⟨w | t, args⟩ <;> rfl
  | char =>
    rw [Conversion.symbol, conversion_char]
    rcases args with _ | ⟨w | t, args⟩ <;> rfl
  | string =>
    rw [Conversion.symbol, conversion_string]
    rcases args with _ | ⟨w | t, args⟩ <;> rfl
  | other c => exact conversion_other conv

/-! ### The turns of a directive -/

variable {scan : Scan} {p : Spec}

/-- The rest of the scan after a turn. -/
def resume (fn : UInt8 → σ → Int × σ) (r : Except (Stop σ) (List UInt8 × Scan × Call σ)) :
    Except (Stop σ) (Call σ) :=
  r >>= fun t => scanFormat fn t.1 t.2.1 t.2.2

theorem scanFormat_nil : scanFormat fn [] scan s = .ok s := by rw [scanFormat]

theorem scanFormat_turn (some : fmt ≠ []) : scanFormat fn fmt scan s = resume fn (turn fn fmt scan s) := by
  cases fmt with
  | nil => exact absurd rfl some
  | cons c rest =>
    rw [scanFormat]
    split <;> rename_i turned
    · rw [turned]
      rfl
    · rw [turned]
      rfl

theorem resume_next : resume fn (next (c :: rest) scan s) = scanFormat fn rest scan s := rfl

def Flags.add (flags : Flags) : Modifier → Flags
  | .F => { flags with fp := true }
  | .N => flags
  | .l | .L => { flags with l64 := true }
  | .h => { flags with l16 := true }

theorem modifier_step {m : Modifier} :
    modifier fn (m.char :: rest) scan s = next (m.char :: rest) { scan with flags := scan.flags.add m } s := by
  cases m <;> rfl

/-- What follows the flags, the width and the modifiers, or the end of the format. -/
def close (fn : UInt8 → σ → Int × σ) (flags : Flags) (givenWd : Nat) (s : Call σ) :
    List UInt8 → Except (Stop σ) (Call σ)
  | [] => .ok s
  | c :: rest => conversion fn c flags givenWd s >>= scanFormat fn rest {}

theorem modifier_close (other : ∀ m : Modifier, c ≠ m.char) :
    resume fn (modifier fn (c :: rest) scan s) = close fn scan.flags scan.givenWd s (c :: rest) := by
  have F : c ≠ 'F' := other .F
  have N : c ≠ 'N' := other .N
  have l : c ≠ 'l' := other .l
  have L : c ≠ 'L' := other .L
  have h : c ≠ 'h' := other .h
  unfold modifier
  rw [show char (c :: rest) = c from rfl, if_neg F, if_neg N, if_neg (by tauto), if_neg h]
  rw [close]
  cases conversion fn c scan.flags scan.givenWd s <;> rfl

theorem modifiers_close {mods : List Modifier} (more : mods ≠ [] ∨ rest ≠ [])
    (other : ∀ c ∈ rest.head?, ∀ m : Modifier, c ≠ m.char) :
    resume fn (modifier fn (mods.map Modifier.char ++ rest) ⟨3, flags, givenWd⟩ s) =
      close fn (mods.foldl Flags.add flags) givenWd s rest := by
  induction mods generalizing flags with
  | nil =>
    cases rest with
    | nil => simp at more
    | cons c rest => exact modifier_close (other c rfl)
  | cons m mods ih =>
    rw [List.map_cons, List.cons_append, modifier_step, resume_next, List.foldl_cons]
    obtain last | more := eq_or_ne (mods.map Modifier.char ++ rest) []
    · obtain ⟨none, rfl⟩ := List.append_eq_nil_iff.mp last
      obtain rfl := List.map_eq_nil_iff.mp none
      exact scanFormat_nil
    · rw [scanFormat_turn more]
      exact ih (by simpa [imp_iff_not_or] using more)

theorem digit_iff : ('0' : UInt8) ≤ c ∧ c ≤ '9' ↔ ∃ d, c = figure d := by
  constructor
  · rintro ⟨low, high⟩
    have first : 48 ≤ c.toNat := UInt8.le_iff_toNat_le.mp low
    have last : c.toNat ≤ 57 := UInt8.le_iff_toNat_le.mp high
    refine ⟨⟨c.toNat - 48, by omega⟩, UInt8.toNat_inj.mp ?_⟩
    rw [figure, UInt8.toNat_ofNat']
    dsimp only
    omega
  · rintro ⟨d, rfl⟩
    fin_cases d <;> decide

theorem digit_step {d : Fin 10} :
    width fn (figure d :: rest) ⟨2, flags, givenWd⟩ s =
      next (figure d :: rest) ⟨2, flags, widen givenWd d⟩ s := by
  unfold width
  rw [show char (figure d :: rest) = figure d from rfl, if_pos (digit_iff.mpr ⟨d, rfl⟩)]
  have value : (figure d).toNat - 48 = d.val := by fin_cases d <;> rfl
  rw [value, widen]

theorem modifier_no_digit {m : Modifier} {d : Fin 10} : m.char ≠ figure d := by
  cases m <;> fin_cases d <;> decide

theorem width_close {digits : List (Fin 10)} {mods : List Modifier}
    (more : digits ≠ [] ∨ mods ≠ [] ∨ rest ≠ []) (other : ∀ c ∈ rest.head?, ∀ m : Modifier, c ≠ m.char)
    (plain : mods = [] → ∀ c ∈ rest.head?, ∀ d, c ≠ figure d) :
    resume fn (width fn (digits.map figure ++ (mods.map Modifier.char ++ rest)) ⟨2, flags, givenWd⟩ s) =
      close fn (mods.foldl Flags.add flags) (digits.foldl widen givenWd) s rest := by
  induction digits generalizing givenWd with
  | nil =>
    have more : mods ≠ [] ∨ rest ≠ [] := by simpa using more
    have nodigit : ∀ c ∈ (mods.map Modifier.char ++ rest).head?, ∀ d, c ≠ figure d := by
      cases mods with
      | nil => exact plain rfl
      | cons m mods =>
        intro c head d
        obtain rfl := Option.some.inj head
        exact modifier_no_digit
    rw [List.map_nil, List.nil_append, List.foldl_nil, ← modifiers_close more other]
    cases text : mods.map Modifier.char ++ rest with
    | nil => simp_all
    | cons c text' =>
      rw [text] at nodigit
      unfold width
      rw [if_neg fun inside => ?_]
      obtain ⟨d, digit⟩ := digit_iff.mp inside
      exact nodigit c rfl d digit
  | cons d digits ih =>
    rw [List.map_cons, List.cons_append, digit_step, resume_next, List.foldl_cons]
    obtain last | more := eq_or_ne (digits.map figure ++ (mods.map Modifier.char ++ rest)) []
    · obtain ⟨none, last⟩ := List.append_eq_nil_iff.mp last
      obtain ⟨bare, rfl⟩ := List.append_eq_nil_iff.mp last
      obtain rfl := List.map_eq_nil_iff.mp none
      obtain rfl := List.map_eq_nil_iff.mp bare
      exact scanFormat_nil
    · rw [scanFormat_turn more]
      refine ih ?_
      by_contra none
      simp_all

theorem foldl_add {mods : List Modifier} : mods.foldl Flags.add flags =
    { flags with
      fp := flags.fp || .F ∈ mods
      l64 := flags.l64 || (decide (.l ∈ mods) || .L ∈ mods)
      l16 := flags.l16 || .h ∈ mods } := by
  induction mods generalizing flags with
  | nil => simp
  | cons m mods ih =>
    rw [List.foldl_cons, ih]
    cases m <;> simp [Flags.add, Bool.or_comm]

theorem spec_flags : p.mods.foldl Flags.add { lj := p.left, lz := p.zero } = p.flags := by
  rw [foldl_add]
  simp [Spec.flags, Spec.long, Spec.half]

theorem width_nil : resume fn (width fn [] ⟨2, flags, givenWd⟩ s) = .error (.fault .overread) := rfl

theorem flag_nil : resume fn (flag fn [] ⟨1, flags, givenWd⟩ s) = .error (.fault .overread) := rfl

/-- Where no flag is next, the scan goes on with the width. -/
theorem flag_width (some : fmt ≠ []) (other : ∀ c ∈ fmt.head?, c ≠ '%' ∧ c ≠ '-' ∧ c ≠ '0') :
    flag fn fmt ⟨1, flags, givenWd⟩ s = width fn fmt ⟨2, flags, givenWd⟩ s := by
  cases fmt with
  | nil => exact absurd rfl some
  | cons c rest =>
    obtain ⟨percent, dash, zero⟩ := other c rfl
    unfold flag
    rw [show char (c :: rest) = c from rfl, if_neg percent, if_neg dash, if_neg zero]

/-- The text of a width without a 0 flag, of modifiers and of what follows does not start with a flag. -/
theorem no_flag (zero : p.zero = false) (closes : ∀ c ∈ rest.head?, p.Closes c) :
    ∀ c ∈ (p.width.map figure ++ (p.mods.map Modifier.char ++ rest)).head?, c ≠ '%' ∧ c ≠ '-' ∧ c ≠ '0' := by
  intro c head
  cases digits : p.width with
  | cons d digits' =>
    rw [digits] at head
    obtain rfl := Option.some.inj head
    have first : d ≠ 0 := by
      have canonical := p.canonical zero
      rw [digits] at canonical
      exact fun same => canonical (congrArg some same)
    revert first
    fin_cases d <;> decide
  | nil =>
    rw [digits] at head
    cases mods : p.mods with
    | cons m mods' =>
      rw [mods] at head
      obtain rfl := Option.some.inj head
      cases m <;> decide
    | nil =>
      rw [mods] at head
      have closed := closes c head
      obtain ⟨percent, dash⟩ := closed.flag ⟨zero, digits, mods⟩
      exact ⟨percent, dash, closed.digit mods 0⟩

variable (fn s) in
/-- The scan from the place where a `-` may have been. -/
theorem flag_inner (closes : ∀ c ∈ rest.head?, p.Closes c) :
    resume fn (flag fn ((if p.zero then [nought] else []) ++ (p.width.map figure ++ (p.mods.map Modifier.char ++
      rest))) ⟨1, { lj := p.left }, 0⟩ s) =
      if p.width = [] ∧ p.mods = [] ∧ rest = [] then .error (.fault .overread)
      else close fn p.flags p.givenWd s rest := by
  have modifier : ∀ c ∈ rest.head?, ∀ m : Modifier, c ≠ m.char := fun c head => (closes c head).modifier
  have digit : p.mods = [] → ∀ c ∈ rest.head?, ∀ d, c ≠ figure d := fun none c head => (closes c head).digit none
  have scanned {fl : Flags} (more : ¬ (p.width = [] ∧ p.mods = [] ∧ rest = [])) :
      resume fn (width fn (p.width.map figure ++ (p.mods.map Modifier.char ++ rest)) ⟨2, fl, 0⟩ s) =
        close fn (p.mods.foldl Flags.add fl) p.givenWd s rest :=
    width_close (by tauto) modifier digit
  rw [← spec_flags]
  cases zero : p.zero
  · simp only [Bool.false_eq_true, if_false, List.nil_append]
    split
    · simp_all [flag_nil]
    · rename_i more
      rw [flag_width (by simpa using more) (no_flag zero closes)]
      exact scanned more
  · simp only [if_true, List.singleton_append]
    change resume fn (width fn _ ⟨2, { lj := p.left, lz := true }, 0⟩ s) = _
    split
    · simp_all [width_nil]
    · exact scanned ‹_›

variable (fn s) in
/-- The scan behind a `%` that starts a directive. -/
theorem flag_close (closes : ∀ c ∈ rest.head?, p.Closes c) :
    resume fn (flag fn (p.text ++ rest) ⟨1, {}, 0⟩ s) =
      if p.dangles = true ∧ rest = [] then .error (.fault .overread) else close fn p.flags p.givenWd s rest := by
  have inner := flag_inner fn s closes
  unfold Spec.text Spec.dangles
  cases left : p.left
  · rw [left] at inner
    simp only [Bool.false_eq_true, if_false, List.nil_append, List.append_assoc]
    rw [inner]
    simp [and_assoc]
  · rw [left] at inner
    simp only [if_true, List.cons_append, List.nil_append, List.append_assoc]
    change scanFormat fn _ ⟨1, { lj := true }, 0⟩ s = _
    obtain none | more := eq_or_ne ((if p.zero then [nought] else []) ++ (p.width.map figure ++
      (p.mods.map Modifier.char ++ rest))) []
    · rw [none, scanFormat_nil]
      cases zero : p.zero <;> simp_all [close]
    · rw [scanFormat_turn more]
      refine inner.trans ?_
      cases zero : p.zero <;> simp_all [and_assoc]

/-! ### Pieces -/

theorem piece_scan {piece : Piece} : scanFormat fn (piece.text ++ rest) {} s =
    emitPiece fn (piece.render s.args) s >>= scanFormat fn rest {} := by
  cases piece with
  | plain c other =>
    rw [Piece.text, List.singleton_append, scanFormat_turn (List.cons_ne_nil _ _)]
    change resume fn (if c ≠ '%' then emit fn c s >>= next (c :: rest) {} else _) = emitAll fn [c] s >>= _
    rw [if_pos other, emitAll_single]
    cases emit fn c s <;> rfl
  | percent left =>
    rw [scanFormat_turn (by simp [Piece.text])]
    have emitted : resume fn (emit fn percentSign s >>= next (percentSign :: rest) {}) =
        emitAll fn [percentSign] s >>= scanFormat fn rest {} := by
      rw [emitAll_single]
      cases emit fn percentSign s <;> rfl
    cases left
    · exact emitted
    · change scanFormat fn (percentSign :: rest) ⟨1, { lj := true }, 0⟩ s = _
      rw [scanFormat_turn (List.cons_ne_nil _ _)]
      exact emitted
  | dashes =>
    rw [scanFormat_turn (by simp [Piece.text])]
    change scanFormat fn (minus :: rest) ⟨1, { lj := true }, 0⟩ s = scanFormat fn rest {} s
    rw [scanFormat_turn (List.cons_ne_nil _ _)]
    rfl
  | directive d =>
    rw [scanFormat_turn (by simp [Piece.text])]
    change resume fn (flag fn ((d.text ++ [d.conv.symbol]) ++ rest) ⟨1, {}, 0⟩ s) = _
    have closes : ∀ c ∈ (d.conv.symbol :: rest).head?, d.Closes c := by
      intro c head
      obtain rfl := Option.some.inj head
      exact d.closes
    rw [List.append_assoc, List.singleton_append, flag_close fn s closes, if_neg (by simp), close, conversion_eq]
    rfl

theorem tail_scan : scanFormat fn (percentSign :: p.text) {} s =
    if p.dangles = true then .error (.fault .overread) else .ok s := by
  have closes : ∀ c ∈ ([] : List UInt8).head?, p.Closes c := by simp
  have ends := flag_close fn s closes
  rw [List.append_nil] at ends
  rw [scanFormat_turn (List.cons_ne_nil _ _)]
  refine ends.trans ?_
  simp [close]

theorem toInt_mod : toInt (n % 2 ^ 32) = toInt n := by
  unfold toInt
  rw [Int.natCast_mod]
  exact Int.emod_bmod _ _

/-- What the helper has been passed is what `deliver` passes. -/
theorem leave_emitAll {k : Call σ → Except (Stop σ) (Call σ)} {fault : Option Fault} {text more : List UInt8}
    (counted : s.count = n % 2 ^ 32)
    (rest : ∀ t : Call σ, ∀ m, t.args = s.args → t.count = m % 2 ^ 32 →
      leave (k t) = deliver fn fault more m t.ptr) :
    leave (emitAll fn text s >>= k) = deliver fn fault (text ++ more) n s.ptr := by
  induction text generalizing s n with
  | nil => exact rest s n rfl counted
  | cons c text ih =>
    rw [emitAll, List.cons_append, deliver, emit]
    split
    · change Except.ok (toInt s.count, _) = _
      rw [counted, toInt_mod]
    · refine ih (n := n + 1) ?_ rest
      change (s.count + 1) % 2 ^ 32 = _
      rw [counted, Nat.mod_add_mod]

theorem scan_delivers {pieces : List Piece} {tail : Option Spec} (counted : s.count = n % 2 ^ 32) :
    leave (scanFormat fn (spell pieces tail) {} s) =
      deliver fn (output tail pieces s.args).2 (output tail pieces s.args).1 n s.ptr := by
  induction pieces generalizing s n with
  | nil =>
    cases tail with
    | none =>
      change leave (scanFormat fn [] {} s) = .ok (toInt n, s.ptr)
      rw [scanFormat_nil, leave, counted, toInt_mod]
    | some p =>
      change leave (scanFormat fn (percentSign :: p.text) {} s) = _
      rw [tail_scan, output]
      cases dangles : p.dangles
      · have same := toInt_mod (n := n)
        simp_all [leave, deliver]
      · simp [dangles, leave, deliver]
  | cons piece pieces ih =>
    have text : spell (piece :: pieces) tail = piece.text ++ spell pieces tail := by
      simp [spell, List.append_assoc]
    rw [text, piece_scan, output]
    cases piece.render s.args with
    | error f => rfl
    | ok r =>
      obtain ⟨printed, args⟩ := r
      refine leave_emitAll (s := { s with args }) counted fun t m same counted => ?_
      rw [ih counted, same]

/-! ### Every format has a spelling -/

/-- The longest start of a text that spells a list of symbols. -/
theorem split_symbols {β : Type} (f : β → UInt8) (text : List UInt8) :
    ∃ (xs : List β) (rest : List UInt8), text = xs.map f ++ rest ∧ ∀ c ∈ rest.head?, ∀ x, c ≠ f x := by
  induction text with
  | nil => exact ⟨[], [], rfl, by simp⟩
  | cons c text ih =>
    obtain ⟨x, rfl⟩ | other := Classical.em (∃ x, c = f x)
    · obtain ⟨xs, rest, rfl, next⟩ := ih
      exact ⟨x :: xs, rest, rfl, next⟩
    · refine ⟨[], c :: text, rfl, fun a head x same => other ⟨x, ?_⟩⟩
      exact (Option.some.inj head).trans same

theorem split_flag (flag : UInt8) (text : List UInt8) :
    ∃ (on : Bool) (rest : List UInt8), text = (if on then [flag] else []) ++ rest ∧
      (on = false → ∀ c ∈ rest.head?, c ≠ flag) := by
  cases text with
  | nil => exact ⟨false, [], rfl, by simp⟩
  | cons c text =>
    obtain rfl | other := eq_or_ne c flag
    · exact ⟨true, text, rfl, by simp⟩
    · exact ⟨false, c :: text, rfl, by simpa using other⟩

theorem exists_conversion (c : UInt8) : ∃ conv : Conversion, conv.symbol = c ∧
    ∀ a, conv = .other a → a ≠ 'c' ∧ a ≠ 's' ∧ ∀ l : Letter, a ≠ l.char := by
  obtain ⟨l, rfl⟩ | letter := Classical.em (∃ l : Letter, c = l.char)
  · exact ⟨.number l, rfl, by simp⟩
  · obtain rfl | char := eq_or_ne c 'c'
    · exact ⟨.char, rfl, by simp⟩
    · obtain rfl | string := eq_or_ne c 's'
      · exact ⟨.string, rfl, by simp⟩
      · refine ⟨.other c, rfl, fun a same => ?_⟩
        obtain rfl := Conversion.other.inj same
        exact ⟨char, string, fun l same => letter ⟨l, same⟩⟩

/-- What a text behind a `%` starts with: flags, a width and modifiers, and then a conversion, a `%` or a second `-`. -/
theorem split_spec {text : List UInt8} (plain : (0 : UInt8) ∉ text) : ∃ (p : Spec) (rest : List UInt8),
    text = p.text ++ rest ∧ ∀ c ∈ rest.head?, p.Closes c ∨ p.bare ∧ (c = '%' ∨ c = '-' ∧ p.left = true) := by
  obtain ⟨left, text, rfl, dash⟩ := split_flag minus text
  obtain ⟨zero, text, rfl, nought⟩ := split_flag nought text
  obtain ⟨width, text, rfl, figure⟩ := split_symbols figure text
  obtain ⟨mods, rest, rfl, modifier⟩ := split_symbols Modifier.char text
  have canonical : zero = false → width.head? ≠ some 0 := by
    intro off head
    obtain ⟨tail, rfl⟩ := List.head?_eq_some_iff.mp head
    exact nought off _ rfl rfl
  refine ⟨⟨left, zero, width, mods, canonical⟩, rest, by simp [Spec.text], fun c head => ?_⟩
  have char : c ≠ 0 := by
    rintro rfl
    refine plain ?_
    simp [List.mem_of_mem_head? head]
  have digit (none : mods = []) : ∀ d, c ≠ Landaux.Printf.figure d := by
    subst none
    exact figure c head
  by_cases flagged : (zero = false ∧ width = [] ∧ mods = []) ∧ (c = '%' ∨ c = '-')
  · obtain ⟨⟨rfl, rfl, rfl⟩, percent | rfl⟩ := flagged
    · exact .inr ⟨⟨rfl, rfl, rfl⟩, .inl percent⟩
    · refine .inr ⟨⟨rfl, rfl, rfl⟩, .inr ⟨rfl, ?_⟩⟩
      by_contra right
      exact dash (Bool.eq_false_iff.mpr right) _ head rfl
  · refine .inl ⟨char, modifier c head, digit, fun bare => ?_⟩
    exact not_or.mp fun flag => flagged ⟨bare, flag⟩

theorem exists_spelling {chars : List UInt8} (plain : (0 : UInt8) ∉ chars) :
    ∃ pieces tail, chars = spell pieces tail := by
  induction count : chars.length using Nat.strong_induction_on generalizing chars with
  | _ size ih =>
  have front (piece : Piece) (rest : List UInt8) (text : chars = piece.text ++ rest) (some : piece.text ≠ []) :
      ∃ pieces tail, chars = spell pieces tail := by
    subst text
    have shorter : rest.length < size := by
      have positive := List.length_pos_iff.mpr some
      rw [List.length_append] at count
      omega
    obtain ⟨pieces, tail, rfl⟩ := ih _ shorter (fun member => plain (List.mem_append_right _ member)) rfl
    exact ⟨piece :: pieces, tail, by simp [spell, List.append_assoc]⟩
  cases chars with
  | nil => exact ⟨[], none, rfl⟩
  | cons c text =>
    obtain other | rfl := ne_or_eq c '%'
    · exact front (.plain c other) text rfl (List.cons_ne_nil _ _)
    · obtain ⟨p, rest, rfl, next⟩ := split_spec fun member => plain (List.mem_cons_of_mem _ member)
      cases rest with
      | nil => exact ⟨[], some p, by simp [spell]⟩
      | cons c rest =>
        obtain closes | ⟨⟨zero, width, mods⟩, rfl | ⟨rfl, left⟩⟩ := next c rfl
        · obtain ⟨conv, rfl, others⟩ := exists_conversion c
          exact front (.directive ⟨p, conv, closes, others⟩) rest (by simp [Piece.text]) (List.cons_ne_nil _ _)
        · exact front (.percent p.left) rest (by simp [Piece.text, Spec.text, zero, width, mods])
            (List.cons_ne_nil _ _)
        · exact front .dashes rest (by simp [Piece.text, Spec.text, zero, width, mods, left]) (List.cons_ne_nil _ _)

theorem doPrintf_spelled {cstr : CStr} {pieces : List Piece} {tail : Option Spec} {args : List Arg} {ptr : σ}
    (spelled : cstr.chars = spell pieces tail) :
    doPrintf fn cstr args ptr = deliver fn (output tail pieces args).2 (output tail pieces args).1 0 ptr := by
  rw [doPrintf, spelled]
  exact scan_delivers (n := 0) rfl

/-- Every format is a sequence of pieces, and `do_printf` passes what they stand for to its helper. -/
theorem do_printf_delivers (fmt : CStr) :
    (∃ pieces tail, fmt.chars = spell pieces tail) ∧
      ∀ pieces tail, fmt.chars = spell pieces tail →
        ∀ {σ : Type} (fn : UInt8 → σ → Int × σ) (args : List Arg) (ptr : σ),
          doPrintf fn fmt args ptr =
            deliver fn (output tail pieces args).2 (output tail pieces args).1 0 ptr :=
  ⟨exists_spelling fmt.plain, fun _ _ spelled _ _ _ _ => doPrintf_spelled spelled⟩

/-- `"%5d!"`, with a helper that keeps what it is passed. -/
theorem do_printf_delivers_width :
    doPrintf (fun c kept => (0, kept ++ [c])) ⟨['%', '5', 'd', '!'], by decide, by decide⟩ [.word (-42)] [] =
      .ok (6, [' ', ' ', '-', '4', '2', '!']) := by
  have closes : (⟨false, false, [5], [], by decide⟩ : Spec).Closes 'd' :=
    ⟨by decide, fun m => by cases m <;> decide, fun _ => by decide, fun bare => absurd bare.2.1 (by decide)⟩
  rw [(do_printf_delivers _).2 [.directive ⟨_, .number .d, closes, by simp⟩, .plain '!' (by decide)] none rfl]
  rfl

end Landaux.Printf
