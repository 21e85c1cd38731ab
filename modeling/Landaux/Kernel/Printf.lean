import Mathlib.Tactic

/-!
# printf

`do_printf` of `kernel/printf.c`. A format is the characters before its NUL, and the arguments are the slots
that `va_arg` takes one by one. The helper is any function of a character and of what `ptr` points to.
-/

namespace Landaux.Printf

scoped instance charByte : Coe Char UInt8 := ⟨Char.toUInt8⟩

def PR_BUFLEN : Nat := 27

/-- A string, which `strlen` can count. -/
structure CStr where
  chars : List UInt8
  plain : (0 : UInt8) ∉ chars
  short : chars.length < 2 ^ 32 - 1

/-- A word of 64 bits, or a pointer to a string that may be null. -/
inductive Arg where
  | word (w : BitVec 64)
  | string (s : Option CStr)

structure Flags where
  lj : Bool := false
  ca : Bool := false
  sg : Bool := false
  l64 : Bool := false
  l32 : Bool := false
  l16 : Bool := false
  ws : Bool := false
  lz : Bool := false
  fp : Bool := false
  ox : Bool := false

structure Scan where
  state : Nat := 0
  flags : Flags := {}
  givenWd : Nat := 0

/-- What lasts from one directive to the next. -/
structure Call (σ : Type) where
  count : Nat
  args : List Arg
  ptr : σ

inductive Fault where
  /-- `fmt` is moved past the NUL of the format -/
  | overread
  /-- no argument is left, or the next one is of the other kind -/
  | argument
  /-- `where` is moved below `buf` -/
  | underflow

/-- The early `return count`, or a fault. -/
inductive Stop (σ : Type) where
  | refused (count : Nat) (ptr : σ)
  | fault (f : Fault)

variable {σ : Type} (fn : UInt8 → σ → Int × σ)

def emit (c : UInt8) (s : Call σ) : Except (Stop σ) (Call σ) :=
  let r := fn c s.ptr
  if r.1 ≠ 0 then .error (.refused s.count r.2)
  else .ok { s with count := (s.count + 1) % 2 ^ 32, ptr := r.2 }

/-- `while (*where != '\0')`, with a NUL after the characters -/
def emitString : List UInt8 → Call σ → Except (Stop σ) (Call σ)
  | [], s => .ok s
  | c :: rest, s => if c = 0 then .ok s else do
    let s ← emit fn c s
    emitString rest s

/-- `while (given_wd > actual_wd)`, with what is left of `given_wd` -/
def padLeft (c : UInt8) (actualWd : Nat) : Nat → Call σ → Except (Stop σ) (Nat × Call σ)
  | 0, s => .ok (0, s)
  | givenWd + 1, s =>
    if givenWd + 1 > actualWd then do
      let s ← emit fn c s
      padLeft c actualWd givenWd s
    else .ok (givenWd + 1, s)

def padRight : Nat → Call σ → Except (Stop σ) (Call σ)
  | 0, s => .ok s
  | givenWd + 1, s => do
    let s ← emit fn ' ' s
    padRight givenWd s

def vaWord (s : Call σ) : Except (Stop σ) (BitVec 64 × Call σ) :=
  match s.args with
  | .word w :: args => .ok (w, { s with args })
  | _ => .error (.fault .argument)

def vaString (s : Call σ) : Except (Stop σ) (Option CStr × Call σ) :=
  match s.args with
  | .string t :: args => .ok (t, { s with args })
  | _ => .error (.fault .argument)

def loadNum (flags : Flags) (w : BitVec 64) : BitVec 64 :=
  if flags.l32 then (w.setWidth 32).setWidth 64
  else if flags.l64 then w
  else if flags.l16 then (w.setWidth 32 &&& 0xFFFF).setWidth 64
  else if flags.sg then (w.setWidth 32).signExtend 64
  else (w.setWidth 32).setWidth 64

def digit (flags : Flags) (temp : Nat) : UInt8 :=
  if temp < 10 then .ofNat (temp + 48)
  else if flags.ca then .ofNat (temp - 10 + 65)
  else .ofNat (temp - 10 + 97)

/-- The digits, written downwards from `buf + index`. -/
def convert (radix : Nat) (flags : Flags) : Nat → Nat → List UInt8 → Except (Stop σ) (List UInt8)
  | 0, _, _ => .error (.fault .underflow)
  | index + 1, num, chars =>
    let chars := digit flags (num % radix) :: chars
    if num / radix ≠ 0 then convert radix flags index (num / radix) chars else .ok chars

def emit2 (flags : Flags) (givenWd actualWd : Nat) (chars : List UInt8) (s : Call σ) :
    Except (Stop σ) (Call σ) := do
  let (givenWd, s) ← (if flags.lj then .ok (givenWd, s)
    else padLeft fn (if flags.lz then '0' else ' ') actualWd givenWd s)
  let s ← (if flags.ws && !flags.lz then emit fn '-' s else .ok s)
  let s ← emitString fn chars s
  padRight fn (if givenWd < actualWd then 0 else givenWd - actualWd) s

/-- From `EMIT` on, with `*fmt`. -/
def emit1 (c : UInt8) (flags : Flags) (givenWd : Nat) (chars : List UInt8) (s : Call σ) :
    Except (Stop σ) (Call σ) := do
  let actualWd := chars.length + (if flags.ws then 1 else 0)
  let s ← (if flags.ox then do
      let s ← emit fn '0' s
      emit fn 'x' s
    else .ok s)
  let s ← (if flags.ws && flags.lz then emit fn c s else .ok s)
  emit2 fn flags givenWd actualWd chars s

def doNum (c : UInt8) (radix : Nat) (flags : Flags) (givenWd : Nat) (s : Call σ) :
    Except (Stop σ) (Call σ) := do
  let (w, s) ← vaWord s
  let num := loadNum flags w
  let minus := flags.sg && num.msb
  let flags := { flags with ws := flags.ws || minus }
  let num := if minus then -num else num
  let chars ← convert radix flags (PR_BUFLEN - 1) num.toNat []
  emit1 fn c flags givenWd chars s

def orNull : Option CStr → List UInt8
  | some t => t.chars
  | none => ['(', 'N', 'U', 'L', 'L', ')']

/-- State 4. -/
def conversion (c : UInt8) (flags : Flags) (givenWd : Nat) (s : Call σ) : Except (Stop σ) (Call σ) :=
  if c = 'X' then doNum fn c 16 { flags with ca := true } givenWd s
  else if c = 'x' ∨ c = 'n' then doNum fn c 16 flags givenWd s
  else if c = 'p' then doNum fn c 16 { flags with l64 := true } givenWd s
  else if c = 'd' ∨ c = 'i' then doNum fn c 10 { flags with sg := true } givenWd s
  else if c = 'u' then doNum fn c 10 flags givenWd s
  else if c = 'o' then doNum fn c 8 flags givenWd s
  else if c = 'c' then do
    let (w, s) ← vaWord s
    emit2 fn { flags with lz := false } givenWd 1 [.ofNat (w.toNat % 256)] s
  else if c = 's' then do
    let (t, s) ← vaString s
    emit1 fn c { flags with lz := false } givenWd (orNull t) s
  else .ok s

/-- The `fmt++` of the loop. -/
def next (fmt : List UInt8) (scan : Scan) (s : Call σ) : Except (Stop σ) (List UInt8 × Scan × Call σ) :=
  match fmt with
  | [] => .error (.fault .overread)
  | _ :: rest => .ok (rest, scan, s)

/-- `*fmt`, which is the NUL at the end -/
def char (fmt : List UInt8) : UInt8 := fmt.headD 0

/-- State 3: the modifiers, or what follows them. -/
def modifier (fmt : List UInt8) (scan : Scan) (s : Call σ) :
    Except (Stop σ) (List UInt8 × Scan × Call σ) :=
  if char fmt = 'F' then next fmt { scan with flags := { scan.flags with fp := true } } s
  else if char fmt = 'N' then next fmt scan s
  else if char fmt = 'l' ∨ char fmt = 'L' then next fmt { scan with flags := { scan.flags with l64 := true } } s
  else if char fmt = 'h' then next fmt { scan with flags := { scan.flags with l16 := true } } s
  else do
    let s ← conversion fn (char fmt) scan.flags scan.givenWd s
    next fmt {} s

/-- State 2: the field width, or what follows it. -/
def width (fmt : List UInt8) (scan : Scan) (s : Call σ) : Except (Stop σ) (List UInt8 × Scan × Call σ) :=
  if '0' ≤ char fmt ∧ char fmt ≤ '9' then
    next fmt { scan with givenWd := (10 * scan.givenWd + ((char fmt).toNat - 48)) % 2 ^ 32 } s
  else modifier fn fmt { scan with state := 3 } s

/-- State 1: the flags, or what follows them. -/
def flag (fmt : List UInt8) (scan : Scan) (s : Call σ) : Except (Stop σ) (List UInt8 × Scan × Call σ) :=
  if char fmt = '%' then do
    let s ← emit fn '%' s
    next fmt {} s
  else if char fmt = '-' then
    if scan.flags.lj then next fmt {} s
    else next fmt { scan with flags := { scan.flags with lj := true } } s
  else if char fmt = '0' then
    width fn fmt.tail { scan with state := 2, flags := { scan.flags with lz := true } } s
  else width fn fmt { scan with state := 2 } s

/-- State 0. -/
def plain (fmt : List UInt8) (scan : Scan) (s : Call σ) : Except (Stop σ) (List UInt8 × Scan × Call σ) :=
  if char fmt ≠ '%' then do
    let s ← emit fn (char fmt) s
    next fmt scan s
  else flag fn fmt.tail { scan with state := 1 } s

def turn (fmt : List UInt8) (scan : Scan) (s : Call σ) : Except (Stop σ) (List UInt8 × Scan × Call σ) :=
  match scan.state with
  | 0 => plain fn fmt scan s
  | 1 => flag fn fmt scan s
  | 2 => width fn fmt scan s
  | 3 => modifier fn fmt scan s
  | _ => next fmt {} s

/-! ### A turn shortens the format -/

variable {fn} {fmt fmt' : List UInt8} {scan scan' : Scan} {s s' : Call σ}

/-- A turn that returns has moved along the format. -/
def Moves (fmt : List UInt8) (r : Except (Stop σ) (List UInt8 × Scan × Call σ)) : Prop :=
  ∀ fmt' scan' s', r = .ok (fmt', scan', s') → fmt'.length < fmt.length

theorem next_moves : Moves fmt (next fmt scan s) := by
  intro fmt' scan' s' h
  cases fmt with
  | nil => cases h
  | cons c rest =>
    obtain ⟨rfl, -⟩ := Prod.mk.inj (Except.ok.inj h)
    simp

theorem Moves.bind {r : Except (Stop σ) (Call σ)} : Moves fmt (r >>= next fmt scan) := by
  cases r with
  | error e =>
    intro fmt' scan' s' h
    cases h
  | ok s => exact next_moves

theorem Moves.of_tail {r : Except (Stop σ) (List UInt8 × Scan × Call σ)} (h : Moves fmt.tail r) : Moves fmt r := by
  intro fmt' scan' s' eq
  have shorter := h fmt' scan' s' eq
  rw [List.length_tail] at shorter
  omega

theorem modifier_moves : Moves fmt (modifier fn fmt scan s) := by
  unfold modifier
  split_ifs
  · exact next_moves
  · exact next_moves
  · exact next_moves
  · exact next_moves
  · exact Moves.bind

theorem width_moves : Moves fmt (width fn fmt scan s) := by
  unfold width
  split
  · exact next_moves
  · exact modifier_moves

theorem flag_moves : Moves fmt (flag fn fmt scan s) := by
  unfold flag
  split_ifs
  · exact Moves.bind
  · exact next_moves
  · exact next_moves
  · exact width_moves.of_tail
  · exact width_moves

theorem turn_moves (h : turn fn fmt scan s = .ok (fmt', scan', s')) : fmt'.length < fmt.length := by
  refine (?_ : Moves fmt (turn fn fmt scan s)) fmt' scan' s' h
  unfold turn
  split
  · unfold plain
    split
    · exact Moves.bind
    · exact flag_moves.of_tail
  · exact flag_moves
  · exact width_moves
  · exact modifier_moves
  · exact next_moves

variable (fn)

def scanFormat (fmt : List UInt8) (scan : Scan) (s : Call σ) : Except (Stop σ) (Call σ) :=
  match fmt with
  | [] => .ok s
  | c :: rest =>
    match _h : turn fn (c :: rest) scan s with
    | .error e => .error e
    | .ok (fmt', scan', s') => scanFormat fmt' scan' s'
termination_by fmt.length
decreasing_by exact turn_moves _h

def toInt (count : Nat) : Int := (count : Int).bmod (2 ^ 32)

/-- What is returned when the loop ends. -/
def leave : Except (Stop σ) (Call σ) → Except Fault (Int × σ)
  | .ok s => .ok (toInt s.count, s.ptr)
  | .error (.refused count ptr) => .ok (toInt count, ptr)
  | .error (.fault f) => .error f

def doPrintf (fmt : CStr) (args : List Arg) (ptr : σ) : Except Fault (Int × σ) :=
  leave (scanFormat fn fmt.chars {} ⟨0, args, ptr⟩)

end Landaux.Printf
