import Landaux.Kernel.Printf
import Landaux.Lib.Numeral
import Landaux.Lib.Outcome

/-!
# What a format means

A format is a sequence of pieces, and `do_printf` passes to its helper what each of them stands for. A
directive is flags, a width, modifiers and a conversion. Where a 0 flag meets a negative number the conversion
character is printed in place of the sign. A format that ends before the conversion of a directive is read past
its end unless a width, a modifier or only a `-` is last.
-/

namespace Landaux.Printf
open Lib

abbrev percentSign : UInt8 := '%'
abbrev minus : UInt8 := '-'
abbrev space : UInt8 := ' '
abbrev nought : UInt8 := '0'

/-! ### The grammar -/

inductive Letter where
  | X | x | n | p | d | i | u | o
  deriving DecidableEq

namespace Letter

def char : Letter → UInt8
  | X => 'X'
  | x => 'x'
  | n => 'n'
  | p => 'p'
  | d => 'd'
  | i => 'i'
  | u => 'u'
  | o => 'o'

def radix : Letter → Nat
  | X | x | n | p => 16
  | d | i | u => 10
  | o => 8

def signed (l : Letter) : Bool := l = d ∨ l = i

end Letter

inductive Conversion where
  | number (l : Letter)
  | char
  | string
  | other (c : UInt8)

def Conversion.symbol : Conversion → UInt8
  | number l => l.char
  | char => 'c'
  | string => 's'
  | other c => c

inductive Modifier where
  | F | N | l | L | h
  deriving DecidableEq

def Modifier.char : Modifier → UInt8
  | F => 'F'
  | N => 'N'
  | l => 'l'
  | L => 'L'
  | h => 'h'

def figure (d : Fin 10) : UInt8 := .ofNat (48 + d)

def widen (givenWd : Nat) (d : Fin 10) : Nat := (10 * givenWd + d.val) % 2 ^ 32

/-- What stands between the `%` and the conversion. A width starts with 0 only behind the flag. -/
structure Spec where
  left : Bool
  zero : Bool
  width : List (Fin 10)
  mods : List Modifier
  canonical : zero = false → width.head? ≠ some 0

namespace Spec

def text (p : Spec) : List UInt8 :=
  (if p.left then [minus] else []) ++ ((if p.zero then [nought] else []) ++
    (p.width.map figure ++ p.mods.map Modifier.char))

/-- Nothing stands before the conversion, except for the `-`. -/
def bare (p : Spec) : Prop := p.zero = false ∧ p.width = [] ∧ p.mods = []

/-- This character is no part of what stands before the conversion. -/
structure Closes (p : Spec) (c : UInt8) : Prop where
  char : c ≠ 0
  modifier : ∀ m : Modifier, c ≠ m.char
  digit : p.mods = [] → ∀ d, c ≠ figure d
  flag : p.bare → c ≠ '%' ∧ c ≠ '-'

def long (p : Spec) : Bool := .l ∈ p.mods ∨ .L ∈ p.mods

def half (p : Spec) : Bool := .h ∈ p.mods

def givenWd (p : Spec) : Nat := p.width.foldl widen 0

def flags (p : Spec) : Flags :=
  { lj := p.left, lz := p.zero, fp := .F ∈ p.mods, l64 := p.long, l16 := p.half }

end Spec

structure Directive extends Spec where
  conv : Conversion
  closes : toSpec.Closes conv.symbol
  /-- `other` is none of the conversions -/
  plain : ∀ c, conv = .other c → c ≠ 'c' ∧ c ≠ 's' ∧ ∀ l : Letter, c ≠ l.char

inductive Piece where
  | plain (c : UInt8) (other : c ≠ '%')
  /-- `%%`, or `%-%` -/
  | percent (left : Bool)
  /-- `%--`, which stands for nothing -/
  | dashes
  | directive (d : Directive)

def Piece.text : Piece → List UInt8
  | plain c _ => [c]
  | percent left => '%' :: ((if left then [minus] else []) ++ [percentSign])
  | dashes => ['%', '-', '-']
  | directive d => '%' :: (d.text ++ [d.conv.symbol])

/-- A format: pieces, and perhaps the start of a directive. -/
def spell (pieces : List Piece) (tail : Option Spec) : List UInt8 :=
  pieces.flatMap Piece.text ++
    match tail with
    | none => []
    | some p => '%' :: p.text

/-! ### The meaning -/

def glyph (upper : Bool) (d : Nat) : UInt8 := digit { ca := upper } d

/-- The number in the slot: of 64 bits with `l`, `L` or for `%p`, of 16 bits without a sign with `h`, else an `int`. -/
def Spec.value (p : Spec) (l : Letter) (w : BitVec 64) : Int :=
  if p.long ∨ l = .p then if l.signed then w.toInt else w.toNat
  else if p.half then w.toNat % 2 ^ 16
  else if l.signed then (w.setWidth 32).toInt else w.toNat % 2 ^ 32

/-- A field: a sign and a body, and as much filling as `size` leaves of the width. -/
def Spec.field (p : Spec) (zero : Bool) (size : Nat) (sign body : List UInt8) : List UInt8 :=
  let gap := p.givenWd - size
  if p.left then sign ++ body ++ List.replicate gap space
  else if zero then sign ++ List.replicate gap nought ++ body
  else List.replicate gap space ++ sign ++ body

def Directive.sign (d : Directive) (l : Letter) (v : Int) : List UInt8 :=
  if v < 0 then [if d.zero then l.char else '-'] else []

def Directive.number (d : Directive) (l : Letter) (w : BitVec 64) : List UInt8 :=
  let v := d.value l w
  let sign := d.sign l v
  let body := (numeral l.radix v.natAbs).map (glyph (l = .X))
  d.field d.zero (sign.length + body.length) sign body

/-- The characters of a directive, and the arguments that are left. -/
def Directive.render (d : Directive) (args : List Arg) : Except Fault (List UInt8 × List Arg) :=
  match d.conv with
  | .number l =>
    match args with
    | .word w :: args => .ok (d.number l w, args)
    | _ => .error .argument
  | .char =>
    match args with
    | .word w :: args =>
      let c : UInt8 := .ofNat (w.toNat % 256)
      .ok (d.field false 1 [] (if c = 0 then [] else [c]), args)
    | _ => .error .argument
  | .string =>
    match args with
    | .string t :: args => .ok (d.field false (orNull t).length [] (orNull t), args)
    | _ => .error .argument
  | .other _ => .ok ([], args)

def Piece.render (args : List Arg) : Piece → Except Fault (List UInt8 × List Arg)
  | plain c _ => .ok ([c], args)
  | percent _ => .ok (['%'], args)
  | dashes => .ok ([], args)
  | directive d => d.render args

/-- The scan is past the NUL of the format when it looks for the width. -/
def Spec.dangles (p : Spec) : Bool := p.width = [] ∧ p.mods = [] ∧ (p.zero ∨ ¬ p.left)

/-- All the characters of a format, and the fault it ends in, if any. -/
def output (tail : Option Spec) : List Piece → List Arg → List UInt8 × Option Fault
  | [], _ => ([], if tail.any Spec.dangles then some .overread else none)
  | piece :: pieces, args =>
    match piece.render args with
    | .error f => ([], some f)
    | .ok (text, args) =>
      let rest := output tail pieces args
      (text ++ rest.1, rest.2)

/-- One character after another for the helper, as long as it returns 0. -/
def deliver {σ : Type} (fn : UInt8 → σ → Int × σ) (fault : Option Fault) :
    List UInt8 → Nat → σ → Except Fault (Int × σ)
  | [], count, ptr =>
    match fault with
    | none => .ok (toInt count, ptr)
    | some f => .error f
  | c :: rest, count, ptr =>
    let r := fn c ptr
    if r.1 ≠ 0 then .ok (toInt count, r.2) else deliver fn fault rest (count + 1) r.2

end Landaux.Printf
