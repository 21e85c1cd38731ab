import Landaux.Fs.Path

/-!
# Archives

`extract_tar` of `bootimg.c`, over the bytes from `tar_start` on. A program that reads a byte after them,
or writes past the end of its `name`, stops. What is printed is left out.
-/

namespace Landaux

inductive TarStop where
  /-- a read outside the archive -/
  | outside
  /-- a write past the end of `name` -/
  | overrun
  /-- a call of `vfs.c` stops -/
  | fs (stop : FsStop)
  /-- a recursion of the model is longer than it can be -/
  | fuel
  deriving DecidableEq

/-! ### Numbers -/

def max_int64 : Int := 2 ^ 31 - 1
def min_int64 : Int := -2 ^ 31

def BlankByte (b : UInt8) : Prop := b = 32 ∨ b = 9

def OctalDigit (b : UInt8) : Prop := 48 ≤ b ∧ b < 56

instance : DecidablePred BlankByte := fun b => inferInstanceAs (Decidable (b = 32 ∨ b = 9))

instance : DecidablePred OctalDigit := fun b => inferInstanceAs (Decidable (48 ≤ b ∧ b < 56))

/-- The loop of `tar_atol8` over the digits; what it assigns on overflow is -1 as an `s32`. -/
def octalFrom : List UInt8 → Nat → Int → Except TarStop Int
  | [], _, _ => .error .outside
  | b :: rest, count, l =>
    if OctalDigit b ∧ 0 < count then
      let digit : Int := b.toNat - 48
      if l > max_int64 / 8 ∨ l = max_int64 / 8 ∧ digit > max_int64 % 8 then .ok (-1)
      else octalFrom rest (count - 1) (l * 8 + digit)
    else .ok l

def tarAtol8 (p : List UInt8) (count : Nat) : Except TarStop Int :=
  match p.dropWhile (BlankByte ·) with
  | [] => .error .outside
  | b :: rest => if b = 45 then (octalFrom rest count 0).map (-·) else octalFrom (b :: rest) count 0

/-- The loop of `tar_atol256`. -/
def bytesFrom : List UInt8 → Nat → Int → Except TarStop Int
  | _, 0, l => .ok l
  | p, count + 1, l =>
    if l > max_int64 / 256 then .ok max_int64
    else if l < min_int64 / 256 then .ok min_int64
    else match p with
      | [] => .error .outside
      | b :: rest => bytesFrom rest count (l * 256 + b.toNat)

def tarAtol256 (p : List UInt8) (count : Nat) : Except TarStop Int :=
  match p with
  | [] => .error .outside
  | b :: rest => bytesFrom rest (count - 1) ((if b &&& 0x40 = 0x40 then -64 else 0) + (b &&& 0x3f).toNat)

def tarAtol (p : List UInt8) (count : Nat) : Except TarStop Int :=
  match p with
  | [] => .error .outside
  | b :: _ => if b &&& 0x80 ≠ 0 then tarAtol256 p count else tarAtol8 p count

def roundUp (x y : BitVec 32) : BitVec 32 := (x + y - 1) &&& ~~~(y - 1)

/-! ### extract_tar -/

/-- What `extract_tar` calls, and what it sees of the answers. -/
structure TarFs (σ : Type) where
  /-- `vfs_open` with `O_WRONLY|O_CREAT|O_TRUNC` -/
  create : Name → σ → Except FsStop (Option Nat × σ)
  write : Nat → List UInt8 → σ → Except FsStop σ
  close : Nat → σ → Except FsStop σ
  mkdir : Name → σ → Except FsStop σ

/-- A step in a call of `vfs.c`. -/
def called {α : Type} (r : Except FsStop α) : Except TarStop α := r.mapError .fs

def byteAt (a : List UInt8) (i : Nat) : Except TarStop UInt8 :=
  match a[i]? with
  | none => .error .outside
  | some b => .ok b

/-- `strcat` of the bytes from `p` on to a string, with room for `room` more bytes. -/
def strcatName : Nat → List UInt8 → Except TarStop Name
  | _, [] => .error .outside
  | 0, _ :: _ => .error .overrun
  | room + 1, b :: rest => if b = 0 then .ok [] else (strcatName room rest).map (b :: ·)

/-- The bytes from `i` on that `vfs_write` is given. -/
def dataAt (a : List UInt8) (i size : Nat) : Except TarStop (List UInt8) :=
  if size = 0 ∨ i + size ≤ a.length then .ok ((a.drop i).take size) else .error .outside

def REGTYPE : UInt8 := 48
def AREGTYPE : UInt8 := 0
def DIRTYPE : UInt8 := 53

structure Header where
  name : Name
  size : BitVec 32
  type : UInt8

def endsAt (a : List UInt8) (p : Nat) : Except TarStop Bool := do
  let first ← byteAt a p
  if first ≠ 0 then return false
  else
    let second ← byteAt a (p + 1)
    return second = 0

def readHeader (a : List UInt8) (p : Nat) : Except TarStop Header := do
  let name ← strcatName 100 (a.drop p)
  let size ← tarAtol (a.drop (p + 124)) 12
  let type ← byteAt a (p + 156)
  return ⟨name, .ofInt 32 size, type⟩

namespace TarFs

variable {σ : Type}

/-- The `switch` over the type of the entry with its header at `p`. -/
def extractEntry (fs : TarFs σ) (a : List UInt8) (p : Nat) (type : UInt8) (name : Name) (size : Nat) (s : σ) :
    Except TarStop σ :=
  if type = REGTYPE ∨ type = AREGTYPE then do
    match ← called (fs.create name s) with
    | (none, s) => return s
    | (some f, s) =>
      let data ← dataAt a (p + 512) size
      let s ← called (fs.write f data s)
      called (fs.close f s)
  else if type = DIRTYPE then called (fs.mkdir name s)
  else .ok s

/-- The loop of `extract_tar` from the header at `p` on. -/
def extractFrom (fs : TarFs σ) (a : List UInt8) : Nat → Nat → σ → Except TarStop σ
  | 0, _, _ => .error .fuel
  | fuel + 1, p, s =>
    if ¬ p < a.length then .ok s
    else do
      let ended ← endsAt a p
      if ended then return s
      else
        let h ← readHeader a p
        let s ← fs.extractEntry a p h.type (slash :: h.name) h.size.toNat s
        let p := p + 512
        fs.extractFrom a fuel (if h.size ≠ 0 then p + (roundUp h.size 512).toNat else p) s

/-- `memcmp` compares the first byte only. -/
def extractTar (fs : TarFs σ) (a : List UInt8) (s : σ) : Except TarStop (Int × σ) :=
  if a.length < 500 then .ok (-EINVAL, s)
  else do
    let magic ← byteAt a 257
    if magic ≠ 117 then return (-EINVAL, s)
    else return (0, ← fs.extractFrom a (a.length + 1) 0 s)

end TarFs
end Landaux
