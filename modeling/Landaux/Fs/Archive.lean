import Landaux.Fs.TarBounds
import Landaux.Fs.Components
import Mathlib.Tactic.IntervalCases

/-!
# Well-formed archives

What a ustar archive of directories and files looks like, and what the loop of `extract_tar` takes from
the headers of one.
-/

namespace Landaux
open Lib

inductive TarEntry where
  | dir (path : Name)
  | file (path : Name) (bytes : List UInt8)

namespace TarEntry

def path : TarEntry → Name
  | dir path | file path _ => path

def kind : TarEntry → Kind
  | dir _ => .dir
  | file _ _ => .file

/-- Where the entry goes in the tree. -/
def place (e : TarEntry) : List Name := components e.path

end TarEntry

variable {a block rest digits l : List UInt8} {path : Name} {n p : Nat} {type c : UInt8}

/-- Twelve bytes with an octal number: blanks, digits, and a zero or a space unless there are twelve digits. -/
structure OctalField (field : List UInt8) (n : Nat) : Prop where
  length : field.length = 12
  number : ∃ blanks digits pad, field = blanks ++ (digits ++ pad) ∧ (∀ b ∈ blanks, BlankByte b) ∧ digits ≠ [] ∧
    (∀ b ∈ digits, OctalDigit b) ∧ octal 0 digits = n ∧
    (pad.head? = some 0 ∨ pad.head? = some 32 ∨ digits.length = 12)

/-- A header of a ustar archive. The name ends in a zero, and the `prefix` is empty. -/
structure HeaderFor (block : List UInt8) (path : Name) (size : Nat) (type : UInt8) : Prop where
  length : block.length = 512
  name : ∃ pad, block.take 100 = path ++ 0 :: pad
  plain : 0 ∉ path
  size : OctalField ((block.drop 124).take 12) size
  type : block[156]? = some type
  magic : (block.drop 257).take 5 = [117, 115, 116, 97, 114]
  empty : block[345]? = some 0

def padding (n : Nat) : Nat := (n + 511) / 512 * 512 - n

/-- An archive of entries, which ends with a block of zeros or with its last entry. -/
inductive Ustar : List TarEntry → List UInt8 → Prop where
  | ended : Ustar [] []
  | zeros (rest : List UInt8) : Ustar [] (List.replicate 512 0 ++ rest)
  | dir {path : Name} {block : List UInt8} {es : List TarEntry} {rest : List UInt8}
      (header : HeaderFor block path 0 DIRTYPE) (more : Ustar es rest) : Ustar (.dir path :: es) (block ++ rest)
  | file {path : Name} {bytes block pad : List UInt8} {type : UInt8} {es : List TarEntry} {rest : List UInt8}
      (regular : type = REGTYPE ∨ type = AREGTYPE) (header : HeaderFor block path bytes.length type)
      (padded : pad.length = padding bytes.length) (more : Ustar es rest) :
      Ustar (.file path bytes :: es) (block ++ (bytes ++ (pad ++ rest)))

/-! ### Numbers are read -/

theorem octalFrom_digits (digits : List UInt8) : ∀ (count acc : Nat), (∀ b ∈ digits, OctalDigit b) →
    digits.length ≤ count → octal acc digits < 2 ^ 31 → ¬ (OctalDigit c ∧ digits.length < count) →
    octalFrom (digits ++ c :: rest) count acc = .ok (octal acc digits : Nat) := by
  induction digits with
  | nil =>
    intro count acc _ _ _ ends
    rw [List.nil_append, octalFrom]
    exact if_neg ends
  | cons b digits ih =>
    intro count acc all length small ends
    rw [List.length_cons] at length ends
    have digit := all b List.mem_cons_self
    have value := digit.value
    have least : acc * 8 + (b.toNat - 48) ≤ octal acc (b :: digits) := le_octal digits _
    have step : (acc : Int) * 8 + ((b.toNat : Int) - 48) = (acc * 8 + (b.toNat - 48) : Nat) := by
      push_cast
      omega
    rw [List.cons_append, octalFrom, if_pos ⟨digit, by omega⟩]
    dsimp only
    unfold max_int64
    rw [if_neg (by omega), step]
    refine ih (count - 1) _ (fun b member => all b (List.mem_cons_of_mem _ member)) (by omega) small ?_
    rintro ⟨digit, more⟩
    exact ends ⟨digit, by omega⟩

theorem tarAtol_octal (field : OctalField l n) (small : n < 2 ^ 31) : tarAtol (l ++ c :: rest) 12 = .ok (n : Int) := by
  obtain ⟨length, blanks, digits, pad, rfl, blank, nonempty, all, rfl, ends⟩ := field
  obtain ⟨b, digits, rfl⟩ := List.exists_cons_of_ne_nil nonempty
  have digit := all b List.mem_cons_self
  have value := digit.value
  have notBlank : ¬ BlankByte b := by
    rintro (rfl | rfl)
    · exact absurd value (by decide)
    · exact absurd value (by decide)
  -- the first byte does not have its top bit set
  have low : ∀ x m, blanks ++ (b :: digits ++ pad) ++ c :: rest = x :: m → x &&& 0x80 = 0 := by
    intro x m eq
    apply not_top
    cases blanks with
    | nil =>
      obtain ⟨rfl, -⟩ := List.cons.inj eq
      omega
    | cons y blanks =>
      obtain ⟨rfl, -⟩ := List.cons.inj eq
      rcases blank y List.mem_cons_self with rfl | rfl
      · decide
      · decide
  have skip : (blanks ++ (b :: digits ++ pad) ++ c :: rest).dropWhile (BlankByte ·) =
      b :: (digits ++ (pad ++ c :: rest)) := by
    rw [List.append_assoc, List.dropWhile_append_of_pos (fun y member => decide_eq_true (blank y member)),
      List.append_assoc, List.cons_append, List.dropWhile_cons_of_neg (by simpa using notBlank)]
  unfold tarAtol
  cases whole : blanks ++ (b :: digits ++ pad) ++ c :: rest with
  | nil => simp at whole
  | cons x m =>
    dsimp only
    rw [if_neg (not_not.mpr (low x m whole)), ← whole]
    unfold tarAtol8
    rw [skip]
    dsimp only
    have minus : b ≠ 45 := by
      rintro rfl
      exact absurd value (by decide)
    rw [if_neg minus]
    rw [List.length_append, List.length_append, List.length_cons] at length
    have number : ∀ c' rest', pad ++ c :: rest = c' :: rest' → ¬ (OctalDigit c' ∧ (b :: digits).length < 12) →
        octalFrom (b :: (digits ++ (pad ++ c :: rest))) 12 0 = .ok (octal 0 (b :: digits) : Nat) := by
      intro c' rest' eq stops
      rw [eq, ← List.cons_append]
      refine octalFrom_digits (b :: digits) 12 0 all ?_ small stops
      rw [List.length_cons]
      omega
    cases pad with
    | nil =>
      refine number c rest rfl fun more => ?_
      rcases ends with ends | ends | full
      · cases ends
      · cases ends
      · omega
    | cons y pad =>
      refine number y (pad ++ c :: rest) rfl ?_
      rintro ⟨digit, more⟩
      rcases ends with ends | ends | full
      · rw [Option.some.inj ends] at digit
        exact absurd digit (by decide)
      · rw [Option.some.inj ends] at digit
        exact absurd digit (by decide)
      · omega

theorem roundUp_toNat (small : n < 2 ^ 31) : (roundUp (BitVec.ofNat 32 n) 512).toNat = (n + 511) / 512 * 512 := by
  have mask : ~~~((512 : BitVec 32) - 1) = ~~~(BitVec.ofNat 32 (2 ^ 9 - 1)) := by decide
  have whole : BitVec.ofNat 32 n + 512 - 1 = BitVec.ofNat 32 (n + 511) := by
    bv_omega
  unfold roundUp
  rw [whole, mask]
  have bits : BitVec.ofNat 32 (n + 511) &&& ~~~(BitVec.ofNat 32 (2 ^ 9 - 1)) =
      (BitVec.ofNat 32 (n + 511) >>> 9) <<< 9 := by
    apply BitVec.eq_of_getLsbD_eq
    intro i below
    simp only [BitVec.getLsbD_and, BitVec.getLsbD_not, BitVec.getLsbD_ofNat, BitVec.getLsbD_shiftLeft,
      BitVec.getLsbD_ushiftRight, Nat.testBit_two_pow_sub_one, below, decide_true, Bool.true_and]
    by_cases low : i < 9
    · simp [low]
    · simp [low, show 9 + (i - 9) = i by omega, below]
  rw [bits]
  simp only [BitVec.toNat_shiftLeft, BitVec.toNat_ushiftRight, BitVec.toNat_ofNat, Nat.shiftRight_eq_div_pow,
    Nat.shiftLeft_eq]
  omega

theorem strcatName_name (path : Name) : ∀ room, 0 ∉ path → path.length < room →
    strcatName room (path ++ 0 :: l) = .ok path := by
  induction path with
  | nil =>
    intro room _ more
    obtain ⟨room, rfl⟩ : ∃ k, room = k + 1 := ⟨room - 1, by omega⟩
    exact if_pos rfl
  | cons b path ih =>
    intro room plain more
    rw [List.length_cons] at more
    obtain ⟨room, rfl⟩ : ∃ k, room = k + 1 := ⟨room - 1, by omega⟩
    have nonzero : b ≠ 0 := fun zero => plain (zero ▸ List.mem_cons_self)
    rw [List.cons_append, strcatName, if_neg nonzero,
      ih room (fun member => plain (List.mem_cons_of_mem _ member)) (by omega)]
    rfl

/-! ### Headers are read -/

namespace HeaderFor

variable {size : Nat}

theorem path_short (header : HeaderFor block path size type) : path.length < 100 := by
  obtain ⟨pad, eq⟩ := header.name
  have lengths := congrArg List.length eq
  rw [List.length_take, header.length, List.length_append, List.length_cons] at lengths
  omega

theorem goes_on (header : HeaderFor block path size type) (named : path ≠ []) (here : a.drop p = block ++ rest) :
    endsAt a p = .ok false := by
  obtain ⟨pad, eq⟩ := header.name
  obtain ⟨b, path, rfl⟩ := List.exists_cons_of_ne_nil named
  have first : a[p]? = some b := by
    have zeroth := congrArg (fun l => l[0]?) here
    have start := congrArg (fun l => l[0]?) eq
    rw [List.getElem?_drop, Nat.add_zero, List.getElem?_append_left (by rw [header.length]; decide)] at zeroth
    rw [List.getElem?_take_of_lt (by decide)] at start
    rw [zeroth, start]
    rfl
  have nonzero : b ≠ 0 := fun zero => header.plain (zero ▸ List.mem_cons_self)
  unfold endsAt byteAt
  rw [first]
  exact if_pos nonzero

theorem reads (header : HeaderFor block path size type) (small : size < 2 ^ 31) (here : a.drop p = block ++ rest) :
    readHeader a p = .ok ⟨path, .ofNat 32 size, type⟩ := by
  obtain ⟨pad, eq⟩ := header.name
  have length := header.length
  have parts : block = path ++ 0 :: pad ++ block.drop 100 := by
    rw [← eq, List.take_append_drop]
  have name : a.drop p = path ++ 0 :: (pad ++ (block.drop 100 ++ rest)) := by
    rw [here]
    conv_lhs => rw [parts]
    simp
  have inner : a.drop (p + 124) = (block.drop 124).take 12 ++ ((block.drop 124).drop 12 ++ rest) := by
    rw [← List.drop_drop, here, List.drop_append_of_le_length (by omega), ← List.append_assoc, List.take_append_drop]
  obtain ⟨c, more, next⟩ : ∃ c more, (block.drop 124).drop 12 ++ rest = c :: more := by
    refine List.exists_cons_of_ne_nil fun none => ?_
    have lengths := congrArg List.length (List.append_eq_nil_iff.mp none).1
    rw [List.length_drop, List.length_drop, length] at lengths
    exact absurd lengths (by decide)
  have typed : a[p + 156]? = some type := by
    have byte := congrArg (fun l => l[156]?) here
    rw [List.getElem?_drop, List.getElem?_append_left (by omega), header.type] at byte
    exact byte
  unfold readHeader
  rw [name, strcatName_name path 100 header.plain header.path_short, inner, next, tarAtol_octal header.size small]
  unfold byteAt
  rw [typed]
  change Except.ok (⟨path, BitVec.ofInt 32 (size : Int), type⟩ : Header) = _
  rw [BitVec.ofInt_natCast]

end HeaderFor

end Landaux
