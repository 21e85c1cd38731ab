import Landaux.Fs.Tar

/-!
# What `extract_tar` reads

The only checks of the loop are that its header starts inside the archive and that the archive is not
ended by two zeros. Everything else that keeps the reads inside of the archive, and the name inside of
its buffer, must be so in the archive.
-/

namespace Landaux
open Lib

variable {σ : Type} {fs : TarFs σ} {a l : List UInt8} {p count : Nat} {s : σ} {acc : Int}

/-! ### The size field -/

/-- The number that octal digits stand for, after `acc`. -/
def octal (acc : Nat) (digits : List UInt8) : Nat := digits.foldl (fun n b => n * 8 + (b.toNat - 48)) acc

theorem OctalDigit.value {b : UInt8} (digit : OctalDigit b) : 48 ≤ b.toNat ∧ b.toNat < 56 :=
  ⟨UInt8.le_iff_toNat_le.mp digit.1, UInt8.lt_iff_toNat_lt.mp digit.2⟩

theorem le_octal (digits : List UInt8) : ∀ acc, acc ≤ octal acc digits := by
  induction digits with
  | nil => exact fun acc => le_rfl
  | cons b digits ih =>
    intro acc
    have more := ih (acc * 8 + (b.toNat - 48))
    change acc ≤ octal (acc * 8 + (b.toNat - 48)) digits
    omega

theorem not_top {b : UInt8} (small : b.toNat < 128) : b &&& 0x80 = 0 := by
  apply UInt8.toNat.inj
  rw [UInt8.toNat_and]
  exact (by decide : ∀ n < 128, n &&& 128 = 0) b.toNat small

def headerAt (a : List UInt8) (p : Nat) : Header where
  name := (a.drop p).takeWhile (· ≠ 0)
  size := .ofInt 32 ((tarAtol (a.drop (p + 124)) 12).toOption.getD 0)
  type := a.getD (p + 156) 0

namespace TarFs

def entryAt (fs : TarFs σ) (a : List UInt8) (p : Nat) (s : σ) : Except TarStop σ :=
  fs.extractEntry a p (headerAt a p).type (slash :: (headerAt a p).name) (headerAt a p).size.toNat s

end TarFs

end Landaux
