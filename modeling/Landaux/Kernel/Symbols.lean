import Mathlib.Tactic
import Mathlib.Data.List.GetD

/-!
# The symbol table

`find_symbol` of `kernel/syms.c`. What it returns is a pointer into `__ksymtab`, or next to it, and is
given by its distance from the first entry.
-/

namespace Landaux

/-- `symbol_t`, less its type and its name. -/
structure Symbol where
  address : BitVec 64
  deriving DecidableEq

/-- The loop of `find_symbol` from entry `i` on, over `n` entries. -/
def scanSymbols (ksymtab : Nat → Symbol) (address : BitVec 64) (n i : Nat) : Nat :=
  if i < n then
    if address ≤ (ksymtab i).address then i else scanSymbols ksymtab address n (i + 1)
  else i
termination_by n - i

def findSymbol (ksymtab : Nat → Symbol) (numSyms : Nat) (address : BitVec 64) : Int :=
  let i := scanSymbols ksymtab address numSyms 0
  if i = numSyms ∨ address < (ksymtab i).address then i - 1 else i

structure SymbolTable where
  entries : List Symbol
  sorted : entries.Pairwise fun a b => a.address ≤ b.address
  nonempty : entries ≠ []

namespace SymbolTable

/-- The table in memory: the entry after the last one is null. -/
def ksymtab (t : SymbolTable) (i : Nat) : Symbol := t.entries.getD i ⟨0⟩

def numSyms (t : SymbolTable) : Nat := t.entries.length

/-- `r` is an entry of the table, and one with the greatest address up to `address`, if there are such. -/
def Nearest (t : SymbolTable) (address : BitVec 64) (r : Int) : Prop :=
  ∃ i < t.numSyms, r = i ∧
    ∀ j < t.numSyms, (t.ksymtab j).address ≤ address →
      (t.ksymtab i).address ≤ address ∧ (t.ksymtab j).address ≤ (t.ksymtab i).address

variable {t : SymbolTable} {address : BitVec 64} {i j n : Nat}

theorem numSyms_pos (t : SymbolTable) : 0 < t.numSyms := List.length_pos_iff.mpr t.nonempty

theorem ordered (t : SymbolTable) (le : i ≤ j) (inside : j < t.numSyms) :
    (t.ksymtab i).address ≤ (t.ksymtab j).address := by
  unfold numSyms at inside
  unfold ksymtab
  rw [List.getD_eq_getElem _ _ inside, List.getD_eq_getElem _ _ (by omega)]
  rcases Nat.lt_or_eq_of_le le with less | same
  · exact List.pairwise_iff_getElem.mp t.sorted i j _ inside less
  · subst same
    exact BitVec.le_refl _

/-- The scan stops at the first entry that is not below the address, or after the last one. -/
theorem scanSymbols_spec (ksymtab : Nat → Symbol) (address : BitVec 64) (start : i ≤ n) :
    i ≤ scanSymbols ksymtab address n i ∧ scanSymbols ksymtab address n i ≤ n ∧
      (∀ j, i ≤ j → j < scanSymbols ksymtab address n i → (ksymtab j).address < address) ∧
      (scanSymbols ksymtab address n i < n →
        address ≤ (ksymtab (scanSymbols ksymtab address n i)).address) := by
  induction d : n - i generalizing i with
  | zero =>
    rw [scanSymbols, if_neg (by omega)]
    exact ⟨le_rfl, start, fun j low high => by omega, fun inside => by omega⟩
  | succ d ih =>
    rw [scanSymbols, if_pos (by omega)]
    by_cases stops : address ≤ (ksymtab i).address
    · rw [if_pos stops]
      exact ⟨le_rfl, start, fun j low high => by omega, fun _ => stops⟩
    · rw [if_neg stops]
      obtain ⟨low, high, below, stop⟩ := ih (i := i + 1) (by omega) (by omega)
      refine ⟨by omega, high, fun j from' before => ?_, stop⟩
      by_cases here : j = i
      · subst here
        exact BitVec.not_le.mp stops
      · exact below j (by omega) before

/-- The entry returned is the last one that is not above the address, or the first of those at it. -/
theorem findSymbol_spec (t : SymbolTable) (address : BitVec 64) :
    ∃ k ≤ t.numSyms, (∀ j < k, (t.ksymtab j).address < address) ∧
      (∀ j, k ≤ j → j < t.numSyms → address ≤ (t.ksymtab j).address) ∧
      findSymbol t.ksymtab t.numSyms address =
        if k < t.numSyms ∧ (t.ksymtab k).address = address then (k : Int) else k - 1 := by
  obtain ⟨-, high, below, stop⟩ :=
    scanSymbols_spec t.ksymtab address (Nat.zero_le t.numSyms)
  unfold findSymbol
  generalize scanSymbols t.ksymtab address t.numSyms 0 = k at *
  refine ⟨k, high, fun j before => below j (Nat.zero_le j) before, ?_, ?_⟩
  · intro j from' inside
    exact BitVec.le_trans (stop (by omega)) (t.ordered from' inside)
  · dsimp only
    by_cases inside : k < t.numSyms
    · by_cases same : (t.ksymtab k).address = address
      · rw [if_neg, if_pos ⟨inside, same⟩]
        rintro (past | above)
        · omega
        · exact BitVec.lt_irrefl _ (same ▸ above)
      · have above : address < (t.ksymtab k).address :=
          BitVec.lt_of_le_ne (stop inside) (Ne.symm same)
        rw [if_pos (Or.inr above), if_neg fun both => same both.2]
    · rw [if_pos (Or.inl (by omega)), if_neg fun both => inside both.1]

/-- Below the first entry, what is returned lies before the table. -/
theorem findSymbol_before (low : address < (t.ksymtab 0).address) :
    findSymbol t.ksymtab t.numSyms address = -1 := by
  obtain ⟨k, high, below, -, result⟩ := t.findSymbol_spec address
  have first : k = 0 := by
    by_contra later
    exact BitVec.lt_irrefl _ (BitVec.lt_trans low (below 0 (by omega)))
  subst first
  rw [result, if_neg fun both => BitVec.lt_irrefl _ (both.2 ▸ low)]
  rfl

theorem before_not_nearest (low : address < (t.ksymtab 0).address) :
    ¬ t.Nearest address (findSymbol t.ksymtab t.numSyms address) := by
  rintro ⟨i, inside, same, -⟩
  rw [findSymbol_before low] at same
  omega

/-- The entry is in the table, and the right one, unless the address lies below the first entry. -/
theorem find_symbol_iff (t : SymbolTable) (address : BitVec 64) :
    t.Nearest address (findSymbol t.ksymtab t.numSyms address) ↔ (t.ksymtab 0).address ≤ address := by
  have positive := t.numSyms_pos
  constructor
  · intro nearest
    by_contra low
    exact before_not_nearest (BitVec.not_le.mp low) nearest
  · intro first
    obtain ⟨k, high, below, above, result⟩ := t.findSymbol_spec address
    rw [result]
    by_cases found : k < t.numSyms ∧ (t.ksymtab k).address = address
    · rw [if_pos found]
      refine ⟨k, found.1, rfl, fun j _ le => ⟨found.2 ▸ BitVec.le_refl _, ?_⟩⟩
      rw [found.2]
      exact le
    · rw [if_neg found]
      have later : k ≠ 0 := by
        rintro rfl
        exact found ⟨positive, BitVec.le_antisymm first (above 0 le_rfl positive)⟩
      refine ⟨k - 1, by omega, by omega, fun j inside le => ⟨BitVec.le_of_lt (below _ (by omega)), ?_⟩⟩
      apply t.ordered _ (by omega)
      by_contra past
      have same := BitVec.le_antisymm le (above j (by omega) inside)
      refine found ⟨by omega, BitVec.le_antisymm ?_ (above k le_rfl (by omega))⟩
      exact same ▸ t.ordered (by omega) inside

/-- Two symbols of the kernel, and an address of user code. -/
def twoSymbols : SymbolTable := ⟨[⟨0xffffffff80100000⟩, ⟨0xffffffff80100040⟩], by decide, by decide⟩

theorem symbol_before_table : ¬ ∀ (t : SymbolTable) (address : BitVec 64),
    t.Nearest address (findSymbol t.ksymtab t.numSyms address) := by
  intro all
  have low : (0x400000 : BitVec 64) < (twoSymbols.ksymtab 0).address := by decide
  exact before_not_nearest low (all twoSymbols 0x400000)

end SymbolTable
end Landaux
