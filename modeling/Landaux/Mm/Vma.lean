import Landaux.Mem
import Landaux.Lib.Outcome

/-!
# Areas of an address space

`vm_area_t` and the part of `mm.c` that works on the list `mm.vm_areas`. A file is a number: the
address of its `file_t`.
-/

namespace Landaux
open Lib

def PROT_READ : BitVec 32 := 0x1
def PROT_WRITE : BitVec 32 := 0x2
def PROT_EXEC : BitVec 32 := 0x4

def ENOEXEC : Int := 8
def ENOMEM : Int := 12

abbrev FileId := Nat

structure Area where
  start : Nat
  «end» : Nat
  prot : BitVec 32
  file : Option FileId
  offset : Nat
  deriving DecidableEq

/-- `area->prot & bits` as a condition. -/
def Area.allows (a : Area) (bits : BitVec 32) : Bool := a.prot &&& bits != 0

def Area.covers (a : Area) (address : Nat) : Bool :=
  decide (a.start ≤ address ∧ address < roundPageUp a.end)

theorem Area.covers_iff {a : Area} {address : Nat} :
    a.covers address = true ↔ a.start ≤ address ∧ address < roundPageUp a.end := decide_eq_true_iff

/-- The loop of `mm_add_area` and the insertion before the area it stops at. -/
def insertArea (new : Area) : List Area → Except Stop (List Area)
  | [] => .ok [new]
  | a :: rest =>
    if new.start = a.start then .error .area
    else if new.start < a.start then .ok (new :: a :: rest)
    else (insertArea new rest).map (a :: ·)

/-- `mm_add_area`; `alloc` is whether `kzalloc` succeeds. -/
def mmAddArea (alloc : Bool) (start size : Nat) (prot : BitVec 32) (file : Option FileId)
    (offset : Nat) (areas : List Area) : Except Stop (Int × List Area) := do
  let longer ← insertArea ⟨start, start + size, prot, file, offset⟩ areas
  if alloc then return (0, longer) else return (-ENOMEM, areas)

def mmFindArea (areas : List Area) (address : Nat) : Option Area :=
  areas.find? fun a => a.covers address

theorem mmFindArea_mem {areas : List Area} {address : Nat} {a : Area}
    (found : mmFindArea areas address = some a) : a ∈ areas ∧ a.covers address = true := by
  unfold mmFindArea at found
  exact ⟨List.mem_of_find?_eq_some found, by simpa using List.find?_some found⟩

/-- Areas as the program loader makes them: they start at a page, and end below 2^48. -/
def AreasOk (areas : List Area) : Prop := ∀ a ∈ areas, a.start % PAGE_SIZE = 0 ∧ a.end ≤ 2 ^ 48

theorem insertArea_spec {new : Area} {areas : List Area} : Ends (insertArea new areas)
    (fun longer => ∀ a, a ∈ longer ↔ a = new ∨ a ∈ areas) (fun e => e = .area) := by
  induction areas with
  | nil => exact fun a => by simp
  | cons first rest ih =>
    rw [insertArea]
    by_cases same : new.start = first.start
    · rw [if_pos same]
      rfl
    rw [if_neg same]
    by_cases before : new.start < first.start
    · rw [if_pos before]
      exact fun a => by simp
    rw [if_neg before]
    refine Ends.bind ih fun list members a => ?_
    rw [List.mem_cons, members, List.mem_cons]
    tauto

def Sorted (areas : List Area) : Prop := areas.Pairwise fun a b => a.start < b.start

theorem Sorted.eq_of_perm {areas others : List Area} (sorted : Sorted areas) (sorted' : Sorted others)
    (perm : areas.Perm others) : areas = others :=
  perm.eq_of_pairwise (fun a b _ _ before after => absurd before (by omega)) sorted sorted'

theorem insertArea_sorted (new : Area) {areas : List Area} (sorted : Sorted areas) :
    Ends (insertArea new areas)
      (fun longer => longer.Perm (new :: areas) ∧ Sorted longer ∧ ∀ a ∈ areas, a.start ≠ new.start)
      (fun e => e = .area ∧ ∃ a ∈ areas, a.start = new.start) := by
  induction areas with
  | nil => exact ⟨List.Perm.refl _, List.pairwise_singleton _ _, fun a member => absurd member List.not_mem_nil⟩
  | cons first rest ih =>
    obtain ⟨lower, rests⟩ := List.pairwise_cons.mp sorted
    rw [insertArea]
    by_cases same : new.start = first.start
    · rw [if_pos same]
      exact ⟨rfl, first, List.mem_cons_self, same.symm⟩
    rw [if_neg same]
    by_cases before : new.start < first.start
    · rw [if_pos before]
      have above : ∀ a ∈ first :: rest, new.start < a.start := by
        intro a member
        rcases List.mem_cons.mp member with rfl | later
        · exact before
        · exact before.trans (lower a later)
      exact ⟨List.Perm.refl _, List.pairwise_cons.mpr ⟨above, sorted⟩, fun a member => (above a member).ne'⟩
    rw [if_neg before]
    refine Ends.bind ((ih rests).mono (fun _ h => h) ?_) ?_
    · rintro e ⟨rfl, a, member, taken⟩
      exact ⟨rfl, a, List.mem_cons_of_mem _ member, taken⟩
    · rintro longer ⟨perm, ordered, free⟩
      refine ⟨(perm.cons first).trans (List.Perm.swap _ _ _), List.pairwise_cons.mpr ⟨?_, ordered⟩, ?_⟩
      · intro a member
        rcases List.mem_cons.mp (perm.mem_iff.mp member) with rfl | old
        · omega
        · exact lower a old
      · intro a member
        rcases List.mem_cons.mp member with rfl | later
        · exact fun eq => same eq.symm
        · exact free a later

theorem mmAddArea_spec {alloc : Bool} {start size offset : Nat} {prot : BitVec 32}
    {file : Option FileId} {areas : List Area} (ok : AreasOk areas) (aligned : start % PAGE_SIZE = 0)
    (low : start + size ≤ 2 ^ 48) : Ends (mmAddArea alloc start size prot file offset areas)
      (fun r => AreasOk r.2) (fun e => e = .area) := by
  unfold mmAddArea
  refine Ends.bind insertArea_spec fun longer members => ?_
  cases alloc with
  | false => exact ok
  | true =>
    intro a member
    rcases (members a).mp member with rfl | old
    · exact ⟨aligned, low⟩
    · exact ok a old

end Landaux
