import Landaux.Kernel.Process
import Landaux.Mm.FaultSpec
import Landaux.Mm.FreeSpec

/-!
# All address spaces together

Every frame in use is either owned once, as a table, as the page of a task, by the heap or by the
running call, or it is mapped, and then its count is the number of entries that map it.
-/

namespace Landaux
open Lib Radix

def Task.tables (ram : Memory Word) (t : Task) : Multiset Nat := pageTables.tables ram 3 t.pageDir

def Task.leaves (ram : Memory Word) (t : Task) : Multiset (Nat × Word) :=
  pageTables.leaves ram 3 t.pageDir 0

def ownedBy (ram : Memory Word) (ts : List Task) : Multiset Nat :=
  (ts.map fun t => t.tables ram + {t.page}).sum

def mappedBy (ram : Memory Word) (ts : List Task) : Multiset Nat :=
  (ts.map fun t => frames (t.leaves ram)).sum

namespace State

def tasks (s : State) : List Task := s.current :: s.others

def owned (s : State) : Multiset Nat := ownedBy s.ram s.tasks + s.heap

def mapped (s : State) : Multiset Nat := mappedBy s.ram s.tasks

end State

/-- A writable entry maps a frame of its own, in an area that may be written. -/
def WriteOk (s : State) (t : Task) : Prop :=
  ∀ v e, (v, e) ∈ t.leaves s.ram → Pte.writable e = true →
    s.cnt (Pte.frame e) = 1 ∧
      ∃ a ∈ t.areas, a.allows PROT_WRITE = true ∧ a.covers (v * PAGE_SIZE) = true

/-- `static` is the directory that the kernel was linked with, and `extra` are the frames that the
running call has in hand. -/
structure Holds (static : Nat) (extra : Multiset Nat) (s : State) : Prop where
  ready : Ready s
  low : static < s.pmm.firstFrame
  once : (extra + s.owned).Nodup
  cnt : ∀ f, s.cnt f + (if f = static then 1 else 0) =
    (((extra + s.owned).count f + s.mapped.count f : Nat) : Int)
  apart : Disjoint (extra + s.owned) s.mapped
  root : ∃ t ∈ s.tasks, t.pageDir = static
  first : ∀ t ∈ s.tasks, t.pageDir = static → t.pid = 1
  write : ∀ t ∈ s.tasks, WriteOk s t
  areas : ∀ t ∈ s.tasks, AreasOk t.areas

variable {static f : Nat} {extra extra' : Multiset Nat} {s s' t : State} {ram ram' : Memory Word}
  {ts : List Task} {p : Task}

/-! ### Sums over tasks -/

@[simp] theorem ownedBy_cons : ownedBy ram (p :: ts) = p.tables ram + {p.page} + ownedBy ram ts := by
  simp [ownedBy]

@[simp] theorem mappedBy_cons : mappedBy ram (p :: ts) = frames (p.leaves ram) + mappedBy ram ts := by
  simp [mappedBy]

theorem mem_ownedBy : f ∈ ownedBy ram ts ↔ ∃ p ∈ ts, f ∈ p.tables ram ∨ f = p.page := by
  induction ts with
  | nil => simp [ownedBy]
  | cons p ts ih => simp [ih]

theorem mem_mappedBy : f ∈ mappedBy ram ts ↔ ∃ p ∈ ts, f ∈ frames (p.leaves ram) := by
  induction ts with
  | nil => simp [mappedBy]
  | cons p ts ih => simp [ih]

theorem ownedBy_perm {us : List Task} (same : ts.Perm us) : ownedBy ram ts = ownedBy ram us :=
  (same.map _).sum_eq

theorem mappedBy_perm {us : List Task} (same : ts.Perm us) : mappedBy ram ts = mappedBy ram us :=
  (same.map _).sum_eq

theorem Task.tables_congr (same : ∀ u ∈ p.tables ram, ram' u = ram u) :
    p.tables ram' = p.tables ram := Radix.tables_congr same

theorem Task.leaves_congr (same : ∀ u ∈ p.tables ram, ram' u = ram u) :
    p.leaves ram' = p.leaves ram := Radix.leaves_congr same

theorem ownedBy_congr (same : ∀ p ∈ ts, ∀ u ∈ p.tables ram, ram' u = ram u) :
    ownedBy ram' ts = ownedBy ram ts := by
  unfold ownedBy
  rw [List.map_congr_left fun p member => by rw [Task.tables_congr (same p member)]]

theorem mappedBy_congr (same : ∀ p ∈ ts, ∀ u ∈ p.tables ram, ram' u = ram u) :
    mappedBy ram' ts = mappedBy ram ts := by
  unfold mappedBy
  rw [List.map_congr_left fun p member => by rw [Task.leaves_congr (same p member)]]

theorem owned_eq : s.owned =
    s.current.tables s.ram + {s.current.page} + ownedBy s.ram s.others + s.heap := by
  unfold State.owned State.tasks
  rw [ownedBy_cons]

theorem mapped_eq : s.mapped = frames (s.current.leaves s.ram) + mappedBy s.ram s.others := by
  unfold State.mapped State.tasks
  rw [mappedBy_cons]

/-! ### What the invariant says of one frame -/

namespace Holds

theorem root_owned (h : Holds static extra s) : static ∈ s.owned := by
  obtain ⟨p, member, rfl⟩ := h.root
  unfold State.owned
  rw [Multiset.mem_add, mem_ownedBy]
  exact Or.inl ⟨p, member, Or.inl mem_tables_self⟩

theorem busy_owned (h : Holds static extra s) (member : f ∈ extra + s.owned) : s.Busy f := by
  by_cases root : f = static
  · right
    rw [root]
    exact h.low
  · left
    have cnt := h.cnt f
    have positive := Multiset.count_pos.mpr member
    rw [if_neg root] at cnt
    omega

theorem mapped_root (h : Holds static extra s) (member : f ∈ s.mapped) : f ≠ static := by
  rintro rfl
  exact Multiset.disjoint_left.mp h.apart
    (Multiset.mem_add.mpr (Or.inr h.root_owned)) member

theorem cnt_mapped (h : Holds static extra s) (member : f ∈ s.mapped) :
    s.cnt f = s.mapped.count f := by
  have cnt := h.cnt f
  rw [if_neg (h.mapped_root member), Multiset.count_eq_zero_of_notMem
    (fun clash => Multiset.disjoint_left.mp h.apart clash member)] at cnt
  omega

theorem counted (h : Holds static extra s) (member : f ∈ s.mapped) : 0 < s.cnt f := by
  have positive := Multiset.count_pos.mpr member
  rw [h.cnt_mapped member]
  omega

theorem busy_mapped (h : Holds static extra s) (member : f ∈ s.mapped) : s.Busy f :=
  Or.inl (h.counted member)

theorem cnt_owned (h : Holds static extra s) (member : f ∈ extra + s.owned) (notRoot : f ≠ static) :
    s.cnt f = 1 := by
  have cnt := h.cnt f
  rw [if_neg notRoot, Multiset.count_eq_one_of_mem h.once member, Multiset.count_eq_zero_of_notMem
    (Multiset.disjoint_left.mp h.apart member)] at cnt
  omega

theorem extra_root (h : Holds static extra s) (member : f ∈ extra) : f ≠ static := by
  rintro rfl
  exact Multiset.disjoint_left.mp (Multiset.nodup_add.mp h.once).2.2 member h.root_owned

theorem tree (h : Holds static extra s) (member : p ∈ s.tasks) : Tree s p.pageDir := by
  refine ⟨?_, fun u inTree => h.busy_owned (Multiset.mem_add.mpr (Or.inr ?_))⟩
  · have owned := (Multiset.nodup_add.mp h.once).2.1
    obtain ⟨before, after, split⟩ := List.mem_iff_append.mp member
    have perm : s.tasks.Perm (p :: (before ++ after)) := split ▸ List.perm_middle
    unfold State.owned at owned
    rw [ownedBy_perm perm, ownedBy_cons] at owned
    exact (Multiset.nodup_add.mp (Multiset.nodup_add.mp (Multiset.nodup_add.mp owned).1).1).1
  · unfold State.owned
    exact Multiset.mem_add.mpr (Or.inl (mem_ownedBy.mpr ⟨p, member, Or.inl inTree⟩))

/-- The tables of other processes are not those of the running one. -/
theorem other_tables (h : Holds static extra s) (member : p ∈ s.others) (inTree : f ∈ p.tables s.ram) :
    f ∉ s.current.tables s.ram := by
  intro clash
  have owned := (Multiset.nodup_add.mp h.once).2.1
  rw [owned_eq, add_assoc, add_assoc, Multiset.nodup_add] at owned
  refine Multiset.disjoint_left.mp owned.2.2 clash ?_
  simp only [Multiset.mem_add]
  exact Or.inr (Or.inl (mem_ownedBy.mpr ⟨p, member, Or.inl inTree⟩))

theorem current_mem : s.current ∈ s.tasks := List.mem_cons_self

theorem tables_owned (member : p ∈ s.tasks) (inTree : f ∈ p.tables s.ram) : f ∈ s.owned := by
  unfold State.owned
  exact Multiset.mem_add.mpr (Or.inl (mem_ownedBy.mpr ⟨p, member, Or.inl inTree⟩))

theorem frames_mapped (member : p ∈ s.tasks) (inLeaves : f ∈ frames (p.leaves s.ram)) :
    f ∈ s.mapped := by
  unfold State.mapped
  exact mem_mappedBy.mpr ⟨p, member, inLeaves⟩

end Holds

end Landaux
