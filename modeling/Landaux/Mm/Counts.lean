import Landaux.Mm.PmmRuns
import Landaux.Mm.AddressSpace

/-!
# Page counts

What the three primitives that touch `pages` do to the counts: an allocation takes a frame of count 0
and leaves it at 1, a free takes one of count 1, and in between callers add to positive counts.
-/

namespace Landaux
open Lib

namespace Pmm

/-- Frames that can still be allocated. -/
def State.room (s : State) : Nat := s.frames - s.bitmap.ones (8 * s.bitmapSize)

variable {s : State} {k : Nat}

theorem Inv.ones_le (inv : Inv s) : s.bitmap.ones (8 * s.bitmapSize) ≤ s.frames := by
  unfold Bitmap.ones
  refine le_trans (Finset.card_le_card (t := Finset.range s.frames) fun k member => ?_)
    (by rw [Finset.card_range])
  obtain ⟨below, on⟩ := Finset.mem_filter.mp member
  rw [Finset.mem_range] at below ⊢
  by_contra past
  rw [inv.tail k (by omega) below] at on
  cases on

theorem room_full (full : ∀ k, k < s.frames → s.bitmap.bit k = true) : s.room = 0 := by
  have all : s.frames ≤ s.bitmap.ones (8 * s.bitmapSize) := by
    unfold Bitmap.ones
    refine le_trans (by rw [Finset.card_range]) (Finset.card_le_card
      (s := Finset.range s.frames) fun k member => ?_)
    rw [Finset.mem_range] at member
    have le := s.frames_le
    exact Finset.mem_filter.mpr ⟨Finset.mem_range.mpr (by omega), full k member⟩
  unfold State.room
  omega

theorem room_taken {pages : Option Pages} (inv : Inv (s.taken k pages)) (inside : k < s.frames)
    (off : s.bitmap.bit k = false) : s.room = (s.taken k pages).room + 1 := by
  have more := Bitmap.ones_set (Nat.lt_of_lt_of_le inside s.frames_le) off (s.taken_bit k pages)
  have le := inv.ones_le
  unfold State.room
  change (s.taken k pages).bitmap.ones (8 * s.bitmapSize) ≤ s.frames at le
  change s.frames - _ = s.frames - (s.taken k pages).bitmap.ones (8 * s.bitmapSize) + 1
  omega

theorem room_given {pages : Option Pages} (inside : k < s.frames) (on : s.bitmap.bit k = true) :
    s.room ≤ (s.given k pages).room := by
  have fewer := Bitmap.ones_clear (Nat.lt_of_lt_of_le inside s.frames_le) on (s.given_bit k pages)
  unfold State.room
  change s.frames - _ ≤ s.frames - (s.given k pages).bitmap.ones (8 * s.bitmapSize)
  omega

end Pmm

namespace State

def cnt (s : State) (frame : Nat) : Int :=
  match s.pmm.pages with
  | some p => p.count frame
  | none => 0

def room (s : State) : Nat := s.pmm.room

theorem cnt_eq {s : State} {p : Pmm.Pages} (pages : s.pmm.pages = some p) (f : Nat) :
    s.cnt f = p.count f := by
  unfold cnt
  rw [pages]

/-- A frame that the allocator will not hand out: it is counted, or lies below its frames. -/
def Busy (s : State) (frame : Nat) : Prop := 0 < s.cnt frame ∨ frame < s.pmm.firstFrame

end State

/-- The allocator in order: `init_mm` has run, and memory is within the gigabyte that `map_memory`
accepts. -/
structure Ready (s : State) : Prop where
  inv : Pmm.Inv s.pmm
  pages : s.pmm.pages.isSome = true
  positive : 0 < s.pmm.firstFrame
  small : s.pmm.firstFrame + s.pmm.frames ≤ 2 ^ 18
  nonneg : ∀ f, 0 ≤ s.cnt f

/-- The tasks, and what belongs to none of them, are as they were. -/
structure SameTasks (s s' : State) : Prop where
  current : s'.current = s.current
  others : s'.others = s.others
  nextFreePid : s'.nextFreePid = s.nextFreePid
  heap : s'.heap = s.heap
  firstFrame : s'.pmm.firstFrame = s.pmm.firstFrame

theorem SameTasks.refl (s : State) : SameTasks s s := ⟨rfl, rfl, rfl, rfl, rfl⟩

theorem SameTasks.trans {s t u : State} (h : SameTasks s t) (k : SameTasks t u) : SameTasks s u :=
  ⟨k.current.trans h.current, k.others.trans h.others, k.nextFreePid.trans h.nextFreePid,
    k.heap.trans h.heap, k.firstFrame.trans h.firstFrame⟩

variable {s s' : State} {f : Nat}

theorem Ready.some_pages (ready : Ready s) : ∃ p, s.pmm.pages = some p :=
  Option.isSome_iff_exists.mp ready.pages

theorem Ready.cnt_outside (ready : Ready s)
    (outside : f < s.pmm.firstFrame ∨ s.pmm.firstFrame + s.pmm.frames ≤ f) : s.cnt f = 0 := by
  obtain ⟨p, pages⟩ := ready.some_pages
  rw [State.cnt_eq pages]
  exact (ready.inv.pages p pages).outside f outside

/-- A counted frame is one of the allocator's. -/
theorem Ready.counted (ready : Ready s) (count : s.cnt f ≠ 0) :
    s.pmm.firstFrame ≤ f ∧ f < 2 ^ 18 := by
  have small := ready.small
  by_contra out
  exact count (ready.cnt_outside (by omega))

theorem Ready.count_eq (ready : Ready s) (count : s.cnt f ≠ 0) : s.count f = some (s.cnt f) := by
  obtain ⟨p, pages⟩ := ready.some_pages
  rw [State.cnt_eq pages] at count ⊢
  unfold State.count
  rw [pages]
  obtain ⟨k, rfl, inside, -⟩ := ready.inv.counted pages count
  have covers := (ready.inv.pages p pages).covers
  dsimp only
  rw [if_pos (by omega)]

theorem cnt_set {p : Pmm.Pages} {amount : Int} (pages : s.pmm.pages = some p)
    (pages' : s'.pmm.pages = some (p.set f (p.count f + amount))) (g : Nat) :
    s'.cnt g = s.cnt g + if g = f then amount else 0 := by
  rw [State.cnt_eq pages, State.cnt_eq pages']
  change (if g = f then _ else p.count g) = _
  by_cases same : g = f
  · rw [if_pos same, if_pos same, same]
  · rw [if_neg same, if_neg same, add_zero]

/-! ### Allocation -/

structure Taken (s : State) (f : Nat) (s' : State) : Prop where
  ready : Ready s'
  same : SameTasks s s'
  ram : s'.ram = s.ram
  tlb : s'.tlb = s.tlb
  fresh : ¬ s.Busy f
  cnt : ∀ g, s'.cnt g = s.cnt g + if g = f then 1 else 0
  room : s.room = s'.room + 1
  small : f < 2 ^ 18

/-- `alloc_page` succeeds when there is room and returns NULL otherwise. -/
theorem allocPage_spec (ready : Ready s) : Ends (allocPage s)
    (fun r => (r.1 = 0 ∧ r.2 = s ∧ s.room = 0) ∨ (r.1 ≠ 0 ∧ Taken s r.1 r.2)) (fun _ => False) := by
  have inv := ready.inv
  have positive := ready.positive
  obtain ⟨p, pages⟩ := ready.some_pages
  unfold allocPage
  rcases inv.alloc with ⟨full, eq⟩ | ⟨k, pages', inside, off, before, eq, shape⟩
  · rw [eq]
    exact Or.inl ⟨rfl, rfl, Pmm.room_full full⟩
  · rw [eq]
    have taken := Pmm.step_inv inv (.alloc eq)
    obtain ⟨rfl⟩ : pages' = some (p.set (s.pmm.firstFrame + k) 1) := by
      rcases shape with ⟨none, -⟩ | ⟨q, some, rfl⟩
      · rw [pages] at none
        cases none
      · rw [pages] at some
        rw [Option.some.inj some]
    have zero : p.count (s.pmm.firstFrame + k) = 0 := (inv.pages p pages).clear k inside off
    refine Or.inr ⟨by dsimp only; omega, ?_⟩
    have counts : ∀ g, State.cnt { s with pmm := s.pmm.taken k (some (p.set (s.pmm.firstFrame + k) 1)) } g =
        s.cnt g + if g = s.pmm.firstFrame + k then 1 else 0 :=
      cnt_set pages (by rw [zero]; rfl)
    refine ⟨⟨taken, rfl, positive, ready.small, fun g => ?_⟩, ⟨rfl, rfl, rfl, rfl, rfl⟩, rfl, rfl, ?_,
      counts, ?_, ?_⟩
    · have := ready.nonneg g
      rw [counts]
      split <;> omega
    · rintro (counted | low)
      · rw [State.cnt_eq pages, zero] at counted
        omega
      · dsimp only at low
        omega
    · exact Pmm.room_taken taken inside off
    · have small := ready.small
      dsimp only
      omega

/-! ### The other two -/

/-- `s'` is `s` with `amount` added to the count of `f`. -/
structure Counted (s : State) (f : Nat) (amount : Int) (s' : State) : Prop where
  ready : Ready s'
  same : SameTasks s s'
  ram : s'.ram = s.ram
  tlb : s'.tlb = s.tlb
  cnt : ∀ g, s'.cnt g = s.cnt g + if g = f then amount else 0
  room : s.room ≤ s'.room

theorem freePage_spec (ready : Ready s) (last : s.cnt f = 1) :
    Ends (freePage f s) (Counted s f (-1)) (fun _ => False) := by
  obtain ⟨p, pages⟩ := ready.some_pages
  rw [State.cnt_eq pages] at last
  obtain ⟨k, rfl, inside, on, notOwn, eq⟩ := ready.inv.free pages last
  have given := Pmm.given_inv ready.inv pages inside on notOwn
  unfold freePage
  rw [eq]
  have counts : ∀ g, State.cnt { s with pmm := s.pmm.given k (some (p.set (s.pmm.firstFrame + k) 0)) } g =
      s.cnt g + if g = s.pmm.firstFrame + k then -1 else 0 :=
    cnt_set pages (by rw [last]; rfl)
  refine ⟨⟨given, rfl, ready.positive, ready.small, fun g => ?_⟩, ⟨rfl, rfl, rfl, rfl, rfl⟩, rfl, rfl,
    counts, ?_⟩
  · have := ready.nonneg g
    rw [counts]
    split
    · rename_i same
      rw [same, State.cnt_eq pages, last]
      omega
    · omega
  · exact Pmm.room_given inside on

theorem addCount_spec (amount : Int) (ready : Ready s) (before : 0 < s.cnt f)
    (after : 0 ≤ s.cnt f + amount) : Counted s f amount (s.addCount f amount) := by
  obtain ⟨p, pages⟩ := ready.some_pages
  rw [State.cnt_eq pages] at before after
  have set := Pmm.setCount_inv (p.count f + amount) ready.inv pages before
  have eq : s.addCount f amount =
      { s with pmm := { s.pmm with pages := some (p.set f (p.count f + amount)) } } := by
    unfold State.addCount
    rw [pages]
    rfl
  have counts : ∀ g, (s.addCount f amount).cnt g = s.cnt g + if g = f then amount else 0 :=
    cnt_set pages (by rw [eq])
  have nonneg : ∀ g, 0 ≤ (s.addCount f amount).cnt g := by
    intro g
    have := ready.nonneg g
    rw [counts]
    split
    · rename_i same
      rw [same, State.cnt_eq pages]
      exact after
    · omega
  rw [eq] at counts nonneg ⊢
  exact ⟨⟨set, rfl, ready.positive, ready.small, nonneg⟩, ⟨rfl, rfl, rfl, rfl, rfl⟩, rfl, rfl, counts,
    le_rfl⟩

end Landaux
