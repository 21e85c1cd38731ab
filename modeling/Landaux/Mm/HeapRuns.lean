import Landaux.Mm.HeapTiling
import Landaux.Lib.Machine

/-!
# Runs of the heap

A run interleaves calls of `kmalloc` and `kfree`, the turns of their loops, and stores of the
owners into what they were given. `step_inv` keeps the tiling through each of these.
-/

namespace Landaux.Heap
open Lib Bytes

/-- Where the kernel stands: outside the heap, at the head of a loop, or stopped by `BUG`. -/
inductive Pc where
  | idle
  | malloc (requested n : Nat) (lastFreeNode : Option Nat)
  | free (node : Nat)
  | bug
  deriving DecidableEq

/-- `live` records the allocations returned and not yet freed, each with the size asked for. -/
structure Config (σ : Type) where
  heap : State σ
  pc : Pc
  live : List (Nat × Nat)

inductive Event where
  | kmalloc (size : Nat)
  | kfree (p : Nat)
  | turn
  | store (a : Nat) (v : UInt8)

variable {σ : Type}

def afterTurn (c : Config σ) (requested : Nat) : Turn σ → Config σ
  | .again s n lastFreeNode => { c with heap := s, pc := .malloc requested n lastFreeNode }
  | .done (.ret p) s => { heap := s, pc := .idle, live := (p, requested) :: c.live }
  | .done .null s => { c with heap := s, pc := .idle }
  | .done .bug s => { c with heap := s, pc := .bug }

def afterMark (c : Config σ) (p : Nat) : Config σ :=
  match kfreeMark c.heap.mem (p - NODE) with
  | some mem =>
    { heap := { c.heap with mem }, pc := .free (p - NODE), live := c.live.filter fun e => e.1 ≠ p }
  | none => { c with pc := .bug }

def afterMerge (c : Config σ) (node : Nat) : Config σ :=
  match kfreeTurn c.heap.mem c.heap.heapTop node with
  | some mem => { c with heap := { c.heap with mem } }
  | none => { c with pc := .idle }

inductive Step (ps : PageSource σ) : Config σ → Event → Config σ → Prop where
  | kmalloc {c : Config σ} {size : Nat} (ready : c.pc = .idle) (fits : size ≤ 2 ^ 32 - 8) :
      Step ps c (.kmalloc size) { c with pc := .malloc size HEAP_START none }
  | mallocTurn {c : Config σ} {requested n : Nat} {lastFreeNode : Option Nat}
      (here : c.pc = .malloc requested n lastFreeNode) :
      Step ps c .turn
        (afterTurn c requested (kmallocTurn ps (alignSize requested) c.heap n lastFreeNode))
  | kfreeNull {c : Config σ} (ready : c.pc = .idle) : Step ps c (.kfree 0) c
  | kfree {c : Config σ} {p size : Nat} (ready : c.pc = .idle) (owned : (p, size) ∈ c.live) :
      Step ps c (.kfree p) (afterMark c p)
  | freeTurn {c : Config σ} {node : Nat} (here : c.pc = .free node) :
      Step ps c .turn (afterMerge c node)
  | store {c : Config σ} {p size a : Nat} {v : UInt8} (owned : (p, size) ∈ c.live) (low : p ≤ a)
      (high : a < p + size) :
      Step ps c (.store a v) { c with heap := { c.heap with mem := store8 c.heap.mem a v } }

def Small (c : Config σ) : Prop := c.heap.heapTop < HEAP_START + 2 ^ 31

def SmallStep (ps : PageSource σ) (c : Config σ) (e : Event) (c' : Config σ) : Prop :=
  Step ps c e c' ∧ Small c'

/-! ### The invariant -/

def LastFree (bs : List Block) : Prop := ∃ init b, bs = init ++ [b] ∧ b.used = false

/-- Used blocks and live allocations are the same things. -/
structure LiveOk (bs : List Block) (live : List (Nat × Nat)) : Prop where
  owned : ∀ b ∈ bs, b.used = true → ∃ size, (b.addr + NODE, size) ∈ live
  block : ∀ e ∈ live, ∃ b ∈ bs, b.used = true ∧ b.addr + NODE = e.1 ∧ e.2 ≤ b.size
  nodup : (live.map Prod.fst).Nodup

/-- `last_free_node` is the free block just before `n`, or, after growth, the one at `n`. Where it
is `NULL`, the block before `n` is used. -/
def Marked (bs : List Block) (n : Nat) : Option Nat → Prop
  | none => ∀ b ∈ bs, b.stop = n → b.used = true
  | some f => ∃ b ∈ bs, b.used = false ∧ b.addr = f ∧ (b.stop = n ∨ b.addr = n)

def PcOk (bs : List Block) : Pc → Prop
  | .idle => True
  | .malloc requested n lastFreeNode =>
      requested ≤ 2 ^ 32 - 8 ∧ (∃ pre post, bs = pre ++ post ∧ HEAP_START + span pre = n) ∧
        Marked bs n lastFreeNode
  | .free node => ∃ b ∈ bs, b.used = false ∧ b.addr = node
  | .bug => False

structure Inv (c : Config σ) (bs : List Block) : Prop where
  tiles : Tiles c.heap.mem HEAP_START bs c.heap.heapTop
  last : LastFree bs
  small : Small c
  live : LiveOk bs c.live
  pc : PcOk bs c.pc

/-- A change of memory and blocks that leaves every used block alone. -/
structure Keeps (m m' : Bytes) (bs bs' : List Block) : Prop where
  used : ∀ b, b.used = true → (b ∈ bs' ↔ b ∈ bs)
  bytes : ∀ b ∈ bs, b.used = true → ∀ y, b.addr ≤ y → y < b.stop → m' y = m y

theorem Keeps.refl (m : Bytes) (bs : List Block) : Keeps m m bs bs :=
  ⟨fun _ _ => Iff.rfl, fun _ _ _ _ _ _ => rfl⟩

theorem LiveOk.keeps {m m' : Bytes} {bs bs' : List Block} {live : List (Nat × Nat)}
    (h : LiveOk bs live) (keeps : Keeps m m' bs bs') : LiveOk bs' live := by
  refine ⟨?_, ?_, h.nodup⟩
  · intro b member used
    exact h.owned b ((keeps.used b used).mp member) used
  · intro e member
    obtain ⟨b, inside, used, addr, size⟩ := h.block e member
    exact ⟨b, (keeps.used b used).mpr inside, used, addr, size⟩

/-- Replacing free blocks by free blocks keeps the used ones. -/
theorem keeps_replace {m m' : Bytes} {a top : Nat} {pre : List Block} (old new post : List Block)
    (h : Tiles m a (pre ++ (old ++ post)) top) (oldFree : ∀ b ∈ old, b.used = false)
    (newFree : ∀ b ∈ new, b.used = false)
    (same : ∀ y, y < a + span pre ∨ a + span pre + span old ≤ y → m' y = m y) :
    Keeps m m' (pre ++ (old ++ post)) (pre ++ (new ++ post)) := by
  have notOld : ∀ b : Block, b.used = true → b ∉ old := fun b used member => by
    simp [oldFree b member] at used
  have notNew : ∀ b : Block, b.used = true → b ∉ new := fun b used member => by
    simp [newFree b member] at used
  refine ⟨fun b used => ?_, fun b member used => ?_⟩
  · simp [notOld b used, notNew b used]
  · refine h.replace_frame old ?_ same
    simpa [notOld b used] using member

/-! ### The turns of `kmalloc` -/

theorem alignSize_spec {size : Nat} (fits : size ≤ 2 ^ 32 - 8) :
    size ≤ alignSize size ∧ alignSize size < 2 ^ 32 ∧ alignSize size % 2 = 0 := by
  unfold alignSize
  omega

variable {ps : PageSource σ} {c c' : Config σ} {bs : List Block}

/-- What a turn owes: the invariant with some new blocks, reached without a write into a block
whose allocation stays live. -/
def TurnOk (c : Config σ) (bs : List Block) (c' : Config σ) : Prop :=
  Small c' → ∃ bs', Inv c' bs' ∧ ∀ b ∈ bs, b.used = true → ∀ size, (b.addr + NODE, size) ∈ c'.live →
    ∀ y, b.addr ≤ y → y < b.stop → c'.heap.mem y = c.heap.mem y

theorem LastFree.of_tail {pre post' : List Block} (post : List Block) (h : LastFree (pre ++ post))
    (tail : post ≠ [] → LastFree post → LastFree post') (nonempty : post ≠ []) :
    LastFree (pre ++ post') := by
  obtain ⟨init, b, eq, free⟩ := h
  have last : LastFree post := by
    refine ⟨post.dropLast, post.getLast nonempty, (List.dropLast_append_getLast nonempty).symm, ?_⟩
    have : (pre ++ post).getLast? = some b := by simp [eq]
    rw [List.getLast?_append_of_ne_nil _ nonempty, List.getLast?_eq_some_getLast nonempty] at this
    rw [Option.some.inj this]
    exact free
  obtain ⟨init', b', rfl, free'⟩ := tail nonempty last
  exact ⟨pre ++ init', b', by simp, free'⟩

/-- The walk has reached `heap_top`: the block before it is free, so `last_free_node` is that
block and growing extends it. -/
theorem growTurn_ok {requested n : Nat} {lastFreeNode : Option Nat} (inv : Inv c bs)
    (here : c.pc = .malloc requested n lastFreeNode) (atTop : c.heap.heapTop ≤ n) :
    TurnOk c bs (afterTurn c requested (growTurn ps c.heap n lastFreeNode)) := by
  intro small
  have pcOk := inv.pc
  rw [here] at pcOk
  obtain ⟨fits, ⟨pre, post, eq, place⟩, marked⟩ := pcOk
  have whole := inv.tiles.span_eq
  rw [eq, span_append] at whole
  have top : n = c.heap.heapTop := by omega
  subst top
  obtain ⟨init, b, snoc, free⟩ := inv.last
  have lastBlock : b.addr = HEAP_START + span init ∧ b.stop = c.heap.heapTop := by
    have tiles := inv.tiles
    rw [snoc] at tiles
    obtain ⟨addr, tail⟩ := tiles.at_span
    exact ⟨addr, Tiles.nil_iff.mp (Tiles.cons_iff.mp tail).2.2⟩
  have member : b ∈ bs := by simp [snoc]
  unfold growTurn at small ⊢
  rw [if_neg (by omega)] at small ⊢
  dsimp only at small ⊢
  split
  · exact ⟨bs, ⟨inv.tiles, inv.last, inv.small, inv.live, trivial⟩, fun _ _ _ _ _ _ _ _ => rfl⟩
  · rename_i frame
    rw [if_neg frame] at small
    cases lastFreeNode with
    | none =>
      have := marked b member lastBlock.2
      simp [free] at this
    | some f =>
      obtain ⟨d, inside, dfree, addr, place⟩ := marked
      have same : d = b := by
        have := (inv.tiles.bounds inside).2
        have := d.addr_lt_stop
        rcases place with stop | start
        · exact inv.tiles.eq_of_stop inside member (stop.trans lastBlock.2.symm)
        · omega
      subst same addr
      have tiles := inv.tiles
      rw [snoc] at tiles
      have word : load32 c.heap.mem d.addr = d.size := by rw [inv.tiles.word_of_mem member, d.word_free free]
      let grown : Block := ⟨d.addr, d.size + PAGE_SIZE, false, by have := d.even; unfold PAGE_SIZE; omega⟩
      have stop : grown.stop = c.heap.heapTop + PAGE_SIZE := by
        rw [← lastBlock.2]
        simp only [Block.stop, grown]
        omega
      have fitsWord : load32 c.heap.mem d.addr + PAGE_SIZE < 2 ^ 32 := by
        simp only [Small, afterTurn] at small
        have := lastBlock.2
        simp only [Block.stop] at this
        omega
      have outside : ∀ y, y < HEAP_START + span init ∨ HEAP_START + span init + span [d] ≤ y →
          store32 c.heap.mem d.addr (load32 c.heap.mem d.addr + PAGE_SIZE) y = c.heap.mem y := by
        intro y side
        refine store32_outside ?_
        simp only [span, NODE, ← lastBlock.1] at side
        omega
      have keeps := keeps_replace [d] [grown] [] tiles (by simp [free])
        (by simp [grown]) outside
      refine ⟨init ++ [grown], ⟨?_, ⟨init, grown, rfl, rfl⟩, small, ?_, ?_⟩, ?_⟩
      · obtain ⟨mid, before, tail⟩ := tiles.split
        have atMid := before.span_eq
        subst atMid
        refine (before.congr fun y _ below => outside y (Or.inl below)).append ?_
        have single : Tiles (store32 c.heap.mem d.addr (load32 c.heap.mem d.addr + PAGE_SIZE))
            grown.addr [grown] grown.stop := by
          refine .single ?_
          rw [load32_store32_of_lt fitsWord, word]
          rfl
        rw [stop] at single
        exact lastBlock.1 ▸ single
      · exact inv.live.keeps (snoc ▸ keeps)
      · exact ⟨fits, ⟨init, [grown], rfl, lastBlock.1.symm⟩, grown, by simp, rfl, rfl, Or.inr rfl⟩
      · intro u inside used _ _
        exact keeps.bytes u (snoc ▸ inside) used

/-- Going past block `b` without writing. -/
theorem advance_ok {requested : Nat} {pre post : List Block} {b : Block} {mark : Option Nat}
    (inv : Inv c bs) (fits : requested ≤ 2 ^ 32 - 8) (eq : bs = pre ++ b :: post)
    (marked : Marked bs b.stop mark) :
    TurnOk c bs { c with pc := .malloc requested b.stop mark } := by
  intro small
  have tiles := inv.tiles
  rw [eq] at tiles
  obtain ⟨addr, -⟩ := tiles.at_span
  have place : HEAP_START + span (pre ++ [b]) = b.stop := by
    simp only [span_append, span, Block.stop]
    omega
  exact ⟨bs, ⟨inv.tiles, inv.last, inv.small, inv.live,
    fits, ⟨pre ++ [b], post, by simp [eq], place⟩, marked⟩, fun _ _ _ _ _ _ _ _ => rfl⟩

/-- Enough room in the free block `b`: its front becomes a used block, the rest stays free. -/
theorem allocate_ok {requested : Nat} {pre post : List Block} {b : Block} (inv : Inv c bs)
    (fits : requested ≤ 2 ^ 32 - 8) (eq : bs = pre ++ b :: post) (free : b.used = false)
    (room : alignSize requested + NODE ≤ b.size) :
    TurnOk c bs
      { heap := { c.heap with
          mem := store32 (store32 c.heap.mem (b.addr + NODE + alignSize requested)
            (b.size - alignSize requested - NODE)) b.addr (setUsed (alignSize requested)) }
        pc := .idle
        live := (b.addr + NODE, requested) :: c.live } := by
  intro small
  obtain ⟨atLeast, below, even⟩ := alignSize_spec fits
  generalize alignSize requested = size at *
  have bEven := b.even
  have tiles := inv.tiles
  rw [eq] at tiles
  obtain ⟨addr, here⟩ := tiles.at_span
  obtain ⟨-, -, after⟩ := Tiles.cons_iff.mp here
  let front : Block := ⟨b.addr, size, true, even⟩
  let back : Block := ⟨b.addr + NODE + size, b.size - size - NODE, false, by unfold NODE at *; omega⟩
  have meet : front.stop = back.addr := rfl
  have stop : back.stop = b.stop := by
    simp only [Block.stop, back]
    omega
  have fitsWord : b.size < 2 ^ 32 := by
    have := inv.small
    have := after.le
    unfold Small at *
    unfold Block.stop at this
    omega
  generalize mem : store32 (store32 c.heap.mem (b.addr + NODE + size) (b.size - size - NODE)) b.addr
    (setUsed size) = m' at *
  have outside : ∀ y, y < HEAP_START + span pre ∨ HEAP_START + span pre + span [b] ≤ y →
      m' y = c.heap.mem y := by
    intro y side
    simp only [span, NODE, ← addr] at side
    rw [← mem, store32_outside (by omega), store32_outside (by unfold NODE at *; omega)]
  have frontWord : load32 m' front.addr = front.word := by
    rw [← mem, load32_store32_of_lt (by unfold setUsed; omega)]
    simp only [setUsed, Block.word, front, Bool.toNat_true]
    omega
  have backWord : load32 m' back.addr = back.word := by
    rw [← mem, load32_store32_outside (by simp only [back, NODE]; omega),
      load32_store32_of_lt (by omega)]
    rfl
  have fresh : Tiles m' (HEAP_START + span pre) [front, back] (HEAP_START + span pre + span [b]) := by
    have ends : HEAP_START + span pre + span [b] = back.stop := by
      rw [stop, ← addr]
      simp only [span, Block.stop]
      omega
    rw [ends, ← addr]
    exact .cons frontWord (meet ▸ .single backWord)
  have tiles' := Tiles.replace [b] tiles fresh outside
  have lives : ∀ u : Block, u.used = true → (u ∈ pre ++ (front :: back :: post) ↔ u = front ∨ u ∈ bs) := by
    intro u used
    have notB : u ≠ b := by rintro rfl; simp [free] at used
    have notBack : u ≠ back := by rintro rfl; cases used
    simp only [eq, List.mem_append, List.mem_cons, notB, notBack, false_or]
    tauto
  refine ⟨_, ⟨tiles', ?_, small, ?_, trivial⟩, ?_⟩
  · refine LastFree.of_tail (b :: post) (eq ▸ inv.last) (fun _ last => ?_) (by simp)
    obtain ⟨init, d, snoc, dfree⟩ := last
    cases post with
    | nil => exact ⟨[front], back, rfl, rfl⟩
    | cons x post =>
      cases init with
      | nil => simp at snoc
      | cons y init =>
        simp only [List.cons_append, List.cons.injEq] at snoc
        exact ⟨front :: back :: init, d, by simp [snoc.2], dfree⟩
  · have unused : ∀ e ∈ c.live, e.1 ≠ b.addr + NODE := by
      intro e member clash
      obtain ⟨d, inside, used, place, _⟩ := inv.live.block e member
      have same : d = b := inv.tiles.eq_of_addr inside (by simp [eq]) (by omega)
      simp [same, free] at used
    refine ⟨?_, ?_, ?_⟩
    · intro u member used
      rcases (lives u used).mp member with rfl | member
      · exact ⟨requested, List.mem_cons_self⟩
      · obtain ⟨sz, owned⟩ := inv.live.owned u member used
        exact ⟨sz, List.mem_cons_of_mem _ owned⟩
    · intro e member
      rcases List.mem_cons.mp member with rfl | member
      · exact ⟨front, (lives front rfl).mpr (Or.inl rfl), rfl, rfl, atLeast⟩
      · obtain ⟨d, inside, used, rest⟩ := inv.live.block e member
        exact ⟨d, (lives d used).mpr (Or.inr inside), used, rest⟩
    · simp only [List.map_cons, List.nodup_cons]
      refine ⟨?_, inv.live.nodup⟩
      intro member
      obtain ⟨e, inside, clash⟩ := List.mem_map.mp member
      exact unused e inside clash
  · intro u member used _ _
    refine tiles.replace_frame [b] ?_ outside
    have notB : u ≠ b := by rintro rfl; simp [free] at used
    simpa [eq, notB] using member

/-- Merging the free blocks after the free block `b` into it. -/
theorem merge_ok {pre post : List Block} {b : Block} (pc : Pc) (frees : List Block) (inv : Inv c bs)
    (eq : bs = pre ++ b :: (frees ++ post)) (free : b.used = false)
    (allFree : ∀ d ∈ frees, d.used = false)
    (pcOk : ∀ merged : Block, merged.addr = b.addr → merged.used = false → b.stop ≤ merged.stop →
      PcOk (pre ++ merged :: post) pc) :
    TurnOk c bs { heap := { c.heap with mem := store32 c.heap.mem b.addr (b.size + span frees) }
                  pc := pc
                  live := c.live } := by
  intro small
  have tiles : Tiles c.heap.mem HEAP_START (pre ++ (b :: frees ++ post)) c.heap.heapTop := by
    simpa [eq] using inv.tiles
  obtain ⟨addr, here⟩ := tiles.at_span
  obtain ⟨-, -, after⟩ := Tiles.cons_iff.mp here
  obtain ⟨hi, gap, rest⟩ := after.split
  have atHi := gap.span_eq
  have fitsWord : b.size + span frees < 2 ^ 32 := by
    have := inv.small
    have := rest.le
    unfold Small at *
    unfold Block.stop at *
    omega
  let merged : Block := ⟨b.addr, b.size + span frees, false, by
    have := b.even
    have := span_even frees
    omega⟩
  have ends : HEAP_START + span pre + span (b :: frees) = merged.stop := by
    rw [← addr]
    simp only [span, Block.stop, merged]
    omega
  have outside : ∀ y, y < HEAP_START + span pre ∨ HEAP_START + span pre + span (b :: frees) ≤ y →
      store32 c.heap.mem b.addr (b.size + span frees) y = c.heap.mem y := by
    intro y side
    refine store32_outside ?_
    simp only [span, NODE, ← addr] at side
    omega
  have fresh : Tiles (store32 c.heap.mem b.addr (b.size + span frees)) (HEAP_START + span pre) [merged]
      (HEAP_START + span pre + span (b :: frees)) := by
    rw [ends, ← addr]
    refine .single (b := merged) ?_
    rw [load32_store32_of_lt fitsWord]
    rfl
  have keeps := keeps_replace _ [merged] _ tiles
    (by simpa [free] using allFree) (by simp [merged]) outside
  have same : bs = pre ++ (b :: frees ++ post) := by simp [eq]
  refine ⟨pre ++ merged :: post, ⟨?_, ?_, small, inv.live.keeps (same ▸ keeps), ?_⟩, ?_⟩
  · exact tiles.replace _ fresh outside
  · refine LastFree.of_tail (b :: frees ++ post) (same ▸ inv.last) (fun _ last => ?_) (by simp)
    obtain ⟨init, d, snoc, dfree⟩ := last
    rcases List.eq_nil_or_concat post with rfl | ⟨front, e, rfl⟩
    · exact ⟨[], merged, rfl, rfl⟩
    · have last : e = d := by
        have : b :: frees ++ front ++ [e] = init ++ [d] := by simpa using snoc
        have := congrArg List.getLast? this
        simpa only [List.getLast?_concat, Option.some.injEq] using this
      exact ⟨merged :: front, e, by simp, last ▸ dfree⟩
  · exact pcOk merged rfl rfl (by simp only [Block.stop, merged]; omega)
  · intro u inside used _ _
    exact keeps.bytes u (same ▸ inside) used

theorem marked_merge {m : Bytes} {a top : Nat} {pre frees post : List Block} {b merged : Block}
    {mark : Option Nat} (tiles : Tiles m a (pre ++ b :: (frees ++ post)) top)
    (marked : Marked (pre ++ b :: (frees ++ post)) b.addr mark) (start : merged.addr = b.addr)
    (free : merged.used = false) (stop : b.stop ≤ merged.stop) :
    Marked (pre ++ merged :: post) b.addr mark := by
  have inside := b.addr_lt_stop
  obtain ⟨mid, before, tail⟩ := tiles.split
  obtain ⟨rfl, -, -⟩ := Tiles.cons_iff.mp tail
  have later : ∀ d ∈ b :: (frees ++ post), b.addr < d.stop := fun d member => by
    have := (tail.bounds member).1
    have := d.addr_lt_stop
    omega
  cases mark with
  | none =>
    intro d member ends
    rcases List.mem_append.mp member with member | member
    · exact marked d (by simp [member]) ends
    · rcases List.mem_cons.mp member with rfl | member
      · omega
      · have := later d (by simp [member])
        omega
  | some f =>
    obtain ⟨d, member, dfree, rfl, place⟩ := marked
    rcases place with ends | starts
    · rcases List.mem_append.mp member with member | member
      · exact ⟨d, by simp [member], dfree, rfl, Or.inl ends⟩
      · have := later d member
        omega
    · exact ⟨merged, by simp, free, start.trans starts.symm, Or.inr start⟩

theorem kmallocTurn_ok {requested n : Nat} {lastFreeNode : Option Nat} (inv : Inv c bs)
    (here : c.pc = .malloc requested n lastFreeNode) :
    TurnOk c bs
      (afterTurn c requested (kmallocTurn ps (alignSize requested) c.heap n lastFreeNode)) := by
  have pcOk := inv.pc
  rw [here] at pcOk
  obtain ⟨fits, ⟨pre, post, eq, place⟩, marked⟩ := pcOk
  unfold kmallocTurn
  split
  · rename_i atTop
    exact growTurn_ok inv here atTop
  · rename_i inside
    -- Below `heap_top` the walk stands on a block.
    obtain ⟨mid, before, tail⟩ := (eq ▸ inv.tiles : Tiles _ _ (pre ++ post) _).split
    have atMid := before.span_eq
    obtain ⟨b, post, rfl, addr, word, after⟩ := tail.head (by omega)
    obtain rfl : b.addr = n := by omega
    rw [← atMid, place] at word
    rw [word, b.isUsed_word]
    cases used : b.used with
    | true =>
      rw [if_pos rfl, b.clearUsed_word]
      refine advance_ok inv fits eq fun d member stop => ?_
      rw [inv.tiles.eq_of_stop member (by simp [eq]) stop, used]
    | false =>
      rw [if_neg (by simp), b.word_free used]
      split
      · rename_i room
        have := allocate_ok inv fits eq used room
        exact this
      · dsimp only
        have small := inv.small
        have := b.addr_lt_stop
        unfold Small at small
        obtain ⟨frees, rest, rfl, allFree, -, total⟩ :=
          mergeScan_spec 0 (place ▸ atMid ▸ tail) used (by omega)
        rw [total, Nat.zero_add]
        split
        · refine merge_ok _ _ inv eq used allFree fun merged start mergedFree stop => ?_
          refine ⟨fits, ⟨pre, merged :: rest, rfl, place⟩, ?_⟩
          exact marked_merge (eq ▸ inv.tiles) (eq ▸ marked) start mergedFree stop
        · exact advance_ok inv fits eq ⟨b, by simp [eq], used, rfl, Or.inl rfl⟩

/-! ### The turns of `kfree` -/

/-- `kfree` clears the mark of the block it was given; every other allocation stays. -/
theorem afterMark_ok {p size : Nat} (inv : Inv c bs) (owned : (p, size) ∈ c.live) :
    TurnOk c bs (afterMark c p) := by
  intro small
  obtain ⟨b, member, used, place, -⟩ := inv.live.block _ owned
  dsimp only at place
  obtain ⟨pre, post, eq⟩ := List.append_of_mem member
  have node : p - NODE = b.addr := by omega
  have tiles := inv.tiles
  rw [eq] at tiles
  obtain ⟨addr, here⟩ := tiles.at_span
  obtain ⟨-, -, after⟩ := Tiles.cons_iff.mp here
  have fitsWord : b.size < 2 ^ 32 := by
    have := inv.small
    have := after.le
    unfold Small at *
    unfold Block.stop at this
    omega
  have result : afterMark c p =
      { heap := { c.heap with mem := store32 c.heap.mem b.addr b.size }
        pc := .free b.addr
        live := c.live.filter fun e => e.1 ≠ p } := by
    unfold afterMark kfreeMark
    rw [node, inv.tiles.word_of_mem member, b.isUsed_word, used, if_pos rfl, b.clearUsed_word]
  rw [result] at small ⊢
  let freed : Block := ⟨b.addr, b.size, false, b.even⟩
  have ends : HEAP_START + span pre + span [b] = freed.stop := by
    rw [← addr]
    simp only [span, Block.stop, freed]
    omega
  have outside : ∀ y, y < HEAP_START + span pre ∨ HEAP_START + span pre + span [b] ≤ y →
      store32 c.heap.mem b.addr b.size y = c.heap.mem y := by
    intro y side
    refine store32_outside ?_
    simp only [span, NODE, ← addr] at side
    omega
  have fresh : Tiles (store32 c.heap.mem b.addr b.size) (HEAP_START + span pre) [freed]
      (HEAP_START + span pre + span [b]) := by
    rw [ends, ← addr]
    refine .single (b := freed) ?_
    rw [load32_store32_of_lt fitsWord]
    rfl
  have tiles' := Tiles.replace [b] tiles fresh outside
  have lives : ∀ u : Block, u.used = true → (u ∈ pre ++ (freed :: post) ↔ u ≠ b ∧ u ∈ bs) := by
    intro u marked
    have notFreed : u ≠ freed := by rintro rfl; cases marked
    have notAround : b ∉ pre ∧ b ∉ post := by
      have ordered := tiles.ordered
      have := b.addr_lt_stop
      rw [List.pairwise_append, List.pairwise_cons] at ordered
      refine ⟨fun inside => ?_, fun inside => ?_⟩
      · have := ordered.2.2 b inside b (by simp)
        omega
      · have := ordered.2.1.1 b inside
        omega
    simp only [eq, List.mem_append, List.mem_cons, notFreed, false_or]
    constructor
    · intro member
      refine ⟨?_, by tauto⟩
      rintro rfl
      tauto
    · tauto
  have other : ∀ u : Block, u ∈ bs → (u ≠ b ↔ u.addr + NODE ≠ p) := by
    intro u inside
    constructor
    · intro different clash
      exact different (inv.tiles.eq_of_addr inside member (by omega))
    · rintro clash rfl
      exact clash place
  refine ⟨_, ⟨tiles', ?_, small, ⟨?_, ?_, ?_⟩, freed, by simp, rfl, rfl⟩, ?_⟩
  · refine LastFree.of_tail (b :: post) (eq ▸ inv.last) (fun _ last => ?_) (by simp)
    obtain ⟨init, d, snoc, dfree⟩ := last
    cases init with
    | nil =>
      simp only [List.nil_append, List.cons.injEq] at snoc
      exact ⟨[], freed, by simp [snoc.2], rfl⟩
    | cons y init =>
      simp only [List.cons_append, List.cons.injEq] at snoc
      exact ⟨freed :: init, d, by simp [snoc.2], dfree⟩
  · intro u inside marked
    obtain ⟨different, inside⟩ := (lives u marked).mp inside
    obtain ⟨sz, mine⟩ := inv.live.owned u inside marked
    exact ⟨sz, List.mem_filter.mpr ⟨mine, by simpa using (other u inside).mp different⟩⟩
  · intro e inside
    obtain ⟨inside, different⟩ := List.mem_filter.mp inside
    obtain ⟨u, holds, marked, at', fits⟩ := inv.live.block e inside
    refine ⟨u, (lives u marked).mpr ⟨(other u holds).mpr ?_, holds⟩, marked, at', fits⟩
    rw [at']
    simpa using different
  · exact inv.live.nodup.sublist (List.filter_sublist.map _)
  · intro u inside marked _ still
    have different : u ≠ b := (other u inside).mpr (by simpa using (List.mem_filter.mp still).2)
    refine tiles.replace_frame [b] ?_ outside
    simpa [eq, different] using inside

theorem afterMerge_ok {node : Nat} (inv : Inv c bs) (here : c.pc = .free node) :
    TurnOk c bs (afterMerge c node) := by
  have pcOk := inv.pc
  rw [here] at pcOk
  obtain ⟨b, member, free, rfl⟩ := pcOk
  obtain ⟨pre, post, eq⟩ := List.append_of_mem member
  have tiles := inv.tiles
  rw [eq] at tiles
  obtain ⟨-, walk⟩ := tiles.at_span
  obtain ⟨-, word, after⟩ := Tiles.cons_iff.mp walk
  have place : b.addr + NODE + b.size = b.stop := rfl
  unfold afterMerge kfreeTurn
  rw [word, b.word_free free]
  dsimp only
  rw [place]
  split
  · rename_i m' merged
    split at merged
    · rename_i next
      obtain ⟨d, post, rfl, addr, dword, -⟩ := after.head next.1
      rw [← addr] at next dword
      rw [dword, d.isUsed_word] at next
      rw [← addr, dword, d.word_free next.2] at merged
      cases merged
      have := merge_ok (.free b.addr) [d] inv eq free (by simp [next.2])
        fun merged start mergedFree _ => ⟨merged, by simp, mergedFree, start⟩
      simpa [span, here] using this
    · cases merged
  · intro small
    exact ⟨bs, ⟨inv.tiles, inv.last, inv.small, inv.live, trivial⟩, fun _ _ _ _ _ _ _ _ => rfl⟩

/-! ### Every step -/

/-- An owner writes between size words, so the walk does not see it. -/
theorem store_inv {p size a : Nat} {v : UInt8} (inv : Inv c bs) (owned : (p, size) ∈ c.live)
    (low : p ≤ a) (high : a < p + size) :
    Inv { c with heap := { c.heap with mem := store8 c.heap.mem a v } } bs := by
  obtain ⟨b, member, -, place, fits⟩ := inv.live.block _ owned
  dsimp only at place fits
  refine ⟨?_, inv.last, inv.small, inv.live, inv.pc⟩
  refine inv.tiles.congr_words fun d inside y above below => store8_other ?_
  have := inv.tiles.apart member inside
  unfold Block.stop at this
  rintro rfl
  rcases this with rfl | before | after <;> omega

theorem step_inv {e : Event} (inv : Inv c bs) (h : SmallStep ps c e c') : ∃ bs', Inv c' bs' := by
  obtain ⟨h, small⟩ := h
  cases h with
  | kmalloc ready fits =>
    refine ⟨bs, inv.tiles, inv.last, inv.small, inv.live, fits, ⟨[], bs, rfl, rfl⟩, ?_⟩
    intro b member ends
    have := (inv.tiles.bounds member).1
    have := b.addr_lt_stop
    omega
  | mallocTurn here =>
    obtain ⟨bs', inv', -⟩ := kmallocTurn_ok inv here small
    exact ⟨bs', inv'⟩
  | kfreeNull => exact ⟨bs, inv⟩
  | kfree ready owned =>
    obtain ⟨bs', inv', -⟩ := afterMark_ok inv owned small
    exact ⟨bs', inv'⟩
  | freeTurn here =>
    obtain ⟨bs', inv', -⟩ := afterMerge_ok inv here small
    exact ⟨bs', inv'⟩
  | store owned low high => exact ⟨bs, store_inv inv owned low high⟩

theorem boot_inv {mem : Bytes} {phys : σ} {s : State σ} (boot : initHeap ps mem phys = some s) :
    ∃ bs, Inv (⟨s, .idle, []⟩ : Config σ) bs := by
  let first : Block := ⟨HEAP_START, PAGE_SIZE - NODE, false, rfl⟩
  unfold initHeap at boot
  dsimp only at boot
  split at boot
  · cases boot
  · obtain rfl := Option.some.inj boot
    refine ⟨[first], ?_, ⟨[], first, rfl, rfl⟩, by simp [Small, PAGE_SIZE], ⟨?_, by simp, by simp⟩, trivial⟩
    · exact .single (b := first) (load32_store32_of_lt (by decide))
    · intro b member used
      obtain rfl : b = first := by simpa using member
      cases used

theorem run_inv {events : List Event} {mem : Bytes} {phys : σ} {s : State σ}
    (boot : initHeap ps mem phys = some s)
    (run : Run (SmallStep ps) ⟨s, .idle, []⟩ events c) : ∃ bs, Inv c bs :=
  run.invariant (P := fun c => ∃ bs, Inv c bs) (fun _ _ _ ⟨_, inv⟩ step => step_inv inv step)
    (boot_inv boot)

/-! ### Heap integrity -/

/-- The bytes of the allocation at `p`, its size word left out. -/
def InPayload (m : Bytes) (p y : Nat) : Prop :=
  p ≤ y ∧ y < p + clearUsed (load32 m (p - NODE))

/-- The heap is tiled by blocks of which the last is free, and the used ones are exactly the live
allocations. `BUG` is not reached, nor is the branch of `kmalloc` that would make a new block at
`heap_top`. -/
structure Intact (c : Config σ) : Prop where
  tiled : ∃ bs, Tiles c.heap.mem HEAP_START bs c.heap.heapTop ∧ LastFree bs ∧
    (∀ e ∈ c.live, ∃! b, b ∈ bs ∧ b.used = true ∧ b.addr + NODE = e.1 ∧ e.2 ≤ b.size) ∧
    ∀ b ∈ bs, b.used = true → ∃ e ∈ c.live, b.addr + NODE = e.1
  noBug : c.pc ≠ .bug
  noNewBlock : ∀ requested n, c.pc = .malloc requested n none → n < c.heap.heapTop
  disjoint : c.live.Pairwise fun e f =>
    e.1 ≠ f.1 ∧ ∀ y, ¬ (InPayload c.heap.mem e.1 y ∧ InPayload c.heap.mem f.1 y)

/-- No byte of an allocation live before and after is written, its size word included. -/
def Untouched (c c' : Config σ) : Prop :=
  ∀ e ∈ c.live, e ∈ c'.live → ∀ y, (e.1 - NODE ≤ y ∧ y < e.1) ∨ InPayload c.heap.mem e.1 y →
    c'.heap.mem y = c.heap.mem y

theorem Inv.payload {e : Nat × Nat} (inv : Inv c bs) (member : e ∈ c.live) :
    ∃ b ∈ bs, b.used = true ∧ b.addr + NODE = e.1 ∧ e.2 ≤ b.size ∧
      ∀ y, InPayload c.heap.mem e.1 y ↔ b.addr + NODE ≤ y ∧ y < b.stop := by
  obtain ⟨b, inside, used, place, fits⟩ := inv.live.block e member
  refine ⟨b, inside, used, place, fits, fun y => ?_⟩
  unfold InPayload Block.stop
  rw [← place, Nat.add_sub_cancel, inv.tiles.word_of_mem inside, b.clearUsed_word]

theorem Inv.intact (inv : Inv c bs) : Intact c := by
  refine ⟨⟨bs, inv.tiles, inv.last, ?_, ?_⟩, ?_, ?_, ?_⟩
  · intro e member
    obtain ⟨b, inside, used, place, fits⟩ := inv.live.block e member
    refine ⟨b, ⟨inside, used, place, fits⟩, fun d ⟨holds, _, at', _⟩ => ?_⟩
    exact inv.tiles.eq_of_addr holds inside (by omega)
  · intro b member used
    obtain ⟨size, owned⟩ := inv.live.owned b member used
    exact ⟨_, owned, rfl⟩
  · intro bug
    have := inv.pc
    rwa [bug] at this
  · intro requested n here
    have pcOk := inv.pc
    rw [here] at pcOk
    obtain ⟨-, ⟨pre, post, eq, place⟩, marked⟩ := pcOk
    obtain ⟨init, b, snoc, free⟩ := inv.last
    have whole := inv.tiles.span_eq
    have ends : b.stop = c.heap.heapTop := by
      have tiles := inv.tiles
      rw [snoc] at tiles
      exact Tiles.nil_iff.mp (Tiles.cons_iff.mp tiles.at_span.2).2.2
    rw [eq, span_append] at whole
    by_contra past
    have := marked b (by simp [snoc]) (by omega)
    simp [free] at this
  · have distinct := inv.live.nodup
    rw [List.Nodup, List.pairwise_map] at distinct
    refine distinct.imp_of_mem fun {e f} he hf different => ⟨different, fun y both => ?_⟩
    obtain ⟨b, hb, -, placeB, -, payloadB⟩ := inv.payload he
    obtain ⟨d, hd, -, placeD, -, payloadD⟩ := inv.payload hf
    rw [payloadB, payloadD] at both
    rcases inv.tiles.apart hb hd with rfl | before | after
    · exact different (placeB.symm.trans placeD)
    · omega
    · omega

theorem step_untouched {e : Event} (inv : Inv c bs) (h : SmallStep ps c e c')
    (kernel : ∀ a v, e ≠ .store a v) : Untouched c c' := by
  obtain ⟨h, small⟩ := h
  have transfer : (∃ bs', Inv c' bs' ∧ ∀ b ∈ bs, b.used = true → ∀ size, (b.addr + NODE, size) ∈ c'.live →
      ∀ y, b.addr ≤ y → y < b.stop → c'.heap.mem y = c.heap.mem y) → Untouched c c' := by
    rintro ⟨_, -, frame⟩ e member still y place
    obtain ⟨b, inside, used, at', -, payload⟩ := inv.payload member
    refine frame b inside used e.2 (at' ▸ still) y ?_ ?_
    · rcases place with header | inner
      · omega
      · have := (payload y).mp inner
        omega
    · rcases place with header | inner
      · unfold Block.stop
        omega
      · exact ((payload y).mp inner).2
  cases h with
  | kmalloc => exact fun _ _ _ _ _ => rfl
  | mallocTurn here => exact transfer (kmallocTurn_ok inv here small)
  | kfreeNull => exact fun _ _ _ _ _ => rfl
  | kfree ready owned => exact transfer (afterMark_ok inv owned small)
  | freeTurn here => exact transfer (afterMerge_ok inv here small)
  | store => exact absurd rfl (kernel _ _)

/-- From `init_heap` on, whatever the order of calls and whenever `alloc_phys_page` fails, the heap
is intact at every turn, and neither `kmalloc` nor `kfree` writes into another live allocation. -/
theorem heap_integrity {events : List Event} {mem : Bytes} {phys : σ} {s : State σ}
    (boot : initHeap ps mem phys = some s) (run : Run (SmallStep ps) ⟨s, .idle, []⟩ events c) :
    Intact c ∧ ∀ e c', SmallStep ps c e c' → (∀ a v, e ≠ .store a v) → Untouched c c' := by
  obtain ⟨bs, inv⟩ := run_inv boot run
  exact ⟨inv.intact, fun e c' step kernel => step_untouched inv step kernel⟩

/-- Frames `n`, …, 1 and then none. -/
def countdown : PageSource Nat where
  allocPhysPage n := (n, n - 1)
  mapKernelPage _ _ n := n

def booted : Config Nat :=
  ⟨⟨store32 (fun _ => 0) HEAP_START (PAGE_SIZE - NODE), HEAP_START + PAGE_SIZE, 1⟩, .idle, []⟩

def allocated : Config Nat :=
  afterTurn { booted with pc := .malloc 8 HEAP_START none } 8
    (kmallocTurn countdown (alignSize 8) booted.heap HEAP_START none)

theorem heap_integrity_allocated :
    allocated.live = [(HEAP_START + NODE, 8)] ∧ Intact allocated ∧
      Untouched allocated (afterMark allocated (HEAP_START + NODE)) := by
  have call : SmallStep countdown booted (.kmalloc 8)
      { booted with pc := .malloc 8 HEAP_START none } :=
    ⟨.kmalloc rfl (by decide), by unfold Small; decide⟩
  have turn : SmallStep countdown { booted with pc := .malloc 8 HEAP_START none } .turn allocated :=
    ⟨.mallocTurn rfl, by unfold Small; decide⟩
  have free : SmallStep countdown allocated (.kfree (HEAP_START + NODE))
      (afterMark allocated (HEAP_START + NODE)) :=
    ⟨.kfree (p := HEAP_START + NODE) rfl (show (HEAP_START + NODE, 8) ∈ allocated.live by decide),
      by unfold Small; decide⟩
  have boot : initHeap countdown (fun _ => 0) 2 = some booted.heap := rfl
  have intact := heap_integrity boot
    (.cons call (.cons turn (.nil _)))
  exact ⟨by decide, intact.1, intact.2 _ _ free (by simp)⟩

/-! ### Whole calls -/

/-- A call of `kmalloc` that returns is a run of turns. -/
theorem kmallocLoop_run {requested fuel n : Nat} {lastFreeNode : Option Nat} {r : Result} {s : State σ}
    (here : c.pc = .malloc requested n lastFreeNode)
    (h : kmallocLoop ps (alignSize requested) fuel c.heap n lastFreeNode = some (r, s)) :
    ∃ events, Run (Step ps) c events (afterTurn c requested (.done r s)) := by
  induction fuel generalizing c n lastFreeNode with
  | zero => cases h
  | succ fuel ih =>
    have step : Step ps c .turn _ := .mallocTurn here
    rw [kmallocLoop] at h
    cases turn : kmallocTurn ps (alignSize requested) c.heap n lastFreeNode with
    | done result after =>
      rw [turn] at h step
      obtain ⟨rfl, rfl⟩ := Prod.mk.inj (Option.some.inj h)
      exact ⟨[.turn], .single step⟩
    | again after next mark =>
      rw [turn] at h step
      obtain ⟨events, run⟩ := ih (c := afterTurn c requested (.again after next mark)) rfl h
      have same : afterTurn (afterTurn c requested (.again after next mark)) requested (.done r s) =
          afterTurn c requested (.done r s) := by cases r <;> rfl
      exact ⟨.turn :: events, same ▸ .cons step run⟩

theorem kmalloc_run {requested fuel : Nat} {r : Result} {s : State σ} (ready : c.pc = .idle)
    (fits : requested ≤ 2 ^ 32 - 8) (h : kmalloc ps fuel requested c.heap = some (r, s)) :
    ∃ events, Run (Step ps) c (.kmalloc requested :: events) (afterTurn c requested (.done r s)) := by
  let called : Config σ := { c with pc := .malloc requested HEAP_START none }
  obtain ⟨events, run⟩ := kmallocLoop_run (c := called) rfl h
  have same : afterTurn called requested (.done r s) = afterTurn c requested (.done r s) := by
    cases r <;> rfl
  exact ⟨events, .cons (.kmalloc ready fits) (same ▸ run)⟩

theorem kfreeLoop_run {node fuel : Nat} {m : Bytes} (here : c.pc = .free node)
    (h : kfreeLoop c.heap.heapTop node fuel c.heap.mem = some m) :
    ∃ events, Run (Step ps) c events { c with heap := { c.heap with mem := m }, pc := .idle } := by
  induction fuel generalizing c with
  | zero => cases h
  | succ fuel ih =>
    have step : Step ps c .turn _ := .freeTurn here
    rw [kfreeLoop] at h
    unfold afterMerge at step
    cases turn : kfreeTurn c.heap.mem c.heap.heapTop node with
    | none =>
      rw [turn] at h step
      obtain rfl := Option.some.inj h
      exact ⟨[.turn], .single step⟩
    | some merged =>
      rw [turn] at h step
      obtain ⟨events, run⟩ := ih (c := { c with heap := { c.heap with mem := merged } }) here h
      exact ⟨.turn :: events, .cons step run⟩

end Landaux.Heap
