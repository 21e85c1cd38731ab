import Landaux.Mm.HeapFit

/-!
# The loops of the heap end

On a tiled heap, whatever its blocks are, the loops of `kmalloc` and `kfree` come to an end. Each run of free
blocks is passed or taken; at `heap_top` the heap grows until the last block is large enough or there are no
frames left.
-/

namespace Landaux.Heap
open Lib Bytes

variable {σ : Type} {ps : PageSource σ} {size top : Nat} {last : Option Nat} {s : State σ} {m : Bytes} {b : Block}
  {bs passed pre post rest : List Block}

/-- The loop of `kmalloc` ends from here on. -/
def LoopEnds (ps : PageSource σ) (size : Nat) (s : State σ) (n : Nat) (last : Option Nat) : Prop :=
  ∃ r s', Yields ps size s n last r s'

/-- `last_free_node` is the block before, which is free and too small, or `NULL`. -/
def PassedFree (size : Nat) (passed : List Block) : Option Nat → Prop
  | none => True
  | some f => ∃ p b, passed = p ++ [b] ∧ b.used = false ∧ b.size < size + NODE ∧ f = HEAP_START + span p

/-- `heap_top` after a free block. -/
theorem grow_ends (h : At s (passed ++ [b]) []) (free : b.used = false) (short : b.size < size + NODE)
    (limited : Limited ps s.heapTop s.phys) :
    LoopEnds ps size s (HEAP_START + span (passed ++ [b])) (some (HEAP_START + span passed)) := by
  have enough : ∃ k, size + NODE ≤ b.size + k * PAGE_SIZE := ⟨size + NODE, by unfold PAGE_SIZE; omega⟩
  have positive : 0 < Nat.find enough := by
    rw [Nat.find_pos]
    omega
  obtain ⟨succeeds, fails⟩ := grow_spec (Nat.find enough) s passed b h free limited (Nat.find_spec enough)
    (fun j below => Nat.lt_of_not_le (Nat.find_min enough below)) positive
  cases grown : grows ps (Nat.find enough) s.heapTop s.phys with
  | none =>
    obtain ⟨s', yields⟩ := fails grown
    exact ⟨_, s', yields⟩
  | some phys =>
    obtain ⟨mem, yields⟩ := succeeds phys grown
    exact ⟨_, _, yields⟩

/-- `heap_top` after a used block: a new block is made there that reaches past `heap_top`, and `BUG_ON` stops
the loop after it. -/
theorem new_block_ends (ps : PageSource σ) (size : Nat) (s : State σ) : LoopEnds ps size s s.heapTop none := by
  cases alloc : ps.allocPhysPage s.phys with
  | mk frame phys =>
  by_cases failed : frame % 2 ^ 32 = 0
  · refine ⟨.null, { s with phys }, .done ?_⟩
    rw [kmallocTurn, if_pos le_rfl, growTurn, if_neg (lt_irrefl _), alloc]
    exact if_pos failed
  · let grown : State σ := ⟨store32 s.mem s.heapTop PAGE_SIZE, s.heapTop + PAGE_SIZE,
      ps.mapKernelPage (frame % 2 ^ 32) s.heapTop phys⟩
    have turn : kmallocTurn ps size s s.heapTop none = .again grown s.heapTop none := by
      rw [kmallocTurn, if_pos le_rfl, growTurn, if_neg (lt_irrefl _), alloc]
      exact if_neg failed
    have inside : ¬ grown.heapTop ≤ s.heapTop := by
      show ¬ s.heapTop + PAGE_SIZE ≤ s.heapTop
      unfold PAGE_SIZE
      omega
    have word : load32 grown.mem s.heapTop = PAGE_SIZE := load32_store32_of_lt (by decide)
    have past : grown.heapTop < s.heapTop + NODE + PAGE_SIZE := by
      show s.heapTop + PAGE_SIZE < _
      unfold NODE
      omega
    by_cases fits : size + NODE ≤ PAGE_SIZE
    · have taken : ∃ r s', kmallocTurn ps size grown s.heapTop none = .done r s' := by
        rw [kmallocTurn, if_neg inside, word, if_neg (by decide), if_pos fits]
        exact ⟨_, _, rfl⟩
      obtain ⟨r, s', last⟩ := taken
      exact ⟨r, s', (Yields.done last).again turn⟩
    · have scan : mergeScan grown.mem grown.heapTop s.heapTop 0 = 0 := by
        rw [mergeScan, word]
        exact if_neg fun more => absurd more.1 (lt_asymm past)
      have pass : kmallocTurn ps size grown s.heapTop none =
          .again grown (s.heapTop + NODE + PAGE_SIZE) (some s.heapTop) := by
        rw [kmallocTurn, if_neg inside, word, if_neg (by decide), if_neg fits, scan]
        rfl
      have stops : kmallocTurn ps size grown (s.heapTop + NODE + PAGE_SIZE) (some s.heapTop) = .done .bug grown := by
        rw [kmallocTurn, if_pos past.le, growTurn, if_pos past]
      exact ⟨.bug, grown, ((Yields.done stops).again pass).again turn⟩

theorem top_ends (h : At s passed []) (marked : PassedFree size passed last) (limited : Limited ps s.heapTop s.phys) :
    LoopEnds ps size s (HEAP_START + span passed) last := by
  cases last with
  | none =>
    have top : HEAP_START + span passed = s.heapTop := by
      have whole := h.tiles.span_eq
      rwa [List.append_nil] at whole
    rw [top]
    exact new_block_ends ps size s
  | some f =>
    obtain ⟨p, b, rfl, free, short, rfl⟩ := marked
    exact grow_ends h free short limited

theorem walk_ends (rest : List Block) : ∀ passed (s : State σ) last, At s passed rest → PassedFree size passed last →
    Limited ps s.heapTop s.phys → LoopEnds ps size s (HEAP_START + span passed) last := by
  induction rest using runs_induction with
  | nil => exact fun passed s last => top_ends
  | used b bs used ih =>
    intro passed s last h _ limited
    obtain ⟨r, s', yields⟩ := ih (passed ++ [b]) s none h.snoc trivial limited
    exact ⟨r, s', yields.again (h.turn_used ps last used)⟩
  | run front bs nonempty free stops ih =>
    intro passed s last h _ limited
    by_cases fits : size + NODE ≤ payload front
    · obtain ⟨mem, yields⟩ := run_fits ps last h nonempty free stops fits
      exact ⟨_, _, yields⟩
    · have short : payload front < size + NODE := Nat.lt_of_not_le fits
      obtain ⟨mem, merged, h', free', size', leads⟩ := run_small ps last h nonempty free stops short
      have marked : PassedFree size (passed ++ [merged]) (some (HEAP_START + span passed)) :=
        ⟨passed, merged, rfl, free', size' ▸ short, rfl⟩
      obtain ⟨r, s', yields⟩ := ih (passed ++ [merged]) _ _ h' marked limited
      exact ⟨r, s', leads r s' yields⟩

/-! ### The loop of `kfree` -/

/-- The loop of `kfree` ends, given enough turns. -/
def MergeEnds (top node : Nat) (m : Bytes) : Prop := ∃ k m', ∀ fuel, k ≤ fuel → kfreeLoop top node fuel m = some m'

theorem MergeEnds.done {node : Nat} (turn : kfreeTurn m top node = none) : MergeEnds top node m := by
  refine ⟨1, m, fun fuel enough => ?_⟩
  obtain ⟨fuel, rfl⟩ := Nat.exists_eq_add_of_le' enough
  rw [kfreeLoop, turn]

theorem MergeEnds.again {node : Nat} {m' : Bytes} (rest : MergeEnds top node m')
    (turn : kfreeTurn m top node = some m') :
    MergeEnds top node m := by
  obtain ⟨k, merged, loop⟩ := rest
  refine ⟨k + 1, merged, fun fuel enough => ?_⟩
  obtain ⟨more, rfl⟩ := Nat.exists_eq_add_of_le' enough
  rw [← Nat.add_assoc, kfreeLoop, turn]
  exact loop _ (Nat.le_add_left k more)

/-- Each turn takes in one block. -/
theorem merge_ends (post : List Block) : ∀ m b, Tiles m HEAP_START (pre ++ b :: post) top → b.used = false →
    top < HEAP_START + 2 ^ 32 → MergeEnds top b.addr m := by
  induction post with
  | nil =>
    intro m b tiles free _
    obtain ⟨-, word, after⟩ := Tiles.cons_iff.mp tiles.at_span.2
    have last : b.stop = top := Tiles.nil_iff.mp after
    apply MergeEnds.done
    rw [kfreeTurn, word, b.word_free free]
    exact if_neg fun next => absurd next.1 (Nat.not_lt_of_le last.ge)
  | cons c post ih =>
    intro m b tiles free small
    obtain ⟨addr, here⟩ := tiles.at_span
    obtain ⟨-, word, after⟩ := Tiles.cons_iff.mp here
    obtain ⟨next, wordc, afterc⟩ := Tiles.cons_iff.mp after
    have inside := c.addr_lt_stop
    have below := afterc.le
    have turn : kfreeTurn m top b.addr =
        if c.addr < top ∧ c.used = false then some (store32 m b.addr (b.size + (NODE + c.word))) else none := by
      rw [kfreeTurn, word, b.word_free free, ← c.isUsed_word, ← wordc, next]
      rfl
    cases marked : c.used with
    | true =>
      apply MergeEnds.done
      rw [turn, marked]
      exact if_neg fun next => absurd next.2 (by decide)
    | false =>
      let merged : Block := ⟨b.addr, b.size + (NODE + c.size), false, by
        have even := b.even
        have evenc := c.even
        unfold NODE
        omega⟩
      have stop : merged.stop = HEAP_START + span pre + span [b, c] := by
        simp only [Block.stop, merged, span]
        omega
      have fits : merged.word < 2 ^ 32 := by
        rw [Block.word_free rfl]
        unfold Block.stop at next below
        show b.size + (NODE + c.size) < 2 ^ 32
        omega
      have rest := ih _ merged (Tiles.rewrite [b, c] merged tiles addr stop fits).1 rfl small
      apply rest.again
      rw [turn, if_pos ⟨by omega, marked⟩, c.word_free marked]
      rfl

/-- Marking a block as free keeps the tiling. -/
theorem kfreeMark_tiles {m' : Bytes} (tiles : Tiles m HEAP_START (pre ++ b :: post) top)
    (small : top < HEAP_START + 2 ^ 32)
    (marks : kfreeMark m b.addr = some m') :
    ∃ freed : Block, freed.addr = b.addr ∧ freed.used = false ∧ Tiles m' HEAP_START (pre ++ freed :: post) top := by
  obtain ⟨addr, here⟩ := tiles.at_span
  obtain ⟨-, word, after⟩ := Tiles.cons_iff.mp here
  have below := after.le
  unfold kfreeMark at marks
  rw [word, b.clearUsed_word] at marks
  split at marks
  · obtain rfl := Option.some.inj marks
    let freed : Block := ⟨b.addr, b.size, false, b.even⟩
    have stop : freed.stop = HEAP_START + span pre + span [b] := by
      simp only [Block.stop, freed, span]
      omega
    have fits : freed.word < 2 ^ 32 := by
      rw [Block.word_free rfl]
      unfold Block.stop at below
      show b.size < 2 ^ 32
      omega
    exact ⟨freed, rfl, rfl, (Tiles.rewrite [b] freed tiles addr stop fits).1⟩
  · cases marks

/-- Both loops end on every tiled heap. The loop of `kmalloc` ends for every size, with memory for some more frames
or for none; that of `kfree` for every block that it can be given. -/
theorem heap_loops_end (tiles : Tiles s.mem HEAP_START bs s.heapTop) (limited : Limited ps s.heapTop s.phys) :
    (∀ size ≤ 2 ^ 32 - 8, ∃ r s', Returns ps size s r s') ∧
      ∀ b ∈ bs, ∀ m, kfreeMark s.mem b.addr = some m → MergeEnds s.heapTop b.addr m := by
  have small : s.heapTop < HEAP_START + 2 ^ 32 := by
    have first := (limited 0 s.phys rfl).1
    omega
  constructor
  · intro size _
    have start : PassedFree (alignSize size) [] none := trivial
    obtain ⟨r, s', yields⟩ := walk_ends bs [] s none ⟨tiles, small⟩ start limited
    exact ⟨r, s', yields.returns⟩
  · intro b member m marks
    obtain ⟨pre, post, rfl⟩ := List.append_of_mem member
    obtain ⟨freed, addr, free, tiles'⟩ := kfreeMark_tiles tiles small marks
    rw [← addr]
    exact merge_ends post m freed tiles' free small

/-- The first page, and a request for more than all memory -/
theorem heap_loops_end_page :
    (∃ r s', Returns countdown 100000 booted.heap r s') ∧
      ∀ m, kfreeMark booted.heap.mem HEAP_START = some m → MergeEnds booted.heap.heapTop HEAP_START m := by
  obtain ⟨allocates, frees⟩ := heap_loops_end booted_tiles booted_limited
  exact ⟨allocates 100000 (by decide), frees firstBlock (List.mem_singleton_self _)⟩

/-! ### More than four gigabytes -/

/-- Where the first block ends for two wrong sizes, 4092 and 8, there are size words of free blocks, and where the
former ends, one of a used block. -/
def circlingBytes : Bytes :=
  store32 (store32 (store32 (fun _ => 0) (HEAP_START + 12) 8176) (HEAP_START + 4096) (2 ^ 32 - 4088))
    (HEAP_START + 2 ^ 32 + 12) 1

variable {first : Nat}

/-- With these sizes of the first block `kmalloc` merges and starts again: the sum wraps to the next size. -/
theorem circling_turn (circles : first % 2 ^ 32 = 8188 ∨ first % 2 ^ 32 = 4092 ∨ first % 2 ^ 32 = 8) :
    ∃ next, (next % 2 ^ 32 = 4092 ∨ next % 2 ^ 32 = 8) ∧
      kmallocTurn countdown 8192 (wideHeap circlingBytes first) HEAP_START none =
        .again (wideHeap circlingBytes next) HEAP_START none := by
  have word : load32 (wideHeap circlingBytes first).mem HEAP_START = first % 2 ^ 32 := wideHeap_first
  have far : load32 (wideHeap circlingBytes first).mem (HEAP_START + 4096) = 2 ^ 32 - 4088 :=
    (wideHeap_inside (by decide) (by decide)).trans (by decide)
  have near : load32 (wideHeap circlingBytes first).mem (HEAP_START + 12) = 8176 :=
    (wideHeap_inside (by decide) (by decide)).trans (by decide)
  have stop : load32 (wideHeap circlingBytes first).mem (HEAP_START + 2 ^ 32 + 12) = 1 :=
    (wideHeap_inside (by decide) (by decide)).trans (by decide)
  have top : (wideHeap circlingBytes first).heapTop = HEAP_START + 2 ^ 32 + 4096 := rfl
  have circle (increase : Nat) (scan : mergeScan (wideHeap circlingBytes first).mem
      (wideHeap circlingBytes first).heapTop HEAP_START 0 = increase) (some : increase ≠ 0)
      (even : first % 2 ^ 32 % 2 = 0) (short : first % 2 ^ 32 < 8196)
      (wraps : (first % 2 ^ 32 + increase) % 2 ^ 32 = 4092 ∨ (first % 2 ^ 32 + increase) % 2 ^ 32 = 8) :
      ∃ next, (next % 2 ^ 32 = 4092 ∨ next % 2 ^ 32 = 8) ∧
        kmallocTurn countdown 8192 (wideHeap circlingBytes first) HEAP_START none =
          .again (wideHeap circlingBytes next) HEAP_START none :=
    ⟨_, wraps, wideHeap_merge scan some even short⟩
  rcases circles with size | size | size <;> rw [size] at word circle
  · refine circle (2 ^ 32 - 4096) ?_ (by decide) (by decide) (by decide) (by decide)
    rw [mergeScan_more word wideHeap_second (by rw [top]; decide) (by decide)]
    exact wideHeap_last
  · refine circle (2 ^ 32 - 4084) ?_ (by decide) (by decide) (by decide) (by decide)
    rw [mergeScan_more word far (by rw [top]; decide) (by decide)]
    exact mergeScan_stops far fun more => absurd more.2 (by
      rw [show HEAP_START + NODE + 4092 + NODE + (2 ^ 32 - 4088) = HEAP_START + 2 ^ 32 + 12 from rfl, stop]
      decide)
  · refine circle 4084 ?_ (by decide) (by decide) (by decide) (by decide)
    rw [mergeScan_more word near (by rw [top]; decide) (by decide)]
    exact (mergeScan_more near wideHeap_second (by rw [top]; decide) (by decide)).trans wideHeap_last

theorem circling_loop (fuel : Nat) : ∀ first, first % 2 ^ 32 = 8188 ∨ first % 2 ^ 32 = 4092 ∨ first % 2 ^ 32 = 8 →
    kmallocLoop countdown 8192 fuel (wideHeap circlingBytes first) HEAP_START none = none := by
  induction fuel with
  | zero => exact fun _ _ => rfl
  | succ fuel ih =>
    intro first circles
    obtain ⟨next, later, turn⟩ := circling_turn circles
    rw [kmallocLoop, turn]
    exact ih next (Or.inr later)

/-- `kmalloc` goes round over the two blocks of a heap of more than four gigabytes. -/
theorem merging_goes_round : ¬ ∀ (σ : Type) (ps : PageSource σ) (s : State σ) (bs : List Block),
    Tiles s.mem HEAP_START bs s.heapTop → (∀ size ≤ 2 ^ 32 - 8, ∃ r s', Returns ps size s r s') ∧
      ∀ b ∈ bs, ∀ m, kfreeMark s.mem b.addr = some m → MergeEnds s.heapTop b.addr m := by
  intro all
  obtain ⟨r, s', k, ends⟩ := (all Nat countdown (wideHeap circlingBytes 8188) wideBlocks wideHeap_tiles).1 8192
    (by decide)
  have none : kmalloc countdown k 8192 (wideHeap circlingBytes 8188) = none := circling_loop k 8188 (Or.inl rfl)
  rw [ends k le_rfl] at none
  cases none

end Landaux.Heap
