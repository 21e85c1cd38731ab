import Landaux.Mm.Heap

/-!
# Blocks of the heap

`Tiles m a bs top`: walking the size words of `m` from `a` visits exactly the blocks `bs` and ends
at `top`. The lemmas say which writes keep a tiling, and what the scan of `kmalloc` adds up.
-/

namespace Landaux.Heap
open Lib Bytes

/-- A block as the walk sees it. Sizes are even, so that bit 0 of the word is free for the mark. -/
structure Block where
  addr : Nat
  size : Nat
  used : Bool
  even : size % 2 = 0

def Block.stop (b : Block) : Nat := b.addr + NODE + b.size

def Block.word (b : Block) : Nat := b.size + b.used.toNat

theorem Block.isUsed_word (b : Block) : isUsed b.word = b.used := by
  have even := b.even
  cases h : b.used <;> simp [isUsed, Block.word, h] <;> omega

theorem Block.clearUsed_word (b : Block) : clearUsed b.word = b.size := by
  have even := b.even
  cases h : b.used <;> simp [clearUsed, Block.word, h] <;> omega

theorem Block.word_free {b : Block} (free : b.used = false) : b.word = b.size := by
  simp [Block.word, free]

theorem Block.addr_lt_stop (b : Block) : b.addr < b.stop := by
  unfold Block.stop NODE
  omega

inductive Tiles (m : Bytes) : Nat → List Block → Nat → Prop where
  | nil (a : Nat) : Tiles m a [] a
  | cons {b : Block} {bs : List Block} {top : Nat} (word : load32 m b.addr = b.word)
      (rest : Tiles m b.stop bs top) : Tiles m b.addr (b :: bs) top

namespace Tiles

variable {m m' : Bytes} {a mid top : Nat} {bs pre post : List Block} {b : Block}

theorem nil_iff : Tiles m a [] top ↔ a = top :=
  ⟨fun h => by cases h; rfl, fun h => h ▸ .nil a⟩

theorem cons_iff : Tiles m a (b :: bs) top ↔
    b.addr = a ∧ load32 m b.addr = b.word ∧ Tiles m b.stop bs top := by
  constructor
  · intro h
    cases h with
    | cons word rest => exact ⟨rfl, word, rest⟩
  · rintro ⟨rfl, word, rest⟩
    exact .cons word rest

theorem le (h : Tiles m a bs top) : a ≤ top := by
  induction h with
  | nil => exact Nat.le_refl _
  | @cons b _ _ _ _ ih => exact Nat.le_trans (Nat.le_of_lt b.addr_lt_stop) ih

theorem append (before : Tiles m a pre mid) (after : Tiles m mid post top) :
    Tiles m a (pre ++ post) top := by
  induction before with
  | nil => exact after
  | cons word _ ih => exact .cons word (ih after)

theorem split (h : Tiles m a (pre ++ post) top) : ∃ mid, Tiles m a pre mid ∧ Tiles m mid post top := by
  induction pre generalizing a with
  | nil => exact ⟨a, .nil a, h⟩
  | cons b pre ih =>
    cases h with
    | cons word rest =>
      obtain ⟨mid, before, after⟩ := ih rest
      exact ⟨mid, .cons word before, after⟩

theorem single (word : load32 m b.addr = b.word) : Tiles m b.addr [b] b.stop := .cons word (.nil _)

/-- A walk that has not reached `top` stands on a block. -/
theorem head (h : Tiles m a bs top) (inside : a < top) :
    ∃ b rest, bs = b :: rest ∧ b.addr = a ∧ load32 m a = b.word ∧ Tiles m b.stop rest top := by
  cases h with
  | nil => omega
  | cons word rest => exact ⟨_, _, rfl, rfl, word, rest⟩

theorem bounds (h : Tiles m a bs top) (member : b ∈ bs) : a ≤ b.addr ∧ b.stop ≤ top := by
  induction h with
  | nil => cases member
  | @cons c _ _ _ rest ih =>
    rcases List.mem_cons.mp member with rfl | member
    · exact ⟨Nat.le_refl _, rest.le⟩
    · have := c.addr_lt_stop
      have := ih member
      omega

theorem word_of_mem (h : Tiles m a bs top) (member : b ∈ bs) : load32 m b.addr = b.word := by
  induction h with
  | nil => cases member
  | cons word _ ih =>
    rcases List.mem_cons.mp member with rfl | member
    · exact word
    · exact ih member

theorem ordered (h : Tiles m a bs top) : bs.Pairwise fun b c => b.stop ≤ c.addr := by
  induction h with
  | nil => exact .nil
  | cons _ rest ih => exact List.pairwise_cons.mpr ⟨fun c member => (rest.bounds member).1, ih⟩

/-- Two blocks of one tiling are the same block or do not overlap. -/
theorem apart {c : Block} (h : Tiles m a bs top) (hb : b ∈ bs) (hc : c ∈ bs) :
    b = c ∨ b.stop ≤ c.addr ∨ c.stop ≤ b.addr := by
  induction h with
  | nil => cases hb
  | @cons first _ _ _ rest ih =>
    rcases List.mem_cons.mp hb with firstB | laterB <;> rcases List.mem_cons.mp hc with firstC | laterC
    · exact Or.inl (firstB.trans firstC.symm)
    · exact Or.inr (Or.inl (firstB ▸ (rest.bounds laterC).1))
    · exact Or.inr (Or.inr (firstC ▸ (rest.bounds laterB).1))
    · exact ih laterB laterC

theorem eq_of_addr {c : Block} (h : Tiles m a bs top) (hb : b ∈ bs) (hc : c ∈ bs)
    (same : b.addr = c.addr) : b = c := by
  have := b.addr_lt_stop
  have := c.addr_lt_stop
  rcases h.apart hb hc with eq | before | after
  · exact eq
  · omega
  · omega

/-- Only the size words matter to a walk. -/
theorem congr_words (h : Tiles m a bs top)
    (same : ∀ b ∈ bs, ∀ y, b.addr ≤ y → y < b.addr + NODE → m' y = m y) : Tiles m' a bs top := by
  induction h with
  | nil => exact .nil _
  | cons word _ ih =>
    refine .cons ?_ (ih fun b member => same b (List.mem_cons_of_mem _ member))
    rw [load32_congr (same _ List.mem_cons_self), word]

theorem congr (h : Tiles m a bs top) (same : ∀ y, a ≤ y → y < top → m' y = m y) :
    Tiles m' a bs top := by
  refine h.congr_words fun b member y low high => same y ?_ ?_
  · have := (h.bounds member).1
    omega
  · have := (h.bounds member).2
    unfold Block.stop at this
    omega

end Tiles

/-- The bytes of a list of blocks, their size words included. -/
def span : List Block → Nat
  | [] => 0
  | b :: bs => NODE + b.size + span bs

theorem span_append (bs cs : List Block) : span (bs ++ cs) = span bs + span cs := by
  induction bs with
  | nil => simp [span]
  | cons b bs ih => simp only [List.cons_append, span, ih]; omega

theorem span_even (bs : List Block) : span bs % 2 = 0 := by
  induction bs with
  | nil => rfl
  | cons b bs ih =>
    have := b.even
    simp only [span, NODE]
    omega

theorem Tiles.span_eq {m : Bytes} {a top : Nat} {bs : List Block} (h : Tiles m a bs top) :
    a + span bs = top := by
  induction h with
  | nil => rfl
  | cons _ _ ih =>
    unfold Block.stop at ih
    simp only [span]
    omega

/-- Rewriting a stretch of blocks in place: the words outside the stretch stay as they are and the
new blocks tile the same bytes. -/
theorem Tiles.replace {m m' : Bytes} {a top : Nat} {pre new post : List Block} (old : List Block)
    (h : Tiles m a (pre ++ (old ++ post)) top)
    (fresh : Tiles m' (a + span pre) new (a + span pre + span old))
    (same : ∀ y, y < a + span pre ∨ a + span pre + span old ≤ y → m' y = m y) :
    Tiles m' a (pre ++ (new ++ post)) top := by
  obtain ⟨lo, before, here⟩ := h.split
  obtain ⟨hi, middle, after⟩ := here.split
  have atLo := before.span_eq
  have atHi := middle.span_eq
  subst atLo atHi
  refine (before.congr fun y _ below => same y (Or.inl below)).append (fresh.append ?_)
  exact after.congr fun y above _ => same y (Or.inr above)

/-- One block takes the place of a stretch of blocks. -/
theorem Tiles.rewrite {m : Bytes} {a top : Nat} {pre post : List Block} (old : List Block) (new : Block)
    (h : Tiles m a (pre ++ (old ++ post)) top) (start : new.addr = a + span pre)
    (stop : new.stop = a + span pre + span old) (fits : new.word < 2 ^ 32) :
    Tiles (store32 m new.addr new.word) a (pre ++ new :: post) top ∧
      ∀ y, y < a + span pre ∨ a + span pre + span old ≤ y → store32 m new.addr new.word y = m y := by
  have outside : ∀ y, y < a + span pre ∨ a + span pre + span old ≤ y → store32 m new.addr new.word y = m y := by
    intro y side
    refine store32_outside ?_
    rw [← stop, ← start] at side
    unfold Block.stop NODE at side
    omega
  have fresh : Tiles (store32 m new.addr new.word) (a + span pre) [new] (a + span pre + span old) := by
    rw [← stop, ← start]
    exact .single (load32_store32_of_lt fits)
  exact ⟨h.replace old fresh outside, outside⟩

/-- The blocks around a rewritten stretch keep their bytes. -/
theorem Tiles.replace_frame {m m' : Bytes} {a top : Nat} {pre post : List Block} {b : Block}
    (old : List Block) (h : Tiles m a (pre ++ (old ++ post)) top) (member : b ∈ pre ∨ b ∈ post)
    (same : ∀ y, y < a + span pre ∨ a + span pre + span old ≤ y → m' y = m y) :
    ∀ y, b.addr ≤ y → y < b.stop → m' y = m y := by
  obtain ⟨lo, before, here⟩ := h.split
  obtain ⟨hi, middle, after⟩ := here.split
  have atLo := before.span_eq
  have atHi := middle.span_eq
  subst atLo atHi
  intro y low high
  rcases member with member | member
  · exact same y (Or.inl (Nat.lt_of_lt_of_le high (before.bounds member).2))
  · exact same y (Or.inr (Nat.le_trans (after.bounds member).1 low))

/-- The block that a walk over `pre` has reached. -/
theorem Tiles.at_span {m : Bytes} {a top : Nat} {pre post : List Block} {b : Block}
    (h : Tiles m a (pre ++ b :: post) top) :
    b.addr = a + span pre ∧ Tiles m b.addr (b :: post) top := by
  obtain ⟨mid, before, after⟩ := h.split
  obtain ⟨here, -, -⟩ := Tiles.cons_iff.mp after
  have start := before.span_eq
  subst start
  exact ⟨here, here ▸ after⟩

theorem Tiles.eq_of_stop {m : Bytes} {a top : Nat} {bs : List Block} {b c : Block}
    (h : Tiles m a bs top) (hb : b ∈ bs) (hc : c ∈ bs) (same : b.stop = c.stop) : b = c := by
  have := b.addr_lt_stop
  have := c.addr_lt_stop
  rcases h.apart hb hc with eq | before | after
  · exact eq
  · omega
  · omega

/-- The scan stands on a free block and counts the free blocks up to the next used one. -/
theorem mergeScan_spec {m : Bytes} {top n : Nat} {b : Block} {post : List Block} (increase : Nat)
    (tiles : Tiles m n (b :: post) top) (free : b.used = false)
    (room : increase + (top - b.stop) < 2 ^ 32) :
    ∃ frees rest, post = frees ++ rest ∧ (∀ c ∈ frees, c.used = false) ∧
      (∀ c ∈ rest.head?, c.used = true) ∧ mergeScan m top n increase = increase + span frees := by
  induction post generalizing n b increase with
  | nil =>
    obtain ⟨rfl, word, rest⟩ := Tiles.cons_iff.mp tiles
    have last : b.stop = top := Tiles.nil_iff.mp rest
    refine ⟨[], [], rfl, by simp, by simp, ?_⟩
    rw [mergeScan, word, b.word_free free,
      if_neg (fun h => absurd h.1 (by unfold Block.stop at last; omega))]
    rfl
  | cons c post ih =>
    obtain ⟨rfl, word, rest⟩ := Tiles.cons_iff.mp tiles
    obtain ⟨next, wordc, restc⟩ := Tiles.cons_iff.mp rest
    have small := restc.le
    have inside := c.addr_lt_stop
    rw [mergeScan, word, b.word_free free]
    unfold Block.stop at next small inside room
    rw [← next, wordc, c.isUsed_word]
    cases used : c.used with
    | true => exact ⟨[], c :: post, rfl, by simp, by simp [used], by simp [span]⟩
    | false =>
      rw [if_pos ⟨by omega, rfl⟩, c.word_free used, Nat.mod_eq_of_lt (by omega)]
      obtain ⟨frees, others, rfl, allFree, stops, total⟩ :=
        ih (increase + NODE + c.size) (.cons wordc restc) used
          (by unfold Block.stop; omega)
      refine ⟨c :: frees, others, rfl, ?_, stops, ?_⟩
      · intro d member
        rcases List.mem_cons.mp member with rfl | member
        · exact used
        · exact allFree d member
      · rw [total]
        simp only [span]
        omega

end Landaux.Heap
