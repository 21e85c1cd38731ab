import Landaux.Mm.HeapRuns

/-!
# First fit

`kmalloc` merges adjacent free blocks on its way. What it finds is stated over runs of free blocks: it
takes the lowest run that is large enough, and otherwise extends the last one.
-/

namespace Landaux.Heap
open Lib Bytes

/-! ### Runs of free blocks -/

/-- `run` is a run of `bs`: adjacent free blocks with no other free block next to them. -/
structure FreeRun (bs pre run post : List Block) : Prop where
  whole : bs = pre ++ (run ++ post)
  nonempty : run ≠ []
  free : ∀ b ∈ run, b.used = false
  before : ∀ b ∈ pre.getLast?, b.used = true
  after : ∀ b ∈ post.head?, b.used = true

/-- The size of a run merged into one block. -/
def payload (run : List Block) : Nat := span run - NODE

/-- `run` is the lowest run of `bs` that holds `want` bytes. -/
structure FirstFit (want : Nat) (bs pre run post : List Block) : Prop where
  isRun : FreeRun bs pre run post
  fits : want ≤ payload run
  lowest : ∀ pre' run' post', FreeRun bs pre' run' post' → want ≤ payload run' → span pre ≤ span pre'

def NoFit (want : Nat) (bs : List Block) : Prop :=
  ∀ pre run post, FreeRun bs pre run post → payload run < want

/-- Induction over a list of blocks, one used block or one whole run at a time. -/
theorem runs_induction {motive : List Block → Prop} (nil : motive [])
    (used : ∀ b bs, b.used = true → motive bs → motive (b :: bs))
    (run : ∀ run bs, run ≠ [] → (∀ b ∈ run, b.used = false) → (∀ b ∈ bs.head?, b.used = true) →
      motive bs → motive (run ++ bs)) (bs : List Block) : motive bs := by
  induction size : bs.length using Nat.strong_induction_on generalizing bs with
  | _ size ih =>
    cases bs with
    | nil => exact nil
    | cons b bs =>
      subst size
      cases marked : b.used with
      | true => exact used b bs marked (ih bs.length (by simp) bs rfl)
      | false =>
        have split := List.takeWhile_append_dropWhile (p := fun c : Block => !c.used) (l := bs)
        rw [← split, ← List.cons_append]
        apply run
        · simp
        · intro c member
          rcases List.mem_cons.mp member with rfl | inRun
          · exact marked
          · simpa using List.all_eq_true.mp List.all_takeWhile c inRun
        · intro c first
          have stops := List.head?_dropWhile_not (fun c : Block => !c.used) bs
          rw [Option.mem_def.mp first] at stops
          simpa using stops
        · have shorter := (List.dropWhile_sublist (fun c : Block => !c.used) (l := bs)).length_le
          exact ih _ (Nat.lt_succ_of_le shorter) _ rfl

variable {want : Nat} {b : Block} {bs pre run post front : List Block}

theorem FreeRun.of_used (h : FreeRun (b :: bs) pre run post) (used : b.used = true) :
    ∃ pre', pre = b :: pre' ∧ FreeRun bs pre' run post := by
  obtain ⟨whole, nonempty, free, before, after⟩ := h
  cases pre with
  | nil =>
    cases run with
    | nil => exact absurd rfl nonempty
    | cons c run =>
      have same : b = c := by simpa using (List.cons.inj whole).1
      have clear := free c List.mem_cons_self
      rw [← same, used] at clear
      cases clear
  | cons c pre =>
    obtain ⟨rfl, rest⟩ := List.cons.inj whole
    refine ⟨pre, rfl, rest, nonempty, free, fun d last => ?_, after⟩
    cases pre with
    | nil => cases last
    | cons e pre => exact before d (by rwa [List.getLast?_cons_cons])

theorem FreeRun.cons (h : FreeRun bs pre run post) (used : b.used = true) :
    FreeRun (b :: bs) (b :: pre) run post := by
  refine ⟨congrArg (List.cons b) h.whole, h.nonempty, h.free, fun d last => ?_, h.after⟩
  cases pre with
  | nil =>
    obtain rfl : b = d := by simpa using last
    exact used
  | cons e pre => exact h.before d (by rwa [List.getLast?_cons_cons] at last)

theorem FreeRun.at_front (nonempty : front ≠ []) (free : ∀ b ∈ front, b.used = false)
    (stops : ∀ b ∈ bs.head?, b.used = true) : FreeRun (front ++ bs) [] front bs :=
  ⟨rfl, nonempty, free, by simp, stops⟩

/-- Where a run of free blocks ends is determined. -/
theorem runs_unique {run' post' : List Block} (free : ∀ b ∈ run, b.used = false)
    (free' : ∀ b ∈ run', b.used = false) (stops : ∀ b ∈ post.head?, b.used = true)
    (stops' : ∀ b ∈ post'.head?, b.used = true) (eq : run ++ post = run' ++ post') :
    run = run' ∧ post = post' := by
  induction run generalizing run' with
  | nil =>
    cases run' with
    | nil => exact ⟨rfl, eq⟩
    | cons c run' =>
      have marked := stops c (by rw [← List.nil_append post, eq]; rfl)
      rw [free' c List.mem_cons_self] at marked
      cases marked
  | cons b run ih =>
    cases run' with
    | nil =>
      have marked := stops' b (by rw [← List.nil_append post', ← eq]; rfl)
      rw [free b List.mem_cons_self] at marked
      cases marked
    | cons c run' =>
      obtain ⟨rfl, tail⟩ := List.cons.inj eq
      obtain ⟨rfl, rfl⟩ := ih (fun d member => free d (List.mem_cons_of_mem _ member))
        (fun d member => free' d (List.mem_cons_of_mem _ member)) tail
      exact ⟨rfl, rfl⟩

/-- A run either is the one in front or lies behind it. -/
theorem FreeRun.of_front (h : FreeRun (front ++ bs) pre run post)
    (free : ∀ b ∈ front, b.used = false) (stops : ∀ b ∈ bs.head?, b.used = true) :
    pre = [] ∧ run = front ∧ post = bs ∨ ∃ pre', pre = front ++ pre' ∧ FreeRun bs pre' run post := by
  obtain ⟨whole, nonempty', free', before, after⟩ := h
  rcases List.append_eq_append_iff.mp whole with ⟨gap, eq, rest⟩ | ⟨gap, eq, rest⟩
  · right
    refine ⟨gap, eq, rest, nonempty', free', fun d last => ?_, after⟩
    exact before d (by rw [eq, List.getLast?_append, Option.mem_def.mp last]; rfl)
  · left
    have none : pre = [] := by
      by_contra some
      have last := List.getLast?_eq_some_getLast some
      have marked := before _ last
      rw [free _ (eq ▸ List.mem_append_left gap (List.getLast_mem some))] at marked
      cases marked
    subst none
    obtain rfl : front = gap := eq
    refine ⟨rfl, ?_⟩
    exact runs_unique free' free after stops rest

theorem FreeRun.behind (h : FreeRun bs pre run post) (stops : ∀ b ∈ bs.head?, b.used = true) :
    FreeRun (front ++ bs) (front ++ pre) run post := by
  refine ⟨by rw [h.whole, List.append_assoc], h.nonempty, h.free, fun d last => ?_, h.after⟩
  cases pre with
  | nil =>
    obtain ⟨c, run', eq⟩ := List.exists_cons_of_ne_nil h.nonempty
    have marked := stops c (by rw [h.whole, eq]; rfl)
    rw [h.free c (by rw [eq]; exact List.mem_cons_self)] at marked
    cases marked
  | cons c pre =>
    rw [List.getLast?_append_of_ne_nil _ (List.cons_ne_nil c pre)] at last
    exact h.before d last

/-! ### The loop from one block on -/

variable {σ : Type} {ps : PageSource σ} {size n : Nat} {last : Option Nat} {r : Result}
  {s s' t : State σ} {passed rest : List Block}

/-- The loop ends with `r` in state `s'`, given enough fuel. -/
def Yields (ps : PageSource σ) (size : Nat) (s : State σ) (n : Nat) (last : Option Nat) (r : Result)
    (s' : State σ) : Prop :=
  ∃ k, ∀ fuel, kmallocLoop ps size (k + fuel) s n last = some (r, s')

theorem Yields.done (turn : kmallocTurn ps size s n last = .done r s') :
    Yields ps size s n last r s' := by
  refine ⟨1, fun fuel => ?_⟩
  rw [Nat.add_comm, kmallocLoop, turn]

theorem Yields.again {n' : Nat} {last' : Option Nat} (rest : Yields ps size t n' last' r s')
    (turn : kmallocTurn ps size s n last = .again t n' last') : Yields ps size s n last r s' := by
  obtain ⟨k, loop⟩ := rest
  refine ⟨k + 1, fun fuel => ?_⟩
  rw [Nat.add_right_comm, kmallocLoop, turn]
  exact loop fuel

/-- The loop has passed `passed` and stands in front of `rest`, in a heap whose sizes fit their words. -/
structure At (s : State σ) (passed rest : List Block) : Prop where
  tiles : Tiles s.mem HEAP_START (passed ++ rest) s.heapTop
  small : s.heapTop < HEAP_START + 2 ^ 32

theorem At.block (h : At s passed (b :: rest)) : b.addr = HEAP_START + span passed ∧
    load32 s.mem b.addr = b.word ∧ b.stop ≤ s.heapTop ∧
      HEAP_START + span (passed ++ [b]) = b.addr + NODE + b.size := by
  obtain ⟨addr, here⟩ := h.tiles.at_span
  obtain ⟨-, word, after⟩ := Tiles.cons_iff.mp here
  refine ⟨addr, word, after.le, ?_⟩
  rw [span_append, addr]
  simp only [span]
  omega

theorem At.snoc (h : At s passed (b :: rest)) : At s (passed ++ [b]) rest :=
  ⟨by rw [List.append_assoc]; exact h.tiles, h.small⟩

theorem At.turn_used (ps : PageSource σ) (last : Option Nat) (h : At s passed (b :: rest)) (used : b.used = true) :
    kmallocTurn ps size s (HEAP_START + span passed) last =
      .again s (HEAP_START + span (passed ++ [b])) none := by
  obtain ⟨addr, word, below, next⟩ := h.block
  have inside := b.addr_lt_stop
  rw [kmallocTurn, ← addr, if_neg (by omega), word, b.isUsed_word, if_pos used, b.clearUsed_word, next]

theorem At.turn_fits (ps : PageSource σ) (last : Option Nat) (h : At s passed (b :: rest))
    (free : b.used = false) (fits : size + NODE ≤ b.size) :
    ∃ mem, kmallocTurn ps size s (HEAP_START + span passed) last =
      .done (.ret (HEAP_START + span passed + NODE)) { s with mem } := by
  obtain ⟨addr, word, below, -⟩ := h.block
  have inside := b.addr_lt_stop
  rw [kmallocTurn, ← addr, if_neg (by omega), word, b.isUsed_word, if_neg (by simp [free]),
    b.word_free free, if_pos fits]
  exact ⟨_, rfl⟩

/-- A free block that is too small, with no free block after it. -/
theorem At.turn_pass (ps : PageSource σ) (last : Option Nat) (h : At s passed (b :: rest))
    (free : b.used = false) (short : b.size < size + NODE) (stops : ∀ c ∈ rest.head?, c.used = true) :
    kmallocTurn ps size s (HEAP_START + span passed) last =
      .again s (HEAP_START + span (passed ++ [b])) (some (HEAP_START + span passed)) := by
  obtain ⟨addr, word, below, next⟩ := h.block
  have inside := b.addr_lt_stop
  have small := h.small
  have here := h.tiles.at_span.2
  obtain ⟨frees, others, eq, allFree, -, scan⟩ := mergeScan_spec 0 here free (by omega)
  have none : frees = [] := by
    cases frees with
    | nil => rfl
    | cons c frees =>
      have marked := stops c (by rw [eq]; rfl)
      rw [allFree c List.mem_cons_self] at marked
      cases marked
  subst none
  rw [kmallocTurn, ← addr, if_neg (by omega), word, b.isUsed_word, if_neg (by simp [free]),
    b.word_free free, if_neg (by omega)]
  dsimp only
  rw [scan, if_neg (by simp [span]), next]

/-- A free block that is too small takes in the free blocks after it. -/
theorem At.turn_merge {frees : List Block} (ps : PageSource σ) (last : Option Nat)
    (h : At s passed (b :: (frees ++ rest)))
    (free : b.used = false) (short : b.size < size + NODE) (more : frees ≠ [])
    (allFree : ∀ c ∈ frees, c.used = false) (stops : ∀ c ∈ rest.head?, c.used = true) :
    ∃ mem merged, kmallocTurn ps size s (HEAP_START + span passed) last =
        .again { s with mem } (HEAP_START + span passed) last ∧
      At { s with mem } passed (merged :: rest) ∧ merged.used = false ∧
      merged.size = b.size + span frees := by
  obtain ⟨addr, word, below, -⟩ := h.block
  have inside := b.addr_lt_stop
  have small := h.small
  have here := h.tiles.at_span.2
  have whole := here.span_eq
  simp only [span, span_append] at whole
  obtain ⟨frees', others, eq, allFree', stops', scan⟩ := mergeScan_spec 0 here free (by omega)
  obtain ⟨rfl, rfl⟩ := runs_unique allFree allFree' stops stops' eq
  let merged : Block := ⟨b.addr, b.size + span frees, false, by
    have even := b.even
    have evens := span_even frees
    omega⟩
  have outside : ∀ y, y < HEAP_START + span passed ∨
      HEAP_START + span passed + span (b :: frees) ≤ y →
      store32 s.mem b.addr (b.size + span frees) y = s.mem y := by
    intro y side
    refine store32_outside ?_
    simp only [span, NODE, ← addr] at side
    omega
  have fresh : Tiles (store32 s.mem b.addr (b.size + span frees)) (HEAP_START + span passed) [merged]
      (HEAP_START + span passed + span (b :: frees)) := by
    have ends : HEAP_START + span passed + span (b :: frees) = merged.stop := by
      rw [← addr]
      simp only [span, Block.stop, merged]
      omega
    rw [ends, ← addr]
    apply Tiles.single (b := merged)
    rw [load32_store32_of_lt (by omega)]
    rfl
  have tiles : Tiles s.mem HEAP_START (passed ++ ((b :: frees) ++ rest)) s.heapTop := h.tiles
  refine ⟨store32 s.mem b.addr (b.size + span frees), merged, ?_,
    ⟨Tiles.replace (b :: frees) tiles fresh outside, small⟩, rfl, rfl⟩
  have gains : 0 < span frees := by
    cases frees with
    | nil => exact absurd rfl more
    | cons c frees =>
      simp only [span, NODE]
      omega
  rw [kmallocTurn, ← addr, if_neg (by omega), word, b.isUsed_word, if_neg (by simp [free]),
    b.word_free free, if_neg (by omega)]
  dsimp only
  rw [scan, if_pos (by omega), Nat.zero_add]

/-! ### The loop over the runs -/

theorem payload_cons (b : Block) (bs : List Block) : payload (b :: bs) = b.size + span bs := by
  simp only [payload, span]
  omega

theorem run_fits (ps : PageSource σ) (last : Option Nat) (h : At s passed (run ++ post))
    (nonempty : run ≠ []) (free : ∀ b ∈ run, b.used = false) (stops : ∀ b ∈ post.head?, b.used = true)
    (fits : size + NODE ≤ payload run) :
    ∃ mem, Yields ps size s (HEAP_START + span passed) last (.ret (HEAP_START + span passed + NODE))
      { s with mem } := by
  obtain ⟨b, frees, rfl⟩ := List.exists_cons_of_ne_nil nonempty
  rw [payload_cons] at fits
  have bFree := free b List.mem_cons_self
  by_cases alone : size + NODE ≤ b.size
  · obtain ⟨mem, turn⟩ := h.turn_fits ps last bFree alone
    exact ⟨mem, .done turn⟩
  · have more : frees ≠ [] := by
      rintro rfl
      exact alone fits
    have short : b.size < size + NODE := by omega
    obtain ⟨mem, merged, turn, h', free', size'⟩ := h.turn_merge ps last bFree short more
      (fun c member => free c (List.mem_cons_of_mem _ member)) stops
    rw [← size'] at fits
    obtain ⟨mem', turn'⟩ := h'.turn_fits ps last free' fits
    exact ⟨mem', (Yields.done turn').again turn⟩

/-- A run that is too small is merged and passed. -/
theorem run_small (ps : PageSource σ) (last : Option Nat) (h : At s passed (run ++ post)) (nonempty : run ≠ [])
    (free : ∀ b ∈ run, b.used = false) (stops : ∀ b ∈ post.head?, b.used = true)
    (short : payload run < size + NODE) : ∃ mem merged,
      At { s with mem } (passed ++ [merged]) post ∧ merged.used = false ∧ merged.size = payload run ∧
      ∀ r s', Yields ps size { s with mem } (HEAP_START + span (passed ++ [merged]))
        (some (HEAP_START + span passed)) r s' → Yields ps size s (HEAP_START + span passed) last r s' := by
  obtain ⟨b, frees, rfl⟩ := List.exists_cons_of_ne_nil nonempty
  rw [payload_cons] at short ⊢
  have bFree := free b List.mem_cons_self
  cases frees with
  | nil =>
    have turn := h.turn_pass ps last bFree short stops
    exact ⟨s.mem, b, h.snoc, bFree, rfl, fun r s' rest => rest.again turn⟩
  | cons c frees =>
    have alone : b.size < size + NODE := by omega
    obtain ⟨mem, merged, turn, h', free', size'⟩ := h.turn_merge ps last bFree alone
      (List.cons_ne_nil c frees) (fun d member => free d (List.mem_cons_of_mem _ member)) stops
    rw [← size'] at short
    have pass := h'.turn_pass ps last free' short stops
    exact ⟨mem, merged, h'.snoc, free', size', fun r s' rest => (rest.again pass).again turn⟩

theorem FirstFit.of_used (h : FirstFit want (b :: bs) pre run post) (used : b.used = true) :
    ∃ pre', pre = b :: pre' ∧ FirstFit want bs pre' run post := by
  obtain ⟨pre', rfl, isRun⟩ := h.isRun.of_used used
  refine ⟨pre', rfl, isRun, h.fits, fun p r q other fits => ?_⟩
  have lowest := h.lowest _ _ _ (other.cons used) fits
  simp only [span] at lowest
  omega

theorem NoFit.tail (h : NoFit want (b :: bs)) (used : b.used = true) : NoFit want bs :=
  fun _ _ _ isRun => h _ _ _ (isRun.cons used)

theorem NoFit.behind (h : NoFit want (front ++ bs)) (stops : ∀ b ∈ bs.head?, b.used = true) :
    NoFit want bs := fun _ _ _ isRun => h _ _ _ (isRun.behind stops)

theorem span_positive (nonempty : run ≠ []) : 0 < span run := by
  obtain ⟨b, bs, rfl⟩ := List.exists_cons_of_ne_nil nonempty
  simp only [span, NODE]
  omega

theorem span_merged (nonempty : run ≠ []) (merged : b.size = payload run) : span run = NODE + b.size := by
  obtain ⟨c, bs, rfl⟩ := List.exists_cons_of_ne_nil nonempty
  rw [merged, payload_cons]
  simp only [span]
  omega

/-- The loop stops at the first run that is large enough. -/
theorem walk_fits (rest : List Block) : ∀ passed (s : State σ) last pre run post, At s passed rest →
    FirstFit (size + NODE) rest pre run post →
    ∃ mem, Yields ps size s (HEAP_START + span passed) last
      (.ret (HEAP_START + span passed + span pre + NODE)) { s with mem } := by
  induction rest using runs_induction with
  | nil =>
    intro passed s last pre run post _ fit
    have none := fit.isRun.whole
    simp at none
    exact absurd none.2.1 fit.isRun.nonempty
  | used b bs used ih =>
    intro passed s last pre run post h fit
    obtain ⟨pre', rfl, fit'⟩ := fit.of_used used
    obtain ⟨mem, rest⟩ := ih (passed ++ [b]) s none pre' run post h.snoc fit'
    have place : HEAP_START + span (passed ++ [b]) + span pre' = HEAP_START + span passed + span (b :: pre') := by
      rw [span_append]
      simp only [span]
      omega
    rw [place] at rest
    exact ⟨mem, rest.again (h.turn_used ps last used)⟩
  | run front bs nonempty free stops ih =>
    intro passed s last pre run post h fit
    rcases fit.isRun.of_front free stops with ⟨rfl, rfl, rfl⟩ | ⟨pre', rfl, isRun⟩
    · exact run_fits ps last h nonempty free stops fit.fits
    · have short : payload front < size + NODE := by
        by_contra fits
        have lowest := fit.lowest [] front bs (.at_front nonempty free stops) (by omega)
        have positive := span_positive nonempty
        simp only [span, span_append] at lowest
        omega
      have fit' : FirstFit (size + NODE) bs pre' run post := by
        refine ⟨isRun, fit.fits, fun p r q other fits => ?_⟩
        have lowest := fit.lowest _ _ _ (other.behind stops) fits
        rw [span_append, span_append] at lowest
        omega
      obtain ⟨mem, merged, h', -, size', leads⟩ := run_small ps last h nonempty
        free stops short
      obtain ⟨mem', rest⟩ := ih _ _ (some (HEAP_START + span passed)) pre' run post h' fit'
      have place : HEAP_START + span (passed ++ [merged]) + span pre' =
          HEAP_START + span passed + span (front ++ pre') := by
        have whole := span_merged nonempty size'
        rw [span_append, span_append, whole]
        simp only [span]
        omega
      rw [place] at rest
      exact ⟨mem', leads _ _ rest⟩

/-- Where no run is large enough, the loop comes to `heap_top` with `last_free_node` at the last run. -/
theorem walk_none (rest : List Block) : ∀ passed (s : State σ) last pre run, At s passed rest →
    NoFit (size + NODE) rest → FreeRun rest pre run [] → ∃ mem passed' b,
      At { s with mem } (passed' ++ [b]) [] ∧ span passed' = span passed + span pre ∧
      b.used = false ∧ b.size = payload run ∧
      ∀ r s', Yields ps size { s with mem } (HEAP_START + span (passed' ++ [b]))
        (some (HEAP_START + span passed')) r s' → Yields ps size s (HEAP_START + span passed) last r s' := by
  induction rest using runs_induction with
  | nil =>
    intro passed s last pre run _ _ isRun
    have none := isRun.whole
    simp at none
    exact absurd none.2 isRun.nonempty
  | used b bs used ih =>
    intro passed s last pre run h noFit isRun
    obtain ⟨pre', rfl, isRun'⟩ := isRun.of_used used
    obtain ⟨mem, passed', b', h', place, rest⟩ := ih (passed ++ [b]) s none pre' run h.snoc
      (noFit.tail used) isRun'
    obtain ⟨free, size', leads⟩ := rest
    refine ⟨mem, passed', b', h', ?_, free, size', fun r s' more => ?_⟩
    · rw [place, span_append]
      simp only [span]
      omega
    · exact (leads r s' more).again (h.turn_used ps last used)
  | run front bs nonempty free stops ih =>
    intro passed s last pre run h noFit isRun
    have short := noFit _ _ _ (.at_front nonempty free stops)
    obtain ⟨mem, merged, h', free', size', leads⟩ := run_small ps last h nonempty free stops short
    rcases isRun.of_front free stops with ⟨rfl, rfl, rfl⟩ | ⟨pre', rfl, isRun'⟩
    · exact ⟨mem, passed, merged, h', rfl, free', size', leads⟩
    · obtain ⟨mem', passed', b', h'', place, free'', size'', leads'⟩ := ih _ _
        (some (HEAP_START + span passed)) pre' run h' (noFit.behind stops) isRun'
      refine ⟨mem', passed', b', h'', ?_, free'', size'', fun r s' more => leads r s' (leads' r s' more)⟩
      have whole := span_merged nonempty size'
      rw [place, span_append, span_append]
      simp only [span]
      omega

/-! ### Growing -/

/-- The allocator's state after the heap has grown from `top` by `k` pages; `none` when
`alloc_phys_page` fails before. -/
def grows (ps : PageSource σ) : Nat → Nat → σ → Option σ
  | 0, _, phys => some phys
  | k + 1, top, phys =>
    let (frame, phys) := ps.allocPhysPage phys
    if frame = 0 then none else grows ps k (top + PAGE_SIZE) (ps.mapKernelPage frame top phys)

/-- Memory ends before the heap has 2^32 bytes, and frame numbers fit a `u32`: `map_memory` takes at
most a gigabyte. -/
def Limited (ps : PageSource σ) (top : Nat) (phys : σ) : Prop :=
  ∀ k phys', grows ps k top phys = some phys' →
    top + k * PAGE_SIZE < HEAP_START + 2 ^ 32 ∧ (ps.allocPhysPage phys').1 < 2 ^ 32

theorem Limited.next {top frame : Nat} {phys phys' : σ} (limited : Limited ps top phys)
    (alloc : ps.allocPhysPage phys = (frame, phys')) (nonzero : frame ≠ 0) :
    Limited ps (top + PAGE_SIZE) (ps.mapKernelPage frame top phys') := by
  intro k later grown
  have more := limited (k + 1) later (by rw [grows, alloc]; exact (if_neg nonzero).trans grown)
  rw [Nat.add_mul, Nat.one_mul] at more
  omega

/-- One page more: the last block takes it in. -/
theorem At.turn_grow {frame : Nat} {phys : σ} (h : At s (passed ++ [b]) []) (free : b.used = false)
    (limited : Limited ps s.heapTop s.phys) (alloc : ps.allocPhysPage s.phys = (frame, phys))
    (nonzero : frame ≠ 0) : ∃ mem grown,
      kmallocTurn ps size s (HEAP_START + span (passed ++ [b])) (some (HEAP_START + span passed)) =
        .again ⟨mem, s.heapTop + PAGE_SIZE, ps.mapKernelPage frame s.heapTop phys⟩
          (HEAP_START + span passed) (some (HEAP_START + span passed)) ∧
      At (⟨mem, s.heapTop + PAGE_SIZE, ps.mapKernelPage frame s.heapTop phys⟩ : State σ) passed [grown] ∧
      grown.used = false ∧ grown.size = b.size + PAGE_SIZE := by
  have top : HEAP_START + span (passed ++ [b]) = s.heapTop := by
    rw [← h.tiles.span_eq, List.append_nil]
  have tiles := h.tiles
  rw [List.append_nil] at tiles
  obtain ⟨addr, here⟩ := tiles.at_span
  obtain ⟨-, word, after⟩ := Tiles.cons_iff.mp here
  have stop : b.stop = s.heapTop := Tiles.nil_iff.mp after
  have narrow : frame < 2 ^ 32 := by
    have bound := (limited 0 s.phys rfl).2
    rwa [alloc] at bound
  have room := (limited 1 (ps.mapKernelPage frame s.heapTop phys) (by
    rw [grows, alloc]
    exact if_neg nonzero)).1
  rw [Nat.one_mul] at room
  rw [b.word_free free] at word
  let grown : Block := ⟨b.addr, b.size + PAGE_SIZE, false, by have := b.even; unfold PAGE_SIZE; omega⟩
  have fits : b.size + PAGE_SIZE < 2 ^ 32 := by
    unfold Block.stop at stop
    omega
  have outside : ∀ y, y < b.addr → store32 s.mem b.addr (b.size + PAGE_SIZE) y = s.mem y :=
    fun y below => store32_outside (Or.inl below)
  refine ⟨store32 s.mem b.addr (b.size + PAGE_SIZE), grown, ?_, ⟨?_, room⟩, rfl, rfl⟩
  · rw [kmallocTurn, top, if_pos le_rfl, growTurn, if_neg (by omega), alloc]
    dsimp only
    rw [Nat.mod_eq_of_lt narrow, if_neg nonzero, ← addr, word]
  · obtain ⟨mid, before, -⟩ := tiles.split
    have atMid := before.span_eq
    rw [← addr] at atMid
    subst atMid
    have single : Tiles (store32 s.mem b.addr (b.size + PAGE_SIZE)) grown.addr [grown] grown.stop := by
      apply Tiles.single
      rw [load32_store32_of_lt fits]
      rfl
    have ends : grown.stop = s.heapTop + PAGE_SIZE := by
      rw [← stop]
      simp only [Block.stop, grown]
      omega
    rw [ends] at single
    exact (before.congr fun y _ below => outside y below).append single

/-- From the last run on, the heap grows by the least number of pages that is enough. -/
theorem grow_spec (k : Nat) : ∀ (s : State σ) passed b, At s (passed ++ [b]) [] → b.used = false →
    Limited ps s.heapTop s.phys → size + NODE ≤ b.size + k * PAGE_SIZE →
    (∀ j, j < k → b.size + j * PAGE_SIZE < size + NODE) → 0 < k →
    (∀ phys', grows ps k s.heapTop s.phys = some phys' → ∃ mem,
      Yields ps size s (HEAP_START + span (passed ++ [b])) (some (HEAP_START + span passed))
        (.ret (HEAP_START + span passed + NODE)) ⟨mem, s.heapTop + k * PAGE_SIZE, phys'⟩) ∧
    (grows ps k s.heapTop s.phys = none → ∃ s',
      Yields ps size s (HEAP_START + span (passed ++ [b])) (some (HEAP_START + span passed)) .null s') := by
  induction k with
  | zero => exact fun _ _ _ _ _ _ _ _ positive => absurd positive (by omega)
  | succ k ih =>
    intro s passed b h free limited enough least _
    have top : HEAP_START + span (passed ++ [b]) = s.heapTop := by
      rw [← h.tiles.span_eq, List.append_nil]
    have narrow := (limited 0 s.phys rfl).2
    rw [grows]
    cases alloc : ps.allocPhysPage s.phys with
    | mk frame phys =>
    rw [alloc] at narrow
    dsimp only at narrow ⊢
    by_cases failed : frame = 0
    · rw [if_pos failed]
      refine ⟨fun _ never => absurd never (by simp), fun _ => ⟨{ s with phys }, .done ?_⟩⟩
      rw [kmallocTurn, top, if_pos le_rfl, growTurn, if_neg (by omega), alloc]
      dsimp only
      rw [Nat.mod_eq_of_lt narrow, if_pos failed]
    rw [if_neg failed]
    obtain ⟨mem, grown, turn, h', free', size'⟩ := h.turn_grow free limited alloc failed
    cases k with
    | zero =>
      refine ⟨fun phys' done => ?_, fun never => absurd never (by simp [grows])⟩
      obtain rfl := Option.some.inj done
      have fits : size + NODE ≤ grown.size := by omega
      obtain ⟨mem', last⟩ := h'.turn_fits ps (some (HEAP_START + span passed)) free' fits
      rw [Nat.zero_add, Nat.one_mul]
      exact ⟨mem', (Yields.done last).again turn⟩
    | succ k =>
      have short : grown.size < size + NODE := by
        have first := least 1 (by omega)
        rw [Nat.one_mul] at first
        omega
      have pass := h'.turn_pass ps (some (HEAP_START + span passed)) free' short (by simp)
      have expand : ∀ j, (j + 1) * PAGE_SIZE = j * PAGE_SIZE + PAGE_SIZE := fun j => by ring
      obtain ⟨succeeds, fails⟩ := ih _ passed grown h'.snoc free' (limited.next alloc failed)
        (by rw [expand] at enough; omega)
        (fun j below => by
          have more := least (j + 1) (by omega)
          rw [expand] at more
          omega)
        (by omega)
      refine ⟨fun phys' done => ?_, fun none => ?_⟩
      · obtain ⟨mem', rest⟩ := succeeds phys' done
        have total : s.heapTop + (k + 1 + 1) * PAGE_SIZE = s.heapTop + PAGE_SIZE + (k + 1) * PAGE_SIZE := by
          rw [expand (k + 1)]
          omega
        rw [total]
        exact ⟨mem', (rest.again pass).again turn⟩
      · obtain ⟨s', rest⟩ := fails none
        exact ⟨s', (rest.again pass).again turn⟩

/-! ### Whole calls of `kmalloc` -/

/-- `kmalloc` ends with `r` in state `s'`, given enough fuel. -/
def Returns (ps : PageSource σ) (size : Nat) (s : State σ) (r : Result) (s' : State σ) : Prop :=
  ∃ k, ∀ fuel, k ≤ fuel → kmalloc ps fuel size s = some (r, s')

theorem Yields.returns (h : Yields ps (alignSize size) s HEAP_START none r s') :
    Returns ps size s r s' := by
  obtain ⟨k, loop⟩ := h
  refine ⟨k, fun fuel enough => ?_⟩
  obtain ⟨more, rfl⟩ := Nat.exists_eq_add_of_le enough
  exact loop more

theorem lastFree_iff : LastFree bs ↔ ∃ b, bs.getLast? = some b ∧ b.used = false := by
  constructor
  · rintro ⟨init, b, rfl, free⟩
    exact ⟨b, by simp, free⟩
  · rintro ⟨b, last, free⟩
    obtain ⟨init, eq⟩ := List.getLast?_eq_some_iff.mp last
    exact ⟨init, b, eq, free⟩

/-- The last block being free, there is a run that touches `heap_top`. -/
theorem lastRun_exists (bs : List Block) : LastFree bs → ∃ pre run, FreeRun bs pre run [] := by
  induction bs using runs_induction with
  | nil =>
    intro ⟨init, b, eq, _⟩
    simp at eq
  | used b bs used ih =>
    rw [lastFree_iff] at ih ⊢
    intro ⟨last, eq, free⟩
    cases bs with
    | nil =>
      obtain rfl : b = last := by simpa using eq
      rw [used] at free
      cases free
    | cons c bs =>
      rw [List.getLast?_cons_cons] at eq
      obtain ⟨pre, run, isRun⟩ := ih ⟨last, eq, free⟩
      exact ⟨b :: pre, run, isRun.cons used⟩
  | run front bs nonempty free stops ih =>
    rw [lastFree_iff] at ih ⊢
    intro ⟨last, eq, lastFree⟩
    cases bs with
    | nil => exact ⟨[], front, .at_front nonempty free stops⟩
    | cons c bs =>
      rw [List.getLast?_append_of_ne_nil _ (List.cons_ne_nil c bs)] at eq
      obtain ⟨pre, run, isRun⟩ := ih ⟨last, eq, lastFree⟩
      exact ⟨front ++ pre, run, isRun.behind stops⟩

/-- Of the runs that are large enough, one is the lowest. -/
theorem firstFit_exists (some : ¬ NoFit want bs) : ∃ pre run post, FirstFit want bs pre run post := by
  classical
  have fits : ∃ k pre run post, FreeRun bs pre run post ∧ want ≤ payload run ∧ span pre = k := by
    unfold NoFit at some
    push Not at some
    obtain ⟨pre, run, post, isRun, fits⟩ := some
    exact ⟨span pre, pre, run, post, isRun, fits, rfl⟩
  obtain ⟨pre, run, post, isRun, fit, place⟩ := Nat.find_spec fits
  refine ⟨pre, run, post, isRun, fit, fun p r q other fit' => ?_⟩
  rw [place]
  exact Nat.find_min' fits ⟨p, r, q, other, fit', rfl⟩

/-- What `kmalloc` does: it takes the lowest run that is large enough, or else extends the last one by the least
number of pages, or fails where `alloc_phys_page` does. When all blocks are free, that is the whole heap. -/
def CompleteFit (ps : PageSource σ) (size : Nat) (s : State σ) (bs : List Block) : Prop :=
  ((∃ pre run post, FirstFit ((size + 7) / 8 * 8 + NODE) bs pre run post ∧
      ∃ mem, Returns ps size s (.ret (HEAP_START + span pre + NODE)) { s with mem }) ∨
    NoFit ((size + 7) / 8 * 8 + NODE) bs ∧ ∃ pre run k, FreeRun bs pre run [] ∧
      IsLeast {k | (size + 7) / 8 * 8 + NODE ≤ payload run + k * PAGE_SIZE} k ∧
      (∀ phys', grows ps k s.heapTop s.phys = some phys' →
        ∃ mem, Returns ps size s (.ret (HEAP_START + span pre + NODE))
          ⟨mem, s.heapTop + k * PAGE_SIZE, phys'⟩) ∧
      (grows ps k s.heapTop s.phys = none → ∃ s', Returns ps size s .null s')) ∧
  ((∀ b ∈ bs, b.used = false) → (size + 7) / 8 * 8 + 2 * NODE ≤ s.heapTop - HEAP_START →
    ∃ mem, Returns ps size s (.ret (HEAP_START + NODE)) { s with mem })

theorem kmalloc_first_fit {size : Nat} (tiles : Tiles s.mem HEAP_START bs s.heapTop)
    (lastFree : LastFree bs) (limited : Limited ps s.heapTop s.phys) (bound : size ≤ 2 ^ 32 - 8) :
    CompleteFit ps size s bs := by
  have aligned : alignSize size = (size + 7) / 8 * 8 := by
    rw [alignSize, Nat.mod_eq_of_lt (by omega)]
  have start : At s [] bs := by
    have small := (limited 0 s.phys rfl).1
    exact ⟨tiles, by omega⟩
  have taken : ∀ pre run post, FirstFit ((size + 7) / 8 * 8 + NODE) bs pre run post →
      ∃ mem, Returns ps size s (.ret (HEAP_START + span pre + NODE)) { s with mem } := by
    intro pre run post fit
    rw [← aligned] at fit
    obtain ⟨mem, rest⟩ := walk_fits bs [] s none pre run post start fit
    exact ⟨mem, rest.returns⟩
  constructor
  · by_cases noFit : NoFit ((size + 7) / 8 * 8 + NODE) bs
    · right
      classical
      obtain ⟨pre, run, isRun⟩ := lastRun_exists bs lastFree
      have enough : ∃ k, (size + 7) / 8 * 8 + NODE ≤ payload run + k * PAGE_SIZE :=
        ⟨size + 7 + NODE, by unfold PAGE_SIZE; omega⟩
      obtain ⟨mem, passed, b, h, place, free, size', leads⟩ :=
        walk_none bs [] s none pre run start (aligned ▸ noFit) isRun
      have place : span passed = span pre := by simpa [span] using place
      have positive : 0 < Nat.find enough := by
        rw [Nat.find_pos]
        have short := noFit _ _ _ isRun
        omega
      have reaches : alignSize size + NODE ≤ b.size + Nat.find enough * PAGE_SIZE := by
        rw [aligned, size']
        exact Nat.find_spec enough
      have least : ∀ j, j < Nat.find enough → b.size + j * PAGE_SIZE < alignSize size + NODE := by
        intro j below
        rw [aligned, size']
        exact Nat.lt_of_not_le (Nat.find_min enough below)
      obtain ⟨succeeds, fails⟩ := grow_spec (Nat.find enough) { s with mem } passed b h free limited
        reaches least positive
      refine ⟨noFit, pre, run, Nat.find enough, isRun,
        ⟨Nat.find_spec enough, fun j fits => Nat.find_min' enough fits⟩, fun phys' grown => ?_, fun none => ?_⟩
      · obtain ⟨mem', rest⟩ := succeeds phys' grown
        rw [place] at rest leads
        exact ⟨mem', (leads _ _ rest).returns⟩
      · obtain ⟨s', rest⟩ := fails none
        exact ⟨s', (leads _ _ rest).returns⟩
    · left
      obtain ⟨pre, run, post, fit⟩ := firstFit_exists noFit
      exact ⟨pre, run, post, fit, taken pre run post fit⟩
  · intro free room
    have nonempty : bs ≠ [] := by
      obtain ⟨init, b, eq, -⟩ := lastFree
      simp [eq]
    have isRun : FreeRun bs [] bs [] := ⟨(List.append_nil bs).symm, nonempty, free, by simp, by simp⟩
    have fits : (size + 7) / 8 * 8 + NODE ≤ payload bs := by
      have whole := tiles.span_eq
      unfold payload
      omega
    exact taken [] bs [] ⟨isRun, fits, fun _ _ _ _ _ => Nat.zero_le _⟩

theorem countdown_limited {top : Nat} (k : Nat) : ∀ n phys', grows countdown k top n = some phys' →
    k + phys' = n := by
  induction k generalizing top with
  | zero =>
    intro n phys' done
    rw [Nat.zero_add]
    exact (Option.some.inj done).symm
  | succ k ih =>
    intro n phys' grown
    change (if n = 0 then none else grows countdown k (top + PAGE_SIZE) (n - 1)) = some phys' at grown
    split at grown
    · cases grown
    · have rest := ih _ _ grown
      omega

def firstBlock : Block := ⟨HEAP_START, PAGE_SIZE - NODE, false, rfl⟩

theorem booted_tiles : Tiles booted.heap.mem HEAP_START [firstBlock] booted.heap.heapTop :=
  .single (b := firstBlock) (load32_store32_of_lt (by decide))

theorem booted_limited : Limited countdown booted.heap.heapTop booted.heap.phys := by
  intro k phys' grown
  have total : k + phys' = 1 := countdown_limited k 1 phys' grown
  change HEAP_START + PAGE_SIZE + k * PAGE_SIZE < _ ∧ phys' < 2 ^ 32
  unfold PAGE_SIZE
  omega

/-- A heap of one page, all of it free. -/
theorem kmalloc_first_fit_page :
    ∃ mem, Returns countdown 4000 booted.heap (.ret (HEAP_START + NODE)) { booted.heap with mem } := by
  exact (kmalloc_first_fit booted_tiles ⟨[], firstBlock, rfl, rfl⟩ booted_limited (by decide)).2
    (fun b member => by rw [List.mem_singleton.mp member]; rfl) (by decide)

/-! ### More than four gigabytes -/

/-- Two free blocks of more than four gigabytes together, the first with size word `first`, over bytes `m`. -/
def wideHeap (m : Bytes) (first : Nat) : State Nat :=
  ⟨store32 (store32 m (HEAP_START + 8192) (2 ^ 32 - 4100)) HEAP_START first, HEAP_START + 2 ^ 32 + 4096, 0⟩

def wideBlocks : List Block := [⟨HEAP_START, 8188, false, rfl⟩, ⟨HEAP_START + 8192, 2 ^ 32 - 4100, false, rfl⟩]

variable {m : Bytes} {first increase top next word after : Nat}

theorem wideHeap_first : load32 (wideHeap m first).mem HEAP_START = first % 2 ^ 32 := load32_store32 ..

theorem wideHeap_second : load32 (wideHeap m first).mem (HEAP_START + 8192) = 2 ^ 32 - 4100 :=
  (load32_store32_outside (by decide)).trans (load32_store32_of_lt (by decide))

theorem wideHeap_top : (wideHeap m first).heapTop = HEAP_START + 2 ^ 32 + 4096 := rfl

theorem wideHeap_inside {a : Nat} (behind : HEAP_START + 4 ≤ a)
    (off : a + 4 ≤ HEAP_START + 8192 ∨ HEAP_START + 8196 ≤ a) :
    load32 (wideHeap m first).mem a = load32 m a :=
  (load32_store32_outside (Or.inr behind)).trans (load32_store32_outside off)

theorem wideHeap_tiles : Tiles (wideHeap m 8188).mem HEAP_START wideBlocks (wideHeap m 8188).heapTop :=
  .cons (b := ⟨HEAP_START, 8188, false, rfl⟩) wideHeap_first
    (.cons (b := ⟨HEAP_START + 8192, 2 ^ 32 - 4100, false, rfl⟩) wideHeap_second (.nil _))

theorem mergeScan_more (here : load32 m next = word) (there : load32 m (next + NODE + word) = after)
    (below : next + NODE + word < top) (free : isUsed after = false) : mergeScan m top next increase =
      mergeScan m top (next + NODE + word) ((increase + NODE + after) % 2 ^ 32) := by
  rw [mergeScan, here, there]
  exact if_pos ⟨below, free⟩

theorem mergeScan_stops (here : load32 m next = word)
    (stops : ¬ (next + NODE + word < top ∧ isUsed (load32 m (next + NODE + word)) = false)) :
    mergeScan m top next increase = increase := by
  rw [mergeScan, here]
  exact if_neg stops

/-- The scan over the second block comes to `heap_top`. -/
theorem wideHeap_last : mergeScan (wideHeap m first).mem (wideHeap m first).heapTop (HEAP_START + 8192) increase =
    increase := by
  apply mergeScan_stops wideHeap_second
  rw [wideHeap_top]
  exact fun more => absurd more.1 (by decide)

/-- The first block takes in what the scan finds, and is looked at again. -/
theorem wideHeap_merge (scan : mergeScan (wideHeap m first).mem (wideHeap m first).heapTop HEAP_START 0 = increase)
    (some : increase ≠ 0) (even : first % 2 ^ 32 % 2 = 0) (short : first % 2 ^ 32 < 8196) :
    kmallocTurn countdown 8192 (wideHeap m first) HEAP_START none =
      .again (wideHeap m (first % 2 ^ 32 + increase)) HEAP_START none := by
  have inside : ¬ (wideHeap m first).heapTop ≤ HEAP_START := by
    rw [wideHeap_top]
    decide
  have unused : ¬ isUsed (first % 2 ^ 32) = true := by
    unfold isUsed
    simpa using even
  rw [kmallocTurn, if_neg inside, wideHeap_first, if_neg unused, if_neg (by unfold NODE; omega), scan]
  dsimp only
  rw [if_pos some]
  congr 2
  funext y
  unfold wideHeap store32
  dsimp only
  split_ifs <;> rfl

theorem Returns.unique {size : Nat} {r r' : Result} {s t t' : State σ} (h : Returns ps size s r t)
    (h' : Returns ps size s r' t') : r = r' := by
  obtain ⟨k, first⟩ := h
  obtain ⟨k', second⟩ := h'
  have same := (first (max k k') (Nat.le_max_left ..)).symm.trans (second (max k k') (Nat.le_max_right ..))
  exact (Prod.mk.inj (Option.some.inj same)).1

/-- In the middle of the first block lies what looks like the size word of a free block. -/
def missedBytes : Bytes := store32 (fun _ => 0) (HEAP_START + 4096) 4092

/-- The size word of the two blocks together wraps to 4092. -/
def missedHeap : State Nat := wideHeap missedBytes (8188 + (2 ^ 32 - 4096))

theorem missedHeap_inner : load32 missedHeap.mem (HEAP_START + 4096) = 4092 :=
  (wideHeap_inside (by decide) (by decide)).trans (load32_store32_of_lt (by decide))

theorem missedHeap_merged : kmallocTurn countdown 8192 (wideHeap missedBytes 8188) HEAP_START none =
    .again missedHeap HEAP_START none := by
  have word : load32 (wideHeap missedBytes 8188).mem HEAP_START = 8188 := wideHeap_first
  have scan : mergeScan (wideHeap missedBytes 8188).mem (wideHeap missedBytes 8188).heapTop HEAP_START 0 =
      2 ^ 32 - 4096 := by
    rw [mergeScan_more word wideHeap_second (by rw [wideHeap_top]; decide) (by decide)]
    exact wideHeap_last
  exact wideHeap_merge scan (by decide) (by decide) (by decide)

/-- The sum of the sizes that follow wraps to 0, and the run is passed. -/
theorem missedHeap_passed : kmallocTurn countdown 8192 missedHeap HEAP_START none =
    .again missedHeap (HEAP_START + 4096) (some HEAP_START) := by
  have first : load32 missedHeap.mem HEAP_START = 4092 := wideHeap_first
  have scan : mergeScan missedHeap.mem missedHeap.heapTop HEAP_START 0 = 0 := by
    rw [mergeScan_more first missedHeap_inner (by decide) (by decide)]
    exact (mergeScan_more missedHeap_inner wideHeap_second (by decide) (by decide)).trans wideHeap_last
  rw [kmallocTurn, if_neg (by decide), first, if_neg (by decide), if_neg (by decide), scan]
  rfl

/-- What the middle of the first block holds grows to the end of the heap. -/
theorem missedHeap_returns : ∃ s', Yields countdown 8192 missedHeap (HEAP_START + 4096) (some HEAP_START)
    (.ret (HEAP_START + 4100)) s' := by
  have scan : mergeScan missedHeap.mem missedHeap.heapTop (HEAP_START + 4096) 0 = 2 ^ 32 - 4096 := by
    rw [mergeScan_more missedHeap_inner wideHeap_second (by decide) (by decide)]
    exact wideHeap_last
  have merge : kmallocTurn countdown 8192 missedHeap (HEAP_START + 4096) (some HEAP_START) =
      .again { missedHeap with mem := store32 missedHeap.mem (HEAP_START + 4096) (4092 + (2 ^ 32 - 4096)) }
        (HEAP_START + 4096) (some HEAP_START) := by
    rw [kmallocTurn, if_neg (by decide), missedHeap_inner, if_neg (by decide), if_neg (by decide), scan]
    rfl
  have taken : ∃ s', kmallocTurn countdown 8192
      { missedHeap with mem := store32 missedHeap.mem (HEAP_START + 4096) (4092 + (2 ^ 32 - 4096)) }
      (HEAP_START + 4096) (some HEAP_START) = .done (.ret (HEAP_START + 4100)) s' := by
    rw [kmallocTurn, if_neg (by decide), load32_store32_of_lt (by decide), if_neg (by decide), if_pos (by decide)]
    exact ⟨_, rfl⟩
  obtain ⟨s', turn⟩ := taken
  exact ⟨s', (Yields.done turn).again merge⟩

/-- The run that `kmalloc` starts with is large enough. -/
theorem wrapped_run_missed : ¬ ∀ (σ : Type) (ps : PageSource σ) (s : State σ) (bs : List Block) (size : Nat),
    Tiles s.mem HEAP_START bs s.heapTop → LastFree bs → size ≤ 2 ^ 32 - 8 → CompleteFit ps size s bs := by
  intro all
  have fit := all Nat countdown (wideHeap missedBytes 8188) wideBlocks 8192 wideHeap_tiles
    ⟨[_], _, rfl, rfl⟩ (by decide)
  obtain ⟨mem, whole⟩ := fit.2 (fun b member => by
    simp only [wideBlocks, List.mem_cons, List.not_mem_nil, or_false] at member
    rcases member with rfl | rfl <;> rfl) (by rw [wideHeap_top]; decide)
  obtain ⟨s', yields⟩ := missedHeap_returns
  have behind : Returns countdown 8192 (wideHeap missedBytes 8188) (.ret (HEAP_START + 4100)) s' :=
    ((yields.again missedHeap_passed).again missedHeap_merged).returns
  exact absurd (whole.unique behind) (by decide)

end Landaux.Heap
