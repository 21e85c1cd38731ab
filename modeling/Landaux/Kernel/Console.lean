import Landaux.Lib.Machine
import Landaux.Lib.Move

/-!
# The console

`console_putc` of `kernel/console.c`: text on a screen of 25 rows, with two bytes for each cell. `Grid` is
the text on as many rows as it needs, of which the screen shows the last ones.
-/

namespace Landaux

open Lib

def ROWS : Nat := 25
def COLUMNS : Nat := 80
def color : Nat := 0x07

structure Console where
  cursor : Nat
  screen : Bytes
  /-- the cursor registers of the display, the low and the high byte -/
  low : Nat
  high : Nat

namespace Console

def moveCursor (s : Console) : Console := { s with low := s.cursor % 256, high := s.cursor / 256 }

def scroll (s : Console) : Console :=
  if s.cursor / COLUMNS ≥ ROWS then
    { s with
      cursor := s.cursor - COLUMNS
      screen := (s.screen.memmove 0 (COLUMNS * 2) ((ROWS - 1) * COLUMNS * 2)).memset16 ((ROWS - 1) * COLUMNS * 2)
        (color * 2 ^ 8 + 32) COLUMNS }
  else s

/-- The `switch` of `console_putc`. -/
def place (c : UInt8) (s : Console) : Console :=
  if c = 10 then { s with cursor := (s.cursor + COLUMNS) / COLUMNS * COLUMNS % 2 ^ 16 }
  else if c = 13 then { s with cursor := s.cursor / COLUMNS * COLUMNS }
  else if c = 9 then
    let tmp := (s.cursor + 8) / 8 * 8 - s.cursor
    let cursor := (s.cursor + tmp) % 2 ^ 16
    { s with cursor, screen := s.screen.memset16 (cursor * 2) (color * 2 ^ 8 + 32) tmp }
  else
    { s with
      cursor := (s.cursor + 1) % 2 ^ 16
      screen := (s.screen.store8 (s.cursor * 2) c).store8 (s.cursor * 2 + 1) (.ofNat color) }

def consolePutc (s : Console) (c : UInt8) : Console := (s.place c).scroll.moveCursor

structure Blank (s : Console) : Prop where
  cursor : s.cursor = 0
  chars : ∀ i < ROWS * COLUMNS, s.screen (i * 2) = 32
  colors : ∀ i < ROWS * COLUMNS, s.screen (i * 2 + 1) = 7
  registers : s.low + 256 * s.high = s.cursor

end Console

/-! ### The whole text -/

/-- The characters on an unbounded number of rows, and the place of the next one. -/
structure Grid where
  cell : Nat → Nat → UInt8
  row : Nat
  column : Nat

namespace Grid

def blank : Grid := ⟨fun _ _ => 32, 0, 0⟩

def write (g : Grid) (c : UInt8) : Grid :=
  if c = 10 then { g with row := g.row + 1, column := 0 }
  else if c = 13 then { g with column := 0 }
  else
    { cell := fun r k => if r = g.row ∧ k = g.column then c else g.cell r k
      row := if g.column + 1 = 80 then g.row + 1 else g.row
      column := if g.column + 1 = 80 then 0 else g.column + 1 }

/-- The first row of the window: 25 rows that end at the current one, or the first 25 rows. -/
def top (g : Grid) : Nat := g.row - 24

end Grid

namespace Console

variable {s : Console} {g : Grid} {cell : Nat → Nat → UInt8} {top : Nat} {c : UInt8} {m : Bytes}
  {text : List UInt8}

/-- The screen shows the rows of a text from row `top` on. -/
def Displays (m : Bytes) (cell : Nat → Nat → UInt8) (top : Nat) : Prop :=
  ∀ r k, r < 25 → k < 80 → m ((r * 80 + k) * 2) = cell (top + r) k ∧ m ((r * 80 + k) * 2 + 1) = 7

/-- The screen shows the window of the grid, and the cursor is where the next character goes. -/
structure Window (s : Console) (g : Grid) : Prop where
  cells : Displays s.screen g.cell g.top
  cursor : s.cursor = (g.row - g.top) * 80 + g.column
  registers : s.low + 256 * s.high = s.cursor

/-- What also holds between two characters: the cursor is in its row, and nothing is below it. -/
structure Tidy (s : Console) (g : Grid) : Prop where
  cells : Displays s.screen g.cell g.top
  cursor : s.cursor = (g.row - g.top) * 80 + g.column
  column : g.column < 80
  below : ∀ r k, g.row < r → g.cell r k = 32

theorem displays_store (displays : Displays m cell top) {r k : Nat} (row : r < 25) (column : k < 80) :
    Displays ((m.store8 ((r * 80 + k) * 2) c).store8 ((r * 80 + k) * 2 + 1) 7)
      (fun r' k' => if r' = top + r ∧ k' = k then c else cell r' k') top := by
  intro r' k' row' column'
  obtain ⟨char, shade⟩ := displays r' k' row' column'
  by_cases here : r' = r ∧ k' = k
  · obtain ⟨rfl, rfl⟩ := here
    dsimp only
    rw [if_pos ⟨rfl, rfl⟩]
    exact ⟨(Bytes.store8_other (by omega)).trans (if_pos rfl), if_pos rfl⟩
  · dsimp only
    rw [if_neg (by omega), Bytes.store8_other (by omega), Bytes.store8_other (by omega), Bytes.store8_other (by omega),
      Bytes.store8_other (by omega)]
    exact ⟨char, shade⟩

/-- Scrolling shows the next row, which is empty. -/
theorem displays_scroll (displays : Displays m cell top) (empty : ∀ k, cell (top + 25) k = 32) :
    Displays ((m.memmove 0 160 3840).memset16 3840 (7 * 2 ^ 8 + 32) 80) cell (top + 1) := by
  intro r k row column
  by_cases last : r = 24
  · subst last
    have first : (24 * 80 + k) * 2 = 3840 + 2 * k := by omega
    rw [first, Bytes.memset16_low column, Bytes.memset16_high column, Nat.add_assoc top 1 24, empty]
    exact ⟨rfl, rfl⟩
  · obtain ⟨char, shade⟩ := displays (r + 1) k (by omega) column
    rw [Bytes.memset16_outside (by omega), Bytes.memset16_outside (by omega), Bytes.memmove_apply,
      Bytes.memmove_apply, if_pos (by omega), if_pos (by omega), Nat.add_assoc top 1 r, Nat.add_comm 1 r, ← char,
      ← shade]
    constructor
    · congr 1
      omega
    · congr 1
      omega

/-- Before `scroll`, where the window may have one row too many. -/
structure Placed (s : Console) (g : Grid) (top : Nat) : Prop where
  cells : Displays s.screen g.cell top
  cursor : s.cursor = (g.row - top) * 80 + g.column
  column : g.column < 80
  below : ∀ r k, g.row < r → g.cell r k = 32
  fits : g.top = top ∧ top ≤ g.row ∧ g.row < top + 25 ∨
    g.row = top + 25 ∧ ∀ k, g.cell g.row k = 32

theorem Placed.scroll (placed : Placed s g top) : Tidy s.scroll g := by
  have cursor := placed.cursor
  have column := placed.column
  unfold Console.scroll ROWS COLUMNS
  rcases placed.fits with ⟨same, first, last⟩ | ⟨past, empty⟩
  · subst same
    rw [if_neg (by omega)]
    exact ⟨placed.cells, cursor, column, placed.below⟩
  · have next : g.top = top + 1 := by
      unfold Grid.top
      omega
    rw [if_pos (by omega)]
    constructor
    case cells =>
      rw [next]
      exact displays_scroll placed.cells (past ▸ empty)
    case cursor =>
      dsimp only
      omega
    case column => exact column
    case below => exact placed.below

theorem Tidy.place (tidy : Tidy s g) (noTab : c ≠ 9) : Placed (s.place c) (g.write c) g.top := by
  have cursor := tidy.cursor
  have column := tidy.column
  have top : g.top = g.row - 24 := rfl
  unfold Console.place Grid.write COLUMNS
  by_cases newline : c = 10
  · rw [if_pos newline, if_pos newline]
    constructor
    case cells => exact tidy.cells
    case cursor =>
      dsimp only
      omega
    case column => exact Nat.zero_lt_succ _
    case below => exact fun r k below => tidy.below r k (Nat.lt_of_succ_lt below)
    case fits =>
      dsimp only [Grid.top]
      by_cases last : g.row < 24
      · exact Or.inl (by omega)
      · exact Or.inr ⟨by omega, fun k => tidy.below _ k (Nat.lt_succ_self _)⟩
  rw [if_neg newline, if_neg newline]
  by_cases back : c = 13
  · rw [if_pos back, if_pos back]
    constructor
    case cells => exact tidy.cells
    case cursor =>
      dsimp only
      omega
    case column => exact Nat.zero_lt_succ _
    case below => exact tidy.below
    case fits =>
      dsimp only [Grid.top]
      omega
  rw [if_neg back, if_neg back, if_neg noTab]
  constructor
  case cells =>
    dsimp only
    rw [cursor]
    have stored := displays_store (c := c) tidy.cells (show g.row - g.top < 25 by omega) column
    rw [show g.top + (g.row - g.top) = g.row by omega] at stored
    exact stored
  case cursor =>
    dsimp only
    split
    · omega
    · omega
  case column =>
    dsimp only
    split
    · decide
    · omega
  case below =>
    intro r k below
    dsimp only at below ⊢
    rw [if_neg (by split at below <;> omega)]
    exact tidy.below r k (by split at below <;> omega)
  case fits =>
    dsimp only [Grid.top]
    by_cases wrap : g.column + 1 = 80 ∧ 24 ≤ g.row
    · rw [if_pos wrap.1]
      refine Or.inr ⟨by omega, fun k => ?_⟩
      rw [if_neg (by omega)]
      exact tidy.below _ k (Nat.lt_succ_self _)
    · refine Or.inl ?_
      split
      · omega
      · omega

theorem putc_tidy (tidy : Tidy s g) (noTab : c ≠ 9) : Tidy (s.consolePutc c) (g.write c) := by
  have scrolled := (tidy.place noTab).scroll
  exact ⟨scrolled.cells, scrolled.cursor, scrolled.column, scrolled.below⟩

theorem putc_registers : (s.consolePutc c).low + 256 * (s.consolePutc c).high = (s.consolePutc c).cursor :=
  Nat.mod_add_div _ _

theorem blank_tidy (blank : Blank s) : Tidy s .blank := by
  constructor
  case cells =>
    intro r k row column
    have inside : r * 80 + k < ROWS * COLUMNS := by
      unfold ROWS COLUMNS
      omega
    exact ⟨blank.chars _ inside, blank.colors _ inside⟩
  case cursor => exact blank.cursor
  case column => decide
  case below => exact fun _ _ _ => rfl

theorem text_tidy (tidy : Tidy s g) (noTab : 9 ∉ text) : Tidy (text.foldl consolePutc s) (text.foldl Grid.write g) := by
  induction text generalizing s g with
  | nil => exact tidy
  | cons c text ih =>
    rw [List.mem_cons, not_or] at noTab
    exact ih (putc_tidy tidy (Ne.symm noTab.1)) noTab.2

theorem text_registers (start : s.low + 256 * s.high = s.cursor) : (text.foldl consolePutc s).low +
    256 * (text.foldl consolePutc s).high = (text.foldl consolePutc s).cursor := by
  induction text generalizing s with
  | nil => exact start
  | cons c text ih => exact ih putc_registers

/-- The screen shows the last rows of the text. -/
theorem screen_shows_text (blank : Blank s) (noTab : 9 ∉ text) :
    Window (text.foldl consolePutc s) (text.foldl Grid.write .blank) := by
  have tidy := text_tidy (blank_tidy blank) noTab
  exact ⟨tidy.cells, tidy.cursor, text_registers blank.registers⟩

def clean : Console := ⟨0, fun y => if y % 2 = 0 then 32 else 7, 0, 0⟩

theorem clean_blank : Blank clean := by
  constructor
  case cursor => rfl
  case chars => exact fun i _ => if_pos (by omega)
  case colors => exact fun i _ => if_neg (by omega)
  case registers => rfl

theorem screen_shows_text_hi : Window ([104, 105, 10].foldl consolePutc clean) ([104, 105, 10].foldl Grid.write .blank) :=
  screen_shows_text clean_blank (by decide)

/-! ### The cells that are written -/

/-- There are contents of the screen with which a step of `console_putc` changes cell `i`. -/
def Writes (step : Console → Console) (s : Console) (i : Nat) : Prop :=
  ∃ screen, (step { s with screen }).screen (i * 2) ≠ screen (i * 2) ∨
    (step { s with screen }).screen (i * 2 + 1) ≠ screen (i * 2 + 1)

/-- A character stays on the screen, and a tab blanks the cells that it skips. -/
structure Stays (s : Console) (c : UInt8) : Prop where
  placed : ∀ i, Writes (place c) s i → i < ROWS * COLUMNS
  scrolled : ∀ i, Writes scroll (s.place c) i → i < ROWS * COLUMNS
  cursor : (s.consolePutc c).cursor < ROWS * COLUMNS
  tab : c = 9 → ∀ i, Writes (place c) s i ↔ s.cursor ≤ i ∧ i < (s.place c).cursor

def Puts (s : Console) (c : UInt8) (t : Console) : Prop := t = s.consolePutc c

theorem scroll_writes {i : Nat} (writes : Writes scroll s i) : i < ROWS * COLUMNS := by
  obtain ⟨screen, changes⟩ := writes
  unfold scroll at changes
  by_contra past
  unfold ROWS COLUMNS at *
  split at changes
  · dsimp only at changes
    rw [Bytes.memset16_outside (by omega), Bytes.memset16_outside (by omega), Bytes.memmove_apply,
      Bytes.memmove_apply, if_neg (by omega), if_neg (by omega)] at changes
    exact changes.elim (absurd rfl) (absurd rfl)
  · exact changes.elim (absurd rfl) (absurd rfl)

theorem scroll_cursor (below : s.cursor < (ROWS + 1) * COLUMNS) : s.scroll.cursor < ROWS * COLUMNS := by
  unfold scroll ROWS COLUMNS at *
  split
  · dsimp only
    omega
  · omega

/-- What a character other than a tab writes is the cell of the cursor. -/
theorem place_writes {i : Nat} (noTab : c ≠ 9) (writes : Writes (place c) s i) : i = s.cursor := by
  obtain ⟨screen, changes⟩ := writes
  unfold place at changes
  by_cases newline : c = 10
  · rw [if_pos newline] at changes
    exact changes.elim (absurd rfl) (absurd rfl)
  rw [if_neg newline] at changes
  by_cases back : c = 13
  · rw [if_pos back] at changes
    exact changes.elim (absurd rfl) (absurd rfl)
  rw [if_neg back, if_neg noTab] at changes
  by_contra other
  dsimp only at changes
  rw [Bytes.store8_other (by omega), Bytes.store8_other (by omega), Bytes.store8_other (by omega),
    Bytes.store8_other (by omega)] at changes
  exact changes.elim (absurd rfl) (absurd rfl)

theorem place_cursor (noTab : c ≠ 9) (inside : s.cursor < ROWS * COLUMNS) :
    (s.place c).cursor < (ROWS + 1) * COLUMNS := by
  unfold place ROWS COLUMNS at *
  rw [if_neg noTab]
  split
  · refine lt_of_le_of_lt (Nat.mod_le _ _) ?_
    omega
  split
  · dsimp only
    omega
  · dsimp only
    omega

/-- A tab blanks cells after those that it skips. -/
theorem tab_skips (inside : s.cursor < ROWS * COLUMNS) :
    ¬ Writes (place 9) s s.cursor ∧ s.cursor < (s.place 9).cursor := by
  unfold Writes place ROWS COLUMNS at *
  rw [if_neg (by decide), if_neg (by decide), if_pos rfl]
  dsimp only
  refine ⟨?_, by omega⟩
  rintro ⟨screen, changes⟩
  rw [if_neg (by decide), if_neg (by decide), if_pos rfl] at changes
  dsimp only at changes
  rw [Bytes.memset16_outside (by omega), Bytes.memset16_outside (by omega)] at changes
  exact changes.elim (absurd rfl) (absurd rfl)

theorem stays_iff (inside : s.cursor < ROWS * COLUMNS) : Stays s c ↔ c ≠ 9 := by
  constructor
  · rintro stays rfl
    obtain ⟨kept, skipped⟩ := tab_skips inside
    exact kept ((stays.tab rfl s.cursor).mpr ⟨le_rfl, skipped⟩)
  · intro noTab
    constructor
    case placed =>
      intro i writes
      rw [place_writes noTab writes]
      exact inside
    case scrolled => exact fun i => scroll_writes
    case cursor => exact scroll_cursor (place_cursor noTab inside)
    case tab => exact fun isTab => absurd isTab noTab

theorem throughout_puts (text : List UInt8) (s : Console) :
    Throughout Puts (fun _ c _ => c ≠ 9) s text ↔ 9 ∉ text := by
  induction text generalizing s with
  | nil => exact iff_of_true .nil List.not_mem_nil
  | cons c text ih =>
    rw [Throughout.cons_iff, List.mem_cons, not_or]
    constructor
    · intro all
      obtain ⟨noTab, later⟩ := all _ rfl
      exact ⟨Ne.symm noTab, (ih _).mp later⟩
    · rintro ⟨noTab, later⟩ t -
      exact ⟨Ne.symm noTab, (ih t).mpr later⟩

/-- Output stays on the screen exactly when it has no tabs. -/
theorem output_on_screen_iff (inside : s.cursor < ROWS * COLUMNS) (text : List UInt8) :
    Throughout Puts (fun s c _ => Stays s c) s text ↔ 9 ∉ text := by
  rw [← throughout_puts text s]
  apply Throughout.congr (fun s => s.cursor < ROWS * COLUMNS) inside
  · intro s c t inside _
    exact stays_iff inside
  · rintro s c t - rfl stays
    exact stays.cursor

theorem output_on_screen_iff_clean : clean.cursor < ROWS * COLUMNS ∧
    (Throughout Puts (fun s c _ => Stays s c) clean [104, 9] ↔ (9 : UInt8) ∉ [104, 9]) :=
  ⟨by decide, output_on_screen_iff (s := clean) (by decide) [104, 9]⟩

/-- A tab at the start of the screen. -/
theorem tab_blanks_after : ¬ ∀ (s : Console) (text : List UInt8), s.cursor < ROWS * COLUMNS →
    Throughout Puts (fun s c _ => Stays s c) s text := by
  intro all
  have stays := (Throughout.cons_iff.mp (all clean [9] (by decide)) _ rfl).1
  exact absurd rfl ((stays_iff (s := clean) (by decide)).mp stays)

end Console
end Landaux
