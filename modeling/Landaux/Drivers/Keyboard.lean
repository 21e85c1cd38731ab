import Landaux.Lib.Cyclic

/-!
# The keyboard

`keyboard_irq` of `drivers/console.c`, and the part of `console_read` that runs with interrupts disabled.
The characters typed and not yet read are in the circular buffer `buffer`.
-/

namespace Landaux

open Lib

/-- The characters of the keys, 0 for a key that has none. -/
def table : List UInt8 := [
  0, 27, 49, 50, 51, 52, 53, 54, 55, 56,
  57, 48, 45, 61, 8, 9,
  113, 119, 101, 114, 116, 121, 117, 105, 111, 112, 91, 93, 10,
  0,
  97, 115, 100, 102, 103, 104, 106, 107, 108, 59,
  39, 96, 0,
  92, 122, 120, 99, 118, 98, 110,
  109, 44, 46, 47, 0,
  42, 0, 32, 0,
  0, 0, 0, 0, 0, 0, 0, 0, 0, 0,
  0, 0, 0, 0, 0,
  45, 0, 0, 0, 43] ++ List.replicate 49 0

def BUFSIZE : Nat := 256

structure Keyboard where
  buffer : Nat → UInt8
  head : Nat
  len : Nat

namespace Keyboard

def boot : Keyboard := ⟨fun _ => 0, 0, 0⟩

def keyboardIrq (key : UInt8) (s : Keyboard) : Keyboard :=
  if key &&& 0x80 ≠ 0 then s
  else if s.len ≥ BUFSIZE then s
  else if table.getD key.toNat 0 = 0 then s
  else
    { s with
      buffer := fun y => if y = (s.head + s.len) % BUFSIZE then table.getD key.toNat 0 else s.buffer y
      len := s.len + 1 }

/-- What `console_read` returns, and the bytes it has put into the buffer of the caller. -/
def consoleRead (size : Nat) (s : Keyboard) : (Nat × List UInt8) × Keyboard :=
  let l := min (min s.len size) (BUFSIZE - s.head)
  ((l, (List.range l).map fun i => s.buffer (s.head + i)),
    { s with head := (s.head + l) % BUFSIZE, len := s.len - l })

/-! ### The queue -/

def queue (s : Keyboard) : Cyclic UInt8 := ⟨s.buffer, s.head, s.len⟩

def pending (s : Keyboard) : List UInt8 := s.queue.contents BUFSIZE

def Sane (s : Keyboard) : Prop := s.queue.Bounded BUFSIZE

/-- The key is released, has no character, or finds as many characters as there is place for. -/
def Dropped (key : UInt8) (pending : List UInt8) : Prop :=
  128 ≤ key.toNat ∨ table.getD key.toNat 0 = 0 ∨ pending.length = 256

instance (key : UInt8) (pending : List UInt8) : Decidable (Dropped key pending) :=
  inferInstanceAs (Decidable (_ ∨ _ ∨ _))

def typed (key : UInt8) (pending : List UInt8) : List UInt8 :=
  if Dropped key pending then [] else [table.getD key.toNat 0]

/-- The driver after some interrupts and reads, with the characters accepted and those returned. A read
gets as far as the buffer when a character waits. -/
inductive Run : List UInt8 → List UInt8 → Keyboard → Prop where
  | boot : Run [] [] boot
  | irq {accepted returned : List UInt8} {s : Keyboard} (run : Run accepted returned s) (key : UInt8) :
      Run (accepted ++ typed key s.pending) returned (keyboardIrq key s)
  | read {accepted returned : List UInt8} {s : Keyboard} (run : Run accepted returned s) (size : Nat)
      (some : 0 < size) (waits : 0 < s.len) :
      Run accepted (returned ++ (s.consoleRead size).1.2) (s.consoleRead size).2

variable {s : Keyboard} {key : UInt8} {size : Nat} {accepted returned : List UInt8}

theorem released : key &&& 0x80 ≠ 0 ↔ 128 ≤ key.toNat := by
  have bit : ∀ n : Fin 256, n.val &&& 128 ≠ 0 ↔ 128 ≤ n.val := by decide +kernel
  rw [ne_eq, ← UInt8.toNat_inj, UInt8.toNat_and]
  exact bit ⟨key.toNat, key.toNat_lt⟩

theorem length_pending : s.pending.length = s.len := Cyclic.length_contents

theorem pending_boot : boot.pending = [] := Cyclic.contents_empty rfl

theorem irq_dropped (dropped : Dropped key s.pending) : keyboardIrq key s = s := by
  unfold keyboardIrq
  rcases dropped with release | none | full
  · exact if_pos (released.mpr release)
  · rw [if_pos none, ite_self, ite_self]
  · rw [length_pending] at full
    rw [if_pos (show s.len ≥ BUFSIZE from full.ge), ite_self]

theorem irq_accepted (sane : s.Sane) (accepted : ¬ Dropped key s.pending) :
    s.len < BUFSIZE ∧ (keyboardIrq key s).queue = s.queue.push BUFSIZE (table.getD key.toNat 0) := by
  have len : s.len ≤ 256 := sane.len
  unfold Dropped at accepted
  rw [length_pending, not_or, not_or] at accepted
  obtain ⟨press, entry, room⟩ := accepted
  have room : s.len < BUFSIZE := Nat.lt_of_le_of_ne len room
  refine ⟨room, ?_⟩
  unfold keyboardIrq
  rw [if_neg (mt released.mp press), if_neg (by omega), if_neg entry]
  rfl

theorem irq_sane (sane : s.Sane) (key : UInt8) : (keyboardIrq key s).Sane := by
  by_cases dropped : Dropped key s.pending
  · rwa [irq_dropped dropped]
  · obtain ⟨room, pushed⟩ := irq_accepted sane dropped
    unfold Sane
    rw [pushed]
    exact Cyclic.Bounded.push sane room

theorem irq_pending (sane : s.Sane) (key : UInt8) :
    (keyboardIrq key s).pending = s.pending ++ typed key s.pending := by
  unfold typed
  by_cases dropped : Dropped key s.pending
  · rw [irq_dropped dropped, if_pos dropped, List.append_nil]
  · obtain ⟨room, pushed⟩ := irq_accepted sane dropped
    rw [if_neg dropped, pending, pushed]
    exact Cyclic.contents_push sane room

/-- How many characters a read takes. -/
theorem read_count (sane : s.Sane) (some : 0 < size) (waits : 0 < s.len) :
    (s.consoleRead size).1.1 = (s.consoleRead size).1.2.length ∧
      1 ≤ (s.consoleRead size).1.1 ∧ (s.consoleRead size).1.1 ≤ size := by
  have head : s.head < BUFSIZE := sane.head
  unfold consoleRead
  dsimp only
  rw [List.length_map, List.length_range]
  omega

/-- A read stays in the array. -/
theorem read_straight (sane : s.Sane) : s.head + (s.consoleRead size).1.1 ≤ 256 := by
  have head : s.head < BUFSIZE := sane.head
  change s.head + min (min s.len size) (BUFSIZE - s.head) ≤ BUFSIZE
  omega

theorem read_sane (sane : s.Sane) : (s.consoleRead size).2.Sane := Cyclic.Bounded.skip sane

theorem read_pending (sane : s.Sane) :
    (s.consoleRead size).1.2 ++ (s.consoleRead size).2.pending = s.pending := by
  apply Cyclic.front_skip sane
  · exact (min_le_left _ _).trans (min_le_left _ _)
  · exact read_straight sane

theorem Run.sane (run : Run accepted returned s) : s.Sane := by
  induction run with
  | boot => exact ⟨by decide, by decide⟩
  | irq _ key ih => exact irq_sane ih key
  | read _ _ _ _ ih => exact read_sane ih

/-- Every character accepted has been returned or waits, in order. -/
theorem Run.conserved (run : Run accepted returned s) : returned ++ s.pending = accepted := by
  induction run with
  | boot => exact pending_boot
  | irq run key ih => rw [irq_pending run.sane, ← List.append_assoc, ih]
  | read run _ _ _ ih => rw [List.append_assoc, read_pending run.sane, ih]

/-- A state in which no character is lost, doubled, moved or overwritten. -/
structure Fifo (accepted returned : List UInt8) (s : Keyboard) : Prop where
  head : s.head < 256
  len : s.len ≤ 256
  pending : s.pending.length = s.len
  conserved : returned ++ s.pending = accepted
  irq : ∀ key, if Dropped key s.pending then keyboardIrq key s = s
    else (keyboardIrq key s).pending = s.pending ++ [table.getD key.toNat 0]
  read : ∀ size, 0 < size → 0 < s.len → (s.consoleRead size).1.1 = (s.consoleRead size).1.2.length ∧
    1 ≤ (s.consoleRead size).1.1 ∧ (s.consoleRead size).1.1 ≤ size ∧ s.head + (s.consoleRead size).1.1 ≤ 256

theorem keyboard_fifo (run : Run accepted returned s) : Fifo accepted returned s := by
  have sane := run.sane
  constructor
  case head => exact sane.head
  case len => exact sane.len
  case pending => exact length_pending
  case conserved => exact run.conserved
  case irq =>
    intro key
    split
    · rename_i dropped
      exact irq_dropped dropped
    · rename_i accepted
      rw [irq_pending sane, typed, if_neg accepted]
  case read =>
    intro size some waits
    obtain ⟨count, least, most⟩ := read_count sane some waits
    exact ⟨count, least, most, read_straight sane⟩

/-- Two keys are typed, with a release between them, and one character is read. -/
theorem keyboard_fifo_two :
    Fifo [97, 98] [97] ((keyboardIrq 48 (keyboardIrq 158 (keyboardIrq 30 boot))).consoleRead 1).2 :=
  keyboard_fifo (.read (.irq (.irq (.irq .boot 30) 158) 48) 1 (by decide) (by decide))

end Keyboard
end Landaux
