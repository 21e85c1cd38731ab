import Landaux.Fs.Components

/-!
# get_next_component in memory

The loops of `get_next_component` over the bytes of a path. A pointer is the bytes from where it points to the
end of the object that it points into, so what is read past the 0 of a path is a read at the end of its bytes.
-/

namespace Landaux

abbrev Cursor := List UInt8

inductive ReadStop where
  /-- a read past the end of an object -/
  | past
  /-- a write past the end of a block -/
  | overrun
  /-- `BUG` -/
  | bug
  deriving DecidableEq

def deref (p : Cursor) : Except ReadStop UInt8 :=
  match p with
  | [] => .error .past
  | b :: _ => .ok b

/-- `while (*p && *p != '/') p++` -/
def skipName : Cursor → Except ReadStop Cursor
  | [] => .error .past
  | b :: p => if b ≠ 0 ∧ b ≠ slash then skipName p else .ok (b :: p)

/-- `while (*p == '/') p++` -/
def skipSlashes : Cursor → Except ReadStop Cursor
  | [] => .error .past
  | b :: p => if b = slash then skipSlashes p else .ok (b :: p)

/-- `memcpy` of `n` bytes to `buf`, with a `u32` count, and `buf[n] = '\0'` -/
def copyName (buf : List UInt8) (path : Cursor) (n : Nat) : Except ReadStop (List UInt8) :=
  let count := n % 2 ^ 32
  if path.length < count then .error .past
  else if buf.length < count ∨ buf.length ≤ n then .error .overrun
  else .ok ((path.take count ++ buf.drop count).set n 0)

/-- The end of `get_next_component`, at the byte after the name. -/
def componentType (buf : List UInt8) (p : Cursor) : Except ReadStop (Comp × List UInt8 × Cursor) := do
  let c ← deref p
  if c = 0 then return (.last, buf, p)
  else if c = slash then
    let p ← skipSlashes p
    if (← deref p) = 0 then return (.lastSlash, buf, p) else return (.norm, buf, p)
  else .error .bug

/-- The type of the next component, the block that holds its name, and `*path`. `kmalloc` returns a block of
bytes for a `u32` size. -/
def nextComponent (kmalloc : Nat → Option (List UInt8)) (path : Cursor) :
    Except ReadStop (Comp × List UInt8 × Cursor) := do
  if (← deref path) = 0 then return (.noMore, [], path)
  else
    let p ← skipName path
    let n := path.length - p.length
    match kmalloc ((n + 1) % 2 ^ 32) with
    | none => return (.noMore, [], path)
    | some buf =>
      let buf ← copyName buf path n
      componentType buf p

def stringIn (buf : List UInt8) : Name := buf.takeWhile (· ≠ 0)

/-- Calls of `get_next_component`, from call `i` on, until it reports the last component. -/
def nextComponents (kmalloc : Nat → Nat → Option (List UInt8)) :
    Nat → Nat → Cursor → Except ReadStop (List (Comp × Name))
  | 0, _, _ => .ok []
  | calls + 1, i, path => do
    let (type, buf, path) ← nextComponent (kmalloc i) path
    if type = .norm then return (type, stringIn buf) :: (← nextComponents kmalloc calls (i + 1) path)
    else return [(type, stringIn buf)]

variable {path : List UInt8} {block : List UInt8} {n : Nat} {kmalloc : Nat → Option (List UInt8)} {granted : Bool}

/-- A path as a string: 0 ends it, and it lies in the memory that `map_memory` maps, of at most 1 GiB. -/
structure PathString where
  chars : List UInt8
  plain : (0 : UInt8) ∉ chars
  short : chars.length ≤ 2 ^ 30

/-! ### The loops -/

theorem skipName_path (plain : (0 : UInt8) ∉ path) :
    skipName (path ++ [0]) = .ok (path.dropWhile (· ≠ slash) ++ [0]) := by
  induction path with
  | nil => rfl
  | cons b path ih =>
    have nonzero : b ≠ 0 := fun same => plain (by rw [same]; exact List.mem_cons_self)
    rw [List.cons_append, skipName]
    by_cases here : b = slash
    · rw [if_neg (not_and_not_right.mpr fun _ => here), List.dropWhile_cons_of_neg (by simpa using here),
        List.cons_append]
    · rw [if_pos ⟨nonzero, here⟩, List.dropWhile_cons_of_pos (by simpa using here)]
      exact ih fun member => plain (List.mem_cons_of_mem b member)

theorem skipSlashes_path : skipSlashes (path ++ [0]) = .ok (path.dropWhile (· = slash) ++ [0]) := by
  induction path with
  | nil => rfl
  | cons b path ih =>
    rw [List.cons_append, skipSlashes]
    by_cases here : b = slash
    · rw [if_pos here, List.dropWhile_cons_of_pos (by simpa using here), ih]
    · rw [if_neg here, List.dropWhile_cons_of_neg (by simpa using here), List.cons_append]

theorem copyName_path (plain : (0 : UInt8) ∉ path) (short : path.length < 2 ^ 32 - 1) (within : n ≤ path.length)
    (room : n < block.length) : ∃ buf, copyName block (path ++ [0]) n = .ok buf ∧ stringIn buf = path.take n := by
  unfold copyName
  dsimp only
  rw [Nat.mod_eq_of_lt (by omega), if_neg (by rw [List.length_append]; omega), if_neg (by omega),
    List.take_append_of_le_length within]
  have taken : (path.take n).length = n := List.length_take_of_le within
  rw [List.set_append_right _ _ (le_of_eq taken), taken, Nat.sub_self, List.drop_eq_getElem_cons room,
    List.set_cons_zero]
  have kept : ∀ b ∈ path.take n, decide (b ≠ 0) = true := by
    intro b member
    simp only [decide_eq_true_eq]
    rintro rfl
    exact plain (List.mem_of_mem_take member)
  refine ⟨_, rfl, ?_⟩
  rw [stringIn, List.takeWhile_append_of_pos kept, List.takeWhile_cons_of_neg (by simp), List.append_nil]

/-! ### One call -/

/-- `kmalloc` gives a block of the size that is asked for, or refuses all sizes. -/
def Grants (kmalloc : Nat → Option (List UInt8)) (granted : Bool) : Prop :=
  ∀ size, (∃ buf, kmalloc size = some buf ∧ size ≤ buf.length ∧ granted = true) ∨
    kmalloc size = none ∧ granted = false

/-- What a caller sees of a result: the string in the block, and the path up to its 0. -/
def SpellsOut : Comp × List UInt8 × Cursor → Comp × Name × List UInt8 → Prop
  | (type, buf, p), (type', name, rest) => type = type' ∧ stringIn buf = name ∧ p = rest ++ [0]

theorem deref_inside {b : UInt8} : deref (b :: path ++ [0]) = .ok b := rfl

theorem componentType_end {buf : List UInt8} : componentType buf ([] ++ [0]) = .ok (.last, buf, [] ++ [0]) := rfl

theorem componentType_slash {buf : List UInt8} (plain : (0 : UInt8) ∉ path) :
    componentType buf (slash :: path ++ [0]) =
      .ok (if path.dropWhile (· = slash) = [] then .lastSlash else .norm, buf, path.dropWhile (· = slash) ++ [0]) := by
  have skipped : skipSlashes (slash :: path ++ [0]) = _ := skipSlashes_path
  rw [List.dropWhile_cons_of_pos (by simp)] at skipped
  have nonzero : slash ≠ 0 := by decide
  simp only [componentType, deref_inside, skipped, bind, Except.bind, if_neg nonzero, if_pos]
  cases rest : path.dropWhile (· = slash) with
  | nil => rfl
  | cons b t =>
    have member : b ∈ path := (List.dropWhile_sublist _).mem (by rw [rest]; exact List.mem_cons_self)
    have inside : b ≠ 0 := fun same => plain (same ▸ member)
    rw [deref_inside]
    simp only [if_neg inside, if_neg (List.cons_ne_nil b t)]
    rfl

theorem head_dropWhile : path.dropWhile (· ≠ slash) = [] ∨ ∃ r, path.dropWhile (· ≠ slash) = slash :: r := by
  have first := List.head?_dropWhile_not (fun b => decide (b ≠ slash)) path
  cases after : path.dropWhile (· ≠ slash) with
  | nil => exact .inl rfl
  | cons b r =>
    rw [after] at first
    exact .inr ⟨r, by simpa using first⟩

theorem getNextComponent_nonempty (nonempty : path ≠ []) :
    getNextComponent granted path = if granted = false then (.noMore, [], path)
      else if path.dropWhile (· ≠ slash) = [] then (.last, path.takeWhile (· ≠ slash), [])
      else if (path.dropWhile (· ≠ slash)).dropWhile (· = slash) = [] then (.lastSlash, path.takeWhile (· ≠ slash), [])
      else (.norm, path.takeWhile (· ≠ slash), (path.dropWhile (· ≠ slash)).dropWhile (· = slash)) := by
  unfold getNextComponent
  simp only [nonempty, false_or]

/-- Nothing is read after the 0, and the result is that of `getNextComponent`. -/
theorem nextComponent_shows (plain : (0 : UInt8) ∉ path) (short : path.length < 2 ^ 32 - 1)
    (grants : Grants kmalloc granted) :
    ∃ ret, nextComponent kmalloc (path ++ [0]) = .ok ret ∧ SpellsOut ret (getNextComponent granted path) := by
  cases first : path with
  | nil => exact ⟨(.noMore, [], [0]), rfl, rfl, rfl, rfl⟩
  | cons b t =>
    have nonempty : path ≠ [] := by
      rw [first]
      exact List.cons_ne_nil b t
    have nonzero : b ≠ 0 := by
      rintro rfl
      exact plain (by rw [first]; exact List.mem_cons_self)
    have skipped := skipName_path plain
    have answer : getNextComponent granted path = _ := getNextComponent_nonempty nonempty
    have starts : path.dropWhile (· ≠ slash) = [] ∨ ∃ r, path.dropWhile (· ≠ slash) = slash :: r := head_dropWhile
    have parts := List.takeWhile_append_dropWhile (p := fun b => decide (b ≠ slash)) (l := path)
    generalize path.takeWhile (· ≠ slash) = name at answer parts
    generalize path.dropWhile (· ≠ slash) = q at answer parts skipped starts
    have count : (path ++ [0]).length - (q ++ [0]).length = name.length := by
      rw [← parts]
      simp only [List.length_append]
      omega
    have within : name.length ≤ path.length := by
      rw [← parts, List.length_append]
      exact Nat.le_add_right _ _
    unfold nextComponent
    rw [deref_inside, ← first, answer]
    simp only [bind, Except.bind, if_neg nonzero, skipped, count]
    rcases grants ((name.length + 1) % 2 ^ 32) with ⟨block, given, room, rfl⟩ | ⟨refused, rfl⟩
    · rw [Nat.mod_eq_of_lt (by omega)] at given room ⊢
      rw [given, if_neg (by decide)]
      obtain ⟨buf, copied, string⟩ := copyName_path plain short within room
      rw [← parts, List.take_left] at string
      simp only [copied]
      rcases starts with rfl | ⟨r, rfl⟩
      · exact ⟨_, componentType_end, rfl, string, rfl⟩
      · have plainRest : (0 : UInt8) ∉ r := fun member => plain (by rw [← parts]; simp [member])
        refine ⟨_, componentType_slash plainRest, ?_⟩
        rw [if_neg (List.cons_ne_nil _ _), List.dropWhile_cons_of_pos (by simp)]
        by_cases done : r.dropWhile (· = slash) = []
        · rw [if_pos done, if_pos done, done]
          exact ⟨rfl, string, rfl⟩
        · rw [if_neg done, if_neg done]
          exact ⟨rfl, string, rfl⟩
    · rw [refused, if_pos rfl]
      exact ⟨_, rfl, rfl, rfl, rfl⟩

/-! ### All calls -/

theorem getNextComponent_suffix : (getNextComponent granted path).2.2 <:+ path := by
  by_cases nonempty : path = []
  · rw [nonempty]
    exact List.suffix_refl []
  · rw [getNextComponent_nonempty nonempty]
    split
    · exact List.suffix_refl path
    split
    · exact List.nil_suffix
    split
    · exact List.nil_suffix
    · exact (List.dropWhile_suffix _).trans (List.dropWhile_suffix _)

theorem nextComponents_path {kmalloc : Nat → Nat → Option (List UInt8)} {calls i : Nat}
    (grants : ∀ i, Grants (kmalloc i) true) (starts : Starts path) (plain : (0 : UInt8) ∉ path)
    (short : path.length ≤ 2 ^ 30) (enough : (components path).length ≤ calls) :
    ∃ init last, components path = init ++ [last] ∧
      nextComponents kmalloc calls i (path ++ [0]) =
        .ok (init.map (Comp.norm, ·) ++ [(if Trailing path then .lastSlash else .last, last)]) := by
  induction calls generalizing path i with
  | zero => exact absurd (List.length_eq_zero_iff.mp (Nat.le_zero.mp enough)) starts.components_ne_nil
  | succ calls ih =>
    have fits : path.length < 2 ^ 32 - 1 := by omega
    obtain ⟨⟨type, buf, p⟩, called, shows⟩ := nextComponent_shows plain fits (grants i)
    have delivers := getNextComponent_delivers starts
    have suffix : (getNextComponent true path).2.2 <:+ path := getNextComponent_suffix
    simp only [nextComponents, called, bind, Except.bind]
    generalize getNextComponent true path = next at delivers suffix shows
    cases delivers with
    | last only untrailed =>
      obtain ⟨rfl, rfl, rfl⟩ := shows
      refine ⟨[], stringIn buf, only, ?_⟩
      rw [if_neg (by decide), if_neg untrailed]
      rfl
    | lastSlash only trailing =>
      obtain ⟨rfl, rfl, rfl⟩ := shows
      refine ⟨[], stringIn buf, only, ?_⟩
      rw [if_neg (by decide), if_pos trailing]
      rfl
    | norm first restStarts trailing shorter =>
      obtain ⟨rfl, rfl, rfl⟩ := shows
      rw [first, List.length_cons] at enough
      obtain ⟨init, last, parts, later⟩ := ih (i := i + 1) restStarts (fun member => plain (suffix.mem member))
        (by omega) (Nat.le_of_succ_le_succ enough)
      refine ⟨stringIn buf :: init, last, ?_, ?_⟩
      · rw [first, parts, List.cons_append]
      · rw [if_pos rfl, later]
        simp only [trailing]
        rfl

/-- Calls of `get_next_component` on a path that starts with a component report its components in order, the last
one as such, and are over after as many calls as there are components. -/
theorem nextComponents_components {kmalloc : Nat → Nat → Option (List UInt8)} {calls : Nat} (path : PathString)
    (starts : Starts path.chars) (grants : ∀ i, Grants (kmalloc i) true)
    (enough : (components path.chars).length ≤ calls) :
    ∃ init last, components path.chars = init ++ [last] ∧
      nextComponents kmalloc calls 0 (path.chars ++ [0]) =
        .ok (init.map (Comp.norm, ·) ++ [(if Trailing path.chars then .lastSlash else .last, last)]) :=
  nextComponents_path grants starts path.plain path.short enough

/-- `a//b/` -/
theorem nextComponents_components_two :
    ∃ init last, components [97, 47, 47, 98, 47] = init ++ [last] ∧
      nextComponents (fun _ size => some (List.replicate size 0)) 2 0 ([97, 47, 47, 98, 47] ++ [0]) =
        .ok (init.map (Comp.norm, ·) ++ [(if Trailing [97, 47, 47, 98, 47] then .lastSlash else .last, last)]) :=
  nextComponents_components ⟨[97, 47, 47, 98, 47], by decide, by decide⟩ ⟨by decide, by decide⟩
    (fun _ size => .inl ⟨List.replicate size 0, rfl, (List.length_replicate).ge, rfl⟩) (by decide)

end Landaux
