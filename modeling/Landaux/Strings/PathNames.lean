import Landaux.Fs.Components
import Landaux.Strings.CString

/-!
# basename and dirname

Both work in the string they are given: the slashes at its end are overwritten by zeros, and `dirname` also
overwrites the slash before the last name. Where no directory is written before the last name, `dirname`
returns a string of its own.
-/

namespace Landaux.Strings
open Lib

variable {mem mem' : Bytes} {s n y : Nat} {path chars front base : List UInt8}

/-- `while (p != s && *p == '/') *p-- = '\0'` with `p - s` turns left. -/
def stripSlashes (mem : Bytes) (s : Nat) : Nat → Bytes
  | 0 => mem
  | n + 1 => if mem (s + n + 1) = slash then stripSlashes (mem.store8 (s + n + 1) 0) s n else mem

/-- The pointer that is returned, and the memory; none where `BUG_ON` stops. -/
def basename (mem : Bytes) (s : Nat) : Option (Nat × Bytes) :=
  if mem s = 0 then none
  else
    let mem := stripSlashes mem s (strlen mem s - 1)
    match strrchr mem s slash with
    | none => some (s, mem)
    | some p => some (p + 1, mem)

/-- A `char *`: into memory, or to a literal. -/
inductive CharPtr where
  | literal (chars : List UInt8)
  | pointer (s : Nat)

def CharPtr.text (mem : Bytes) : CharPtr → List UInt8
  | .literal chars => chars
  | .pointer s => string mem s

def dirname (mem : Bytes) (s : Nat) : Option (CharPtr × Bytes) := do
  let (p, mem) ← basename mem s
  if p = s then return (.literal [], mem)
  else if p - 1 = s then return (.literal [slash], mem)
  else return (.pointer s, mem.store8 (p - 1) 0)

/-! ### The last name of a path -/

theorem components_append : components (front ++ slash :: base) = components front ++ components base := by
  unfold components
  rw [List.splitOn_append_cons_self, List.filter_append]

theorem components_trailing (k : Nat) : components (path ++ List.replicate k slash) = components path := by
  induction k with
  | zero => rw [List.replicate_zero, List.append_nil]
  | succ k ih => rw [List.replicate_succ', ← List.append_assoc, components_append, components_nil, List.append_nil, ih]

/-- The last name of a path, and what is before it: nothing, or something that ends in a slash. -/
structure LastNamed (path front base : List UInt8) : Prop where
  whole : ∃ k, path = front ++ base ++ List.replicate k slash
  named : base ≠ []
  plain : slash ∉ base
  before : front = [] ∨ ∃ parent, front = parent ++ [slash]

theorem LastNamed.components_parent {parent : List UInt8} (last : LastNamed path (parent ++ [slash]) base) :
    components parent ++ [base] = components path := by
  obtain ⟨⟨k, whole⟩, named, plain, _⟩ := last
  rw [whole, components_trailing, List.append_assoc, List.singleton_append, components_append,
    components_plain plain named]

theorem LastNamed.components_only (last : LastNamed path [] base) : [base] = components path := by
  obtain ⟨⟨k, whole⟩, named, plain, _⟩ := last
  rw [whole, components_trailing, List.nil_append, components_plain plain named]

theorem LastNamed.head (last : LastNamed path front base) : path.head? = (front ++ base).head? := by
  obtain ⟨⟨k, whole⟩, named, _, _⟩ := last
  rw [whole, List.head?_append_of_ne_nil]
  exact List.append_ne_nil_of_right_ne_nil front named

theorem LastNamed.length (last : LastNamed path front base) : front.length + base.length ≤ path.length := by
  obtain ⟨⟨k, whole⟩, _, _, _⟩ := last
  rw [whole, List.length_append, List.length_append]
  exact Nat.le_add_right _ _

theorem LastNamed.getLast (last : LastNamed path front base) : (components path).getLast? = some base := by
  obtain rfl | ⟨parent, rfl⟩ := last.before
  · rw [← last.components_only]
    rfl
  · rw [← last.components_parent]
    exact List.getLast?_concat

/-! ### The slashes at the end -/

theorem stripSlashes_outside (outside : y ≤ s ∨ s + n < y) : stripSlashes mem s n y = mem y := by
  induction n generalizing mem with
  | zero => rfl
  | succ n ih =>
    rw [stripSlashes]
    split
    · rw [ih (by omega), Bytes.store8_other (by omega)]
    · rfl

theorem stripSlashes_spells (spells : Spells mem s chars) (length : chars.length = n + 1) :
    ∃ kept k, chars = kept ++ List.replicate k slash ∧ kept ≠ [] ∧ (kept = [slash] ∨ kept.getLast? ≠ some slash) ∧
      Spells (stripSlashes mem s n) s kept := by
  induction n generalizing mem chars with
  | zero =>
    obtain ⟨c, rfl⟩ := List.length_eq_one_iff.mp length
    refine ⟨[c], 0, by simp, by simp, ?_, spells⟩
    by_cases same : c = slash
    · exact .inl (by rw [same])
    · exact .inr (by simpa using same)
  | succ n ih =>
    obtain rfl | ⟨init, c, rfl⟩ := List.eq_nil_or_concat' chars
    · cases length
    have shorter : init.length = n + 1 := by simpa using length
    have byte := spells.last
    rw [shorter, ← Nat.add_assoc] at byte
    rw [stripSlashes, byte]
    by_cases same : c = slash
    · rw [if_pos same]
      have cut : Spells (mem.store8 (s + n + 1) 0) s init := by
        apply spells.take
        · rw [shorter]
          exact if_pos rfl
        · intro y _ below
          exact Bytes.store8_other (by omega)
      obtain ⟨kept, k, whole, rest⟩ := ih cut shorter
      refine ⟨kept, k + 1, ?_, rest⟩
      rw [whole, same, List.append_assoc, List.replicate_succ']
    · rw [if_neg same]
      exact ⟨init ++ [c], 0, by simp, by simp, .inr (by simpa using same), spells⟩

/-! ### The calls -/

theorem basename_spells (spells : Spells mem s path) (other : ∃ c ∈ path, c ≠ slash) :
    ∃ front base mem', LastNamed path front base ∧ basename mem s = some (s + front.length, mem') ∧
      Spells mem' s (front ++ base) ∧ ∀ y, y < s ∨ s + path.length ≤ y → mem' y = mem y := by
  obtain ⟨c, member, different⟩ := other
  have nonempty : path ≠ [] := List.ne_nil_of_mem member
  have positive : 0 < path.length := List.length_pos_of_mem member
  obtain ⟨kept, k, whole, keptNonempty, ends, kept_spells⟩ :=
    stripSlashes_spells (n := path.length - 1) spells (by omega)
  have last : kept.getLast? ≠ some slash := by
    apply ends.resolve_left
    intro only
    rw [whole, only] at member
    rcases List.mem_append.mp member with first | later
    · exact different (List.mem_singleton.mp first)
    · exact different (List.eq_of_mem_replicate later)
  have outside : ∀ y, y < s ∨ s + path.length ≤ y → stripSlashes mem s (path.length - 1) y = mem y :=
    fun y outside => stripSlashes_outside (by omega)
  have going : mem s ≠ 0 := spells.byte_ne_zero (n := 0) positive
  unfold basename
  rw [if_neg going, spells.strlen]
  dsimp only
  generalize stripSlashes mem s (path.length - 1) = mem' at kept_spells outside ⊢
  rcases strrchr_spells kept_spells (c := slash) (by decide) with ⟨missing, plain⟩ | ⟨front, back, split, plain, found⟩
  · rw [missing]
    exact ⟨[], kept, mem', ⟨⟨k, whole⟩, keptNonempty, plain, .inl rfl⟩, rfl, kept_spells, outside⟩
  · rw [found]
    have parts : kept = front ++ [slash] ++ back := by rw [split, List.append_assoc, List.singleton_append]
    have named : back ≠ [] := by
      rintro rfl
      exact last (by rw [split]; simp)
    refine ⟨front ++ [slash], back, mem', ⟨⟨k, ?_⟩, named, plain, .inr ⟨front, rfl⟩⟩, ?_, parts ▸ kept_spells, outside⟩
    · rw [whole, parts]
    · simp [Nat.add_assoc]

/-- What `dirname` returns for what is before the last name. -/
inductive ParentName (mem : Bytes) (s : Nat) : List UInt8 → CharPtr → Prop where
  | none : ParentName mem s [] (.literal [])
  | root : ParentName mem s [slash] (.literal [slash])
  | inPlace {parent : List UInt8} (nonempty : parent ≠ []) (spells : Spells mem s parent) :
      ParentName mem s (parent ++ [slash]) (.pointer s)

theorem dirname_spells (spells : Spells mem s path) (other : ∃ c ∈ path, c ≠ slash) :
    ∃ front base dir mem', LastNamed path front base ∧ dirname mem s = some (dir, mem') ∧
      ParentName mem' s front dir ∧ ∀ y, y < s ∨ s + path.length ≤ y → mem' y = mem y := by
  obtain ⟨front, base, mem', last, named, kept, outside⟩ := basename_spells spells other
  rw [dirname, named]
  obtain rfl | ⟨parent, rfl⟩ := last.before
  · exact ⟨[], base, .literal [], mem', last, if_pos rfl, .none, outside⟩
  · have length : (parent ++ [slash]).length = parent.length + 1 := by simp
    have notFirst : s + (parent.length + 1) ≠ s := by omega
    have before : s + (parent.length + 1) - 1 = s + parent.length := by omega
    rw [length]
    simp only [Option.bind_eq_bind, Option.bind_some, if_neg notFirst, before]
    by_cases root : parent = []
    · subst root
      exact ⟨[slash], base, .literal [slash], mem', last, if_pos rfl, .root, outside⟩
    · have positive := List.length_pos_iff.mpr root
      rw [if_neg (by omega)]
      refine ⟨_, base, .pointer s, _, last, rfl, .inPlace root ?_, ?_⟩
      · rw [List.append_assoc] at kept
        apply kept.take
        · exact if_pos rfl
        · intro y _ below
          exact Bytes.store8_other (by omega)
      · intro y away
        have fits := last.length
        rw [length] at fits
        rw [Bytes.store8_other (by omega), outside y away]

theorem ParentName.congr {dir : CharPtr} (parent : ParentName mem s front dir)
    (same : ∀ y, s ≤ y → y ≤ s + front.length → mem' y = mem y) : ParentName mem' s front dir := by
  cases parent with
  | none => exact .none
  | root => exact .root
  | inPlace nonempty spells =>
    apply ParentName.inPlace nonempty
    apply spells.congr
    intro y above below
    exact same y above (by rw [List.length_append]; omega)

theorem ParentName.text {dir : CharPtr} (parent : ParentName mem s front dir) (last : LastNamed path front base) :
    components (dir.text mem) ++ [base] = components path ∧
      ((dir.text mem).head? = some slash ↔ path.head? = some slash) := by
  rw [last.head]
  cases parent with
  | none =>
    refine ⟨last.components_only, ?_⟩
    constructor
    · exact nofun
    · intro first
      exact absurd (List.mem_of_head? first) last.plain
  | root =>
    have parent : components [] ++ [base] = components path := LastNamed.components_parent last
    exact ⟨parent, by simp [CharPtr.text]⟩
  | inPlace nonempty spells =>
    have text : (CharPtr.pointer s).text mem = _ := spells.string
    rw [text, List.append_assoc, List.head?_append_of_ne_nil _ nonempty]
    exact ⟨last.components_parent, Iff.rfl⟩

/-- `dirname` and `basename`, each on a copy of its own, split a path into its last component and a path to the
others. -/
theorem dirname_basename {d b : Nat} (forDirname : Spells mem d path) (forBasename : Spells mem b path)
    (apart : d + path.length < b ∨ b + path.length < d) (other : ∃ c ∈ path, c ≠ slash) :
    ∃ dir mem₁ base mem₂, dirname mem d = some (dir, mem₁) ∧ basename mem₁ b = some (base, mem₂) ∧
      string mem₂ base ≠ [] ∧ slash ∉ string mem₂ base ∧
      components (dir.text mem₂) ++ [string mem₂ base] = components path ∧
      ((dir.text mem₂).head? = some slash ↔ path.head? = some slash) := by
  obtain ⟨front, name, dir, mem₁, last, split, parent, outside⟩ := dirname_spells forDirname other
  have copy : Spells mem₁ b path := forBasename.congr fun y _ _ => outside y (by omega)
  obtain ⟨front', base, mem₂, last', named, kept, outside'⟩ := basename_spells copy other
  have same : name = base := by
    have both := last'.getLast
    rw [last.getLast] at both
    exact Option.some.inj both
  subst same
  have text : string mem₂ (b + front'.length) = name := kept.drop.string
  have length := last.length
  have positive := List.length_pos_iff.mpr last.named
  have parent' : ParentName mem₂ d front dir := parent.congr fun y _ _ => outside' y (by omega)
  refine ⟨dir, mem₁, b + front'.length, mem₂, split, named, ?_⟩
  rw [text]
  exact ⟨last.named, last.plain, parent'.text last⟩

/-- `/a//b/`, at 1 and at 9 -/
theorem dirname_basename_twice :
    let path : List UInt8 := [47, 97, 47, 47, 98, 47]
    let mem := Bytes.store (Bytes.store (fun _ => 0) 1 (path ++ [0])) 9 (path ++ [0])
    ∃ dir mem₁ base mem₂, dirname mem 1 = some (dir, mem₁) ∧ basename mem₁ 9 = some (base, mem₂) ∧
      string mem₂ base ≠ [] ∧ slash ∉ string mem₂ base ∧
      components (dir.text mem₂) ++ [string mem₂ base] = components path ∧
      ((dir.text mem₂).head? = some slash ↔ path.head? = some slash) :=
  dirname_basename
    ((spells_store (by decide) (by decide)).congr fun y _ below =>
      Bytes.store_outside (.inl (lt_of_le_of_lt below (by decide))))
    (spells_store (by decide) (by decide)) (.inl (by decide)) ⟨97, by decide, by decide⟩

end Landaux.Strings
