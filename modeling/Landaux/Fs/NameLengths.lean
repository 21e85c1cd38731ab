import Landaux.Fs.Register
import Landaux.Fs.FileCalls
import Landaux.Fs.TarBounds

/-!
# Lengths of names

The calls on paths, `extract_tar` and `devfs_register`, in any order. Neither `make_node` compares the length of
a name with `PATH_MAX`, so a component is only refused when a lookup fails on it or there is no memory.
-/

namespace Landaux
open Lib Mounts

variable {σ : Type} {m : Mounts} {a : MountAnswers} {devices : Nat → Device} {count p : Nat} {name : Name}
  {path bytes : List UInt8}

/-! ### extract_tar -/

def MountStop.inTar : MountStop → FsStop
  -- a call through `NULL` is an access to memory that is not there
  | .null => .freed
  | .fs stop => stop

/-- The calls of `extract_tar`, with what the allocator answers in each state. -/
def Mounts.tarFs (reg : Registry) (answers : Mounts → MountAnswers) : TarFs Mounts where
  create := fun name m => do
    let (ret, m) ← (m.vfsOpen reg (answers m) name createFlags).mapError MountStop.inTar
    return (ret.toOption, m)
  write := fun p buf m => do
    let (_, m) ← (m.vfsWrite reg (answers m) p buf).mapError MountStop.inTar
    return m
  close := fun p m => do
    let (_, m) ← (m.vfsClose reg p).mapError MountStop.inTar
    return m
  mkdir := fun name m => do
    let (_, m) ← (m.vfsMkdir reg (answers m) name).mapError MountStop.inTar
    return m

theorem strcatName_length (l : List UInt8) : ∀ room, Ends (strcatName room l) (fun name => name.length ≤ room)
    fun _ => True := by
  induction l with
  | nil =>
    intro room
    rw [strcatName]
    trivial
  | cons b l ih =>
    intro room
    cases room with
    | zero => trivial
    | succ room =>
      rw [strcatName]
      split
      · exact Nat.zero_le _
      · have rest := ih room
        cases result : strcatName room l with
        | error stop => trivial
        | ok name =>
          rw [result] at rest
          exact Nat.succ_le_succ rest

theorem called_ends {α : Type} {post : α → Prop} {r : Except FsStop α} (ends : Ends r post fun _ => True) :
    Ends (called r) post fun _ => True := by
  cases r with
  | ok x => exact ends
  | error stop => trivial

namespace TarFs

/-- `P` is kept by what `extract_tar` calls, on names that fit into its buffer. -/
structure Keeps (fs : TarFs σ) (P : σ → Prop) : Prop where
  create : ∀ name s, name.length ≤ 100 → P s → Ends (fs.create (slash :: name) s) (fun r => P r.2) fun _ => True
  write : ∀ p buf s, P s → Ends (fs.write p buf s) P fun _ => True
  close : ∀ p s, P s → Ends (fs.close p s) P fun _ => True
  mkdir : ∀ name s, name.length ≤ 100 → P s → Ends (fs.mkdir (slash :: name) s) P fun _ => True

variable {fs : TarFs σ} {P : σ → Prop} {s : σ}

theorem Keeps.entry {type : UInt8} {size : Nat} (keeps : fs.Keeps P) (fits : name.length ≤ 100) (holds : P s) :
    Ends (fs.extractEntry bytes p type (slash :: name) size s) P fun _ => True := by
  unfold extractEntry
  split
  · apply Ends.bind (called_ends (keeps.create name s fits holds))
    intro r kept
    obtain ⟨file, t⟩ := r
    cases file with
    | none => exact kept
    | some f =>
      apply Ends.bind ends_true
      intro data _
      apply Ends.bind (called_ends (keeps.write f data t kept))
      intro u kept
      exact called_ends (keeps.close f u kept)
  split
  · exact called_ends (keeps.mkdir name s fits holds)
  · exact holds

theorem Keeps.from (keeps : fs.Keeps P) (fuel : Nat) : ∀ p s, P s →
    Ends (fs.extractFrom bytes fuel p s) P fun _ => True := by
  induction fuel with
  | zero => exact fun _ _ _ => trivial
  | succ fuel ih =>
    intro p s holds
    rw [extractFrom]
    split
    · exact holds
    apply Ends.bind ends_true
    intro ended _
    split
    · exact holds
    have short : Ends (readHeader bytes p) (fun h => h.name.length ≤ 100) fun _ => True := by
      unfold readHeader
      apply Ends.bind (strcatName_length _ 100)
      intro name short
      apply Ends.bind ends_true
      intro size _
      exact Ends.bind ends_true fun _ _ => short
    apply Ends.bind short
    intro h short
    apply Ends.bind (keeps.entry short holds)
    intro t kept
    exact ih _ t kept

theorem Keeps.extractTar (keeps : fs.Keeps P) (holds : P s) :
    Ends (fs.extractTar bytes s) (fun r => P r.2) fun _ => True := by
  unfold TarFs.extractTar
  split
  · exact holds
  apply Ends.bind ends_true
  intro magic _
  split
  · exact holds
  · exact Ends.bind (keeps.from _ 0 s holds) fun t kept => kept

end TarFs

/-- The last component is a component. -/
theorem VfsCall.not_tooLong {call : VfsCall} {reg : Registry} (short : ∀ name ∈ call.names, name.length < PATH_MAX) :
    ¬ call.TooLong reg a m := by
  intro long
  cases call with
  | mkdir path =>
    obtain ⟨d, name, t, result, length, -⟩ := long
    have last := (lookupPathCommon_last.of_ok result) d (some name) rfl
    exact absurd (short name (List.mem_of_getLast? last.symm)) (not_lt.mpr length)
  | opens path flags =>
    obtain ⟨d, name, t, result, length, -⟩ := long
    have last := (lookupPathCommon_last.of_ok result) d (some name) rfl
    exact absurd (short name (List.mem_of_getLast? last.symm)) (not_lt.mpr length)
  | mount | lookup | getdents | rmdir | unlink | closes | read | write | lseek => exact long

theorem inTar_ends {α β : Type} {post : α × Mounts → Prop} {stop : MountStop → Prop} {post' : β → Prop}
    {r : Except MountStop (α × Mounts)} {f : α × Mounts → β} (ends : Ends r post stop)
    (more : ∀ r, post r → post' (f r)) :
    Ends (do let r ← r.mapError MountStop.inTar; return f r) post' fun _ => True := by
  cases r with
  | ok x => exact more x ends
  | error stop => trivial

theorem tarFs_keeps (answers : Mounts → MountAnswers) :
    (Mounts.tarFs (filesystems devices count) answers).Keeps fun m => NamesFit m.toVfs := by
  have short : ∀ {name b : Name}, name.length ≤ 100 → b ∈ components (slash :: name) → b.length < PATH_MAX := by
    intro name b le member
    have length := components_length member
    rw [List.length_cons] at length
    unfold PATH_MAX
    omega
  constructor
  case create =>
    intro name m le fits
    have fine : ¬ VfsCall.TooLong (filesystems devices count) (answers m) m (.opens (slash :: name) createFlags) :=
      VfsCall.not_tooLong fun b member => short le member
    exact inTar_ends (open_names fits fine) fun r only => only.fits
  case write =>
    intro p buf m fits
    exact inTar_ends write_unmade fun r none => none.fits fits
  case close =>
    intro p m fits
    exact inTar_ends close_unmade fun r none => none.fits fits
  case mkdir =>
    intro name m le fits
    have fine : ¬ VfsCall.TooLong (filesystems devices count) (answers m) m (.mkdir (slash :: name)) :=
      VfsCall.not_tooLong fun b member => short le member
    exact inTar_ends (mkdir_names fits fine) fun r only => only.fits

/-! ### Runs -/

inductive NameCall where
  | vfs (a : MountAnswers) (call : VfsCall)
  | extract (answers : Mounts → MountAnswers) (bytes : List UInt8)
  | register (a : RegisterAnswers) (root : Nat) (path : List UInt8) (ops : Device)

namespace NameCall

def act (count : Nat) (s : DevMounts) : NameCall → Except NameStop (Except Int Nat × DevMounts)
  | .vfs a call => do
    let (ret, m) ← (call.act (filesystems s.devices count) a s.toMounts).mapError .vfs
    return (ret, { s with toMounts := m })
  | .extract answers bytes => do
    let (ret, m) ← ((Mounts.tarFs (filesystems s.devices count) answers).extractTar bytes s.toMounts).mapError .tar
    return (VfsCall.act.value ret, { s with toMounts := m })
  | .register a root path ops => do
    let (ret, s) ← s.devfsRegister a root path ops
    return (VfsCall.act.value ret, s)

def Fresh (s : DevMounts) : NameCall → Prop
  | .register a _ _ _ => a.Fresh 0 s.toMounts
  | _ => True

/-- A `make_node` gets memory for a component that is too long. -/
def TooLong (count : Nat) (s : DevMounts) : NameCall → Prop
  | .vfs a call => call.TooLong (filesystems s.devices count) a s.toMounts
  | .extract .. => False
  | .register a root path _ => a.TooLong 0 s.toMounts root (devNames path)

/-- A component that is too long is refused with an error, and makes nothing: what is new has the name of a
component before it, in the devfs. `extract_tar` has no such component. -/
def Rejects (s : DevMounts) (r : Except Int Nat × DevMounts) : NameCall → Prop
  | .vfs _ call => (∃ name ∈ call.names, PATH_MAX ≤ name.length) → (∃ err, r.1 = .error err) ∧ r.2.live ⊆ s.live
  | .extract .. => True
  | .register _ _ path _ => (∃ name ∈ devNames path, PATH_MAX ≤ name.length) → (∃ err, r.1 = .error err) ∧
      ∀ x ∈ r.2.live, x ∉ s.live → (r.2.node x).name ∈ (devNames path).takeWhile fun name => name.length < PATH_MAX

def Copies : NameCall → Prop
  | .vfs _ call => call.Copies
  | .extract .. => False
  | .register .. => True

end NameCall

/-- The states that calls lead to when each one meets a condition. -/
inductive NamesReached (count : Nat) (meets : NameCall → DevMounts → Prop) : DevMounts → Prop where
  | boot (devices : Nat → Device) : NamesReached count meets ⟨.bare, devices⟩
  | call {c : NameCall} {s t : DevMounts} {ret : Except Int Nat} (before : NamesReached count meets s)
      (met : meets c s) (acts : c.act count s = .ok (ret, t)) : NamesReached count meets t

/-- Every dentry of every state has a name that fits, and every call refuses what does not fit. -/
def NamesHold (count : Nat) (meets : NameCall → DevMounts → Prop) : Prop :=
  ∀ s, NamesReached count meets s → NamesFit s.toVfs ∧ ∀ c, meets c s →
    Ends (c.act count s) (fun r => c.Rejects s r) fun stop => c.Copies → stop ≠ .vfs (.fs .overrun)

theorem mapError_ends {α ε ε' : Type} {post : α → Prop} {stop : ε' → Prop} {r : Except ε α} {f : ε → ε'}
    (ends : Ends r post fun e => stop (f e)) : Ends (r.mapError f) post stop := by
  cases r with
  | ok x => exact ends
  | error e => exact ends

/-- One call. -/
theorem act_rejects {c : NameCall} {s : DevMounts} (fits : NamesFit s.toVfs) (fresh : c.Fresh s)
    (short : ¬ c.TooLong count s) : Ends (c.act count s) (fun r => NamesFit r.2.toVfs ∧ c.Rejects s r)
      fun stop => c.Copies → stop ≠ .vfs (.fs .overrun) := by
  cases c with
  | vfs a call =>
    have only := (act_shortOnly fits short).mono (fun _ => id) fun stop other copies same =>
      other copies (NameStop.vfs.inj same)
    apply Ends.bind (mapError_ends only)
    intro r only
    exact ⟨only.fits, fun long => ⟨(only.refused long).1, (only.refused long).2.live⟩⟩
  | extract answers bytes =>
    have kept : Ends ((Mounts.tarFs (filesystems s.devices count) answers).extractTar bytes s.toMounts)
        (fun r => NamesFit r.2.toVfs) fun _ => True := (tarFs_keeps answers).extractTar fits
    apply Ends.bind (mapError_ends (kept.mono (fun _ => id) fun _ _ => False.elim))
    intro r kept
    exact ⟨kept, trivial⟩
  | register a root path ops =>
    have registered : Ends (s.devfsRegister a root path ops) (Registered s.toMounts (devNames path))
        fun stop => stop ≠ .vfs (.fs .overrun) := registerFrom_registered _ 0 path root s fits fresh short
    apply Ends.bind (registered.mono (fun _ => id) fun _ other _ => other)
    intro r registered
    refine ⟨registered.fits, fun long => ?_⟩
    obtain ⟨negative, -, new⟩ := registered.refused long
    exact ⟨⟨r.1, value_negative negative⟩, new⟩

/-- The names fit in every run in which no `make_node` gets memory for a component that is too long. -/
theorem names_fit_unless_too_long (count : Nat) : NamesHold count fun c s => c.Fresh s ∧ ¬ c.TooLong count s := by
  intro s reached
  have fits : NamesFit s.toVfs := by
    induction reached with
    | boot devices => exact fun _ => (by decide : 0 < PATH_MAX)
    | call before met acts ih => exact ((act_rejects ih met.1 met.2).of_ok acts).1
  exact ⟨fits, fun c met => (act_rejects fits met.1 met.2).mono (fun _ both => both.2) fun _ => id⟩

def mountRamfs : NameCall := .vfs (plentiful 1) (.mount [114, 97, 109, 102, 115] [slash])

def mkdirLetters (n : Nat) : NameCall := .vfs (plentiful 2) (.mkdir (slash :: List.replicate n 97))

theorem reached_two (meets : NameCall → DevMounts → Prop) (n : Nat)
    (boot : meets mountRamfs ⟨.bare, fun _ => nullDevice⟩)
    (made : ∀ s, meets (mkdirLetters n) s) (length : ((mountRamfs.act 2 ⟨.bare, fun _ => nullDevice⟩ >>= fun r =>
      (mkdirLetters n).act 2 r.2).toOption.map fun r => (r.2.node 2).name.length) = some n) :
    ∃ t, NamesReached 2 meets t ∧ (t.node 2).name.length = n := by
  cases first : mountRamfs.act 2 ⟨.bare, fun _ => nullDevice⟩ with
  | error stop =>
    rw [first] at length
    cases length
  | ok r =>
    obtain ⟨ret, s⟩ := r
    rw [first, ok_bind] at length
    cases second : (mkdirLetters n).act 2 s with
    | error stop =>
      rw [second] at length
      cases length
    | ok r =>
      obtain ⟨ret', t⟩ := r
      rw [second] at length
      exact ⟨t, .call (.call (.boot _) boot first) (made s) second, Option.some.inj length⟩

/-- A directory with a short name. -/
theorem names_fit_unless_too_long_short : ∃ t : DevMounts, (t.node 2).name.length = 3 ∧ NamesFit t.toVfs := by
  have plain : ∀ name ∈ components (slash :: List.replicate 3 97), name.length < PATH_MAX := by decide
  have short : ∀ s, ¬ (mkdirLetters 3).TooLong 2 s := by
    intro s
    change ¬ VfsCall.TooLong _ _ _ (.mkdir (slash :: List.replicate 3 97))
    exact VfsCall.not_tooLong plain
  obtain ⟨t, reached, length⟩ := reached_two (fun c s => c.Fresh s ∧ ¬ c.TooLong 2 s) 3 ⟨trivial, id⟩
    (fun s => ⟨trivial, short s⟩) (by decide +kernel)
  exact ⟨t, length, (names_fit_unless_too_long 2 t reached).1⟩

/-- The name of the new directory has no 0 in its array. -/
theorem names_overlong : ¬ NamesHold 2 fun c s => c.Fresh s := by
  intro holds
  obtain ⟨t, reached, length⟩ := reached_two (fun c s => c.Fresh s) 255 trivial (fun _ => trivial)
    (by decide +kernel)
  have fits := (holds t reached).1 2
  rw [length] at fits
  exact absurd fits (by decide)

end Landaux
