import Landaux.Fs.Contents

/-!
# One file and many handles

Opens, closes and calls through any number of `file_t`s of one file. A history variable keeps the byte
last written at each position since the file was last truncated.
-/

namespace Landaux
open Lib

structure Shared where
  data : FileData
  /-- the `file_t` at an address -/
  files : Nat → Option File
  /-- the byte last written at a position since the last truncation, or 0; the code does not keep this -/
  log : Nat → UInt8

def Shared.new : Shared := ⟨.new, fun _ => none, fun _ => 0⟩

def Shared.setFile (s : Shared) (p : Nat) (f : Option File) : Shared :=
  { s with files := fun q => if q = p then f else s.files q }

inductive FileEvent where
  /-- `p` is where the `kzalloc` in `vfs_dopen` finds room, if it does -/
  | opens (p : Nat) (flags : BitVec 32) (granted : Bool)
  | closes (p : Nat)
  | through (p : Nat) (call : Call)

namespace FileEvent

def Enabled (s : Shared) : FileEvent → Prop
  | .opens p _ _ => s.files p = none
  | .closes p => (s.files p).isSome
  | .through p call => ∃ f, s.files p = some f ∧ call.Small f

def logged (log : Nat → UInt8) (f : File) (ret : Ret) : Call → Nat → UInt8
  | .write buf _ => if ret.value > 0 then overlay log f.offset buf else log
  | _ => log

def act (e : FileEvent) (s : Shared) : Except Misuse (Ret × Shared) :=
  match e with
  | .opens p flags granted =>
    match openFile granted 0 flags s.data with
    | .error err => .ok (⟨err, []⟩, s)
    | .ok (f, d) =>
      .ok (⟨0, []⟩, ({ s with data := d, log := if flags &&& O_TRUNC ≠ 0 then fun _ => 0 else s.log } :
        Shared).setFile p (some f))
  | .closes p => .ok (⟨0, []⟩, s.setFile p ((s.files p).bind vfsClose))
  | .through p call =>
    match s.files p with
    | none => .error .null
    | some f => do
      let (ret, f', d) ← call.act f s.data
      return (ret, ({ s with data := d, log := logged s.log f ret call } : Shared).setFile p (some f'))

end FileEvent

def SharedStep (s : Shared) (e : FileEvent × Ret) (t : Shared) : Prop :=
  e.1.Enabled s ∧ e.1.act s = .ok (e.2, t)

variable {s t : Shared} {e : FileEvent × Ret} {events : List (FileEvent × Ret)} {call : Call} {f : File}
  {d : FileData} {content : Nat → UInt8}

/-! ### Calls never misuse a block -/

/-- The blocks are in order, whatever they hold. -/
def FileData.Sound (d : FileData) : Prop := ∃ content, Stores d content

theorem newFile_data {granted : Bool} {fd : Nat} {flags : BitVec 32} {d' : FileData}
    (result : newFile granted fd flags d = .ok (f, d')) : granted = true ∧
      f.offset = (if flags &&& O_APPEND ≠ 0 then d.size else 0) ∧
      d' = if flags &&& O_TRUNC ≠ 0 then ramfsTruncate f.offset d else d := by
  unfold newFile at result
  cases granted with
  | false => cases result
  | true =>
    rw [if_neg (by decide)] at result
    by_cases trunc : flags &&& O_TRUNC ≠ 0
    · rw [if_pos trunc] at result ⊢
      obtain ⟨rfl, rfl⟩ := Prod.mk.inj (Except.ok.inj result)
      exact ⟨rfl, rfl, rfl⟩
    · rw [if_neg trunc] at result ⊢
      obtain ⟨rfl, rfl⟩ := Prod.mk.inj (Except.ok.inj result)
      exact ⟨rfl, rfl, rfl⟩

theorem Stores.act (stores : Stores d content) (small : call.Small f) :
    Ends (call.act f d) (fun r => r.2.2.Sound) fun _ => False := by
  cases call with
  | read size =>
    change Ends (Landaux.vfsRead size f d >>= _) _ _
    by_cases mode : f.openmode &&& O_RDONLY = 0
    · unfold Landaux.vfsRead
      rw [if_pos mode]
      exact ⟨content, stores⟩
    · rw [stores.vfsRead mode small]
      exact ⟨content, stores⟩
  | write buf answer =>
    refine (stores.vfsWrite small).mono (fun r ends => ?_) fun _ never => never
    cases ends with
    | closed | nothing | full => exact ⟨content, stores⟩
    | wrote _ _ _ wrote => exact ⟨_, wrote.stores⟩
  | lseek offset whence => exact ⟨content, stores⟩

theorem shared_sound (sound : s.data.Sound) (enabled : e.1.Enabled s) :
    Ends (e.1.act s) (fun r => r.2.data.Sound) fun _ => False := by
  obtain ⟨e, ret⟩ := e
  obtain ⟨content, stores⟩ := sound
  cases e with
  | opens p flags granted =>
    dsimp only [FileEvent.act]
    cases opened : openFile granted 0 flags s.data with
    | error err => exact ⟨content, stores⟩
    | ok r =>
      obtain ⟨f, d⟩ := r
      unfold openFile at opened
      split at opened
      · cases opened
      obtain ⟨-, offset, rfl⟩ := newFile_data opened
      change FileData.Sound (if flags &&& O_TRUNC ≠ 0 then ramfsTruncate f.offset s.data else s.data)
      split
      · refine ⟨content, stores.truncate ?_⟩
        rw [offset]
        split
        · exact Or.inr rfl
        · exact Or.inl rfl
      · exact ⟨content, stores⟩
  | closes p => exact ⟨content, stores⟩
  | through p call =>
    obtain ⟨f, file, small⟩ := enabled
    dsimp only [FileEvent.act]
    rw [file]
    exact Ends.bind (stores.act small) fun r sound => sound

/-- Whatever has been done to the file, a call returns. -/
theorem shared_returns (run : Run SharedStep .new events s) (enabled : e.1.Enabled s) :
    ∃ r, e.1.act s = .ok r := by
  have sound : s.data.Sound := run.invariant (P := fun s => s.data.Sound)
    (fun _ _ _ sound step => (shared_sound sound step.1).of_ok step.2) ⟨fun _ => 0, .new⟩
  have ends := shared_sound sound enabled
  cases result : e.1.act s with
  | error misuse => exact (ends.of_error result).elim
  | ok r => exact ⟨r, rfl⟩

/-! ### What reads return -/

/-- Every byte of the file is the one last written there, or 0. -/
def Shows (s : Shared) : Prop := ∀ b, s.data.data = some b → ∀ i < s.data.size, b.bytes i = s.log i

/-- What the handles should see: a truncated file is empty, and bytes are those last written. -/
structure Right (s : Shared) (e : FileEvent × Ret) (t : Shared) : Prop where
  shows : Shows t
  empty : ∀ p flags granted, e.1 = .opens p flags granted → e.2.value = 0 → flags &&& O_TRUNC ≠ 0 →
    t.data.size = 0
  read : ∀ p size f, e.1 = .through p (.read size) → s.files p = some f →
    ∀ k, k < e.2.bytes.length → e.2.bytes.getD k 0 = s.log (f.offset + k)

/-- `O_TRUNC` does not come with `O_APPEND` unless the file is empty, and a write past the end of the file
finds zeros in the block between the end and its offset. -/
def Plain (s : Shared) (e : FileEvent × Ret) : Prop :=
  match e.1 with
  | .opens _ flags _ => e.2.value = 0 → flags &&& O_TRUNC ≠ 0 → flags &&& O_APPEND ≠ 0 → s.data.size = 0
  | .through p (.write buf answer) => ∀ f, s.files p = some f → f.openmode &&& O_WRONLY ≠ 0 → 0 < buf.length →
      ∀ bytes, s.data.target answer (f.offset + buf.length) = some bytes →
        ∀ i, s.data.size ≤ i → i < f.offset → bytes i = 0
  | _ => True

structure KeptOpen (s : Shared) : Prop where
  stores : Stores s.data s.log
  past : ∀ i, s.data.size ≤ i → s.log i = 0

theorem KeptOpen.shows (kept : KeptOpen s) : Shows s := kept.stores.bytes

theorem KeptOpen.same (kept : KeptOpen s) (data : t.data = s.data) (log : t.log = s.log) : KeptOpen t := by
  refine ⟨?_, ?_⟩
  · rw [data, log]
    exact kept.stores
  · rw [data, log]
    exact kept.past

/-- After an event that is neither a read nor an open. -/
theorem KeptOpen.right (kept : KeptOpen t) {s : Shared} {ev : FileEvent} {ret : Ret}
    (noOpen : ∀ p flags granted, ev ≠ .opens p flags granted) (noRead : ∀ p size, ev ≠ .through p (.read size)) :
    Right s (ev, ret) t :=
  ⟨kept.shows, fun p flags granted opens => absurd opens (noOpen p flags granted),
    fun p size _ read => absurd read (noRead p size)⟩

/-- How an open ends: nothing has changed, or there is a new handle. -/
theorem opens_cases {p : Nat} {flags : BitVec 32} {granted : Bool} {ret : Ret}
    (step : SharedStep s (.opens p flags granted, ret) t) : (ret.value ≠ 0 ∧ t = s) ∨ ret.value = 0 ∧
      ∃ offset, offset = (if flags &&& O_APPEND ≠ 0 then s.data.size else 0) ∧
        t.data = (if flags &&& O_TRUNC ≠ 0 then ramfsTruncate offset s.data else s.data) ∧
        t.log = if flags &&& O_TRUNC ≠ 0 then fun _ => 0 else s.log := by
  obtain ⟨-, result⟩ := step
  dsimp only [FileEvent.act] at result
  cases opened : openFile granted 0 flags s.data with
  | error err =>
    rw [opened] at result
    obtain ⟨rfl, rfl⟩ := Prod.mk.inj (Except.ok.inj result)
    refine Or.inl ⟨?_, rfl⟩
    unfold openFile newFile at opened
    split at opened
    · exact Except.error.inj opened ▸ by decide
    split at opened
    · exact Except.error.inj opened ▸ by decide
    dsimp only at opened
    split at opened <;> cases opened
  | ok r =>
    obtain ⟨f, d⟩ := r
    rw [opened] at result
    obtain ⟨rfl, rfl⟩ := Prod.mk.inj (Except.ok.inj result)
    unfold openFile at opened
    split at opened
    · cases opened
    obtain ⟨-, offset, rfl⟩ := newFile_data opened
    exact Or.inr ⟨rfl, f.offset, offset, rfl, rfl⟩

theorem opens_right {p : Nat} {flags : BitVec 32} {granted : Bool} {ret : Ret} (kept : KeptOpen s)
    (step : SharedStep s (.opens p flags granted, ret) t) :
    (Right s (.opens p flags granted, ret) t ↔ Plain s (.opens p flags granted, ret)) ∧
      (Right s (.opens p flags granted, ret) t → KeptOpen t) := by
  have goes : Plain s (.opens p flags granted, ret) → Right s (.opens p flags granted, ret) t ∧ KeptOpen t := by
    intro plain
    rcases opens_cases step with ⟨nonzero, rfl⟩ | ⟨zero, offset, place, data, log⟩
    · exact ⟨⟨kept.shows, fun _ _ _ _ zero => absurd zero nonzero, nofun⟩, kept⟩
    by_cases trunc : flags &&& O_TRUNC ≠ 0
    · have start : offset = 0 := by
        rw [place]
        split
        · rename_i append
          exact plain zero trunc append
        · rfl
      rw [if_pos trunc, start] at data
      rw [if_pos trunc] at log
      have after : KeptOpen t := by
        refine ⟨?_, fun i _ => by rw [log]⟩
        rw [data]
        exact (kept.stores.truncate (Or.inl rfl)).congr fun i below => absurd below (Nat.not_lt_zero i)
      exact ⟨⟨after.shows, fun _ _ _ _ _ _ => by rw [data]; rfl, nofun⟩, after⟩
    · rw [if_neg trunc] at data log
      have after := kept.same data log
      refine ⟨⟨after.shows, ?_, nofun⟩, after⟩
      intro p' flags' granted' same _ needs
      obtain ⟨-, rfl, -⟩ := FileEvent.opens.inj same
      exact absurd needs trunc
  have needs : Right s (.opens p flags granted, ret) t → Plain s (.opens p flags granted, ret) := by
    intro right zero trunc append
    have empty := right.empty p flags granted rfl zero trunc
    rcases opens_cases step with ⟨nonzero, -⟩ | ⟨-, offset, place, data, -⟩
    · exact absurd zero nonzero
    · rw [data, if_pos trunc, place, if_pos append] at empty
      exact empty
  exact ⟨⟨needs, fun plain => (goes plain).1⟩, fun right => (goes (needs right)).2⟩

theorem read_right {p size : Nat} {ret : Ret} (kept : KeptOpen s)
    (step : SharedStep s (.through p (.read size), ret) t) :
    Right s (.through p (.read size), ret) t ∧ KeptOpen t := by
  obtain ⟨⟨f, file, small⟩, result⟩ := step
  dsimp only [FileEvent.act] at result
  rw [file] at result
  dsimp only at result
  have reads : ∃ f', vfsRead size f s.data = .ok (ret, f') ∧ t.data = s.data ∧ t.log = s.log := by
    cases read : vfsRead size f s.data with
    | error misuse =>
      rw [Call.act, read] at result
      cases result
    | ok r =>
      rw [Call.act, read] at result
      obtain ⟨rfl, rfl⟩ := Prod.mk.inj (Except.ok.inj result)
      exact ⟨r.2, rfl, rfl, rfl⟩
  obtain ⟨f', read, data, log⟩ := reads
  have after := kept.same data log
  refine ⟨⟨after.shows, nofun, ?_⟩, after⟩
  intro p' size' f₁ same file' k inside
  obtain ⟨rfl, -⟩ := FileEvent.through.inj same
  obtain rfl := Option.some.inj (file.symm.trans file')
  by_cases mode : f.openmode &&& O_RDONLY = 0
  · unfold vfsRead at read
    rw [if_pos mode] at read
    obtain ⟨rfl, -⟩ := Prod.mk.inj (Except.ok.inj read)
    exact absurd inside (Nat.not_lt_zero k)
  · rw [kept.stores.vfsRead mode small] at read
    obtain ⟨rfl, -⟩ := Prod.mk.inj (Except.ok.inj read)
    dsimp only at inside ⊢
    rw [List.getD_eq_getElem?_getD, List.getElem?_eq_getElem inside, Option.getD_some, List.getElem_map,
      List.getElem_range]

/-- A write that goes through shows what was written exactly when it finds zeros past the end. -/
theorem Wrote.right {bytes : Nat → UInt8} {offset : Nat} {buf : List UInt8} {d' : FileData}
    (past : ∀ i, d.size ≤ i → content i = 0)
    (wrote : Wrote d content bytes offset buf d') (positive : 0 < buf.length) :
    (∀ b, d'.data = some b → ∀ i < d'.size, b.bytes i = overlay content offset buf i) ↔
      ∀ i, d.size ≤ i → i < offset → bytes i = 0 := by
  have size := wrote.size
  constructor
  · intro shows i ge below
    cases data : d'.data with
    | none =>
      have unused := wrote.stores.unused data
      have fits := wrote.stores.fits
      omega
    | some b =>
      have shown := shows b data i (by omega)
      have held := wrote.stores.bytes b data i (by omega)
      rw [overlay, if_neg (by omega)] at shown held
      rw [if_neg (by omega)] at held
      rw [← held, shown, past i ge]
  · intro zeros b data i below
    rw [wrote.stores.bytes b data i below]
    by_cases within : offset ≤ i ∧ i < offset + buf.length
    · rw [overlay, overlay, if_pos within, if_pos within]
    · rw [overlay, overlay, if_neg within, if_neg within]
      by_cases old : i < d.size
      · exact if_pos old
      · rw [past i (by omega)]
        exact (if_neg old).trans (zeros i (by omega) (by omega))

/-- After a write that left the file as it was. -/
theorem unwritten_right {p : Nat} {buf : List UInt8} {answer : Granted} {ret : Ret} (kept : KeptOpen s)
    (data : t.data = s.data) (log : t.log = s.log) (plain : Plain s (.through p (.write buf answer), ret)) :
    (Right s (.through p (.write buf answer), ret) t ↔ Plain s (.through p (.write buf answer), ret)) ∧
      KeptOpen t := by
  have after := kept.same data log
  exact ⟨iff_of_true (after.right nofun nofun) plain, after⟩

theorem write_right {p : Nat} {buf : List UInt8} {answer : Granted} {ret : Ret} (kept : KeptOpen s)
    (step : SharedStep s (.through p (.write buf answer), ret) t) :
    (Right s (.through p (.write buf answer), ret) t ↔ Plain s (.through p (.write buf answer), ret)) ∧
      (Right s (.through p (.write buf answer), ret) t → KeptOpen t) := by
  obtain ⟨⟨f, file, small⟩, result⟩ := step
  have spec : Ends (vfsWrite answer buf f s.data) _ _ := kept.stores.vfsWrite small
  dsimp only [FileEvent.act] at result
  rw [file] at result
  change (vfsWrite answer buf f s.data >>= _) = _ at result
  cases write : vfsWrite answer buf f s.data with
  | error misuse =>
    rw [write] at result
    cases result
  | ok r =>
    have ends := spec.of_ok write
    have after : ret = r.1 ∧ t.data = r.2.2 ∧ t.log = FileEvent.logged s.log f r.1 (.write buf answer) := by
      rw [write] at result
      obtain ⟨rfl, rfl⟩ := Prod.mk.inj (Except.ok.inj result)
      exact ⟨rfl, rfl, rfl⟩
    have only : ∀ g, s.files p = some g → g = f := fun g other =>
      Option.some.inj (other.symm.trans file)
    obtain ⟨rfl, data, log⟩ := after
    cases ends with
    | closed mode =>
      refine (unwritten_right kept data (log.trans rfl) ?_).imp_right fun after _ => after
      intro g other writable
      rw [only g other] at writable
      exact absurd mode writable
    | nothing zero =>
      refine (unwritten_right kept data (log.trans rfl) ?_).imp_right fun after _ => after
      intro g other writable positive
      omega
    | full positive nowhere =>
      refine (unwritten_right kept data (log.trans rfl) ?_).imp_right fun after _ => after
      intro g other writable positive bytes found
      rw [only g other, nowhere] at found
      cases found
    | @wrote bytes d' mode positive found wrote =>
      have shown := wrote.right kept.past positive
      rw [FileEvent.logged, if_pos (by exact Int.natCast_pos.mpr positive)] at log
      dsimp only at data
      have plain : Plain s (.through p (.write buf answer), ⟨buf.length, []⟩) ↔
          ∀ i, s.data.size ≤ i → i < f.offset → bytes i = 0 := by
        constructor
        · intro all
          exact all f file mode positive bytes found
        · intro zeros g other _ _ bytes' found'
          rw [only g other, found] at found'
          obtain rfl := Option.some.inj found'
          rw [only g other]
          exact zeros
      have shows : Shows t ↔ ∀ i, s.data.size ≤ i → i < f.offset → bytes i = 0 := by
        rw [← shown, Shows, data, log]
      refine ⟨?_, fun right => ?_⟩
      · rw [plain, ← shows]
        exact ⟨fun right => right.shows, fun shows => ⟨shows, nofun, nofun⟩⟩
      · have stores := wrote.stores
        have size := wrote.size
        have held := right.shows
        rw [← data] at stores size
        refine ⟨⟨stores.fits, stores.short, stores.small, stores.unused, stores.block, held⟩, ?_⟩
        intro i past
        rw [log, overlay, if_neg (by omega)]
        exact kept.past i (by omega)

theorem shared_step (kept : KeptOpen s) (step : SharedStep s e t) :
    (Right s e t ↔ Plain s e) ∧ (Right s e t → KeptOpen t) := by
  obtain ⟨e, ret⟩ := e
  cases e with
  | opens p flags granted => exact opens_right kept step
  | closes p =>
    obtain ⟨-, result⟩ := step
    obtain ⟨-, rfl⟩ := Prod.mk.inj (Except.ok.inj result)
    have after : KeptOpen (s.setFile p ((s.files p).bind vfsClose)) := kept.same rfl rfl
    exact ⟨iff_of_true (after.right nofun nofun) trivial, fun _ => after⟩
  | through p call =>
    cases call with
    | read size =>
      obtain ⟨right, after⟩ := read_right kept step
      exact ⟨iff_of_true right trivial, fun _ => after⟩
    | write buf answer => exact write_right kept step
    | lseek offset whence =>
      obtain ⟨⟨f, file, -⟩, result⟩ := step
      dsimp only [FileEvent.act] at result
      rw [file] at result
      obtain ⟨-, rfl⟩ := Prod.mk.inj (Except.ok.inj result)
      have after : KeptOpen (s.setFile p (some (vfsLseek offset whence f s.data).2)) := kept.same rfl rfl
      exact ⟨iff_of_true (after.right nofun nofun) trivial, fun _ => after⟩

theorem KeptOpen.new : KeptOpen .new := ⟨.new, fun _ _ => rfl⟩

theorem shared_file_iff :
    Throughout SharedStep Right .new events ↔ Throughout SharedStep (fun s e _ => Plain s e) .new events := by
  apply Throughout.congr KeptOpen
  · exact .new
  · intro s e t kept step
    exact (shared_step kept step).1
  · intro s e t kept step
    exact (shared_step kept step).2

/-- A file is truncated under a handle, which then writes past the end: what `kmalloc` found is shown. -/
theorem stale_bytes_shown : ¬ ∀ events, Throughout SharedStep Right .new events := by
  intro all
  have run : Run SharedStep .new [(.opens 0 (O_RDWR ||| O_CREAT) true, ⟨0, []⟩),
      (.through 0 (.write [97, 98, 99] (some fun _ => 7)), ⟨3, []⟩),
      (.opens 1 (O_RDWR ||| O_TRUNC) true, ⟨0, []⟩)] _ :=
    .cons ⟨rfl, rfl⟩ (.cons ⟨⟨_, rfl, by decide⟩, rfl⟩ (.single ⟨rfl, rfl⟩))
  have right := all _ _ (.through 0 (.write [100] (some fun _ => 7)), ⟨1, []⟩) [] _ _ rfl run
    ⟨⟨_, rfl, by decide⟩, rfl⟩
  exact absurd (right.shows _ rfl 0 (by decide)) (by decide)

end Landaux
