import Landaux.Lib.Bytes

/-!
# The block layer

`block_read`, `block_write`, `init_block` and `register_block` of `drivers/block/block.c`. A driver is a
parameter: its operations work on a state `σ` that it keeps for each device. A request gets the bytes
that are in the buffer of the caller; `ERROR` is the `u32` of `-1`.
-/

namespace Landaux

open Lib

def MAXDEV : Nat := 5

/-- `blockdev_ops_t`, where `none` stands for `NULL`. -/
structure BlockdevOps (σ : Type) where
  init : Option (σ → Int × σ)
  read : Option (σ → Nat → List UInt8 → (Nat × List UInt8) × σ)
  write : Option (σ → Nat → List UInt8 → Nat × σ)

/-- A `blockdev_t`, with what the driver keeps for it. -/
structure Blockdev (σ : Type) where
  dev : Int
  ops : Option (BlockdevOps σ)
  state : σ

abbrev Devices (σ : Type) := Nat → Blockdev σ

namespace Devices

variable {σ : Type}

def ERROR : Nat := 2 ^ 32 - 1

def setState (d : Devices σ) (i : Nat) (s : σ) : Devices σ :=
  fun j => if j = i then { d i with state := s } else d j

/-- The value returned and the buffer; nothing if `ops` is `NULL`. -/
def blockRead (dev : Int) (offset : Nat) (buf : List UInt8) (d : Devices σ) :
    Option ((Nat × List UInt8) × Devices σ) :=
  if dev < 0 ∨ dev ≥ MAXDEV then some ((ERROR, buf), d)
  else
    match (d dev.toNat).ops with
    | none => none
    | some ops =>
      match ops.write with
      | none => some ((ERROR, buf), d)
      | some write =>
        let (ret, s) := write (d dev.toNat).state offset buf
        some ((ret, buf), d.setState dev.toNat s)

def blockWrite (dev : Int) (offset : Nat) (buf : List UInt8) (d : Devices σ) : Option (Nat × Devices σ) :=
  if dev < 0 ∨ dev ≥ MAXDEV then some (ERROR, d)
  else
    match (d dev.toNat).ops with
    | none => none
    | some ops =>
      match ops.write with
      | none => some (ERROR, d)
      | some write =>
        let (ret, s) := write (d dev.toNat).state offset buf
        some (ret, d.setState dev.toNat s)

def initBlock (d : Devices σ) : Devices σ :=
  fun i => if i < MAXDEV then { d i with dev := -1 } else d i

/-- The loop of `register_block` from device `i` on, where `n` devices are left. -/
def registerFrom (ops : BlockdevOps σ) (d : Devices σ) : Nat → Nat → Int × Devices σ
  | 0, _ => (-1, d)
  | n + 1, i =>
    if (d i).dev = -1 then
      match ops.init with
      | none => (i, fun j => if j = i then { d i with dev := i, ops := some ops } else d j)
      | some init =>
        let (ret, s) := init (d i).state
        let dev := if ret < 0 then -1 else (i : Int)
        (dev, fun j => if j = i then ⟨dev, some ops, s⟩ else d j)
    else registerFrom ops d n (i + 1)

def registerBlock (ops : Option (BlockdevOps σ)) (d : Devices σ) : Int × Devices σ :=
  match ops with
  | none => (-1, d)
  | some ops => registerFrom ops d MAXDEV 0

/-- A device that was free is registered, and the others stay as they are. -/
structure Taken (ops : BlockdevOps σ) (d t : Devices σ) (k : Nat) : Prop where
  free : (d k).dev = -1
  dev : (t k).dev = k
  ops : (t k).ops = some ops
  others : ∀ j, j ≠ k → t j = d j

theorem registerFrom_spec (ops : BlockdevOps σ) (d : Devices σ) (n i : Nat) :
    (registerFrom ops d n i).1 = -1 ∨ ∃ k, i ≤ k ∧ k < i + n ∧ (registerFrom ops d n i).1 = k ∧
      Taken ops d (registerFrom ops d n i).2 k := by
  induction n generalizing i with
  | zero => exact Or.inl rfl
  | succ n ih =>
    rw [registerFrom]
    by_cases free : (d i).dev = -1
    · rw [if_pos free]
      cases ops.init with
      | none => exact Or.inr ⟨i, le_rfl, by omega, rfl, free, by simp, by simp, fun j other => if_neg other⟩
      | some init =>
        dsimp only
        by_cases failed : (init (d i).state).1 < 0
        · exact Or.inl (if_pos failed)
        · rw [if_neg failed]
          exact Or.inr ⟨i, le_rfl, by omega, rfl, free, by simp, by simp, fun j other => if_neg other⟩
    · rw [if_neg free]
      refine (ih (i + 1)).imp id ?_
      rintro ⟨k, least, most, ret, taken⟩
      exact ⟨k, by omega, by omega, ret, taken⟩

/-! ### Drivers that keep data -/

/-- The driver returns the data last written: `content` is what a device holds. -/
structure Lawful (ops : BlockdevOps σ) (content : σ → Bytes) : Prop where
  read : ∃ read, ops.read = some read ∧ ∀ s offset buf, (read s offset buf).1.1 ≠ ERROR ∧
    (read s offset buf).1.2 = (content s).load offset buf.length ∧ content (read s offset buf).2 = content s
  write : ∀ write, ops.write = some write → ∀ s offset buf, (write s offset buf).1 ≠ ERROR ∧
    content (write s offset buf).2 = (content s).store offset buf

structure Registered (content : Nat → σ → Bytes) (d : Devices σ) (i : Nat) : Prop where
  small : i < MAXDEV
  dev : (d i).dev = i
  ops : ∃ ops, (d i).ops = some ops ∧ Lawful ops (content i)

def writes (d : Devices σ) (i : Nat) : Bool :=
  match (d i).ops with
  | none => false
  | some ops => ops.write.isSome

def Holds (content : Nat → σ → Bytes) (disk : Nat → Bytes) (d : Devices σ) : Prop :=
  ∀ i, content i (d i).state = disk i

inductive Kind where
  | read
  | write

structure Request where
  kind : Kind
  device : Nat
  offset : Nat
  buf : List UInt8

namespace Request

/-- The value returned, the buffer after the call, and the devices. -/
def act (d : Devices σ) (r : Request) : Option ((Nat × List UInt8) × Devices σ) :=
  match r.kind with
  | .read => d.blockRead r.device r.offset r.buf
  | .write => (d.blockWrite r.device r.offset r.buf).map fun (ret, d) => ((ret, r.buf), d)

/-- What the disks hold when only `block_write` changes them. -/
def stored (d : Devices σ) (disk : Nat → Bytes) (r : Request) : Nat → Bytes :=
  match r.kind with
  | .read => disk
  | .write =>
    if d.writes r.device then Function.update disk r.device ((disk r.device).store r.offset r.buf) else disk

def Right (disk : Nat → Bytes) (r : Request) (reply : Nat × List UInt8) : Prop :=
  match r.kind with
  | .read => reply.1 ≠ ERROR ∧ reply.2 = (disk r.device).load r.offset r.buf.length
  | .write => True

/-- The buffer of a `block_read` holds the data before the call, and the driver implements `write`. -/
def Idle (d : Devices σ) (disk : Nat → Bytes) (r : Request) : Prop :=
  match r.kind with
  | .read => d.writes r.device = true ∧ r.buf = (disk r.device).load r.offset r.buf.length
  | .write => True

end Request

/-- In every step of a run `block_read` returns what `block_write` stored, and nothing else changes. -/
def Transparent (content : Nat → σ → Bytes) : (Nat → Bytes) → Devices σ → List Request → Prop
  | _, _, [] => True
  | disk, d, r :: rs => ∃ reply t, r.act d = some (reply, t) ∧ r.Right disk reply ∧
      Holds content (r.stored d disk) t ∧ Transparent content (r.stored d disk) t rs

def AllIdle (d : Devices σ) : (Nat → Bytes) → List Request → Prop
  | _, [] => True
  | disk, r :: rs => r.Idle d disk ∧ AllIdle d (r.stored d disk) rs

variable {content : Nat → σ → Bytes} {d t : Devices σ} {disk : Nat → Bytes} {r : Request} {rs : List Request}
  {i offset : Nat} {buf : List UInt8} {reply : Nat × List UInt8}

theorem setState_dev {s : σ} {j : Nat} : (d.setState i s j).dev = (d j).dev := by
  unfold setState
  split
  · rename_i same
    rw [same]
  · rfl

theorem setState_ops {s : σ} {j : Nat} : (d.setState i s j).ops = (d j).ops := by
  unfold setState
  split
  · rename_i same
    rw [same]
  · rfl

theorem setState_state {s : σ} {j : Nat} : (d.setState i s j).state = if j = i then s else (d j).state := by
  unfold setState
  split
  · rfl
  · rfl

/-- `block_read` does what `block_write` does. -/
theorem blockRead_writes (dev : Int) :
    d.blockRead dev offset buf = (d.blockWrite dev offset buf).map fun (ret, d) => ((ret, buf), d) := by
  unfold blockRead blockWrite
  split
  · rfl
  split
  · rfl
  split
  · rfl
  · rfl

theorem act_writes : r.act d = (d.blockWrite r.device r.offset r.buf).map fun (ret, d) => ((ret, r.buf), d) := by
  unfold Request.act
  cases r.kind with
  | read => exact blockRead_writes _
  | write => rfl

structure Acted (content : Nat → σ → Bytes) (d : Devices σ) (r : Request) (reply : Nat × List UInt8)
    (t : Devices σ) : Prop where
  buf : reply.2 = r.buf
  done : d.writes r.device = true → reply.1 ≠ ERROR
  refused : d.writes r.device = false → reply.1 = ERROR
  dev : ∀ i, (t i).dev = (d i).dev
  ops : ∀ i, (t i).ops = (d i).ops
  holds : ∀ disk, Holds content disk d → Holds content (if d.writes r.device then
    Function.update disk r.device ((disk r.device).store r.offset r.buf) else disk) t

theorem act_spec (registered : Registered content d r.device) :
    ∃ reply t, r.act d = some (reply, t) ∧ Acted content d r reply t := by
  obtain ⟨ops, found, lawful⟩ := registered.ops
  have inside : ¬ ((r.device : Int) < 0 ∨ (r.device : Int) ≥ MAXDEV) := by
    have small := registered.small
    omega
  rw [act_writes, blockWrite, if_neg inside, Int.toNat_natCast, found]
  dsimp only
  have can : d.writes r.device = ops.write.isSome := by
    unfold writes
    rw [found]
  cases write : ops.write with
  | none =>
    rw [write] at can
    refine ⟨_, _, rfl, rfl, fun writes => ?_, fun _ => rfl, fun _ => rfl, fun _ => rfl, fun disk holds => ?_⟩
    · rw [can] at writes
      cases writes
    · rwa [can]
  | some w =>
    rw [write] at can
    obtain ⟨ret, data⟩ := lawful.write w write (d r.device).state r.offset r.buf
    refine ⟨_, _, rfl, rfl, fun _ => ret, fun writes => ?_, fun i => ?_, fun i => ?_, fun disk holds i => ?_⟩
    · rw [can] at writes
      cases writes
    · exact setState_dev
    · exact setState_ops
    · rw [can, if_pos (by rfl)]
      apply Eq.trans (congrArg (content i) setState_state)
      by_cases same : i = r.device
      · subst same
        rw [if_pos rfl, Function.update_self, ← holds]
        exact data
      · rw [if_neg same, Function.update_of_ne same]
        exact holds i

namespace Acted

variable (acted : Acted content d r reply t)
include acted

theorem registered (before : Registered content d i) : Registered content t i := by
  constructor
  · exact before.small
  · rw [acted.dev, before.dev]
  · rw [acted.ops]
    exact before.ops

theorem writes_eq : t.writes = d.writes := by
  funext i
  unfold writes
  rw [acted.ops]

theorem stored_eq (r' : Request) : r'.stored t disk = r'.stored d disk := by
  unfold Request.stored
  rw [acted.writes_eq]

theorem allIdle (disk : Nat → Bytes) : AllIdle t disk rs ↔ AllIdle d disk rs := by
  induction rs generalizing disk with
  | nil => rfl
  | cons r' rs ih =>
    unfold AllIdle Request.Idle
    rw [acted.writes_eq, acted.stored_eq, ih]

/-- One call is right when it is idle. -/
theorem right_iff (holds : Holds content disk d) :
    r.Right disk reply ∧ Holds content (r.stored d disk) t ↔ r.Idle d disk := by
  have after := acted.holds disk holds
  have buf := acted.buf
  unfold Request.Right Request.stored Request.Idle
  cases r.kind with
  | write => exact iff_of_true ⟨trivial, after⟩ trivial
  | read =>
    dsimp only
    rw [buf]
    constructor
    · rintro ⟨⟨ok, data⟩, -⟩
      refine ⟨?_, data⟩
      cases can : d.writes r.device with
      | false => exact absurd (acted.refused can) ok
      | true => rfl
    · rintro ⟨can, data⟩
      refine ⟨⟨acted.done can, data⟩, ?_⟩
      rw [if_pos can, data, Bytes.store_load, Function.update_eq_self] at after
      exact after

end Acted

theorem registerBlock_registered {ops : BlockdevOps σ} (lawful : Lawful ops (content i))
    (found : (registerBlock (some ops) d).1 = i) : Registered content (registerBlock (some ops) d).2 i := by
  rcases registerFrom_spec ops d MAXDEV 0 with none | ⟨k, -, small, ret, taken⟩
  · have none : (i : Int) = -1 := found.symm.trans none
    omega
  · obtain rfl : k = i := by
      have same : (k : Int) = i := ret.symm.trans found
      omega
    exact ⟨by omega, taken.dev, ops, taken.ops, lawful⟩

/-- A run shows what was stored exactly when every `block_read` is idle. -/
theorem transparent_iff (registered : ∀ r ∈ rs, Registered content d r.device) (holds : Holds content disk d) :
    Transparent content disk d rs ↔ AllIdle d disk rs := by
  induction rs generalizing disk d with
  | nil => rfl
  | cons r rs ih =>
    obtain ⟨reply, t, act, acted⟩ := act_spec (registered r List.mem_cons_self)
    have later : ∀ r' ∈ rs, Registered content t r'.device := fun r' member =>
      acted.registered (registered r' (List.mem_cons_of_mem _ member))
    have step := acted.right_iff holds
    unfold Transparent AllIdle
    rw [act, ← step]
    constructor
    · rintro ⟨_, _, same, right, stored, rest⟩
      cases same
      exact ⟨⟨right, stored⟩, (acted.allIdle _).mp ((ih later stored).mp rest)⟩
    · rintro ⟨⟨right, stored⟩, rest⟩
      exact ⟨reply, t, rfl, right, stored, (ih later stored).mpr ((acted.allIdle _).mpr rest)⟩

/-! ### A disk in memory -/

def ram : BlockdevOps Bytes where
  init := none
  read := some fun m a buf => ((buf.length % ERROR, m.load a buf.length), m)
  write := some fun m a buf => (buf.length % ERROR, m.store a buf)

def ramDevices : Devices Bytes := (registerBlock (some ram) (initBlock fun _ => ⟨0, none, fun _ => 0⟩)).2

def ramContent (_ : Nat) (m : Bytes) : Bytes := m

theorem ram_lawful : Lawful ram (ramContent i) := by
  have returns : ∀ n : Nat, n % ERROR ≠ ERROR := fun n => (Nat.mod_lt n (by decide)).ne
  constructor
  case read => exact ⟨_, rfl, fun s offset buf => ⟨returns _, rfl, rfl⟩⟩
  case write =>
    intro write eq s offset buf
    obtain rfl := Option.some.inj eq
    exact ⟨returns _, rfl⟩

theorem ram_registered : Registered ramContent ramDevices 0 := registerBlock_registered ram_lawful rfl

theorem ram_blank : Holds ramContent (fun _ _ => 0) ramDevices := by
  intro i
  by_cases first : i = 0
  · subst first
    rfl
  · have other : ramDevices i = initBlock (fun _ => ⟨0, none, fun _ => 0⟩) i := if_neg first
    rw [other, initBlock]
    split
    · rfl
    · rfl

/-- A byte is written and read back into a buffer that holds it. -/
theorem transparent_iff_ram :
    Transparent ramContent (fun _ _ => 0) ramDevices [⟨.write, 0, 512, [7]⟩, ⟨.read, 0, 512, [7]⟩] ↔
      AllIdle ramDevices (fun _ _ => 0) [⟨.write, 0, 512, [7]⟩, ⟨.read, 0, 512, [7]⟩] :=
  transparent_iff (by simpa using ram_registered) ram_blank

/-- A byte is written, and the next `block_read` overwrites it. -/
theorem read_overwrites :
    ¬ ∀ rs, (∀ r ∈ rs, Registered ramContent ramDevices r.device) →
      Transparent ramContent (fun _ _ => 0) ramDevices rs := by
  intro claim
  obtain ⟨_, _, write, -, -, _, _, read, right, -⟩ :=
    claim [⟨.write, 0, 512, [7]⟩, ⟨.read, 0, 512, [9]⟩] (by simpa using ram_registered)
  cases write
  cases read
  exact absurd right.2 (by decide)

end Devices
end Landaux
