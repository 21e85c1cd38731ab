import Landaux.Fs.Dentry
import Landaux.Lib.Bytes

/-!
# Directory records

`vfs_add_dentry` of `vfs.c` and `ramfs_getdents`, with the buffer that they fill, and the loops of `tree`
in `kernel/main.c` and in `prog.c`, over the records in a buffer and over the calls of `getdents`.
-/

namespace Landaux

open Lib

structure DirRecord where
  name : Name
  mode : BitVec 32
  size : BitVec 32

/-- `vfs_add_dentry`: nothing if it returns 0, else the memory, `*buffer` and `*bufsize`. -/
def vfsAddDentry (e : DirRecord) (m : Bytes) (buffer bufsize : Nat) : Option (Bytes × Nat × Nat) :=
  let totallen := recLen e.name
  if bufsize < totallen then none
  else
    let m := m.store32 buffer totallen
    let m := m.store32 (buffer + 4) e.mode.toNat
    let m := m.store32 (buffer + 8) e.size.toNat
    let m := m.store (buffer + 12) (e.name ++ [0])
    some (m, buffer + totallen, bufsize - totallen)

/-- The loop over `dp` in `tree`, with `n` records to visit. -/
def walkRecords (m : Bytes) (buf : Nat) : Nat → Nat → List Nat
  | 0, _ => []
  | n + 1, dp => dp :: walkRecords m buf n (buf + m.load32 dp)

def IsString (m : Bytes) (a : Nat) (name : Name) : Prop :=
  0 ∉ name ∧ m.load a name.length = name ∧ m (a + name.length) = 0

instance (m : Bytes) (a : Nat) (name : Name) : Decidable (IsString m a name) :=
  inferInstanceAs (Decidable (_ ∧ _ ∧ _))

structure Tells (m : Bytes) (p : Nat) (e : DirRecord) : Prop where
  reclen : m.load32 p = recLen e.name
  mode : m.load32 (p + 4) = e.mode.toNat
  size : m.load32 (p + 8) = e.size.toNat
  name : IsString m (p + 12) e.name

variable {m m' : Bytes} {p p' buf size size' : Nat} {e : DirRecord} {es : List DirRecord}

theorem recLen_room : 12 + e.name.length + 1 ≤ recLen e.name := by
  unfold recLen
  omega

theorem Tells.congr (tells : Tells m p e) (same : ∀ y, p ≤ y → y < p + recLen e.name → m' y = m y) :
    Tells m' p e := by
  have room := recLen_room (e := e)
  obtain ⟨plain, bytes, zero⟩ := tells.name
  constructor
  case reclen =>
    rw [Bytes.load32_congr fun y _ _ => same y (by omega) (by omega)]
    exact tells.reclen
  case mode =>
    rw [Bytes.load32_congr fun y _ _ => same y (by omega) (by omega)]
    exact tells.mode
  case size =>
    rw [Bytes.load32_congr fun y _ _ => same y (by omega) (by omega)]
    exact tells.size
  case name =>
    refine ⟨plain, ?_, ?_⟩
    · rw [Bytes.load_congr fun y _ _ => same y (by omega) (by omega)]
      exact bytes
    · rw [same _ (by omega) (by omega)]
      exact zero

/-- A record that fits is written, and nothing after it or before it. -/
theorem vfsAddDentry_spec (plain : 0 ∉ e.name) (small : size < 2 ^ 32)
    (added : vfsAddDentry e m p size = some (m', p', size')) :
    p' = p + recLen e.name ∧ size = recLen e.name + size' ∧ Tells m' p e ∧
      ∀ y, y < p ∨ p + recLen e.name ≤ y → m' y = m y := by
  have room := recLen_room (e := e)
  unfold vfsAddDentry at added
  dsimp only at added
  by_cases full : size < recLen e.name
  · rw [if_pos full] at added
    cases added
  rw [if_neg full] at added
  cases added
  have long : (e.name ++ [0]).length = e.name.length + 1 := by simp
  refine ⟨rfl, by omega, ?_, fun y outside => ?_⟩
  · constructor
    case reclen =>
      rw [Bytes.load32_congr fun y _ _ => Bytes.store_outside (by omega), Bytes.load32_store32_outside (by omega),
        Bytes.load32_store32_outside (by omega), Bytes.load32_store32_of_lt (by omega)]
    case mode =>
      rw [Bytes.load32_congr fun y _ _ => Bytes.store_outside (by omega), Bytes.load32_store32_outside (by omega),
        Bytes.load32_store32_of_lt e.mode.isLt]
    case size =>
      rw [Bytes.load32_congr fun y _ _ => Bytes.store_outside (by omega), Bytes.load32_store32_of_lt e.size.isLt]
    case name =>
      refine ⟨plain, ?_, ?_⟩
      · apply List.ext_getElem Bytes.length_load
        intro i _ inside
        simp only [Bytes.load, List.getElem_map, List.getElem_range]
        rw [Bytes.store_inside (by omega), List.getElem_append_left inside]
      · rw [Bytes.store_inside (by omega), List.getElem_append_right le_rfl]
        simp
  · rw [Bytes.store_outside (by omega), Bytes.store32_outside (by omega), Bytes.store32_outside (by omega),
      Bytes.store32_outside (by omega)]

theorem vfsAddDentry_none : vfsAddDentry e m p size = none ↔ size < recLen e.name := by
  unfold vfsAddDentry
  dsimp only
  split
  · exact iff_of_true rfl ‹_›
  · exact iff_of_false (by simp) ‹_›

/-! ### Records side by side -/

def addAll : List DirRecord → Bytes → Nat → Nat → Option (Bytes × Nat × Nat)
  | [], m, p, size => some (m, p, size)
  | e :: es, m, p, size => (vfsAddDentry e m p size).bind fun (m, p, size) => addAll es m p size

def places : Nat → List DirRecord → List Nat
  | _, [] => []
  | p, e :: es => p :: places (p + recLen e.name) es

theorem addAll_spec (plain : ∀ e ∈ es, 0 ∉ e.name) (small : size < 2 ^ 32)
    (added : addAll es m p size = some (m', p', size')) :
    List.Forall₂ (Tells m') (places p es) es ∧ ∀ y, y < p → m' y = m y := by
  induction es generalizing m p size with
  | nil =>
    cases added
    exact ⟨.nil, fun _ _ => rfl⟩
  | cons e es ih =>
    obtain ⟨⟨m₁, p₁, size₁⟩, first, rest⟩ := Option.bind_eq_some_iff.mp added
    obtain ⟨rfl, split, tells, outside⟩ := vfsAddDentry_spec (plain e List.mem_cons_self) small first
    obtain ⟨all, before⟩ := ih (fun e member => plain e (List.mem_cons_of_mem _ member)) (by omega) rest
    have room := recLen_room (e := e)
    refine ⟨.cons (tells.congr fun y _ below => before y below) all, fun y below => ?_⟩
    rw [before y (by omega), outside y (Or.inl below)]

/-- The walk finds the first two records, and no other. -/
theorem walkRecords_places_iff (all : List.Forall₂ (Tells m) (places buf es) es) :
    walkRecords m buf es.length buf = places buf es ↔ es.length ≤ 2 := by
  cases es with
  | nil => exact iff_of_true rfl (by decide)
  | cons e₁ es =>
    cases es with
    | nil => exact iff_of_true rfl (by simp)
    | cons e₂ es =>
      obtain ⟨first, rest⟩ := List.forall₂_cons.mp all
      obtain ⟨second, -⟩ := List.forall₂_cons.mp rest
      cases es with
      | nil => exact iff_of_true (by simp [walkRecords, places, first.reclen]) (by simp)
      | cons e₃ es =>
        refine iff_of_false (fun same => ?_) (by simp)
        have third := congrArg (fun l : List Nat => l[2]?) same
        simp only [List.length_cons, walkRecords, places, List.getElem?_cons_succ, List.getElem?_cons_zero] at third
        rw [first.reclen, second.reclen] at third
        have room := recLen_room (e := e₁)
        have third := Option.some.inj third
        omega

/-- `tree` visits the entries written, and shows each of them, exactly when there are at most two. -/
theorem tree_visits_iff (plain : ∀ e ∈ es, 0 ∉ e.name) (small : size < 2 ^ 32)
    (added : addAll es m buf size = some (m', p', size')) :
    (walkRecords m' buf es.length buf = places buf es ∧ List.Forall₂ (Tells m') (walkRecords m' buf es.length buf) es) ↔
      es.length ≤ 2 := by
  obtain ⟨all, -⟩ := addAll_spec plain small added
  rw [← walkRecords_places_iff all]
  constructor
  · exact And.left
  · intro same
    exact ⟨same, same ▸ all⟩

def abc : List DirRecord := [⟨[97], 1, 0⟩, ⟨[98], 1, 0⟩, ⟨[99], 1, 0⟩]

theorem tree_visits_two : ∃ m p size, addAll (abc.take 2) (fun _ => 0) 64 50 = some (m, p, size) ∧
    ((walkRecords m 64 (abc.take 2).length 64 = places 64 (abc.take 2) ∧
      List.Forall₂ (Tells m) (walkRecords m 64 (abc.take 2).length 64) (abc.take 2)) ↔ (abc.take 2).length ≤ 2) :=
  ⟨_, _, _, rfl, tree_visits_iff (by decide) (by decide)
    (show addAll (abc.take 2) (fun _ => 0) 64 50 = some (_, _, _) from rfl)⟩

/-- After the record of `b` the walk comes back to it. -/
theorem tree_misses_third :
    ¬ ∀ es m buf size r, (∀ e ∈ es, 0 ∉ e.name) → size < 2 ^ 32 → addAll es m buf size = some r →
      List.Forall₂ (Tells r.1) (walkRecords r.1 buf es.length buf) es := by
  intro claim
  have visits := claim abc (fun _ => 0) 64 50 _ (by decide) (by decide) rfl
  have later := (List.forall₂_cons.mp visits).2
  have third := (List.forall₂_cons.mp (List.forall₂_cons.mp later).2).1
  exact absurd third.name (by decide)

/-! ### ramfs.c and devfs.c -/

namespace Vfs

def listed (s : Vfs) (c : Nat) : DirRecord :=
  ⟨(s.node c).string, .ofNat 32 (s.node c).kind.mode, .ofNat 32 (s.node c).data.size⟩

/-- The loop of `ramfs_getdents` and of `devfs_getdents`, with `count` records written. -/
def fillBuffer (s : Vfs) : List Nat → Bytes → Nat → Nat → Int → Nat → Except FsStop (Int × Bytes)
  | [], m, _, _, _, count => .ok (count, m)
  | c :: cs, m, buf, size, start, count =>
    if start ≠ 0 then s.fillBuffer cs m buf size (start - 1) count
    else if c ∉ s.live then .error .freed
    else
      match vfsAddDentry (s.listed c) m buf size with
      | some (m, buf, size) => s.fillBuffer cs m buf size (start - 1) (count + 1)
      | none => .ok (if count = 0 then -ENOMEM else count, m)

/-- `ramfs_getdents`, and `devfs_getdents`, into the `size` bytes at `buf`. -/
def getdentsInto (s : Vfs) (d : Nat) (m : Bytes) (buf size : Nat) (start : Int) : Except FsStop (Int × Bytes) :=
  if d ∉ s.live then .error .freed
  else if (s.node d).kind ≠ .dir then .ok (-ENOTDIR, m)
  else s.fillBuffer (s.node d).children m buf size start 0

/-- The loop of `tree` from entry `start` on: the records visited, each with the memory at that time, the
last value of `getdents`, and the memory. -/
def treeVisits (s : Vfs) (d buf size : Nat) : Nat → Int → Bytes → Except FsStop (List (Bytes × Nat) × Int × Bytes)
  | 0, _, _ => .error .fuel
  | fuel + 1, start, m => do
    let (count, m) ← s.getdentsInto d m buf size start
    if count ≤ 0 then return ([], count, m)
    else
      let (later, last, m') ← s.treeVisits d buf size fuel (start + count) m
      return ((walkRecords m buf count.toNat buf).map (fun dp => (m, dp)) ++ later, last, m')

variable {s : Vfs} {d c k fuel : Nat} {cs : List Nat} {start ret : Int}

theorem fillBuffer_skips (start : Int) (nonzero : start < 0) (count : Nat) :
    s.fillBuffer cs m buf size start count = .ok (count, m) := by
  induction cs generalizing start with
  | nil => rfl
  | cons c cs ih =>
    rw [fillBuffer, if_pos (by omega)]
    exact ih (start - 1) (by omega)

/-- A call writes the record of the child that comes first, and none after it: the counter goes on
below 0, and then no other child is reached. -/
theorem fillBuffer_eq (live : ∀ c ∈ cs, c ∈ s.live) (start : Int) :
    s.fillBuffer cs m buf size start 0 = .ok (match if start < 0 then none else cs[start.toNat]? with
      | none => (0, m)
      | some c =>
        match vfsAddDentry (s.listed c) m buf size with
        | none => (-ENOMEM, m)
        | some (m, _, _) => (1, m)) := by
  induction cs generalizing start with
  | nil =>
    rw [fillBuffer, List.getElem?_nil, ite_self]
    rfl
  | cons c cs ih =>
    rw [fillBuffer]
    by_cases here : start = 0
    · subst here
      rw [if_neg (not_not.mpr rfl), if_neg (not_not.mpr (live c List.mem_cons_self))]
      rw [if_neg (by decide : ¬ (0 : Int) < 0)]
      simp only [Int.toNat_zero, List.getElem?_cons_zero]
      cases vfsAddDentry (s.listed c) m buf size with
      | none => rfl
      | some r => exact fillBuffer_skips (0 - 1) (by decide) 1
    · rw [if_pos here, ih (fun x member => live x (List.mem_cons_of_mem _ member))]
      by_cases negative : start < 0
      · rw [if_pos negative, if_pos (by omega)]
      · obtain ⟨k, rfl⟩ : ∃ k : Nat, start = k + 1 := ⟨(start - 1).toNat, by omega⟩
        rw [if_neg (by omega), if_neg negative, show ((k : Int) + 1).toNat = k + 1 from rfl, List.getElem?_cons_succ,
          add_sub_cancel_right, Int.toNat_natCast]

/-- The value is the one that `ramfs_getdents` returns when only the records are looked at. -/
theorem fillBuffer_fillDents (cs : List Nat) (start : Int) {done : List Entry} {count : Nat}
    (long : done.length = count) :
    (s.fillBuffer cs m buf size start count).map Prod.fst = (s.fillDents cs size start done).map Prod.fst := by
  induction cs generalizing m buf size start done count with
  | nil =>
    subst long
    rfl
  | cons c cs ih =>
    rw [fillBuffer, fillDents]
    by_cases skip : start ≠ 0
    · rw [if_pos skip, if_pos skip]
      exact ih _ long
    rw [if_neg skip, if_neg skip]
    by_cases freed : c ∉ s.live
    · rw [if_pos freed, if_pos freed]
      rfl
    rw [if_neg freed, if_neg freed]
    unfold vfsAddDentry
    dsimp only [listed]
    by_cases full : size < recLen (s.node c).string
    · rw [if_pos full, if_pos full]
      subst long
      cases done with
      | nil => rfl
      | cons e done => simp [Except.map]
    · rw [if_neg full, if_neg full]
      apply ih
      simp [long]

theorem getdentsInto_ret : (s.getdentsInto d m buf size start).map Prod.fst =
    (s.ramfsGetdents d size start).map Prod.fst := by
  unfold getdentsInto ramfsGetdents
  split
  · rfl
  split
  · rfl
  · exact fillBuffer_fillDents (s.node d).children start rfl

/-- A directory, with children whose names are C strings. -/
structure Directory (s : Vfs) (d : Nat) : Prop where
  live : d ∈ s.live
  dir : (s.node d).kind = .dir
  children : ∀ c ∈ (s.node d).children, c ∈ s.live
  plain : ∀ c ∈ (s.node d).children, 0 ∉ (s.node c).string

/-- What one call of `getdents` does: nothing is left, the next child does not fit, or its record is
written. -/
inductive Gives (s : Vfs) (d : Nat) (m : Bytes) (buf size : Nat) (start : Int) : Int × Bytes → Prop where
  | nothing (none : start < 0 ∨ (s.node d).children[start.toNat]? = none) : Gives s d m buf size start (0, m)
  | full {c : Nat} (next : 0 ≤ start ∧ (s.node d).children[start.toNat]? = some c)
      (full : size < recLen (s.node c).string) : Gives s d m buf size start (-ENOMEM, m)
  | one {c : Nat} {m' : Bytes} (next : 0 ≤ start ∧ (s.node d).children[start.toNat]? = some c)
      (fits : recLen (s.node c).string ≤ size) (tells : Tells m' buf (s.listed c))
      (outside : ∀ y, y < buf ∨ buf + size ≤ y → m' y = m y) : Gives s d m buf size start (1, m')

theorem getdentsInto_spec (directory : s.Directory d) (small : size < 2 ^ 32) (m : Bytes) (buf : Nat)
    (start : Int) :
    ∃ r, s.getdentsInto d m buf size start = .ok r ∧ Gives s d m buf size start r := by
  unfold getdentsInto
  rw [if_neg (not_not.mpr directory.live), if_neg (not_not.mpr directory.dir), fillBuffer_eq directory.children]
  refine ⟨_, rfl, ?_⟩
  by_cases negative : start < 0
  · rw [if_pos negative]
    exact .nothing (Or.inl negative)
  rw [if_neg negative]
  cases next : (s.node d).children[start.toNat]? with
  | none => exact .nothing (Or.inr next)
  | some c =>
    dsimp only
    cases added : vfsAddDentry (s.listed c) m buf size with
    | none => exact .full ⟨by omega, next⟩ (vfsAddDentry_none.mp added)
    | some r =>
      obtain ⟨m', p', size'⟩ := r
      have member := List.mem_of_getElem? next
      obtain ⟨-, split, tells, outside⟩ := vfsAddDentry_spec (directory.plain c member) small added
      have room : recLen (s.listed c).name ≤ size := by omega
      exact .one ⟨by omega, next⟩ room tells fun y out => outside y (by omega)

theorem treeVisits_spec (directory : s.Directory d) (small : size < 2 ^ 32)
    (room : ∀ c ∈ (s.node d).children, recLen (s.node c).string ≤ size) (fuel k : Nat)
    (started : k ≤ (s.node d).children.length) (enough : (s.node d).children.length < fuel + k) (m : Bytes) :
    ∃ visits m', s.treeVisits d buf size fuel k m = .ok (visits, 0, m') ∧
      List.Forall₂ (fun v c => Tells v.1 v.2 (s.listed c)) visits ((s.node d).children.drop k) := by
  induction fuel generalizing k m with
  | zero => omega
  | succ fuel ih =>
    obtain ⟨r, result, gives⟩ := getdentsInto_spec directory small m buf k
    rw [treeVisits, result]
    cases gives with
    | nothing none =>
      rw [Int.toNat_natCast, List.getElem?_eq_none_iff] at none
      rw [List.drop_eq_nil_of_le (by omega)]
      exact ⟨[], m, rfl, .nil⟩
    | @full c next full =>
      have fits := room c (List.mem_of_getElem? next.2)
      omega
    | @one c m' next fits tells outside =>
      have next := next.2
      rw [Int.toNat_natCast] at next
      obtain ⟨inside, same⟩ := List.getElem?_eq_some_iff.mp next
      obtain ⟨visits, m'', later, all⟩ := ih (k + 1) inside (by omega) m'
      refine ⟨(m', buf) :: visits, m'', ?_, ?_⟩
      · rw [Nat.cast_add, Nat.cast_one] at later
        rw [Lib.ok_bind]
        dsimp only
        rw [if_neg (by decide), later]
        rfl
      · rw [List.drop_eq_getElem_cons inside, same]
        exact .cons tells all

/-- Reading a directory to its end. -/
theorem getdents_complete (directory : s.Directory d) (small : size < 2 ^ 32) (m : Bytes) (buf : Nat) :
    (∀ start ret m', s.getdentsInto d m buf size start = .ok (ret, m') →
      ∀ y, y < buf ∨ buf + size ≤ y → m' y = m y) ∧
    (∀ (k : Nat) c, (s.node d).children[k]? = some c → size < recLen (s.node c).string →
      s.getdentsInto d m buf size k = .ok (-ENOMEM, m)) ∧
    ((∀ c ∈ (s.node d).children, recLen (s.node c).string ≤ size) → ∀ fuel, (s.node d).children.length < fuel →
      ∃ visits m', s.treeVisits d buf size fuel 0 m = .ok (visits, 0, m') ∧
        List.Forall₂ (fun v c => Tells v.1 v.2 (s.listed c)) visits (s.node d).children) := by
  refine ⟨fun start ret m' returns => ?_, fun k c next long => ?_, fun room fuel enough => ?_⟩
  · obtain ⟨_, result, gives⟩ := getdentsInto_spec directory small m buf start
    obtain rfl := Except.ok.inj (result.symm.trans returns)
    cases gives with
    | nothing | full => exact fun _ _ => rfl
    | one next fits tells outside => exact outside
  · obtain ⟨_, result, gives⟩ := getdentsInto_spec directory small m buf k
    rw [result]
    cases gives with
    | nothing none =>
      rw [Int.toNat_natCast, next] at none
      simp at none
      omega
    | full => rfl
    | @one c' m' next' fits tells outside =>
      have same := next'.2
      rw [Int.toNat_natCast, next] at same
      obtain rfl := Option.some.inj same
      omega
  · exact treeVisits_spec directory small room fuel 0 (Nat.zero_le _) enough m

/-- A directory with an empty file and a directory in it. -/
def pair : Vfs where
  root := 1
  live := {1, 2, 3}
  node := fun x => if x = 1 then ⟨[47], 0, 1, .dir, [2, 3], .new⟩ else if x = 2 then ⟨[102], 1, 1, .file, [], .new⟩
    else ⟨[100, 100], 1, 1, .dir, [], .new⟩
  opened := ∅
  file := fun _ => ⟨0, 0, 0, 0⟩

theorem pair_directory : pair.Directory 1 := by
  constructor
  case live => decide
  case dir => rfl
  case children => decide
  case plain => decide

theorem getdents_complete_pair : ∃ visits m', pair.treeVisits 1 64 16 3 0 (fun _ => 0) = .ok (visits, 0, m') ∧
    List.Forall₂ (fun v c => Tells v.1 v.2 (pair.listed c)) visits [2, 3] :=
  (getdents_complete pair_directory (by decide) _ 64).2.2 (by decide) 3 (by decide)

/-! ### As many records as fit -/

def rest (s : Vfs) (d start : Nat) : List DirRecord := ((s.node d).children.drop start).map s.listed

def total (es : List DirRecord) : Nat := (es.map fun e => recLen e.name).sum

/-- The first `k` records from `start` on are in the buffer, and no more of them fit. -/
structure Fills (s : Vfs) (d buf size start k : Nat) (m : Bytes) : Prop where
  there : k ≤ (s.rest d start).length
  fits : total ((s.rest d start).take k) ≤ size
  most : ∀ j ≤ (s.rest d start).length, total ((s.rest d start).take j) ≤ size → j ≤ k
  encoded : List.Forall₂ (Tells m) (places buf ((s.rest d start).take k)) ((s.rest d start).take k)
  ends : k = 0 → (s.node d).children.length ≤ start

/-- No two records that come next fit together. -/
def OneFits (s : Vfs) (d size start : Nat) : Prop :=
  ∀ e₁ e₂ es, s.rest d start = e₁ :: e₂ :: es → size < recLen e₁.name + recLen e₂.name

theorem total_cons : total (e :: es) = recLen e.name + total es := by
  simp [total]

theorem rest_cons {first : Nat} (next : (s.node d).children[k]? = some first) :
    ∃ later, s.rest d k = s.listed first :: later := by
  obtain ⟨inside, rfl⟩ := List.getElem?_eq_some_iff.mp next
  unfold rest
  rw [List.drop_eq_getElem_cons inside]
  exact ⟨_, rfl⟩

theorem rest_nil (past : (s.node d).children.length ≤ k) : s.rest d k = [] := by
  unfold rest
  rw [List.drop_eq_nil_of_le past]
  rfl

/-- One record is written, which is all that fits unless the next one fits as well. -/
theorem fills_one {first : Nat} (next : (s.node d).children[k]? = some first)
    (room : recLen (s.node first).string ≤ size) (tells : Tells m buf (s.listed first)) :
    Fills s d buf size k 1 m ↔ s.OneFits d size k := by
  obtain ⟨later, records⟩ := rest_cons next
  unfold OneFits
  rw [records]
  constructor
  · intro fills e₁ e₂ es same
    obtain ⟨rfl, rfl⟩ := List.cons.inj same
    by_contra both
    have two := fills.most 2
    rw [records] at two
    have le := two (by simp) (by simp [total]; omega)
    omega
  · intro alone
    constructor
    case there =>
      rw [records]
      exact Nat.succ_le_succ (Nat.zero_le _)
    case fits =>
      rw [records, List.take_succ_cons, List.take_zero, total_cons]
      exact room
    case most =>
      rw [records]
      intro j inside fit
      by_contra more
      obtain ⟨i, rfl⟩ : ∃ i, j = i + 1 + 1 := ⟨j - 2, by omega⟩
      cases later with
      | nil => simp at inside
      | cons e₂ es =>
        have short := alone _ _ _ rfl
        rw [List.take_succ_cons, List.take_succ_cons, total_cons, total_cons] at fit
        omega
    case encoded =>
      rw [records]
      exact .cons tells .nil
    case ends => exact fun zero => absurd zero one_ne_zero

theorem gives_fills_iff {r : Int × Bytes} (gives : Gives s d m buf size k r) :
    (0 ≤ r.1 → Fills s d buf size k r.1.toNat r.2) ↔ s.OneFits d size k := by
  cases gives with
  | nothing none =>
    rw [Int.toNat_natCast, List.getElem?_eq_none_iff] at none
    have empty := s.rest_nil (d := d) (k := k) (by omega)
    refine iff_of_true (fun _ => ?_) fun e₁ e₂ es same => ?_
    · constructor
      case there => exact Nat.zero_le _
      case fits => exact Nat.zero_le _
      case most => exact fun j inside _ => by rwa [empty] at inside
      case encoded => exact .nil
      case ends => exact fun _ => by omega
    · rw [empty] at same
      cases same
  | @full first next full =>
    have next := next.2
    rw [Int.toNat_natCast] at next
    obtain ⟨later, records⟩ := rest_cons next
    refine iff_of_true (fun positive => absurd positive (by decide : ¬ 0 ≤ -ENOMEM)) fun e₁ e₂ es same => ?_
    rw [records] at same
    obtain ⟨rfl, -⟩ := List.cons.inj same
    exact Nat.lt_add_right _ full
  | @one first m' next fits tells outside =>
    have next := next.2
    rw [Int.toNat_natCast] at next
    rw [← fills_one next fits tells]
    exact ⟨fun fills => fills Int.one_nonneg, fun fills _ => fills⟩

/-- A call of `getdents` fills the buffer exactly when two records do not fit. -/
theorem getdents_fills_iff (directory : s.Directory d) (small : size < 2 ^ 32) (m : Bytes) (buf start : Nat) :
    (∀ ret m', s.getdentsInto d m buf size start = .ok (ret, m') → 0 ≤ ret →
      Fills s d buf size start ret.toNat m') ↔ s.OneFits d size start := by
  obtain ⟨r, result, gives⟩ := getdentsInto_spec directory small m buf start
  rw [← gives_fills_iff gives, result]
  constructor
  · exact fun all => all r.1 r.2 rfl
  · intro fills ret m' same
    obtain rfl := Except.ok.inj same
    exact fills

theorem getdents_fills_iff_pair : pair.Directory 1 ∧
    ((∀ ret m', pair.getdentsInto 1 (fun _ => 0) 64 16 (0 : Nat) = .ok (ret, m') → 0 ≤ ret →
      Fills pair 1 64 16 0 ret.toNat m') ↔ pair.OneFits 1 16 0) :=
  ⟨pair_directory, getdents_fills_iff pair_directory (by decide) _ 64 0⟩

/-- Both records of the pair fit, and one is written. -/
theorem getdents_leaves_room : ¬ ∀ (s : Vfs) (d buf size start : Nat) (m : Bytes), s.Directory d → size < 2 ^ 32 →
    start ≤ (s.node d).children.length → ∀ ret m', s.getdentsInto d m buf size start = .ok (ret, m') → 0 ≤ ret →
      Fills s d buf size start ret.toNat m' := by
  intro all
  obtain ⟨r, result, gives⟩ : ∃ r, pair.getdentsInto 1 (fun _ => 0) 64 64 (0 : Nat) = .ok r ∧
      Gives pair 1 (fun _ => 0) 64 64 (0 : Nat) r := getdentsInto_spec pair_directory (by decide) _ 64 _
  have alone := (gives_fills_iff gives).mp
    (all pair 1 64 64 0 (fun _ => 0) pair_directory (by decide) (by decide) r.1 r.2 result)
  exact absurd (alone _ _ _ rfl) (by decide)

end Vfs

end Landaux
