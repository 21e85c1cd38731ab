import Landaux.Fs.Archive
import Landaux.Fs.FileCalls

/-!
# The boot image

`extract_tar` with the calls of the ramfs. A well-formed archive becomes the tree of its entries, and its
files are read back.
-/

namespace Landaux
open Lib

/-- What the allocator answers in each state. -/
structure Kmalloc where
  answers : Vfs → Answers
  block : Vfs → Granted

structure Kmalloc.Ample (m : Kmalloc) : Prop where
  generous : ∀ s, Generous (m.answers s)
  fresh : ∀ s, Fresh (m.answers s) s
  block : ∀ s, m.block s ≠ none

def Vfs.tarFs (m : Kmalloc) : TarFs Vfs where
  create := fun name s => do
    let (ret, t) ← s.vfsOpen (m.answers s) name createFlags
    return (ret.toOption, t)
  write := fun q buf s => do
    let (_, t) ← s.vfsWrite (m.block s) q buf
    return t
  close := fun q s => do
    let (_, t) ← s.vfsClose q
    return t
  mkdir := fun name s => do
    let (_, t) ← s.vfsMkdir (m.answers s) name
    return t

/-- Entries at different places, each in a directory that comes before it. -/
structure Legal (es : List TarEntry) : Prop where
  place : ∀ e ∈ es, e.place ≠ []
  files : ∀ path bytes, .file path bytes ∈ es → ¬ Trailing path ∧ bytes.length < 2 ^ 31
  distinct : (es.map TarEntry.place).Nodup
  parents : ∀ before e after, es = before ++ e :: after →
    e.place.dropLast = [] ∨ ∃ path, .dir path ∈ before ∧ components path = e.place.dropLast

/-- The kinds of what is in the tree after the entries. -/
def kinds (es : List TarEntry) (path : List Name) : Option Kind :=
  if path = [] then some .dir else (es.find? fun e => e.place = path).map TarEntry.kind

variable {m : Kmalloc} {a bytes rest : List UInt8} {es done all : List TarEntry} {e : TarEntry} {s t : Vfs}
  {place : List Name} {kind : Kind} {data : FileData} {k p fuel : Nat} {path : Name}

structure Unpacked (done : List TarEntry) (s : Vfs) : Prop where
  named : Named s
  closed : s.opened = ∅
  few : ∀ x ∈ s.live, (s.node x).refcnt ≤ 1 + 128 * done.length
  found : ∀ path, (s.found path).map Prod.fst = kinds done path
  files : ∀ path bytes, .file path bytes ∈ done →
    ∃ data, s.found (components path) = some (.file, data) ∧ Contains data bytes

namespace Unpacked

theorem mounted {root : Nat} (nonnull : root ≠ 0) : Unpacked [] (Vfs.mounted root) where
  named := Named.mounted nonnull
  closed := rfl
  few := fun x _ => le_rfl
  found := fun path => by
    cases path with
    | nil => rfl
    | cons name path => rfl
  files := nofun

theorem new (legal : Legal all) (split : all = done ++ e :: es) : e.place ∉ done.map TarEntry.place := by
  have distinct := legal.distinct
  rw [split, List.map_append, List.map_cons, List.nodup_append] at distinct
  exact fun member => distinct.2.2 _ member _ List.mem_cons_self rfl

theorem kinds_new (nonempty : e.place ≠ []) (new : e.place ∉ done.map TarEntry.place) (path : List Name) :
    kinds (done ++ [e]) path = if path = e.place then some e.kind else kinds done path := by
  unfold kinds
  rw [List.find?_append]
  by_cases here : path = e.place
  · subst here
    have none : (done.find? fun d => decide (d.place = e.place)) = Option.none :=
      List.find?_eq_none.mpr fun d member same =>
        new (List.mem_map.mpr ⟨d, member, of_decide_eq_true same⟩)
    rw [if_neg nonempty, if_pos rfl, none, Option.none_or, List.find?_cons_of_pos (by simp)]
    rfl
  · rw [if_neg here, List.find?_cons_of_neg (by simpa using Ne.symm here), List.find?_nil, Option.or_none]

/-- One entry more. -/
theorem add (unpacked : Unpacked done s) (adds : Adds s t e.place e.kind data k) (small : k ≤ 127)
    (closed : t.opened = s.opened) (nonempty : e.place ≠ []) (new : e.place ∉ done.map TarEntry.place)
    (contents : ∀ path bytes, e = .file path bytes → Contains data bytes) : Unpacked (done ++ [e]) t where
  named := adds.named
  closed := closed.trans unpacked.closed
  few := fun x live => by
    have grown := adds.grown _ (by omega) unpacked.few x live
    rw [List.length_append, List.length_singleton]
    push_cast
    omega
  found := fun path => by
    rw [adds.found, kinds_new nonempty new]
    split
    · rfl
    · exact unpacked.found path
  files := fun path bytes member => by
    rw [adds.found]
    rcases List.mem_append.mp member with old | here
    · obtain ⟨data', found, contains⟩ := unpacked.files path bytes old
      have other : components path ≠ e.place := fun same =>
        new (same ▸ List.mem_map.mpr ⟨_, old, rfl⟩)
      rw [if_neg other]
      exact ⟨data', found, contains⟩
    · obtain rfl := List.mem_singleton.mp here
      exact ⟨data, if_pos rfl, contents path bytes rfl⟩

theorem roomy (unpacked : Unpacked done s) (few : done.length < 2 ^ 23) {n : Nat} (small : n ≤ 127) (stop : FsStop) :
    ¬ s.Crowded n stop := by
  rintro ⟨-, x, live, large⟩
  have bound := unpacked.few x live
  omega

/-- A directory that has been made. -/
theorem kinds_dir (distinct : (done.map TarEntry.place).Nodup) (before : .dir path ∈ done)
    (nonempty : components path ≠ []) : kinds done (components path) = some .dir := by
  unfold kinds
  rw [if_neg nonempty]
  cases found : done.find? fun e => e.place = components path with
  | none =>
    have other := List.find?_eq_none.mp found _ before
    exact absurd (decide_eq_true (p := components path = components path) rfl) other
  | some e =>
    have same : e = .dir path := by
      apply List.inj_on_of_nodup_map distinct (List.mem_of_find?_eq_some found) before
      exact of_decide_eq_true (List.find?_some found :)
    rw [same]
    rfl

/-- The place of the next entry. -/
theorem next (unpacked : Unpacked done s) (legal : Legal all) (split : all = done ++ e :: es)
    (addressed : Addressed (slash :: e.path)) : ∃ d, Place s (slash :: e.path) d := by
  have same : components (slash :: e.path) = e.place := components_slash
  have nonempty := legal.place e (split ▸ List.mem_append_right _ List.mem_cons_self)
  have new := new legal split
  apply place_of_found addressed
  · unfold dirname
    rw [same, unpacked.found]
    rcases legal.parents done e es split with top | ⟨path, before, parent⟩
    · rw [top]
      rfl
    · have distinct := legal.distinct
      rw [split, List.map_append] at distinct
      rw [← parent]
      apply kinds_dir (List.nodup_append.mp distinct).1 before
      exact legal.place _ (split ▸ List.mem_append_left _ before)
  · rw [same, ← Option.map_eq_none_iff (f := Prod.fst), unpacked.found]
    unfold kinds
    rw [if_neg nonempty, Option.map_eq_none_iff]
    exact List.find?_eq_none.mpr fun d member found =>
      new (List.mem_map.mpr ⟨d, member, of_decide_eq_true found⟩)

end Unpacked

/-! ### One entry -/

theorem addressed_entry (nonempty : e.place ≠ []) (short : e.path.length < 100) : Addressed (slash :: e.path) where
  head := rfl
  component := by
    rw [components_slash]
    exact nonempty
  short := fun name member => by
    rw [components_slash] at member
    have length := components_length member
    omega

theorem trailing_entry (nonempty : components path ≠ []) : Trailing (slash :: path) ↔ Trailing path := by
  unfold Trailing
  cases path with
  | nil => exact absurd rfl nonempty
  | cons b path => rw [List.getLast?_cons_cons]

theorem Unpacked.step_dir (unpacked : Unpacked done s) (ample : m.Ample) (legal : Legal all)
    (split : all = done ++ .dir path :: es) (few : done.length < 2 ^ 23) (short : path.length < 100) (size : Nat) :
    ∃ t, (Vfs.tarFs m).extractEntry a p DIRTYPE (slash :: path) size s = .ok t ∧ Unpacked (done ++ [.dir path]) t := by
  have nonempty := legal.place (.dir path) (split ▸ List.mem_append_right _ List.mem_cons_self)
  have addressed : Addressed (slash :: path) := addressed_entry nonempty short
  obtain ⟨d, place⟩ : ∃ d, Place s (slash :: path) d := unpacked.next legal split addressed
  have roomy := unpacked.roomy few (n := (slash :: path).length + 1) (by rw [List.length_cons]; omega)
  obtain ⟨⟨ret, t⟩, made, adds, closed⟩ :=
    (mkdir_adds unpacked.named (ample.generous s) (ample.fresh s) addressed place).total roomy
  dsimp only at adds closed
  refine ⟨t, ?_, ?_⟩
  · unfold TarFs.extractEntry
    rw [if_neg (by decide), if_pos rfl]
    unfold Vfs.tarFs
    dsimp only
    rw [made]
    rfl
  · rw [components_slash] at adds
    apply unpacked.add adds _ closed nonempty (Unpacked.new legal split) nofun
    rw [List.length_cons]
    omega

theorem Unpacked.step_file {type : UInt8} (unpacked : Unpacked done s) (ample : m.Ample) (legal : Legal all)
    (split : all = done ++ .file path bytes :: es) (few : done.length < 2 ^ 23) (short : path.length < 100)
    (regular : type = REGTYPE ∨ type = AREGTYPE) (data : dataAt a (p + 512) bytes.length = .ok bytes) :
    ∃ t, (Vfs.tarFs m).extractEntry a p type (slash :: path) bytes.length s = .ok t ∧
      Unpacked (done ++ [.file path bytes]) t := by
  have member : .file path bytes ∈ all := split ▸ List.mem_append_right _ List.mem_cons_self
  have nonempty := legal.place _ member
  obtain ⟨plain, small⟩ := legal.files path bytes member
  have addressed := addressed_entry nonempty short
  have ordinary : Ordinary (slash :: path) := ⟨addressed, (trailing_entry nonempty).not.mpr plain⟩
  obtain ⟨d, place⟩ := unpacked.next legal split addressed
  have roomy := unpacked.roomy few (n := (slash :: path).length + 2) (by rw [List.length_cons]; omega)
  obtain ⟨⟨ret, t⟩, created, q, rfl, filling, mode, start⟩ :=
    (create_adds unpacked.named (ample.generous s) (ample.fresh s) ordinary place).total roomy
  obtain ⟨⟨count, u⟩, written, stored, filling, contains⟩ :=
    (filling.write mode start small (ample.block t)).total fun _ => id
  obtain ⟨⟨zero, v⟩, closed, adds, same⟩ := filling.close.total fun _ => id
  refine ⟨v, ?_, ?_⟩
  · unfold TarFs.extractEntry
    rw [if_pos regular]
    unfold Vfs.tarFs
    dsimp only
    rw [created]
    change (dataAt a (p + 512) bytes.length >>= _) = _
    rw [data]
    change (called (t.vfsWrite (m.block t) q bytes >>= _) >>= _) = _
    rw [written]
    change called (u.vfsClose q >>= _) = _
    rw [closed]
    rfl
  · rw [components_slash] at adds
    apply unpacked.add adds _ same nonempty (Unpacked.new legal split)
    · rintro _ _ ⟨⟩
      exact contains
    · rw [List.length_cons]
      omega

/-! ### The whole archive -/

theorem dataAt_archive {block pad : List UInt8} (length : block.length = 512)
    (here : a.drop p = block ++ (bytes ++ (pad ++ rest))) : dataAt a (p + 512) bytes.length = .ok bytes := by
  have after : a.drop (p + 512) = bytes ++ (pad ++ rest) := by
    rw [← List.drop_drop, here, ← length, List.drop_left]
  unfold dataAt
  rw [if_pos, after, List.take_left]
  have lengths := congrArg List.length after
  rw [List.length_drop, List.length_append] at lengths
  by_cases none : bytes.length = 0
  · exact Or.inl none
  · exact Or.inr (by omega)

/-- The next header is where the entry ends. -/
theorem next_header {block pad : List UInt8} (length : block.length = 512) (small : bytes.length < 2 ^ 31)
    (padded : pad.length = padding bytes.length) (here : a.drop p = block ++ (bytes ++ (pad ++ rest))) :
    a.drop (if BitVec.ofNat 32 bytes.length ≠ 0 then p + 512 + (roundUp (.ofNat 32 bytes.length) 512).toNat
      else p + 512) = rest := by
  have lengths : (block ++ (bytes ++ pad)).length = 512 + (bytes.length + padding bytes.length) := by
    rw [List.length_append, List.length_append, length, padded]
  unfold padding at lengths
  have place : (if BitVec.ofNat 32 bytes.length ≠ 0 then p + 512 + (roundUp (.ofNat 32 bytes.length) 512).toNat
      else p + 512) = p + (block ++ (bytes ++ pad)).length := by
    split
    · rw [roundUp_toNat small, lengths]
      omega
    · rename_i zero
      have zero : bytes.length = 0 := by
        have value := congrArg BitVec.toNat (not_not.mp zero)
        rw [BitVec.toNat_ofNat, Nat.mod_eq_of_lt (by omega)] at value
        exact value
      rw [lengths]
      omega
  rw [place, ← List.drop_drop, here]
  have whole : block ++ (bytes ++ (pad ++ rest)) = block ++ (bytes ++ pad) ++ rest := by
    simp only [List.append_assoc]
  rw [whole, List.drop_left]

theorem Ustar.length (archive : Ustar es bytes) : 512 * es.length ≤ bytes.length := by
  induction archive with
  | ended => exact le_rfl
  | zeros rest => exact Nat.zero_le _
  | dir header more ih =>
    rw [List.length_append, header.length, List.length_cons]
    omega
  | file regular header padded more ih =>
    rw [List.length_append, header.length, List.length_cons, List.length_append, List.length_append]
    omega

/-- The loop of `extract_tar` at the header of an entry. -/
theorem extractFrom_entry {σ : Type} {fs : TarFs σ} {s t : σ} {block : List UInt8} {size : Nat} {type : UInt8}
    (header : HeaderFor block path size type) (named : path ≠ []) (small : size < 2 ^ 31)
    (here : a.drop p = block ++ rest) (entry : fs.extractEntry a p type (slash :: path) size s = .ok t) :
    fs.extractFrom a (fuel + 1) p s = fs.extractFrom a fuel
      (if BitVec.ofNat 32 size ≠ 0 then p + 512 + (roundUp (.ofNat 32 size) 512).toNat else p + 512) t := by
  have lengths := congrArg List.length here
  rw [List.length_drop, List.length_append, header.length] at lengths
  have value : (BitVec.ofNat 32 size).toNat = size := by
    rw [BitVec.toNat_ofNat, Nat.mod_eq_of_lt (by omega)]
  rw [TarFs.extractFrom, if_neg (not_not.mpr (by omega)), header.goes_on named here]
  change (readHeader a p >>= _) = _
  rw [header.reads small here]
  change (fs.extractEntry a p type (slash :: path) (BitVec.ofNat 32 size).toNat s >>= _) = _
  rw [value, entry]
  rfl

/-- The rest of the loop unpacks the rest of the archive. -/
theorem extractFrom_unpacks (ample : m.Ample) (legal : Legal all) (few : all.length < 2 ^ 23)
    (archive : Ustar es bytes) : ∀ {done p fuel s}, a.drop p = bytes → all = done ++ es → Unpacked done s →
      es.length < fuel → ∃ t, (Vfs.tarFs m).extractFrom a fuel p s = .ok t ∧ Unpacked all t := by
  induction archive with
  | ended =>
    intro done p fuel s here split unpacked enough
    obtain ⟨fuel, rfl⟩ : ∃ k, fuel = k + 1 := ⟨fuel - 1, by omega⟩
    rw [List.append_nil] at split
    refine ⟨s, ?_, split ▸ unpacked⟩
    rw [TarFs.extractFrom, if_pos (not_lt.mpr (List.drop_eq_nil_iff.mp here))]
  | zeros rest =>
    intro done p fuel s here split unpacked enough
    obtain ⟨fuel, rfl⟩ : ∃ k, fuel = k + 1 := ⟨fuel - 1, by omega⟩
    rw [List.append_nil] at split
    refine ⟨s, ?_, split ▸ unpacked⟩
    have lengths := congrArg List.length here
    rw [List.length_drop, List.length_append, List.length_replicate] at lengths
    have byte : ∀ i, i < 512 → byteAt a (p + i) = .ok 0 := by
      intro i below
      have same := congrArg (fun l => l[i]?) here
      rw [List.getElem?_drop, List.getElem?_append_left (by rw [List.length_replicate]; exact below),
        List.getElem?_replicate_of_lt below] at same
      unfold byteAt
      rw [same]
    have first : byteAt a p = .ok 0 := byte 0 (by decide)
    have zeros : endsAt a p = .ok true := by
      unfold endsAt
      rw [first, byte 1 (by decide)]
      rfl
    rw [TarFs.extractFrom, if_neg (not_not.mpr (by omega)), zeros]
    rfl
  | @dir path block es rest header more ih =>
    intro done p fuel s here split unpacked enough
    obtain ⟨fuel, rfl⟩ : ∃ k, fuel = k + 1 := ⟨fuel - 1, by omega⟩
    have lengths := congrArg List.length split
    rw [List.length_append, List.length_cons] at lengths
    have nonempty := legal.place (.dir path) (split ▸ List.mem_append_right _ List.mem_cons_self)
    have named : path ≠ [] := fun none => nonempty (none ▸ rfl)
    obtain ⟨t, entry, unpacked⟩ := unpacked.step_dir (a := a) (p := p) ample legal split (by omega) header.path_short 0
    rw [extractFrom_entry header named (by decide) here entry, if_neg (by decide)]
    apply ih _ _ unpacked _
    · rw [← List.drop_drop, here, ← header.length, List.drop_left]
    · rw [split, List.append_assoc]
      rfl
    · rw [List.length_cons] at enough
      omega
  | @file path bytes block pad type es rest regular header padded more ih =>
    intro done p fuel s here split unpacked enough
    obtain ⟨fuel, rfl⟩ : ∃ k, fuel = k + 1 := ⟨fuel - 1, by omega⟩
    have lengths := congrArg List.length split
    rw [List.length_append, List.length_cons] at lengths
    have member : .file path bytes ∈ all := split ▸ List.mem_append_right _ List.mem_cons_self
    have nonempty := legal.place _ member
    have named : path ≠ [] := fun none => nonempty (none ▸ rfl)
    have small := (legal.files path bytes member).2
    obtain ⟨t, entry, unpacked⟩ := unpacked.step_file ample legal split (by omega) header.path_short regular
      (dataAt_archive header.length here)
    rw [extractFrom_entry header named small here entry]
    apply ih (next_header header.length small padded here) _ unpacked _
    · rw [split, List.append_assoc]
      rfl
    · rw [List.length_cons] at enough
      omega

/-- A new `file_t` on `path` reads `bytes`, however many of them are asked for. -/
def Vfs.ReadsBack (s : Vfs) (path bytes : List UInt8) : Prop :=
  ∀ a size, Generous a → Fresh a s → size < 2 ^ 31 → ∃ q t u, s.vfsOpen a path O_RDONLY = .ok (.ok q, t) ∧
    t.vfsRead q size = .ok (((min size bytes.length : Nat), bytes.take size), u)

theorem Unpacked.reads_back (unpacked : Unpacked es s) (legal : Legal es) (few : es.length < 2 ^ 23)
    (member : .file path bytes ∈ es) (short : path.length < 100) : s.ReadsBack (slash :: path) bytes := by
  intro b size generous fresh small
  have addressed : Addressed (slash :: path) := addressed_entry (legal.place _ member) short
  have ordinary : Ordinary (slash :: path) := ⟨addressed, (trailing_entry (legal.place _ member)).not.mpr
    (legal.files path bytes member).1⟩
  obtain ⟨data, found, contains⟩ := unpacked.files path bytes member
  rw [← components_slash] at found
  have roomy := unpacked.roomy few (n := (slash :: path).length + 2) (by rw [List.length_cons]; omega)
  obtain ⟨⟨ret, t⟩, opened, q, rfl, inside, live, mode, start, rfl⟩ :=
    (open_found unpacked.named generous fresh ordinary found).total roomy
  obtain ⟨f, read⟩ := contains.read (f := t.file q) size (by rw [mode]; decide) start small
  refine ⟨q, t, { t with file := fun p => if p = q then f else t.file p }, opened, ?_⟩
  unfold Vfs.vfsRead
  dsimp only at inside live read
  rw [if_neg (not_not.mpr inside), if_neg (not_not.mpr live), read]

theorem Ustar.path_short (archive : Ustar es bytes) (member : e ∈ es) : e.path.length < 100 := by
  induction archive with
  | ended => cases member
  | zeros rest => cases member
  | dir header more ih =>
    rcases List.mem_cons.mp member with rfl | later
    · exact header.path_short
    · exact ih later
  | file regular header padded more ih =>
    rcases List.mem_cons.mp member with rfl | later
    · exact header.path_short
    · exact ih later

theorem HeaderFor.accepted {size : Nat} {block : List UInt8} {type : UInt8} (header : HeaderFor block path size type) :
    500 ≤ (block ++ rest).length ∧ byteAt (block ++ rest) 257 = .ok 117 := by
  have length := header.length
  constructor
  · rw [List.length_append]
    omega
  · have magic := congrArg (fun l => l[0]?) header.magic
    rw [List.getElem?_take_of_lt (by decide), List.getElem?_drop] at magic
    unfold byteAt
    rw [List.getElem?_append_left (by omega), magic]
    rfl

theorem Ustar.accepted (archive : Ustar es a) (nonempty : es ≠ []) : 500 ≤ a.length ∧ byteAt a 257 = .ok 117 := by
  cases archive with
  | ended => exact absurd rfl nonempty
  | zeros rest => exact absurd rfl nonempty
  | dir header more => exact header.accepted
  | file regular header padded more => exact header.accepted

/-- `extract_tar` of an archive into an empty ramfs. -/
theorem archive_extracted (m : Kmalloc) (ample : m.Ample) (root : Nat) (nonnull : root ≠ 0) (es : List TarEntry)
    (nonempty : es ≠ []) (legal : Legal es) (a : List UInt8) (archive : Ustar es a) (small : a.length < 2 ^ 32) :
    ∃ t, (Vfs.tarFs m).extractTar a (Vfs.mounted root) = .ok (0, t) ∧
      (∀ place, (t.tree place).map Item.kind = kinds es place) ∧
      ∀ path bytes, .file path bytes ∈ es → t.ReadsBack (slash :: path) bytes := by
  have length := archive.length
  have few : es.length < 2 ^ 23 := by omega
  obtain ⟨long, magic⟩ := archive.accepted nonempty
  have enough : es.length < a.length + 1 := by omega
  obtain ⟨t, extracted, unpacked⟩ := extractFrom_unpacks (a := a) ample legal few archive List.drop_zero rfl
    (Unpacked.mounted nonnull) enough
  refine ⟨t, ?_, fun place => ?_, fun path bytes member => ?_⟩
  · unfold TarFs.extractTar
    rw [if_neg (not_lt.mpr long), magic]
    change ((Vfs.tarFs m).extractFrom a (a.length + 1) 0 (Vfs.mounted root) >>= _) = _
    rw [extracted]
    rfl
  · rw [tree_kind, unpacked.found]
  · exact unpacked.reads_back legal few member (archive.path_short member)

/-! ### Small archives -/

def Kmalloc.next : Kmalloc where
  answers := fun s =>
    ⟨fun _ => true, some (s.live.sup id + s.opened.sup id + 1), true, some (s.live.sup id + s.opened.sup id + 1)⟩
  block := fun _ => some fun _ => 0

theorem Kmalloc.next_ample : Kmalloc.next.Ample where
  generous := fun s => ⟨fun _ => rfl, nofun, rfl, nofun⟩
  fresh := fun s => by
    constructor
    · rintro _ ⟨⟩
      refine ⟨fun live => ?_, Nat.succ_ne_zero _⟩
      have below := Finset.le_sup (f := id) live
      dsimp only [id] at below
      omega
    · rintro _ ⟨⟩ opened
      have below := Finset.le_sup (f := id) opened
      dsimp only [id] at below
      omega
  block := nofun

def headerBlock (name size : List UInt8) (type : UInt8) : List UInt8 :=
  name ++ (List.replicate (124 - name.length) 0 ++ (size ++ (List.replicate 20 0 ++
    (type :: (List.replicate 100 0 ++ ([117, 115, 116, 97, 114] ++ List.replicate 250 0))))))

def twoEntries : List TarEntry := [.dir [100, 47], .file [100, 47, 102] [7]]

def twoArchive : List UInt8 :=
  headerBlock [100, 47] (List.replicate 11 48 ++ [0]) DIRTYPE ++
    (headerBlock [100, 47, 102] (List.replicate 10 48 ++ [49, 0]) REGTYPE ++ ([7] ++ (List.replicate 511 0 ++ [])))

theorem twoEntries_legal : Legal twoEntries where
  place := by decide
  files := by
    intro path bytes member
    rcases List.mem_cons.mp member with first | later
    · cases first
    · obtain ⟨rfl, rfl⟩ := TarEntry.file.inj (List.mem_singleton.mp later)
      decide
  distinct := by decide
  parents := by
    intro before e after split
    cases before with
    | nil =>
      obtain ⟨rfl, -⟩ := List.cons.inj split
      exact Or.inl (by decide)
    | cons x before =>
      obtain ⟨rfl, rest⟩ := List.cons.inj split
      cases before with
      | nil =>
        obtain ⟨rfl, -⟩ := List.cons.inj rest
        exact Or.inr ⟨[100, 47], List.mem_cons_self, by decide⟩
      | cons y before =>
        have none : [] = before ++ e :: after := (List.cons.inj rest).2
        cases ((List.append_eq_nil_iff.mp none.symm).2)

theorem twoArchive_ustar : Ustar twoEntries twoArchive := by
  apply Ustar.dir
  · refine ⟨by decide +kernel, ⟨List.replicate 97 0, by decide +kernel⟩, by decide, ⟨by decide +kernel, ?_⟩,
      by decide +kernel, by decide +kernel, by decide +kernel⟩
    exact ⟨[], List.replicate 11 48, [0], by decide +kernel, nofun, by decide, by decide +kernel, by decide +kernel,
      Or.inl rfl⟩
  apply Ustar.file (Or.inl rfl) _ (by decide +kernel) .ended
  refine ⟨by decide +kernel, ⟨List.replicate 96 0, by decide +kernel⟩, by decide, ⟨by decide +kernel, ?_⟩,
    by decide +kernel, by decide +kernel, by decide +kernel⟩
  exact ⟨[], List.replicate 10 48 ++ [49], [0], by decide +kernel, nofun, by decide, by decide +kernel, by decide +kernel,
      Or.inl rfl⟩

theorem archive_extracted_two : ∃ t, (Vfs.tarFs Kmalloc.next).extractTar twoArchive (Vfs.mounted 1) = .ok (0, t) ∧
    (∀ place, (t.tree place).map Item.kind = kinds twoEntries place) ∧
    ∀ path bytes, .file path bytes ∈ twoEntries → t.ReadsBack (slash :: path) bytes :=
  archive_extracted Kmalloc.next Kmalloc.next_ample 1 (by decide) twoEntries nofun twoEntries_legal twoArchive
    twoArchive_ustar (by decide +kernel)

end Landaux
