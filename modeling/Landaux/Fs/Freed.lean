import Landaux.Fs.OpenSpec
import Landaux.Lib.Machine

/-!
# No dentry is freed while it is needed

`strcpy` does not look at the length of a name. As long as every new name ends within `name` and the byte
of padding after it, `dentry_put` frees only what nothing points to.
-/

namespace Landaux
open Lib Vfs

variable {s t u v : Vfs} {held : Multiset Nat} {d c p q x : Nat} {n : Dentry} {a : Answers}
  {call : FsCall} {events : List (FsCall × Answers)} {f : File} {data : FileData}

def FsCall.path : FsCall → Option (List UInt8)
  | .lookup path | .getdents path _ _ | .mkdir path | .rmdir path | .unlink path | .opens path _ => some path
  | .closes _ => none

/-- The allocator gives free memory, a path starts with a slash and has a component, and only open files
are closed. -/
structure FsCall.Proper (s : Vfs) (a : Answers) (call : FsCall) : Prop where
  fresh : Fresh a s
  absolute : ∀ path, call.path = some path → Absolute path
  opened : ∀ q, call = .closes q → q ∈ s.opened

def FsCall.Names (s : Vfs) (a : Answers) : FsCall → Name → Prop
  | .mkdir path, name => s.Makes a path name
  | .opens path flags, name => s.Creates a path flags name
  | _, _ => False

/-- New names end within `name` and the byte of padding after it. -/
def FsCall.Fits (s : Vfs) (a : Answers) (call : FsCall) : Prop :=
  ∀ name, call.Names s a name → name.length ≤ 256

def FsStep (s : Vfs) (e : FsCall × Answers) (t : Vfs) : Prop :=
  e.1.Proper s e.2 ∧ ∃ ret, e.1.act e.2 s = .ok (ret, t)

/-- All that is pointed to is allocated. -/
structure Intact (s : Vfs) : Prop where
  root : s.root ∈ s.live
  children : ∀ x ∈ s.live, ∀ c ∈ (s.node x).children, c ∈ s.live
  parents : ∀ x ∈ s.live, (s.node x).parent ≠ 0 → (s.node x).parent ∈ s.live
  files : ∀ q ∈ s.opened, (s.file q).dentry ∈ s.live

/-- Every pointer is counted, and no dentry is being freed. -/
structure Settled (s : Vfs) : Prop where
  inv : Inv 0 s
  counted : ∀ x ∈ s.live, (s.node x).refcnt ≠ 0

namespace Settled

theorem intact (h : Settled s) : Intact s := by
  have alive : ∀ x ∈ s.live, x ∈ s.alive := fun x live => mem_alive.mpr ⟨live, h.counted x live⟩
  have live : ∀ x ∈ s.refs 0, x ∈ s.live := fun x member => (mem_alive.mp (h.inv.known x member)).1
  constructor
  case root => exact live _ (mem_refs_linked root_linked)
  case children =>
    intro x inside c child
    exact live c (mem_refs_linked (Inv.child_linked (alive x inside) child))
  case parents =>
    intro x inside parent
    exact live _ (mem_refs_parent (mem_parents.mpr ⟨parent, x, alive x inside, rfl⟩))
  case files =>
    intro q opened
    exact live _ (mem_refs_handle (mem_handles.mpr ⟨q, opened, rfl⟩))

theorem mounted {root : Nat} (nonnull : root ≠ 0) : Settled (Vfs.mounted root) := by
  have alive : (Vfs.mounted root).alive = {root} := rfl
  have links : (Vfs.mounted root).links = 0 := by
    unfold Vfs.links
    rw [alive, Finset.sum_singleton]
    rfl
  have linked : (Vfs.mounted root).linked = {root} := by
    unfold Vfs.linked
    rw [links]
    rfl
  have parents : (Vfs.mounted root).parents = 0 := by
    unfold Vfs.parents
    rw [alive, Finset.sum_singleton]
    rfl
  have refs : (Vfs.mounted root).refs 0 = {root} := by
    unfold Vfs.refs
    rw [linked, parents]
    rfl
  refine ⟨⟨?_, ?_, ?_, ?_, fun _ _ _ => rfl, rfl, fun _ _ nonempty => absurd rfl nonempty, ?_⟩, ?_⟩
  · intro null
    exact nonnull (Finset.mem_singleton.mp null).symm
  · intro x member
    rw [refs, Multiset.mem_singleton] at member
    rw [alive, member]
    exact Finset.mem_singleton_self root
  · intro x member
    rw [alive, Finset.mem_singleton] at member
    rw [refs, member, Multiset.count_singleton_self]
    rfl
  · rw [linked]
    exact Multiset.nodup_singleton root
  · exact fun q opened => absurd opened (Finset.notMem_empty q)
  · exact fun x _ => one_ne_zero

theorem of_put (h : Settled s) (put : Put v t) (inv : Inv 0 t) (live : v.live = s.live)
    (counts : ∀ x, (v.node x).refcnt = (s.node x).refcnt) : Settled t := by
  refine ⟨inv, fun x inside zero => ?_⟩
  have before := put.kept x inside zero
  rw [counts] at before
  exact h.counted x (live ▸ put.live inside) before

theorem of_made (h : Settled s) (made : Made s t d p n) (inv : Inv 0 t) (counted : n.refcnt = 0) : Settled t := by
  refine ⟨inv, fun x live => ?_⟩
  rw [made.live, Finset.mem_insert] at live
  by_cases new : x = p
  · rw [new, made.new, counted]
    exact one_ne_zero
  · rw [made.old new]
    exact h.counted x (live.resolve_left new)

theorem of_opened (h : Settled s) (opens : Opened s t c q f data) (inv : Inv 0 t) : Settled t := by
  refine ⟨inv, fun x live => ?_⟩
  rw [opens.live] at live
  have positive := h.inv.positive (mem_alive.mpr ⟨live, h.counted x live⟩)
  rw [opens.node_eq]
  dsimp only
  split <;> omega

end Settled

theorem Visited.settled {flags : BitVec 8} {path : List UInt8} {r : Except Int (Nat × Name)}
    (visited : Visited flags a path 0 s t r) (h : Settled s) : Settled t := by
  refine ⟨visited.inv, fun x live => ?_⟩
  have alive : x ∈ t.alive := by
    rw [visited.links.alive]
    rw [visited.links.live] at live
    exact mem_alive.mpr ⟨live, h.counted x live⟩
  exact (mem_alive.mp alive).2

theorem Visited.made {flags : BitVec 8} {path : List UInt8} {name : Name} {kind : Kind}
    (visited : Visited flags a path 0 s u (.ok (d, name))) (h : Settled s) (dir : (s.node d).kind = .dir)
    (copied : strcpyName name kind = .ok n) (fits : name.length ≤ 256) (made : Made u t d p n) : Settled t := by
  rw [strcpyName_fits fits] at copied
  cases copied
  have linked : d ∈ u.linked := visited.links.linked ▸ visited.linked d name rfl
  have inv := made.inv visited.inv linked ((visited.tree.kind d).trans dir) rfl rfl rfl
  exact (visited.settled h).of_made made inv rfl

/-- One call. -/
theorem FsCall.act_settled (h : Settled s) (proper : call.Proper s a) (fits : call.Fits s a) :
    Ends (call.act a s) (fun r => Settled r.2) fun stop => stop = .overflow := by
  have stops : ∀ {names : Name → Prop} {k stop}, (∀ name, names name → name.length ≤ 256) →
      s.Exceeds k names stop → stop = .overflow := fun fits exceeds => exceeds.elim And.left
    fun ⟨name, named, long⟩ => absurd (fits name named) (by omega)
  cases call with
  | lookup path =>
    refine Ends.bind ((lookupPath_spec h.inv (proper.absolute path rfl)).mono (fun _ ends => ends) fun _ => And.left) ?_
    rintro ⟨ret, t⟩ ⟨r, visited, -⟩
    exact visited.settled h
  | getdents path size start =>
    refine Ends.bind ((vfsGetdents_spec h.inv (proper.absolute path rfl)).mono (fun _ ends => ends) fun _ => And.left) ?_
    rintro _ (visited | ⟨visited, -⟩)
    · exact visited.settled h
    · exact visited.settled h
  | mkdir path =>
    refine Ends.bind ((vfsMkdir_spec h.inv (proper.absolute path rfl) proper.fresh).mono (fun _ ends => ends)
      fun _ => stops fits) ?_
    rintro _ (visited | ⟨visited, -⟩ | ⟨visited, -⟩ | ⟨visited, dir, makes, -, -, copied, made⟩)
    · exact visited.settled h
    · exact visited.settled h
    · exact visited.settled h
    · exact visited.made h dir copied (fits _ makes) made
  | rmdir path =>
    refine Ends.bind ((vfsRmdir_spec h.inv (proper.absolute path rfl)).mono (fun _ ends => ends) fun _ => And.left) ?_
    rintro _ (visited | ⟨visited, -⟩ | ⟨visited, -, -⟩ | ⟨visited, -, -, -, put, inv⟩)
    · exact visited.settled h
    · exact visited.settled h
    · exact visited.settled h
    · exact (visited.settled h).of_put put inv rfl fun x => by rw [listDel_node]
  | unlink path =>
    refine Ends.bind ((vfsUnlink_spec h.inv (proper.absolute path rfl)).mono (fun _ ends => ends) fun _ => And.left) ?_
    rintro _ (visited | ⟨visited, -⟩ | ⟨visited, -, -, put, inv⟩)
    · exact visited.settled h
    · exact visited.settled h
    · exact (visited.settled h).of_put put inv rfl fun x => by rw [freeData_node, listDel_node]
  | opens path flags =>
    refine Ends.bind ((vfsOpen_spec h.inv (proper.absolute path rfl) proper.fresh).mono (fun _ ends => ends)
      fun _ => stops fits) ?_
    have unused := proper.fresh.file
    rintro _ (visited | ⟨visited, -⟩ | ⟨visited, dir, creates, -, -, copied, made, -⟩ |
      ⟨visited, link, -, -, granted, opens, new⟩ |
      ⟨visited, dir, creates, -, -, copied, made, counted, granted, opens, new⟩)
    · exact visited.settled h
    · exact visited.settled h
    · exact visited.made h dir copied (fits _ creates) made
    · have settled := visited.settled h
      have alive := settled.inv.known _ (mem_refs_linked (Multiset.mem_cons_of_mem (visited.links.links ▸ link)))
      have free := unused _ granted
      rw [← visited.tree.opened] at free
      obtain ⟨points, once⟩ := newFile_dentry new
      exact settled.of_opened opens (opens.inv settled.inv alive free points once)
    · have settled := visited.made h dir copied (fits _ creates) made
      have live := made.live ▸ Finset.mem_insert_self _ _
      have alive := mem_alive.mpr ⟨live, settled.counted _ live⟩
      have free := unused _ granted
      rw [← visited.tree.opened, ← made.opened] at free
      obtain ⟨points, once⟩ := newFile_dentry new
      exact settled.of_opened opens (opens.inv settled.inv alive free points once)
  | closes q =>
    refine Ends.bind ((vfsClose_spec h.inv (proper.opened q rfl)).mono (fun _ ends => ends) fun _ never => never.elim) ?_
    rintro _ ⟨-, ⟨f, put⟩, inv⟩
    exact h.of_put put inv rfl fun _ => rfl

/-- In a run whose new names fit, no call frees a dentry that is pointed to or touches one that was freed. -/
theorem needed_dentries_kept {root : Nat} (nonnull : root ≠ 0) (run : Run FsStep (Vfs.mounted root) events s)
    (fits : Throughout FsStep (fun s e _ => e.1.Fits s e.2) (Vfs.mounted root) events) :
    Intact s ∧ ∀ (call : FsCall) (a : Answers), call.Proper s a → call.Fits s a →
      ∀ stop, call.act a s = .error stop → stop = .overflow := by
  have settled : Settled s := fits.invariant run (Settled.mounted nonnull) fun s e t good step fits => by
    obtain ⟨proper, ret, eq⟩ := step
    exact (FsCall.act_settled good proper fits).of_ok eq
  exact ⟨settled.intact, fun call a proper fits stop eq => (FsCall.act_settled settled proper fits).of_error eq⟩

/-- Memory at address `p` for all that a call allocates. -/
def allGranted (p : Nat) : Answers := ⟨fun _ => true, some p, true, some p⟩

def noneGranted : Answers := ⟨fun _ => true, none, false, none⟩

theorem mkdir_proper {path : List UInt8} (absolute : Absolute path) :
    (FsCall.mkdir path).Proper (Vfs.mounted 1) (allGranted 2) := by
  refine ⟨⟨?_, ?_⟩, ?_, nofun⟩
  · rintro _ ⟨⟩
    exact ⟨by decide, by decide⟩
  · rintro _ ⟨⟩
    decide
  · rintro _ ⟨⟩
    exact absolute

theorem needed_dentries_kept_mkdir : ∃ s, Run FsStep (Vfs.mounted 1) [(.mkdir [slash, 97], allGranted 2)] s ∧
    Intact s ∧ ∀ (call : FsCall) (a : Answers), call.Proper s a → call.Fits s a →
      ∀ stop, call.act a s = .error stop → stop = .overflow := by
  have step : FsStep (Vfs.mounted 1) (.mkdir [slash, 97], allGranted 2) _ :=
    ⟨mkdir_proper ⟨rfl, by decide⟩, _, rfl⟩
  refine ⟨_, .single step, needed_dentries_kept (by decide) (.single step) ?_⟩
  refine Throughout.cons_iff.mpr fun t _ => ⟨?_, .nil⟩
  rintro name ⟨-, -, d, t, eq⟩
  have same := congrArg (fun r => r.map fun r => r.1.map Prod.snd) eq
  have computed : Except.ok (Except.ok (some [97])) = (Except.ok (Except.ok (some name)) :
      Except FsStop (Except Int (Option Name))) := same
  cases computed
  decide

/-- The last four bytes of this name become the reference count -1. -/
def longName : Name := List.replicate 264 97 ++ List.replicate 4 255

/-- A directory with a long name is freed by the first lookup that finds it. -/
theorem linked_dentry_freed : ∃ s, Run FsStep (Vfs.mounted 1) [(.mkdir (slash :: longName), allGranted 2)] s ∧
    ∃ (call : FsCall) (a : Answers), call.Proper s a ∧ call.act a s = .error .dangling := by
  have proper : (FsCall.mkdir (slash :: longName)).Proper (Vfs.mounted 1) (allGranted 2) :=
    mkdir_proper ⟨rfl, by decide +kernel⟩
  have stops : ((FsCall.mkdir (slash :: longName)).act (allGranted 2) (Vfs.mounted 1)).toOption.map (fun r =>
      match (FsCall.getdents (slash :: longName.take 264) 100 0).act noneGranted r.2 with
      | .ok _ => none
      | .error stop => some stop) = some (some .dangling) := by
    decide +kernel
  cases made : (FsCall.mkdir (slash :: longName)).act (allGranted 2) (Vfs.mounted 1) with
  | error stop =>
    rw [made] at stops
    cases stops
  | ok r =>
    rw [made] at stops
    have stops := Option.some.inj stops
    dsimp only at stops
    refine ⟨r.2, .single ⟨proper, r.1, made⟩, .getdents (slash :: longName.take 264) 100 0, noneGranted, ?_, ?_⟩
    · refine ⟨⟨nofun, nofun⟩, ?_, nofun⟩
      rintro _ ⟨⟩
      exact ⟨rfl, by decide +kernel⟩
    · split at stops
      · cases stops
      · rename_i eq
        rw [eq, Option.some.inj stops]

end Landaux
