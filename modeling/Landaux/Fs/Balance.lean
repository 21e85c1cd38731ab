import Landaux.Fs.Refinement

/-!
# References that a lookup leaves behind

A lookup gives its reference on a dentry to the parent pointer of the child that it goes on to, and what
the pointer had before is not given back. Counts are as before only when the walk goes on from nothing.
-/

namespace Landaux
open Lib Vfs

variable {s t u : Vfs} {d c p q x : Nat} {n : Dentry} {path : List UInt8} {a : Answers} {flags : BitVec 8}

/-- A call, or a `vfs_open` with its `vfs_close`, that should leave the counts as they were; `flags` are
those of its lookup. -/
inductive Passes (a : Answers) (path : List UInt8) (s : Vfs) : BitVec 8 → Vfs → Prop where
  | lookup {ret : Except Int Nat} {t : Vfs} (returns : s.lookupPath a path = .ok (ret, t)) : Passes a path s 0 t
  | getdents {size : Nat} {start : Int} {ret : Int × List Entry} {t : Vfs}
      (returns : s.vfsGetdents a path size start = .ok (ret, t)) : Passes a path s LAST_MUST_BE_DIR t
  | openClose {openFlags : BitVec 32} {q : Nat} {ret : Int} {t u : Vfs}
      (opens : s.vfsOpen a path openFlags = .ok (.ok q, t)) (closes : t.vfsClose q = .ok (ret, u)) :
      Passes a path s (LAST_RETURN ||| LAST_NO_SLASHES) u
  | mkdir {err : Int} {t : Vfs} (returns : s.vfsMkdir a path = .ok (err, t)) (fails : err < 0) :
      Passes a path s LAST_MUST_NOT_EXIST t
  | rmdir {err : Int} {t : Vfs} (returns : s.vfsRmdir a path = .ok (err, t)) (fails : err < 0) :
      Passes a path s LAST_MUST_BE_DIR t
  | unlink {err : Int} {t : Vfs} (returns : s.vfsUnlink a path = .ok (err, t)) (fails : err < 0) :
      Passes a path s LAST_NO_SLASHES t

/-- The dentries of `s` have the same reference counts in `t`. -/
def SameCounts (s t : Vfs) : Prop := ∀ x ∈ s.live, (t.node x).refcnt = (s.node x).refcnt

theorem Visited.sameCounts_iff {r : Except Int (Nat × Name)} (visited : Visited flags a path 0 s u r) (h : Inv 0 s)
    (same : SameCounts u t) : SameCounts s t ↔ ¬ s.GoesOn a flags path := by
  obtain ⟨crossed, leaks, crosses⟩ := visited.leaks
  rw [← crosses.goesOn, not_not]
  have counts : ∀ x ∈ s.live, (t.node x).refcnt = (s.node x).refcnt + crossed.count x := fun x live => by
    rw [same x (leaks.tree.live ▸ live), leaks.refcnt]
  constructor
  · intro balanced
    apply leaks.first.resolve_right
    intro member
    have grown := counts s.root (mem_alive.mp h.root_alive).1
    have once := List.count_pos_iff.mpr member
    rw [balanced s.root (mem_alive.mp h.root_alive).1] at grown
    omega
  · intro none x live
    rw [counts x live, none, List.count_nil]
    exact add_zero _

theorem SameCounts.refl : SameCounts s s := fun _ _ => rfl

/-- A `vfs_close` gives back the reference of the open file. -/
theorem Opened.close {f : File} {data : FileData} {ret : Int} (opens : Opened s t c q f data) (live : c ∈ s.live)
    (counted : (s.node c).refcnt ≠ 0) (points : f.dentry = c) (once : f.refcnt = 1)
    (closes : t.vfsClose q = .ok (ret, u)) : ∀ x, (u.node x).refcnt = (s.node x).refcnt := by
  subst points
  have file : t.file q = f := by
    rw [opens.file]
    exact if_pos rfl
  have last : Landaux.vfsClose f = none := by
    unfold Landaux.vfsClose
    rw [once]
    rfl
  have shared : (t.node f.dentry).refcnt ≠ 1 := by
    rw [opens.node_eq]
    dsimp only
    rw [if_pos rfl]
    omega
  have inside : f.dentry ∈ t.live := opens.live ▸ live
  unfold Vfs.vfsClose at closes
  rw [if_neg (not_not.mpr (opens.opened ▸ Finset.mem_insert_self q s.opened))] at closes
  dsimp only at closes
  rw [file, last] at closes
  dsimp only at closes
  rw [dentryPut_shared (s := (t.setFile q { f with refcnt := f.refcnt - 1 }).kfreeFile q) inside shared] at closes
  cases closes
  intro x
  rw [addRefcnt_node]
  change (t.node x).refcnt + _ = _
  rw [opens.node_eq]
  dsimp only
  split <;> omega

theorem Made.sameCounts (made : Made s t d p n) : SameCounts s t := fun x live => by
  rw [made.old (made.ne_new live)]

/-- Counts balance exactly when the walk does not go on from the root. -/
theorem references_balance_iff (h : Inv 0 s) (absolute : Absolute path) (fresh : Fresh a s)
    (passes : Passes a path s flags t) : SameCounts s t ↔ ¬ s.GoesOn a flags path := by
  cases passes with
  | lookup returns =>
    obtain ⟨r, visited, -⟩ := (lookupPath_spec h absolute).of_ok returns
    exact visited.sameCounts_iff h .refl
  | getdents returns =>
    rcases (vfsGetdents_spec h absolute).of_ok returns with visited | ⟨visited, -⟩
    · exact visited.sameCounts_iff h .refl
    · exact visited.sameCounts_iff h .refl
  | openClose opens closes =>
    cases (vfsOpen_spec h absolute fresh).of_ok opens with
    | opened visited link _ _ _ opens new =>
      obtain ⟨points, once⟩ := newFile_dentry new
      have alive := visited.inv.known _ (mem_refs_linked (Multiset.mem_cons_of_mem (visited.links.links ▸ link)))
      obtain ⟨live, counted⟩ := mem_alive.mp alive
      exact visited.sameCounts_iff h fun x _ => opens.close live counted points once closes x
    | created visited _ _ _ _ _ made counted _ opens new =>
      obtain ⟨points, once⟩ := newFile_dentry new
      have live := made.live ▸ Finset.mem_insert_self _ _
      have once' := opens.close live (by rw [made.new, counted]; exact one_ne_zero) points once closes
      exact visited.sameCounts_iff h fun x inside => (once' x).trans (made.sameCounts x inside)
  | mkdir returns fails =>
    rcases (vfsMkdir_spec h absolute fresh).of_ok returns with visited | ⟨visited, -⟩ | ⟨visited, -⟩ | _
    · exact visited.sameCounts_iff h .refl
    · exact visited.sameCounts_iff h .refl
    · exact visited.sameCounts_iff h .refl
    · exact absurd fails (lt_irrefl 0)
  | rmdir returns fails =>
    rcases (vfsRmdir_spec h absolute).of_ok returns with visited | ⟨visited, -⟩ | ⟨visited, -, -⟩ | _
    · exact visited.sameCounts_iff h .refl
    · exact visited.sameCounts_iff h .refl
    · exact visited.sameCounts_iff h .refl
    · exact absurd fails (lt_irrefl 0)
  | unlink returns fails =>
    rcases (vfsUnlink_spec h absolute).of_ok returns with visited | ⟨visited, -⟩ | _
    · exact visited.sameCounts_iff h .refl
    · exact visited.sameCounts_iff h .refl
    · exact absurd fails (lt_irrefl 0)

theorem references_balance_iff_open : ∃ t,
    Passes (allGranted 5) [slash, 97, slash, 98] fileClosed (LAST_RETURN ||| LAST_NO_SLASHES) t ∧
    (SameCounts fileClosed t ↔
      ¬ fileClosed.GoesOn (allGranted 5) (LAST_RETURN ||| LAST_NO_SLASHES) [slash, 97, slash, 98]) := by
  have inv : Inv 0 fileClosed := namesMade_run.2.settled.inv
  have fresh : Fresh (allGranted 5) fileClosed := by
    constructor
    · rintro _ ⟨⟩
      exact ⟨by decide +kernel, by decide⟩
    · rintro _ ⟨⟩
      decide +kernel
  have opens : fileClosed.vfsOpen (allGranted 5) [slash, 97, slash, 98] 0 = .ok (.ok 5, _) := rfl
  have passes : Passes (allGranted 5) [slash, 97, slash, 98] fileClosed (LAST_RETURN ||| LAST_NO_SLASHES) _ :=
    .openClose opens rfl
  exact ⟨_, passes, references_balance_iff inv ⟨rfl, by decide⟩ fresh passes⟩

/-- After `mkdir` of `/a`, a lookup of `/a` and the `dentry_put` of its result, the root has one reference
more. -/
theorem lookup_leaks : ∃ s t ret, Run FsStep (Vfs.mounted 1) [(.mkdir [slash, 97], allGranted 2)] s ∧
    s.lookupPath noneGranted [slash, 97] = .ok (ret, t) ∧ (s.node 1).refcnt = 1 ∧ (t.node 1).refcnt = 2 := by
  have proper : (FsCall.mkdir [slash, 97]).Proper (Vfs.mounted 1) (allGranted 2) :=
    mkdir_proper ⟨rfl, by decide⟩
  exact ⟨_, _, _, .single ⟨proper, _, rfl⟩, rfl, rfl, rfl⟩

end Landaux
