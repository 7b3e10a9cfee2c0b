/-
Every state that a follower comes to can be handed on.  A follower that starts
empty or as the view of an archive publishes, whatever it has been through, a
state that any follower of its depth takes over, and that one answers the same
from then on.
-/
import ShieldedPool.Proofs.Merkle.FollowerRun

namespace ShieldedPool.Merkle

namespace Follower

/-- Where a follower starts: empty, or as the view of an archive.  The size may be one
for which no queue can be reserved, so more is covered than what is ever made. -/
inductive Origin
  | fresh (size : Nat)
  | view (fed : List Felt) (size : Nat)

def Origin.follower (depth : Depth) : Origin → Follower
  | .fresh size => empty depth size
  | .view fed size => (feed (Archive.empty depth) fed).1.follower size

section Made

variable {depth : Depth} {size : Nat} {tree : Follower}

theorem fresh_eq_ok_iff :
    fresh depth size = .ok tree ↔
      RootWindow.Reservable size ∧ tree = (Origin.fresh size).follower depth :=
  ite_eq_ok_iff

/-- The followers that are made are those that start empty, with a size for which a
queue can be reserved. -/
theorem create_eq_ok_iff {levels : Nat} :
    create levels size = .ok tree ↔ 0 < size ∧ ∃ depth : Depth, depth.levels = levels ∧
      RootWindow.Reservable size ∧ tree = (Origin.fresh size).follower depth := by
  rw [create]
  split
  · next hzero => simp [hzero]
  · next hpos =>
      rw [and_iff_right (Nat.pos_of_ne_zero hpos)]
      simp only [bind_eq_ok_iff, fresh_eq_ok_iff, Depth.ofNat_eq_ok_iff]

theorem ofConfig_eq_ok_iff {config : Config} :
    ofConfig config = .ok tree ↔ ∃ depth, config.depth = .ok depth ∧
      RootWindow.Reservable config.rootHistorySize.toNat ∧
        tree = (Origin.fresh config.rootHistorySize.toNat).follower depth := by
  simp only [ofConfig, bind_eq_ok_iff, fresh_eq_ok_iff]

/-- An archive that was fed gives the view that a follower starts from, where room for
the roots can be reserved. -/
theorem view_eq_ok_iff {fed : List Felt} :
    (feed (Archive.empty depth) fed).1.view size = .ok tree ↔
      RootWindow.Reservable (max size 1) ∧ tree = (Origin.view fed size).follower depth :=
  ite_eq_ok_iff

end Made

theorem publishable_view (depth : Depth) (fed : List Felt) (size : Nat) :
    Publishable depth ((feed (Archive.empty depth) fed).1.follower size) := by
  have hlive := feed_empty_agrees depth size fed
  have hview := Archive.follower_agrees (feed (Archive.empty depth) fed).1 size
  rw [Archive.fst_feed_empty] at hlive hview ⊢
  refine ⟨rfl, ?_⟩
  rw [(interchangeable_of_agrees hlive hview).snapshot_eq]
  exact (publishable_feed depth size fed).2

theorem Origin.publishable (depth : Depth) (origin : Origin) :
    Publishable depth (origin.follower depth) := by
  cases origin with
  | fresh size => exact publishable_empty depth size
  | view fed size => exact publishable_view depth fed size

end Follower

/-- From a fresh follower or the view of an archive, every run of acts leads to
a state that any follower of the depth imports, with the same root, frontier
and count and the same answers and roots afterwards. -/
theorem reached_state_reimports (depth : Depth) (origin : Follower.Origin)
    (acts : List Follower.Act) (other : Follower) (hdepth : other.depth = depth) :
    let tree := (origin.follower depth).run acts
    ∃ after, other.importState tree.snapshot = .ok after ∧
      after.root = tree.root ∧ after.frontier = tree.frontier ∧
      after.nextIndex = tree.nextIndex ∧ SameFuture tree after := by
  subst hdepth
  intro tree
  obtain ⟨htree, hsound⟩ := (origin.publishable other.depth).run acts
  refine ⟨other.adopted tree.snapshot, other.importState_of_sound hsound, rfl, rfl, rfl, ?_⟩
  apply Follower.Alike.sameFuture
  exact {
    depth_eq := htree
    root_eq := rfl
    nextIndex_eq := rfl
    steps_eq := fun _ => rfl }

/-- A view that has been through an insertion, a refused import and a restored
window is imported by an empty follower. -/
theorem reached_state_reimports_after_refusal :
    let depth : Depth := ⟨2, by decide, by decide⟩
    let tree := ((Follower.Origin.view [7, 5] 3).follower depth).run
      [.insert 9, .importState ⟨0, [], 0⟩, .restoreHistory [1]]
    (Follower.empty depth 1).depth = depth ∧
      ∃ after, (Follower.empty depth 1).importState tree.snapshot = .ok after ∧
        after.root = tree.root ∧ after.frontier = tree.frontier ∧
        after.nextIndex = tree.nextIndex ∧ SameFuture tree after :=
  ⟨rfl, reached_state_reimports _ _ _ _ rfl⟩

end ShieldedPool.Merkle
