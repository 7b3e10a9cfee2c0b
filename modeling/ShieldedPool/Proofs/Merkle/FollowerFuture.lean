/-
What a follower will answer.  Its answers to further leaves and the roots it
comes to depend on no more than its depth, root and count, and on the siblings
that the path of the next leaf finds in its frontier; the first insertion
overwrites the rest.
-/
import ShieldedPool.Proofs.Merkle.AccumulatorAgreement
import ShieldedPool.Proofs.Merkle.FrontierPath

namespace ShieldedPool.Merkle

/-- Fed the same leaves, two trees give the same answers and come to the same
root. -/
def SameFuture {α β : Type} [Accumulator α] [Accumulator β] (tree : α) (other : β) :
    Prop :=
  ∀ more : List Felt,
    (feed tree more).2 = (feed other more).2 ∧
      Accumulator.root (feed tree more).1 = Accumulator.root (feed other more).1

theorem SameFuture.trans {α β γ : Type} [Accumulator α] [Accumulator β] [Accumulator γ]
    {tree : α} {other : β} {third : γ} (hfirst : SameFuture tree other)
    (hsecond : SameFuture other third) : SameFuture tree third := by
  intro more
  obtain ⟨hanswers, hroot⟩ := hfirst more
  obtain ⟨hanswers', hroot'⟩ := hsecond more
  exact ⟨hanswers.trans hanswers', hroot.trans hroot'⟩

namespace Follower

variable {tree other after : Follower}

/-- The tree with a leaf more. -/
def grown (tree : Follower) (leaf : Felt) : Follower :=
  let ascent := ascend 0 tree.nextIndex leaf tree.frontier
  { tree with
    frontier := ascent.frontier
    root := ascent.root
    nextIndex := tree.nextIndex + 1
    history := tree.history.record ascent.root
    latest := some ⟨tree.nextIndex, ascent.siblings⟩ }

theorem insert_of_room (hroom : tree.nextIndex < tree.depth.capacity) (leaf : Felt) :
    tree.insert leaf = .ok (tree.grown leaf, tree.nextIndex) := by
  rw [insert, if_pos hroom, grown]

theorem insert_of_full (hfull : ¬ tree.nextIndex < tree.depth.capacity) (leaf : Felt) :
    tree.insert leaf = .error (.treeFull tree.depth.capacity) := by
  rw [insert, if_neg hfull]

/-- Two followers agree on all that the next insertion reads. -/
structure Alike (tree other : Follower) : Prop where
  depth_eq : tree.depth = other.depth
  root_eq : tree.root = other.root
  nextIndex_eq : tree.nextIndex = other.nextIndex
  steps_eq : tree.nextIndex < tree.depth.capacity →
    pathSteps 0 tree.nextIndex tree.frontier = pathSteps 0 other.nextIndex other.frontier

theorem Alike.insert (halike : tree.Alike other) (leaf : Felt) :
    (∃ after after' index, tree.insert leaf = .ok (after, index) ∧
        other.insert leaf = .ok (after', index) ∧ after.Alike after') ∨
      ∃ failure, tree.insert leaf = .error failure ∧ other.insert leaf = .error failure := by
  obtain ⟨hdepth, hroot, hnext, hsteps⟩ := halike
  by_cases hroom : tree.nextIndex < tree.depth.capacity
  · left
    have hroom' : other.nextIndex < other.depth.capacity := by rwa [← hnext, ← hdepth]
    -- the ascents agree whole, so from here on the frontiers do
    have hascent : ascend 0 tree.nextIndex leaf tree.frontier =
        ascend 0 other.nextIndex leaf other.frontier := by
      rw [hnext] at hsteps ⊢
      exact ascend_congr _ _ _ _ (hsteps (hnext ▸ hroom))
    refine ⟨tree.grown leaf, other.grown leaf, tree.nextIndex, insert_of_room hroom leaf,
      ?_, ?_⟩
    · rw [hnext]
      exact insert_of_room hroom' leaf
    · exact {
        depth_eq := hdepth
        root_eq := congrArg Ascent.root hascent
        nextIndex_eq := congrArg (· + 1) hnext
        steps_eq := by
          intro _
          rw [grown, grown, hascent, hnext] }
  · right
    refine ⟨_, insert_of_full hroom leaf, ?_⟩
    rw [hnext, hdepth] at hroom
    rw [insert_of_full hroom, hdepth]

theorem Alike.sameFuture (halike : tree.Alike other) : SameFuture tree other := by
  intro more
  induction more generalizing tree other with
  | nil => exact ⟨rfl, halike.root_eq⟩
  | cons leaf more ih =>
      rcases halike.insert leaf with
        ⟨after, after', index, hinsert, hinsert', hafter⟩ | ⟨failure, hinsert, hinsert'⟩
      · obtain ⟨hanswers, hroot⟩ := ih hafter
        rw [feed_of_ok hinsert, feed_of_ok hinsert']
        exact ⟨congrArg (_ :: ·) hanswers, hroot⟩
      · obtain ⟨hanswers, hroot⟩ := ih halike
        rw [feed_of_error hinsert, feed_of_error hinsert']
        exact ⟨congrArg (_ :: ·) hanswers, hroot⟩

/-- A follower that agrees with an archive answers as the archive does. -/
theorem Agrees.sameFuture {depth : Depth} {leaves : List Felt}
    (hagrees : tree.Agrees (Archive.padded depth leaves))
    (hle : leaves.length ≤ depth.capacity) :
    SameFuture tree (Archive.padded depth leaves) := by
  intro more
  obtain ⟨hanswers, hafter⟩ := feed_agrees hagrees hle more
  exact ⟨hanswers, hafter.root_eq⟩

/-- The tree at a published state, with its own window of recent roots. -/
def adopted (tree : Follower) (snapshot : Snapshot) : Follower :=
  { tree with
    frontier := snapshot.frontier
    root := snapshot.root
    nextIndex := snapshot.nextIndex
    history := tree.history.recordNew snapshot.root
    latest := none }

theorem importState_eq_ok_iff {snapshot : Snapshot} :
    tree.importState snapshot = .ok after ↔
      snapshot.Sound tree.depth ∧ after = tree.adopted snapshot := by
  rw [← Snapshot.check_eq_ok_iff, importState, map_eq_ok_iff]
  constructor
  · rintro ⟨⟨⟩, hcheck, rfl⟩
    exact ⟨hcheck, rfl⟩
  · rintro ⟨hcheck, rfl⟩
    exact ⟨(), hcheck, rfl⟩

theorem importState_of_sound (tree : Follower) {snapshot : Snapshot}
    (hsound : snapshot.Sound tree.depth) :
    tree.importState snapshot = .ok (tree.adopted snapshot) :=
  importState_eq_ok_iff.2 ⟨hsound, rfl⟩

end Follower

end ShieldedPool.Merkle
