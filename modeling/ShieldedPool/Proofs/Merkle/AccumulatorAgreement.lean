/-
The two forms of the tree are interchangeable.  Fed the same leaves, a
follower and an archive answer alike and stand at the same root, and so does
the view of the archive from wherever it is taken.
-/
import ShieldedPool.Proofs.Merkle.FollowerTree

namespace ShieldedPool.Merkle

namespace Follower

/-- A follower that agrees with an archive answers as it does, and agrees with
it afterwards. -/
theorem feed_agrees {depth : Depth} {leaves : List Felt} {tree : Follower}
    (hagrees : tree.Agrees (Archive.padded depth leaves))
    (hle : leaves.length ≤ depth.capacity) (more : List Felt) :
    (feed tree more).2 = (feed (Archive.padded depth leaves) more).2 ∧
      (feed tree more).1.Agrees (feed (Archive.padded depth leaves) more).1 := by
  obtain ⟨hlive, hliveAnswers⟩ := (grows_agrees depth).feed_holds hagrees hle more
  obtain ⟨hfull, hfullAnswers⟩ := (Archive.grows_padded depth).feed_holds rfl hle more
  rw [hliveAnswers, hfullAnswers, hfull]
  exact ⟨rfl, hlive⟩

/-- Fed the same leaves from the empty tree, a follower agrees with an archive. -/
theorem feed_empty_agrees (depth : Depth) (size : Nat) (fed : List Felt) :
    (feed (empty depth size) fed).1.Agrees (feed (Archive.empty depth) fed).1 := by
  have hagrees := (feed_agrees (empty_agrees depth size) (Nat.zero_le _) fed).2
  rwa [Archive.padded_nil] at hagrees

theorem latest_proof_of_agrees {depth : Depth} {leaves : List Felt} {tree : Follower}
    (hagrees : tree.Agrees (Archive.padded depth leaves)) {index : UInt64}
    (hlast : index.toNat + 1 = leaves.length) :
    tree.prove index = .ok (paddedProof depth leaves index) := by
  rw [prove_of_agrees hagrees, if_pos (by omega), if_pos hlast]

end Follower

/-- A follower and a view of an archive show the archive's root, count and
latest proof, and publish one snapshot. -/
structure Interchangeable (live view : Follower) (full : Archive) : Prop where
  root_eq : live.root = full.root
  nextIndex_eq : live.nextIndex = full.nextIndex
  latest_proof : ∀ index : UInt64, index.toNat + 1 = full.nextIndex →
    ∃ proof, full.prove index = .ok proof ∧ live.prove index = .ok proof ∧
      view.prove index = .ok proof
  snapshot_eq : view.snapshot = live.snapshot
  latest_eq : view.latest = live.latest

theorem interchangeable_of_agrees {depth : Depth} {leaves : List Felt}
    {live view : Follower} (hlive : live.Agrees (Archive.padded depth leaves))
    (hview : view.Agrees (Archive.padded depth leaves)) :
    Interchangeable live view (Archive.padded depth leaves) where
  root_eq := hlive.root_eq
  nextIndex_eq := hlive.nextIndex_eq
  latest_proof index hlast := by
    rw [Archive.nextIndex_padded] at hlast
    refine ⟨paddedProof depth leaves index, ?_, ?_, ?_⟩
    · rw [Archive.prove_padded, if_pos (by omega)]
    · exact Follower.latest_proof_of_agrees hlive hlast
    · exact Follower.latest_proof_of_agrees hview hlast
  snapshot_eq := by
    rw [Follower.snapshot, Follower.snapshot, hview.root_eq, hview.frontier_eq,
      hview.nextIndex_eq, hlive.root_eq, hlive.frontier_eq, hlive.nextIndex_eq]
  latest_eq := hview.latest_eq.trans hlive.latest_eq.symm

/-- Fed the same leaves from the empty tree, a follower, an archive and the
view of the archive are interchangeable, and they stay so: they answer every
further run alike, and are interchangeable after it. -/
theorem accumulators_interchangeable (depth : Depth) (size viewSize : Nat)
    (fed : List Felt) :
    let live := feed (Follower.empty depth size) fed
    let full := feed (Archive.empty depth) fed
    let view := full.1.follower viewSize
    live.2 = full.2 ∧ Interchangeable live.1 view full.1 ∧
      ∀ more : List Felt,
        (feed live.1 more).2 = (feed full.1 more).2 ∧
          (feed view more).2 = (feed full.1 more).2 ∧
          Interchangeable (feed live.1 more).1 (feed view more).1
            (feed full.1 more).1 := by
  intro live full view
  have hle : (fed.take depth.capacity).length ≤ depth.capacity := List.length_take_le _ _
  have hfull : full.1 = Archive.padded depth (fed.take depth.capacity) :=
    Archive.fst_feed_empty depth fed
  obtain ⟨hanswers, hlive⟩ := Follower.feed_agrees
    (Follower.empty_agrees depth size) (Nat.zero_le _) fed
  rw [Archive.padded_nil] at hanswers hlive
  change live.1.Agrees full.1 at hlive
  have hview : view.Agrees full.1 := Archive.follower_agrees full.1 viewSize
  rw [hfull] at hlive hview ⊢
  refine ⟨hanswers, interchangeable_of_agrees hlive hview, fun more => ?_⟩
  obtain ⟨hliveMore, hliveAfter⟩ := Follower.feed_agrees hlive hle more
  obtain ⟨hviewMore, hviewAfter⟩ := Follower.feed_agrees hview hle more
  have hafter : (feed (Archive.padded depth (fed.take depth.capacity)) more).1 =
      Archive.padded depth ((fed.take depth.capacity ++ more).take depth.capacity) :=
    ((Archive.grows_padded depth).feed_holds rfl hle more).1
  rw [hafter] at hliveAfter hviewAfter ⊢
  exact ⟨hliveMore, hviewMore, interchangeable_of_agrees hliveAfter hviewAfter⟩

end ShieldedPool.Merkle
