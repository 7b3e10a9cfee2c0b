/-
A root settles the future of a published state.  Two states with one count and
one root, both accepted, may differ in entries that the check does not read;
the next insertion does not read those either.  The entries that it does read
are children in the climb that the check makes, so the root fixes them, or the
two climbs hash two different pairs of children to one node.
-/
import ShieldedPool.Proofs.Merkle.FollowerRun

namespace ShieldedPool.Merkle

/-- The pairs that the check of a frontier hashes, from the root down. -/
def frontierTrail : (height index : Nat) → List Felt → List (Felt × Felt)
  | _, _, [] => []
  | height, index, entry :: above =>
      if index % 2 = 1 then frontierTrail (height + 1) (index / 2) above
      else trail entry (pathSteps height index (entry :: above))

/-- The pairs that the check of a state hashes, which are none for the empty
tree. -/
def Snapshot.trail (snapshot : Snapshot) : List (Felt × Felt) :=
  if snapshot.nextIndex = 0 then []
  else frontierTrail 0 (snapshot.nextIndex - 1) snapshot.frontier

/-- Frontiers that imply one root along the path of the last leaf hold the same
siblings for the path of the next one. -/
theorem pathSteps_succ_eq_or_trailsMeet {height last : Nat} {frontier frontier' : List Felt}
    {root : Felt} (hlength : frontier.length = frontier'.length)
    (hroot : rootOfPath height last frontier = .ok (some root))
    (hroot' : rootOfPath height last frontier' = .ok (some root)) :
    pathSteps height (last + 1) frontier = pathSteps height (last + 1) frontier' ∨
      TrailsMeet (frontierTrail height last frontier)
        (frontierTrail height last frontier') := by
  -- below the first left turn of the last path, the next path turns left
  induction frontier generalizing frontier' height last with
  | nil =>
      rw [List.eq_nil_of_length_eq_zero hlength.symm]
      exact .inl rfl
  | cons entry above ih =>
      cases frontier' with
      | nil => simp at hlength
      | cons entry' above' =>
          have habove : above.length = above'.length := Nat.succ.inj hlength
          by_cases hright : last % 2 = 1
          · rw [rootOfPath, if_pos hright] at hroot hroot'
            rw [pathSteps_succ_of_right _ _ hright, pathSteps_succ_of_right _ _ hright,
              frontierTrail, frontierTrail, if_pos hright, if_pos hright]
            exact (ih habove hroot hroot').imp_left (congrArg (_ :: ·))
          · rw [rootOfPath, if_neg hright] at hroot hroot'
            obtain ⟨_, halong, ⟨⟩⟩ := map_eq_ok_iff.1 hroot
            obtain ⟨_, halong', ⟨⟩⟩ := map_eq_ok_iff.1 hroot'
            have hclimb := (foldl_climb_of_rootAlong halong).trans
              (foldl_climb_of_rootAlong halong').symm
            rw [frontierTrail, frontierTrail, if_neg hright, if_neg hright]
            rcases eq_or_trailsMeet (map_snd_pathSteps hlength height last) hclimb with
              ⟨hentry, hsteps⟩ | hmeet
            · left
              rw [pathSteps_left _ _ hright, pathSteps_left _ _ hright] at hsteps
              obtain ⟨-, hrest⟩ := List.cons.inj hsteps
              rw [pathSteps_succ_of_left _ _ hright, pathSteps_succ_of_left _ _ hright, hentry,
                hrest]
            · exact .inr hmeet

namespace Snapshot

variable {depth : Depth} {snapshot other : Snapshot}

/-- Between the empty and the full tree the frontier implies the root. -/
theorem Sound.rootOfPath_eq (hsound : snapshot.Sound depth) (hsome : snapshot.nextIndex ≠ 0)
    (hroom : snapshot.nextIndex < depth.capacity) :
    rootOfPath 0 (snapshot.nextIndex - 1) snapshot.frontier = .ok (some snapshot.root) := by
  obtain ⟨derived, hpath, hroot⟩ := hsound.root_of_path hsome
  cases derived with
  | none =>
      have hdvd := dvd_of_rootOfPath_eq_none hpath
      rw [hsound.length_frontier, Nat.sub_add_cancel (Nat.pos_of_ne_zero hsome)] at hdvd
      exact absurd (Nat.le_of_dvd (Nat.pos_of_ne_zero hsome) hdvd) (Nat.not_le.2 hroom)
  | some root =>
      rw [hpath, hroot root rfl]

/-- Where the last path starts with a right turn, the entry of the leaf level is
not read. -/
theorem Sound.of_unread_entry (hsound : snapshot.Sound depth) {entry : Felt}
    {above : List Felt} (hfrontier : snapshot.frontier = entry :: above)
    (hright : (snapshot.nextIndex - 1) % 2 = 1) (replaced : Felt) :
    ({ snapshot with frontier := replaced :: above } : Snapshot).Sound depth := by
  obtain ⟨hlength, hle, hempty, hpath⟩ := hsound
  rw [hfrontier] at hlength hpath
  refine ⟨hlength, hle, hempty, ?_⟩
  intro hsome
  simp only [rootOfPath, if_pos hright] at hpath ⊢
  exact hpath hsome

theorem steps_eq_or_trailsMeet (hsound : snapshot.Sound depth) (hsound' : other.Sound depth)
    (hroot : snapshot.root = other.root) (hnext : snapshot.nextIndex = other.nextIndex)
    (hroom : snapshot.nextIndex < depth.capacity) :
    pathSteps 0 snapshot.nextIndex snapshot.frontier =
        pathSteps 0 other.nextIndex other.frontier ∨
      TrailsMeet snapshot.trail other.trail := by
  have hlength := hsound.length_frontier.trans hsound'.length_frontier.symm
  by_cases hempty : snapshot.nextIndex = 0
  · left
    rw [← hnext, hempty]
    exact pathSteps_zero hlength 0
  · have himplied := hsound.rootOfPath_eq hempty hroom
    have himplied' := hsound'.rootOfPath_eq (hnext ▸ hempty) (hnext ▸ hroom)
    rw [← hroot, ← hnext] at himplied'
    have hsteps := pathSteps_succ_eq_or_trailsMeet hlength himplied himplied'
    rw [Nat.sub_add_cancel (Nat.pos_of_ne_zero hempty)] at hsteps
    rw [trail, trail, ← hnext, if_neg hempty, if_neg hempty]
    exact hsteps

end Snapshot

/-- Followers that would publish one root and count are alike, or the checks of
what they would publish meet in a collision. -/
theorem Follower.alike_or_trailsMeet {depth : Depth} {tree other : Follower}
    (htree : Publishable depth tree) (hother : Publishable depth other)
    (hroot : tree.root = other.root) (hnext : tree.nextIndex = other.nextIndex) :
    tree.Alike other ∨ TrailsMeet tree.snapshot.trail other.snapshot.trail := by
  obtain ⟨hdepth, hsound⟩ := htree
  obtain ⟨hdepth', hsound'⟩ := hother
  by_cases hroom : tree.nextIndex < depth.capacity
  · refine (Snapshot.steps_eq_or_trailsMeet hsound hsound' hroot hnext hroom).imp_left ?_
    intro hsteps
    exact ⟨hdepth.trans hdepth'.symm, hroot, hnext, fun _ => hsteps⟩
  · left
    refine ⟨hdepth.trans hdepth'.symm, hroot, hnext, ?_⟩
    rw [hdepth]
    intro hroom'
    exact absurd hroom' hroom

/-- An accepted import leaves a tree that would publish the state again. -/
theorem Follower.publishable_of_importState {tree after : Follower} {snapshot : Snapshot}
    (haccepted : tree.importState snapshot = .ok after) :
    Publishable tree.depth after ∧ after.snapshot = snapshot := by
  obtain ⟨hsound, rfl⟩ := importState_eq_ok_iff.1 haccepted
  exact ⟨⟨rfl, hsound⟩, rfl⟩

/-- Accepted states with one root and count give mirrors with one future; in
particular a mirror at the root and count of an honest tree, kept either way,
has the future of that tree.  Otherwise the checks of the two frontiers hash two
different pairs of children, equally far below the root, to one node. -/
theorem root_authenticates_future (depth : Depth) :
    (∀ (mirror mirror' after after' : Follower) (snapshot other : Snapshot),
      mirror.depth = depth → mirror'.depth = depth →
      snapshot.root = other.root → snapshot.nextIndex = other.nextIndex →
      mirror.importState snapshot = .ok after → mirror'.importState other = .ok after' →
        SameFuture after after' ∨ TrailsMeet snapshot.trail other.trail) ∧
    ∀ (size : Nat) (fed : List Felt) (mirror after : Follower) (snapshot : Snapshot),
      let live := (feed (Follower.empty depth size) fed).1
      let full := (feed (Archive.empty depth) fed).1
      mirror.depth = depth →
      snapshot.root = full.root → snapshot.nextIndex = full.nextIndex →
      mirror.importState snapshot = .ok after →
        (SameFuture after live ∧ SameFuture after full) ∨
          TrailsMeet snapshot.trail live.snapshot.trail := by
  constructor
  · intro mirror mirror' after after' snapshot other hdepth hdepth' hroot hnext haccepted
      haccepted'
    obtain ⟨hafter, rfl⟩ := Follower.publishable_of_importState haccepted
    obtain ⟨hafter', rfl⟩ := Follower.publishable_of_importState haccepted'
    rw [hdepth] at hafter
    rw [hdepth'] at hafter'
    exact (Follower.alike_or_trailsMeet hafter hafter' hroot hnext).imp_left
      Follower.Alike.sameFuture
  · intro size fed mirror after snapshot live full hdepth hroot hnext haccepted
    have hle : (fed.take depth.capacity).length ≤ depth.capacity := List.length_take_le _ _
    have hfull : full = Archive.padded depth (fed.take depth.capacity) :=
      Archive.fst_feed_empty depth fed
    have hagrees : live.Agrees full := Follower.feed_empty_agrees depth size fed
    obtain ⟨hafter, rfl⟩ := Follower.publishable_of_importState haccepted
    rw [hdepth] at hafter
    rcases Follower.alike_or_trailsMeet hafter (Follower.publishable_feed depth size fed)
      (hroot.trans hagrees.root_eq.symm) (hnext.trans hagrees.nextIndex_eq.symm) with
      halike | hmeet
    · left
      have hlive : SameFuture after live := halike.sameFuture
      rw [hfull] at hagrees ⊢
      exact ⟨hlive, hlive.trans (hagrees.sameFuture hle)⟩
    · exact .inr hmeet

/-- After two leaves the entry of the leaf level can be any value. -/
theorem root_authenticates_future_of_unread :
    let depth : Depth := ⟨2, by decide, by decide⟩
    let live := (feed (Follower.empty depth 1) [7, 5]).1
    let full := (feed (Archive.empty depth) [7, 5]).1
    let tampered : Snapshot :=
      { live.snapshot with frontier := 9 :: live.snapshot.frontier.tail }
    tampered.frontier ≠ live.snapshot.frontier ∧
      tampered.root = full.root ∧ tampered.nextIndex = full.nextIndex ∧
      ∃ after after',
        (Follower.empty depth 1).importState tampered = .ok after ∧
        (Follower.empty depth 1).importState live.snapshot = .ok after' ∧
        (SameFuture after after' ∨ TrailsMeet tampered.trail live.snapshot.trail) ∧
        ((SameFuture after live ∧ SameFuture after full) ∨
          TrailsMeet tampered.trail live.snapshot.trail) := by
  intro depth live full tampered
  have hsound : live.snapshot.Sound depth := (Follower.publishable_feed depth 1 [7, 5]).2
  have hagrees : live.Agrees full := Follower.feed_empty_agrees depth 1 [7, 5]
  have hfrontier : live.snapshot.frontier = 7 :: live.snapshot.frontier.tail := rfl
  have hne : tampered.frontier ≠ live.snapshot.frontier := by
    rw [hfrontier]
    intro hsame
    exact absurd (List.cons.inj hsame).1 (by decide)
  have hunread : tampered.Sound depth := hsound.of_unread_entry hfrontier rfl 9
  have haccepted := (Follower.empty depth 1).importState_of_sound hunread
  have haccepted' := (Follower.empty depth 1).importState_of_sound hsound
  refine ⟨hne, hagrees.root_eq, hagrees.nextIndex_eq, _, _, haccepted, haccepted', ?_, ?_⟩
  · exact (root_authenticates_future depth).1 _ _ _ _ _ _ rfl rfl rfl rfl haccepted haccepted'
  · exact (root_authenticates_future depth).2 1 [7, 5] _ _ _ rfl hagrees.root_eq
      hagrees.nextIndex_eq haccepted

end ShieldedPool.Merkle
