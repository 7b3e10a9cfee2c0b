/-
How many leaves a published state counts.  The check of a state climbs the path
of the last leaf, and with the empty nodes below its first left turn this is the
climb from a zero leaf along the path of the next one.  So a state at the root
of an honest tree counts every leaf that is not zero, and it may count zeros
behind them: a zero leaf does not change the root, and the state after it is
published like any other.  A mirror of the state behaves as the honest tree does
after these zeros.
-/
import ShieldedPool.Proofs.Merkle.RecentRoots
import ShieldedPool.Proofs.Merkle.RootCommitment
import ShieldedPool.Proofs.Merkle.SnapshotAuthority

namespace ShieldedPool.Merkle

/-- The pairs of children of empty nodes, from the one at a height down to the
leaves. -/
def emptyPairs (height count : Nat) : List (Felt × Felt) :=
  ((List.range' height count).map fun height => (emptyNode height, emptyNode height)).reverse

theorem emptyPairs_succ (height count : Nat) :
    emptyPairs height (count + 1) =
      emptyPairs (height + 1) count ++ [(emptyNode height, emptyNode height)] := by
  rw [emptyPairs, List.range'_succ, List.map_cons, List.reverse_cons, emptyPairs]

@[simp] theorem length_emptyPairs (height count : Nat) :
    (emptyPairs height count).length = count := by
  simp [emptyPairs]

section Next

variable {height last : Nat} {frontier : List Felt}

/-- Which of two children the climb comes from makes no difference. -/
theorem climb_swap (left right : Felt) : climb right (left, true) = climb left (right, false) := by
  rw [climb, climb, if_pos rfl, if_neg Bool.false_ne_true]

theorem climb_emptyNode (height : Nat) :
    climb (emptyNode height) (emptyNode height, false) = emptyNode (height + 1) := by
  rw [climb, if_neg Bool.false_ne_true, emptyNode_succ]

/-- The climb from an empty leaf in an empty tree meets empty nodes only. -/
theorem foldl_climb_empty (height : Nat) (frontier : List Felt) :
    (pathSteps height 0 frontier).foldl climb (emptyNode height) =
      emptyNode (height + frontier.length) := by
  induction frontier generalizing height with
  | nil => rfl
  | cons entry above ih =>
      rw [pathSteps_left _ _ (by decide), List.foldl_cons, climb_emptyNode, Nat.zero_div, ih,
        List.length_cons, Nat.add_right_comm, Nat.add_assoc]

/-- A root that the path of the last leaf implies is reached from an empty leaf
along the path of the next one. -/
theorem foldl_climb_next {root : Felt} (hroot : rootOfPath height last frontier = .ok (some root)) :
    (pathSteps height (last + 1) frontier).foldl climb (emptyNode height) = root := by
  -- below the first left turn of the last path, the next path turns left
  induction frontier generalizing height last with
  | nil => cases hroot
  | cons entry above ih =>
      rw [rootOfPath] at hroot
      by_cases hright : last % 2 = 1
      · rw [if_pos hright] at hroot
        rw [pathSteps_succ_of_right _ _ hright, List.foldl_cons, climb_emptyNode]
        exact ih hroot
      · rw [if_neg hright] at hroot
        obtain ⟨_, halong, ⟨⟩⟩ := map_eq_ok_iff.1 hroot
        have hclimb := foldl_climb_of_rootAlong halong
        rw [pathSteps_left _ _ hright, List.foldl_cons] at hclimb
        rw [pathSteps_succ_of_left _ _ hright, List.foldl_cons, climb_swap]
        exact hclimb

/-- The next path hashes the pairs of the check, and below them empty ones. -/
theorem trail_next (height last : Nat) (frontier : List Felt) :
    ∃ count, trail (emptyNode height) (pathSteps height (last + 1) frontier) =
      frontierTrail height last frontier ++ emptyPairs height count := by
  induction frontier generalizing height last with
  | nil => exact ⟨0, rfl⟩
  | cons entry above ih =>
      rw [frontierTrail]
      by_cases hright : last % 2 = 1
      · obtain ⟨count, hcount⟩ := ih (height + 1) (last / 2)
        refine ⟨count + 1, ?_⟩
        rw [if_pos hright, emptyPairs_succ, ← List.append_assoc, ← hcount,
          pathSteps_succ_of_right _ _ hright, trail, climb_emptyNode]
        rfl
      · refine ⟨0, ?_⟩
        rw [if_neg hright, pathSteps_succ_of_left _ _ hright, pathSteps_left _ _ hright]
        simp [trail, emptyPairs, climb, childPair]

theorem trail_empty (height : Nat) (frontier : List Felt) :
    trail (emptyNode height) (pathSteps height 0 frontier) = emptyPairs height frontier.length := by
  induction frontier generalizing height with
  | nil => rfl
  | cons entry above ih =>
      rw [pathSteps_left _ _ (by decide), List.length_cons, emptyPairs_succ, ← ih, trail,
        climb_emptyNode]
      rfl

end Next

namespace Snapshot

variable {snapshot : Snapshot} {depth : Depth} {leaves : List Felt}

/-- The pairs that the check of a state hashes and, from the first left turn
down, those of the empty nodes that it takes for the siblings there. -/
def nextTrail (snapshot : Snapshot) : List (Felt × Felt) :=
  snapshot.trail ++ emptyPairs 0 (snapshot.frontier.length - snapshot.trail.length)

/-- They are the pairs on the path of the next leaf, with zero as that leaf. -/
theorem nextTrail_eq (snapshot : Snapshot) :
    snapshot.nextTrail = Merkle.trail 0 (pathSteps 0 snapshot.nextIndex snapshot.frontier) := by
  obtain ⟨count, hcount⟩ : ∃ count,
      Merkle.trail 0 (pathSteps 0 snapshot.nextIndex snapshot.frontier) =
        snapshot.trail ++ emptyPairs 0 count := by
    rw [trail, ← emptyNode_zero]
    rcases Nat.eq_zero_or_pos snapshot.nextIndex with hempty | hsome
    · rw [if_pos hempty, hempty]
      exact ⟨_, trail_empty 0 snapshot.frontier⟩
    · rw [if_neg (Nat.pos_iff_ne_zero.1 hsome)]
      have hnext := trail_next 0 (snapshot.nextIndex - 1) snapshot.frontier
      rwa [Nat.sub_add_cancel hsome] at hnext
  have hlength := congrArg List.length hcount
  rw [length_trail, length_pathSteps, List.length_append, length_emptyPairs] at hlength
  rw [nextTrail, hcount, hlength, Nat.add_sub_cancel_left]

/-- A state that passes the check has zero as its next leaf. -/
theorem Sound.foldl_climb_next (hsound : snapshot.Sound depth)
    (hroom : snapshot.nextIndex < depth.capacity) :
    (pathSteps 0 snapshot.nextIndex snapshot.frontier).foldl climb 0 = snapshot.root := by
  rw [← emptyNode_zero]
  rcases Nat.eq_zero_or_pos snapshot.nextIndex with hempty | hsome
  · rw [hempty, foldl_climb_empty, Nat.zero_add, hsound.length_frontier,
      hsound.root_of_empty hempty, Depth.emptyRoot]
  · have hroot := Merkle.foldl_climb_next
      (hsound.rootOfPath_eq (Nat.pos_iff_ne_zero.1 hsome) hroom)
    rwa [Nat.sub_add_cancel hsome] at hroot

/-- At the root of a list of leaves, an accepted state finds zero at its next
index and the siblings of the tree around it. -/
theorem Sound.next_eq_or_trailsMeet (hsound : snapshot.Sound depth)
    (hroom : snapshot.nextIndex < depth.capacity)
    (hroot : snapshot.root = paddedRoot depth.levels leaves) :
    (leaves.getD snapshot.nextIndex 0 = 0 ∧
        pathSteps 0 snapshot.nextIndex snapshot.frontier =
          paddedSteps leaves snapshot.nextIndex 0 depth.levels) ∨
      TrailsMeet snapshot.nextTrail (paddedTrail leaves snapshot.nextIndex depth.levels) := by
  have hclimb := (hsound.foldl_climb_next hroom).trans hroot
  have hlength : (pathSteps 0 snapshot.nextIndex snapshot.frontier).length = depth.levels := by
    rw [length_pathSteps, hsound.length_frontier]
  have hplace : bitsValue ((pathSteps 0 snapshot.nextIndex snapshot.frontier).map Prod.snd) =
      snapshot.nextIndex := by
    rw [map_snd_pathSteps_eq, hsound.length_frontier, bitsValue_pathBits hroom]
  rw [nextTrail_eq, ← paddedNode_zero]
  exact (eq_leaf_or_trailsMeet hroom hlength hplace hclimb).imp_left fun hnext =>
    ⟨hnext.1.symm, hnext.2⟩

/-- Without a zero among them, none of these leaves is left out of the count. -/
theorem Sound.length_le_or_trailsMeet (hsound : snapshot.Sound depth)
    (hroom : snapshot.nextIndex < depth.capacity)
    (hroot : snapshot.root = paddedRoot depth.levels leaves) (hnonzero : 0 ∉ leaves) :
    (leaves.length ≤ snapshot.nextIndex ∧
        pathSteps 0 snapshot.nextIndex snapshot.frontier =
          paddedSteps leaves snapshot.nextIndex 0 depth.levels) ∨
      TrailsMeet snapshot.nextTrail (paddedTrail leaves snapshot.nextIndex depth.levels) := by
  refine (hsound.next_eq_or_trailsMeet hroom hroot).imp_left ?_
  rintro ⟨hzero, hsteps⟩
  refine ⟨?_, hsteps⟩
  by_contra hshort
  rw [List.getD_eq_getElem _ _ (Nat.not_le.1 hshort)] at hzero
  exact hnonzero (hzero ▸ List.getElem_mem _)

end Snapshot

section Zeros

variable {depth : Depth} {leaves : List Felt}

theorem paddedNode_append_zeros (count height index : Nat) :
    paddedNode (leaves ++ List.replicate count 0) height index =
      paddedNode leaves height index := by
  apply paddedRoot_congr
  intro below _
  have hplace := @getD_append_zeros (index * 2 ^ height + below) leaves count
  simpa only [List.getD_eq_getElem?_getD, List.getElem?_drop] using hplace

theorem paddedRoot_append_zeros (count height : Nat) :
    paddedRoot height (leaves ++ List.replicate count 0) = paddedRoot height leaves := by
  rw [← paddedNode_top, paddedNode_append_zeros, paddedNode_top]

/-- The frontier of a tree has the siblings of its next leaf. -/
theorem Follower.Agrees.pathSteps_eq {tree : Follower}
    (hagrees : tree.Agrees (Archive.padded depth leaves)) :
    pathSteps 0 leaves.length tree.frontier = paddedSteps leaves leaves.length 0 depth.levels := by
  have hfrontier := hagrees.frontier_eq
  rw [Archive.frontier_padded, List.range_eq_range'] at hfrontier
  have hascend := ascend_paddedLevels leaves 0 depth.levels 0
  rw [Nat.pow_zero, Nat.div_one, ← hfrontier] at hascend
  have hsiblings : (pathSteps 0 leaves.length tree.frontier).map Prod.fst =
      (paddedSteps leaves leaves.length 0 depth.levels).map Prod.fst := by
    rw [← siblings_ascend 0 leaves.length (pathNode leaves 0 0), hascend, paddedSteps, List.map_map]
    apply List.map_congr_left
    intro height _
    exact paddedNode_append_zeros 1 height _
  have hsides : (pathSteps 0 leaves.length tree.frontier).map Prod.snd =
      (paddedSteps leaves leaves.length 0 depth.levels).map Prod.snd := by
    rw [map_snd_pathSteps_eq, map_snd_paddedSteps, Nat.pow_zero, Nat.div_one, hfrontier,
      List.length_map, List.length_range']
  calc pathSteps 0 leaves.length tree.frontier
    _ = ((pathSteps 0 leaves.length tree.frontier).map Prod.fst).zip
          ((pathSteps 0 leaves.length tree.frontier).map Prod.snd) := List.zip_of_prod rfl rfl
    _ = paddedSteps leaves leaves.length 0 depth.levels := by
        rw [hsiblings, hsides]
        exact (List.zip_of_prod rfl rfl).symm

end Zeros

/-- A mirror that finds the siblings of the honest tree on its next path has the
future of that tree after as many zeros as the state counts. -/
theorem Follower.sameFuture_of_steps {depth : Depth} {leaves : List Felt} {after other : Follower}
    {count : Nat} (hdepth : after.depth = depth)
    (hroot : after.root = paddedRoot depth.levels leaves)
    (hnext : after.nextIndex = (leaves ++ List.replicate count 0).length)
    (hsteps : pathSteps 0 after.nextIndex after.frontier =
      paddedSteps leaves after.nextIndex 0 depth.levels)
    (hagrees : other.Agrees (Archive.padded depth (leaves ++ List.replicate count 0))) :
    SameFuture after other := by
  have hnext' := hagrees.nextIndex_eq
  rw [Archive.nextIndex_padded] at hnext'
  have hother := hagrees.pathSteps_eq
  apply Follower.Alike.sameFuture
  exact {
    depth_eq := hdepth.trans hagrees.depth_eq.symm
    root_eq := by
      rw [hroot, hagrees.root_eq, Archive.root_padded, paddedRoot_append_zeros]
    nextIndex_eq := hnext.trans hnext'.symm
    steps_eq := by
      intro _
      rw [hsteps, hnext', hother, hnext, paddedSteps, paddedSteps]
      apply List.map_congr_left
      intro height _
      rw [paddedNode_append_zeros] }

/-- The honest tree over some leaves with zeros behind them, up to a count. -/
def Follower.filledTo (depth : Depth) (size : Nat) (fed : List Felt) (count : Nat) : Follower :=
  (feed (Follower.empty depth size) (fed ++ List.replicate (count - fed.length) 0)).1

section Filled

variable {depth : Depth} {size count : Nat} {fed : List Felt}

theorem length_filled (hcount : fed.length ≤ count) :
    (fed ++ List.replicate (count - fed.length) 0).length = count := by
  rw [List.length_append, List.length_replicate, Nat.add_sub_cancel' hcount]

theorem Follower.filledTo_agrees (hcount : fed.length ≤ count) (hle : count ≤ depth.capacity) :
    (filledTo depth size fed count).Agrees
      (Archive.padded depth (fed ++ List.replicate (count - fed.length) 0)) := by
  have hfits := (Nat.le_of_eq (length_filled hcount)).trans hle
  have hfed := feed_empty_agrees depth size (fed ++ List.replicate (count - fed.length) 0)
  rwa [Archive.fst_feed_empty, List.take_of_length_le hfits] at hfed

theorem Follower.root_filledTo (hcount : fed.length ≤ count) (hle : count ≤ depth.capacity) :
    (filledTo depth size fed count).root = paddedRoot depth.levels fed := by
  rw [(filledTo_agrees hcount hle).root_eq, Archive.root_padded, paddedRoot_append_zeros]

theorem Follower.nextIndex_filledTo (hcount : fed.length ≤ count) (hle : count ≤ depth.capacity) :
    (filledTo depth size fed count).nextIndex = count := by
  rw [(filledTo_agrees hcount hle).nextIndex_eq, Archive.nextIndex_padded, length_filled hcount]

theorem Follower.filledTo_self (depth : Depth) (size : Nat) (fed : List Felt) :
    filledTo depth size fed fed.length = (feed (Follower.empty depth size) fed).1 := by
  rw [filledTo, Nat.sub_self, List.replicate_zero, List.append_nil]

end Filled

/-- What a state at the root of an honest tree counts, if a mirror accepts it:
every leaf that is not zero, and possibly zeros behind them.  The mirror has the
future of the honest tree after these zeros, or the next path of the state and
that of the honest tree hash two different pairs of children, equally far below
the root, to one node.  All these counts are accepted with some frontier. -/
theorem accepted_state_counts_leaves (depth : Depth) (size : Nat) {fed : List Felt}
    (hroom : fed.length < depth.capacity) (hnonzero : 0 ∉ fed) :
    let live := (feed (Follower.empty depth size) fed).1
    let full := (feed (Archive.empty depth) fed).1
    (∀ (mirror after : Follower) (snapshot : Snapshot), mirror.depth = depth →
      snapshot.root = live.root → snapshot.nextIndex < depth.capacity →
      mirror.importState snapshot = .ok after →
        (fed.length ≤ snapshot.nextIndex ∧
            SameFuture after (Follower.filledTo depth size fed snapshot.nextIndex)) ∨
          TrailsMeet snapshot.nextTrail (full.trail snapshot.nextIndex)) ∧
    ∀ count, fed.length ≤ count → count < depth.capacity →
      ∃ snapshot, snapshot.root = live.root ∧ snapshot.nextIndex = count ∧
        ∀ mirror : Follower, mirror.depth = depth →
          ∃ after, mirror.importState snapshot = .ok after := by
  intro live full
  have hlive : live.root = paddedRoot depth.levels fed := by
    rw [← Follower.root_filledTo (Nat.le_refl _) (Nat.le_of_lt hroom), Follower.filledTo_self]
  constructor
  · intro mirror after snapshot hdepth hroot hnext haccepted
    obtain ⟨hsound, rfl⟩ := Follower.importState_eq_ok_iff.1 haccepted
    rw [hdepth] at hsound
    have hfull : full = Archive.padded depth fed := by
      rw [← List.take_of_length_le (Nat.le_of_lt hroom)]
      exact Archive.fst_feed_empty depth fed
    rw [hfull, Archive.trail_padded]
    refine (hsound.length_le_or_trailsMeet hnext (hroot.trans hlive) hnonzero).imp_left ?_
    rintro ⟨hcount, hsteps⟩
    exact ⟨hcount, Follower.sameFuture_of_steps hdepth (hroot.trans hlive)
      (length_filled hcount).symm hsteps
      (Follower.filledTo_agrees hcount (Nat.le_of_lt hnext))⟩
  · intro count hcount hnext
    refine ⟨(Follower.filledTo depth size fed count).snapshot, ?_, ?_, ?_⟩
    · exact (Follower.root_filledTo hcount (Nat.le_of_lt hnext)).trans hlive.symm
    · exact Follower.nextIndex_filledTo hcount (Nat.le_of_lt hnext)
    · intro mirror hdepth
      exact ⟨_, mirror.importState_of_sound (hdepth ▸ (Follower.publishable_feed depth size _).2)⟩

section Example

theorem single_below_capacity (leaf : Felt) : [leaf].length < twoLevels.capacity :=
  show 1 < 2 ^ 2 by decide

/-- After one leaf the counts one and two are accepted, and a mirror of either
has the future of the tree with a zero or without. -/
theorem accepted_state_counts_single :
    let live := (feed (Follower.empty twoLevels 1) [7]).1
    let full := (feed (Archive.empty twoLevels) [7]).1
    (∃ after, (Follower.empty twoLevels 1).importState live.snapshot = .ok after ∧
      ((1 ≤ live.snapshot.nextIndex ∧ SameFuture after (Follower.filledTo twoLevels 1 [7] 1)) ∨
        TrailsMeet live.snapshot.nextTrail (full.trail 1))) ∧
    ∃ snapshot, snapshot.root = live.root ∧ snapshot.nextIndex = 2 ∧
      ∃ after, (Follower.empty twoLevels 1).importState snapshot = .ok after := by
  intro live full
  have hnonzero : (0 : Felt) ∉ [(7 : Felt)] := by decide
  obtain ⟨hcounts, haccepts⟩ :=
    accepted_state_counts_leaves twoLevels 1 (single_below_capacity 7) hnonzero
  constructor
  · have hsound : live.snapshot.Sound twoLevels := (Follower.publishable_feed twoLevels 1 [7]).2
    have haccepted := (Follower.empty twoLevels 1).importState_of_sound hsound
    exact ⟨_, haccepted, hcounts _ _ _ rfl rfl (single_below_capacity 7) haccepted⟩
  · obtain ⟨snapshot, hroot, hnext, haccepted⟩ :=
      haccepts 2 (by decide) (show 2 < 2 ^ 2 by decide)
    exact ⟨snapshot, hroot, hnext, haccepted _ rfl⟩

/-- The published state of the tree over the leaf 7, with the count raised to two. -/
def raisedCount : Snapshot :=
  { (feed (Follower.empty twoLevels 1) [7]).1.snapshot with nextIndex := 2 }

/-- It is the state behind a zero leaf. -/
theorem raisedCount_eq : raisedCount = (Follower.filledTo twoLevels 1 [7] 2).snapshot := by
  have htwo : 2 ≤ twoLevels.capacity := show 2 ≤ 2 ^ 2 by decide
  have hroot : raisedCount.root = (Follower.filledTo twoLevels 1 [7] 2).snapshot.root := by
    calc (Follower.filledTo twoLevels 1 [7] 1).root
      _ = paddedRoot twoLevels.levels [7] :=
          Follower.root_filledTo (by decide) (Nat.le_of_succ_le htwo)
      _ = (Follower.filledTo twoLevels 1 [7] 2).root :=
          (Follower.root_filledTo (by decide) htwo).symm
  have hfrontier : raisedCount.frontier =
      (Follower.filledTo twoLevels 1 [7] 2).snapshot.frontier := by
    rw [show raisedCount.frontier = [7, node 7 (emptyNode 0)] from rfl, emptyNode_zero]
    rfl
  exact congrArg₂ (Snapshot.mk · · 2) hroot hfrontier

/-- Among the pairs that this state and the tree over the leaf 7 hash, no two
different ones have one node. -/
theorem raisedCount_without_collision :
    ∀ pair ∈ raisedCount.nextTrail, ∀ index < 4,
      ∀ pair' ∈ (feed (Archive.empty twoLevels) [7]).1.trail index,
        node pair.1 pair.2 = node pair'.1 pair'.2 → pair = pair' := by
  obtain ⟨-, hleaves, -, hleft, hright⟩ := pairNodes_distinct
  have hnext : raisedCount.nextTrail = [(node 7 0, node 0 0), (0, 0)] := by
    rw [show raisedCount.nextTrail =
      [(node 7 (emptyNode 0), emptyNode 1), (emptyNode 0, emptyNode 0)] from rfl, emptyNode_succ,
      emptyNode_zero]
  have htree : ∀ index < 4, paddedTrail [7] index 2 = [(node 7 0, node 0 0), (7, 0)] ∨
      paddedTrail [7] index 2 = [(node 7 0, node 0 0), (0, 0)] := by
    intro index hindex
    obtain rfl | rfl | rfl | rfl : index = 0 ∨ index = 1 ∨ index = 2 ∨ index = 3 := by omega
    · exact .inl rfl
    · exact .inl rfl
    · exact .inr rfl
    · exact .inr rfl
  intro pair hpair index hindex pair' hpair' hnode
  rw [Archive.fst_feed_empty, Archive.trail_padded] at hpair'
  change pair' ∈ paddedTrail [7] index 2 at hpair'
  rw [hnext, List.mem_pair] at hpair
  rcases htree index hindex with htrail | htrail
  · rw [htrail, List.mem_pair] at hpair'
    rcases hpair with rfl | rfl <;> rcases hpair' with rfl | rfl
    · rfl
    · exact absurd hnode hleft
    · exact absurd hnode.symm hright
    · exact absurd hnode hleaves
  · rw [htrail, List.mem_pair] at hpair'
    rcases hpair with rfl | rfl <;> rcases hpair' with rfl | rfl
    · rfl
    · exact absurd hnode hright
    · exact absurd hnode.symm hright
    · rfl

/-- The raised count is accepted at the root of the tree over the leaf 7, without
a collision, and the next leaf lands on another index than in that tree. -/
theorem raised_count_accepted :
    let live := (feed (Follower.empty twoLevels 1) [7]).1
    let full := (feed (Archive.empty twoLevels) [7]).1
    raisedCount.root = live.root ∧ raisedCount.nextIndex < twoLevels.capacity ∧
      raisedCount.nextIndex ≠ live.nextIndex ∧
      (∃ after, (Follower.empty twoLevels 1).importState raisedCount = .ok after ∧
        ∀ leaf, (feed live [leaf]).2 = [.ok 1] ∧ (feed after [leaf]).2 = [.ok 2]) ∧
      ∀ pair ∈ raisedCount.nextTrail, ∀ index < 4, ∀ pair' ∈ full.trail index,
        node pair.1 pair.2 = node pair'.1 pair'.2 → pair = pair' := by
  intro live full
  have hsound : raisedCount.Sound twoLevels := by
    rw [raisedCount_eq]
    exact (Follower.publishable_feed twoLevels 1 [7, 0]).2
  refine ⟨rfl, show 2 < 2 ^ 2 by decide, show 2 ≠ 1 by decide, ?_, raisedCount_without_collision⟩
  exact ⟨_, (Follower.empty twoLevels 1).importState_of_sound hsound, fun leaf => ⟨rfl, rfl⟩⟩

end Example

end ShieldedPool.Merkle
