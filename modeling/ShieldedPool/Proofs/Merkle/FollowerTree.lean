/-
A follower knows of an archive what its view does: the frontier entry of a
level is the last left node of the level, and the siblings of the latest leaf
are those of the archive.  Entries below the first left turn of the next path
are old, but they are exactly the nodes that the next right turns ask for.
-/
import ShieldedPool.Merkle.View
import ShieldedPool.Proofs.Merkle.ArchiveTree

namespace ShieldedPool.Merkle

theorem lastLeftNode_paddedLevel {leaves : List Felt} {height index : Nat}
    (hlast : (filled leaves.length height - 1) / 2 * 2 = index)
    (hindex : index < filled leaves.length height) :
    Archive.lastLeftNode (paddedLevel leaves height) = paddedNode leaves height index := by
  rw [Archive.lastLeftNode, length_paddedLevel, hlast, getD_paddedLevel hindex]

section Append

variable (leaves : List Felt) (leaf : Felt) {height : Nat}

/-- Where the path of the next leaf turns right, the entry is the node on the
left of the path. -/
theorem lastLeftNode_of_right (hright : leaves.length / 2 ^ height % 2 = 1) :
    Archive.lastLeftNode (paddedLevel leaves height) =
      paddedNode leaves height (leaves.length / 2 ^ height - 1) := by
  have hfilled := filled_eq_or leaves.length height
  generalize leaves.length / 2 ^ height = place at hright hfilled ⊢
  exact lastLeftNode_paddedLevel (by omega) (by omega)

theorem lastLeftNode_append_of_right (hright : leaves.length / 2 ^ height % 2 = 1) :
    Archive.lastLeftNode (paddedLevel (leaves ++ [leaf]) height) =
      Archive.lastLeftNode (paddedLevel leaves height) := by
  rw [lastLeftNode_of_right leaves hright, ← paddedNode_before_path leaves leaf height hright]
  apply lastLeftNode_paddedLevel
  all_goals
    rw [List.length_append, List.length_singleton, filled_succ]
    generalize leaves.length / 2 ^ height = place at hright ⊢
    omega

/-- A left turn puts the node of the path there. -/
theorem lastLeftNode_append_of_left (hleft : ¬ leaves.length / 2 ^ height % 2 = 1) :
    Archive.lastLeftNode (paddedLevel (leaves ++ [leaf]) height) =
      pathNode leaves leaf height := by
  apply lastLeftNode_paddedLevel
  all_goals
    rw [List.length_append, List.length_singleton, filled_succ]
    generalize leaves.length / 2 ^ height = place at hleft ⊢
    omega

theorem sibling_of_right (hright : leaves.length / 2 ^ height % 2 = 1) :
    paddedNode (leaves ++ [leaf]) height ((leaves.length >>> height) ^^^ 1) =
      Archive.lastLeftNode (paddedLevel leaves height) := by
  rw [Nat.shiftRight_eq_div_pow, Nat.xor_one_of_odd (Nat.odd_iff.2 hright),
    lastLeftNode_of_right leaves hright, paddedNode_before_path leaves leaf height hright]

theorem sibling_of_left (hleft : ¬ leaves.length / 2 ^ height % 2 = 1) :
    paddedNode (leaves ++ [leaf]) height ((leaves.length >>> height) ^^^ 1) =
      emptyNode height := by
  have heven : leaves.length / 2 ^ height % 2 = 0 := by omega
  rw [Nat.shiftRight_eq_div_pow, Nat.xor_one_of_even (Nat.even_iff.2 heven),
    paddedNode_right_of_path leaves leaf height (Nat.lt_succ_self _)]

/-- An ascent from the frontier of a list of leaves finds the nodes on the path
of the next leaf, and leaves the frontier of the longer list. -/
theorem ascend_paddedLevels (count height : Nat) :
    ascend height (leaves.length / 2 ^ height) (pathNode leaves leaf height)
        ((List.range' height count).map fun height =>
          Archive.lastLeftNode (paddedLevel leaves height)) =
      { frontier := (List.range' height count).map fun height =>
          Archive.lastLeftNode (paddedLevel (leaves ++ [leaf]) height)
        siblings := (List.range' height count).map fun height =>
          paddedNode (leaves ++ [leaf]) height ((leaves.length >>> height) ^^^ 1)
        root := pathNode leaves leaf (height + count) } := by
  induction count generalizing height with
  | zero => rfl
  | succ count ih =>
      have hup := ih (height + 1)
      rw [Nat.pow_succ, ← Nat.div_div_eq_div_mul, Nat.add_right_comm] at hup
      simp only [List.range'_succ, List.map_cons, ascend]
      split
      · next hright =>
          rw [lastLeftNode_of_right leaves hright,
            ← pathNode_succ_of_right leaves leaf height hright, hup,
            ← lastLeftNode_of_right leaves hright,
            lastLeftNode_append_of_right leaves leaf hright,
            sibling_of_right leaves leaf hright]
          rfl
      · next hleft =>
          rw [← pathNode_succ_of_left leaves leaf height hleft, hup,
            lastLeftNode_append_of_left leaves leaf hleft,
            sibling_of_left leaves leaf hleft]
          rfl

end Append

/-- A follower stands where the view of an archive does; only the roots that
it still accepts may be others. -/
structure Follower.Agrees (tree : Follower) (archive : Archive) : Prop where
  depth_eq : tree.depth = archive.depth
  frontier_eq : tree.frontier = archive.frontier
  root_eq : tree.root = archive.root
  nextIndex_eq : tree.nextIndex = archive.nextIndex
  latest_eq : tree.latest = archive.latestLeaf

theorem Archive.follower_agrees (archive : Archive) (size : Nat) :
    (archive.follower size).Agrees archive :=
  ⟨rfl, rfl, rfl, rfl, rfl⟩

namespace Archive

variable (depth : Depth) (leaves : List Felt)

theorem frontier_padded :
    (padded depth leaves).frontier =
      (List.range depth.levels).map fun height => lastLeftNode (paddedLevel leaves height) := by
  apply List.map_congr_left
  intro height hheight
  rw [level_padded depth leaves (Nat.le_of_lt (List.mem_range.1 hheight))]

theorem latestLeaf_padded_append (leaf : Felt) :
    (padded depth (leaves ++ [leaf])).latestLeaf =
      some ⟨leaves.length, paddedSiblings (leaves ++ [leaf]) depth.levels leaves.length⟩ := by
  rw [latestLeaf, nextIndex_padded, siblings_padded]
  simp

end Archive

namespace Follower

variable {depth : Depth} {leaves : List Felt} {tree : Follower}

theorem empty_agrees (depth : Depth) (size : Nat) :
    (empty depth size).Agrees (Archive.padded depth []) where
  depth_eq := rfl
  frontier_eq := by
    rw [Archive.frontier_padded]
    simp [empty, paddedLevel_nil, Archive.lastLeftNode]
  root_eq := by
    rw [Archive.root_padded, paddedRoot_nil, ← emptyNode_eq_emptyRoot]
    rfl
  nextIndex_eq := by
    rw [Archive.nextIndex_padded]
    rfl
  latest_eq := by
    rw [Archive.latestLeaf, Archive.nextIndex_padded]
    rfl

theorem insert_agrees (hagrees : tree.Agrees (Archive.padded depth leaves))
    (hroom : leaves.length < depth.capacity) (leaf : Felt) :
    ∃ after, tree.insert leaf = .ok (after, leaves.length) ∧
      after.Agrees (Archive.padded depth (leaves ++ [leaf])) := by
  obtain ⟨hdepth, hfrontier, _, hnext, _⟩ := hagrees
  rw [Archive.depth_padded] at hdepth
  rw [Archive.frontier_padded, List.range_eq_range'] at hfrontier
  rw [Archive.nextIndex_padded] at hnext
  have hascend := ascend_paddedLevels leaves leaf depth.levels 0
  rw [Nat.pow_zero, Nat.div_one, pathNode_zero, ← hfrontier] at hascend
  have htop : leaves.length / 2 ^ depth.levels = 0 := Nat.div_eq_of_lt hroom
  have hroot : pathNode leaves leaf (0 + depth.levels) =
      paddedRoot depth.levels (leaves ++ [leaf]) := by
    rw [Nat.zero_add, pathNode, htop, paddedNode_top]
  refine ⟨_, by rw [insert, hdepth, hnext, if_pos hroom, hascend], ?_⟩
  exact {
    depth_eq := rfl
    frontier_eq := by rw [Archive.frontier_padded, List.range_eq_range']
    root_eq := by rw [Archive.root_padded, ← hroot]
    nextIndex_eq := by simp
    latest_eq := by
      rw [Archive.latestLeaf_padded_append, paddedSiblings, List.range_eq_range'] }

theorem insert_agrees_full (hagrees : tree.Agrees (Archive.padded depth leaves))
    (hfull : leaves.length = depth.capacity) (leaf : Felt) :
    tree.insert leaf = .error (.treeFull depth.capacity) := by
  have hdepth := hagrees.depth_eq
  have hnext := hagrees.nextIndex_eq
  rw [Archive.depth_padded] at hdepth
  rw [Archive.nextIndex_padded] at hnext
  rw [insert, hdepth, hnext, if_neg (by omega)]

theorem grows_agrees (depth : Depth) :
    Grows depth.capacity
      (fun (tree : Follower) leaves => tree.Agrees (Archive.padded depth leaves)) where
  accepts hagrees hroom leaf := insert_agrees hagrees hroom leaf
  refuses hagrees hfull leaf := insert_agrees_full hagrees hfull leaf

/-- A follower that agrees with an archive proves the latest leaf as the
archive does, and no other. -/
theorem prove_of_agrees (hagrees : tree.Agrees (Archive.padded depth leaves))
    (index : UInt64) :
    tree.prove index =
      if index.toNat < leaves.length then
        if index.toNat + 1 = leaves.length then .ok (paddedProof depth leaves index)
        else .error (.proofUnavailable index.toNat)
      else .error (.leafAbsent index.toNat leaves.length) := by
  obtain ⟨hdepth, _, _, hnext, hlatest⟩ := hagrees
  rw [Archive.depth_padded] at hdepth
  rw [Archive.nextIndex_padded] at hnext
  rw [prove, hnext]
  split
  · next hindex =>
      have hlatest : tree.latest = some
          ⟨leaves.length - 1, paddedSiblings leaves depth.levels (leaves.length - 1)⟩ := by
        rw [hlatest, Archive.latestLeaf, Archive.nextIndex_padded, if_neg (by omega),
          Archive.siblings_padded]
      rw [hlatest]
      by_cases hlast : index.toNat + 1 = leaves.length
      · have hprevious : leaves.length - 1 = index.toNat := by omega
        simp only [if_pos hlast, hprevious, if_true, hdepth]
        rfl
      · have hother : ¬ leaves.length - 1 = index.toNat := by omega
        simp only [if_neg hlast, if_neg hother]
  · rfl

end Follower

end ShieldedPool.Merkle
