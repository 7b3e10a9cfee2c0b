/-
An archive refines the tree over its leaves.  After every run of insertions
its levels hold exactly the nodes that cover a leaf, its root is the root of
the zero-padded tree, and every inserted leaf is proved at its index.
-/
import ShieldedPool.Proofs.Merkle.ArchiveTree

namespace ShieldedPool.Merkle

/-- The archive has the nodes, the root and the proofs of the tree over a list
of leaves. -/
structure Archive.Refines (tree : Archive) (depth : Depth) (leaves : List Felt) :
    Prop where
  depth_eq : tree.depth = depth
  length_levels : tree.levels.length = depth.levels + 1
  leaves_eq : tree.leaves = leaves
  /-- A level has a node for every subtree with a leaf. -/
  length_level : ∀ height ≤ depth.levels,
    (tree.level height).length = leaves.length ⌈/⌉ 2 ^ height
  /-- The next leaf overwrites the last node of a level or comes right behind. -/
  next_place : ∀ height ≤ depth.levels,
    (tree.level height).length = leaves.length / 2 ^ height ∨
      (tree.level height).length = leaves.length / 2 ^ height + 1
  getElem_level : ∀ height ≤ depth.levels, ∀ index,
    ∀ hindex : index < (tree.level height).length,
      (tree.level height)[index] = paddedNode leaves height index
  root_eq : tree.root = paddedRoot depth.levels leaves
  prove_inserted : ∀ index : UInt64, index.toNat < leaves.length →
    ∃ proof, tree.prove index = .ok proof ∧ proof.leafIndex = index ∧
      proof.pathIndex = .ok index ∧
      proof.verifyStrict depth.levels (leaves.getD index.toNat 0) tree.root = .ok true
  prove_absent : ∀ index : UInt64, leaves.length ≤ index.toNat →
    tree.prove index = .error (.leafAbsent index.toNat leaves.length)
  insert_full : leaves.length = depth.capacity →
    ∀ leaf, tree.insert leaf = .error (.treeFull depth.capacity)

theorem Archive.refines_padded {depth : Depth} {leaves : List Felt}
    (hle : leaves.length ≤ depth.capacity) :
    (Archive.padded depth leaves).Refines depth leaves where
  depth_eq := rfl
  length_levels := by simp [Archive.padded]
  leaves_eq := Archive.leaves_padded depth leaves
  length_level height hheight := by
    rw [Archive.level_padded depth leaves hheight, length_paddedLevel, filled]
  next_place height hheight := by
    rw [Archive.level_padded depth leaves hheight, length_paddedLevel]
    exact filled_eq_or leaves.length height
  getElem_level height hheight index hindex := by
    have hlevel := Archive.level_padded depth leaves hheight
    simp only [hlevel, paddedLevel, List.getElem_map, List.getElem_range]
  root_eq := Archive.root_padded depth leaves
  prove_inserted index hindex := by
    have hcapacity : index.toNat < depth.capacity := Nat.lt_of_lt_of_le hindex hle
    have hleaf : leaves[index.toNat]? = some (leaves.getD index.toNat 0) := by
      simp [List.getD_eq_getElem?_getD, hindex]
    refine ⟨paddedProof depth leaves index, ?_, rfl, ?_, ?_⟩
    · rw [Archive.prove_padded, if_pos hindex]
    · exact pathIndex_paddedProof hcapacity leaves
    · rw [Archive.root_padded]
      exact verifyStrict_paddedProof hcapacity hleaf
  prove_absent index hindex := by
    rw [Archive.prove_padded, if_neg (Nat.not_lt.2 hindex)]
  insert_full hfull leaf := Archive.insert_padded_full depth leaves hfull leaf

/-- Leaves that are in an archive stay where they are. -/
theorem Archive.leaf?_feed_padded {depth : Depth} {leaves : List Felt}
    (hle : leaves.length ≤ depth.capacity) (more : List Felt) {index : Nat}
    (hindex : index < leaves.length) :
    (feed (Archive.padded depth leaves) more).1.leaf? index =
      (Archive.padded depth leaves).leaf? index := by
  obtain ⟨htree, _⟩ := (Archive.grows_padded depth).feed_holds rfl hle more
  rw [htree, Archive.leaf?_padded, Archive.leaf?_padded,
    List.getElem?_take_of_lt (Nat.lt_of_lt_of_le hindex hle),
    List.getElem?_append_left hindex]

/-- After any run of insertions into the empty archive, it refines the tree
over the leaves that it had room for; the insertions have answered with their
indices, those into a full tree with its capacity, and no further insertion
changes a leaf that is there. -/
theorem archive_refines_padded_tree (depth : Depth) (fed : List Felt) :
    let run := feed (Archive.empty depth) fed
    let leaves := fed.take depth.capacity
    run.1.Refines depth leaves ∧
      run.2 = (List.range fed.length).map (fun count =>
        if count < depth.capacity then .ok count
        else .error (.treeFull depth.capacity)) ∧
      ∀ (more : List Felt) (index : Nat), index < leaves.length →
        (feed run.1 more).1.leaf? index = run.1.leaf? index := by
  intro run leaves
  have hrun : run = (Archive.padded depth leaves, answers depth.capacity 0 fed.length) :=
    Archive.feed_empty depth fed
  have hle : leaves.length ≤ depth.capacity := List.length_take_le _ _
  rw [hrun]
  refine ⟨Archive.refines_padded hle, ?_, ?_⟩
  · exact answers_eq_range depth.capacity fed.length
  · intro more index hindex
    exact Archive.leaf?_feed_padded hle more hindex

end ShieldedPool.Merkle
