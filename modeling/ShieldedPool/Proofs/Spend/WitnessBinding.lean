/-
Where an accepted witness opens a tree.  Assembly folds the proof it is given,
however long that is, and a commitment hashes two inputs as a node does.  So
what the commitment of an accepted witness is depends on how many siblings the
witness has: as many as the tree is deep make it the leaf at the index, fewer
make it a node that far below the root, and more make it something that leads
up to a leaf.  Otherwise the climb of the witness and the path in the tree hash
two different pairs of children to one node.  And each node that is a commitment
is opened so, with the upper part of a path.
-/
import ShieldedPool.Proofs.Merkle.InclusionBinding
import ShieldedPool.Proofs.Spend.Preparation

namespace ShieldedPool.Spend

open Merkle (Archive Depth Inclusion TrailsMeet bitsValue climb emptyNode feed
  innerProof paddedNode paddedRoot paddedTrail)

namespace Witness

/-- The pairs of children that the climb of the witness hashes, from the root
down. -/
def trail (witness : Witness) : List (Felt × Felt) :=
  Merkle.trail witness.opened witness.steps

/-- The leaf of a tree that the path of the witness leads down to.  A path that
is too short leads to the first leaf below its node, and of one that is too
long the upper part counts. -/
def leafBelow (witness : Witness) (levels : Nat) : Nat :=
  witness.leafIndex.toNat * 2 ^ (levels - witness.siblings.length) /
    2 ^ (witness.siblings.length - levels)

/-- What the commitment of the witness is in an archive: the leaf at its index,
or the zero of a leaf that is not there; a node above the leaves, for a path
that is too short; a value some levels below a leaf, for one that is too
long. -/
inductive Opens (witness : Witness) (tree : Archive) : Prop
  | leaf (hdepth : witness.siblings.length = tree.depth.levels)
      (hleaf : tree.leaf? witness.leafIndex.toNat = some witness.opened)
  | absent (hdepth : witness.siblings.length = tree.depth.levels)
      (hpast : tree.nextIndex ≤ witness.leafIndex.toNat) (hzero : witness.opened = 0)
  | inner (hshort : witness.siblings.length < tree.depth.levels)
      (hnode : witness.opened =
        tree.nodeAt (tree.depth.levels - witness.siblings.length) witness.leafIndex.toNat)
  | beyond (hlong : tree.depth.levels < witness.siblings.length)
      (hpassed :
        (witness.steps.take (witness.siblings.length - tree.depth.levels)).foldl climb
            witness.opened =
          tree.nodeAt 0 (witness.leafBelow tree.depth.levels))

/-- The witness has one side for every sibling, and its sides are those of its
index. -/
structure WellTurned (witness : Witness) : Prop where
  length_pathBits : witness.pathBits.length = witness.siblings.length
  bitsValue_pathBits : bitsValue witness.pathBits = witness.leafIndex.toNat

theorem assemble_eq_ok_wellTurned {privateScalar keyX root : Felt} {amount : UInt64}
    {proof : Inclusion} {witness : Witness}
    (haccepted : assemble privateScalar keyX amount proof root = .ok witness) :
    witness.WellTurned ∧ witness.opened = commitment keyX amount ∧
      witness.steps.foldl climb witness.opened = root := by
  obtain ⟨hroot, hindex, rfl⟩ := assemble_eq_ok_iff.1 haccepted
  obtain ⟨hlength, hfold⟩ := Inclusion.impliedRoot_eq_ok_iff.1 hroot
  exact ⟨⟨hlength.symm, Inclusion.pathIndex_eq_ok_iff.1 hindex⟩, rfl, hfold⟩

section Path

variable {witness : Witness} (hturned : witness.WellTurned)
include hturned

theorem WellTurned.length_steps : witness.steps.length = witness.siblings.length := by
  rw [steps, List.length_zip, hturned.length_pathBits, Nat.min_self]

theorem WellTurned.bitsValue_steps :
    bitsValue (witness.steps.map Prod.snd) = witness.leafIndex.toNat := by
  rw [steps, List.map_snd_zip (Nat.le_of_eq hturned.length_pathBits),
    hturned.bitsValue_pathBits]

variable {depth : Depth} {leaves : List Felt}
  (hroot : witness.steps.foldl climb witness.opened = paddedRoot depth.levels leaves)
include hroot

/-- Up to as many siblings as the tree is deep, the commitment is a node of the
tree. -/
theorem opens_of_short (hle : witness.siblings.length ≤ depth.levels) :
    witness.Opens (Archive.padded depth leaves) ∨
      TrailsMeet witness.trail
        (paddedTrail leaves (witness.leafBelow depth.levels) depth.levels) := by
  have hsteps := hturned.length_steps
  have hbelow : witness.leafBelow depth.levels =
      witness.leafIndex.toNat * 2 ^ (depth.levels - witness.siblings.length) := by
    rw [leafBelow, Nat.sub_eq_zero_of_le hle, Nat.pow_zero, Nat.div_one]
  have hclimb := Merkle.eq_inner_or_trailsMeet (hsteps.trans_le hle) hroot
  rw [hturned.bitsValue_steps, hsteps, ← hbelow] at hclimb
  refine hclimb.imp_left ?_
  intro hnode
  rcases Nat.eq_or_lt_of_le hle with hdepth | hshort
  · rw [hdepth, Nat.sub_self, Merkle.paddedNode_zero] at hnode
    rcases Nat.lt_or_ge witness.leafIndex.toNat leaves.length with hpresent | hpast
    · refine .leaf hdepth ?_
      rw [Archive.leaf?_padded, hnode, List.getD_eq_getElem?_getD,
        List.getElem?_eq_getElem hpresent, Option.getD_some]
    · refine .absent hdepth ?_ ?_
      · rwa [Archive.nextIndex_padded]
      · rw [hnode, List.getD_eq_default _ _ hpast]
  · refine .inner hshort ?_
    rw [Archive.depth_padded, Archive.nodeAt_padded depth leaves (Nat.sub_le _ _), hnode]

/-- With more siblings the climb passes a leaf. -/
theorem opens_of_long (hlong : depth.levels < witness.siblings.length) :
    witness.Opens (Archive.padded depth leaves) ∨
      TrailsMeet witness.trail
        (paddedTrail leaves (witness.leafBelow depth.levels) depth.levels) := by
  have hsteps := hturned.length_steps
  have hle := Nat.le_of_lt hlong
  have hbelow : witness.leafBelow depth.levels =
      witness.leafIndex.toNat / 2 ^ (witness.siblings.length - depth.levels) := by
    rw [leafBelow, Nat.sub_eq_zero_of_le hle, Nat.pow_zero, Nat.mul_one]
  have hclimb := Merkle.eq_passed_or_trailsMeet (hle.trans_eq hsteps.symm) hroot
  rw [hturned.bitsValue_steps, hsteps, ← hbelow] at hclimb
  refine hclimb.imp_left ?_
  intro hpassed
  refine .beyond hlong ?_
  rw [Archive.depth_padded, Archive.nodeAt_padded depth leaves (Nat.zero_le _), hpassed]

end Path

end Witness

/-- Assembly takes a node that is a commitment for a leaf, at any height.  The
climb of its witness is the upper part of a path of the tree, so the two do not
meet. -/
theorem assemble_innerProof {leaves : List Felt} {depth : Depth} {height index : Nat}
    {keyX : Felt} {amount : UInt64} (privateScalar : Felt)
    (hheight : height ≤ depth.levels) (hindex : index < 2 ^ (depth.levels - height))
    (hnode : paddedNode leaves height index = commitment keyX amount) :
    ∃ witness : Witness,
      Witness.assemble privateScalar keyX amount (innerProof leaves depth height index)
          (paddedRoot depth.levels leaves) = .ok witness ∧
        witness.siblings.length = depth.levels - height ∧
        witness.leafIndex.toNat = index ∧
        ¬ TrailsMeet witness.trail
          (paddedTrail leaves (witness.leafBelow depth.levels) depth.levels) := by
  have hroot := Merkle.impliedRoot_innerProof leaves hindex hheight
  rw [hnode] at hroot
  have hturns := Merkle.pathIndex_innerProof leaves hindex
  refine ⟨_, Witness.assemble_eq_ok_iff.2 ⟨hroot, hturns, rfl⟩, ?_⟩
  have hleafIndex := Merkle.toNat_leafIndex_innerProof leaves hindex
  have hlength : (innerProof leaves depth height index).siblings.length =
      depth.levels - height := by
    simp [innerProof]
  refine ⟨hlength, hleafIndex, ?_⟩
  rw [Witness.leafBelow, hlength, hleafIndex, Nat.sub_sub_self hheight,
    Nat.sub_eq_zero_of_le (Nat.sub_le depth.levels height), Nat.pow_zero, Nat.div_one,
    Merkle.paddedTrail_split leaves (index * 2 ^ height) (Nat.add_sub_of_le hheight),
    Nat.mul_div_cancel index (Nat.two_pow_pos height), hnode, ← Merkle.steps_innerProof]
  exact Merkle.not_trailsMeet_append _ _

/-- A witness that is accepted at the root of an archive opens it, as the
number of its siblings says, or its climb meets the path of the archive in a
collision.  And a node of the archive that is a commitment is accepted in place of
a leaf, with the siblings above it alone and without a collision. -/
theorem accepted_witness_opens (depth : Depth) (fed : List Felt)
    (privateScalar keyX : Felt) (amount : UInt64) :
    let tree := (feed (Archive.empty depth) fed).1
    (∀ (proof : Inclusion) (witness : Witness),
      Witness.assemble privateScalar keyX amount proof tree.root = .ok witness →
        witness.WellTurned ∧ witness.opened = commitment keyX amount ∧
          (witness.Opens tree ∨
            TrailsMeet witness.trail (tree.trail (witness.leafBelow depth.levels)))) ∧
    ∀ height ≤ depth.levels, ∀ index < 2 ^ (depth.levels - height),
      tree.nodeAt height index = commitment keyX amount →
        ∃ (proof : Inclusion) (witness : Witness),
          Witness.assemble privateScalar keyX amount proof tree.root = .ok witness ∧
            witness.siblings.length = depth.levels - height ∧
            witness.leafIndex.toNat = index ∧
            ¬ TrailsMeet witness.trail (tree.trail (witness.leafBelow depth.levels)) := by
  intro tree
  have htree : tree = Archive.padded depth (fed.take depth.capacity) :=
    Archive.fst_feed_empty depth fed
  simp only [htree, Archive.root_padded, Archive.trail_padded]
  constructor
  · intro proof witness haccepted
    obtain ⟨hturned, hopened, hroot⟩ := Witness.assemble_eq_ok_wellTurned haccepted
    refine ⟨hturned, hopened, ?_⟩
    rcases Nat.lt_or_ge depth.levels witness.siblings.length with hlong | hle
    · exact Witness.opens_of_long hturned hroot hlong
    · exact Witness.opens_of_short hturned hroot hle
  · intro height hheight index hindex hnode
    rw [Archive.nodeAt_padded depth _ hheight] at hnode
    exact ⟨_, assemble_innerProof privateScalar hheight hindex hnode⟩

/-- The witness of the first leaf, where that is a commitment. -/
theorem accepted_witness_opens_first :
    let depth : Depth := ⟨2, by decide, by decide⟩
    let tree := (feed (Archive.empty depth) [commitment 7 5, 5]).1
    ∃ (proof : Inclusion) (witness : Witness),
      Witness.assemble 1 7 5 proof tree.root = .ok witness ∧
        witness.WellTurned ∧ witness.opened = commitment 7 5 ∧
          (witness.Opens tree ∨
            TrailsMeet witness.trail (tree.trail (witness.leafBelow depth.levels))) := by
  intro depth tree
  have htree : tree = Archive.padded depth [commitment 7 5, 5] :=
    Archive.fst_feed_empty depth _
  have hleaf : tree.nodeAt 0 0 = commitment 7 5 := by
    rw [htree, Archive.nodeAt_padded depth _ (Nat.zero_le _), Merkle.paddedNode_zero,
      List.getD_cons_zero]
  obtain ⟨hopens, htaken⟩ := accepted_witness_opens depth [commitment 7 5, 5] 1 7 5
  obtain ⟨proof, witness, haccepted, -⟩ :=
    htaken 0 (Nat.zero_le depth.levels) 0 (by decide) hleaf
  exact ⟨proof, witness, haccepted, hopens proof witness haccepted⟩

theorem innerProof_of_two_leaves (a b : Felt) :
    innerProof [a, b] ⟨4, by decide, by decide⟩ 1 0 =
      ⟨0, [emptyNode 1, emptyNode 2, emptyNode 3], [false, false, false]⟩ := by
  have hempty : ∀ height, 0 < height → paddedNode [a, b] height 1 = emptyNode height := by
    intro height hpos
    apply Merkle.paddedNode_eq_emptyNode
    rw [Nat.one_mul]
    exact Nat.pow_le_pow_right Nat.two_pos hpos
  simp [innerProof, Merkle.paddedSteps, Merkle.isRightChild, List.range', hempty]

/-- The node above the leaves 7 and 5 is their commitment.  A witness of it is
accepted in a tree of four levels with a path of three, and no two pairs that
it and the tree hash along the path collide. -/
theorem shorter_path_accepted :
    let depth : Depth := ⟨4, by decide, by decide⟩
    let tree := (feed (Archive.empty depth) [7, 5]).1
    let proof : Inclusion :=
      ⟨0, [emptyNode 1, emptyNode 2, emptyNode 3], [false, false, false]⟩
    ∃ witness : Witness,
      Witness.assemble 1 7 5 proof tree.root = .ok witness ∧
        witness.siblings.length ≠ depth.levels ∧
        ¬ TrailsMeet witness.trail (tree.trail (witness.leafBelow depth.levels)) := by
  intro depth tree proof
  have htree : tree = Archive.padded depth [7, 5] := Archive.fst_feed_empty depth _
  have hproof : innerProof [7, 5] depth 1 0 = proof := innerProof_of_two_leaves 7 5
  have hnode : paddedNode [7, 5] 1 0 = commitment 7 5 := by
    have hamount : Felt.ofWord64 5 = 5 := rfl
    rw [Merkle.paddedNode_succ, Merkle.paddedNode_zero, Merkle.paddedNode_zero, commitment,
      hamount]
    rfl
  have hheight : 1 ≤ depth.levels := by decide
  obtain ⟨witness, haccepted, hlength, -, hmeet⟩ :=
    assemble_innerProof 1 hheight (by decide) hnode
  rw [← Archive.root_padded, ← htree, hproof] at haccepted
  rw [← Archive.trail_padded, ← htree] at hmeet
  refine ⟨witness, haccepted, ?_, hmeet⟩
  rw [hlength]
  decide

end ShieldedPool.Spend
