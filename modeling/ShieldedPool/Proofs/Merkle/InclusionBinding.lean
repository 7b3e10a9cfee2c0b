/-
What an accepted proof says.  Nobody vouches for the siblings and sides of a
proof, yet a proof that is accepted at the root of an archive gives the leaf
and the siblings that the archive has at the index of those sides.  Otherwise
its climb and the path in the tree hash two different pairs of children to one
node.  It takes the number of siblings to tell a leaf: with fewer of them, a
node above the leaves reaches the root in the same way.
-/
import ShieldedPool.Proofs.Merkle.PathBinding
import ShieldedPool.Proofs.Merkle.Trail

namespace ShieldedPool.Merkle

namespace Inclusion

theorem verify_eq_true_iff {proof : Inclusion} {depth : Nat} {value root : Felt} :
    proof.verify depth value root = true ↔
      proof.siblings.length = depth ∧ proof.pathBits.length = depth ∧
        proof.steps.foldl climb value = root := by
  rw [verify, verifyStrict]
  by_cases hlength : proof.siblings.length = depth ∧ proof.pathBits.length = depth
  · rw [if_pos hlength]
    simp only [hlength, true_and]
    exact beq_iff_eq
  · rw [if_neg hlength]
    simp only [Bool.false_eq_true, false_iff]
    rintro ⟨hsiblings, hsides, -⟩
    exact hlength ⟨hsiblings, hsides⟩

section Steps

variable {proof : Inclusion} (hlength : proof.siblings.length = proof.pathBits.length)
include hlength

theorem length_steps : proof.steps.length = proof.siblings.length := by
  rw [steps, List.length_zip, ← hlength, Nat.min_self]

theorem map_fst_steps : proof.steps.map Prod.fst = proof.siblings :=
  List.map_fst_zip (Nat.le_of_eq hlength)

theorem map_snd_steps : proof.steps.map Prod.snd = proof.pathBits :=
  List.map_snd_zip (Nat.le_of_eq hlength.symm)

end Steps

/-- What the proof says of a value is so in an archive over some leaves: at the
index that the sides stand for, the value is the leaf, or zero where no leaf
is, and the siblings are those of the archive. -/
structure TrueOf (proof : Inclusion) (value : Felt) (tree : Archive)
    (leaves : List Felt) : Prop where
  index_lt : bitsValue proof.pathBits < tree.depth.capacity
  sides_eq : proof.pathBits =
    Merkle.pathBits tree.depth.levels (bitsValue proof.pathBits)
  inserted : ∀ leaf, leaves[bitsValue proof.pathBits]? = some leaf → value = leaf
  absent : tree.nextIndex ≤ bitsValue proof.pathBits → value = 0
  siblings_eq : proof.siblings = tree.siblings (bitsValue proof.pathBits)

end Inclusion

theorem map_fst_paddedSteps (leaves : List Felt) (index depth : Nat) :
    (paddedSteps leaves index 0 depth).map Prod.fst = paddedSiblings leaves depth index := by
  rw [paddedSteps, paddedSiblings, List.map_map, List.range_eq_range']
  rfl

/-- A proof along the path of an index from the node there is true. -/
theorem Inclusion.trueOf_padded {depth : Depth} {leaves : List Felt} {proof : Inclusion}
    {value : Felt} (hsiblings : proof.siblings.length = depth.levels)
    (hsides : proof.pathBits.length = depth.levels)
    (hvalue : value = paddedNode leaves 0 (bitsValue proof.pathBits))
    (hsteps : proof.steps = paddedSteps leaves (bitsValue proof.pathBits) 0 depth.levels) :
    proof.TrueOf value (Archive.padded depth leaves) leaves where
  index_lt := by
    have hlt := bitsValue_lt proof.pathBits
    rwa [hsides] at hlt
  sides_eq := by
    have hbits := pathBits_bitsValue proof.pathBits
    rw [hsides] at hbits
    exact hbits.symm
  inserted := by
    intro leaf hleaf
    rw [hvalue, paddedNode_zero, List.getD_eq_getElem?_getD, hleaf, Option.getD_some]
  absent := by
    intro hpast
    rw [Archive.nextIndex_padded] at hpast
    rw [hvalue, paddedNode_zero, List.getD_eq_default _ _ hpast]
  siblings_eq := by
    rw [Archive.siblings_padded, ← map_fst_paddedSteps, ← hsteps,
      map_fst_steps (hsiblings.trans hsides.symm)]

/-- A proof that is accepted at the root of an archive is true of it, or its
climb meets the path of the archive in a collision. -/
theorem accepted_proof_binds (depth : Depth) (fed : List Felt) (proof : Inclusion)
    (value : Felt) :
    let tree := (feed (Archive.empty depth) fed).1
    proof.verify depth.levels value tree.root = true →
      proof.TrueOf value tree (fed.take depth.capacity) ∨
        TrailsMeet (trail value proof.steps) (tree.trail (bitsValue proof.pathBits)) := by
  intro tree haccepted
  have htree : tree = Archive.padded depth (fed.take depth.capacity) :=
    Archive.fst_feed_empty depth fed
  rw [htree, Archive.root_padded] at haccepted
  rw [htree, Archive.trail_padded]
  obtain ⟨hsiblings, hsides, hroot⟩ := Inclusion.verify_eq_true_iff.1 haccepted
  have hlength : proof.siblings.length = proof.pathBits.length := hsiblings.trans hsides.symm
  have hcount : proof.steps.length = depth.levels :=
    (Inclusion.length_steps hlength).trans hsiblings
  have hindex : bitsValue proof.pathBits < 2 ^ depth.levels := by
    have hlt := bitsValue_lt proof.pathBits
    rwa [hsides] at hlt
  have hplace : bitsValue (proof.steps.map Prod.snd) = bitsValue proof.pathBits / 2 ^ 0 := by
    rw [Inclusion.map_snd_steps hlength, Nat.pow_zero, Nat.div_one]
  rcases eq_paddedNode_or_trailsMeet hindex (by rw [hcount, Nat.zero_add]) hplace hroot with
    ⟨hvalue, hsteps⟩ | hmeet
  · left
    rw [Nat.pow_zero, Nat.div_one] at hvalue
    rw [hcount] at hsteps
    exact Inclusion.trueOf_padded hsiblings hsides hvalue hsteps
  · exact .inr hmeet

/-- The proof of the second of two leaves, as the archive itself gives it. -/
theorem accepted_proof_binds_second :
    let tree := (feed (Archive.empty ⟨2, by decide, by decide⟩) [7, 5]).1
    ∃ proof : Inclusion, tree.prove 1 = .ok proof ∧
      proof.verify 2 5 tree.root = true ∧
      (proof.TrueOf 5 tree [7, 5] ∨
        TrailsMeet (trail 5 proof.steps) (tree.trail (bitsValue proof.pathBits))) := by
  intro tree
  have htree : tree = Archive.padded ⟨2, by decide, by decide⟩ [7, 5] :=
    Archive.fst_feed_empty _ [7, 5]
  have hprove := Archive.prove_padded ⟨2, by decide, by decide⟩ [7, 5] 1
  rw [if_pos (by decide), ← htree] at hprove
  have haccepted : (paddedProof ⟨2, by decide, by decide⟩ [7, 5] 1).verify 2 5 tree.root = true := by
    rw [htree, Archive.root_padded, Inclusion.verify,
      verifyStrict_paddedProof (show (1 : UInt64).toNat < 2 ^ 2 by decide) rfl]
  exact ⟨_, hprove, haccepted, accepted_proof_binds _ [7, 5] _ 5 haccepted⟩

/-- The proof of a node at a height along the steps above it, at the index that
the node has in its level. -/
def innerProof (leaves : List Felt) (depth : Depth) (height index : Nat) : Inclusion :=
  let steps := paddedSteps leaves (index * 2 ^ height) height (depth.levels - height)
  ⟨UInt64.ofNat index, steps.map Prod.fst, steps.map Prod.snd⟩

section InnerProof

variable (leaves : List Felt) {depth : Depth} {height index : Nat}

theorem steps_innerProof :
    (innerProof leaves depth height index).steps =
      paddedSteps leaves (index * 2 ^ height) height (depth.levels - height) := by
  rw [Inclusion.steps, innerProof, List.zip_map']
  exact List.map_id _

/-- Above the leaves, the length of its proof tells a node from a leaf. -/
theorem verify_innerProof (hpos : 0 < height) (value root : Felt) :
    (innerProof leaves depth height index).verify depth.levels value root = false := by
  have hlevels := depth.pos
  rw [← Bool.not_eq_true, Inclusion.verify_eq_true_iff]
  rintro ⟨hsiblings, -⟩
  rw [innerProof, List.length_map, length_paddedSteps] at hsiblings
  omega

variable (hindex : index < 2 ^ (depth.levels - height))
include hindex

theorem toNat_leafIndex_innerProof :
    (innerProof leaves depth height index).leafIndex.toNat = index := by
  have hmax : depth.levels - height ≤ 64 :=
    (Nat.sub_le _ _).trans (depth.le_max.trans (by decide))
  exact UInt64.toNat_ofNat_of_lt'
    (hindex.trans_le (Nat.pow_le_pow_right Nat.two_pos hmax))

theorem pathIndex_innerProof :
    (innerProof leaves depth height index).pathIndex =
      .ok (innerProof leaves depth height index).leafIndex := by
  refine Inclusion.pathIndex_eq_ok_iff.2 ?_
  rw [toNat_leafIndex_innerProof leaves hindex, innerProof, map_snd_paddedSteps,
    Nat.mul_div_cancel index (Nat.two_pow_pos height), bitsValue_pathBits hindex]

/-- The implied root does not tell it. -/
theorem impliedRoot_innerProof (hheight : height ≤ depth.levels) :
    (innerProof leaves depth height index).impliedRoot (paddedNode leaves height index) =
      .ok (paddedRoot depth.levels leaves) := by
  have hclimb := foldl_climb_paddedSteps leaves (index * 2 ^ height) height
    (depth.levels - height)
  rw [Nat.mul_div_cancel index (Nat.two_pow_pos height), Nat.add_sub_of_le hheight,
    Nat.div_eq_of_lt (first_below_lt hheight hindex), paddedNode_top] at hclimb
  refine Inclusion.impliedRoot_eq_ok_iff.2 ⟨?_, ?_⟩
  · rw [innerProof, List.length_map, List.length_map]
  · rw [steps_innerProof, hclimb]

end InnerProof

end ShieldedPool.Merkle
