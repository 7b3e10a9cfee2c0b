/-
A received payment can be spent.  The sender's commitment is the one that the
recipient's key and amount open, so at any leaf of any tree the claim on its
announcement has a witness, and the public inputs of the witness are the root,
the mark of the claim and the amount.  A proof of another leaf, or another root
than the proof leads to, is refused.
-/
import ShieldedPool.Proofs.HashInputs
import ShieldedPool.Proofs.Spend.KeyOpening

namespace ShieldedPool

open Point (mulGenerator)

namespace Spend

open Merkle (Archive Depth Inclusion feed)
open Stealth (Claim Output Protocol)

namespace Witness

variable {claim : Claim} {proof : Inclusion} {root : Felt} {witness : Witness}

/-- The words of a witness are as wide as a field element, and say its root, its
mark and its amount. -/
theorem publicInputs_words (witness : Witness) :
    (∀ word ∈ witness.publicInputs, word.length = residueBytes) ∧
      witness.publicInputs.map Bytes.toNatBE =
        [witness.root.val, witness.nullifierHash.val, witness.amount.toNat] := by
  simp [publicInputs, Felt.toNatBE_toBytes, Felt.val_ofWord64]

/-- The witness of a claim is at its root, under its mark, over its amount. -/
theorem ofClaim_inputs (hwitness : ofClaim claim proof root = .ok witness) :
    witness.root = root ∧ witness.nullifierHash = spendMark claim.privateFelt claim.leafIndex ∧
      witness.amount = claim.amount := by
  obtain ⟨-, hindex, x, y, -, hassembled⟩ := ofClaim_eq_ok_iff.1 hwitness
  obtain ⟨-, -, rfl⟩ := assemble_eq_ok_iff.1 hassembled
  rw [hindex]
  exact ⟨rfl, rfl, rfl⟩

theorem ofClaim_of_other_leaf (hepoch : claim.epoch = none)
    (hother : claim.leafIndex ≠ proof.leafIndex) :
    ofClaim claim proof root =
      .error (.witness (.claimPosition proof.leafIndex claim.leafIndex)) := by
  rw [ofClaim, hepoch, if_neg (by simp), if_pos hother]

/-- A root that the proof does not lead to is refused, at whatever leaf the proof
is. -/
theorem ofClaim_of_other_root {x y implied : Felt} (hepoch : claim.epoch = none)
    (hpoint : claim.stealthPub = .affine x y)
    (himplied : proof.impliedRoot (commitment x claim.amount) = .ok implied)
    (hother : implied ≠ root) :
    ∃ defect, ofClaim claim proof root = .error (.witness defect) := by
  by_cases hindex : claim.leafIndex = proof.leafIndex
  · refine ⟨.wrongRoot proof.leafIndex root, ?_⟩
    rw [ofClaim, hepoch, if_neg (by simp), if_neg (not_not_intro hindex), hpoint]
    simp only [assemble, himplied, ok_bind, if_pos hother]
    rfl
  · exact ⟨_, ofClaim_of_other_leaf hepoch hindex⟩

end Witness

/-- What the claim on a payment owes at a leaf of a tree: a witness with the
public inputs in order, and none with the proof of another leaf or at a root
that the proof does not lead to. -/
structure SpendsAt (claim : Claim) (output : Output) (index : UInt64) (tree : Archive) :
    Prop where
  spent : ∃ proof witness, tree.prove index = .ok proof ∧
    Witness.ofClaim claim proof tree.root = .ok witness ∧
    (∀ word ∈ witness.publicInputs, word.length = residueBytes) ∧
    witness.publicInputs.map Bytes.toNatBE =
      [tree.root.val, claim.nullifierHash.val, output.amount.toNat]
  other_leaf : ∀ other : UInt64, other.toNat < tree.nextIndex → other ≠ index →
    ∃ proof, tree.prove other = .ok proof ∧ ∀ root,
      Witness.ofClaim claim proof root = .error (.witness (.claimPosition other index))
  other_root : ∀ (proof : Inclusion) (root implied : Felt),
    proof.impliedRoot output.commitment = .ok implied → implied ≠ root →
      ∃ defect, Witness.ofClaim claim proof root = .error (.witness defect)

/-- A claim whose commitment is the leaf at its index is spent there. -/
theorem spendsAt_padded {depth : Depth} {leaves : List Felt} {claim : Claim} {output : Output}
    {x y : Felt} (hepoch : claim.epoch = none) (hpoint : claim.stealthPub = .affine x y)
    (hmark : claim.nullifierHash = spendMark claim.privateFelt claim.leafIndex)
    (hamount : claim.amount = output.amount)
    (hcommitment : output.commitment = commitment x claim.amount)
    (hleaf : leaves[claim.leafIndex.toNat]? = some output.commitment)
    (hle : leaves.length ≤ depth.capacity) :
    SpendsAt claim output claim.leafIndex (Archive.padded depth leaves) where
  spent := by
    have hpresent := (List.getElem?_eq_some_iff.1 hleaf).1
    rw [hcommitment] at hleaf
    obtain ⟨witness, hwitness⟩ := Witness.ofClaim_padded hepoch hpoint hleaf hle
    obtain ⟨hroot, hhash, hsum⟩ := Witness.ofClaim_inputs hwitness
    obtain ⟨hwidth, hwords⟩ := witness.publicInputs_words
    refine ⟨Merkle.paddedProof depth leaves claim.leafIndex, witness, ?_, ?_, hwidth, ?_⟩
    · rw [Archive.prove_padded, if_pos hpresent]
    · rw [Archive.root_padded]
      exact hwitness
    · rw [hwords, hroot, hhash, hsum, hmark, hamount, Archive.root_padded]
  other_leaf := by
    intro other hpresent hother
    rw [Archive.nextIndex_padded] at hpresent
    refine ⟨Merkle.paddedProof depth leaves other, ?_, ?_⟩
    · rw [Archive.prove_padded, if_pos hpresent]
    · intro root
      exact Witness.ofClaim_of_other_leaf hepoch (Ne.symm hother)
  other_root := by
    intro proof root implied himplied hother
    rw [hcommitment] at himplied
    exact Witness.ofClaim_of_other_root hepoch hpoint himplied hother

/-- A payment without an epoch, sent to a recipient and inserted anywhere in any
run of insertions, is claimed from every announcement of it and spent at its
leaf. -/
theorem received_payment_spendable (protocol : Protocol) (keys : Keys) (amount : UInt64)
    (ephemeral : Scalar) (depth : Depth) (fed : List Felt) {output : Output} {index : UInt64}
    (hsend : protocol.send keys.metaAddress amount none ephemeral = .ok output)
    (hleaf : (feed (Archive.empty depth) fed).1.leaf? index.toNat = some output.commitment)
    (createdAt : Int64) (payload : Bytes) :
    ∃ claim, protocol.claim keys (output.announcement index createdAt payload) = .ok claim ∧
      output.amount = amount ∧ SpendsAt claim output index (feed (Archive.empty depth) fed).1 := by
  obtain ⟨hephemeral, x, y, hpoint, rfl⟩ := Stealth.send_eq_ok_iff.1 hsend
  have hle : (fed.take depth.capacity).length ≤ depth.capacity := List.length_take_le _ _
  rw [Archive.fst_feed_empty] at hleaf ⊢
  rw [Archive.leaf?_padded] at hleaf
  exact ⟨_, Stealth.claim_eq hephemeral hpoint rfl rfl, rfl,
    spendsAt_padded rfl rfl rfl rfl rfl hleaf hle⟩

/-- A payment between two other leaves. -/
theorem received_payment_spendable_between :
    ∃ (keys : Keys) (output : Output),
      let fed := [3, output.commitment, 9]
      Protocol.standard.send keys.metaAddress 7 none 5 = .ok output ∧
        (feed (Archive.empty fourLevels) fed).1.leaf? (1 : UInt64).toNat =
          some output.commitment ∧
        ∃ claim, Protocol.standard.claim keys (output.announcement 1 60 [0x2a]) = .ok claim ∧
          output.amount = 7 ∧
          SpendsAt claim output 1 (feed (Archive.empty fourLevels) fed).1 := by
  have htweak : (1 : Scalar) ≠ sampleTweak := by decide +kernel
  rcases hpoint : mulGenerator 1 with _ | ⟨x, y⟩
  · have hzero : (1 : Scalar) ≠ 0 := by decide
    exact absurd (Point.mulGenerator_eq_infinity_iff.1 hpoint) hzero
  · obtain ⟨hsend, -⟩ := sampleOutput_claimed htweak hpoint
    refine ⟨sampleKeys 1 htweak, sampleOutput x y, ?_⟩
    intro fed
    have hleaf : (feed (Archive.empty fourLevels) fed).1.leaf? (1 : UInt64).toNat =
        some (sampleOutput x y).commitment := by
      rw [Archive.fst_feed_empty, Archive.leaf?_padded]
      rfl
    exact ⟨hsend, hleaf, received_payment_spendable Protocol.standard _ 7 5 fourLevels fed
      hsend hleaf 60 [0x2a]⟩

end Spend

end ShieldedPool
