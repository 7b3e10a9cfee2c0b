/-
Whether the private scalar of a witness opens its key.  A note holds a field
element, which is a scalar as it stands, so the witness of a note always opens.
The key of a claim is a scalar and enters the witness modulo the field modulus.
Below that modulus nothing changes.  In the band between the two moduli the
reduced scalar has another public point, and another first coordinate too,
except half-way, where reduction takes a scalar to its opposite.
-/
import ShieldedPool.Proofs.Residue.CanonicalBytes
import ShieldedPool.Proofs.Spend.OneMark
import ShieldedPool.Proofs.Stealth.Agreement
import ShieldedPool.Proofs.Stealth.Ownership

namespace ShieldedPool

open Point (mulGenerator)

namespace Scalar

/-- Reduced to a field element, the scalar keeps the first coordinate of its
public point. -/
def KeepsKey (k : Scalar) : Prop :=
  k.val < Felt.modulus ∨ 2 * k.val = Felt.modulus + Scalar.modulus

instance : DecidablePred KeepsKey := fun _ => inferInstanceAs (Decidable (_ ∨ _))

/-- In the band, reduction takes the field modulus off once. -/
theorem val_ofFelt_toFelt_of_le {k : Scalar} (hle : Felt.modulus ≤ k.val) :
    (ofFelt k.toFelt).val = k.val - Felt.modulus := by
  have hlt := k.val_lt
  have htwice : Scalar.modulus < 2 * Felt.modulus := by decide
  have hval : (ofFelt k.toFelt).val = k.val % Felt.modulus := rfl
  rw [hval, Nat.mod_eq_sub_mod hle, Nat.mod_eq_of_lt (by omega)]

theorem keepsKey_iff {k : Scalar} :
    k.KeepsKey ↔ ofFelt k.toFelt = k ∨ k + ofFelt k.toFelt = 0 := by
  by_cases hlt : k.val < Felt.modulus
  · exact iff_of_true (.inl hlt) (.inl (ofFelt_toFelt_iff.2 hlt))
  · have hpos : 0 < Felt.modulus := by decide
    have hval := val_ofFelt_toFelt_of_le (Nat.le_of_not_lt hlt)
    have hmoved : ofFelt k.toFelt ≠ k := by
      intro hsame
      rw [hsame] at hval
      omega
    rw [KeepsKey, or_iff_right hlt, or_iff_right hmoved]
    constructor
    · intro hhalfway
      apply Residue.ext_val
      rw [Residue.val_add, hval, show k.val + (k.val - Felt.modulus) = modulus by omega]
      exact Nat.mod_self _
    · intro hsum
      have hnonzero : k ≠ 0 := by
        rintro rfl
        exact hlt hpos
      have htotal := Residue.val_add_val hsum hnonzero
      omega

end Scalar

namespace Spend

open Stealth (Announcement Claim Protocol)

namespace Witness

/-- The public point of the private scalar has the coordinate that the
commitment holds. -/
def OpensKey (witness : Witness) : Prop :=
  (mulGenerator (Scalar.ofFelt witness.privateScalar)).x? = some witness.keyX

variable {claim : Claim} {proof : Merkle.Inclusion} {root : Felt} {witness : Witness}

theorem ofClaim_eq_ok_iff :
    ofClaim claim proof root = .ok witness ↔
      claim.epoch = none ∧ claim.leafIndex = proof.leafIndex ∧
        ∃ x y, claim.stealthPub = .affine x y ∧
          assemble claim.privateFelt x claim.amount proof root = .ok witness := by
  rw [ofClaim]
  rcases claim.epoch with _ | epoch
  · rw [if_neg (by simp)]
    by_cases hindex : claim.leafIndex = proof.leafIndex
    · rw [if_neg (not_not_intro hindex)]
      rcases claim.stealthPub with _ | ⟨x, y⟩
      · simp
      · simp [hindex]
    · rw [if_pos hindex]
      simp [hindex]
  · simp

theorem opensKey_of_note {note : Note} (hwitness : ofNote note proof root = .ok witness) :
    witness.OpensKey ∧ note.markHash = .ok witness.nullifierHash := by
  obtain ⟨hleaf, x, y, hkey, hassembled⟩ := ofNote_eq_ok_iff.1 hwitness
  obtain ⟨-, -, rfl⟩ := assemble_eq_ok_iff.1 hassembled
  constructor
  · exact Point.x?_eq_some_iff.2 ⟨y, hkey⟩
  · rw [Note.markHash, Note.nullifier, Note.nullifier?, hleaf]
    rfl

theorem opensKey_of_claim_iff {protocol : Protocol} {keys : Keys} {a : Announcement}
    (hclaim : protocol.claim keys a = .ok claim)
    (hwitness : ofClaim claim proof root = .ok witness) :
    witness.nullifierHash = claim.nullifierHash ∧
      (witness.OpensKey ↔ claim.privateKey.KeepsKey) := by
  have hopened := Stealth.claim_opened hclaim
  obtain ⟨-, hindex, x, y, hpoint, hassembled⟩ := ofClaim_eq_ok_iff.1 hwitness
  obtain ⟨-, -, rfl⟩ := assemble_eq_ok_iff.1 hassembled
  constructor
  · obtain ⟨candidate, -, -, rfl⟩ := Stealth.claim_eq_ok_iff.1 hclaim
    rw [← hindex]
    rfl
  · rw [hpoint] at hopened
    rw [Scalar.keepsKey_iff]
    exact Point.x?_mulGenerator_eq_iff hopened

/-- A claim whose commitment is the leaf at its index has its witness. -/
theorem ofClaim_padded {depth : Merkle.Depth} {leaves : List Felt} {x y : Felt}
    (hepoch : claim.epoch = none) (hpoint : claim.stealthPub = .affine x y)
    (hleaf : leaves[claim.leafIndex.toNat]? = some (commitment x claim.amount))
    (hle : leaves.length ≤ depth.capacity) :
    ∃ witness, ofClaim claim (Merkle.paddedProof depth leaves claim.leafIndex)
      (Merkle.paddedRoot depth.levels leaves) = .ok witness := by
  have hpresent := (List.getElem?_eq_some_iff.1 hleaf).1
  have hcapacity := Nat.lt_of_lt_of_le hpresent hle
  have hroot := Merkle.impliedRoot_paddedProof hcapacity hleaf
  have hturns := Merkle.pathIndex_paddedProof hcapacity leaves
  exact ⟨_, ofClaim_eq_ok_iff.2
    ⟨hepoch, rfl, x, y, hpoint, assemble_eq_ok_iff.2 ⟨hroot, hturns, rfl⟩⟩⟩

end Witness

section Payment

open Merkle (Archive feed)

/-- The tweak that the view secret two and the fresh secret five derive. -/
def sampleTweak : Scalar :=
  Stealth.deriveTweak ((mulGenerator 2).mul 5) Protocol.standard.domainTag

/-- A recipient whose payment with the fresh secret five has a given private key. -/
def sampleKeys (k : Scalar) (hk : k ≠ sampleTweak) : Keys where
  view := 2
  spend := k - sampleTweak
  viewPub := mulGenerator 2
  spendPub := mulGenerator (k - sampleTweak)
  view_ne_zero := by decide
  spend_ne_zero := by
    intro hzero
    have hdiff := congrArg Residue.toZMod hzero
    rw [Residue.toZMod_sub, Residue.toZMod_zero] at hdiff
    exact hk (Residue.toZMod_injective (sub_eq_zero.1 hdiff))
  viewPub_eq := rfl
  spendPub_eq := rfl

theorem sampleKeys_privateKey {k : Scalar} (hk : k ≠ sampleTweak) :
    (sampleKeys k hk).spend + Protocol.standard.paymentTweak (sampleKeys k hk) 5 = k := by
  have htweak : Protocol.standard.paymentTweak (sampleKeys k hk) 5 = sampleTweak := rfl
  apply Residue.toZMod_injective
  rw [htweak, sampleKeys, Residue.toZMod_add, Residue.toZMod_sub, sub_add_cancel]

/-- What the sender of that payment hands out for a given one-time point. -/
def sampleOutput (x y : Felt) : Stealth.Output :=
  ⟨mulGenerator 5, .affine x y, commitment x 7, 7, none⟩

/-- The payment is sent, and claimed with the private key it was made for. -/
theorem sampleOutput_claimed {k : Scalar} (hk : k ≠ sampleTweak) {x y : Felt}
    (hpoint : mulGenerator k = .affine x y) :
    Protocol.standard.send (sampleKeys k hk).metaAddress 7 none 5 = .ok (sampleOutput x y) ∧
      ∃ claim, Protocol.standard.claim (sampleKeys k hk)
          ((sampleOutput x y).announcement 0 0 []) = .ok claim ∧
        claim.privateKey = k ∧ claim.stealthPub = .affine x y ∧ claim.amount = 7 ∧
        claim.epoch = none ∧ claim.leafIndex = 0 := by
  have hfive : (5 : Scalar) ≠ 0 := by decide
  have hkey := sampleKeys_privateKey hk
  rw [← hkey] at hpoint
  constructor
  · have hsend : Protocol.standard.send (sampleKeys k hk).metaAddress 7 none 5 = _ :=
      Stealth.send_eq hfive
    rw [hpoint] at hsend
    exact hsend
  · exact ⟨_, Stealth.claim_eq hfive hpoint rfl rfl, hkey, rfl, rfl, rfl, rfl⟩

/-- Whatever its private key is, a payment is sent, claimed and inserted, and has
a witness. -/
theorem exists_witness_of_privateKey {k : Scalar} (hk : k ≠ sampleTweak) (hzero : k ≠ 0) :
    ∃ (output : Stealth.Output) (claim : Claim) (proof : Merkle.Inclusion)
      (witness : Witness),
      let tree := (feed (Archive.empty fourLevels) [output.commitment]).1
      Protocol.standard.send (sampleKeys k hk).metaAddress 7 none 5 = .ok output ∧
        Protocol.standard.claim (sampleKeys k hk) (output.announcement 0 0 []) = .ok claim ∧
        claim.privateKey = k ∧
        tree.prove 0 = .ok proof ∧ Witness.ofClaim claim proof tree.root = .ok witness := by
  rcases hpoint : mulGenerator k with _ | ⟨x, y⟩
  · exact absurd (Point.mulGenerator_eq_infinity_iff.1 hpoint) hzero
  · obtain ⟨hsend, claim, hclaim, hkey, hpub, hamount, hepoch, hindex⟩ :=
      sampleOutput_claimed hk hpoint
    have hleaf : [commitment x 7][claim.leafIndex.toNat]? =
        some (commitment x claim.amount) := by
      rw [hindex, hamount]
      rfl
    obtain ⟨witness, hwitness⟩ := Witness.ofClaim_padded hepoch hpub hleaf (single_fits _)
    rw [hindex] at hwitness
    refine ⟨sampleOutput x y, claim, Merkle.paddedProof fourLevels [commitment x 7] 0,
      witness, hsend, hclaim, hkey, ?_, ?_⟩
    · rw [sampleOutput, feed_single, Archive.prove_padded]
      exact if_pos Nat.zero_lt_one
    · rw [sampleOutput, feed_single, Archive.root_padded]
      exact hwitness

end Payment

/-- The witness of a note opens its key.  The witness of a claim opens its key
exactly when the private key of the claim survives reduction.  Either has the
nullifier hash of what it spends. -/
theorem witness_opens_key (proof : Merkle.Inclusion) (root : Felt) (witness : Witness) :
    (∀ note : Note, Witness.ofNote note proof root = .ok witness →
      witness.OpensKey ∧ note.markHash = .ok witness.nullifierHash) ∧
    (∀ (protocol : Protocol) (keys : Keys) (a : Announcement) (claim : Claim),
      protocol.claim keys a = .ok claim → Witness.ofClaim claim proof root = .ok witness →
        witness.nullifierHash = claim.nullifierHash ∧
          (witness.OpensKey ↔ claim.privateKey.KeepsKey)) := by
  constructor
  · intro note hwitness
    exact Witness.opensKey_of_note hwitness
  · intro protocol keys a claim hclaim hwitness
    exact Witness.opensKey_of_claim_iff hclaim hwitness

/-- The note of the scalar one, and the claim whose private key is half-way
between the moduli. -/
theorem witness_opens_key_halfway :
    (∃ (note : Note) (proof : Merkle.Inclusion) (root : Felt) (witness : Witness),
      Witness.ofNote note proof root = .ok witness ∧
        witness.OpensKey ∧ note.markHash = .ok witness.nullifierHash) ∧
    ∃ (keys : Keys) (a : Announcement) (claim : Claim) (proof : Merkle.Inclusion)
      (root : Felt) (witness : Witness),
      Protocol.standard.claim keys a = .ok claim ∧
        Witness.ofClaim claim proof root = .ok witness ∧
        Felt.modulus < claim.privateKey.val ∧
        witness.nullifierHash = claim.nullifierHash ∧ witness.OpensKey := by
  constructor
  · have hnonzero : (Note.mk 5 1 0 (some 0)).privateScalar ≠ 0 := by decide
    obtain ⟨x, y, hkey⟩ := Note.exists_publicKey hnonzero
    have hleaf : [commitment x 5][(0 : UInt64).toNat]? = some (commitment x 5) := rfl
    have hwitness := witnessIn_padded rfl hkey hleaf (single_fits _)
    obtain ⟨leafIndex, proof, -, -, hnote⟩ := witnessIn_eq_ok_iff.1 hwitness
    exact ⟨_, proof, _, _, hnote, (witness_opens_key _ _ _).1 _ hnote⟩
  · let k : Scalar := Residue.ofNat _ ((Felt.modulus + Scalar.modulus) / 2)
    have htweak : k ≠ sampleTweak := by decide +kernel
    have hkeeps : k.KeepsKey := by decide
    have hband : Felt.modulus < k.val := by decide
    obtain ⟨output, claim, proof, witness, -, hclaim, hkey, -, hwitness⟩ :=
      exists_witness_of_privateKey htweak (by decide)
    obtain ⟨hmark, hopens⟩ := (witness_opens_key _ _ _).2 _ _ _ _ hclaim hwitness
    rw [hkey] at hopens
    refine ⟨_, _, claim, proof, _, witness, hclaim, hwitness, ?_, hmark, hopens.2 hkeeps⟩
    rw [hkey]
    exact hband

/-- The private key one above the field modulus: its witness is handed out and
holds the scalar one, which does not open the key. -/
theorem wrapped_key_unopened :
    ∃ (keys : Keys) (output : Stealth.Output) (claim : Claim) (proof : Merkle.Inclusion)
      (witness : Witness),
      let tree := (Merkle.feed (Merkle.Archive.empty fourLevels) [output.commitment]).1
      Protocol.standard.send keys.metaAddress 7 none 5 = .ok output ∧
        Protocol.standard.claim keys (output.announcement 0 0 []) = .ok claim ∧
        tree.prove 0 = .ok proof ∧ Witness.ofClaim claim proof tree.root = .ok witness ∧
        (mulGenerator (Scalar.ofFelt witness.privateScalar)).x? ≠ some witness.keyX := by
  have htweak : Residue.ofNat Scalar.modulus (Felt.modulus + 1) ≠ sampleTweak := by
    decide +kernel
  have hwraps : ¬ Scalar.KeepsKey (Residue.ofNat _ (Felt.modulus + 1)) := by decide
  obtain ⟨output, claim, proof, witness, hsend, hclaim, hkey, hprove, hwitness⟩ :=
    exists_witness_of_privateKey htweak (by decide)
  refine ⟨_, output, claim, proof, witness, hsend, hclaim, hprove, hwitness, ?_⟩
  intro hopens
  have hkeeps := (Witness.opensKey_of_claim_iff hclaim hwitness).2.1 hopens
  rw [hkey] at hkeeps
  exact hwraps hkeeps

end Spend

end ShieldedPool
