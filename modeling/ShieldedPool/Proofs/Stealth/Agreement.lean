/-
Sender and recipient agree.  Both multiply the generator by the view secret
and the fresh secret, in either order, so they derive one tweak; the point of
the spend secret plus the tweak is the sum that the sender forms.  Since `q` is
prime the shared point is never at infinity, and a payment is refused only
where the one-time key itself would be.
-/
import ShieldedPool.Proofs.KeySets
import ShieldedPool.Proofs.Stealth.RecordCodec
import ShieldedPool.Stealth.Claim

namespace ShieldedPool

open Point (mulGenerator)

namespace Stealth

variable (protocol : Protocol) (keys : Keys) (ephemeral : Scalar)

/-- The tweak of a payment, from the secret point that both sides reach. -/
def Protocol.paymentTweak : Scalar :=
  deriveTweak (keys.viewPub.mul ephemeral) protocol.domainTag

variable {protocol keys ephemeral}

theorem sharedSecret_ne_infinity (hephemeral : ephemeral ≠ 0) :
    keys.viewPub.mul ephemeral ≠ .infinity := by
  rw [keys.viewPub_eq, Point.mul_mulGenerator, Ne, Point.mulGenerator_eq_infinity_iff,
    Residue.mul_eq_zero_iff]
  exact not_or_intro keys.view_ne_zero hephemeral

theorem sharedSecret_agree :
    (mulGenerator ephemeral).mul keys.view = keys.viewPub.mul ephemeral := by
  rw [keys.viewPub_eq, Point.mul_mulGenerator_comm]

theorem stealthPub_eq :
    keys.spendPub.add (mulGenerator (protocol.paymentTweak keys ephemeral)) =
      mulGenerator (keys.spend + protocol.paymentTweak keys ephemeral) := by
  rw [keys.spendPub_eq, Point.mulGenerator_add]

/-- The one-time key, on both sides of a payment. -/
theorem oneTimeKey_eq (hephemeral : ephemeral ≠ 0) :
    protocol.oneTimeKey (keys.viewPub.mul ephemeral) keys.spendPub =
      match mulGenerator (keys.spend + protocol.paymentTweak keys ephemeral) with
      | .infinity => .error .infiniteDerivedKey
      | .affine x y => .ok ⟨protocol.paymentTweak keys ephemeral, x, y⟩ := by
  rw [Protocol.oneTimeKey, if_neg (sharedSecret_ne_infinity hephemeral), ← stealthPub_eq]
  rfl

theorem candidate_eq {κ : Type} [ScanKey κ] {key : κ} (hview : ScanKey.view key = keys.view)
    (hspend : ScanKey.spendPub key = keys.spendPub) (hephemeral : ephemeral ≠ 0)
    {a : Announcement} (ha : a.ephemeralPub = mulGenerator ephemeral) :
    protocol.candidate key a =
      protocol.oneTimeKey (keys.viewPub.mul ephemeral) keys.spendPub := by
  have hvalid : a.ephemeralPub.validate = .ok () := by
    rw [ha, Point.validate_eq_ok_iff]
    exact Point.validKey_mulGenerator hephemeral
  rw [Protocol.candidate, hvalid, ok_bind, ha, hview, hspend, sharedSecret_agree]

section Outcome

variable {amount : UInt64} {epoch : Option UInt64} {x y : Felt}

theorem send_eq (hephemeral : ephemeral ≠ 0) :
    protocol.send keys.metaAddress amount epoch ephemeral =
      match mulGenerator (keys.spend + protocol.paymentTweak keys ephemeral) with
      | .infinity => .error .infiniteDerivedKey
      | .affine x y => .ok {
          ephemeralPub := mulGenerator ephemeral
          stealthPub := .affine x y
          commitment := positionCommitment x amount epoch
          amount, epoch } := by
  rw [Protocol.send, keys.validate_metaAddress, ok_bind]
  simp only [if_neg hephemeral, Keys.metaAddress, oneTimeKey_eq hephemeral]
  split <;> rfl

/-- A payment is sent exactly when the fresh secret is not zero and the one-time
point is finite. -/
theorem send_eq_ok_iff {output : Output} :
    protocol.send keys.metaAddress amount epoch ephemeral = .ok output ↔
      ephemeral ≠ 0 ∧ ∃ x y,
        mulGenerator (keys.spend + protocol.paymentTweak keys ephemeral) = .affine x y ∧
          output = {
            ephemeralPub := mulGenerator ephemeral
            stealthPub := .affine x y
            commitment := positionCommitment x amount epoch
            amount, epoch } := by
  by_cases hephemeral : ephemeral = 0
  · rw [Protocol.send, keys.validate_metaAddress, ok_bind, if_pos hephemeral]
    simp [hephemeral]
  · rw [send_eq hephemeral]
    rcases mulGenerator (keys.spend + protocol.paymentTweak keys ephemeral) with _ | ⟨x, y⟩
    · simp
    · simp [hephemeral, eq_comm]

theorem detect_eq {κ : Type} [ScanKey κ] {key : κ} (hview : ScanKey.view key = keys.view)
    (hspend : ScanKey.spendPub key = keys.spendPub) (hephemeral : ephemeral ≠ 0)
    (hpoint : mulGenerator (keys.spend + protocol.paymentTweak keys ephemeral) = .affine x y)
    {a : Announcement} (ha : a.ephemeralPub = mulGenerator ephemeral)
    (hcommitment : a.commitment = positionCommitment x a.amount a.epoch) :
    protocol.detect key a = .ok (some (.affine x y)) := by
  rw [Protocol.detect, candidate_eq hview hspend hephemeral ha, oneTimeKey_eq hephemeral,
    hpoint]
  simp only [ok_bind, hcommitment, if_true]
  rfl

theorem claim_eq (hephemeral : ephemeral ≠ 0)
    (hpoint : mulGenerator (keys.spend + protocol.paymentTweak keys ephemeral) = .affine x y)
    {a : Announcement} (ha : a.ephemeralPub = mulGenerator ephemeral)
    (hcommitment : a.commitment = positionCommitment x a.amount a.epoch) :
    protocol.claim keys a = .ok {
      privateKey := keys.spend + protocol.paymentTweak keys ephemeral
      stealthPub := .affine x y
      commitment := a.commitment
      amount := a.amount
      epoch := a.epoch
      leafIndex := a.leafIndex
      nullifier := nullifier
        (keys.spend + protocol.paymentTweak keys ephemeral).toFelt a.leafIndex
      nullifierHash := spendMark
        (keys.spend + protocol.paymentTweak keys ephemeral).toFelt a.leafIndex } := by
  rw [Protocol.claim, candidate_eq rfl rfl hephemeral ha, oneTimeKey_eq hephemeral, hpoint]
  simp only [mapError_ok, ok_bind, OneTimeKey.point, hcommitment, hpoint, ne_eq,
    not_true_eq_false, if_false]
  rfl

end Outcome

end Stealth

end ShieldedPool
