/-
Claiming a payment.  The private key of a one-time key is the spend secret
plus the tweak.  It is hashed as a field element, that is modulo the field
modulus, although it is a scalar.
-/
import ShieldedPool.Stealth.Detection

namespace ShieldedPool.Stealth

/-- What spending an owned position needs. -/
structure Claim where
  privateKey : Scalar
  stealthPub : Point
  commitment : Felt
  amount : UInt64
  epoch : Option UInt64
  leafIndex : UInt64
  nullifier : Felt
  nullifierHash : Felt
deriving DecidableEq

namespace Claim

def privateFelt (claim : Claim) : Felt := claim.privateKey.toFelt

end Claim

/-- Derive what spending an announced position needs.  The position must be
the keys' own, and the derived key must open its one-time point. -/
def Protocol.claim (protocol : Protocol) (keys : Keys) (a : Announcement) :
    Except Failure Claim := do
  let candidate ← (protocol.candidate keys a).mapError .point
  if positionCommitment candidate.x a.amount a.epoch ≠ a.commitment then
    throw .notOwner
  let privateKey := keys.spend + candidate.tweak
  if Point.mulGenerator privateKey ≠ candidate.point then throw .notOwner
  return {
    privateKey
    stealthPub := candidate.point
    commitment := a.commitment
    amount := a.amount
    epoch := a.epoch
    leafIndex := a.leafIndex
    nullifier := nullifier privateKey.toFelt a.leafIndex
    nullifierHash := spendMark privateKey.toFelt a.leafIndex }

end ShieldedPool.Stealth
