/-
One-time keys.  Sender and recipient share a secret point, each by multiplying
the other's public point with an own secret.  The tweak is a scalar derived
from that point and a domain tag, and the one-time key is the recipient's
spend point plus the tweak times the generator.  The sender uses a fresh
secret for every payment, so every payment has a key of its own.
-/
import ShieldedPool.Commitment
import ShieldedPool.Config
import ShieldedPool.MetaAddress
import ShieldedPool.Stealth.Announcement

namespace ShieldedPool.Stealth

/-- The protocol, under the tag that separates its derivations. -/
structure Protocol where
  domainTag : Bytes
deriving DecidableEq

/-- The scalar of a shared secret under a tag. -/
def deriveTweak (sharedSecret : Point) (domainTag : Bytes) : Scalar :=
  hashToScalar (sharedSecret.compress ++ domainTag)

/-- A one-time key: the tweak, and the point as its coordinates. -/
structure OneTimeKey where
  tweak : Scalar
  x : Felt
  y : Felt
deriving DecidableEq

def OneTimeKey.point (key : OneTimeKey) : Point := .affine key.x key.y

/-- What a sender computes for a payment. -/
structure Output where
  ephemeralPub : Point
  stealthPub : Point
  commitment : Felt
  amount : UInt64
  epoch : Option UInt64
deriving DecidableEq

/-- The announcement of an output at a leaf. -/
def Output.announcement (output : Output) (leafIndex : UInt64) (createdAt : Int64)
    (payload : Bytes) : Announcement :=
  { ephemeralPub := output.ephemeralPub
    amount := output.amount
    epoch := output.epoch
    commitment := output.commitment
    leafIndex, createdAt, payload }

namespace Protocol

def standard : Protocol := ⟨textBytes defaultDomainTag⟩

def ofConfig (config : Config) : Protocol := ⟨textBytes config.domainTag⟩

/-- The one-time key for a shared secret and a spend point. -/
def oneTimeKey (protocol : Protocol) (sharedSecret spendPub : Point) :
    Except PointDefect OneTimeKey :=
  if sharedSecret = .infinity then .error .infiniteSharedSecret
  else
    let tweak := deriveTweak sharedSecret protocol.domainTag
    match spendPub.add (Point.mulGenerator tweak) with
    | .infinity => .error .infiniteDerivedKey
    | .affine x y => .ok ⟨tweak, x, y⟩

/-- Compute a payment with a given fresh secret. -/
def send (protocol : Protocol) (recipient : MetaAddress) (amount : UInt64)
    (epoch : Option UInt64) (ephemeral : Scalar) : Except PointDefect Output := do
  recipient.validate
  if ephemeral = 0 then throw .zeroEphemeral
  let key ←
    protocol.oneTimeKey (recipient.viewPub.mul ephemeral) recipient.spendPub
  return {
    ephemeralPub := Point.mulGenerator ephemeral
    stealthPub := key.point
    commitment := positionCommitment key.x amount epoch
    amount, epoch }

end Protocol

end ShieldedPool.Stealth
