/-
Keys of a recipient.  The view secret finds payments, the spend secret claims
them.  A complete key set holds both and their public points; the viewing key
is the part that finds but cannot claim.  Either of them can scan.
-/
import ShieldedPool.Failure
import ShieldedPool.Sha256

namespace ShieldedPool

/-- The scalar of the digest of a byte string. -/
def hashToScalar (message : Bytes) : Scalar := Scalar.reduce (Sha256.hash message)

def textBytes (text : String) : Bytes := text.toUTF8.toList

/-- What finds payments: the view secret and the public spend point. -/
structure ViewingKey where
  view : Scalar
  spendPub : Point
deriving DecidableEq

namespace ViewingKey

/-- The viewing key of a secret and a usable public point. -/
def create (view : Scalar) (spendPub : Point) : Except PointDefect ViewingKey :=
  spendPub.validate.map fun _ => ⟨view, spendPub⟩

def viewPub (key : ViewingKey) : Point := Point.mulGenerator key.view

end ViewingKey

/-- A complete key set: two secrets, neither of them zero, and their points. -/
structure Keys where
  view : Scalar
  spend : Scalar
  viewPub : Point
  spendPub : Point
  view_ne_zero : view ≠ 0
  spend_ne_zero : spend ≠ 0
  viewPub_eq : viewPub = Point.mulGenerator view
  spendPub_eq : spendPub = Point.mulGenerator spend

namespace Keys

/-- The key set of two secrets, which must not be zero. -/
def ofScalars (view spend : Scalar) (refusal : PointDefect) :
    Except PointDefect Keys :=
  if h : view ≠ 0 ∧ spend ≠ 0 then
    .ok ⟨view, spend, Point.mulGenerator view, Point.mulGenerator spend, h.1, h.2,
      rfl, rfl⟩
  else .error refusal

/-- The key set of a seed: each secret is the digest of a label and the seed. -/
def ofSeed (seed : Bytes) : Except PointDefect Keys :=
  ofScalars (hashToScalar (textBytes "shielded/view" ++ seed))
    (hashToScalar (textBytes "shielded/spend" ++ seed)) .zeroSeedSecret

/-- The key set of two stored secrets, each of them 32 bytes. -/
def ofSecrets (view spend : Bytes) : Except Failure Keys := do
  let view ← (Scalar.ofBytes view).mapError .residue
  let spend ← (Scalar.ofBytes spend).mapError .residue
  (ofScalars view spend .zeroSecret).mapError .point

/-- The secrets to store, view secret first. -/
def secrets (keys : Keys) : Bytes × Bytes := (keys.view.toBytes, keys.spend.toBytes)

def viewingKey (keys : Keys) : ViewingKey := ⟨keys.view, keys.spendPub⟩

end Keys

/-- Keys that find payments: a view secret and the public spend point. -/
class ScanKey (κ : Type) where
  view : κ → Scalar
  spendPub : κ → Point

instance : ScanKey Keys := ⟨Keys.view, Keys.spendPub⟩

instance : ScanKey ViewingKey := ⟨ViewingKey.view, ViewingKey.spendPub⟩

end ShieldedPool
