/-
Meta-addresses: the public spend and view points of a recipient.  The binary
form is the two compressed points in that order; the text form is its base-58
text behind a marker that may be left out when it is read.
-/
import ShieldedPool.Failure
import ShieldedPool.Keys
import ShieldedPool.Point.Compressed

namespace ShieldedPool

/-- What a recipient publishes. -/
structure MetaAddress where
  spendPub : Point
  viewPub : Point
deriving DecidableEq

namespace MetaAddress

/-- Bytes of the binary form. -/
def byteLength : Nat := 2 * Point.compressedBytes

/-- The marker of the text form. -/
def textMarker : String := "stealth:"

/-- Both points are usable public keys. -/
def validate (address : MetaAddress) : Except PointDefect Unit :=
  match address.spendPub.validate with
  | .error defect => .error defect
  | .ok () => address.viewPub.validate

/-- The address of two usable points. -/
def create (spendPub viewPub : Point) : Except PointDefect MetaAddress :=
  (validate ⟨spendPub, viewPub⟩).map fun _ => ⟨spendPub, viewPub⟩

/-- The 66 bytes of an address. -/
def toBytes (address : MetaAddress) : Bytes :=
  address.spendPub.compress ++ address.viewPub.compress

def ofBytes (bytes : Bytes) : Except Failure MetaAddress := do
  if bytes.length ≠ byteLength then
    throw (.metaAddress (.length bytes.length byteLength))
  let spendPub ←
    (Point.decompress (bytes.take Point.compressedBytes)).mapError .point
  let viewPub ←
    (Point.decompress (bytes.drop Point.compressedBytes)).mapError .point
  (create spendPub viewPub).mapError .point

def toText (address : MetaAddress) : String :=
  textMarker ++ Base58.encode address.toBytes

/-- A text without the marker at its front. -/
def stripMarker (text : String) : String :=
  if textMarker.toList.isPrefixOf text.toList then
    String.ofList (text.toList.drop textMarker.length)
  else text

/-- Read the text form, with the marker or without. -/
def ofText (text : String) : Except Failure MetaAddress :=
  match Base58.decode (stripMarker text) with
  | .error defect => .error (.metaAddress (.text defect))
  | .ok bytes => ofBytes bytes

end MetaAddress

def Keys.metaAddress (keys : Keys) : MetaAddress := ⟨keys.spendPub, keys.viewPub⟩

end ShieldedPool
