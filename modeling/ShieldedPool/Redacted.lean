/-
One-line descriptions for logs.  They show public values only: a secret is
never part of a description, and a structure that has one ends in two dots.
-/
import ShieldedPool.Engine
import ShieldedPool.Spend.Witness

namespace ShieldedPool

/-- A name and named values, on one line. -/
def describeFields (name : String) (fields : List (String × String)) (hidden : Bool) :
    String :=
  let shown := fields.map fun field => field.1 ++ ": " ++ field.2
  let parts := if hidden then shown ++ [".."] else shown
  name ++ " \x7b " ++ ", ".intercalate parts ++ " \x7d"

/-- A value that may be absent. -/
def describeOption {α : Type} (describe : α → String) : Option α → String
  | none => "None"
  | some a => "Some(" ++ describe a ++ ")"

def describeFelt (a : Felt) : String := "FieldElement(" ++ a.toHex ++ ")"

def describeScalar (k : Scalar) : String := "Scalar(" ++ k.toHex ++ ")"

/-- A secret scalar. -/
def describeSecret (_ : Scalar) : String := "SecretScalar(..)"

def describeWord (word : UInt64) : String := toString word.toNat

namespace Point

def describe : Point → String
  | infinity => "Point::Infinity"
  | affine x y => "Point(" ++ x.toHex ++ ", " ++ y.toHex ++ ")"

end Point

def Engine.describe (_ : Engine) : String :=
  describeFields "HashEngine" [("arities", toString Poseidon.maxInputs)] false

/-- The protocol, with the bytes of its tag. -/
def Stealth.Protocol.describe (protocol : Stealth.Protocol) : String :=
  let bytes := protocol.domainTag.map fun byte => toString byte.toNat
  describeFields "StealthProtocol"
    [("engine", Engine.loaded.describe),
     ("domain_tag", "[" ++ ", ".intercalate bytes ++ "]")] false

/-- A key set, by its public points. -/
def Keys.describe (keys : Keys) : String :=
  describeFields "StealthKeys"
    [("view_pub", keys.viewPub.describe), ("spend_pub", keys.spendPub.describe)] true

/-- A viewing key, by its public spend point. -/
def ViewingKey.describe (key : ViewingKey) : String :=
  describeFields "ViewingKey" [("spend_pub", key.spendPub.describe)] true

/-- A note, by its commitment and leaf. -/
def Note.describe (note : Note) : String :=
  describeFields "Note"
    [("amount", describeWord note.amount),
     ("commitment", describeFelt note.commitment),
     ("leaf_index", describeOption describeWord note.leafIndex)] true

/-- Stored secrets, by what of them is public. -/
def NoteSecrets.describe (secrets : NoteSecrets) : String :=
  describeFields "NoteSecrets"
    [("version", toString secrets.version.toNat),
     ("amount", describeWord secrets.amount),
     ("leaf_index", describeOption describeWord secrets.leafIndex),
     ("commitment", describeOption describeFelt secrets.commitment)] true

/-- A claim, by its point, leaf and published mark. -/
def Stealth.Claim.describe (claim : Stealth.Claim) : String :=
  describeFields "StealthClaim"
    [("stealth_pub", claim.stealthPub.describe),
     ("leaf_index", describeWord claim.leafIndex),
     ("nullifier_hash", describeFelt claim.nullifierHash)] true

/-- A witness, by its public inputs and leaf. -/
def Spend.Witness.describe (witness : Spend.Witness) : String :=
  describeFields "SpendWitness"
    [("amount", describeWord witness.amount),
     ("leaf_index", describeWord witness.leafIndex),
     ("merkle_root", describeFelt witness.root),
     ("nullifier_hash", describeFelt witness.nullifierHash)] true

end ShieldedPool
