/-
The document of an inclusion proof.
-/
import ShieldedPool.Json.Document
import ShieldedPool.Merkle.Inclusion

namespace ShieldedPool.Merkle.Inclusion

def fieldNames : List String := ["leaf_index", "siblings", "path_bits"]

/-- The document, on one line. -/
def toJson (proof : Inclusion) : String :=
  Json.compactRecord
    [("leaf_index", Json.ofNatural proof.leafIndex.toNat),
     ("siblings", Json.compactList (proof.siblings.map Json.ofFelt)),
     ("path_bits", Json.compactList (proof.pathBits.map Json.ofBool))]

def ofValue? (v : Json.Value) : Option Inclusion := do
  match ← v.fields? fieldNames with
  | [leafIndex, siblings, pathBits] =>
      let leafIndex ← Json.required? Json.Value.word64? leafIndex
      let siblings ← Json.required? (Json.Value.listOf? Json.Value.felt?) siblings
      let pathBits ← Json.required? (Json.Value.listOf? Json.Value.bool?) pathBits
      return { leafIndex, siblings, pathBits }
  | _ => none

def ofJson? (document : String) : Option Inclusion :=
  (Json.parse? document).bind ofValue?

end ShieldedPool.Merkle.Inclusion
