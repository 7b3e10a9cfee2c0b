/-
The protocol configuration and its document.  Fields that a document leaves
out take the ledger's values; an expected empty root of null means that none
is expected, which is another thing than leaving it out.
-/
import ShieldedPool.Json.Document
import ShieldedPool.Merkle.PinnedNodes

namespace ShieldedPool

/-- The number of roots that the ledger keeps. -/
def defaultHistorySize : UInt64 := 100

/-- The text that separates the derivation of one-time keys from every other
use of a shared secret. -/
def defaultDomainTag : String := "shielded-core/stealth-scalar/v1"

/-- What a client has to know of the ledger. -/
structure Config where
  treeDepth : UInt64 := UInt64.ofNat Merkle.ledgerDepth
  rootHistorySize : UInt64 := defaultHistorySize
  expectedEmptyRoot : Option Felt := some Merkle.pinnedEmptyRoot
  domainTag : String := defaultDomainTag
deriving DecidableEq

namespace Config

def validate (config : Config) : Except ConfigDefect Unit :=
  if config.treeDepth.toNat = 0 ∨ Merkle.maxDepth < config.treeDepth.toNat then
    .error (.configuredDepth config.treeDepth.toNat Merkle.maxDepth)
  else if config.rootHistorySize = 0 then .error .configuredHistory
  else if config.domainTag.isEmpty then .error .configuredTag
  else .ok ()

def fieldNames : List String :=
  ["tree_depth", "root_history_size", "expected_empty_root", "stealth_domain_tag"]

def ofValue? (v : Json.Value) : Option Config := do
  let standard : Config := {}
  match ← v.fields? fieldNames with
  | [depth, history, root, tag] =>
      let depth ← Json.fieldOr? standard.treeDepth Json.Value.word64? depth
      let history ← Json.fieldOr? standard.rootHistorySize Json.Value.word64? history
      let root ← Json.fieldOr? standard.expectedEmptyRoot (Json.Value.nullable? Json.Value.felt?) root
      let tag ← Json.fieldOr? standard.domainTag Json.Value.text? tag
      return ⟨depth, history, root, tag⟩
  | _ => none

/-- Read and validate a document. -/
def ofJson (document : String) : Except ConfigDefect Config :=
  match (Json.parse? document).bind ofValue? with
  | none => .error .unparsable
  | some config => config.validate.map fun _ => config

/-- The document of a configuration, one field a line. -/
def toJson (config : Config) : String :=
  Json.prettyRecord
    [("tree_depth", Json.ofNatural config.treeDepth.toNat),
     ("root_history_size", Json.ofNatural config.rootHistorySize.toNat),
     ("expected_empty_root",
       Json.ofOption Json.ofFelt config.expectedEmptyRoot),
     ("stealth_domain_tag", Json.quote config.domainTag)]

/-- The depth of the trees of a valid configuration, once the root of an empty
tree is what the configuration expects. -/
def depth (config : Config) : Except Failure Merkle.Depth :=
  match config.validate with
  | .error defect => .error (.config defect)
  | .ok () =>
      match Merkle.Depth.ofNat config.treeDepth.toNat, config.expectedEmptyRoot with
      | .error failure, _ => .error failure
      | .ok depth, none => .ok depth
      | .ok depth, some expected => (depth.checkEmptyRoot expected).map fun _ => depth

def pathBelow (home : String) : String :=
  let separator := if home.endsWith "/" then "" else "/"
  home ++ separator ++ ".shielded/config.json"

end Config

end ShieldedPool
