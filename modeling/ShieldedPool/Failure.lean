/-
Why an operation of the pool is refused.  Every noun has its own causes;
`Failure` gathers them for operations that several nouns take part in.  A
refused operation has no effect, and its cause carries what the one-line
message says.
-/
import ShieldedPool.Base58
import ShieldedPool.Point

namespace ShieldedPool

/-- A part of a ledger account that holds a field element. -/
inductive AccountPart
  | root
  | frontierNode
  | historicalRoot
deriving DecidableEq

def AccountPart.name : AccountPart → String
  | root => "root"
  | frontierNode => "frontier node"
  | historicalRoot => "historical root"

/-- Why a published tree state is malformed. -/
inductive TreeStateDefect
  | frontierLength (count expected : Nat)
  | beyondCapacity (nextIndex capacity : Nat)
  | accountLength (count expected : Nat)
  | discriminator (found expected : UInt8)
  | notCanonical (part : AccountPart) (offset : Nat)
deriving DecidableEq

def TreeStateDefect.reason : TreeStateDefect → String
  | frontierLength count expected =>
      s!"frontier has {count} levels, expected {expected}"
  | beyondCapacity nextIndex capacity =>
      s!"next index {nextIndex} exceeds capacity {capacity}"
  | accountLength count expected => s!"account is {count} bytes, expected {expected}"
  | discriminator found expected =>
      s!"discriminator 0x{Hex.encode [found]}, expected 0x{Hex.encode [expected]}"
  | notCanonical part offset => s!"{part.name} at offset {offset} is not canonical"

/-- Why an announcement record is malformed. -/
inductive AnnouncementDefect
  | empty
  | version (found expected : UInt8)
  | truncated
  | trailing
  | optionTag (found : UInt8)
  | payloadTooLong (count limit : Nat)
  | ephemeralKey (defect : PointDefect)
  | commitment (defect : ResidueDefect)
deriving DecidableEq

def AnnouncementDefect.reason : AnnouncementDefect → String
  | empty => "empty record"
  | version found expected => s!"record version {found}, expected {expected}"
  | truncated => "Unexpected length of input"
  | trailing => "Not all bytes read"
  | optionTag found =>
      s!"Invalid Option representation: {found}. The first byte must be 0 or 1"
  | payloadTooLong count limit => s!"payload of {count} bytes exceeds {limit}"
  | ephemeralKey defect => s!"ephemeral key: {defect.message}"
  | commitment defect => s!"commitment: {defect.message}"

/-- Why a text or byte string is no meta-address. -/
inductive MetaAddressDefect
  | length (count expected : Nat)
  | text (defect : Base58.Defect)
deriving DecidableEq

def MetaAddressDefect.reason : MetaAddressDefect → String
  | length count expected => s!"expected {expected} bytes, got {count}"
  | text defect => defect.reason

/-- A part of the binary form of note secrets. -/
inductive SecretsPart
  | version
  | amount
  | privateScalar
  | auxSecret
  | flags
  | leafIndex
  | commitment
  | nullifierHash
deriving DecidableEq

def SecretsPart.name : SecretsPart → String
  | version => "version"
  | amount => "amount"
  | privateScalar => "private scalar"
  | auxSecret => "aux secret"
  | flags => "flags"
  | leafIndex => "leaf index"
  | commitment => "commitment"
  | nullifierHash => "nullifier hash"

/-- Why a note or its secrets are malformed. -/
inductive NoteDefect
  | zeroScalar
  | commitmentMismatch
  | orphanNullifierHash
  | nullifierHashMismatch
  | truncatedBefore (part : SecretsPart)
  | version (found : UInt8)
  | notCanonical (part : SecretsPart)
  | unknownFlags (flags : UInt8)
  | trailing (count : Nat)
  | unreadableDocument
deriving DecidableEq

def binaryDigits (byte : UInt8) : String :=
  String.ofList ((List.range 8).map fun i =>
    if byte.toNat.testBit (7 - i) then '1' else '0')

def NoteDefect.reason : NoteDefect → String
  | zeroScalar => "private scalar must be non-zero"
  | commitmentMismatch => "stored commitment does not match secrets"
  | orphanNullifierHash => "nullifier hash stored without a leaf index"
  | nullifierHashMismatch => "stored nullifier hash does not match secrets"
  | truncatedBefore part => s!"truncated before {part.name}"
  | version found => s!"unsupported version {found}"
  | notCanonical part => s!"{part.name} is not a canonical field element"
  | unknownFlags flags => s!"unknown flags 0b{binaryDigits flags}"
  | trailing count => s!"{count} trailing bytes"
  | unreadableDocument => "unreadable document"

/-- Why a spend witness is refused. -/
inductive WitnessDefect
  | wrongRoot (leafIndex : UInt64) (root : Felt)
  | pathDisagrees
  | notePosition (proved held : UInt64)
  | claimPosition (proved held : UInt64)
  | yieldPosition
deriving DecidableEq

def WitnessDefect.reason : WitnessDefect → String
  | wrongRoot leafIndex root =>
      s!"commitment at leaf {leafIndex} does not fold to root {root.toHex}"
  | pathDisagrees => "path bits disagree with leaf index"
  | notePosition proved held => s!"proof is for leaf {proved}, note sits at {held}"
  | claimPosition proved held => s!"proof is for leaf {proved}, claim sits at {held}"
  | yieldPosition => "yield positions use a different circuit"

/-- Why a configuration is refused. -/
inductive ConfigDefect
  | configuredDepth (depth limit : Nat)
  | configuredHistory
  | configuredTag
  | treeDepth (depth limit : Nat)
  | rootHistory
  | unparsable
  | unreadable
  | cannotCreate
  | cannotWrite
deriving DecidableEq

def ConfigDefect.reason : ConfigDefect → String
  | configuredDepth depth limit => s!"tree_depth {depth} outside 1..={limit}"
  | configuredHistory => "root_history_size must be at least 1"
  | configuredTag => "stealth_domain_tag must not be empty"
  | treeDepth depth limit => s!"tree depth {depth} outside 1..={limit}"
  | rootHistory => "root history size must be at least 1"
  | unparsable => "failed to parse config"
  | unreadable => "failed to read"
  | cannotCreate => "failed to create"
  | cannotWrite => "failed to write"

/-- Why an operation is refused. -/
inductive Failure
  | residue (defect : ResidueDefect)
  | point (defect : PointDefect)
  | engineNotReady
  | inputCount (count limit : Nat)
  | treeFull (capacity : Nat)
  /-- A proof whose parts are not of one length, or not of the tree's. -/
  | proofLength (expected siblings pathBits : Nat)
  | leafAbsent (index nextIndex : Nat)
  /-- The leaf is inserted but not the latest one of a frontier. -/
  | proofUnavailable (index : Nat)
  /-- The empty root is not the configured one. -/
  | emptyRootMismatch (expected actual : Felt)
  /-- An empty node is not the pinned one of its level. -/
  | pinnedNodeMismatch (level : Nat) (expected actual : Felt)
  | treeState (defect : TreeStateDefect)
  /-- A frontier does not lead to the claimed root, or not to itself. -/
  | rootMismatch (claimed derived : Felt)
  /-- The keys do not own the announced position. -/
  | notOwner
  | announcement (defect : AnnouncementDefect)
  | metaAddress (defect : MetaAddressDefect)
  | leafIndexUnassigned
  | note (defect : NoteDefect)
  | duplicateSpend (nullifierHash : Felt)
  | witness (defect : WitnessDefect)
  | config (defect : ConfigDefect)
  /-- An index, or a number of bytes, is beyond what a machine word counts. -/
  | overflow
deriving DecidableEq

namespace Failure

def message : Failure → String
  | residue defect => defect.message
  | point defect => defect.message
  | engineNotReady => "Hash engine used before initialization"
  | inputCount count limit =>
      s!"Unsupported Poseidon arity {count} - supported arities are 1 to {limit}"
  | treeFull capacity => s!"Commitment tree is full - capacity is {capacity} leaves"
  | proofLength expected siblings pathBits =>
      s!"Merkle proof length mismatch - expected {expected}, got {siblings} siblings and {pathBits} path bits"
  | leafAbsent index nextIndex =>
      s!"Leaf index {index} has not been inserted (next index is {nextIndex})"
  | proofUnavailable index =>
      s!"Proof for leaf {index} cannot be reconstructed from the frontier - use a full accumulator"
  | emptyRootMismatch expected actual =>
      s!"Tree depth mismatch - empty root {actual.toHex} does not match expected {expected.toHex}"
  | pinnedNodeMismatch level expected actual =>
      s!"Tree depth mismatch - empty root {actual.toHex} does not match expected level {level} = {expected.toHex}"
  | treeState defect => s!"Malformed remote tree state: {defect.reason}"
  | rootMismatch claimed derived =>
      s!"Remote tree state root {claimed.toHex} does not match frontier-derived root {derived.toHex}"
  | notOwner => "Stealth key mismatch - these keys do not own this position"
  | announcement defect => s!"Malformed stealth announcement: {defect.reason}"
  | metaAddress defect => s!"Invalid meta-address: {defect.reason}"
  | leafIndexUnassigned =>
      "Note has no leaf index yet - it must be accepted by the ledger before spending"
  | note defect => s!"Malformed note encoding: {defect.reason}"
  | duplicateSpend nullifierHash =>
      s!"A spend for nullifier hash {nullifierHash.toHex} is already in flight"
  | witness defect => s!"Invalid spend witness: {defect.reason}"
  | config defect => s!"Configuration error: {defect.reason}"
  | overflow => "A number does not fit in 64 bits"

end Failure

end ShieldedPool
