/-
Stored note secrets.  The binary form has fixed fields, then a byte of flags
that says which of the optional fields follow, in order.  The document form
leaves absent fields out.
-/
import ShieldedPool.Failure
import ShieldedPool.Json.Document

namespace ShieldedPool

/-- The secrets of a note as they are stored or shared. -/
structure NoteSecrets where
  version : UInt8
  amount : UInt64
  privateScalar : Felt
  auxSecret : Felt
  leafIndex : Option UInt64
  commitment : Option Felt
  nullifierHash : Option Felt
deriving DecidableEq

namespace NoteSecrets

def currentVersion : UInt8 := 1

/-- The flags: one for the leaf index, two for the commitment, four for the
nullifier hash. -/
def flags (secrets : NoteSecrets) : UInt8 :=
  (if secrets.leafIndex.isSome then 1 else 0)
    + (if secrets.commitment.isSome then 2 else 0)
    + (if secrets.nullifierHash.isSome then 4 else 0)

/-- The bytes of a value that may be absent. -/
def optionalBytes {α : Type} (write : α → Bytes) : Option α → Bytes
  | none => []
  | some a => write a

def toBytes (secrets : NoteSecrets) : Bytes :=
  secrets.version :: Bytes.ofWord64 secrets.amount
    ++ secrets.privateScalar.toBytes
    ++ secrets.auxSecret.toBytes
    ++ secrets.flags :: optionalBytes Bytes.ofWord64 secrets.leafIndex
    ++ optionalBytes Residue.toBytes secrets.commitment
    ++ optionalBytes Residue.toBytes secrets.nullifierHash

/-- Take a byte off the front. -/
def takeByte (part : SecretsPart) : Bytes → Except NoteDefect (UInt8 × Bytes)
  | [] => .error (.truncatedBefore part)
  | byte :: rest => .ok (byte, rest)

def takeWord64 (part : SecretsPart) (bytes : Bytes) :
    Except NoteDefect (UInt64 × Bytes) :=
  match Bytes.split? 8 bytes with
  | none => .error (.truncatedBefore part)
  | some (head, rest) => .ok (Bytes.toWord64 head, rest)

def takeFelt (part : SecretsPart) (bytes : Bytes) :
    Except NoteDefect (Felt × Bytes) :=
  match Bytes.split? residueBytes bytes with
  | none => .error (.truncatedBefore part)
  | some (head, rest) =>
      match Felt.ofBytes head with
      | .error _ => .error (.notCanonical part)
      | .ok a => .ok (a, rest)

/-- Take a value off the front if its flag is set. -/
def takeIf {α : Type} (present : Bool)
    (take : Bytes → Except NoteDefect (α × Bytes)) (bytes : Bytes) :
    Except NoteDefect (Option α × Bytes) :=
  if present then (take bytes).map fun taken => (some taken.1, taken.2)
  else .ok (none, bytes)

def ofBytes (bytes : Bytes) : Except NoteDefect NoteSecrets := do
  let (version, bytes) ← takeByte .version bytes
  if version ≠ currentVersion then throw (.version version)
  let (amount, bytes) ← takeWord64 .amount bytes
  let (privateScalar, bytes) ← takeFelt .privateScalar bytes
  let (auxSecret, bytes) ← takeFelt .auxSecret bytes
  let (flags, bytes) ← takeByte .flags bytes
  if 8 ≤ flags.toNat then throw (.unknownFlags flags)
  let (leafIndex, bytes) ←
    takeIf (flags.toNat.testBit 0) (takeWord64 .leafIndex) bytes
  let (commitment, bytes) ←
    takeIf (flags.toNat.testBit 1) (takeFelt .commitment) bytes
  let (nullifierHash, bytes) ←
    takeIf (flags.toNat.testBit 2) (takeFelt .nullifierHash) bytes
  if bytes.isEmpty then
    return { version, amount, privateScalar, auxSecret, leafIndex, commitment,
             nullifierHash }
  else throw (.trailing bytes.length)

def fieldNames : List String :=
  ["version", "amount", "private_scalar", "aux_secret", "leaf_index", "commitment",
   "nullifier_hash"]

/-- A field of a document, unless the value is absent. -/
def optionalField {α : Type} (name : String) (write : α → String) :
    Option α → List (String × String)
  | none => []
  | some a => [(name, write a)]

/-- The document, one field a line. -/
def toJson (secrets : NoteSecrets) : String :=
  let word := fun w : UInt64 => Json.ofNatural w.toNat
  Json.prettyRecord
    ([("version", Json.ofNatural secrets.version.toNat),
      ("amount", word secrets.amount),
      ("private_scalar", Json.ofFelt secrets.privateScalar),
      ("aux_secret", Json.ofFelt secrets.auxSecret)]
      ++ optionalField "leaf_index" word secrets.leafIndex
      ++ optionalField "commitment" Json.ofFelt secrets.commitment
      ++ optionalField "nullifier_hash" Json.ofFelt secrets.nullifierHash)

def ofValue? (v : Json.Value) : Option NoteSecrets := do
  match ← v.fields? fieldNames with
  | [version, amount, privateScalar, auxSecret, leafIndex, commitment, nullifierHash] =>
      let version ← Json.required? Json.Value.byte? version
      let amount ← Json.required? Json.Value.word64? amount
      let privateScalar ← Json.required? Json.Value.felt? privateScalar
      let auxSecret ← Json.required? Json.Value.felt? auxSecret
      let leafIndex ← Json.optional? Json.Value.word64? leafIndex
      let commitment ← Json.optional? Json.Value.felt? commitment
      let nullifierHash ← Json.optional? Json.Value.felt? nullifierHash
      return { version, amount, privateScalar, auxSecret, leafIndex, commitment,
               nullifierHash }
  | _ => none

/-- Read a document.  Its version is judged once all of it is read. -/
def ofJson (document : String) : Except NoteDefect NoteSecrets :=
  match (Json.parse? document).bind ofValue? with
  | none => .error .unreadableDocument
  | some secrets =>
      if secrets.version = currentVersion then .ok secrets
      else .error (.version secrets.version)

end NoteSecrets

end ShieldedPool
