/-
Announcements of payments.  A sender publishes a one-time public key beside
the commitment.  The record is what is published, byte for byte; the
announcement is what a record says once its key and commitment are checked.
-/
import ShieldedPool.Failure
import ShieldedPool.Point.Compressed

namespace ShieldedPool.Stealth

/-- A published payment. -/
structure Announcement where
  ephemeralPub : Point
  amount : UInt64
  epoch : Option UInt64
  commitment : Felt
  leafIndex : UInt64
  createdAt : Int64
  payload : Bytes
deriving DecidableEq

/-- The published record of a payment. -/
structure Record where
  ephemeralPub : ByteWord Point.compressedBytes
  amount : UInt64
  epoch : Option UInt64
  commitment : ByteWord residueBytes
  leafIndex : UInt64
  createdAt : Int64
  payload : Bytes
deriving DecidableEq

namespace Record

/-- The version of the format, which is the first byte. -/
def version : UInt8 := 1

/-- The longest payload that is read. -/
def payloadLimit : Nat := 1024

/-- An option: a byte that says whether a value follows. -/
def optionBytes : Option UInt64 → Bytes
  | none => [0]
  | some word => 1 :: Bytes.ofWord64 word

/-- The fields in order, the payload behind its 32-bit length. -/
def body (record : Record) : Bytes :=
  record.ephemeralPub.bytes
    ++ Bytes.ofWord64 record.amount
    ++ optionBytes record.epoch
    ++ record.commitment.bytes
    ++ Bytes.ofWord64 record.leafIndex
    ++ Bytes.ofWord64 record.createdAt.toUInt64
    ++ Bytes.ofNatLE 4 record.payload.length
    ++ record.payload

/-- The bytes of a record.  A payload whose length does not fit 32 bits cannot
be written, and only the version is. -/
def encode (record : Record) : Bytes :=
  if record.payload.length < UInt32.size then version :: record.body else [version]

/-- Take a fixed number of bytes off the front. -/
def take (count : Nat) (bytes : Bytes) :
    Except AnnouncementDefect (ByteWord count × Bytes) :=
  match h : Bytes.split? count bytes with
  | none => .error .truncated
  | some (head, rest) => .ok (⟨head, (Bytes.eq_append_of_split? h).2⟩, rest)

def takeWord64 (bytes : Bytes) : Except AnnouncementDefect (UInt64 × Bytes) :=
  (take 8 bytes).map fun taken => (Bytes.toWord64 taken.1.bytes, taken.2)

/-- Take an option off the front. -/
def takeOption : Bytes → Except AnnouncementDefect (Option UInt64 × Bytes)
  | [] => .error .truncated
  | tag :: rest =>
      if tag = 0 then .ok (none, rest)
      else if tag = 1 then
        (takeWord64 rest).map fun taken => (some taken.1, taken.2)
      else .error (.optionTag tag)

/-- Read the fields in order, with nothing left over. -/
def ofBody (bytes : Bytes) : Except AnnouncementDefect Record := do
  let (ephemeralPub, bytes) ← take Point.compressedBytes bytes
  let (amount, bytes) ← takeWord64 bytes
  let (epoch, bytes) ← takeOption bytes
  let (commitment, bytes) ← take residueBytes bytes
  let (leafIndex, bytes) ← takeWord64 bytes
  let (createdAt, bytes) ← takeWord64 bytes
  let (length, bytes) ← take 4 bytes
  let (payload, bytes) ← take (Bytes.toNatLE length.bytes) bytes
  if bytes.isEmpty then
    return {
      ephemeralPub, amount, epoch, commitment, leafIndex
      createdAt := createdAt.toInt64
      payload := payload.bytes }
  else throw .trailing

/-- Read a record.  The length of the payload is judged last. -/
def decode : Bytes → Except AnnouncementDefect Record
  | [] => .error .empty
  | found :: bytes => do
      if found ≠ version then throw (.version found version)
      let record ← ofBody bytes
      if payloadLimit < record.payload.length then
        throw (.payloadTooLong record.payload.length payloadLimit)
      return record

end Record

namespace Announcement

def toRecord (a : Announcement) : Record :=
  { ephemeralPub := a.ephemeralPub.compressed
    amount := a.amount
    epoch := a.epoch
    commitment := ⟨a.commitment.toBytes, a.commitment.length_toBytes⟩
    leafIndex := a.leafIndex
    createdAt := a.createdAt
    payload := a.payload }

/-- What a record says, once its key is usable and its commitment is a field
element. -/
def ofRecord (record : Record) : Except AnnouncementDefect Announcement := do
  let ephemeralPub ←
    (Point.decompress record.ephemeralPub.bytes).mapError .ephemeralKey
  ephemeralPub.validate.mapError .ephemeralKey
  let commitment ← (Felt.ofBytes record.commitment.bytes).mapError .commitment
  return {
    ephemeralPub
    amount := record.amount
    epoch := record.epoch
    commitment
    leafIndex := record.leafIndex
    createdAt := record.createdAt
    payload := record.payload }

/-- Read and check a published record. -/
def parse (bytes : Bytes) : Except AnnouncementDefect Announcement := do
  let record ← Record.decode bytes
  ofRecord record

end Announcement

end ShieldedPool.Stealth
