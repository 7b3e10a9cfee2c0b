/-
Notes.  A note is known by an amount, a private scalar and an auxiliary
secret; its commitment goes into the tree.  Once the ledger has given it a
leaf it can be spent, and its nullifier exists.
-/
import ShieldedPool.Commitment
import ShieldedPool.Note.Secrets

namespace ShieldedPool

/-- A note of this client, with its leaf once it has one. -/
structure Note where
  amount : UInt64
  privateScalar : Felt
  auxSecret : Felt
  leafIndex : Option UInt64
deriving DecidableEq

namespace Note

/-- A new note; its private scalar must not be zero. -/
def create (amount : UInt64) (privateScalar auxSecret : Felt) :
    Except NoteDefect Note :=
  if privateScalar = 0 then .error .zeroScalar
  else .ok ⟨amount, privateScalar, auxSecret, none⟩

def publicKey (note : Note) : Point :=
  Point.mulGenerator (Scalar.ofFelt note.privateScalar)

/-- The commitment of the note; zero if its public point were at infinity. -/
def commitment (note : Note) : Felt :=
  match note.publicKey with
  | .infinity => 0
  | .affine x _ => ShieldedPool.commitment x note.amount

/-- The note at the leaf that the ledger gave it. -/
def assignLeaf (note : Note) (leafIndex : UInt64) : Note :=
  { note with leafIndex := some leafIndex }

/-- The nullifier, which exists once the note has a leaf. -/
def nullifier? (note : Note) : Option Felt :=
  note.leafIndex.map (ShieldedPool.nullifier note.privateScalar)

def nullifierHash? (note : Note) : Option Felt := note.nullifier?.map nullifierHash

/-- The nullifier of a note that must have a leaf. -/
def nullifier (note : Note) : Except Failure Felt :=
  match note.nullifier? with
  | some mark => .ok mark
  | none => .error .leafIndexUnassigned

/-- The published hash of the nullifier of a note that must have a leaf. -/
def markHash (note : Note) : Except Failure Felt := note.nullifier.map nullifierHash

/-- The secrets to store, with everything that can be derived from them. -/
def toSecrets (note : Note) : NoteSecrets :=
  { version := NoteSecrets.currentVersion
    amount := note.amount
    privateScalar := note.privateScalar
    auxSecret := note.auxSecret
    leafIndex := note.leafIndex
    commitment := some note.commitment
    nullifierHash := note.nullifierHash? }

/-- The note of stored secrets.  Stored derived values must be the ones that
the secrets derive. -/
def ofSecrets (secrets : NoteSecrets) : Except NoteDefect Note := do
  let note ← create secrets.amount secrets.privateScalar secrets.auxSecret
  let note := { note with leafIndex := secrets.leafIndex }
  match secrets.commitment with
  | some stored => if stored ≠ note.commitment then throw .commitmentMismatch
  | none => pure ()
  match secrets.nullifierHash, note.nullifierHash? with
  | none, _ => pure ()
  | some _, none => throw .orphanNullifierHash
  | some stored, some derived =>
      if stored ≠ derived then throw .nullifierHashMismatch
  return note

end Note

end ShieldedPool
