/-
Spend witnesses: what the spend circuit takes in.  A witness is assembled from
a private key, the public coordinate that its commitment holds, and an
inclusion proof; the commitment is recomputed and must reach the root.
-/
import ShieldedPool.Merkle.Inclusion
import ShieldedPool.Note
import ShieldedPool.Stealth.Claim

namespace ShieldedPool.Spend

/-- The private and public inputs of the spend circuit. -/
structure Witness where
  privateScalar : Felt
  keyX : Felt
  amount : UInt64
  leafIndex : UInt64
  root : Felt
  siblings : List Felt
  pathBits : List Bool
  nullifierHash : Felt
deriving DecidableEq

namespace Witness

/-- Assemble a witness whose commitment reaches the root and whose path turns
as its leaf index says. -/
def assemble (privateScalar keyX : Felt) (amount : UInt64)
    (proof : Merkle.Inclusion) (root : Felt) : Except Failure Witness := do
  let implied ← proof.impliedRoot (commitment keyX amount)
  if implied ≠ root then throw (.witness (.wrongRoot proof.leafIndex root))
  let pathIndex ← proof.pathIndex
  if pathIndex ≠ proof.leafIndex then throw (.witness .pathDisagrees)
  return {
    privateScalar, keyX, amount, root
    leafIndex := proof.leafIndex
    siblings := proof.siblings
    pathBits := proof.pathBits
    nullifierHash := spendMark privateScalar proof.leafIndex }

/-- The witness of a note at its leaf. -/
def ofNote (note : Note) (proof : Merkle.Inclusion) (root : Felt) :
    Except Failure Witness :=
  match note.leafIndex with
  | none => .error .leafIndexUnassigned
  | some leafIndex =>
      if leafIndex ≠ proof.leafIndex then
        .error (.witness (.notePosition proof.leafIndex leafIndex))
      else
        match note.publicKey with
        | .infinity => .error (.point .infiniteNoteKey)
        | .affine x _ => assemble note.privateScalar x note.amount proof root

/-- The witness of a claimed position without an epoch. -/
def ofClaim (claim : Stealth.Claim) (proof : Merkle.Inclusion) (root : Felt) :
    Except Failure Witness :=
  if claim.epoch.isSome then .error (.witness .yieldPosition)
  else if claim.leafIndex ≠ proof.leafIndex then
    .error (.witness (.claimPosition proof.leafIndex claim.leafIndex))
  else
    match claim.stealthPub with
    | .infinity => .error (.point .infiniteStealthKey)
    | .affine x _ => assemble claim.privateFelt x claim.amount proof root

/-- The public inputs in order, as words of 32 bytes. -/
def publicInputs (witness : Witness) : List Bytes :=
  [witness.root.toBytes, witness.nullifierHash.toBytes,
   (Felt.ofWord64 witness.amount).toBytes]

end Witness

end ShieldedPool.Spend
