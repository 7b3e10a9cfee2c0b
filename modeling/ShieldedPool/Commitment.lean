/-
What the pool hashes.  A commitment hides the owner and binds the amount; a
nullifier is the mark that spending a position leaves, and only its hash is
published.
-/
import ShieldedPool.Poseidon

namespace ShieldedPool

/-- The commitment to a one-time key and an amount. -/
def commitment (keyX : Felt) (amount : UInt64) : Felt :=
  Poseidon.hash2 keyX (Felt.ofWord64 amount)

/-- The commitment to a one-time key, a principal and the epoch it was put in. -/
def yieldCommitment (keyX : Felt) (principal epoch : UInt64) : Felt :=
  Poseidon.hash3 keyX (Felt.ofWord64 principal) (Felt.ofWord64 epoch)

/-- The commitment to a position, with an epoch or without. -/
def positionCommitment (keyX : Felt) (amount : UInt64) : Option UInt64 → Felt
  | none => commitment keyX amount
  | some epoch => yieldCommitment keyX amount epoch

/-- The nullifier of a private key at a leaf. -/
def nullifier (privateKey : Felt) (leafIndex : UInt64) : Felt :=
  Poseidon.hash2 privateKey (Felt.ofWord64 leafIndex)

def nullifierHash (mark : Felt) : Felt := Poseidon.hash1 mark

/-- The published mark of a private key at a leaf. -/
def spendMark (privateKey : Felt) (leafIndex : UInt64) : Felt :=
  nullifierHash (nullifier privateKey leafIndex)

end ShieldedPool
