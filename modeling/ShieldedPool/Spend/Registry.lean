/-
Spends in flight.  A nullifier hash names one spendable position, so the
client that remembers the hashes of its prepared spends never prepares a
position twice.
-/
import ShieldedPool.Failure

namespace ShieldedPool.Spend

/-- The nullifier hashes of prepared spends, each of them once. -/
structure Registry where
  inFlight : List Felt
deriving DecidableEq

namespace Registry

def empty : Registry := ⟨[]⟩

def contains (registry : Registry) (hash : Felt) : Bool :=
  registry.inFlight.contains hash

/-- Register a spend that is not in flight. -/
def begin (registry : Registry) (hash : Felt) : Except Failure Registry :=
  if registry.contains hash then .error (.duplicateSpend hash)
  else .ok ⟨hash :: registry.inFlight⟩

def release (registry : Registry) (hash : Felt) : Registry :=
  ⟨registry.inFlight.filter (· ≠ hash)⟩

def size (registry : Registry) : Nat := registry.inFlight.length

end Registry

end ShieldedPool.Spend
