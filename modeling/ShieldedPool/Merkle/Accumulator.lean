/-
What every append-only commitment tree offers, however much of it is kept.
-/
import ShieldedPool.Merkle.Inclusion

namespace ShieldedPool.Merkle

/-- An append-only tree of fixed depth. -/
class Accumulator (α : Type) where
  depth : α → Depth
  root : α → Felt
  nextIndex : α → Nat
  /-- Append a leaf; the tree behind it and the index of the leaf. -/
  insert : α → Felt → Except Failure (α × Nat)
  prove : α → UInt64 → Except Failure Inclusion

/-- Append leaves in order. -/
def insertAll {α : Type} [Accumulator α] (tree : α) : List Felt → Except Failure α
  | [] => .ok tree
  | leaf :: leaves =>
      match Accumulator.insert tree leaf with
      | .ok (tree, _) => insertAll tree leaves
      | .error failure => .error failure

end ShieldedPool.Merkle
