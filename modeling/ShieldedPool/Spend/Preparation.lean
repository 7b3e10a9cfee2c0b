/-
Preparing a spend: prove the leaf of a note in the current tree, assemble the
witness and register it.
-/
import ShieldedPool.Merkle.Accumulator
import ShieldedPool.Spend.Registry
import ShieldedPool.Spend.Witness

namespace ShieldedPool.Spend

/-- The witness of a note against the current root. -/
def witnessIn {α : Type} [Merkle.Accumulator α] (tree : α) (note : Note) :
    Except Failure Witness := do
  match note.leafIndex with
  | none => throw .leafIndexUnassigned
  | some leafIndex =>
      let proof ← Merkle.Accumulator.prove tree leafIndex
      Witness.ofNote note proof (Merkle.Accumulator.root tree)

/-- The witness of a note and the registry that holds its spend. -/
def prepare {α : Type} [Merkle.Accumulator α] (registry : Registry) (note : Note)
    (tree : α) : Except Failure (Witness × Registry) := do
  let witness ← witnessIn tree note
  let registry ← registry.begin witness.nullifierHash
  return (witness, registry)

end ShieldedPool.Spend
