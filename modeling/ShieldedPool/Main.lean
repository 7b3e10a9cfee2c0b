/-
The command line: print the empty nodes of a tree.
-/
import ShieldedPool.EmptyNodeTable

/-- Print what the arguments ask for. -/
def main (arguments : List String) : IO UInt32 := do
  let outcome := ShieldedPool.EmptyNodeTable.run arguments
  IO.print outcome.output
  IO.eprint outcome.error
  return outcome.exitCode
