/-
The operations as the client runs them: on trees and a registry that it holds
and changes in place, one field after the other.  A refusal ends an operation
and takes nothing back, so what had been written until then would stay.
-/
import ShieldedPool.LedgerAccount
import ShieldedPool.Merkle.Archive
import ShieldedPool.Spend.Preparation

namespace ShieldedPool

/-- A program that changes a state in place.  A refusal keeps the state as the
program has left it. -/
abbrev InPlace (σ α : Type) : Type := EStateM Failure σ α

/-- Run a program on a part of the state. -/
def InPlace.on {σ τ α : Type} (part : σ → τ) (write : σ → τ → σ) (program : InPlace τ α) :
    InPlace σ α :=
  fun state =>
    match program.run (part state) with
    | .ok a after => .ok a (write state after)
    | .error refusal left => .error refusal (write state left)

namespace Merkle

namespace Follower

/-- Take a node up along the path of an index, through `count` levels from one on.
Where the path turns left, the node is written into the frontier. -/
def climbInPlace (index : Nat) : (count level : Nat) → Felt → InPlace Follower (List Felt × Felt)
  | 0, _, current => return ([], current)
  | count + 1, level, current => do
      if isRightChild index level then
        let entry := (← get).frontier.getD level 0
        let (siblings, root) ← climbInPlace index count (level + 1) (node entry current)
        return (entry :: siblings, root)
      else
        modify fun tree => { tree with frontier := tree.frontier.set level current }
        let sibling := emptyNode level
        let (siblings, root) ← climbInPlace index count (level + 1) (node current sibling)
        return (sibling :: siblings, root)

/-- Keep a root; a full window lets its oldest root go first. -/
def recordInPlace (root : Felt) : InPlace Follower Unit := do
  let window := (← get).history
  if window.roots.length = window.size then
    modify fun tree => { tree with history.roots := tree.history.roots.drop 1 }
  modify fun tree => { tree with history.roots := tree.history.roots ++ [root] }

def insertInPlace (leaf : Felt) : InPlace Follower Nat := do
  let tree ← get
  let index := tree.nextIndex
  if tree.depth.capacity ≤ index then throw (.treeFull tree.depth.capacity)
  let (siblings, root) ← climbInPlace index tree.depth.levels 0 leaf
  modify fun tree => { tree with root }
  modify fun tree => { tree with nextIndex := index + 1 }
  modify fun tree => { tree with latest := some ⟨index, siblings⟩ }
  recordInPlace root
  return index

/-- Take over a published state. -/
def adoptInPlace (snapshot : Snapshot) : InPlace Follower Unit := do
  modify fun tree => { tree with frontier := snapshot.frontier }
  modify fun tree => { tree with root := snapshot.root }
  modify fun tree => { tree with nextIndex := snapshot.nextIndex }
  modify fun tree => { tree with latest := none }
  unless (← get).knowsRoot snapshot.root do recordInPlace snapshot.root

/-- Take over a published state after checking it. -/
def importInPlace (snapshot : Snapshot) : InPlace Follower Unit := do
  let derived ← MonadExcept.ofExcept
    (deriveRoot (← get).depth snapshot.frontier snapshot.nextIndex)
  if let some derived := derived then
    if derived ≠ snapshot.root then throw (.rootMismatch snapshot.root derived)
  adoptInPlace snapshot

/-- Replace the recent roots by others, oldest first, before the current one. -/
def restoreInPlace (older : List Felt) : InPlace Follower Unit := do
  modify fun tree => { tree with history.roots := [] }
  older.forM recordInPlace
  let tree ← get
  if tree.history.roots.getLast? ≠ some tree.root then recordInPlace tree.root

end Follower

namespace Archive

/-- Write the node at a height and index. -/
def setNode (height index : Nat) (value : Felt) : InPlace Archive Unit :=
  modify fun tree => { tree with levels := tree.levels.modify height (place · index value) }

/-- Write the nodes above a node, up through `count` levels. -/
def climbInPlace : (count height index : Nat) → Felt → InPlace Archive Unit
  | 0, _, _, _ => return
  | count + 1, height, index, current => do
      let parent := parentOf height ((← get).level height) index current
      setNode (height + 1) (index / 2) parent
      climbInPlace count (height + 1) (index / 2) parent

def insertInPlace (leaf : Felt) : InPlace Archive Nat := do
  let tree ← get
  let index := tree.nextIndex
  if tree.depth.capacity ≤ index then throw (.treeFull tree.depth.capacity)
  setNode 0 index leaf
  climbInPlace tree.depth.levels 0 index leaf
  return index

end Archive

end Merkle

/-- Bring a tree to the state of the account, recent roots included. -/
def LedgerAccount.applyInPlace (account : LedgerAccount) : InPlace Merkle.Follower Unit := do
  Merkle.Follower.importInPlace account.snapshot
  Merkle.Follower.restoreInPlace account.rootsOldestFirst

namespace Spend

namespace Registry

/-- Put a hash in, and say whether it is new. -/
def addInPlace (hash : Felt) : InPlace Registry Bool := do
  if (← get).contains hash then return false
  modify fun registry => ⟨hash :: registry.inFlight⟩
  return true

/-- Register a spend that is not in flight. -/
def beginInPlace (hash : Felt) : InPlace Registry Unit := do
  let added ← addInPlace hash
  unless added do throw (.duplicateSpend hash)

/-- Take a hash out, and say whether it was there. -/
def releaseInPlace (hash : Felt) : InPlace Registry Bool := do
  let held := (← get).contains hash
  modify (·.release hash)
  return held

end Registry

/-- Prepare a spend: prove, assemble, register. -/
def prepareInPlace {α : Type} [Merkle.Accumulator α] (note : Note) (tree : α) :
    InPlace Registry Witness := do
  let witness ← MonadExcept.ofExcept (witnessIn tree note)
  Registry.beginInPlace witness.nullifierHash
  return witness

end Spend

end ShieldedPool
