/-
Published tree states.  A state consists of the root, the number of leaves and
the frontier: for every level the last left node there was.  The entries on
the path of the last leaf lead to a root of their own, which has to be the
published one.
-/
import ShieldedPool.Merkle.Node

namespace ShieldedPool.Merkle

/-- The state of a tree as the ledger publishes it. -/
structure Snapshot where
  root : Felt
  frontier : List Felt
  nextIndex : Nat
deriving DecidableEq

/-- The root above a node on the path of the last leaf.  Where the path turns
right, the frontier holds its sibling; where it turns left, the frontier holds
the node itself and the sibling is empty. -/
def rootAlong : (height index : Nat) → Felt → List Felt → Except Failure Felt
  | _, _, current, [] => .ok current
  | height, index, current, entry :: above =>
      if index % 2 = 1 then rootAlong (height + 1) (index / 2) (node entry current) above
      else if entry = current then
        rootAlong (height + 1) (index / 2) (node current (emptyNode height)) above
      else .error (.rootMismatch entry current)

/-- The root that a frontier implies for the path of the last leaf.  Below the
first left turn the frontier says nothing about the path; if there is no left
turn the tree is full and the frontier says nothing about its root. -/
def rootOfPath : (height index : Nat) → List Felt → Except Failure (Option Felt)
  | _, _, [] => .ok none
  | height, index, entry :: above =>
      if index % 2 = 1 then rootOfPath (height + 1) (index / 2) above
      else (rootAlong height index entry (entry :: above)).map some

/-- The root that a frontier implies, if it implies any. -/
def deriveRoot (depth : Depth) (frontier : List Felt) (nextIndex : Nat) :
    Except Failure (Option Felt) :=
  if frontier.length ≠ depth.levels then
    .error (.treeState (.frontierLength frontier.length depth.levels))
  else if depth.capacity < nextIndex then
    .error (.treeState (.beyondCapacity nextIndex depth.capacity))
  else if nextIndex = 0 then .ok (some depth.emptyRoot)
  else rootOfPath 0 (nextIndex - 1) frontier

/-- Accept a snapshot whose frontier does not imply another root. -/
def Snapshot.check (snapshot : Snapshot) (depth : Depth) : Except Failure Unit :=
  match deriveRoot depth snapshot.frontier snapshot.nextIndex with
  | .error failure => .error failure
  | .ok none => .ok ()
  | .ok (some derived) =>
      if derived = snapshot.root then .ok ()
      else .error (.rootMismatch snapshot.root derived)

end ShieldedPool.Merkle
