/-
The tree that keeps its frontier only.  It follows the ledger's tree at the
cost of one node a level: it can append leaves, take over a published state,
and prove the leaf that it appended last.
-/
import ShieldedPool.Config
import ShieldedPool.Merkle.Accumulator
import ShieldedPool.Merkle.RootWindow
import ShieldedPool.Merkle.Snapshot

namespace ShieldedPool.Merkle

/-- The leaf appended last, with the siblings along its path. -/
structure LatestLeaf where
  index : Nat
  siblings : List Felt
deriving DecidableEq

/-- A tree known by its frontier. -/
structure Follower where
  depth : Depth
  frontier : List Felt
  root : Felt
  nextIndex : Nat
  history : RootWindow
  latest : Option LatestLeaf
deriving DecidableEq

/-- What appending a leaf finds on its way up. -/
structure Ascent where
  frontier : List Felt
  siblings : List Felt
  root : Felt

/-- Take a node up along the path of an index.  Where the path turns left the
node enters the frontier. -/
def ascend : (height index : Nat) → Felt → List Felt → Ascent
  | _, _, current, [] => ⟨[], [], current⟩
  | height, index, current, entry :: above =>
      if index % 2 = 1 then
        let rest := ascend (height + 1) (index / 2) (node entry current) above
        ⟨entry :: rest.frontier, entry :: rest.siblings, rest.root⟩
      else
        let sibling := emptyNode height
        let rest := ascend (height + 1) (index / 2) (node current sibling) above
        ⟨current :: rest.frontier, sibling :: rest.siblings, rest.root⟩

namespace Follower

/-- The empty tree, with room for `size` recent roots. -/
def empty (depth : Depth) (size : Nat) : Follower :=
  { depth
    frontier := List.replicate depth.levels 0
    root := depth.emptyRoot
    nextIndex := 0
    history := .start size depth.emptyRoot
    latest := none }

/-- The empty tree, once the queue for its recent roots is reserved. -/
def fresh (depth : Depth) (size : Nat) : Except Failure Follower :=
  if RootWindow.Reservable size then .ok (empty depth size) else .error .overflow

def create (levels size : Nat) : Except Failure Follower :=
  if size = 0 then .error (.config .rootHistory)
  else do fresh (← Depth.ofNat levels) size

def ofConfig (config : Config) : Except Failure Follower := do
  fresh (← config.depth) config.rootHistorySize.toNat

def snapshot (tree : Follower) : Snapshot :=
  ⟨tree.root, tree.frontier, tree.nextIndex⟩

/-- The root is current or among the recent ones that are kept. -/
def knowsRoot (tree : Follower) (root : Felt) : Bool := tree.history.knows root

def insert (tree : Follower) (leaf : Felt) : Except Failure (Follower × Nat) :=
  if tree.nextIndex < tree.depth.capacity then
    let ascent := ascend 0 tree.nextIndex leaf tree.frontier
    .ok ({ tree with
        frontier := ascent.frontier
        root := ascent.root
        nextIndex := tree.nextIndex + 1
        history := tree.history.record ascent.root
        latest := some ⟨tree.nextIndex, ascent.siblings⟩ },
      tree.nextIndex)
  else .error (.treeFull tree.depth.capacity)

/-- Prove the leaf that was appended last. -/
def prove (tree : Follower) (index : UInt64) : Except Failure Inclusion :=
  if index.toNat < tree.nextIndex then
    match tree.latest with
    | some latest =>
        if latest.index = index.toNat then
          .ok ⟨index, latest.siblings, pathBits tree.depth.levels index.toNat⟩
        else .error (.proofUnavailable index.toNat)
    | none => .error (.proofUnavailable index.toNat)
  else .error (.leafAbsent index.toNat tree.nextIndex)

instance : Accumulator Follower := ⟨depth, root, nextIndex, insert, prove⟩

/-- Take over a published state after checking it. -/
def importState (tree : Follower) (snapshot : Snapshot) : Except Failure Follower :=
  (snapshot.check tree.depth).map fun _ =>
    { tree with
      frontier := snapshot.frontier
      root := snapshot.root
      nextIndex := snapshot.nextIndex
      history := tree.history.recordNew snapshot.root
      latest := none }

/-- Replace the recent roots by others, oldest first, before the current one. -/
def restoreHistory (tree : Follower) (older : List Felt) : Follower :=
  { tree with history := tree.history.restore older tree.root }

end Follower

end ShieldedPool.Merkle
