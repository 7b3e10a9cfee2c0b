/-
The tree that keeps every node.  Each level holds its nodes that cover an
inserted leaf, in order; what lies past the end of a level is empty.  So every
leaf can be proved, and an insertion touches one node a level.
-/
import ShieldedPool.Merkle.Accumulator
import ShieldedPool.Merkle.RootWindow

namespace ShieldedPool.Merkle

/-- A tree with all its nodes, leaf level first. -/
structure Archive where
  depth : Depth
  levels : List (List Felt)
deriving DecidableEq

/-- Overwrite the node at an index, or append it behind the last one. -/
def place (nodes : List Felt) (index : Nat) (value : Felt) : List Felt :=
  if index < nodes.length then nodes.set index value else nodes ++ [value]

/-- The node at an index of a level of given height. -/
def nodeOrEmpty (height : Nat) (nodes : List Felt) (index : Nat) : Felt :=
  nodes.getD index (emptyNode height)

/-- The node above the node at an index, when its right sibling is empty. -/
def parentOf (height : Nat) (nodes : List Felt) (index : Nat) (current : Felt) :
    Felt :=
  if index % 2 = 1 then node (nodeOrEmpty height nodes (index - 1)) current
  else node current (emptyNode height)

/-- Place a node and all nodes above it. -/
def placeUpward : (height index : Nat) → Felt → List (List Felt) → List (List Felt)
  | _, _, _, [] => []
  | _, index, current, [top] => [place top index current]
  | height, index, current, nodes :: above :: rest =>
      place nodes index current ::
        placeUpward (height + 1) (index / 2) (parentOf height nodes index current)
          (above :: rest)

namespace Archive

def empty (depth : Depth) : Archive :=
  ⟨depth, List.replicate (depth.levels + 1) []⟩

def level (tree : Archive) (height : Nat) : List Felt := tree.levels.getD height []

def leaves (tree : Archive) : List Felt := tree.level 0

/-- The node at a height and index. -/
def nodeAt (tree : Archive) (height index : Nat) : Felt :=
  nodeOrEmpty height (tree.level height) index

def root (tree : Archive) : Felt := tree.nodeAt tree.depth.levels 0

def nextIndex (tree : Archive) : Nat := tree.leaves.length

def insert (tree : Archive) (leaf : Felt) : Except Failure (Archive × Nat) :=
  if tree.nextIndex < tree.depth.capacity then
    .ok ({ tree with levels := placeUpward 0 tree.nextIndex leaf tree.levels },
      tree.nextIndex)
  else .error (.treeFull tree.depth.capacity)

/-- The siblings along the path of an index. -/
def siblings (tree : Archive) (index : Nat) : List Felt :=
  (List.range tree.depth.levels).map fun height =>
    tree.nodeAt height ((index >>> height) ^^^ 1)

def prove (tree : Archive) (index : UInt64) : Except Failure Inclusion :=
  if index.toNat < tree.nextIndex then
    .ok ⟨index, tree.siblings index.toNat, pathBits tree.depth.levels index.toNat⟩
  else .error (.leafAbsent index.toNat tree.nextIndex)

instance : Accumulator Archive := ⟨depth, root, nextIndex, insert, prove⟩

def ofLeaves (depth : Depth) (leaves : List Felt) : Except Failure Archive :=
  insertAll (empty depth) leaves

def leaf? (tree : Archive) (index : Nat) : Option Felt := tree.leaves[index]?

/-- The index of the first leaf of a value. -/
def positionOf? (tree : Archive) (leaf : Felt) : Option Nat := tree.leaves.idxOf? leaf

/-- The roots after each of some further leaves. -/
def rootsAlong (tree : Archive) : List Felt → Except Failure (List Felt)
  | [] => .ok []
  | leaf :: leaves =>
      match tree.insert leaf with
      | .ok (tree, _) => (rootsAlong tree leaves).map (tree.root :: ·)
      | .error failure => .error failure

/-- The roots after each of the last `count` insertions, oldest first.  The queue
for them is reserved before it is known how many there are. -/
def recentRoots (tree : Archive) (count : Nat) : Except Failure (List Felt) :=
  if RootWindow.Reservable count then
    let start := tree.nextIndex - count
    match ofLeaves tree.depth (tree.leaves.take start) with
    | .ok earlier => earlier.rootsAlong (tree.leaves.drop start)
    | .error failure => .error failure
  else .error .overflow

end Archive

end ShieldedPool.Merkle
