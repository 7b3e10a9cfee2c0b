/-
What a follower of an archive knows.  The frontier of a level is its last left
node: the last node there is, or the one before it when the last one is a
right child.
-/
import ShieldedPool.Merkle.Archive
import ShieldedPool.Merkle.Follower

namespace ShieldedPool.Merkle.Archive

/-- The frontier entry of a level: its last left node, and zero when the level
is empty. -/
def lastLeftNode (nodes : List Felt) : Felt :=
  nodes.getD ((nodes.length - 1) / 2 * 2) 0

def frontier (tree : Archive) : List Felt :=
  (List.range tree.depth.levels).map fun height => lastLeftNode (tree.level height)

/-- The last leaf with the siblings along its path. -/
def latestLeaf (tree : Archive) : Option LatestLeaf :=
  if tree.nextIndex = 0 then none
  else some ⟨tree.nextIndex - 1, tree.siblings (tree.nextIndex - 1)⟩

/-- The follower of the tree, with room for `size` recent roots but at least for
the current one. -/
def follower (tree : Archive) (size : Nat) : Follower :=
  { depth := tree.depth
    frontier := tree.frontier
    root := tree.root
    nextIndex := tree.nextIndex
    history := .start (max size 1) tree.root
    latest := tree.latestLeaf }

/-- The follower of the tree, once the queue for its recent roots is reserved. -/
def view (tree : Archive) (size : Nat) : Except Failure Follower :=
  if RootWindow.Reservable (max size 1) then .ok (tree.follower size) else .error .overflow

def ofConfig (config : Config) : Except Failure Archive := config.depth.map empty

end ShieldedPool.Merkle.Archive
