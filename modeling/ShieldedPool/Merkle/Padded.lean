/-
What a root means, without any incremental bookkeeping: the root of a list of
leaves is the root of the complete tree over them, where every missing leaf is
zero.
-/
import ShieldedPool.Merkle.Node

namespace ShieldedPool.Merkle

/-- The root of the complete subtree of a height over the first leaves of a
list, which is padded with zeros. -/
def paddedRoot : (height : Nat) → List Felt → Felt
  | 0, leaves => leaves.headD 0
  | height + 1, leaves =>
      node (paddedRoot height leaves) (paddedRoot height (leaves.drop (2 ^ height)))

/-- The node at a level and index of the tree over a list of leaves. -/
def paddedNode (leaves : List Felt) (level index : Nat) : Felt :=
  paddedRoot level (leaves.drop (index * 2 ^ level))

theorem paddedRoot_nil (height : Nat) : paddedRoot height [] = emptyRoot height := by
  induction height with
  | zero => rfl
  | succ height ih => simp [paddedRoot, emptyRoot, ih]

end ShieldedPool.Merkle
