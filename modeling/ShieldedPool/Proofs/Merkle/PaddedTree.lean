/-
The tree over a list of leaves, node by node.  A node depends on the leaves
below it only, so appending a leaf changes exactly the nodes on its path; this
is what every incremental form of the tree relies on.
-/
import Mathlib.Algebra.Order.Floor.Div
import Mathlib.GroupTheory.GroupAction.Ring
import Mathlib.Tactic.Ring
import ShieldedPool.Merkle.Inclusion
import ShieldedPool.Merkle.Padded

namespace ShieldedPool.Merkle

theorem paddedRoot_append_of_length_le {height : Nat} {leaves : List Felt}
    (hfull : 2 ^ height ≤ leaves.length) (more : List Felt) :
    paddedRoot height (leaves ++ more) = paddedRoot height leaves := by
  induction height generalizing leaves with
  | zero =>
      cases leaves with
      | nil => simp at hfull
      | cons leaf leaves => rfl
  | succ height ih =>
      rw [Nat.pow_succ] at hfull
      have hdrop : (leaves ++ more).drop (2 ^ height) =
          leaves.drop (2 ^ height) ++ more :=
        List.drop_append_of_le_length (by omega)
      have hright : 2 ^ height ≤ (leaves.drop (2 ^ height)).length := by
        rw [List.length_drop]
        omega
      rw [paddedRoot, paddedRoot, hdrop, ih (by omega), ih hright]

theorem paddedNode_zero (leaves : List Felt) (index : Nat) :
    paddedNode leaves 0 index = leaves.getD index 0 := by
  simp [paddedNode, paddedRoot, List.headD_eq_head?_getD, List.head?_drop,
    List.getD_eq_getElem?_getD]

theorem paddedNode_top (height : Nat) (leaves : List Felt) :
    paddedNode leaves height 0 = paddedRoot height leaves := by
  simp [paddedNode]

theorem paddedNode_succ (leaves : List Felt) (height index : Nat) :
    paddedNode leaves (height + 1) index =
      node (paddedNode leaves height (2 * index))
        (paddedNode leaves height (2 * index + 1)) := by
  have hleft : index * 2 ^ (height + 1) = 2 * index * 2 ^ height := by
    rw [Nat.pow_succ]
    ring
  have hright : index * 2 ^ (height + 1) + 2 ^ height =
      (2 * index + 1) * 2 ^ height := by
    rw [Nat.pow_succ]
    ring
  rw [paddedNode, paddedRoot, List.drop_drop, hright, hleft]
  rfl

/-- A subtree past the last leaf is empty. -/
theorem paddedNode_eq_emptyNode {leaves : List Felt} {height index : Nat}
    (hpast : leaves.length ≤ index * 2 ^ height) :
    paddedNode leaves height index = emptyNode height := by
  rw [paddedNode, List.drop_eq_nil_of_le hpast, paddedRoot_nil, emptyNode_eq_emptyRoot]

/-- A subtree with all its leaves is not changed by further ones. -/
theorem paddedNode_append {leaves : List Felt} {height index : Nat}
    (hfull : (index + 1) * 2 ^ height ≤ leaves.length) (more : List Felt) :
    paddedNode (leaves ++ more) height index = paddedNode leaves height index := by
  rw [Nat.add_mul, Nat.one_mul] at hfull
  have hrest : 2 ^ height ≤ (leaves.drop (index * 2 ^ height)).length := by
    rw [List.length_drop]
    exact Nat.le_sub_of_add_le' hfull
  rw [paddedNode, List.drop_append_of_le_length (Nat.le_of_add_right_le hfull),
    paddedRoot_append_of_length_le hrest]
  rfl

/-- The number of nodes of a level that cover a leaf. -/
def filled (count height : Nat) : Nat := count ⌈/⌉ 2 ^ height

theorem filled_eq (count height : Nat) :
    filled count height = (count + (2 ^ height - 1)) / 2 ^ height := by
  rw [filled, Nat.ceilDiv_eq_add_pred_div, Nat.add_sub_assoc Nat.one_le_two_pow]

theorem filled_zero_left (height : Nat) : filled 0 height = 0 := by
  rw [filled_eq, Nat.zero_add]
  exact Nat.div_eq_of_lt (Nat.sub_lt (Nat.two_pow_pos height) Nat.one_pos)

theorem filled_zero_right (count : Nat) : filled count 0 = count := by
  simp [filled_eq]

/-- With one leaf more, the nodes of a level reach up to its path. -/
theorem filled_succ (count height : Nat) :
    filled (count + 1) height = count / 2 ^ height + 1 := by
  have hpos := Nat.two_pow_pos height
  rw [filled_eq, show count + 1 + (2 ^ height - 1) = count + 2 ^ height by omega,
    Nat.add_div_right _ hpos]

/-- Before the leaf is there, its path is at the end of a level or just past
the end. -/
theorem filled_eq_or (count height : Nat) :
    filled count height = count / 2 ^ height ∨
      filled count height = count / 2 ^ height + 1 := by
  cases count with
  | zero => exact Or.inl (by rw [filled_zero_left, Nat.zero_div])
  | succ count =>
      rw [filled_succ, Nat.succ_div]
      split
      · exact Or.inl rfl
      · exact Or.inr rfl

theorem lt_filled_iff {count height index : Nat} :
    index < filled count height ↔ index * 2 ^ height < count := by
  cases count with
  | zero => simp [filled_zero_left]
  | succ count =>
      rw [filled_succ, Nat.lt_succ_iff, Nat.lt_succ_iff,
        Nat.le_div_iff_mul_le (Nat.two_pow_pos height)]

/-- A node next to the path of a leaf, on its left, has all its leaves. -/
theorem mul_pow_le_of_lt_div {count height index : Nat}
    (hleft : index < count / 2 ^ height) : (index + 1) * 2 ^ height ≤ count :=
  (Nat.le_div_iff_mul_le (Nat.two_pow_pos height)).1 hleft

/-- What is past the path of a leaf starts behind it. -/
theorem lt_mul_pow_of_div_lt {count height index : Nat}
    (hright : count / 2 ^ height < index) : count + 1 ≤ index * 2 ^ height :=
  (Nat.div_lt_iff_lt_mul (Nat.two_pow_pos height)).1 hright

section Append

variable (leaves : List Felt) (leaf : Felt) (height : Nat)

/-- The node at a height on the path of a new leaf. -/
def pathNode : Felt := paddedNode (leaves ++ [leaf]) height (leaves.length / 2 ^ height)

theorem pathNode_zero : pathNode leaves leaf 0 = leaf := by
  simp [pathNode, paddedNode_zero]

theorem pathNode_succ :
    pathNode leaves leaf (height + 1) =
      node
        (paddedNode (leaves ++ [leaf]) height (2 * (leaves.length / 2 ^ height / 2)))
        (paddedNode (leaves ++ [leaf]) height
          (2 * (leaves.length / 2 ^ height / 2) + 1)) := by
  rw [pathNode, Nat.pow_succ, ← Nat.div_div_eq_div_mul, paddedNode_succ]

theorem paddedNode_left_of_path {index : Nat}
    (hleft : index < leaves.length / 2 ^ height) :
    paddedNode (leaves ++ [leaf]) height index = paddedNode leaves height index :=
  paddedNode_append (mul_pow_le_of_lt_div hleft) [leaf]

theorem paddedNode_right_of_path {index : Nat}
    (hright : leaves.length / 2 ^ height < index) :
    paddedNode (leaves ++ [leaf]) height index = emptyNode height := by
  apply paddedNode_eq_emptyNode
  rw [List.length_append, List.length_singleton]
  exact lt_mul_pow_of_div_lt hright

/-- Where the path turns right, its sibling is an old node. -/
theorem paddedNode_before_path (hright : leaves.length / 2 ^ height % 2 = 1) :
    paddedNode (leaves ++ [leaf]) height (leaves.length / 2 ^ height - 1) =
      paddedNode leaves height (leaves.length / 2 ^ height - 1) := by
  apply paddedNode_left_of_path
  generalize leaves.length / 2 ^ height = index at hright ⊢
  omega

theorem pathNode_succ_of_right (hright : leaves.length / 2 ^ height % 2 = 1) :
    pathNode leaves leaf (height + 1) =
      node (paddedNode leaves height (leaves.length / 2 ^ height - 1))
        (pathNode leaves leaf height) := by
  rw [pathNode_succ, pathNode, ← paddedNode_before_path leaves leaf height hright]
  generalize leaves.length / 2 ^ height = index at hright ⊢
  rw [show 2 * (index / 2) = index - 1 by omega, show index - 1 + 1 = index by omega]

/-- Where the path turns left, its sibling is empty. -/
theorem pathNode_succ_of_left (hleft : ¬ leaves.length / 2 ^ height % 2 = 1) :
    pathNode leaves leaf (height + 1) =
      node (pathNode leaves leaf height) (emptyNode height) := by
  have hsibling := paddedNode_right_of_path leaves leaf height
    (Nat.lt_succ_self (leaves.length / 2 ^ height))
  rw [pathNode_succ, pathNode, ← hsibling]
  generalize leaves.length / 2 ^ height = index at hleft ⊢
  rw [show 2 * (index / 2) = index by omega]

end Append

end ShieldedPool.Merkle
