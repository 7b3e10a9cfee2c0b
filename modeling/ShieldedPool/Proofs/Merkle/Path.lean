/-
Paths of the padded tree.  The siblings along the path of an index fold from
its leaf to the root, and the sides of the path are the bits of the index.
-/
import Mathlib.Data.Nat.Bitwise
import ShieldedPool.Proofs.Merkle.PaddedTree

namespace ShieldedPool.Merkle

/-- The siblings along the path of an index, lowest first. -/
def paddedSiblings (leaves : List Felt) (depth index : Nat) : List Felt :=
  (List.range depth).map fun height =>
    paddedNode leaves height ((index >>> height) ^^^ 1)

@[simp] theorem length_paddedSiblings (leaves : List Felt) (depth index : Nat) :
    (paddedSiblings leaves depth index).length = depth := by
  simp [paddedSiblings]

@[simp] theorem length_pathBits (depth index : Nat) :
    (pathBits depth index).length = depth := by
  simp [pathBits]

/-- A node and its sibling as children, the left one first. -/
def childPair (current : Felt) (step : Felt × Bool) : Felt × Felt :=
  if step.2 then (step.1, current) else (current, step.1)

theorem node_childPair (current : Felt) (step : Felt × Bool) :
    node (childPair current step).1 (childPair current step).2 = climb current step := by
  rw [childPair, climb]
  split <;> rfl

/-- The children of the node above the path of an index at a height. -/
def paddedPair (leaves : List Felt) (index height : Nat) : Felt × Felt :=
  (paddedNode leaves height (2 * (index / 2 ^ (height + 1))),
    paddedNode leaves height (2 * (index / 2 ^ (height + 1)) + 1))

/-- A node of the path and its sibling are that pair, whichever side the node
is on. -/
theorem childPair_paddedNode (leaves : List Felt) (height index : Nat) :
    childPair (paddedNode leaves height (index / 2 ^ height))
        (paddedNode leaves height ((index >>> height) ^^^ 1), isRightChild index height) =
      paddedPair leaves index height := by
  rw [childPair, isRightChild, Nat.testBit_eq_decide_div_mod_eq, Nat.shiftRight_eq_div_pow,
    paddedPair, Nat.pow_succ, ← Nat.div_div_eq_div_mul]
  generalize index / 2 ^ height = place
  rcases Nat.mod_two_eq_zero_or_one place with hleft | hright
  · have hsibling : place ^^^ 1 = place + 1 :=
      Nat.xor_one_of_even (Nat.even_iff.2 hleft)
    rw [if_neg (by simp [hleft]), hsibling, show 2 * (place / 2) = place by omega]
  · have hsibling : place ^^^ 1 = place - 1 := Nat.xor_one_of_odd (Nat.odd_iff.2 hright)
    rw [if_pos (by simp [hright]), hsibling,
      show 2 * (place / 2) = place - 1 by omega,
      show place - 1 + 1 = place by omega]

theorem climb_paddedNode (leaves : List Felt) (height index : Nat) :
    climb (paddedNode leaves height (index / 2 ^ height))
        (paddedNode leaves height ((index >>> height) ^^^ 1), isRightChild index height) =
      paddedNode leaves (height + 1) (index / 2 ^ (height + 1)) := by
  rw [← node_childPair, childPair_paddedNode, paddedNode_succ]
  rfl

theorem foldPath_from (leaves : List Felt) (index count height : Nat) :
    foldPath (paddedNode leaves height (index / 2 ^ height))
        ((List.range' height count).map fun height =>
          paddedNode leaves height ((index >>> height) ^^^ 1))
        ((List.range' height count).map (isRightChild index)) =
      paddedNode leaves (height + count) (index / 2 ^ (height + count)) := by
  induction count generalizing height with
  | zero => rfl
  | succ count ih =>
      have hup := ih (height + 1)
      rw [← climb_paddedNode, Nat.add_right_comm] at hup
      exact hup

/-- The path of an index leads from its leaf to the root. -/
theorem foldPath_paddedSiblings {leaves : List Felt} {depth index : Nat}
    (hindex : index < 2 ^ depth) :
    foldPath (leaves.getD index 0) (paddedSiblings leaves depth index)
        (pathBits depth index) =
      paddedRoot depth leaves := by
  have hfold := foldPath_from leaves index depth 0
  rw [Nat.zero_add, Nat.div_eq_of_lt hindex, paddedNode_top, Nat.pow_zero,
    Nat.div_one, paddedNode_zero, ← List.range_eq_range'] at hfold
  exact hfold

theorem bitsValue_from (index count height : Nat) :
    bitsValue ((List.range' height count).map (isRightChild index)) =
      index / 2 ^ height % 2 ^ count := by
  induction count generalizing height with
  | zero => simp [bitsValue, Nat.mod_one]
  | succ count ih =>
      have hbit : (isRightChild index height).toNat = index / 2 ^ height % 2 :=
        Nat.toNat_testBit index height
      rw [List.range'_succ, List.map_cons, bitsValue, ih, hbit, Nat.pow_succ 2 height,
        ← Nat.div_div_eq_div_mul, Nat.pow_succ, Nat.mul_comm (2 ^ count), Nat.mod_mul]

/-- The sides of a path stand for its index. -/
theorem bitsValue_pathBits {depth index : Nat} (hindex : index < 2 ^ depth) :
    bitsValue (pathBits depth index) = index := by
  rw [pathBits, List.range_eq_range', bitsValue_from, Nat.pow_zero, Nat.div_one,
    Nat.mod_eq_of_lt hindex]

theorem bitsValue_lt (bits : List Bool) : bitsValue bits < 2 ^ bits.length := by
  induction bits with
  | nil => exact Nat.one_pos
  | cons bit bits ih =>
      have hbit := Bool.toNat_lt bit
      rw [bitsValue, List.length_cons, Nat.pow_succ]
      omega

/-- Below the lowest side a path is that of half the index. -/
theorem pathBits_succ (depth index : Nat) :
    pathBits (depth + 1) index = isRightChild index 0 :: pathBits depth (index / 2) := by
  rw [pathBits, List.range_succ_eq_map, List.map_cons, List.map_map]
  congr 1
  apply List.map_congr_left
  intro level _
  exact Nat.testBit_succ index level

/-- Sides are the path of the index that they stand for. -/
theorem pathBits_bitsValue (bits : List Bool) :
    pathBits bits.length (bitsValue bits) = bits := by
  induction bits with
  | nil => rfl
  | cons bit bits ih =>
      have hbit := Bool.toNat_lt bit
      have hlow : isRightChild (bitsValue (bit :: bits)) 0 = bit := by
        rw [isRightChild, Nat.testBit_zero, bitsValue]
        cases bit <;> simp
      have hhalf : bitsValue (bit :: bits) / 2 = bitsValue bits := by
        rw [bitsValue]
        omega
      rw [List.length_cons, pathBits_succ, hlow, hhalf, ih]

theorem bitsValue_drop (bits : List Bool) (count : Nat) :
    bitsValue (bits.drop count) = bitsValue bits / 2 ^ count := by
  induction count generalizing bits with
  | zero => simp
  | succ count ih =>
      cases bits with
      | nil => simp [bitsValue]
      | cons bit bits =>
          have hbit := Bool.toNat_lt bit
          rw [List.drop_succ_cons, ih, Nat.pow_succ', ← Nat.div_div_eq_div_mul, bitsValue,
            show (bit.toNat + 2 * bitsValue bits) / 2 = bitsValue bits by omega]

/-- The sides above a height are those of the node there. -/
theorem map_isRightChild_range' (index height count : Nat) :
    (List.range' height count).map (isRightChild index) =
      pathBits count (index / 2 ^ height) := by
  rw [pathBits, List.range'_eq_map_range, List.map_map]
  apply List.map_congr_left
  intro level _
  rw [Function.comp_apply, isRightChild, isRightChild, Nat.testBit_div_two_pow,
    Nat.add_comm]

theorem Inclusion.pathIndex_eq_ok_iff {proof : Inclusion} {index : UInt64} :
    proof.pathIndex = .ok index ↔ bitsValue proof.pathBits = index.toNat := by
  rw [pathIndex]
  split
  · next hfits =>
      rw [Except.ok.injEq]
      constructor
      · rintro rfl
        exact (UInt64.toNat_ofNat_of_lt' hfits).symm
      · intro hvalue
        rw [hvalue, UInt64.ofNat_toNat]
  · next hlarge =>
      simp only [reduceCtorEq, false_iff]
      intro hvalue
      exact hlarge (hvalue ▸ index.toNat_lt)

def paddedProof (depth : Depth) (leaves : List Felt) (index : UInt64) : Inclusion :=
  ⟨index, paddedSiblings leaves depth.levels index.toNat,
    pathBits depth.levels index.toNat⟩

section PaddedProof

variable {depth : Depth} {index : UInt64} (hindex : index.toNat < depth.capacity)
include hindex

theorem pathIndex_paddedProof (leaves : List Felt) :
    (paddedProof depth leaves index).pathIndex = .ok index :=
  Inclusion.pathIndex_eq_ok_iff.2 (bitsValue_pathBits hindex)

theorem impliedRoot_paddedProof {leaves : List Felt} {leaf : Felt}
    (hleaf : leaves[index.toNat]? = some leaf) :
    (paddedProof depth leaves index).impliedRoot leaf =
      .ok (paddedRoot depth.levels leaves) := by
  rw [Inclusion.impliedRoot, if_pos (by simp [paddedProof]),
    ← foldPath_paddedSiblings hindex, List.getD_eq_getElem?_getD, hleaf]
  rfl

theorem verifyStrict_paddedProof {leaves : List Felt} {leaf : Felt}
    (hleaf : leaves[index.toNat]? = some leaf) :
    (paddedProof depth leaves index).verifyStrict depth.levels leaf
        (paddedRoot depth.levels leaves) = .ok true := by
  rw [Inclusion.verifyStrict, if_pos (by simp [paddedProof]),
    ← foldPath_paddedSiblings hindex, List.getD_eq_getElem?_getD, hleaf]
  simp [paddedProof]

end PaddedProof

end ShieldedPool.Merkle
