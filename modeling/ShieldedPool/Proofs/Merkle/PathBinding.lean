/-
A path binds its leaf.  Two values that climb one path to one root are equal,
or their climbs meet: at some step two different pairs of children have the
same node.  Both forms of the tree prove along paths of the padded tree, so
what they prove at an index is the leaf there, up to such a meeting.
-/
import ShieldedPool.Proofs.Merkle.FollowerTree

namespace ShieldedPool.Merkle

/-- Two values that climb the same steps differ below a step and have one node
above it. -/
def ClimbsMeet : List (Felt × Bool) → Felt → Felt → Prop
  | [], _, _ => False
  | step :: steps, a, b =>
      a ≠ b ∧ climb a step = climb b step ∨ ClimbsMeet steps (climb a step) (climb b step)

theorem not_climbsMeet_self (steps : List (Felt × Bool)) (a : Felt) :
    ¬ ClimbsMeet steps a a := by
  induction steps generalizing a with
  | nil => exact id
  | cons step steps ih =>
      rintro (⟨hne, -⟩ | hlater)
      · exact hne rfl
      · exact ih _ hlater

/-- Equal roots mean equal values, or climbs that meet. -/
theorem eq_or_climbsMeet {steps : List (Felt × Bool)} {a b : Felt}
    (hroot : steps.foldl climb a = steps.foldl climb b) : a = b ∨ ClimbsMeet steps a b := by
  induction steps generalizing a b with
  | nil => exact .inl hroot
  | cons step steps ih =>
      by_cases hsame : a = b
      · exact .inl hsame
      · right
        rcases ih hroot with hmeet | hlater
        · exact .inl ⟨hsame, hmeet⟩
        · exact .inr hlater

def Inclusion.steps (proof : Inclusion) : List (Felt × Bool) :=
  proof.siblings.zip proof.pathBits

theorem Inclusion.impliedRoot_eq_ok_iff {proof : Inclusion} {value root : Felt} :
    proof.impliedRoot value = .ok root ↔
      proof.siblings.length = proof.pathBits.length ∧ proof.steps.foldl climb value = root := by
  rw [impliedRoot]
  split
  · next hlength =>
      rw [Except.ok.injEq]
      exact (and_iff_right hlength).symm
  · next hlength => simp [hlength]

theorem Inclusion.impliedRoot_eq_ok {proof : Inclusion} {value root : Felt}
    (hroot : proof.impliedRoot value = .ok root) : proof.steps.foldl climb value = root :=
  (impliedRoot_eq_ok_iff.1 hroot).2

/-- A value with the root of the padded tree is the leaf that the path is of. -/
theorem eq_leaf_or_climbsMeet {depth : Depth} {leaves : List Felt} {index : UInt64}
    {value leaf : Felt} (hindex : index.toNat < depth.capacity)
    (hleaf : leaves[index.toNat]? = some leaf)
    (hvalue : (paddedProof depth leaves index).impliedRoot value =
      .ok (paddedRoot depth.levels leaves)) :
    value = leaf ∨ ClimbsMeet (paddedProof depth leaves index).steps value leaf := by
  have hown := Inclusion.impliedRoot_eq_ok (impliedRoot_paddedProof hindex hleaf)
  exact eq_or_climbsMeet ((Inclusion.impliedRoot_eq_ok hvalue).trans hown.symm)

/-- The accumulator grows as the padded tree does, stands at its root and
proves no leaf but along its path. -/
structure ShowsPadded {α : Type} [Accumulator α] (depth : Depth)
    (holds : α → List Felt → Prop) : Prop extends Grows depth.capacity holds where
  root_eq : ∀ {tree : α} {leaves : List Felt}, holds tree leaves →
    Accumulator.root tree = paddedRoot depth.levels leaves
  prove_eq : ∀ {tree : α} {leaves : List Felt} {index : UInt64} {proof : Inclusion},
    holds tree leaves → Accumulator.prove tree index = .ok proof →
      index.toNat < leaves.length ∧ proof = paddedProof depth leaves index

theorem Archive.showsPadded (depth : Depth) :
    ShowsPadded depth (fun tree leaves => tree = padded depth leaves) where
  toGrows := grows_padded depth
  root_eq := by
    rintro _ leaves rfl
    exact root_padded depth leaves
  prove_eq := by
    rintro _ leaves index proof rfl hprove
    have hpadded := prove_padded depth leaves index
    rw [show Accumulator.prove (padded depth leaves) index =
      (padded depth leaves).prove index from rfl, hpadded] at hprove
    split at hprove
    · next hpresent =>
        cases hprove
        exact ⟨hpresent, rfl⟩
    · cases hprove

theorem Follower.showsPadded (depth : Depth) :
    ShowsPadded depth
      (fun (tree : Follower) leaves => tree.Agrees (Archive.padded depth leaves)) where
  toGrows := grows_agrees depth
  root_eq := by
    intro tree leaves hagrees
    exact hagrees.root_eq.trans (Archive.root_padded depth leaves)
  prove_eq := by
    intro tree leaves index proof hagrees hprove
    have hlatest := prove_of_agrees hagrees index
    rw [show Accumulator.prove tree index = tree.prove index from rfl, hlatest] at hprove
    split at hprove
    · next hpresent =>
        split at hprove
        · cases hprove
          exact ⟨hpresent, rfl⟩
        · cases hprove
    · cases hprove

end ShieldedPool.Merkle
