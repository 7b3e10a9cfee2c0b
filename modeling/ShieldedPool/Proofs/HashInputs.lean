/-
What the pool hashes, read back.  Amounts, epochs and leaf indices are words
that a field element holds unchanged, so the inputs of a commitment and of a
nullifier tell what they were made of.  Two positions with one commitment, or
two keys at leaves with one mark, are the same unless different inputs have one
hash.
-/
import ShieldedPool.Commitment

namespace ShieldedPool

theorem Felt.val_ofWord64 (word : UInt64) : (Felt.ofWord64 word).val = word.toNat := by
  have hwords : UInt64.size < Felt.modulus := by decide
  exact Nat.mod_eq_of_lt (Nat.lt_trans word.toNat_lt hwords)

@[simp] theorem Felt.ofWord64_inj {word other : UInt64} :
    Felt.ofWord64 word = Felt.ofWord64 other ↔ word = other := by
  constructor
  · intro hsame
    apply UInt64.toNat_inj.1
    calc word.toNat = (Felt.ofWord64 word).val := (Felt.val_ofWord64 word).symm
      _ = (Felt.ofWord64 other).val := congrArg (fun a : Felt => a.val) hsame
      _ = other.toNat := Felt.val_ofWord64 other
  · exact congrArg Felt.ofWord64

namespace Poseidon

/-- Different inputs have one hash. -/
def Collide (inputs others : List Felt) : Prop :=
  inputs ≠ others ∧ ∃ hash, hash? inputs = some hash ∧ hash? others = some hash

theorem eq_or_collide {inputs others : List Felt} {hash : Felt}
    (hinputs : hash? inputs = some hash) (hothers : hash? others = some hash) :
    inputs = others ∨ Collide inputs others := by
  by_cases hsame : inputs = others
  · exact .inl hsame
  · exact .inr ⟨hsame, hash, hinputs, hothers⟩

end Poseidon

open Poseidon (Collide)

section Position

variable {keyX keyX' : Felt} {amount amount' : UInt64} {epoch epoch' : Option UInt64}

/-- What the commitment to a position hashes: two elements, or three with an
epoch. -/
def positionInputs (keyX : Felt) (amount : UInt64) (epoch : Option UInt64) : List Felt :=
  keyX :: Felt.ofWord64 amount :: (epoch.map Felt.ofWord64).toList

theorem hash?_positionInputs :
    Poseidon.hash? (positionInputs keyX amount epoch) =
      some (positionCommitment keyX amount epoch) := by
  cases epoch with
  | none => rfl
  | some epoch => rfl

theorem positionInputs_inj :
    positionInputs keyX amount epoch = positionInputs keyX' amount' epoch' ↔
      keyX = keyX' ∧ amount = amount' ∧ epoch = epoch' := by
  cases epoch <;> cases epoch' <;> simp [positionInputs]

/-- A commitment is to one position only. -/
theorem position_eq_or_collide
    (hsame : positionCommitment keyX amount epoch = positionCommitment keyX' amount' epoch') :
    (keyX = keyX' ∧ amount = amount' ∧ epoch = epoch') ∨
      Collide (positionInputs keyX amount epoch) (positionInputs keyX' amount' epoch') := by
  have hhash := @hash?_positionInputs keyX amount epoch
  rw [hsame] at hhash
  rw [← positionInputs_inj]
  exact Poseidon.eq_or_collide hhash hash?_positionInputs

end Position

section Mark

variable {key key' : Felt} {leaf leaf' : UInt64}

/-- What the nullifier of a private key at a leaf hashes. -/
def nullifierInputs (key : Felt) (leaf : UInt64) : List Felt := [key, Felt.ofWord64 leaf]

theorem hash?_nullifierInputs :
    Poseidon.hash? (nullifierInputs key leaf) = some (nullifier key leaf) := rfl

theorem nullifierInputs_inj :
    nullifierInputs key leaf = nullifierInputs key' leaf' ↔ key = key' ∧ leaf = leaf' := by
  simp [nullifierInputs]

/-- Two keys at leaves have one nullifier from different inputs, or different
nullifiers with one hash. -/
def MarksMeet (key : Felt) (leaf : UInt64) (key' : Felt) (leaf' : UInt64) : Prop :=
  Collide (nullifierInputs key leaf) (nullifierInputs key' leaf') ∨
    Collide [nullifier key leaf] [nullifier key' leaf']

/-- A mark is of one private key at one leaf only. -/
theorem mark_eq_or_marksMeet (hsame : spendMark key leaf = spendMark key' leaf') :
    (key = key' ∧ leaf = leaf') ∨ MarksMeet key leaf key' leaf' := by
  have hhash : Poseidon.hash? [nullifier key leaf] = some (spendMark key' leaf') :=
    congrArg some hsame
  have hhash' : Poseidon.hash? [nullifier key' leaf'] = some (spendMark key' leaf') := rfl
  rcases Poseidon.eq_or_collide hhash hhash' with hmarks | hcollide
  · have hnullifier : nullifier key leaf = nullifier key' leaf' := List.singleton_inj.1 hmarks
    have hinputs := @hash?_nullifierInputs key leaf
    rw [hnullifier] at hinputs
    rcases Poseidon.eq_or_collide hinputs hash?_nullifierInputs with heq | hcollide
    · exact .inl (nullifierInputs_inj.1 heq)
    · exact .inr (.inl hcollide)
  · exact .inr (.inr hcollide)

end Mark

end ShieldedPool
