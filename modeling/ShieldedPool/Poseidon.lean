/-
The sponge hash of one to four field elements.  The state is a zero cell and
the inputs; after all rounds its first cell is the hash.  There is a hash
function for every number of inputs, each with parameters of its own, so
inputs of different number are hashed by unrelated functions.
-/
import ShieldedPool.Poseidon.Parameters

namespace ShieldedPool.Poseidon

/-- The power map of the rounds. -/
def fifthPower (a : Felt) : Felt :=
  let square := a * a
  square * square * a

/-- Raise what a round of the given kind raises. -/
def raiseCells : RoundKind → List Felt → List Felt
  | .full, cells => cells.map fifthPower
  | .partialRound, [] => []
  | .partialRound, cell :: cells => fifthPower cell :: cells

/-- The sum of the products of two rows. -/
def rowProduct (row cells : List Felt) : Felt :=
  (List.zipWith (· * ·) row cells).foldl (· + ·) 0

/-- One round: add the constants, raise, mix. -/
def applyRound (mixing : List (List Felt)) (cells : List Felt) (round : Round) :
    List Felt :=
  let keyed := List.zipWith (· + ·) cells round.constants
  let raised := raiseCells round.kind keyed
  mixing.map (rowProduct · raised)

def permute (parameters : Parameters) (cells : List Felt) : List Felt :=
  parameters.rounds.foldl (applyRound parameters.mixing) cells

/-- The first cell after permuting a zero cell and the inputs. -/
def sponge (parameters : Parameters) (inputs : List Felt) : Felt :=
  (permute parameters (0 :: inputs)).headD 0

@[irreducible] def hash1 (a : Felt) : Felt := sponge parameters1 [a]

@[irreducible] def hash2 (a b : Felt) : Felt := sponge parameters2 [a, b]

@[irreducible] def hash3 (a b c : Felt) : Felt := sponge parameters3 [a, b, c]

@[irreducible] def hash4 (a b c d : Felt) : Felt := sponge parameters4 [a, b, c, d]

def maxInputs : Nat := 4

/-- The hash of a list of one to four field elements. -/
def hash? : List Felt → Option Felt
  | [a] => some (hash1 a)
  | [a, b] => some (hash2 a b)
  | [a, b, c] => some (hash3 a b c)
  | [a, b, c, d] => some (hash4 a b c d)
  | _ => none

theorem hash?_isSome_iff (inputs : List Felt) :
    (hash? inputs).isSome ↔ 0 < inputs.length ∧ inputs.length ≤ maxInputs := by
  match inputs with
  | [] | [_] | [_, _] | [_, _, _] | [_, _, _, _] => simp [hash?, maxInputs]
  | _ :: _ :: _ :: _ :: _ :: _ => simp [hash?, maxInputs]

end ShieldedPool.Poseidon
