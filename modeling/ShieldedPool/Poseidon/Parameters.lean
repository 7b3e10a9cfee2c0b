/-
The parameters of the sponge permutation: for every round its kind and its
constants, and the matrix that mixes the state.  They are drawn from the shift
register, so nothing about them is a free choice but the shape.
-/
import ShieldedPool.Felt
import ShieldedPool.Poseidon.Grain

namespace ShieldedPool.Poseidon

/-- A round raises the whole state to the fifth power or its first cell only. -/
inductive RoundKind
  | full
  | partialRound
deriving DecidableEq

/-- A round: what it raises, and the constants it adds first. -/
structure Round where
  kind : RoundKind
  constants : List Felt

/-- The parameters of one width. -/
structure Parameters where
  rounds : List Round
  mixing : List (List Felt)

def fieldBits : Nat := 254

/-- Full rounds, half of them before the partial ones and half after. -/
def fullRounds : Nat := 8

/-- Register blocks that are read at most for one number.  A block keeps four
bits on average and three quarters of the numbers are below the modulus, so
about eighty-five are read on average. -/
def blocksPerNumber : Nat := 256

/-- Cut a list into `count` rows of a given width. -/
def cutRows (width : Nat) : (count : Nat) → List Felt → List (List Felt)
  | 0, _ => []
  | count + 1, cells =>
      cells.take width :: cutRows width count (cells.drop width)

/-- The kinds of the rounds, in order. -/
def roundKinds (partialRounds : Nat) : List RoundKind :=
  List.replicate (fullRounds / 2) .full
    ++ List.replicate partialRounds .partialRound
    ++ List.replicate (fullRounds / 2) .full

/-- The mixing matrix over two lists of seeds: reciprocals of their sums. -/
def cauchyMatrix (rows columns : List Felt) : List (List Felt) :=
  rows.map fun x => columns.map fun y => (x + y).reciprocal

/-- The parameters of a state of `width` cells.  Round constants are redrawn
until they are below the modulus; seeds of the matrix are reduced. -/
def Parameters.derive (width partialRounds : Nat) : Parameters :=
  let kinds := roundKinds partialRounds
  let needed := width * kinds.length
  let register :=
    discardBlocks 10 (grainSeed fieldBits width fullRounds partialRounds)
  let (constants, state) :=
    drawNumbers fieldBits (· < Felt.modulus) (blocksPerNumber * needed) needed
      register .none
  let (seeds, _) :=
    drawNumbers fieldBits (fun _ => true) (blocksPerNumber * 2 * width) (2 * width)
      state.register state.gathered
  let constants := constants.map (Residue.ofNat Felt.modulus)
  let seeds := seeds.map (Residue.ofNat Felt.modulus)
  { rounds := List.zipWith Round.mk kinds (cutRows width kinds.length constants)
    mixing := cauchyMatrix (seeds.take width) (seeds.drop width) }

def parameters1 : Parameters := .derive 2 56

def parameters2 : Parameters := .derive 3 57

def parameters3 : Parameters := .derive 4 56

def parameters4 : Parameters := .derive 5 60

end ShieldedPool.Poseidon
