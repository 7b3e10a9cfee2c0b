/-
The self-shrinking shift register that the hash parameters are drawn from.
The register holds eighty bits, the oldest at the bottom.  Its bits are read in
pairs: the second bit of a pair is kept exactly when the first is one.  The
register is stepped a block of eight pairs at a time.
-/
import ShieldedPool.Numbers

namespace ShieldedPool.Poseidon

def blockPairs : Nat := 8

/-- The next block of the register, the first bit at the bottom.  The furthest
tap is 62, so all sixteen bits depend only on bits that are there already. -/
def nextBlock (register : Nat) : Nat :=
  (register ^^^ register >>> 13 ^^^ register >>> 23 ^^^ register >>> 38
    ^^^ register >>> 51 ^^^ register >>> 62) &&& 0xffff

/-- Shift a block out at the bottom and the next one in at the top. -/
def shiftBlock (register : Nat) : Nat :=
  register >>> 16 ||| nextBlock register <<< 64

/-- The register after some blocks have been thrown away. -/
def discardBlocks : (blocks register : Nat) → Nat
  | 0, register => register
  | blocks + 1, register => discardBlocks blocks (shiftBlock register)

/-- The bits gathered towards the next number, and how many they are. -/
structure Gathered where
  value : Nat
  count : Nat

namespace Gathered

def none : Gathered := ⟨0, 0⟩

/-- One more bit, below those gathered. -/
def push (g : Gathered) (bit : Nat) : Gathered := ⟨2 * g.value + bit, g.count + 1⟩

/-- Take in the kept bits of the lowest pairs of a block. -/
def keep (g : Gathered) (block : Nat) : (pairs : Nat) → Gathered
  | 0 => g
  | pairs + 1 =>
      if block % 2 = 1 then (g.push (block / 2 % 2)).keep (block / 4) pairs
      else g.keep (block / 4) pairs

/-- The bits gathered beyond the first `width`. -/
def beyond (g : Gathered) (width : Nat) : Gathered :=
  ⟨g.value % 2 ^ (g.count - width), g.count - width⟩

/-- The number that the first `width` bits write, first bit most significant. -/
def number (g : Gathered) (width : Nat) : Nat := g.value >>> (g.count - width)

end Gathered

/-- What is behind the last number drawn: the register and the bits kept. -/
structure GrainState where
  register : Nat
  gathered : Gathered

/-- Draw `wanted` numbers of `width` bits, leaving out those that `accept`
refuses.  At most `blocks` blocks are read. -/
def drawNumbers (width : Nat) (accept : Nat → Bool) :
    (blocks wanted : Nat) → (register : Nat) → Gathered → List Nat × GrainState
  | 0, _, register, gathered => ([], ⟨register, gathered⟩)
  | _, 0, register, gathered => ([], ⟨register, gathered⟩)
  | blocks + 1, wanted + 1, register, gathered =>
      let gathered := gathered.keep (nextBlock register) blockPairs
      let register := shiftBlock register
      if gathered.count < width then
        drawNumbers width accept blocks (wanted + 1) register gathered
      else if accept (gathered.number width) then
        let drawn :=
          drawNumbers width accept blocks wanted register (gathered.beyond width)
        (gathered.number width :: drawn.1, drawn.2)
      else
        drawNumbers width accept blocks (wanted + 1) register (gathered.beyond width)

/-- Write a number of the given width above the `used` bits of a register,
most significant bit lowest, since the lowest bit is the oldest. -/
def seedField (seed : Nat × Nat) (field : Nat × Nat) : Nat × Nat :=
  let (register, used) := seed
  let (width, value) := field
  ((List.range width).foldl
    (fun register i =>
      register ||| (value >>> (width - 1 - i) &&& 1) <<< (used + i)) register,
   used + width)

/-- The register before any bit is drawn: prime field, power map, bits of the
modulus, width of the state, full rounds, partial rounds, and ones to the end. -/
def grainSeed (fieldBits width fullRounds partialRounds : Nat) : Nat :=
  ([(2, 1), (4, 0), (12, fieldBits), (12, width), (10, fullRounds),
    (10, partialRounds), (30, 2 ^ (30 : Nat) - 1)].foldl seedField (0, 0)).1

end ShieldedPool.Poseidon
