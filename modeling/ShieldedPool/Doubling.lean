/-
Repetition by doubling.  The bits of a count are read from the top: every bit
doubles what has been gathered so far, and a set bit adds one more copy.
Powers of residues and multiples of curve points are both this one loop.
-/
import ShieldedPool.Numbers

namespace ShieldedPool

universe u

variable {α : Type u}

/-- Read the lowest `bits` bits of `count`, the highest of them first. -/
def doubleAndStep (double step : α → α) (count : Nat) : Nat → α → α
  | 0, gathered => gathered
  | bits + 1, gathered =>
      let doubled := double gathered
      doubleAndStep double step count bits
        (if count.testBit bits then step doubled else doubled)

/-- What `count` copies gather, from an empty start. -/
def repeatByDoubling (double step : α → α) (start : α) (count : Nat) : α :=
  doubleAndStep double step count (count.log2 + 1) start

end ShieldedPool
