/-
Square roots of field elements.  The field modulus is one more than an odd
number times `2 ^ 28`.  A power of the argument gives a root up to a factor
whose order is a power of two; the loop then halves the order of what is left
of that factor.  The root that comes out is the one the loop ends on, which
need not be the smaller or the even one.
-/
import ShieldedPool.Felt

namespace ShieldedPool.Felt

/-- The exponent of two in `p - 1`. -/
def twoAdicity : Nat := 28

/-- The odd part of `p - 1`. -/
def oddPart : Nat := (modulus - 1) / 2 ^ twoAdicity

/-- A generator of the elements whose order is a power of two. -/
def rootOfUnity : Felt := (5 : Felt) ^ oddPart

def squareTimes : Nat → Felt → Felt
  | 0, a => a
  | count + 1, a => squareTimes count (a * a)

/-- How often an element must be squared to become one, up to `limit`. -/
def squaringsToOne : (limit : Nat) → Felt → Nat
  | 0, _ => 0
  | limit + 1, a => if a = 1 then 0 else squaringsToOne limit (a * a) + 1

/-- Correct a candidate root while its error is not one.  `root` of order
`2 ^ order` drives the correction, and the order falls with every turn. -/
def correctRoot : (turns : Nat) → (order : Nat) → (root error candidate : Felt) →
    Option Felt
  | 0, _, _, _, _ => none
  | turns + 1, order, root, error, candidate =>
      let squarings := squaringsToOne twoAdicity error
      if error = 1 then some candidate
      else if squarings = twoAdicity then none
      else
        let factor := squareTimes (order - squarings - 1) root
        let root := factor * factor
        correctRoot turns squarings root (error * root) (candidate * factor)

/-- A square root, when there is one. -/
def sqrt? (a : Felt) : Option Felt :=
  if a = 0 then some 0
  else
    let half := a ^ ((oddPart - 1) / 2)
    let candidate := half * a
    match correctRoot (twoAdicity + 1) twoAdicity rootOfUnity
        (candidate * half) candidate with
    | some root => if root * root = a then some root else none
    | none => none

end ShieldedPool.Felt
