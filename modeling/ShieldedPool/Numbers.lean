/-
How numbers are read.  What runs sees the core library alone; the theory sees
the algebra of monoids and rings as well, which has a power and a zero of its
own for numbers.  The readings of the core library come first in both, so that
a definition has one meaning.
-/

namespace ShieldedPool

instance (priority := high) natPow : Pow Nat Nat := instPowNat

instance (priority := high) natZero : Zero Nat := Zero.ofOfNat0

end ShieldedPool
