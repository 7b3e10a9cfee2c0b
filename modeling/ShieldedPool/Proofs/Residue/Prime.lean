/-
Both moduli are prime.  A number is prime when a residue modulo it has the order
of the whole multiplicative group, which the powers at the prime divisors of
that order decide.  The divisors are large themselves, so they stand on a ladder
whose rungs rest on the lower ones, and on small primes below them all.
-/
import Mathlib.NumberTheory.LucasPrimality
import Mathlib.Tactic.NormNum.Prime
import ShieldedPool.Felt
import ShieldedPool.Proofs.Residue.Ring

namespace ShieldedPool

/-- Lucas's test, run on residues: the factors are primes with their exponents. -/
theorem Residue.prime_of_order {n : Nat} [NeZero n] (a : Residue n)
    (factors : List (Nat × Nat))
    (hprime : ∀ factor ∈ factors, factor.1.Prime)
    (hproduct : (factors.map fun factor => factor.1 ^ factor.2).prod = n - 1)
    (hone : a ^ (n - 1) = 1)
    (hne : ∀ factor ∈ factors, a ^ ((n - 1) / factor.1) ≠ 1) : n.Prime := by
  apply lucas_primality n a.toZMod
  · rw [← toZMod_pow, hone, toZMod_one]
  · intro q hq hdvd
    rw [← hproduct] at hdvd
    obtain ⟨power, hpower, hdvd⟩ := (Prime.dvd_prod_iff hq.prime).1 hdvd
    obtain ⟨factor, hfactor, rfl⟩ := List.mem_map.1 hpower
    have hsame : q = factor.1 := (Nat.prime_dvd_prime_iff_eq hq (hprime factor hfactor)).1
      (hq.dvd_of_dvd_pow hdvd)
    rw [hsame, ← toZMod_pow, ← toZMod_one, Ne, toZMod_inj]
    exact hne factor hfactor

/-- A prime, one more than the order of its multiplicative group, with a
residue of that order and the prime powers that the order is made of. -/
structure Rung where
  order : Nat
  residue : Nat
  factors : List (Nat × Nat)

namespace Rung

/-- The rung rests on known primes and its residue has the order. -/
def Holds (known : List Nat) (rung : Rung) : Prop :=
  (∀ factor ∈ rung.factors, factor.1 ∈ known) ∧
    (rung.factors.map fun factor => factor.1 ^ factor.2).prod = rung.order ∧
    Residue.ofNat (rung.order + 1) rung.residue ^ rung.order = 1 ∧
    ∀ factor ∈ rung.factors,
      Residue.ofNat (rung.order + 1) rung.residue ^ (rung.order / factor.1) ≠ 1

instance (known : List Nat) : DecidablePred (Holds known) := fun _ =>
  inferInstanceAs (Decidable (_ ∧ _ ∧ _ ∧ _))

/-- Every rung rests on the known primes and on the rungs before it. -/
def Stand : (known : List Nat) → List Rung → Prop
  | _, [] => True
  | known, rung :: rungs => rung.Holds known ∧ Stand ((rung.order + 1) :: known) rungs

instance : (known : List Nat) → DecidablePred (Stand known)
  | _, [] => inferInstanceAs (Decidable True)
  | known, rung :: rungs =>
      have := instDecidablePredListStand ((rung.order + 1) :: known) rungs
      inferInstanceAs (Decidable (_ ∧ _))

theorem Holds.prime {known : List Nat} {rung : Rung} (hholds : rung.Holds known)
    (hknown : ∀ r ∈ known, r.Prime) : (rung.order + 1).Prime := by
  obtain ⟨hfactors, hproduct, hone, hne⟩ := hholds
  exact Residue.prime_of_order _ rung.factors
    (fun factor hfactor => hknown _ (hfactors factor hfactor)) hproduct hone hne

theorem Stand.prime {known : List Nat} {rungs : List Rung} (hstand : Stand known rungs)
    (hknown : ∀ r ∈ known, r.Prime) : ∀ rung ∈ rungs, (rung.order + 1).Prime := by
  induction rungs generalizing known with
  | nil => simp
  | cons rung rungs ih =>
      have hprime := hstand.1.prime hknown
      rw [List.forall_mem_cons]
      refine ⟨hprime, ih hstand.2 ?_⟩
      rw [List.forall_mem_cons]
      exact ⟨hprime, hknown⟩

end Rung

def smallPrimes : List Nat :=
  [2, 3, 5, 7, 11, 13, 19, 29, 41, 67, 73, 83, 89, 107, 229, 311, 379, 661, 823, 853,
   911, 983, 1637, 3557, 3691, 4999, 11003, 13327, 93001, 237073, 327599, 1593227,
   1853641, 4562087]

/-- The ladder, with the two moduli on top. -/
def primeLadder : List Rung :=
  [⟨405928798, 22, [(2, 1), (11, 1), (3691, 1), (4999, 1)]⟩,
   ⟨12048837556, 2, [(2, 2), (7, 2), (661, 1), (93001, 1)]⟩,
   ⟨5156902474396, 2, [(2, 2), (107, 1), (12048837557, 1)]⟩,
   ⟨1670836401704628, 2, [(2, 2), (3, 4), (5156902474397, 1)]⟩,
   ⟨639533338, 2, [(2, 1), (229, 1), (853, 1), (1637, 1)]⟩,
   ⟨65865678001877902, 5, [(2, 1), (83, 1), (379, 1), (1637, 1), (639533339, 1)]⟩,
   ⟨13818364434197438864469338080, 3, [(2, 5), (5, 1), (823, 1), (1593227, 1),
    (65865678001877903, 1)]⟩,
   ⟨11465965000, 3, [(2, 3), (5, 4), (7, 1), (327599, 1)]⟩,
   ⟨173171038, 13, [(2, 1), (73, 1), (89, 1), (13327, 1)]⟩,
   ⟨1263766530, 10, [(2, 1), (3, 1), (5, 1), (13, 1), (911, 1), (3557, 1)]⟩,
   ⟨35385462868, 2, [(2, 2), (7, 1), (1263766531, 1)]⟩,
   ⟨2480874801745590, 6, [(2, 1), (3, 2), (5, 1), (19, 1), (41, 1), (35385462869, 1)]⟩,
   ⟨13427688667394608761327070753331941386768, 17, [(2, 4), (3, 1), (7, 1), (11, 1),
    (1853641, 1), (4562087, 1), (173171039, 1), (2480874801745591, 1)]⟩,
   ⟨Felt.modulus - 1, 5, [(2, 28), (3, 2), (13, 1), (29, 1), (983, 1), (11003, 1),
    (237073, 1), (405928799, 1), (1670836401704629, 1),
    (13818364434197438864469338081, 1)]⟩,
   ⟨Scalar.modulus - 1, 3, [(2, 1), (3, 2), (13, 1), (29, 1), (67, 1), (229, 1),
    (311, 1), (983, 1), (11003, 1), (405928799, 1), (11465965001, 1),
    (13427688667394608761327070753331941386769, 1)]⟩]

theorem prime_of_mem_primeLadder {n : Nat}
    (hmem : n ∈ primeLadder.map fun rung => rung.order + 1) : n.Prime := by
  have hsmall : ∀ r ∈ smallPrimes, r.Prime := by
    simp only [smallPrimes, List.forall_mem_cons]
    norm_num
  -- the kernel runs the powers of all rungs
  have hstand : Rung.Stand smallPrimes primeLadder := by decide +kernel
  obtain ⟨rung, hrung, rfl⟩ := List.mem_map.1 hmem
  exact hstand.prime hsmall rung hrung

theorem prime_feltModulus : Nat.Prime Felt.modulus :=
  prime_of_mem_primeLadder (by decide)

theorem prime_scalarModulus : Nat.Prime Scalar.modulus :=
  prime_of_mem_primeLadder (by decide)

instance : Fact Felt.modulus.Prime := ⟨prime_feltModulus⟩

instance : Fact Scalar.modulus.Prime := ⟨prime_scalarModulus⟩

@[simp] theorem Felt.toZMod_reciprocal (a : Felt) : a.reciprocal.toZMod = a.toZMod⁻¹ :=
  Residue.toZMod_reciprocal (by decide) a

end ShieldedPool
