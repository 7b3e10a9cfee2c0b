/-
Every square has its root found.  While the correction runs, the candidate
squared is the argument times the error, and the root of unity and the error
reach minus one and one half-way along the order.  The order falls with every
turn, so the error is one before the turns run out.
-/
import Mathlib.Tactic.LinearCombination
import ShieldedPool.Felt.SquareRoot
import ShieldedPool.Proofs.Residue.Prime

namespace ShieldedPool.Felt

theorem toZMod_squareTimes (count : Nat) (a : Felt) :
    (squareTimes count a).toZMod = a.toZMod ^ 2 ^ count := by
  induction count generalizing a with
  | zero => rw [squareTimes, pow_zero, pow_one]
  | succ count ih =>
      rw [squareTimes, ih, Residue.toZMod_mul, ← pow_two, ← pow_mul, ← pow_succ']

/-- A count of squarings that reaches one bounds the count that is found. -/
theorem squaringsToOne_le {limit count : Nat} {a : Felt} (hlimit : count ≤ limit)
    (hone : a.toZMod ^ 2 ^ count = 1) : squaringsToOne limit a ≤ count := by
  induction limit generalizing count a with
  | zero => exact Nat.zero_le _
  | succ limit ih =>
      rw [squaringsToOne]
      split
      · exact Nat.zero_le _
      · next hne =>
          rcases count with _ | count
          · rw [pow_zero, pow_one, ← Residue.toZMod_one, Residue.toZMod_inj] at hone
            exact absurd hone hne
          · apply Nat.succ_le_succ
            apply ih (by omega)
            rw [Residue.toZMod_mul, ← pow_two, ← pow_mul, ← pow_succ']
            exact hone

/-- When one is reached at all, the value one squaring earlier is minus one. -/
theorem pow_squaringsToOne {limit count : Nat} {a : Felt} (hlimit : count ≤ limit)
    (hone : a.toZMod ^ 2 ^ count = 1) (hne : a ≠ 1) :
    ∃ before, squaringsToOne limit a = before + 1 ∧ a.toZMod ^ 2 ^ before = -1 := by
  induction limit generalizing count a with
  | zero =>
      obtain rfl : count = 0 := by omega
      rw [pow_zero, pow_one, ← Residue.toZMod_one, Residue.toZMod_inj] at hone
      exact absurd hone hne
  | succ limit ih =>
      rw [squaringsToOne, if_neg hne]
      rcases count with _ | count
      · rw [pow_zero, pow_one, ← Residue.toZMod_one, Residue.toZMod_inj] at hone
        exact absurd hone hne
      · refine ⟨_, rfl, ?_⟩
        by_cases hsquare : a * a = 1
        · have hzero : squaringsToOne limit (a * a) = 0 := by
            cases limit <;> simp [squaringsToOne, hsquare]
          have hroot : a.toZMod * a.toZMod = 1 := by
            rw [← Residue.toZMod_mul, hsquare, Residue.toZMod_one]
          rw [hzero, pow_zero, pow_one]
          rcases mul_self_eq_one_iff.1 hroot with hpos | hneg
          · rw [← Residue.toZMod_one, Residue.toZMod_inj] at hpos
            exact absurd hpos hne
          · exact hneg
        · have hnext : (a * a).toZMod ^ 2 ^ count = 1 := by
            rw [Residue.toZMod_mul, ← pow_two, ← pow_mul, ← pow_succ']
            exact hone
          obtain ⟨before, hbefore, hminus⟩ := ih (by omega) hnext hsquare
          rw [hbefore, pow_succ', pow_mul, pow_two, ← Residue.toZMod_mul]
          exact hminus

/-- What the correction keeps. -/
structure Correcting (a : Felt) (order : Nat) (root error candidate : Felt) : Prop where
  order_pos : 0 < order
  order_le : order ≤ twoAdicity
  square : candidate * candidate = a * error
  root_half : root.toZMod ^ 2 ^ (order - 1) = -1
  error_half : error.toZMod ^ 2 ^ (order - 1) = 1

namespace Correcting

variable {a root error candidate : Felt} {order : Nat}

/-- A turn lowers the order to the number of squarings the error needs. -/
theorem turn (hkept : Correcting a order root error candidate) (hne : error ≠ 1) :
    let squarings := squaringsToOne twoAdicity error
    let factor := squareTimes (order - squarings - 1) root
    squarings < order ∧ Correcting a squarings (factor * factor)
      (error * (factor * factor)) (candidate * factor) := by
  intro squarings factor
  have hpos := hkept.order_pos
  have hle := hkept.order_le
  have hwithin : order - 1 ≤ twoAdicity := by omega
  have hshort : squarings ≤ order - 1 := squaringsToOne_le hwithin hkept.error_half
  obtain ⟨before, hbefore, hminus⟩ := pow_squaringsToOne hwithin hkept.error_half hne
  have hsquarings : squarings = before + 1 := hbefore
  have hfactor : (factor * factor).toZMod ^ 2 ^ before = -1 := by
    rw [Residue.toZMod_mul, ← pow_two, ← pow_mul, ← pow_succ', toZMod_squareTimes, ← pow_mul,
      ← pow_add, show order - squarings - 1 + (before + 1) = order - 1 by omega]
    exact hkept.root_half
  refine ⟨by omega, by omega, by omega, ?_, ?_, ?_⟩
  · have hsquare := congrArg Residue.toZMod hkept.square
    apply Residue.toZMod_injective
    simp only [Residue.toZMod_mul] at hsquare ⊢
    linear_combination factor.toZMod ^ 2 * hsquare
  · rw [hsquarings, Nat.add_sub_cancel]
    exact hfactor
  · rw [hsquarings, Nat.add_sub_cancel, Residue.toZMod_mul, mul_pow, hfactor, hminus]
    ring

theorem correctRoot_eq_some {turns : Nat} (hkept : Correcting a order root error candidate)
    (hturns : order < turns) :
    ∃ found, correctRoot turns order root error candidate = some found ∧
      found * found = a := by
  induction turns generalizing order root error candidate with
  | zero => omega
  | succ turns ih =>
      rw [correctRoot]
      by_cases hone : error = 1
      · refine ⟨candidate, if_pos hone, ?_⟩
        rw [hkept.square, hone]
        apply Residue.toZMod_injective
        simp
      · obtain ⟨hfall, hnext⟩ := hkept.turn hone
        have hle := hkept.order_le
        rw [if_neg hone, if_neg (by omega)]
        exact ih hnext (by omega)

end Correcting

/-- The root of unity has its full order, because five is no square. -/
theorem rootOfUnity_half : rootOfUnity.toZMod ^ 2 ^ (twoAdicity - 1) = -1 := by
  rw [← toZMod_squareTimes, show squareTimes (twoAdicity - 1) rootOfUnity = -1 by decide +kernel]
  simp

theorem modulus_eq : modulus - 1 = 2 * (oddPart * 2 ^ (twoAdicity - 1)) := by decide

theorem oddPart_eq : oddPart = 2 * ((oddPart - 1) / 2) + 1 := by decide

theorem correcting_start {a b : Felt} (hsquare : b * b = a) (hne : a ≠ 0) :
    let half := a ^ ((oddPart - 1) / 2)
    Correcting a twoAdicity rootOfUnity (half * a * half) (half * a) := by
  intro half
  have herror : (half * a * half).toZMod = a.toZMod ^ oddPart := by
    conv_rhs => rw [oddPart_eq, pow_succ, two_mul, pow_add]
    simp only [half, Residue.toZMod_mul, Residue.toZMod_pow]
    ring
  refine ⟨by decide, Nat.le_refl _, ?_, rootOfUnity_half, ?_⟩
  · apply Residue.toZMod_injective
    simp only [Residue.toZMod_mul]
    ring
  · -- the error is a power of `b ^ 2`, so half-way it is `b ^ (p - 1)`
    have hb : b.toZMod ≠ 0 := by
      intro hzero
      apply hne
      rw [← Residue.toZMod_eq_zero, ← hsquare, Residue.toZMod_mul, hzero, mul_zero]
    rw [herror, ← pow_mul, ← hsquare, Residue.toZMod_mul, ← pow_two, ← pow_mul, ← modulus_eq,
      ZMod.pow_card_sub_one_eq_one hb]

/-- A square has a root, and the one that is found squares to it. -/
theorem sqrt?_of_square {a b : Felt} (hsquare : b * b = a) :
    ∃ root, a.sqrt? = some root ∧ root * root = a := by
  by_cases hzero : a = 0
  · refine ⟨0, by rw [sqrt?, if_pos hzero], ?_⟩
    rw [hzero]
    exact Residue.toZMod_injective (by simp)
  · obtain ⟨root, hfound, hroot⟩ :=
      (correcting_start hsquare hzero).correctRoot_eq_some (Nat.lt_succ_self _)
    refine ⟨root, ?_, hroot⟩
    simp only [sqrt?, if_neg hzero, hfound, hroot, if_pos]

/-- What is found is squared before it is handed out. -/
theorem mul_self_of_sqrt? {a root : Felt} (hfound : a.sqrt? = some root) :
    root * root = a := by
  by_cases hzero : a = 0
  · rw [sqrt?, if_pos hzero] at hfound
    cases hfound
    rw [hzero]
    exact Residue.toZMod_injective (by simp)
  · simp only [sqrt?, if_neg hzero] at hfound
    split at hfound
    · split at hfound
      · next hsquare =>
          cases hfound
          exact hsquare
      · cases hfound
    · cases hfound

theorem sqrt?_eq_none {a : Felt} (hsquare : ¬ IsSquare a) : a.sqrt? = none := by
  rcases hfound : a.sqrt? with _ | root
  · rfl
  · exact absurd ⟨root, (mul_self_of_sqrt? hfound).symm⟩ hsquare

theorem eq_or_eq_neg_of_square {a b : Felt} (hsquare : a * a = b * b) : a = b ∨ a = -b := by
  have hring := congrArg Residue.toZMod hsquare
  simp only [Residue.toZMod_mul] at hring
  rcases mul_self_eq_mul_self_iff.1 hring with hsame | hneg
  · left
    exact Residue.toZMod_injective hsame
  · right
    rw [← Residue.toZMod_neg] at hneg
    exact Residue.toZMod_injective hneg

end ShieldedPool.Felt
