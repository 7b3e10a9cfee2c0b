/-
Weighted coordinates stand for members of the group.  Doubling and the mixed
sum keep them so, hence repetition by doubling multiplies in the group, and
one reciprocal at the end reads the multiple off.
-/
import Mathlib.Tactic.LinearCombination
import ShieldedPool.Proofs.Doubling
import ShieldedPool.Proofs.Point.Group

namespace ShieldedPool

open WeierstrassCurve renaming Affine → Curve

namespace Jacobian

/-- The weighted coordinates stand for a member of the group. -/
def StandsFor (p : Jacobian) : curve.Point → Prop
  | .zero => p.z.toZMod = 0
  | .some x y _ =>
      p.z.toZMod ≠ 0 ∧ p.x.toZMod = x * p.z.toZMod ^ 2 ∧ p.y.toZMod = y * p.z.toZMod ^ 3

variable {p : Jacobian} {P : curve.Point}

theorem standsFor_infinity : infinity.StandsFor 0 := Residue.toZMod_zero

theorem StandsFor.double (hp : p.StandsFor P) : p.double.StandsFor (2 • P) := by
  rw [two_nsmul]
  rcases P with _ | ⟨x, y, h⟩
  · have hz : p.z.toZMod = 0 := hp
    change (2 * (p.y * p.z)).toZMod = 0
    simp [hz]
  · obtain ⟨hz, hx, hy⟩ := hp
    by_cases hzero : y = 0
    · have hneg : y = curve.negY x y := by rw [curve_negY, hzero, neg_zero]
      rw [Curve.Point.add_self_of_Y_eq hneg]
      change (2 * (p.y * p.z)).toZMod = 0
      simp [hy, hzero]
    · have hneg : y ≠ curve.negY x y := by rwa [curve_negY, Ne, eq_neg_self_iff]
      have hslope : curve.slope x x y y * (2 * y) = 3 * x ^ 2 := by
        rw [Curve.slope_of_Y_ne rfl hneg, curve_negY, sub_neg_eq_add, ← two_mul,
          div_mul_cancel₀ _ (mul_ne_zero Felt.two_ne_zero hzero)]
        simp [curve]
      rw [Curve.Point.add_self_of_Y_ne hneg]
      simp only [Jacobian.double, StandsFor, Residue.toZMod_mul, Residue.toZMod_sub,
        Residue.toZMod_ofNat, hx, hy, curve_addY, curve_addX]
      generalize curve.slope x x y y = s at hslope ⊢
      generalize p.z.toZMod = z at hz ⊢
      refine ⟨?_, ?_, ?_⟩
      · exact mul_ne_zero Felt.two_ne_zero
          (mul_ne_zero (mul_ne_zero hzero (pow_ne_zero 3 hz)) hz)
      · linear_combination (-z ^ 8 * (s * (2 * y) + 3 * x ^ 2)) * hslope
      · linear_combination z ^ 12 * ((s * (2 * y)) ^ 2 + s * (2 * y) * (3 * x ^ 2)
          + (3 * x ^ 2) ^ 2 - 12 * x * y ^ 2) * hslope

theorem standsFor_affine {x y : Felt} (hP : Point.ofGroup P = .affine x y) :
    (⟨x, y, 1⟩ : Jacobian).StandsFor P := by
  rcases P with _ | ⟨x', y', h⟩
  · exact Point.noConfusion hP
  · obtain ⟨rfl, rfl⟩ := Point.affine.inj hP
    refine ⟨?_, ?_, ?_⟩ <;> simp

theorem StandsFor.addAffine {Q : curve.Point} {x y : Felt} (hp : p.StandsFor P)
    (hQ : Point.ofGroup Q = .affine x y) : (p.addAffine x y).StandsFor (P + Q) := by
  rcases P with _ | ⟨x₁, y₁, h₁⟩
  · have hz : p.z = 0 := Residue.toZMod_eq_zero.1 hp
    rw [Jacobian.addAffine, if_pos hz, ← Curve.Point.zero_def, zero_add]
    exact standsFor_affine hQ
  · rcases Q with _ | ⟨x₂, y₂, h₂⟩
    · exact Point.noConfusion hQ
    · obtain ⟨rfl, rfl⟩ := Point.affine.inj hQ
      obtain ⟨hz, hx, hy⟩ := id hp
      have hz' : p.z ≠ 0 := by rwa [Ne, ← Residue.toZMod_eq_zero]
      -- the two differences that the branches test vanish with those of the coordinates
      have hdx : (Residue.ofZMod x₂ * (p.z * p.z) - p.x).toZMod =
          (x₂ - x₁) * p.z.toZMod ^ 2 := by
        simp [hx]
        ring
      have hdy : (Residue.ofZMod y₂ * (p.z * p.z * p.z) - p.y).toZMod =
          (y₂ - y₁) * p.z.toZMod ^ 3 := by
        simp [hy]
        ring
      have hdx_zero : Residue.ofZMod x₂ * (p.z * p.z) - p.x = 0 ↔ x₁ = x₂ := by
        rw [← Residue.toZMod_eq_zero, hdx, mul_eq_zero, or_iff_left (pow_ne_zero 2 hz),
          sub_eq_zero, eq_comm]
      have hdy_zero : Residue.ofZMod y₂ * (p.z * p.z * p.z) - p.y = 0 ↔ y₁ = y₂ := by
        rw [← Residue.toZMod_eq_zero, hdy, mul_eq_zero, or_iff_left (pow_ne_zero 3 hz),
          sub_eq_zero, eq_comm]
      rw [Jacobian.addAffine, if_neg hz']
      by_cases hsame : x₁ = x₂
      · subst hsame
        rw [if_pos (hdx_zero.2 rfl)]
        by_cases hequal : y₁ = y₂
        · subst hequal
          rw [if_pos (hdy_zero.2 rfl), ← two_nsmul]
          exact hp.double
        · rw [if_neg (fun hzero => hequal (hdy_zero.1 hzero)),
            Curve.Point.add_of_Y_eq rfl (eq_negY_of_ne h₁ h₂ hequal)]
          exact standsFor_infinity
      · rw [if_neg (fun hzero => hsame (hdx_zero.1 hzero))]
        have hne : x₂ - x₁ ≠ 0 := sub_ne_zero.2 (Ne.symm hsame)
        have hslope : curve.slope x₁ x₂ y₁ y₂ * (x₂ - x₁) = y₂ - y₁ := by
          rw [Curve.slope_of_X_ne hsame, ← neg_sub y₂, ← neg_sub x₂, neg_div_neg_eq,
            div_mul_cancel₀ _ hne]
        rw [Curve.Point.add_of_X_ne hsame]
        simp only [StandsFor, Residue.toZMod_mul, Residue.toZMod_sub, Residue.toZMod_ofNat,
          Residue.toZMod_ofZMod, hx, hy, curve_addY, curve_addX]
        generalize curve.slope x₁ x₂ y₁ y₂ = s at hslope ⊢
        generalize p.z.toZMod = z at hz ⊢
        refine ⟨?_, ?_, ?_⟩
        · rw [show z * (x₂ * (z * z) - x₁ * z ^ 2) = z ^ 3 * (x₂ - x₁) by ring]
          exact mul_ne_zero (pow_ne_zero 3 hz) hne
        · linear_combination (-z ^ 6 * (s * (x₂ - x₁) + (y₂ - y₁))) * hslope
        · linear_combination (-z ^ 9) * ((2 * x₁ + x₂) * (x₂ - x₁) ^ 2
            - ((y₂ - y₁) ^ 2 + (y₂ - y₁) * (s * (x₂ - x₁)) + (s * (x₂ - x₁)) ^ 2)) * hslope

end Jacobian

end ShieldedPool
