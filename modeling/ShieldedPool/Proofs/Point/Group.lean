/-
The points of the curve are a group.  The chord and the tangent of a short
Weierstrass curve are those that `Point.add` draws, so its sum is the sum of
the group, and a point is on the curve exactly when it is one of the group.
-/
import Mathlib.AlgebraicGeometry.EllipticCurve.Affine.Point
import Mathlib.Tactic.LinearCombination
import ShieldedPool.Point
import ShieldedPool.Proofs.Residue.Prime

namespace ShieldedPool

open WeierstrassCurve renaming Affine → Curve

/-- The curve `y ^ 2 = x ^ 3 - 17`. -/
def curve : WeierstrassCurve.Affine (ZMod Felt.modulus) := ⟨0, 0, 0, 0, -17⟩

theorem Felt.natCast_ne_zero {k : Nat} (hpos : 0 < k) (hlt : k < Felt.modulus) :
    (k : ZMod Felt.modulus) ≠ 0 := by
  rw [Ne, ZMod.natCast_eq_zero_iff]
  exact Nat.not_dvd_of_pos_of_lt hpos hlt

theorem Felt.two_ne_zero : (2 : ZMod Felt.modulus) ≠ 0 :=
  Felt.natCast_ne_zero (k := 2) (by decide) (by decide)

theorem curve_Δ_ne_zero : curve.Δ ≠ 0 := by
  have hΔ : curve.Δ = -((124848 : Nat) : ZMod Felt.modulus) := by
    simp only [WeierstrassCurve.Δ, WeierstrassCurve.b₂, WeierstrassCurve.b₄,
      WeierstrassCurve.b₆, WeierstrassCurve.b₈, curve]
    norm_num
  rw [hΔ, neg_ne_zero]
  exact Felt.natCast_ne_zero (by decide) (by decide)

section

variable {x y : ZMod Felt.modulus}

theorem nonsingular_iff : curve.Nonsingular x y ↔ y * y = x * x * x - 17 := by
  rw [← Curve.equation_iff_nonsingular_of_Δ_ne_zero curve_Δ_ne_zero,
    Curve.equation_iff]
  simp only [curve, zero_mul, add_zero]
  rw [pow_two, pow_three, ← mul_assoc, ← sub_eq_add_neg]

theorem curve_negY : curve.negY x y = -y := by
  simp [WeierstrassCurve.Affine.negY, curve]

theorem curve_addX (x₁ x₂ s : ZMod Felt.modulus) :
    curve.addX x₁ x₂ s = s * s - x₁ - x₂ := by
  simp [Curve.addX, curve, pow_two]

theorem curve_addY (x₁ x₂ y₁ s : ZMod Felt.modulus) :
    curve.addY x₁ x₂ y₁ s = s * (x₁ - curve.addX x₁ x₂ s) - y₁ := by
  rw [Curve.addY, curve_negY, Curve.negAddY]
  ring

theorem eq_neg_self_iff : y = -y ↔ y = 0 := by
  rw [eq_neg_iff_add_eq_zero, ← two_mul, mul_eq_zero, or_iff_right Felt.two_ne_zero]

/-- Two points over one first coordinate, if not equal, are opposite. -/
theorem eq_negY_of_ne {y' : ZMod Felt.modulus} (h : curve.Nonsingular x y)
    (h' : curve.Nonsingular x y') (hne : y ≠ y') : y = curve.negY x y' := by
  have hfactor : (y - y') * (y + y') = 0 := by
    rw [nonsingular_iff] at h h'
    linear_combination h - h'
  rw [curve_negY]
  rcases mul_eq_zero.1 hfactor with hsub | hadd
  · exact absurd (sub_eq_zero.1 hsub) hne
  · exact eq_neg_of_add_eq_zero_left hadd

end

namespace Point

def ofGroup : curve.Point → Point
  | .zero => infinity
  | .some x y _ => affine (.ofZMod x) (.ofZMod y)

@[simp] theorem ofGroup_zero : ofGroup 0 = infinity := rfl

@[simp] theorem ofGroup_some {x y : ZMod Felt.modulus} (h : curve.Nonsingular x y) :
    ofGroup (.some x y h) = affine (.ofZMod x) (.ofZMod y) := rfl

theorem onCurve_affine_iff {x y : Felt} :
    (affine x y).OnCurve ↔ curve.Nonsingular x.toZMod y.toZMod := by
  rw [OnCurve, curveRight, ← Residue.toZMod_inj, nonsingular_iff]
  simp

theorem onCurve_ofGroup (P : curve.Point) : (ofGroup P).OnCurve := by
  rcases P with _ | ⟨x, y, h⟩
  · trivial
  · rw [ofGroup_some, onCurve_affine_iff, Residue.toZMod_ofZMod, Residue.toZMod_ofZMod]
    exact h

theorem OnCurve.exists_ofGroup {p : Point} (hp : p.OnCurve) : ∃ P, ofGroup P = p := by
  rcases p with _ | ⟨x, y⟩
  · exact ⟨0, rfl⟩
  · exact ⟨.some _ _ (onCurve_affine_iff.1 hp), by simp⟩

theorem ofGroup_injective : Function.Injective ofGroup := by
  intro P Q heq
  rcases P with _ | ⟨x, y, h⟩ <;> rcases Q with _ | ⟨x', y', h'⟩
  · rfl
  · exact Point.noConfusion heq
  · exact Point.noConfusion heq
  · rw [ofGroup_some, ofGroup_some, affine.injEq] at heq
    have hx := congrArg Residue.toZMod heq.1
    have hy := congrArg Residue.toZMod heq.2
    rw [Residue.toZMod_ofZMod, Residue.toZMod_ofZMod] at hx hy
    subst hx hy
    rfl

theorem ofGroup_eq_infinity {P : curve.Point} : ofGroup P = infinity ↔ P = 0 :=
  ofGroup_injective.eq_iff (b := 0)

theorem ofGroup_neg (P : curve.Point) : ofGroup (-P) = (ofGroup P).neg := by
  rcases P with _ | ⟨x, y, h⟩
  · rfl
  · simp only [Curve.Point.neg_some, ofGroup_some, neg, curve_negY,
      affine.injEq, true_and]
    apply Residue.toZMod_injective
    simp

theorem eq_or_eq_neg_of_x {P Q : curve.Point} {x y y' : Felt}
    (hP : ofGroup P = affine x y) (hQ : ofGroup Q = affine x y') : P = Q ∨ P = -Q := by
  rcases P with _ | ⟨x₁, y₁, h₁⟩
  · exact Point.noConfusion hP
  · rcases Q with _ | ⟨x₂, y₂, h₂⟩
    · exact Point.noConfusion hQ
    · rw [ofGroup_some, affine.injEq] at hP hQ
      have hx := congrArg Residue.toZMod (hP.1.trans hQ.1.symm)
      rw [Residue.toZMod_ofZMod, Residue.toZMod_ofZMod] at hx
      exact Curve.Point.X_eq_iff.1 hx

/-- Points of the curve over one first coordinate are equal or opposite. -/
theorem OnCurve.eq_or_eq_neg {x y y' : Felt} (hy : (affine x y).OnCurve)
    (hy' : (affine x y').OnCurve) :
    affine x y = affine x y' ∨ affine x y = (affine x y').neg := by
  obtain ⟨P, hP⟩ := hy.exists_ofGroup
  obtain ⟨Q, hQ⟩ := hy'.exists_ofGroup
  rw [← hP, ← hQ, ← ofGroup_neg]
  exact (eq_or_eq_neg_of_x hP hQ).imp (congrArg ofGroup) (congrArg ofGroup)

section Sum

variable {x₁ y₁ x₂ y₂ : ZMod Felt.modulus} {h₁ : curve.Nonsingular x₁ y₁}
  {h₂ : curve.Nonsingular x₂ y₂}

theorem alongSlope_ofZMod {s : Felt} (hsum : ¬(x₁ = x₂ ∧ y₁ = -y₂))
    (hslope : s.toZMod = curve.slope x₁ x₂ y₁ y₂) :
    alongSlope s (.ofZMod x₁) (.ofZMod y₁) (.ofZMod x₂) =
      ofGroup (.some x₁ y₁ h₁ + .some x₂ y₂ h₂) := by
  rw [Curve.Point.add_some (by rwa [curve_negY]), ofGroup_some, alongSlope]
  congr 1
  · apply Residue.toZMod_injective
    simp [hslope, curve_addX, -Curve.addX]
  · apply Residue.toZMod_injective
    simp [hslope, curve_addX, curve_addY, -Curve.addX]

theorem double_ofGroup (P : curve.Point) : (ofGroup P).double = ofGroup (P + P) := by
  rcases P with _ | ⟨x, y, h⟩
  · rfl
  · rw [ofGroup_some, double]
    by_cases hy : y = 0
    · have hneg : y = curve.negY x y := by rw [curve_negY, hy, neg_zero]
      rw [Curve.Point.add_self_of_Y_eq hneg, if_pos, ofGroup_zero]
      rw [← Residue.toZMod_eq_zero, Residue.toZMod_ofZMod, hy]
    · have hneg : y ≠ -y := by rwa [Ne, eq_neg_self_iff]
      rw [if_neg]
      · apply alongSlope_ofZMod (fun hboth => hneg hboth.2)
        rw [Curve.slope_of_Y_ne rfl (by rwa [curve_negY]), curve_negY]
        simp only [curve, Residue.toZMod_mul, Felt.toZMod_reciprocal, Residue.toZMod_ofNat,
          Residue.toZMod_ofZMod]
        rw [sub_neg_eq_add, ← two_mul, div_eq_mul_inv]
        ring
      · rwa [← Residue.toZMod_eq_zero, Residue.toZMod_ofZMod]

theorem add_ofGroup (P Q : curve.Point) :
    (ofGroup P).add (ofGroup Q) = ofGroup (P + Q) := by
  rcases P with _ | ⟨x₁, y₁, h₁⟩
  · exact congrArg ofGroup (zero_add Q).symm
  · rcases Q with _ | ⟨x₂, y₂, h₂⟩
    · exact congrArg ofGroup (add_zero (Curve.Point.some x₁ y₁ h₁)).symm
    · simp only [ofGroup_some, add, Residue.ofZMod_inj]
      by_cases hx : x₁ = x₂
      · rw [if_pos hx]
        subst hx
        by_cases hy : y₁ = y₂
        · subst hy
          rw [if_pos rfl]
          exact double_ofGroup (.some x₁ y₁ h₁)
        · rw [if_neg hy, Curve.Point.add_of_Y_eq rfl (eq_negY_of_ne h₁ h₂ hy),
            ofGroup_zero]
      · rw [if_neg hx]
        apply alongSlope_ofZMod (fun hboth => hx hboth.1)
        rw [Curve.slope_of_X_ne hx]
        simp only [Residue.toZMod_mul, Residue.toZMod_sub, Felt.toZMod_reciprocal,
          Residue.toZMod_ofZMod]
        rw [← div_eq_mul_inv, ← neg_sub y₁, ← neg_sub x₁, neg_div_neg_eq]

end Sum

theorem OnCurve.add {p q : Point} (hp : p.OnCurve) (hq : q.OnCurve) : (p.add q).OnCurve := by
  obtain ⟨P, rfl⟩ := hp.exists_ofGroup
  obtain ⟨Q, rfl⟩ := hq.exists_ofGroup
  rw [add_ofGroup]
  exact onCurve_ofGroup _

end Point

end ShieldedPool
