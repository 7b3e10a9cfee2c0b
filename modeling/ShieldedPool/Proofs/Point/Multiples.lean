/-
Multiples of the generator.  `Point.mul` multiplies in the group, and the
generator has the prime order `q`.  So the public points of secrets add and
multiply as the secrets do, only zero has its public point at infinity, and a
first coordinate belongs to a secret and its opposite alone.
-/
import Mathlib.GroupTheory.OrderOfElement
import Mathlib.Tactic.FieldSimp
import ShieldedPool.Proofs.Point.Weighted

namespace ShieldedPool

theorem Jacobian.StandsFor.ofJacobian {p : Jacobian} {P : curve.Point}
    (hp : p.StandsFor P) : Point.ofJacobian p = Point.ofGroup P := by
  rcases P with _ | ⟨x, y, h⟩
  · rw [Point.ofJacobian, if_pos (Residue.toZMod_eq_zero.1 hp)]
    rfl
  · obtain ⟨hz, hx, hy⟩ := hp
    rw [Point.ofJacobian, if_neg (by rwa [← Residue.toZMod_eq_zero]), Point.ofGroup_some,
      Point.affine.injEq]
    constructor
    · apply Residue.toZMod_injective
      simp only [Residue.toZMod_mul, Felt.toZMod_reciprocal, Residue.toZMod_ofZMod, hx]
      field_simp
    · apply Residue.toZMod_injective
      simp only [Residue.toZMod_mul, Felt.toZMod_reciprocal, Residue.toZMod_ofZMod, hy]
      field_simp

namespace Point

variable {P : curve.Point} {x y : Felt}

theorem standsFor_repeat (hP : ofGroup P = affine x y) (count : Nat) :
    (repeatByDoubling Jacobian.double (·.addAffine x y) Jacobian.infinity count).StandsFor
      (count • P) := by
  refine repeatByDoubling_counts
    (fun copies (p : Jacobian) => p.StandsFor (copies • P)) ?_ ?_ ?_ count
  · rw [zero_nsmul]
    exact Jacobian.standsFor_infinity
  · intro copies p hp
    rw [mul_nsmul']
    exact hp.double
  · intro copies p hp
    rw [succ_nsmul]
    exact hp.addAffine hP

theorem ofGroup_nsmul (hP : ofGroup P = affine x y) (count : Nat) :
    ofGroup (count • P) = ofJacobian
      (repeatByDoubling Jacobian.double (·.addAffine x y) Jacobian.infinity count) :=
  (standsFor_repeat hP count).ofJacobian.symm

theorem mul_ofGroup (k : Scalar) (P : curve.Point) :
    (ofGroup P).mul k = ofGroup (k.val • P) := by
  rcases hP : ofGroup P with _ | ⟨x, y⟩
  · rw [ofGroup_eq_infinity.1 hP, nsmul_zero]
    rfl
  · exact (ofGroup_nsmul hP k.val).symm

theorem onCurve_generator : generator.OnCurve := by decide

noncomputable def base : curve.Point := onCurve_generator.exists_ofGroup.choose

@[simp] theorem ofGroup_base : ofGroup base = generator :=
  onCurve_generator.exists_ofGroup.choose_spec

/-- The order of the generator, by running the multiplication. -/
theorem addOrderOf_base : addOrderOf base = Scalar.modulus := by
  apply addOrderOf_eq_prime
  · rw [← ofGroup_eq_infinity, ofGroup_nsmul ofGroup_base, ofJacobian, if_pos]
    decide +kernel
  · intro hzero
    have hgenerator := ofGroup_base
    rw [hzero, ofGroup_zero] at hgenerator
    exact Point.noConfusion hgenerator

theorem mulGenerator_eq_ofGroup (k : Scalar) : mulGenerator k = ofGroup (k.val • base) := by
  rw [mulGenerator, ← ofGroup_base, mul_ofGroup]

theorem mod_nsmul_base (count : Nat) : (count % Scalar.modulus) • base = count • base := by
  rw [← addOrderOf_base, mod_addOrderOf_nsmul]

theorem onCurve_mulGenerator (k : Scalar) : (mulGenerator k).OnCurve := by
  rw [mulGenerator_eq_ofGroup]
  exact onCurve_ofGroup _

theorem mulGenerator_add (a b : Scalar) :
    mulGenerator (a + b) = (mulGenerator a).add (mulGenerator b) := by
  simp only [mulGenerator_eq_ofGroup, add_ofGroup, Residue.val_add, mod_nsmul_base, add_nsmul]

theorem mul_mulGenerator (a b : Scalar) : (mulGenerator a).mul b = mulGenerator (a * b) := by
  simp only [mulGenerator_eq_ofGroup, mul_ofGroup, Residue.val_mul, mod_nsmul_base, mul_nsmul]

/-- Two secrets reach one shared point, each from the public point of the other. -/
theorem mul_mulGenerator_comm (a b : Scalar) :
    (mulGenerator a).mul b = (mulGenerator b).mul a := by
  rw [mul_mulGenerator, mul_mulGenerator, Residue.mul_comm_residue]

theorem mulGenerator_eq_infinity_iff {k : Scalar} : mulGenerator k = infinity ↔ k = 0 := by
  rw [mulGenerator_eq_ofGroup, ofGroup_eq_infinity, ← addOrderOf_dvd_iff_nsmul_eq_zero,
    addOrderOf_base]
  constructor
  · intro hdvd
    exact Residue.ext_val (Nat.eq_zero_of_dvd_of_lt hdvd k.val_lt)
  · rintro rfl
    exact dvd_zero _

theorem validKey_mulGenerator {k : Scalar} (hk : k ≠ 0) : (mulGenerator k).ValidKey :=
  ⟨fun hinf => hk (mulGenerator_eq_infinity_iff.1 hinf), onCurve_mulGenerator k⟩

theorem mulGenerator_inj {a b : Scalar} : mulGenerator a = mulGenerator b ↔ a = b := by
  rw [mulGenerator_eq_ofGroup, mulGenerator_eq_ofGroup, ofGroup_injective.eq_iff, nsmul_inj_mod,
    addOrderOf_base, Nat.mod_eq_of_lt a.val_lt, Nat.mod_eq_of_lt b.val_lt]
  constructor
  · exact Residue.ext_val
  · exact congrArg Residue.val

/-- Secrets with one public coordinate are equal or opposite. -/
theorem eq_or_add_eq_zero_of_x {a b : Scalar} {y' : Felt}
    (ha : mulGenerator a = affine x y) (hb : mulGenerator b = affine x y') :
    a = b ∨ a + b = 0 := by
  rw [mulGenerator_eq_ofGroup] at ha hb
  rcases eq_or_eq_neg_of_x ha hb with hsame | hopposite
  · left
    rw [← mulGenerator_inj, mulGenerator_eq_ofGroup, mulGenerator_eq_ofGroup, hsame]
  · right
    rw [← mulGenerator_eq_infinity_iff, mulGenerator_add, mulGenerator_eq_ofGroup,
      mulGenerator_eq_ofGroup, add_ofGroup, hopposite, neg_add_cancel]
    rfl

theorem mulGenerator_of_add_eq_zero {a b : Scalar} (hsum : a + b = 0) :
    mulGenerator b = (mulGenerator a).neg := by
  have hinfinity := mulGenerator_eq_infinity_iff.2 hsum
  rw [mulGenerator_add, mulGenerator_eq_ofGroup, mulGenerator_eq_ofGroup, add_ofGroup,
    ofGroup_eq_infinity] at hinfinity
  rw [mulGenerator_eq_ofGroup, mulGenerator_eq_ofGroup, ← ofGroup_neg,
    eq_neg_of_add_eq_zero_right hinfinity]

theorem mulGenerator_neg (k : Scalar) : mulGenerator (-k) = (mulGenerator k).neg :=
  mulGenerator_of_add_eq_zero (Residue.add_eq_zero_iff.2 (Residue.neg_neg k).symm)

theorem x?_eq_some_iff {p : Point} : p.x? = some x ↔ ∃ y, p = affine x y := by
  cases p with
  | infinity => simp [x?]
  | affine x' y => simp [x?]

theorem x?_eq_none_iff {p : Point} : p.x? = none ↔ p = infinity := by
  cases p with
  | infinity => simp [x?]
  | affine x' y => simp [x?]

/-- The first coordinate of a public point belongs to the scalar and to its
opposite. -/
theorem x?_mulGenerator_eq_iff {k other : Scalar} (hpoint : mulGenerator k = affine x y) :
    (mulGenerator other).x? = some x ↔ other = k ∨ k + other = 0 := by
  rw [x?_eq_some_iff]
  constructor
  · rintro ⟨y', hother⟩
    rcases eq_or_add_eq_zero_of_x hpoint hother with hsame | hsum
    · exact .inl hsame.symm
    · exact .inr hsum
  · rintro (rfl | hsum)
    · exact ⟨y, hpoint⟩
    · exact ⟨-y, by rw [mulGenerator_of_add_eq_zero hsum, hpoint, neg]⟩

/-- Zero apart, a first coordinate leaves the sign of the secret open; zero is
its own opposite and has no coordinate. -/
theorem x?_mulGenerator_inj {a b : Scalar} :
    (mulGenerator a).x? = (mulGenerator b).x? ↔ a = b ∨ a = -b := by
  rcases hb : mulGenerator b with _ | ⟨x, y⟩
  · obtain rfl := mulGenerator_eq_infinity_iff.1 hb
    have hneg : -(0 : Scalar) = 0 := by decide
    rw [hneg, or_self, ← mulGenerator_eq_infinity_iff]
    exact x?_eq_none_iff
  · have hx : (mulGenerator a).x? = some x ↔ a = b ∨ b + a = 0 := x?_mulGenerator_eq_iff hb
    rw [← Residue.add_eq_zero_iff, Residue.add_comm_residue]
    exact hx

/-- Doubling is the sum of a point with itself, at infinity too. -/
theorem double_eq_add (p : Point) : p.double = p.add p := by
  cases p with
  | infinity => rfl
  | affine x y => rw [add, if_pos rfl, if_pos rfl]

/-- How the public points of two secrets add, multiply and compare. -/
structure FollowSecrets (a b : Scalar) : Prop where
  onCurve : (mulGenerator a).OnCurve
  sum : mulGenerator (a + b) = (mulGenerator a).add (mulGenerator b)
  product : (mulGenerator a).mul b = mulGenerator (a * b)
  shared : (mulGenerator a).mul b = (mulGenerator b).mul a
  opposite : mulGenerator (-a) = (mulGenerator a).neg
  twice : (mulGenerator a).double = (mulGenerator a).add (mulGenerator a)
  doubled : (mulGenerator a).double = mulGenerator (a + a)
  infinite : mulGenerator a = infinity ↔ a = 0
  same : mulGenerator a = mulGenerator b ↔ a = b
  sameCoordinate : (mulGenerator a).x? = (mulGenerator b).x? ↔ a = b ∨ a = -b

/-- Public points follow their secrets: the generator carries the scalars one to
one into the points of the curve, sums to sums and products to multiples. -/
theorem public_points_follow_secrets (a b : Scalar) : FollowSecrets a b where
  onCurve := onCurve_mulGenerator a
  sum := mulGenerator_add a b
  product := mul_mulGenerator a b
  shared := mul_mulGenerator_comm a b
  opposite := mulGenerator_neg a
  twice := double_eq_add _
  doubled := (double_eq_add _).trans (mulGenerator_add a a).symm
  infinite := mulGenerator_eq_infinity_iff
  same := mulGenerator_inj
  sameCoordinate := x?_mulGenerator_inj

end Point

end ShieldedPool
