/-
Points of the curve `y ^ 2 = x ^ 3 - 17` over the field.  The group of its
points has prime order `q`, so multipliers are scalars.  Plain coordinates are
the meaning of a point; weighted ones are used only inside `Point.mul`.
-/
import ShieldedPool.Point.Jacobian

namespace ShieldedPool

/-- A pair of coordinates, or the point at infinity. -/
inductive Point
  | infinity
  | affine (x y : Felt)
deriving DecidableEq

/-- Why a point or key cannot be used. -/
inductive PointDefect
  | offCurve (x y : Felt)
  | infiniteKey
  | keyOffCurve
  /-- A compressed point of another length than 33 bytes. -/
  | length (count : Nat)
  /-- The tag of infinity before bytes that are not all zero. -/
  | infinityPayload
  /-- A first byte that is no tag. -/
  | unknownTag (tag : UInt8)
  /-- A compressed coordinate that is not below the field modulus. -/
  | coordinateTooLarge
  /-- A coordinate over which the curve has no point. -/
  | noPoint (x : Felt)
  | zeroSeedSecret
  | zeroSecret
  | zeroEphemeral
  | infiniteSharedSecret
  | infiniteDerivedKey
  /-- A one-time key at infinity where its coordinate is needed. -/
  | infiniteStealthKey
  | infiniteNoteKey
deriving DecidableEq

namespace PointDefect

def reason : PointDefect → String
  | offCurve x y => s!"({x.toHex}, {y.toHex}) does not satisfy y^2 = x^3 - 17"
  | infiniteKey => "point at infinity is not a valid public key"
  | keyOffCurve => "public key is not on the curve"
  | length count => s!"compressed point must be 33 bytes, got {count}"
  | infinityPayload => "non-zero payload with infinity prefix"
  | unknownTag tag => s!"unknown prefix 0x{Hex.encode [tag]}"
  | coordinateTooLarge => "x-coordinate is not a canonical field element"
  | noPoint x => s!"no curve point with x = {x.toHex}"
  | zeroSeedSecret => "seed derives a zero secret"
  | zeroSecret => "zero secret has no valid public key"
  | zeroEphemeral => "ephemeral secret must be non-zero"
  | infiniteSharedSecret => "shared secret is the point at infinity"
  | infiniteDerivedKey => "derived stealth key is the point at infinity"
  | infiniteStealthKey => "stealth key is the point at infinity"
  | infiniteNoteKey => "note public key is the point at infinity"

def message (defect : PointDefect) : String :=
  s!"Invalid curve point - {defect.reason}"

end PointDefect

/-- The right side of the curve equation. -/
def curveRight (x : Felt) : Felt := x * x * x - 17

namespace Point

/-- The point satisfies the curve equation; infinity does. -/
def OnCurve : Point → Prop
  | infinity => True
  | affine x y => y * y = curveRight x

instance : DecidablePred OnCurve
  | infinity => inferInstanceAs (Decidable True)
  | affine x y => inferInstanceAs (Decidable (y * y = curveRight x))

/-- The point is a usable public key: on the curve and not at infinity. -/
def ValidKey (p : Point) : Prop := p ≠ infinity ∧ p.OnCurve

instance : DecidablePred ValidKey := fun p =>
  inferInstanceAs (Decidable (p ≠ infinity ∧ p.OnCurve))

def generator : Point :=
  affine 1 17631683881184975370165255887551781615748388533673675138860

/-- The first coordinate, which infinity does not have. -/
def x? : Point → Option Felt
  | infinity => none
  | affine x _ => some x

/-- The second coordinate, which infinity does not have. -/
def y? : Point → Option Felt
  | infinity => none
  | affine _ y => some y

/-- The point with given coordinates, if it is on the curve. -/
def ofCoordinates (x y : Felt) : Except PointDefect Point :=
  if (affine x y).OnCurve then .ok (affine x y) else .error (.offCurve x y)

/-- Accept a usable public key only. -/
def validate (p : Point) : Except PointDefect Unit :=
  if p = infinity then .error .infiniteKey
  else if p.OnCurve then .ok ()
  else .error .keyOffCurve

theorem validate_eq_ok_iff {p : Point} : p.validate = .ok () ↔ p.ValidKey := by
  unfold validate ValidKey
  by_cases hinf : p = infinity <;> by_cases hcurve : p.OnCurve <;> simp [hinf, hcurve]

def neg : Point → Point
  | infinity => infinity
  | affine x y => affine x (-y)

/-- The third point on the line of the given slope through two points with
first coordinates `x₁` and `x₂`, reflected. -/
def alongSlope (slope x₁ y₁ x₂ : Felt) : Point :=
  let x := slope * slope - x₁ - x₂
  affine x (slope * (x₁ - x) - y₁)

/-- The sum of a point with itself: the tangent meets the curve again. -/
def double : Point → Point
  | infinity => infinity
  | affine x y =>
      if y = 0 then infinity
      else alongSlope (3 * (x * x) * (2 * y).reciprocal) x y x

/-- The sum of two points: the line through them meets the curve again. -/
def add : Point → Point → Point
  | infinity, q => q
  | p, infinity => p
  | affine x₁ y₁, affine x₂ y₂ =>
      if x₁ = x₂ then
        if y₁ = y₂ then double (affine x₁ y₁) else infinity
      else alongSlope ((y₂ - y₁) * (x₂ - x₁).reciprocal) x₁ y₁ x₂

/-- The point that weighted coordinates stand for. -/
def ofJacobian (p : Jacobian) : Point :=
  if p.z = 0 then infinity
  else
    let w := p.z.reciprocal
    affine (p.x * (w * w)) (p.y * (w * w * w))

/-- The sum of `k` copies of a point. -/
def mul (k : Scalar) : Point → Point
  | infinity => infinity
  | affine x y =>
      ofJacobian
        (repeatByDoubling Jacobian.double (·.addAffine x y) Jacobian.infinity k.val)

/-- The public point of a secret scalar. -/
def mulGenerator (k : Scalar) : Point := mul k generator

end Point

end ShieldedPool
