/-
Weighted coordinates of curve points: `(x, y, z)` with `z ≠ 0` stands for the
point `(x / z ^ 2, y / z ^ 3)`, and `z = 0` for the point at infinity.  Sums in
these coordinates need no reciprocal, so a multiple of a point costs one
reciprocal in all.
-/
import ShieldedPool.Felt

namespace ShieldedPool

/-- Weighted coordinates. -/
structure Jacobian where
  x : Felt
  y : Felt
  z : Felt
deriving DecidableEq

namespace Jacobian

def infinity : Jacobian := ⟨1, 1, 0⟩

/-- Twice a point.  Infinity stays at infinity because the last coordinate
keeps its factor `z`. -/
def double (p : Jacobian) : Jacobian :=
  let ySquared := p.y * p.y
  let s := 4 * (p.x * ySquared)
  let m := 3 * (p.x * p.x)
  let x := m * m - 2 * s
  ⟨x, m * (s - x) - 8 * (ySquared * ySquared), 2 * (p.y * p.z)⟩

/-- The sum of a point and the point with plain coordinates `(x, y)`. -/
def addAffine (p : Jacobian) (x y : Felt) : Jacobian :=
  if p.z = 0 then ⟨x, y, 1⟩
  else
    let zSquared := p.z * p.z
    let h := x * zSquared - p.x
    let r := y * (zSquared * p.z) - p.y
    if h = 0 then
      if r = 0 then double p else infinity
    else
      let hSquared := h * h
      let hCubed := hSquared * h
      let v := p.x * hSquared
      let x := r * r - hCubed - 2 * v
      ⟨x, r * (v - x) - p.y * hCubed, p.z * h⟩

end Jacobian

end ShieldedPool
