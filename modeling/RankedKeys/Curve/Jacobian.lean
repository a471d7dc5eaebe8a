import RankedKeys.Curve.Basic

/-!
# Scalar multiples of points

A multiple of a point is taken by doubling and adding in weighted coordinates: `(X, Y, Z)` stands
for the pair `(X / Z², Y / Z³)`, and `Z = 0` for the neutral element, so that one division at the
end is enough.

## Main definitions

* `Weighted`: weighted coordinates, with `double` and `addPoint`
* `Point.multiple`, the operation `k • p`
-/

namespace RankedKeys

/-- Weighted coordinates: `(x / z², y / z³)`, or the neutral element if `z` is zero. -/
structure Weighted (c : Curve) where
  x : c.Base
  y : c.Base
  z : c.Base

namespace Weighted

variable {c : Curve}

/-- The neutral element. -/
def zero : Weighted c := ⟨1, 1, 0⟩

/-- A point in weighted coordinates. -/
def ofPoint : Point c → Weighted c
  | .zero => zero
  | .affine p => ⟨p.x, p.y, 1⟩

/-- Back to a point. -/
def toPoint (p : Weighted c) : Point c :=
  if p.z = 0 then .zero
  else
    let i := p.z⁻¹
    let i2 := i * i
    .ofCoordinates (p.x * i2) (p.y * (i2 * i))

/-- Twice a point. -/
def double (p : Weighted c) : Weighted c :=
  let y2 := p.y * p.y
  let xy2 := p.x * y2
  let s := (xy2 + xy2) + (xy2 + xy2)
  let x2 := p.x * p.x
  let z2 := p.z * p.z
  let m := x2 + x2 + x2 + (c.a : c.Base) * (z2 * z2)
  let x := m * m - (s + s)
  let y4 := y2 * y2
  let y4x2 := y4 + y4
  let y4x4 := y4x2 + y4x2
  let yz := p.y * p.z
  ⟨x, m * (s - x) - (y4x4 + y4x4), yz + yz⟩

/-- The sum with a pair of coordinates. -/
def addKey (p : Weighted c) (q : PublicKey c) : Weighted c :=
  if p.z = 0 then ⟨q.x, q.y, 1⟩
  else
    let z2 := p.z * p.z
    -- The differences of the coordinates, over a common denominator.
    let h := q.x * z2 - p.x
    let r := q.y * (z2 * p.z) - p.y
    if h = 0 then
      if r = 0 then p.double else zero
    else
      let h2 := h * h
      let h3 := h2 * h
      let xh2 := p.x * h2
      let x := r * r - h3 - (xh2 + xh2)
      ⟨x, r * (xh2 - x) - p.y * h3, p.z * h⟩

/-- The sum with a point. -/
def addPoint (q : Point c) (p : Weighted c) : Weighted c :=
  match q with
  | .zero => p
  | .affine q => p.addKey q

end Weighted

/-- A multiple of a point. -/
def Point.multiple {c : Curve} (k : Nat) (p : Point c) : Point c :=
  (byDoubling Weighted.zero Weighted.double (Weighted.addPoint p) k).toPoint

instance {c : Curve} : SMul c.Scalar (Point c) := ⟨fun k p => p.multiple k.val⟩

end RankedKeys
