import RankedKeys.Bytes.Basic
import RankedKeys.Residue

/-!
# Elliptic curves

Curves `y² = x³ + a·x + b` over a prime field, in the affine view: the points are the pairs of
coordinates that satisfy the equation, and one more, the neutral element. Every coordinate and
every scalar of a curve takes 32 bytes.

The prime is three modulo four, so a square has the square root `w ^ ((p + 1) / 4)`.

## Main definitions

* `Curve`: the figures of a curve
* `Curve.Base`, `Curve.Scalar`: its coordinates and its scalars
* `PublicKey`: a pair of coordinates on the curve
* `Point`: a public key or the neutral element, with `+`
* `Curve.generator`
-/

namespace RankedKeys

/-- The length of every coordinate and of every scalar in bytes. -/
def fieldWidth : Nat := 32

/-- The figures of a curve `y² = x³ + a·x + b`. -/
structure Curve where
  /-- The number of elements of the coordinate field. -/
  prime : Nat
  a : Nat
  b : Nat
  /-- The coordinates of the generator. -/
  gx : Nat
  gy : Nat
  /-- The number of points. -/
  order : Nat
  one_lt_prime : 1 < prime := by decide
  one_lt_order : 1 < order := by decide
  prime_le : prime ≤ Bytes.count fieldWidth := by decide
  order_le : order ≤ Bytes.count fieldWidth := by decide
  prime_mod_four : prime % 4 = 3 := by decide
  deriving DecidableEq

namespace Curve

instance (c : Curve) : Modulus c.prime := ⟨Nat.lt_trans Nat.zero_lt_one c.one_lt_prime⟩

instance (c : Curve) : Modulus c.order := ⟨Nat.lt_trans Nat.zero_lt_one c.one_lt_order⟩

/-- A coordinate. -/
abbrev Base (c : Curve) := Residue c.prime

/-- A scalar, a number modulo the number of points. -/
abbrev Scalar (c : Curve) := Residue c.order

/-- The right-hand side of the equation. -/
def cubic (c : Curve) (x : c.Base) : c.Base :=
  (x * x + (c.a : c.Base)) * x + (c.b : c.Base)

/-- Whether a pair of coordinates satisfies the equation. -/
def Holds (c : Curve) (x y : c.Base) : Prop :=
  y * y = c.cubic x

instance (c : Curve) (x y : c.Base) : Decidable (c.Holds x y) :=
  inferInstanceAs (Decidable (y * y = c.cubic x))

/-- A square root, if there is one. -/
def sqrt? (c : Curve) (w : c.Base) : Option c.Base :=
  -- The prime is three modulo four.
  let y := w ^ ((c.prime + 1) / 4)
  if y * y = w then some y else none

end Curve

/-- A pair of coordinates on the curve. -/
structure PublicKey (c : Curve) where
  x : c.Base
  y : c.Base
  holds : c.Holds x y
  deriving DecidableEq

/-- A point of a curve: the neutral element or a pair of coordinates. -/
inductive Point (c : Curve) where
  | zero
  | affine (key : PublicKey c)
  deriving DecidableEq

namespace Point

variable {c : Curve}

instance : Zero (Point c) := ⟨zero⟩

instance : Inhabited (Point c) := ⟨zero⟩

/-- The point with given coordinates. A pair off the curve, which no sum of points has, stands
for the neutral element. -/
def ofCoordinates (x y : c.Base) : Point c :=
  if h : c.Holds x y then affine ⟨x, y, h⟩ else zero

/-- The coordinates of a point, unless it is neutral. -/
def key? : Point c → Option (PublicKey c)
  | zero => none
  | affine key => some key

/-- The third point of the line with a given slope through two points, reflected. -/
def chord (slope : c.Base) (p q : PublicKey c) : Point c :=
  let x := slope * slope - p.x - q.x
  ofCoordinates x (slope * (p.x - x) - p.y)

/-- The sum of two points, by the chord through them or the tangent at them. -/
def add : Point c → Point c → Point c
  | zero, q => q
  | p, zero => p
  | affine p, affine q =>
    if p.x = q.x then
      -- The tangent, unless it is vertical.
      if p.y = q.y ∧ p.y ≠ 0 then
        chord (((3 : Nat) * (p.x * p.x) + (c.a : c.Base)) * (p.y + p.y)⁻¹) p q
      else zero
    else chord ((q.y - p.y) * (q.x - p.x)⁻¹) p q

instance : Add (Point c) := ⟨add⟩

end Point

/-- The generator of a curve. -/
def Curve.generator (c : Curve) : Point c :=
  Point.ofCoordinates (c.gx : c.Base) (c.gy : c.Base)

end RankedKeys
