import Mathlib.AlgebraicGeometry.EllipticCurve.Affine.Point
import RankedKeys.Proofs.Curve.Group

/-!
# Points as points of a Weierstrass curve

Over a prime field, and where the cubic has no repeated root, chords and tangents are the addition
of a Weierstrass curve, so that the points form a commutative group; and the weighted coordinates
compute in that group, so that multiples by doubling are repeated sums.

## Main definitions

* `Curve.Smooth`: the curves over a prime field whose discriminant does not vanish
* `Curve.weierstrass`, `Point.toAffine`: the Weierstrass curve and its points
* `Weighted.Represents`: the points that weighted coordinates stand for

## Main results

* `Point.toAffine_add`: addition is the addition of the Weierstrass curve
* `Point.multiple_eq_iterate`: a multiple by doubling is a repeated sum
-/

namespace RankedKeys

/-- The curves over a prime field whose discriminant does not vanish. -/
class Curve.Smooth (c : Curve) : Prop where
  prime_prime : c.prime.Prime
  discriminant_ne_zero :
    (4 : c.Base) * (c.a : c.Base) ^ 3 + (27 : c.Base) * (c.b : c.Base) ^ 2 ≠ 0

variable {c : Curve} [c.Smooth]

instance : Fact c.prime.Prime := ⟨Curve.Smooth.prime_prime⟩

namespace Curve

omit [c.Smooth] in
theorem two_ne_zero_base : (2 : c.Base) ≠ 0 := by
  -- The prime is three modulo four, so that it does not divide two.
  have hp := c.prime_mod_four
  have h1 := c.one_lt_prime
  intro h
  have hval : (2 : ℕ) % c.prime = 0 % c.prime := congrArg Residue.val h
  rw [Nat.zero_mod] at hval
  have := Nat.le_of_dvd two_pos (Nat.dvd_of_mod_eq_zero hval)
  omega

theorem add_self_eq_zero_iff {y : c.Base} : y + y = 0 ↔ y = 0 := by
  rw [← two_mul]
  exact mul_eq_zero_iff_left two_ne_zero_base

/-- The curve in Weierstrass form. -/
def weierstrass (c : Curve) [c.Smooth] : WeierstrassCurve c.Base :=
  ⟨0, 0, 0, (c.a : c.Base), (c.b : c.Base)⟩

theorem weierstrass_Δ_ne_zero : c.weierstrass.Δ ≠ 0 := by
  have h : c.weierstrass.Δ = -(2 ^ 4) * (4 * (c.a : c.Base) ^ 3 + 27 * (c.b : c.Base) ^ 2) := by
    simp only [WeierstrassCurve.Δ, WeierstrassCurve.b₂, WeierstrassCurve.b₄, WeierstrassCurve.b₆,
      weierstrass]
    ring
  rw [h]
  exact mul_ne_zero (neg_ne_zero.mpr (pow_ne_zero _ two_ne_zero_base))
    Smooth.discriminant_ne_zero

theorem equation_iff_holds {x y : c.Base} :
    c.weierstrass.toAffine.Equation x y ↔ c.Holds x y := by
  rw [WeierstrassCurve.Affine.equation_iff, Holds, cubic]
  simp only [weierstrass, WeierstrassCurve.toAffine]
  constructor <;> intro h <;> linear_combination h

theorem nonsingular_iff_holds {x y : c.Base} :
    c.weierstrass.toAffine.Nonsingular x y ↔ c.Holds x y := by
  rw [← equation_iff_holds]
  exact (WeierstrassCurve.Affine.equation_iff_nonsingular_of_Δ_ne_zero
    weierstrass_Δ_ne_zero).symm

@[simp] theorem negY_weierstrass (x y : c.Base) :
    c.weierstrass.toAffine.negY x y = -y := by
  simp [WeierstrassCurve.Affine.negY, weierstrass, WeierstrassCurve.toAffine]

end Curve

namespace Point

open WeierstrassCurve

/-- The point of the Weierstrass curve. -/
def toAffine : Point c → c.weierstrass.toAffine.Point
  | zero => 0
  | affine p => .some p.x p.y (Curve.nonsingular_iff_holds.mpr p.holds)

@[simp] theorem toAffine_zero : toAffine (zero : Point c) = 0 := rfl

theorem toAffine_injective : Function.Injective (toAffine (c := c)) := by
  rintro (_ | p) (_ | q) h
  · rfl
  · exact absurd h.symm (Affine.Point.some_ne_zero _)
  · exact absurd h (Affine.Point.some_ne_zero _)
  · obtain ⟨hx, hy⟩ := Affine.Point.some.inj h
    rcases p with ⟨x, y, hp⟩
    rcases q with ⟨x', y', hq⟩
    obtain rfl : x = x' := hx
    obtain rfl : y = y' := hy
    rfl

theorem toAffine_ofCoordinates {x y x' y' : c.Base} (h : c.weierstrass.toAffine.Nonsingular x' y')
    (hx : x = x') (hy : y = y') : toAffine (ofCoordinates x y) = .some x' y' h := by
  subst hx hy
  rw [ofCoordinates, dif_pos (Curve.nonsingular_iff_holds.mp h)]
  rfl

theorem addX_weierstrass (x₁ x₂ slope : c.Base) :
    c.weierstrass.toAffine.addX x₁ x₂ slope = slope * slope - x₁ - x₂ := by
  simp only [Affine.addX, Curve.weierstrass, WeierstrassCurve.toAffine]
  ring

theorem addY_weierstrass (x₁ x₂ y₁ slope : c.Base) :
    c.weierstrass.toAffine.addY x₁ x₂ y₁ slope =
      slope * (x₁ - c.weierstrass.toAffine.addX x₁ x₂ slope) - y₁ := by
  rw [Affine.addY, Affine.negAddY, Curve.negY_weierstrass]
  ring

section Chord

variable {p q : PublicKey c}

/-- The chord with the slope of the Weierstrass curve meets the curve again. -/
theorem nonsingular_chord (hpq : ¬(p.x = q.x ∧ p.y = c.weierstrass.toAffine.negY q.x q.y)) :
    c.weierstrass.toAffine.Nonsingular
      (c.weierstrass.toAffine.addX p.x q.x (c.weierstrass.toAffine.slope p.x q.x p.y q.y))
      (c.weierstrass.toAffine.addY p.x q.x p.y (c.weierstrass.toAffine.slope p.x q.x p.y q.y)) :=
  Affine.nonsingular_add (Curve.nonsingular_iff_holds.mpr p.holds)
    (Curve.nonsingular_iff_holds.mpr q.holds) hpq

/-- The chord with the slope of the Weierstrass curve carries the sum. -/
theorem toAffine_chord (hpq : ¬(p.x = q.x ∧ p.y = c.weierstrass.toAffine.negY q.x q.y)) :
    toAffine (chord (c.weierstrass.toAffine.slope p.x q.x p.y q.y) p q) =
      toAffine (.affine p) + toAffine (.affine q) := by
  have hx := addX_weierstrass p.x q.x (c.weierstrass.toAffine.slope p.x q.x p.y q.y)
  have hy := addY_weierstrass p.x q.x p.y (c.weierstrass.toAffine.slope p.x q.x p.y q.y)
  rw [hx] at hy
  have hchord := toAffine_ofCoordinates (c := c) (nonsingular_chord hpq) hx.symm hy.symm
  exact hchord.trans (Affine.Point.add_some hpq).symm

theorem slope_of_x_ne (hx : p.x ≠ q.x) :
    c.weierstrass.toAffine.slope p.x q.x p.y q.y = (q.y - p.y) * (q.x - p.x)⁻¹ := by
  rw [Affine.slope_of_X_ne hx, div_eq_mul_inv, ← neg_sub q.y, ← neg_sub q.x, inv_neg, neg_mul_neg]

theorem ne_negY_of_eq (hy : p.y = q.y) (hp : p.y ≠ 0) :
    p.y ≠ c.weierstrass.toAffine.negY q.x q.y := by
  rw [Curve.negY_weierstrass, ← hy]
  exact fun h => hp (Curve.add_self_eq_zero_iff.mp (eq_neg_iff_add_eq_zero.mp h))

theorem slope_of_eq (hx : p.x = q.x) (hy : p.y = q.y) (hp : p.y ≠ 0) :
    c.weierstrass.toAffine.slope p.x q.x p.y q.y =
      ((3 : Nat) * (p.x * p.x) + (c.a : c.Base)) * (p.y + p.y)⁻¹ := by
  rw [Affine.slope_of_Y_ne hx (ne_negY_of_eq hy hp), Curve.negY_weierstrass, sub_neg_eq_add,
    div_eq_mul_inv]
  congr 1
  simp only [Curve.weierstrass, WeierstrassCurve.toAffine]
  push_cast
  ring

end Chord

/-- **Addition** is the addition of the Weierstrass curve. -/
theorem toAffine_add (p q : Point c) : toAffine (p + q) = toAffine p + toAffine q := by
  rcases p with _ | p
  · exact (zero_add _).symm
  rcases q with _ | q
  · exact (add_zero _).symm
  show toAffine (add (affine p) (affine q)) = _
  rw [add]
  split
  · rename_i hx
    split
    · rename_i hy
      -- the same point, not its own negative: the tangent
      rw [← slope_of_eq hx hy.1 hy.2]
      exact toAffine_chord fun h => ne_negY_of_eq hy.1 hy.2 h.2
    · rename_i hy
      -- one `x`, two roots of one square: the points are opposite
      have hneg : p.y = c.weierstrass.toAffine.negY q.x q.y := by
        rw [Curve.negY_weierstrass]
        have hsq : p.y * p.y = q.y * q.y := by
          rw [p.holds, q.holds, hx]
        rcases mul_self_eq_mul_self_iff.mp hsq with heq | hneg
        · have h0 : p.y = 0 := by
            by_contra h0
            exact hy ⟨heq, h0⟩
          rw [← heq, h0, neg_zero]
        · exact hneg
      exact (Affine.Point.add_of_Y_eq hx hneg).symm
  · rename_i hx
    -- different `x`: the chord
    rw [← slope_of_x_ne hx]
    exact toAffine_chord fun h => hx h.1

theorem toAffine_iterate_add (p : Point c) (n : ℕ) :
    toAffine ((· + p)^[n] 0) = n • toAffine p := by
  induction n with
  | zero => rw [zero_nsmul]; rfl
  | succ n ih => rw [Function.iterate_succ_apply', toAffine_add, ih, succ_nsmul]

theorem smooth_add_assoc (p q r : Point c) : p + q + r = p + (q + r) :=
  toAffine_injective (by rw [toAffine_add, toAffine_add, toAffine_add, toAffine_add, add_assoc])

theorem smooth_add_comm (p q : Point c) : p + q = q + p :=
  toAffine_injective (by rw [toAffine_add, toAffine_add, add_comm])

theorem smooth_exists_neg (p : Point c) : ∃ q, q + p = 0 := by
  rcases p with _ | p
  · exact ⟨0, rfl⟩
  · -- The opposite point has the opposite `y`.
    have hneg : c.Holds p.x (-p.y) := by
      rw [Curve.Holds, neg_mul_neg]
      exact p.holds
    refine ⟨.affine ⟨p.x, -p.y, hneg⟩, toAffine_injective ?_⟩
    rw [toAffine_add]
    exact Affine.Point.add_of_Y_eq rfl (Curve.negY_weierstrass _ _).symm

end Point

namespace Weighted

/-- Weighted coordinates stand for a point. -/
def Represents (w : Weighted c) : Point c → Prop
  | .zero => w.z = 0
  | .affine p => w.z ≠ 0 ∧ w.x = p.x * w.z ^ 2 ∧ w.y = p.y * w.z ^ 3

theorem Represents.toPoint_eq {w : Weighted c} {p : Point c} (h : w.Represents p) :
    w.toPoint = p := by
  rcases p with _ | p
  · exact if_pos h
  · obtain ⟨hz, hx, hy⟩ := h
    have hx' : w.x * (w.z⁻¹ * w.z⁻¹) = p.x := by
      rw [hx]
      field_simp
    have hy' : w.y * (w.z⁻¹ * w.z⁻¹ * w.z⁻¹) = p.y := by
      rw [hy]
      field_simp
    rw [toPoint, if_neg hz]
    simp only [hx', hy']
    rw [Point.ofCoordinates, dif_pos p.holds]

theorem represents_chord {w : Weighted c} {p q : PublicKey c} {slope : c.Base}
    (hpq : ¬(p.x = q.x ∧ p.y = c.weierstrass.toAffine.negY q.x q.y))
    (hslope : c.weierstrass.toAffine.slope p.x q.x p.y q.y = slope) (hz : w.z ≠ 0)
    (hx : w.x = (slope * slope - p.x - q.x) * w.z ^ 2)
    (hy : w.y = (slope * (p.x - (slope * slope - p.x - q.x)) - p.y) * w.z ^ 3) :
    w.Represents (Point.chord slope p q) := by
  have hholds := Curve.nonsingular_iff_holds.mp (Point.nonsingular_chord hpq)
  rw [Point.addY_weierstrass, Point.addX_weierstrass, hslope] at hholds
  rw [Point.chord, Point.ofCoordinates, dif_pos hholds]
  exact ⟨hz, hx, hy⟩

/-- Doubling doubles the point. -/
theorem Represents.double {w : Weighted c} {p : Point c} (h : w.Represents p) :
    w.double.Represents (p + p) := by
  rcases p with _ | p
  · -- twice the neutral element
    show w.y * w.z + w.y * w.z = 0
    rw [show w.z = 0 from h, mul_zero, add_zero]
  obtain ⟨hz, hx, hy⟩ := h
  show w.double.Represents (Point.add (.affine p) (.affine p))
  rw [Point.add, if_pos rfl]
  by_cases hp : p.y = 0
  · -- a point that is its own negative: the new `z` is zero
    rw [if_neg fun h => h.2 hp]
    show w.y * w.z + w.y * w.z = 0
    rw [hy, hp, zero_mul, zero_mul, add_zero]
  rw [if_pos ⟨rfl, hp⟩]
  -- The slope is named, so that the formulas are polynomials in it, and `a` is taken out of it.
  generalize hslope : ((3 : Nat) * (p.x * p.x) + (c.a : c.Base)) * (p.y + p.y)⁻¹ = slope
  -- The denominator of the slope does not vanish.
  have hpp : p.y + p.y ≠ 0 := mt Curve.add_self_eq_zero_iff.mp hp
  have ha : (c.a : c.Base) = slope * (p.y + p.y) - 3 * (p.x * p.x) := by
    rw [← hslope, inv_mul_cancel_right₀ hpp]
    push_cast
    ring
  refine represents_chord (fun h => Point.ne_negY_of_eq rfl hp h.2)
    ((Point.slope_of_eq rfl rfl hp).trans hslope) ?_ ?_ ?_
  · show w.y * w.z + w.y * w.z ≠ 0
    rw [hy, ← add_mul, ← add_mul]
    exact mul_ne_zero (mul_ne_zero hpp (pow_ne_zero 3 hz)) hz
  · simp only [Weighted.double]
    rw [ha, hx, hy]
    ring
  · simp only [Weighted.double]
    rw [ha, hx, hy]
    ring

/-- Adding a pair of coordinates adds the point. -/
theorem Represents.addKey {w : Weighted c} {p : Point c} (h : w.Represents p) (q : PublicKey c) :
    (w.addKey q).Represents (p + .affine q) := by
  rw [Weighted.addKey]
  rcases p with _ | p
  · -- added to the neutral element
    rw [if_pos (show w.z = 0 from h)]
    exact ⟨one_ne_zero, by ring, by ring⟩
  have hdouble := h.double
  obtain ⟨hz, hx, hy⟩ := h
  -- The differences of the weighted coordinates are those of the points, up to powers of `z`.
  have hh : q.x * (w.z * w.z) - w.x = w.z ^ 2 * (q.x - p.x) := by
    rw [hx]
    ring
  have hr : q.y * (w.z * w.z * w.z) - w.y = w.z ^ 3 * (q.y - p.y) := by
    rw [hy]
    ring
  have hh0 : w.z ^ 2 * (q.x - p.x) = 0 ↔ p.x = q.x := by
    rw [mul_eq_zero_iff_left (pow_ne_zero 2 hz), sub_eq_zero, eq_comm]
  have hr0 : w.z ^ 3 * (q.y - p.y) = 0 ↔ p.y = q.y := by
    rw [mul_eq_zero_iff_left (pow_ne_zero 3 hz), sub_eq_zero, eq_comm]
  simp only [hh, hr, hh0, hr0]
  rw [if_neg hz]
  split
  · rename_i hxx
    split
    · rename_i hyy
      -- the same point: doubling
      rcases p with ⟨px, py, hp⟩
      rcases q with ⟨qx, qy, hq⟩
      obtain rfl : px = qx := hxx
      obtain rfl : py = qy := hyy
      exact hdouble
    · rename_i hyy
      -- opposite points: the neutral element
      show Weighted.zero.Represents (Point.add (.affine p) (.affine q))
      rw [Point.add, if_pos hxx, if_neg fun h => hyy h.1]
      rfl
  · rename_i hxx
    -- different `x`: the chord, with its slope named
    have hsub : q.x - p.x ≠ 0 := sub_ne_zero.mpr (Ne.symm hxx)
    show Represents _ (Point.add (.affine p) (.affine q))
    rw [Point.add, if_neg hxx]
    generalize hslope : (q.y - p.y) * (q.x - p.x)⁻¹ = slope
    have hrise : q.y - p.y = slope * (q.x - p.x) := by
      rw [← hslope, inv_mul_cancel_right₀ hsub]
    refine represents_chord (fun h => hxx h.1) ((Point.slope_of_x_ne hxx).trans hslope) ?_ ?_ ?_
    · exact mul_ne_zero hz (mul_ne_zero (pow_ne_zero 2 hz) hsub)
    · simp only [hrise]
      rw [hx]
      ring
    · simp only [hrise]
      rw [hx, hy]
      ring

theorem Represents.addPoint {w : Weighted c} {p : Point c} (h : w.Represents p) (q : Point c) :
    (w.addPoint q).Represents (p + q) := by
  rcases q with _ | q
  · rw [show p + Point.zero = p from Point.add_zero_eq p]
    exact h
  · exact h.addKey q

end Weighted

/-- **Multiples** by doubling and adding are the multiples of the Weierstrass curve. -/
theorem Point.toAffine_multiple (k : ℕ) (p : Point c) :
    (p.multiple k).toAffine = k • p.toAffine := by
  obtain ⟨q, hq, heq⟩ : ∃ q : Point c,
      (byDoubling Weighted.zero Weighted.double (Weighted.addPoint p) k).Represents q ∧
        q.toAffine = k • p.toAffine := by
    -- The accumulator stands for the multiple by the digits read so far.
    refine byDoubling_induction
      (P := fun n (w : Weighted c) => ∃ q : Point c, w.Represents q ∧ q.toAffine = n • p.toAffine)
      ?_ ?_ ?_ k
    · exact ⟨0, rfl, (zero_nsmul _).symm⟩
    · rintro n w ⟨q, hq, heq⟩
      exact ⟨q + q, hq.double, by rw [Point.toAffine_add, heq, ← add_nsmul, two_mul]⟩
    · rintro n w ⟨q, hq, heq⟩
      exact ⟨q + p, hq.addPoint p, by rw [Point.toAffine_add, heq, succ_nsmul]⟩
  rw [Point.multiple, hq.toPoint_eq, heq]

theorem Point.multiple_eq_iterate (k : ℕ) (p : Point c) : p.multiple k = (· + p)^[k] 0 := by
  apply Point.toAffine_injective
  rw [Point.toAffine_multiple, Point.toAffine_iterate_add]

end RankedKeys
