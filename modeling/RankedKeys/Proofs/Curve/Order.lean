import Mathlib.Data.Finite.Prod
import Mathlib.GroupTheory.Perm.Cycle.Type
import RankedKeys.Proofs.Curve.Weierstrass

/-!
# Counting the points

A point is known by its `x` and by whether its `y` is odd, so there are at most two points for
each `x`, and one more. Where the generator has prime order and three times that order would be
too many points, its multiples are all points or half of them; and half of them only if some point
is its own negative, that is, if the cubic has a root.

## Main results

* `PublicKey.eq_of_parity`: the coordinates are determined by `x` and the parity of `y`
* `Curve.lawful_of_order`: the points of a curve whose cubic has no root form a group of the order
  of its generator
-/

namespace RankedKeys

variable {c : Curve} [c.Smooth]

omit [c.Smooth] in
theorem Residue.parity_neg {y : c.Base} (hy : y ≠ 0) : (-y).val % 2 ≠ y.val % 2 := by
  have hpos : y.val ≠ 0 := by
    intro h
    apply hy
    rcases y with ⟨n, hn⟩
    obtain rfl : n = 0 := h
    rfl
  have hlt := y.val_lt
  have hp := c.prime_mod_four
  -- The two add up to the prime, which is odd.
  have hval : (-y).val = c.prime - y.val := Nat.mod_eq_of_lt (by omega)
  omega

/-- **Compression**: the coordinates are determined by `x` and the parity of `y`. -/
theorem PublicKey.eq_of_parity {p q : PublicKey c} (hx : p.x = q.x)
    (hy : p.y.val % 2 = q.y.val % 2) : p = q := by
  have hsq : p.y * p.y = q.y * q.y := by rw [p.holds, q.holds, hx]
  have heq : p.y = q.y := by
    rcases mul_self_eq_mul_self_iff.mp hsq with heq | hneg
    · exact heq
    · by_contra hne
      -- Opposite roots of different parity, unless both are zero.
      have hq : q.y ≠ 0 := by
        intro h0
        rw [h0, neg_zero] at hneg
        exact hne (hneg.trans h0.symm)
      rw [hneg] at hy
      exact Residue.parity_neg hq hy
  rcases p with ⟨x, y, hp⟩
  rcases q with ⟨x', y', hq⟩
  obtain rfl : x = x' := hx
  obtain rfl : y = y' := heq
  rfl

namespace Point

open WeierstrassCurve

theorem toAffine_bijective : Function.Bijective (toAffine (c := c)) := by
  refine ⟨toAffine_injective, ?_⟩
  rintro (_ | ⟨x, y, h⟩)
  · exact ⟨zero, rfl⟩
  · exact ⟨affine ⟨x, y, Curve.nonsingular_iff_holds.mp h⟩, rfl⟩

/-- What a point is known by: its `x` and the parity of its `y`. -/
def compress : Point c → Option (Fin c.prime × Fin 2)
  | zero => none
  | affine p => some (⟨p.x.val, p.x.val_lt⟩, ⟨p.y.val % 2, Nat.mod_lt _ two_pos⟩)

theorem compress_injective : Function.Injective (compress (c := c)) := by
  rintro (_ | p) (_ | q) h
  · rfl
  · exact absurd h (by simp [compress])
  · exact absurd h (by simp [compress])
  · obtain ⟨hx, hy⟩ := Prod.mk.inj (Option.some.inj h)
    have hxx : p.x = q.x := by
      rcases p with ⟨⟨x, hx'⟩, y, hp⟩
      rcases q with ⟨⟨x', hx''⟩, y', hq⟩
      obtain rfl : x = x' := Fin.mk.inj hx
      rfl
    exact congrArg affine (PublicKey.eq_of_parity hxx (Fin.mk.inj hy))

instance : Finite (Point c) := Finite.of_injective compress compress_injective

instance : Finite c.weierstrass.toAffine.Point :=
  Finite.of_surjective _ toAffine_bijective.surjective

theorem card_le : Nat.card c.weierstrass.toAffine.Point ≤ 2 * c.prime + 1 := by
  rw [← Nat.card_congr (Equiv.ofBijective _ toAffine_bijective)]
  refine (Nat.card_le_card_of_injective compress compress_injective).trans ?_
  simp only [Nat.card_eq_fintype_card, Fintype.card_option, Fintype.card_prod, Fintype.card_fin]
  omega

/-- A point that is its own negative lies on a root of the cubic. -/
theorem eq_zero_of_two_nsmul_eq_zero (hroot : ∀ x : c.Base, c.cubic x ≠ 0)
    {P : c.weierstrass.toAffine.Point} (h : 2 • P = 0) : P = 0 := by
  obtain ⟨p, rfl⟩ := toAffine_bijective.surjective P
  rcases p with _ | p
  · rfl
  · exfalso
    -- The point is its own negative, so that its `y` is zero and its `x` a root.
    have hneg : (Affine.Point.some p.x p.y (Curve.nonsingular_iff_holds.mpr p.holds) :
        c.weierstrass.toAffine.Point) = -Affine.Point.some p.x p.y _ :=
      eq_neg_of_add_eq_zero_left ((two_nsmul _).symm.trans h)
    rw [Affine.Point.neg_some] at hneg
    obtain ⟨-, hy⟩ := Affine.Point.some.inj hneg
    rw [Curve.negY_weierstrass] at hy
    have hy0 : p.y = 0 := Curve.add_self_eq_zero_iff.mp (eq_neg_iff_add_eq_zero.mp hy)
    apply hroot p.x
    rw [← p.holds, hy0, mul_zero]

end Point

namespace Curve

section Count

variable (hprime : c.order.Prime) (hcard : 2 * c.prime + 1 < 3 * c.order)
  (hroot : ∀ x : c.Base, c.cubic x ≠ 0) (hgen : c.generator ≠ 0)
  (horder : c.generator.multiple c.order = 0)

include hprime hgen horder in
theorem addOrderOf_generator : addOrderOf c.generator.toAffine = c.order := by
  have : Fact c.order.Prime := ⟨hprime⟩
  refine addOrderOf_eq_prime ?_ fun h => hgen (Point.toAffine_injective h)
  rw [← Point.toAffine_multiple, horder]
  rfl

include hprime hcard hroot hgen horder in
/-- There are as many points as the generator has multiples. -/
theorem card_points : Nat.card c.weierstrass.toAffine.Point = c.order := by
  -- By Lagrange the number of points is a multiple of the order, and there is no room for three.
  have hdvd : c.order ∣ Nat.card c.weierstrass.toAffine.Point := by
    rw [← addOrderOf_generator hprime hgen horder]
    exact addOrderOf_dvd_natCard _
  obtain ⟨index, hindex⟩ := hdvd
  have hpos : 0 < Nat.card c.weierstrass.toAffine.Point := Nat.card_pos
  have hle := Point.card_le (c := c)
  have hlt : index < 3 := by
    by_contra h
    have : c.order * 3 ≤ c.order * index := Nat.mul_le_mul_left _ (not_lt.mp h)
    omega
  interval_cases index
  · omega
  · rw [hindex, mul_one]
  · exfalso
    -- By Cauchy an even number of points has one of order two.
    have : Fact (Nat.Prime 2) := ⟨Nat.prime_two⟩
    obtain ⟨P, hP⟩ := exists_prime_addOrderOf_dvd_card' 2
      (hindex ▸ Dvd.intro_left c.order rfl : 2 ∣ Nat.card c.weierstrass.toAffine.Point)
    have hzero := Point.eq_zero_of_two_nsmul_eq_zero hroot (hP ▸ addOrderOf_nsmul_eq_zero P)
    rw [hzero, addOrderOf_zero] at hP
    exact absurd hP (by decide)

include hprime hcard hroot hgen horder in
/-- **The points form a group of prime order**, if the generator has that order, there is no room
for three times as many points, and the cubic has no root. -/
theorem lawful_of_order : c.Lawful where
  prime_order := hprime
  add_assoc := Point.smooth_add_assoc
  add_comm := Point.smooth_add_comm
  exists_neg := Point.smooth_exists_neg
  smul_eq k p := Point.multiple_eq_iterate k.val p
  order_smul p := by
    apply Point.toAffine_injective
    rw [Point.toAffine_iterate_add, ← card_points hprime hcard hroot hgen horder]
    exact card_nsmul_eq_zero'
  generator_ne_zero := hgen
  generates p := by
    have hmem : p.toAffine ∈ AddSubgroup.zmultiples c.generator.toAffine := by
      -- The multiples of the generator are as many as the points, so they are all of them.
      have htop := AddSubgroup.card_eq_iff_eq_top (AddSubgroup.zmultiples c.generator.toAffine)
      rw [Nat.card_zmultiples, addOrderOf_generator hprime hgen horder,
        card_points hprime hcard hroot hgen horder] at htop
      rw [htop.mp rfl]
      exact AddSubgroup.mem_top _
    obtain ⟨n, hn⟩ := mem_multiples_iff_mem_zmultiples.mpr hmem
    refine ⟨Residue.ofNat n, Point.toAffine_injective ?_⟩
    refine (Point.toAffine_multiple _ _).trans ?_
    calc ((n % c.order) • c.generator.toAffine : c.weierstrass.toAffine.Point)
      _ = n • c.generator.toAffine := by
        rw [← addOrderOf_generator hprime hgen horder, mod_addOrderOf_nsmul]
      _ = p.toAffine := hn

end Count

end Curve

end RankedKeys
