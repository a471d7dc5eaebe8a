import RankedKeys.Curve.Standard
import RankedKeys.Proofs.Curve.Order
import RankedKeys.Proofs.Curve.Primality

/-!
# The group of secp256k1

The points of the curve `y² = x³ + 7` form a group of prime order that the generator generates.
Both primes have certificates; the cubic has no root because `-7` is not a cube: its power at a
third of the order of the units is not one.

## Main definitions

* `secp256k1Key`: the public key of the scalar one

## Main results

* `instLawfulSecp256k1`: the curve is lawful
-/

namespace RankedKeys

set_option maxRecDepth 4000

/-- Certificates of the two primes of the curve and of their larger factors. -/
def secp256k1Certificates : List Certificate :=
  [⟨24809, 6, [2, 2, 2, 7, 443], by decide⟩,
    ⟨13331831, 13, [2, 5, 971, 1373], by decide⟩,
    ⟨173378833005251801, 6, [2, 2, 2, 5, 5, 2621, 24809, 13331831], by decide⟩,
    ⟨22149492674086928081353, 5, [2, 2, 2, 3, 5323, 173378833005251801], by decide⟩,
    ⟨132896956044521568488119, 6, [2, 3, 22149492674086928081353], by decide⟩,
    ⟨41201, 3, [2, 2, 2, 2, 5, 5, 103], by decide⟩,
    ⟨96557, 2, [2, 2, 101, 239], by decide⟩,
    ⟨20113, 10, [2, 2, 2, 2, 3, 419], by decide⟩,
    ⟨1206781, 10, [2, 2, 3, 5, 20113], by decide⟩,
    ⟨7240687, 3, [2, 3, 1206781], by decide⟩,
    ⟨107590001, 3, [2, 2, 2, 2, 5, 5, 5, 5, 7, 29, 53], by decide⟩,
    ⟨255515944373312847190720520512484175977, 3,
      [2, 2, 2, 7, 7, 11, 1627, 2657, 4423, 41201, 96557, 7240687, 107590001], by decide⟩,
    ⟨205115282021455665897114700593932402728804164701536103180137503955397371, 10,
      [2, 3, 5, 29, 29, 31, 7723, 132896956044521568488119,
        255515944373312847190720520512484175977], by decide⟩,
    ⟨Curve.secp256k1.prime, 3,
      [2, 3, 7, 13441,
        205115282021455665897114700593932402728804164701536103180137503955397371], by decide⟩,
    ⟨85831, 3, [2, 3, 5, 2861], by decide⟩,
    ⟨4681609, 23, [2, 2, 2, 3, 97, 2011], by decide⟩,
    ⟨107361793816595537, 3, [2, 2, 2, 2, 16699, 85831, 4681609], by decide⟩,
    ⟨120233, 3, [2, 2, 2, 7, 19, 113], by decide⟩,
    ⟨44706919, 6, [2, 3, 797, 9349], by decide⟩,
    ⟨174723607534414371449, 3, [2, 2, 2, 17, 59, 4051, 120233, 44706919], by decide⟩,
    ⟨305873, 3, [2, 2, 2, 2, 7, 2731], by decide⟩,
    ⟨28181, 2, [2, 2, 5, 1409], by decide⟩,
    ⟨545358713, 5, [2, 2, 2, 41, 59, 28181], by decide⟩,
    ⟨1627771, 3, [2, 3, 5, 29, 1871], by decide⟩,
    ⟨297159362677, 2, [2, 2, 3, 3, 11, 461, 1627771], by decide⟩,
    ⟨29047611873442575647497758179, 2, [2, 293, 305873, 545358713, 297159362677], by decide⟩,
    ⟨341948486974166000522343609283189, 2,
      [2, 2, 3, 3, 3, 109, 29047611873442575647497758179], by decide⟩,
    ⟨Curve.secp256k1.order, 7,
      [2, 2, 2, 2, 2, 2, 3, 149, 631, 107361793816595537, 174723607534414371449,
        341948486974166000522343609283189], by decide⟩]

theorem certified_secp256k1 : Certified [] secp256k1Certificates := by
  decide +kernel

theorem prime_prime_secp256k1 : Curve.secp256k1.prime.Prime :=
  prime_of_mem_certified certified_secp256k1 (by decide +kernel)

theorem prime_order_secp256k1 : Curve.secp256k1.order.Prime :=
  prime_of_mem_certified certified_secp256k1 (by decide +kernel)

instance : Curve.secp256k1.Smooth where
  prime_prime := prime_prime_secp256k1
  discriminant_ne_zero := by decide +kernel

/-- The number `-7` is not a cube. -/
theorem cubic_ne_zero_secp256k1 (x : Curve.secp256k1.Base) : Curve.secp256k1.cubic x ≠ 0 := by
  intro h
  have hcube : x ^ 3 = -(7 : ℕ) := by
    rw [Curve.cubic] at h
    have ha : ((Curve.secp256k1.a : ℕ) : Curve.secp256k1.Base) = 0 := rfl
    have hb : ((Curve.secp256k1.b : ℕ) : Curve.secp256k1.Base) = (7 : ℕ) := rfl
    rw [ha, hb] at h
    linear_combination h
  have hx : x ≠ 0 := by
    rintro rfl
    have hseven : (-((7 : ℕ) : Curve.secp256k1.Base)) ≠ 0 := by decide +kernel
    apply hseven
    rw [← hcube]
    exact zero_pow three_ne_zero
  -- A cube has the power one there, by Fermat.
  have hone : (-((7 : ℕ) : Curve.secp256k1.Base)) ^ ((Curve.secp256k1.prime - 1) / 3) = 1 := by
    rw [← hcube, ← pow_mul, show 3 * ((Curve.secp256k1.prime - 1) / 3) =
      Curve.secp256k1.prime - 1 by decide]
    exact Residue.pow_pred_eq_one hx
  have hne : (-((7 : ℕ) : Curve.secp256k1.Base)) ^ ((Curve.secp256k1.prime - 1) / 3) ≠ 1 := by
    decide +kernel
  exact hne hone

/-- **The points of secp256k1** form a group of prime order. -/
instance instLawfulSecp256k1 : Curve.secp256k1.Lawful :=
  Curve.lawful_of_order prime_order_secp256k1 (by decide +kernel) cubic_ne_zero_secp256k1
    (by decide +kernel) (by decide +kernel)

/-- The public key of the scalar one: the generator. -/
def secp256k1Key : PublicKey .secp256k1 where
  x := Residue.ofNat Curve.secp256k1.gx
  y := Residue.ofNat Curve.secp256k1.gy
  holds := by decide +kernel

theorem generator_secp256k1 : Curve.secp256k1.generator = .affine secp256k1Key := by
  decide +kernel

end RankedKeys
