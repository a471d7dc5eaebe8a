import RankedKeys.Proofs.Curve.Secp256k1

/-!
# The scalars of the supported curves

The order of the curve with `a = -3` is prime too, so the scalars of either supported curve form a
field. Nothing is said here about the points of the second curve.

## Main results

* `prime_order_p256`: the order of the curve is prime
* `CurveName.prime_order`: so is that of every supported curve
-/

namespace RankedKeys

set_option maxRecDepth 4000

/-- Certificates of the order of the curve and of its larger factors. -/
def p256Certificates : List Certificate :=
  [⟨38189, 2, [2, 2, 9547], by decide⟩,
    ⟨9350987, 2, [2, 17, 229, 1201], by decide⟩,
    ⟨187019741, 2, [2, 2, 5, 9350987], by decide⟩,
    ⟨311245691, 2, [2, 5, 7, 17, 29, 29, 311], by decide⟩,
    ⟨622491383, 5, [2, 311245691], by decide⟩,
    ⟨126241, 7, [2, 2, 2, 2, 2, 3, 5, 263], by decide⟩,
    ⟨104471, 11, [2, 5, 31, 337], by decide⟩,
    ⟨3969899, 2, [2, 19, 104471], by decide⟩,
    ⟨1002328039319, 19, [2, 126241, 3969899], by decide⟩,
    ⟨155317, 5, [2, 2, 3, 7, 43, 43], by decide⟩,
    ⟨191039911, 3, [2, 3, 5, 41, 155317], by decide⟩,
    ⟨208150935158385979, 2, [2, 3, 11, 43, 127, 3023, 191039911], by decide⟩,
    ⟨2624747550333869278416773953, 7,
      [2, 2, 2, 2, 2, 2, 3, 3, 1297, 16879, 208150935158385979], by decide⟩,
    ⟨Curve.p256.order, 7,
      [2, 2, 2, 2, 3, 71, 131, 373, 3407, 17449, 38189, 187019741, 622491383, 1002328039319,
        2624747550333869278416773953], by decide⟩]

theorem certified_p256 : Certified [] p256Certificates := by
  decide +kernel

theorem prime_order_p256 : Curve.p256.order.Prime :=
  prime_of_mem_certified certified_p256 (by decide +kernel)

/-- **The order of every supported curve** is prime. -/
theorem CurveName.prime_order (name : CurveName) : name.curve.order.Prime := by
  cases name with
  | secp256k1 => exact prime_order_secp256k1
  | p256 => exact prime_order_p256

instance (name : CurveName) : Fact name.curve.order.Prime := ⟨name.prime_order⟩

end RankedKeys
