import RankedKeys.Curve.Encoding
import RankedKeys.Proofs.Curve.Order

/-!
# Scalars and points survive their encoding

A number below `256 ^ n` is the one that its `n` bytes denote, so scalars and coordinates are read
back from their bytes; and a point is read back from its `x` and the parity of its `y`, since over
a prime that is three modulo four a power gives the root.

## Main results

* `Curve.scalarOfBytes_scalarBytes`: scalars are read back
* `Curve.scalarOfBytes_eq_ok_iff`: a scalar is written in one way
* `Point.ofBytes_toBytes`: points are read back
-/

namespace RankedKeys

theorem Bytes.toNat_append_singleton (bytes : Bytes) (b : UInt8) :
    Bytes.toNat (bytes ++ [b]) = 256 * Bytes.toNat bytes + b.toNat := by
  simp [Bytes.toNat]

theorem Bytes.toNat_ofNat {length n : ℕ} (h : n < Bytes.count length) :
    Bytes.toNat (Bytes.ofNat length n) = n := by
  induction length generalizing n with
  | zero =>
    have : n < 1 := h
    obtain rfl : n = 0 := by omega
    rfl
  | succ length ih =>
    have hcount : n < Bytes.count length * 256 := h
    have hbyte : (UInt8.ofNat (n % 256)).toNat = n % 256 := by
      simp
    rw [Bytes.ofNat, toNat_append_singleton, ih (Nat.div_lt_of_lt_mul (by omega)), hbyte]
    omega

theorem Bytes.ofNat_toNat (bytes : Bytes) : Bytes.ofNat bytes.length (Bytes.toNat bytes) = bytes := by
  induction bytes using List.reverseRecOn with
  | nil => rfl
  | append_singleton bytes b ih =>
    have hb : b.toNat < 256 := b.toNat_lt
    have hdiv : (256 * Bytes.toNat bytes + b.toNat) / 256 = Bytes.toNat bytes := by omega
    have hmod : (256 * Bytes.toNat bytes + b.toNat) % 256 = b.toNat := by omega
    rw [toNat_append_singleton, List.length_append, List.length_singleton, ofNat, hdiv, hmod, ih,
      UInt8.ofNat_toNat]

variable {c : Curve}

/-- **Scalars** are read back from their bytes. -/
theorem Curve.scalarOfBytes_scalarBytes (s : c.Scalar) :
    Curve.scalarOfBytes (Curve.scalarBytes s) = .ok s := by
  have hval : Bytes.toNat (Curve.scalarBytes s) = s.val :=
    Bytes.toNat_ofNat (s.val_lt.trans_le c.order_le)
  rw [Curve.scalarOfBytes, if_neg (by simp [Curve.scalarBytes]), hval, Residue.ofNat?_val]

/-- **A scalar is written in one way**: no other bytes are read as it. -/
theorem Curve.scalarOfBytes_eq_ok_iff {bytes : Bytes} {s : c.Scalar} :
    Curve.scalarOfBytes bytes = .ok s ↔ bytes = Curve.scalarBytes s := by
  constructor
  · intro h
    unfold Curve.scalarOfBytes at h
    split at h
    · cases h
    · rename_i hlength
      split at h
      · rename_i s' hs'
        cases h
        rw [Curve.scalarBytes, Residue.val_of_ofNat?_eq_some hs', ← not_not.mp hlength,
          Bytes.ofNat_toNat]
      · cases h
  · intro h
    rw [h, Curve.scalarOfBytes_scalarBytes]

variable [c.Smooth]

namespace Curve

/-- **Square roots**: the root of a square is one of its two roots. -/
theorem sqrt?_mul_self (y : c.Base) : ∃ r, c.sqrt? (y * y) = some r ∧ r * r = y * y := by
  -- Twice the exponent, taken of a square, is the order of the units and two more.
  have hfour : 2 * (2 * ((c.prime + 1) / 4)) = c.prime - 1 + 2 := by
    have := c.prime_mod_four
    have := c.one_lt_prime
    omega
  have hroot : (y * y) ^ ((c.prime + 1) / 4) * (y * y) ^ ((c.prime + 1) / 4) = y * y := by
    rcases eq_or_ne y 0 with rfl | hy
    · have hpos : (c.prime + 1) / 4 ≠ 0 := by
        have := c.one_lt_prime
        omega
      rw [mul_zero, zero_pow hpos, mul_zero]
    · rw [← pow_two, ← pow_two, ← pow_mul, ← pow_mul, mul_comm _ 2, ← mul_assoc, mul_assoc 2 2,
        hfour, pow_add, Residue.pow_pred_eq_one hy, one_mul]
  exact ⟨_, if_pos hroot, hroot⟩

end Curve

namespace PublicKey

/-- The root with the parity of `y` is `y`. -/
theorem root_eq (key : PublicKey c) {r : c.Base} (hr : r * r = key.y * key.y) :
    (if (r.val % 2 == 1) == (key.y.val % 2 == 1) then r else -r) = key.y := by
  rcases mul_self_eq_mul_self_iff.mp hr with rfl | rfl
  · simp
  · rcases eq_or_ne key.y 0 with h0 | h0
    · rw [h0]
      simp
    · -- The other root has the other parity, and is negated.
      have hparity := Residue.parity_neg h0
      have hlt := Nat.mod_lt (-key.y).val two_pos
      have hlt' := Nat.mod_lt key.y.val two_pos
      have hne : ((((-key.y).val % 2 == 1) == (key.y.val % 2 == 1)) = false) := by
        rcases Nat.mod_two_eq_zero_or_one key.y.val with h | h <;>
          rcases Nat.mod_two_eq_zero_or_one (-key.y).val with h' | h' <;> simp_all
      rw [hne]
      exact neg_neg _

theorem ofX?_eq (key : PublicKey c) :
    ofX? c key.x.val (key.y.val % 2 == 1) = some key := by
  obtain ⟨r, hsqrt, hr⟩ := Curve.sqrt?_mul_self key.y
  rw [key.holds] at hsqrt
  simp only [ofX?, Residue.ofNat?_val, hsqrt, bind, Option.bind, key.root_eq hr]
  exact dif_pos key.holds

end PublicKey

/-- **Points** are read back from their bytes. -/
theorem Point.ofBytes_toBytes (p : Point c) : Point.ofBytes c p.toBytes = .ok p := by
  rcases p with _ | key
  · rfl
  · have hx : Bytes.toNat (Bytes.ofNat fieldWidth key.x.val) = key.x.val :=
      Bytes.toNat_ofNat (key.x.val_lt.trans_le c.prime_le)
    have hlayout : Point.layout? (Point.affine key).toBytes =
        some (.sign (key.y.val % 2 == 1) (Bytes.ofNat fieldWidth key.x.val)) := by
      rcases Nat.mod_two_eq_zero_or_one key.y.val with h | h <;>
        simp [Point.toBytes, PublicKey.toBytes, Point.layout?, h]
    rw [Point.ofBytes, hlayout]
    simp only [Point.ofLayout?, hx, key.ofX?_eq, Option.map_some]

end RankedKeys
