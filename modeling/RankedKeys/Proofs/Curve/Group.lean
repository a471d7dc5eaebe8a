import Mathlib.Algebra.Module.Basic
import Mathlib.Algebra.Order.Group.Nat
import RankedKeys.Curve.Jacobian
import RankedKeys.Proofs.Residue

/-!
# The group of a curve

What the protocols ask of a curve: its points form a group of prime order, which the generator
generates, and multiples are repeated sums. The points are then a vector space over the scalars,
spanned by the generator.

## Main definitions

* `Curve.Lawful`: the curves whose points form such a group

## Main results

* `Point.instModule`: the points as a vector space over the scalars
* `smul_generator_inj`: different scalars give different multiples of the generator
-/

namespace RankedKeys

/-- The points of a curve form a group of prime order that the generator generates. -/
class Curve.Lawful (c : Curve) : Prop where
  prime_order : c.order.Prime
  add_assoc : ∀ p q r : Point c, p + q + r = p + (q + r)
  add_comm : ∀ p q : Point c, p + q = q + p
  exists_neg : ∀ p : Point c, ∃ q, q + p = 0
  /-- A multiple is a repeated sum. -/
  smul_eq : ∀ (k : c.Scalar) (p : Point c), k • p = (· + p)^[k.val] 0
  order_smul : ∀ p : Point c, (· + p)^[c.order] 0 = 0
  generator_ne_zero : c.generator ≠ 0
  generates : ∀ p : Point c, ∃ k : c.Scalar, k • c.generator = p

variable {c : Curve}

instance [c.Lawful] : Fact c.order.Prime := ⟨Curve.Lawful.prime_order⟩

namespace Point

@[simp] theorem zero_add_eq (p : Point c) : 0 + p = p := rfl

@[simp] theorem add_zero_eq (p : Point c) : p + 0 = p := by
  cases p <;> rfl

/-- Every point but the neutral one is a public key. -/
theorem key?_eq_some_iff {p : Point c} {key : PublicKey c} :
    p.key? = some key ↔ p = .affine key := by
  cases p with
  | zero => exact ⟨fun h => (nomatch h), fun h => (nomatch h)⟩
  | affine key' => rw [key?, Option.some_inj, affine.injEq]

theorem key?_eq_none_iff {p : Point c} : p.key? = none ↔ p = 0 := by
  cases p with
  | zero => exact ⟨fun _ => rfl, fun _ => rfl⟩
  | affine key => exact ⟨fun h => (nomatch h), fun h => (nomatch h)⟩

variable [c.Lawful]

noncomputable instance : Neg (Point c) := ⟨fun p => (Curve.Lawful.exists_neg p).choose⟩

/-- **The group of the points.** -/
noncomputable instance instAddCommGroup : AddCommGroup (Point c) where
  add_assoc := Curve.Lawful.add_assoc
  zero_add := zero_add_eq
  add_zero := add_zero_eq
  neg_add_cancel p := (Curve.Lawful.exists_neg p).choose_spec
  add_comm := Curve.Lawful.add_comm
  nsmul := nsmulRec
  zsmul := zsmulRec

theorem iterate_add_eq_nsmul (p : Point c) (n : ℕ) : (· + p)^[n] 0 = n • p := by
  induction n with
  | zero => rw [zero_nsmul]; rfl
  | succ n ih => rw [Function.iterate_succ_apply', ih, succ_nsmul]

theorem smul_eq_nsmul (k : c.Scalar) (p : Point c) : k • p = k.val • p :=
  (Curve.Lawful.smul_eq k p).trans (iterate_add_eq_nsmul p k.val)

theorem order_nsmul (p : Point c) : c.order • p = 0 :=
  (iterate_add_eq_nsmul p c.order).symm.trans (Curve.Lawful.order_smul p)

/-- Multiples are taken modulo the order. -/
theorem mod_nsmul (n : ℕ) (p : Point c) : (n % c.order) • p = n • p := by
  conv_rhs => rw [← Nat.div_add_mod n c.order, add_nsmul, mul_nsmul, order_nsmul, nsmul_zero,
    zero_add]

/-- **The points as a vector space** over the scalars. -/
noncomputable instance instModule : Module c.Scalar (Point c) where
  one_smul p := by
    rw [smul_eq_nsmul]
    exact (mod_nsmul 1 p).trans (one_nsmul p)
  mul_smul a b p := by
    rw [smul_eq_nsmul, smul_eq_nsmul, smul_eq_nsmul]
    exact (mod_nsmul (a.val * b.val) p).trans (mul_nsmul' p a.val b.val)
  smul_zero a := by rw [smul_eq_nsmul, nsmul_zero]
  smul_add a p q := by rw [smul_eq_nsmul, smul_eq_nsmul, smul_eq_nsmul, nsmul_add]
  add_smul a b p := by
    rw [smul_eq_nsmul, smul_eq_nsmul, smul_eq_nsmul]
    exact (mod_nsmul (a.val + b.val) p).trans (add_nsmul p a.val b.val)
  zero_smul p := by
    rw [smul_eq_nsmul]
    exact (mod_nsmul 0 p).trans (zero_nsmul p)

end Point

section Generator

variable [c.Lawful]

theorem generator_ne_zero : c.generator ≠ 0 := Curve.Lawful.generator_ne_zero

theorem smul_generator_eq_zero_iff {a : c.Scalar} : a • c.generator = 0 ↔ a = 0 := by
  constructor
  · intro h
    by_contra ha
    apply generator_ne_zero (c := c)
    rw [← one_smul c.Scalar c.generator, ← inv_mul_cancel₀ ha, mul_smul, h, smul_zero]
  · rintro rfl
    exact zero_smul _ _

theorem smul_generator_inj {a b : c.Scalar} : a • c.generator = b • c.generator ↔ a = b := by
  rw [← sub_eq_zero, ← sub_smul, smul_generator_eq_zero_iff, sub_eq_zero]

end Generator

end RankedKeys
