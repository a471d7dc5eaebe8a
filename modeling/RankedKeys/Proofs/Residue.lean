import Mathlib.Algebra.Field.ZMod
import Mathlib.FieldTheory.Finite.Basic
import RankedKeys.Residue

/-!
# Residue classes form a ring, and modulo a prime a field

The classes modulo `m` embed into Mathlib's `ZMod m`, and every operation on least representatives
is the operation of `ZMod m` seen through the embedding. The ring laws are pulled back along it;
for a prime modulus the power that Fermat's theorem names is the inverse.

## Main definitions

* `Residue.toZMod`: the embedding into `ZMod m`

## Main results

* `byDoubling_induction`: a property that doubling and adding carry along holds of repeated
  doubling
* `Residue.instCommRing`, `Residue.instField`: the ring, and the field for a prime modulus
-/

namespace RankedKeys

/-! ## Repeated doubling -/

/-- Reading the lowest `j` binary digits of `k` after `n` gives `n * 2 ^ j + k % 2 ^ j`. -/
theorem foldl_testBit (k n j : Nat) :
    ((List.range j).reverse.map k.testBit).foldl (fun n one => 2 * n + one.toNat) n =
      n * 2 ^ j + k % 2 ^ j := by
  induction j generalizing n with
  | zero => simp [Nat.mod_one]
  | succ j ih =>
    rw [List.range_succ, List.reverse_append, List.reverse_singleton, List.singleton_append,
      List.map_cons, List.foldl_cons, ih, pow_succ, Nat.mod_mul, Nat.toNat_testBit]
    ring

theorem foldl_binaryDigits (k : Nat) :
    (binaryDigits k).foldl (fun n one => 2 * n + one.toNat) 0 = k := by
  rw [binaryDigits, foldl_testBit, zero_mul, zero_add]
  exact Nat.mod_eq_of_lt Nat.lt_log2_self

/-- **Repeated doubling**: a property of a number and a value that holds at zero and survives
doubling and adding one holds of `k` and the value after walking along the digits of `k`. -/
theorem byDoubling_induction {α : Type} {P : Nat → α → Prop} {zero : α} {double add : α → α}
    (hzero : P 0 zero) (hdouble : ∀ n a, P n a → P (2 * n) (double a))
    (hadd : ∀ n a, P n a → P (n + 1) (add a)) (k : Nat) :
    P k (byDoubling zero double add k) := by
  -- The number that the digits read so far denote runs beside the value.
  have walk : ∀ (digits : List Bool) (n : Nat) (a : α), P n a →
      P (digits.foldl (fun n one => 2 * n + one.toNat) n)
        (digits.foldl (fun acc one => if one then add (double acc) else double acc) a) := by
    intro digits
    induction digits with
    | nil => exact fun n a h => h
    | cons one digits ih =>
      intro n a h
      refine ih _ _ ?_
      cases one
      · exact hdouble n a h
      · exact hadd (2 * n) (double a) (hdouble n a h)
  have h := walk (binaryDigits k) 0 zero hzero
  rwa [foldl_binaryDigits] at h

namespace Residue

variable {m : Nat}

/-- The embedding into the integers modulo `m`. -/
def toZMod (a : Residue m) : ZMod m := a.val

theorem toZMod_injective : Function.Injective (toZMod : Residue m → ZMod m) := by
  intro a b h
  have := (ZMod.natCast_eq_natCast_iff' a.val b.val m).mp h
  rw [Nat.mod_eq_of_lt a.val_lt, Nat.mod_eq_of_lt b.val_lt] at this
  cases a
  cases b
  cases this
  rfl

variable [Modulus m]

@[simp] theorem toZMod_ofNat (n : Nat) : (ofNat n : Residue m).toZMod = n :=
  ZMod.natCast_mod n m

@[simp] theorem toZMod_zero : (0 : Residue m).toZMod = 0 :=
  (toZMod_ofNat 0).trans Nat.cast_zero

@[simp] theorem toZMod_one : (1 : Residue m).toZMod = 1 :=
  (toZMod_ofNat 1).trans Nat.cast_one

@[simp] theorem toZMod_natCast (n : Nat) : (n : Residue m).toZMod = n :=
  toZMod_ofNat n

@[simp] theorem toZMod_add (a b : Residue m) : (a + b).toZMod = a.toZMod + b.toZMod :=
  (toZMod_ofNat _).trans (Nat.cast_add _ _)

@[simp] theorem toZMod_mul (a b : Residue m) : (a * b).toZMod = a.toZMod * b.toZMod :=
  (toZMod_ofNat _).trans (Nat.cast_mul _ _)

@[simp] theorem toZMod_neg (a : Residue m) : (-a).toZMod = -a.toZMod := by
  refine (toZMod_ofNat _).trans ?_
  rw [Nat.cast_sub a.val_lt.le, ZMod.natCast_self, zero_sub]
  rfl

@[simp] theorem toZMod_sub (a b : Residue m) : (a - b).toZMod = a.toZMod - b.toZMod := by
  refine (toZMod_ofNat _).trans ?_
  rw [Nat.cast_add, Nat.cast_sub b.val_lt.le, ZMod.natCast_self, zero_sub, sub_eq_add_neg]
  rfl

@[simp] theorem toZMod_pow (a : Residue m) (k : Nat) : (a ^ k).toZMod = a.toZMod ^ k := by
  refine byDoubling_induction (P := fun n x => toZMod x = a.toZMod ^ n) ?_ ?_ ?_ k
  · simp
  · intro n x hx
    rw [toZMod_mul, hx, two_mul, pow_add]
  · intro n x hx
    rw [toZMod_mul, hx, pow_succ]

instance : IntCast (Residue m) := ⟨fun n => (n % (m : Int)).toNat⟩

instance : SMul Nat (Residue m) := ⟨fun n a => n * a⟩

instance : SMul Int (Residue m) := ⟨fun n a => n * a⟩

@[simp] theorem toZMod_intCast (n : Int) : (n : Residue m).toZMod = n := by
  refine (toZMod_ofNat _).trans ?_
  have pos : (m : Int) ≠ 0 := by exact_mod_cast (Modulus.pos (m := m)).ne'
  rw [← Int.cast_natCast, Int.toNat_of_nonneg (Int.emod_nonneg n pos), ZMod.intCast_mod]

/-- **The ring of residue classes**, with the operations on least representatives. -/
instance instCommRing : CommRing (Residue m) :=
  toZMod_injective.commRing toZMod toZMod_zero toZMod_one toZMod_add toZMod_mul toZMod_neg
    toZMod_sub
    (fun n a => by
      refine (toZMod_mul (n : Residue m) a).trans ?_
      rw [toZMod_natCast, nsmul_eq_mul])
    (fun n a => by
      refine (toZMod_mul (n : Residue m) a).trans ?_
      rw [toZMod_intCast, zsmul_eq_mul])
    toZMod_pow toZMod_natCast toZMod_intCast

variable [Fact m.Prime]

/-- **Fermat**: the power at the order of the units is one. -/
theorem pow_pred_eq_one {a : Residue m} (h : a ≠ 0) : a ^ (m - 1) = 1 := by
  have image : a.toZMod ≠ 0 := fun h' => h (toZMod_injective (h'.trans toZMod_zero.symm))
  apply toZMod_injective
  rw [toZMod_pow, toZMod_one]
  exact ZMod.pow_card_sub_one_eq_one image

theorem mul_inv_of_ne_zero {a : Residue m} (h : a ≠ 0) : a * a⁻¹ = 1 := by
  have two_le : 2 ≤ m := (Fact.out : m.Prime).two_le
  rw [inv_of_ne_zero h, ← pow_succ', show m - 2 + 1 = m - 1 by omega, pow_pred_eq_one h]

/-- **The field of residue classes** modulo a prime. -/
instance instField : Field (Residue m) where
  exists_pair_ne := ⟨0, 1, fun h => zero_ne_one (α := ZMod m)
    (toZMod_zero.symm.trans ((congrArg toZMod h).trans toZMod_one))⟩
  mul_inv_cancel _ h := mul_inv_of_ne_zero h
  inv_zero := inv_zero_eq
  nnqsmul := _
  nnqsmul_def := fun _ _ => rfl
  qsmul := _
  qsmul_def := fun _ _ => rfl

end Residue

end RankedKeys
