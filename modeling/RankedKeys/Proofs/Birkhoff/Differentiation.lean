import RankedKeys.Proofs.Birkhoff.Derivative
import RankedKeys.Proofs.Curve.Secp256k1

/-!
# Evaluation differentiates the coefficients

The row of a position reads the share off the coefficients in one go, with running powers and
falling factorials. The same value is reached step by step: the coefficients are differentiated
formally as often as the rank says, and the list that is left is evaluated by Horner's rule. A list
loses one coefficient with every step, so a rank that is no smaller than its length leaves nothing.

## Main definitions

* `differentiate`: the coefficients of the formal derivative
* `horner`: the value of a polynomial, from its coefficients

## Main results

* `polynomialOf_iterate_differentiate`, `eval_polynomialOf`: on polynomials, these are the
  derivative and the value
* `Parameter.evaluate_exact`: evaluation at a position is the value of the derivative, and the rows
  of all widths agree on it
-/

namespace RankedKeys

open Polynomial

variable {F : Type} [Field F]

/-! ## Horner's rule -/

/-- The value at `x` of the polynomial with given coefficients, constant term first. -/
def horner (x : F) : List F → F
  | [] => 0
  | a :: coefficients => a + x * horner x coefficients

@[simp] theorem polynomialOf_nil : polynomialOf ([] : List F) = 0 := by
  simp [polynomialOf]

theorem polynomialOf_cons (a : F) (coefficients : List F) :
    polynomialOf (a :: coefficients) = C a + X * polynomialOf coefficients := by
  ext j
  cases j with
  | zero => simp
  | succ j => simp [coeff_X_mul]

/-- **Horner's rule** gives the value of the polynomial. -/
theorem eval_polynomialOf (x : F) (coefficients : List F) :
    (polynomialOf coefficients).eval x = horner x coefficients := by
  induction coefficients with
  | nil => simp [horner]
  | cons a coefficients ih =>
    rw [polynomialOf_cons, eval_add, eval_C, eval_mul, eval_X, ih, horner]

/-! ## Formal differentiation -/

/-- The formal derivative on coefficients: `a₀, a₁, a₂, a₃, …` becomes `a₁, 2·a₂, 3·a₃, …`. -/
def differentiate (coefficients : List F) : List F :=
  coefficients.tail.mapIdx fun j a => ((j + 1 : ℕ) : F) * a

theorem length_differentiate (coefficients : List F) :
    (differentiate coefficients).length = coefficients.length - 1 := by
  simp [differentiate]

theorem length_iterate_differentiate (r : ℕ) (coefficients : List F) :
    (differentiate^[r] coefficients).length = coefficients.length - r := by
  induction r with
  | zero => rfl
  | succ r ih => rw [Function.iterate_succ_apply', length_differentiate, ih, Nat.sub_sub]

theorem entry_differentiate (coefficients : List F) (j : ℕ) :
    entry (differentiate coefficients) j = ((j + 1 : ℕ) : F) * entry coefficients (j + 1) := by
  simp only [entry, differentiate, List.getD_eq_getElem?_getD, List.getElem?_mapIdx,
    List.getElem?_tail]
  cases coefficients[j + 1]? <;> simp

/-- One differentiation of the coefficients is one of the polynomial. -/
theorem polynomialOf_differentiate (coefficients : List F) :
    polynomialOf (differentiate coefficients) = derivative (polynomialOf coefficients) := by
  ext j
  rw [coeff_polynomialOf, entry_differentiate, coeff_derivative, coeff_polynomialOf, mul_comm,
    Nat.cast_add_one]

/-- **Repeated differentiation** of the coefficients is that of the polynomial. -/
theorem polynomialOf_iterate_differentiate (r : ℕ) (coefficients : List F) :
    polynomialOf (differentiate^[r] coefficients) =
      derivative^[r] (polynomialOf coefficients) := by
  induction r with
  | zero => rfl
  | succ r ih =>
    rw [Function.iterate_succ_apply', polynomialOf_differentiate, ih, Function.iterate_succ_apply']

/-! ## Evaluation at a position -/

namespace Parameter

variable (p : Parameter F) (coefficients : List F)

/-- The share of a list of coefficients, by differentiation and Horner's rule. -/
theorem shareOf_polynomialOf : p.shareOf (polynomialOf coefficients) =
    horner p.x (differentiate^[p.rank.toNat] coefficients) := by
  rw [shareOf, ← polynomialOf_iterate_differentiate, eval_polynomialOf]

/-- Nothing is left of a polynomial with no more coefficients than the rank. -/
theorem horner_iterate_differentiate_eq_zero (h : coefficients.length ≤ p.rank.toNat) :
    horner p.x (differentiate^[p.rank.toNat] coefficients) = 0 := by
  have hlength := length_iterate_differentiate p.rank.toNat coefficients
  rw [Nat.sub_eq_zero_of_le h] at hlength
  rw [List.length_eq_zero_iff.mp hlength, horner]

/-- A row that is wide enough gives the share, however wide it is. -/
theorem dot_row {width : ℕ} (h : coefficients.length ≤ width) :
    dot (p.row width) coefficients = p.shareOf (polynomialOf coefficients) := by
  have hdegree : (polynomialOf coefficients).degree < width :=
    (degree_polynomialOf_lt coefficients).trans_le (by exact_mod_cast h)
  rw [dot_eq_valueAt (p.length_row width), ← p.valueAt_row width hdegree]
  simp only [valueAt, coeff_polynomialOf]

/-- **Evaluation is the formal derivative**, for every coordinate, every rank and every list of
coefficients: it is the value at the coordinate of the list that is left when the coefficients have
been differentiated as often as the rank says. That is zero if the rank is no smaller than their
number. The inner product with a row of the same width, or of any greater one, is this value. -/
theorem evaluate_exact :
    p.evaluate coefficients = horner p.x (differentiate^[p.rank.toNat] coefficients) ∧
    (coefficients.length ≤ p.rank.toNat → p.evaluate coefficients = 0) ∧
    ∀ width, coefficients.length ≤ width →
      dot (p.row width) coefficients = p.evaluate coefficients := by
  have hvalue : p.evaluate coefficients =
      horner p.x (differentiate^[p.rank.toNat] coefficients) := by
    rw [evaluate_eq_shareOf, shareOf_polynomialOf]
  refine ⟨hvalue, fun h => ?_, fun width h => ?_⟩
  · rw [hvalue, p.horner_iterate_differentiate_eq_zero coefficients h]
  · rw [p.dot_row coefficients h, evaluate_eq_shareOf]

/-- The polynomial `4 + 3·x + 2·x²` at two, once differentiated and as often as it has
coefficients. -/
theorem evaluate_exact_secp256k1 :
    let coefficients : List Curve.secp256k1.Scalar := [4, 3, 2]
    (⟨2, 1⟩ : Parameter Curve.secp256k1.Scalar).evaluate coefficients =
      horner 2 (differentiate coefficients) ∧
    (⟨2, 3⟩ : Parameter Curve.secp256k1.Scalar).evaluate coefficients = 0 ∧
    dot ((⟨2, 1⟩ : Parameter Curve.secp256k1.Scalar).row 5) coefficients =
      (⟨2, 1⟩ : Parameter Curve.secp256k1.Scalar).evaluate coefficients := by
  intro coefficients
  exact ⟨(evaluate_exact ⟨2, 1⟩ coefficients).1,
    (evaluate_exact ⟨2, 3⟩ coefficients).2.1 (by decide),
    (evaluate_exact ⟨2, 1⟩ coefficients).2.2 5 (by decide)⟩

example : [⟨2, 0⟩, ⟨2, 1⟩, ⟨2, 2⟩, ⟨2, 3⟩].map
    (fun p : Parameter Curve.secp256k1.Scalar => p.evaluate [4, 3, 2]) = [18, 11, 4, 0] := by
  decide +kernel

end Parameter

end RankedKeys
