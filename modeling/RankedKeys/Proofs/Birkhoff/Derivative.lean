import Mathlib.Algebra.Polynomial.Derivative
import Mathlib.Algebra.Polynomial.Degree.Lemmas
import RankedKeys.Birkhoff.Parameter
import RankedKeys.Proofs.Birkhoff.Elimination

/-!
# Shares are derivatives

A list of coefficients, constant term first, is read as a polynomial. The row of a position, taken
against the coefficients, is then the value at the coordinate of the derivative whose order is the
rank.

## Main definitions

* `polynomialOf`: the polynomial with given coefficients
* `Parameter.shareOf`: the value of the derivative of a polynomial at a position

## Main results

* `Parameter.entry_row`: the entries of the row of a position
* `Parameter.evaluate_eq_shareOf`: the evaluation of coefficients is the share of their polynomial
-/

namespace RankedKeys

open Finset Polynomial

variable {F : Type} [Field F]

/-! ## Inner products -/

@[simp] theorem entry_nil (j : ℕ) : entry ([] : List F) j = 0 := rfl

@[simp] theorem entry_cons_zero (a : F) (row : List F) : entry (a :: row) 0 = a := rfl

@[simp] theorem entry_cons_succ (a : F) (row : List F) (j : ℕ) :
    entry (a :: row) (j + 1) = entry row j := rfl

theorem entry_eq_zero {row : List F} {j : ℕ} (h : row.length ≤ j) : entry row j = 0 := by
  simp [entry, List.getD_eq_getElem?_getD, h]

theorem entry_map_range (v : ℕ → F) (n : ℕ) {j : ℕ} (h : j < n) :
    entry ((List.range n).map v) j = v j := by
  simp [entry, List.getD_eq_getElem?_getD, h]

theorem entry_append_last {row : List F} {n : ℕ} (h : row.length = n) (a : F) :
    entry (row ++ [a]) n = a := by
  simp [entry, ← h]

theorem entry_append_of_lt (row : List F) (a : F) {j : ℕ} (h : j < row.length) :
    entry (row ++ [a]) j = entry row j := by
  rw [entry, entry, List.getD_eq_getElem?_getD, List.getD_eq_getElem?_getD,
    List.getElem?_append_left h]

theorem dot_eq_sum_zipWith (xs ys : List F) : dot xs ys = (List.zipWith (· * ·) xs ys).sum :=
  List.sum_eq_foldl.symm

theorem dot_eq_sum {n : ℕ} {xs : List F} (h : xs.length ≤ n) (ys : List F) :
    dot xs ys = ∑ i ∈ range n, entry xs i * entry ys i := by
  rw [dot_eq_sum_zipWith]
  induction xs generalizing ys n with
  | nil => simp
  | cons x xs ih =>
    obtain ⟨n, rfl⟩ : ∃ k, n = k + 1 := ⟨n - 1, by simp at h; omega⟩
    rw [sum_range_succ']
    cases ys with
    | nil => simp
    | cons y ys =>
      simp only [List.zipWith_cons_cons, List.sum_cons, entry_cons_succ, entry_cons_zero,
        ih (Nat.le_of_succ_le_succ h) ys]
      ring

theorem dot_eq_valueAt {n : ℕ} {row : List F} (h : row.length = n) (coefficients : List F) :
    dot row coefficients = valueAt n (entry coefficients) row :=
  dot_eq_sum h.le coefficients

/-! ## The row of a position -/

theorem fallingFactorial_eq (n k : ℕ) :
    (fallingFactorial n k : F) = (n.descFactorial k : F) := by
  induction k with
  | zero => simp [fallingFactorial]
  | succ k ih =>
    rw [fallingFactorial, ih, Nat.descFactorial_succ, Nat.cast_mul, mul_comm]

@[simp] theorem length_geometric (a x : F) (n : ℕ) : (geometric a x n).length = n := by
  induction n generalizing a with
  | zero => rfl
  | succ n ih => simp [geometric, ih]

theorem getElem?_geometric (a x : F) {n i : ℕ} (h : i < n) :
    (geometric a x n)[i]? = some (a * x ^ i) := by
  induction n generalizing a i with
  | zero => omega
  | succ n ih =>
    cases i with
    | zero => simp [geometric]
    | succ i =>
      rw [geometric, List.getElem?_cons_succ, ih (a * x) (Nat.lt_of_succ_lt_succ h), pow_succ']
      ring_nf

namespace Parameter

variable (p : Parameter F) (width : ℕ)

@[simp] theorem length_row : (p.row width).length = width := by
  simp only [row, List.length_append, List.length_replicate, List.length_zipWith,
    List.length_range, length_geometric]
  omega

/-- The factor of the `j`-th coefficient in the derivative. -/
theorem entry_row {j : ℕ} (h : j < width) :
    entry (p.row width) j = (j.descFactorial p.rank.toNat : F) * p.x ^ (j - p.rank.toNat) := by
  simp only [row, entry, List.getD_eq_getElem?_getD]
  by_cases hj : j < p.rank.toNat
  · -- The derivative takes away the coefficients below the rank.
    rw [Nat.descFactorial_of_lt hj, List.getElem?_append_left (by simp; omega),
      List.getElem?_replicate_of_lt (by omega)]
    simp
  · obtain ⟨k, rfl⟩ : ∃ k, j = p.rank.toNat + k := ⟨j - p.rank.toNat, by omega⟩
    rw [List.getElem?_append_right (by simp), List.length_replicate,
      Nat.min_eq_left (by omega), Nat.add_sub_cancel_left, List.getElem?_zipWith,
      getElem?_geometric _ _ (by omega), List.getElem?_range (by omega)]
    simp [fallingFactorial_eq]

/-- The value at a position of the derivative of a polynomial: its share. -/
noncomputable def shareOf (f : F[X]) : F :=
  (derivative^[p.rank.toNat] f).eval p.x

@[simp] theorem shareOf_add (f g : F[X]) : p.shareOf (f + g) = p.shareOf f + p.shareOf g := by
  simp [shareOf]

@[simp] theorem shareOf_sub (f g : F[X]) : p.shareOf (f - g) = p.shareOf f - p.shareOf g := by
  simp [shareOf]

@[simp] theorem shareOf_C_mul (a : F) (f : F[X]) : p.shareOf (C a * f) = a * p.shareOf f := by
  simp [shareOf, iterate_derivative_C_mul]

@[simp] theorem shareOf_zero : p.shareOf 0 = 0 := by
  simp [shareOf]

/-- The share of a position of rank zero is the value of the polynomial. -/
theorem shareOf_of_rank_eq_zero {p : Parameter F} (h : p.rank = 0) (f : F[X]) :
    p.shareOf f = f.eval p.x := by
  rw [shareOf, h]
  rfl

/-- The derivative takes away a polynomial of smaller degree than the rank. -/
theorem shareOf_eq_zero {p : Parameter F} {f : F[X]} (h : f.degree < p.rank.toNat) :
    p.shareOf f = 0 := by
  rcases eq_or_ne f 0 with rfl | hf
  · exact p.shareOf_zero
  · rw [shareOf, iterate_derivative_eq_zero ((natDegree_lt_iff_degree_lt hf).mpr h), eval_zero]

theorem shareOf_sum_map {α : Type} (f : α → F[X]) (list : List α) :
    p.shareOf (list.map f).sum = (list.map fun a => p.shareOf (f a)).sum := by
  induction list with
  | nil => exact p.shareOf_zero
  | cons a list ih => simp [ih]

/-- **The row against the coefficients** of a polynomial of small degree is its share. -/
theorem valueAt_row {f : F[X]} (h : f.degree < width) :
    valueAt width f.coeff (p.row width) = p.shareOf f := by
  -- By linearity it is enough to compare the shares of the monomials.
  have hsum : f = ∑ j ∈ range width, C (f.coeff j) * X ^ j := by
    rcases eq_or_ne f 0 with rfl | hf
    · simp
    · exact as_sum_range_C_mul_X_pow' _ ((natDegree_lt_iff_degree_lt hf).mpr h)
  have hterm : ∀ j, p.shareOf (C (f.coeff j) * X ^ j) =
      f.coeff j * ((j.descFactorial p.rank.toNat : F) * p.x ^ (j - p.rank.toNat)) := by
    intro j
    rw [shareOf_C_mul, shareOf, iterate_derivative_X_pow_eq_natCast_mul]
    simp
  have hshare : p.shareOf f = ∑ j ∈ range width, p.shareOf (C (f.coeff j) * X ^ j) := by
    conv_lhs => rw [hsum]
    simp [shareOf, iterate_derivative_sum, eval_finsetSum]
  rw [hshare, valueAt]
  refine sum_congr rfl fun j hj => ?_
  rw [hterm, p.entry_row width (mem_range.mp hj), mul_comm]

/-- The entries of the row are the shares of the powers. -/
theorem shareOf_X_pow {j : ℕ} (h : j < width) : p.shareOf (X ^ j) = entry (p.row width) j := by
  have hdegree : (X ^ j : F[X]).degree < width :=
    (degree_X_pow_le j).trans_lt (by exact_mod_cast h)
  rw [← p.valueAt_row width hdegree, valueAt, sum_eq_single j]
  · simp
  · intro k _ hk
    simp [coeff_X_pow, hk]
  · exact fun hout => absurd (mem_range.mpr h) hout

end Parameter

/-! ## Coefficient lists as polynomials -/

/-- The polynomial with given coefficients, constant term first. -/
noncomputable def polynomialOf (coefficients : List F) : F[X] :=
  ∑ j ∈ range coefficients.length, C (entry coefficients j) * X ^ j

@[simp] theorem coeff_polynomialOf (coefficients : List F) (j : ℕ) :
    (polynomialOf coefficients).coeff j = entry coefficients j := by
  simp only [polynomialOf, finsetSum_coeff, coeff_C_mul, coeff_X_pow, mul_ite, mul_one, mul_zero,
    sum_ite_eq, mem_range, ite_eq_left_iff, not_lt]
  exact fun h => (entry_eq_zero h).symm

theorem degree_polynomialOf_lt (coefficients : List F) :
    (polynomialOf coefficients).degree < coefficients.length := by
  refine (degree_lt_iff_coeff_zero _ _).mpr fun j hj => ?_
  rw [coeff_polynomialOf, entry_eq_zero hj]

/-- The coefficients of a polynomial are those that it is made of. -/
theorem polynomialOf_map_coeff {f : F[X]} {n : ℕ} (h : f.degree < n) :
    polynomialOf ((List.range n).map f.coeff) = f := by
  ext j
  rw [coeff_polynomialOf]
  rcases Nat.lt_or_ge j n with hj | hj
  · exact entry_map_range _ _ hj
  · rw [entry_eq_zero (by simpa using hj), (degree_lt_iff_coeff_zero f n).mp h j hj]

theorem map_coeff_polynomialOf (coefficients : List F) :
    (List.range coefficients.length).map (polynomialOf coefficients).coeff = coefficients := by
  refine List.ext_getElem (by simp) fun j hj hj' => ?_
  simp [entry, List.getD_eq_getElem?_getD, hj']

theorem eval_zero_polynomialOf (coefficients : List F) :
    (polynomialOf coefficients).eval 0 = entry coefficients 0 := by
  rw [← coeff_zero_eq_eval_zero, coeff_polynomialOf]

/-- **The evaluation of coefficients** at a position is the share of their polynomial. -/
theorem Parameter.evaluate_eq_shareOf (p : Parameter F) (coefficients : List F) :
    p.evaluate coefficients = p.shareOf (polynomialOf coefficients) := by
  rw [evaluate, dot_eq_valueAt (p.length_row _), ← p.valueAt_row _ (degree_polynomialOf_lt _)]
  exact sum_congr rfl fun j _ => by rw [coeff_polynomialOf]

end RankedKeys
