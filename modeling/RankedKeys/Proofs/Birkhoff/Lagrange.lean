import Mathlib.LinearAlgebra.Lagrange
import Mathlib.LinearAlgebra.Vandermonde
import RankedKeys.Proofs.Birkhoff.Admission

/-!
# Plain positions

Positions of rank zero share a polynomial by its values. Any of them with distinct coordinates form
a scheme, if there are enough. The search for the factors of the constant term takes its pivots from
the left, and the values at the first coordinates, as many as the threshold, determine the
polynomial by themselves; so these positions alone have factors that are not zero, and the factors
are the coefficients of Lagrange's interpolation at zero.

## Main definitions

* `lagrangeAtZero n x i`: Lagrange's coefficient at zero of one of the first `n` coordinates

## Main results

* `checkValid_of_plain`: plain positions form a scheme
* `rowReduce_secretEquations_of_plain`: only the first positions are needed
* `secretCoefficients_of_plain`: the factors of plain positions
-/

namespace RankedKeys

open Finset Polynomial

variable {F : Type} [Field F]

/-- The coefficient at zero of the coordinate in place `i` in the interpolation of values at the
first `n` coordinates. -/
def lagrangeAtZero (n : ℕ) (x : ℕ → F) (i : ℕ) : F :=
  ∏ j ∈ (range n).erase i, x j / (x j - x i)

/-- It is the value at zero of the polynomial that is one at its own coordinate and zero at the
others. -/
theorem eval_zero_basis {n : ℕ} {x : ℕ → F} (i : ℕ) :
    (Lagrange.basis (range n) x i).eval 0 = lagrangeAtZero n x i := by
  rw [Lagrange.basis, eval_prod, lagrangeAtZero]
  refine prod_congr rfl fun j _ => ?_
  rw [Lagrange.basisDivisor, eval_mul, eval_C, eval_sub, eval_X, eval_C, zero_sub, div_eq_inv_mul,
    ← neg_sub (x j) (x i), inv_neg, neg_mul_neg]

section Plain

variable {threshold : ℕ} {params : List (Parameter F)} (plain : ∀ p ∈ params, p.rank = 0)
  (distinct : (params.map (·.x)).Nodup) (le : threshold ≤ params.length)

include distinct in
theorem injOn_entry_x : Set.InjOn (entry (params.map (·.x))) (range params.length) := by
  intro i hi j hj heq
  have hi := mem_range.mp (mem_coe.mp hi)
  have hj := mem_range.mp (mem_coe.mp hj)
  rw [entry_map _ hi, entry_map _ hj] at heq
  rw [← List.length_map (·.x)] at hi hj
  have hx : (params.map (·.x))[i] = (params.map (·.x))[j] := by simpa using heq
  exact distinct.getElem_inj_iff.mp hx

include plain in
theorem shareOf_getElem {i : ℕ} (hi : i < params.length) (f : F[X]) :
    params[i].shareOf f = f.eval (entry (params.map (·.x)) i) := by
  rw [Parameter.shareOf_of_rank_eq_zero (plain _ (List.getElem_mem hi)), entry_map _ hi]

include plain distinct le in
/-- **Plain positions** determine a polynomial: it has no more roots than its degree. -/
theorem determines_of_plain : Determines threshold params := by
  intro f hf hzero
  refine eq_zero_of_degree_lt_of_eval_index_eq_zero _ (injOn_entry_x distinct) ?_
    fun i hi => ?_
  · rw [card_range]
    exact hf.trans_le (by exact_mod_cast le)
  · have hi := mem_range.mp hi
    rw [← shareOf_getElem plain hi, hzero _ (List.getElem_mem hi)]

variable [DecidableEq F] (two_le : 2 ≤ threshold)

include plain distinct le two_le in
/-- **Plain positions** form a scheme. -/
theorem checkValid_of_plain : checkValid threshold params = .ok () := by
  refine checkValid_eq_ok_iff.mpr ⟨two_le, le, distinct, ?_, determines_of_plain plain distinct le⟩
  refine findExcess_sortedRanks_eq_none_iff.mpr fun place rank hrank => ?_
  obtain ⟨p, hp, rfl⟩ := List.mem_map.mp (List.mem_mergeSort.mp (List.mem_of_getElem? hrank))
  rw [plain p hp]
  exact Nat.zero_le place

/-! ## The factors -/

include plain distinct le in
/-- The first columns of the transposed system are independent: no combination of as many values
as coefficients is zero for every polynomial. -/
theorem rank_secretEquations_of_plain :
    (rowReduce threshold (secretEquations threshold params)).rank = threshold := by
  refine (rank_rowReduce_eq_iff (length_secretEquations threshold params) threshold).mpr ?_
  intro v hv i hi
  set x : Fin threshold → F := fun i => entry (params.map (·.x)) i with hx
  have hinjective : Function.Injective x := fun i j heq =>
    Fin.ext (injOn_entry_x distinct (by simpa using i.isLt.trans_le le)
      (by simpa using j.isLt.trans_le le) heq)
  have hzero : (fun i : Fin threshold => v i) = 0 := by
    refine Matrix.eq_zero_of_forall_pow_sum_mul_pow_eq_zero hinjective fun j => ?_
    -- The equation of a coefficient is made of the values of a power.
    rw [← hv _ (mem_secretEquations.mpr ⟨j, j.isLt, rfl⟩), valueAt,
      ← Fin.sum_univ_eq_sum_range (fun i => entry _ i * v i)]
    refine sum_congr rfl fun i _ => ?_
    have hi : (i : ℕ) < params.length := i.isLt.trans_le le
    rw [entry_append_of_lt _ _ (by simpa using hi), entry_map _ hi,
      ← Parameter.shareOf_X_pow _ threshold j.isLt, shareOf_getElem plain hi, eval_pow, eval_X,
      mul_comm]
  exact congrFun hzero ⟨i, hi⟩

include plain distinct le in
/-- **Only the first positions are needed**: the elimination ends with them. -/
theorem rowReduce_secretEquations_of_plain :
    rowReduce params.length (secretEquations threshold params) =
      rowReduce threshold (secretEquations threshold params) := by
  -- There are as many pivot rows as rows.
  have hcount : (secretEquations threshold params).length = threshold := by
    simp [secretEquations]
  have hrank := rank_secretEquations_of_plain plain distinct le
  exact rowReduce_of_rest_eq_nil le (rest_rowReduce_eq_nil (hrank.trans hcount.symm))

include plain distinct le two_le in
/-- **The factors of plain positions** are Lagrange's coefficients at zero for the first of them, as
many as the threshold, and zero for all others. -/
theorem secretCoefficients_of_plain :
    secretCoefficients threshold params = .ok ((List.range params.length).map fun i =>
      if i < threshold then lagrangeAtZero threshold (entry (params.map (·.x))) i else 0) := by
  have hvalid := checkValid_of_plain plain distinct le two_le
  have hfactors := secretCoefficients_eq_ok hvalid
  have hreduced := isReduced_rowReduce (length_secretEquations threshold params) threshold
  rw [rowReduce_secretEquations_of_plain plain distinct le] at hfactors
  set factor := (rowReduce threshold (secretEquations threshold params)).solution params.length
  rw [hfactors]
  refine congrArg Except.ok (List.map_congr_left fun i hi => ?_)
  have hlater : ∀ j, threshold ≤ j → factor j = 0 := fun j hj =>
    hreduced.solution_eq_zero hj _
  split
  case isFalse h => exact hlater i (Nat.le_of_not_lt h)
  case isTrue h =>
    -- The factors find the value at zero of the polynomial that singles out one coordinate.
    have hinjective : Set.InjOn (entry (params.map (·.x))) (range threshold) :=
      (injOn_entry_x distinct).mono (by simpa using le)
    have hmem : i ∈ range threshold := mem_range.mpr h
    have hdegree : (Lagrange.basis (range threshold) (entry (params.map (·.x))) i).degree <
        threshold := by
      rw [Lagrange.degree_basis hinjective hmem, card_range]
      exact_mod_cast (by omega : threshold - 1 < threshold)
    have hdot := dot_secretCoefficients hfactors hdegree (by omega)
    rw [eval_zero_basis, dot_eq_sum (by simp : _ ≤ params.length)] at hdot
    rw [← hdot, sum_eq_single i]
    · have hi := List.mem_range.mp hi
      rw [entry_map_range _ _ hi, entry_map _ hi, shareOf_getElem plain hi,
        Lagrange.eval_basis_self hinjective hmem, mul_one]
    · intro j hj hne
      have hj := mem_range.mp hj
      rw [entry_map_range _ _ hj, entry_map _ hj, shareOf_getElem plain hj]
      rcases Nat.lt_or_ge j threshold with hlt | hge
      · rw [Lagrange.eval_basis_of_ne (Ne.symm hne) (mem_range.mpr hlt), mul_zero]
      · rw [hlater j hge, zero_mul]
    · exact fun hout => absurd (mem_range.mpr (List.mem_range.mp hi)) hout

end Plain

/-- Three plain positions, one of them at zero, for a threshold of two: the last is not needed. -/
theorem secretCoefficients_of_plain_secp256k1 :
    let params : List (Parameter Curve.secp256k1.Scalar) := [⟨0, 0⟩, ⟨2, 0⟩, ⟨3, 0⟩]
    secretCoefficients 2 params = .ok ((List.range 3).map fun i =>
      if i < 2 then lagrangeAtZero 2 (entry (params.map (·.x))) i else 0) :=
  secretCoefficients_of_plain (by decide) (by decide +kernel) (by decide) (by decide)

/-- Lagrange's coefficients at zero for the coordinates one, two and three. -/
example : secretCoefficients 3 ([⟨1, 0⟩, ⟨2, 0⟩, ⟨3, 0⟩] : List (Parameter Curve.secp256k1.Scalar)) =
    .ok [3, -3, 1] := by decide +kernel

end RankedKeys
