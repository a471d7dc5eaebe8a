import Mathlib.Algebra.BigOperators.Fin
import RankedKeys.Birkhoff.Scheme
import RankedKeys.Proofs.Birkhoff.Derivative

/-!
# What a ranked sharing scheme determines

The row reduction of the matrix of some positions finds as many pivots as there are coefficients
exactly when the shares at the positions determine the polynomial. Two systems are solved from
there: the transposed one for the factors of the shares in the constant term, which has a solution
whenever the shares determine the polynomial, and the plain one for the polynomial itself, which
has a solution exactly when the shares lie on a polynomial.

## Main definitions

* `Determines threshold params`: the shares at some positions determine the polynomial
* `dealtSpace threshold params`: the vectors of the shares of a polynomial and its constant term

## Main results

* `determines_iff`: the same in terms of the equations of the rows
* `checkValid_eq`, `checkValid_eq_ok_iff`: the checks of a scheme in their order
* `secretCoefficients_eq_ok`, `dot_secretCoefficients`: the factors exist for every scheme, and give
  the constant term of every polynomial from its shares
* `interpolate_eq_ok`, `interpolate_eq_error`: interpolation finds the polynomial that deals the
  shares, and refuses shares that no polynomial deals
* `exists_polynomial_of_length_eq`: as many shares as coefficients always lie on a polynomial
* `reconstruct_eq_ok`: reconstruction gives the constant term
-/

namespace RankedKeys

open Finset Polynomial

variable {F : Type} [Field F]

/-! ## Positions that determine a polynomial -/

/-- Whether the shares at some positions determine a polynomial with `threshold` coefficients: only
the zero polynomial deals zero to all of them. -/
def Determines (threshold : ℕ) (params : List (Parameter F)) : Prop :=
  ∀ f : F[X], f.degree < threshold → (∀ p ∈ params, p.shareOf f = 0) → f = 0

theorem valueAt_congr {n : ℕ} {v v' : ℕ → F} (h : ∀ j < n, v j = v' j) (row : List F) :
    valueAt n v row = valueAt n v' row :=
  sum_congr rfl fun j hj => by rw [h j (mem_range.mp hj)]

theorem degree_polynomialOf_map_range_lt (v : ℕ → F) (n : ℕ) :
    (polynomialOf ((List.range n).map v)).degree < n := by
  simpa using degree_polynomialOf_lt ((List.range n).map v)

/-- Unknowns are the coefficients of a polynomial. -/
theorem Parameter.valueAt_row_eq_shareOf (p : Parameter F) (v : ℕ → F) (n : ℕ) :
    valueAt n v (p.row n) = p.shareOf (polynomialOf ((List.range n).map v)) := by
  rw [← p.valueAt_row n (degree_polynomialOf_map_range_lt v n)]
  refine valueAt_congr (fun j hj => ?_) _
  rw [coeff_polynomialOf, entry_map_range v n hj]

theorem length_birkhoffMatrix (threshold : ℕ) (params : List (Parameter F)) :
    ∀ row ∈ birkhoffMatrix threshold params, row.length = threshold := by
  intro row h
  obtain ⟨p, -, rfl⟩ := List.mem_map.mp h
  exact p.length_row threshold

variable {threshold : ℕ} {params : List (Parameter F)}

/-- **Positions determine a polynomial** exactly if no unknowns but zero solve the equations of their
rows. -/
theorem determines_iff : Determines threshold params ↔ ∀ v : ℕ → F,
    (∀ p ∈ params, valueAt threshold v (p.row threshold) = 0) → ∀ j < threshold, v j = 0 := by
  constructor
  · intro h v hv j hj
    -- Unknowns that solve the system are the coefficients of a polynomial without shares.
    have hzero : polynomialOf ((List.range threshold).map v) = 0 := by
      apply h _ (degree_polynomialOf_map_range_lt v threshold)
      intro p hp
      rw [← p.valueAt_row_eq_shareOf v threshold, hv p hp]
    rw [← entry_map_range v threshold hj, ← coeff_polynomialOf, hzero, coeff_zero]
  · intro h f hf hzero
    -- The coefficients of such a polynomial are unknowns that solve the system.
    have hcoeff : ∀ j < threshold, f.coeff j = 0 := by
      apply h f.coeff
      intro p hp
      rw [p.valueAt_row threshold hf, hzero p hp]
    ext j
    rw [coeff_zero]
    by_cases hj : j < threshold
    · exact hcoeff j hj
    · exact (degree_lt_iff_coeff_zero f threshold).mp hf j (Nat.le_of_not_lt hj)

section Checks

variable [DecidableEq F]

/-- **The rank of the matrix** tells whether the positions determine the polynomial. -/
theorem rank_birkhoffMatrix_eq_iff :
    (rowReduce threshold (birkhoffMatrix threshold params)).rank = threshold ↔
      Determines threshold params := by
  rw [rank_rowReduce_eq_iff (length_birkhoffMatrix threshold params), determines_iff]
  simp only [birkhoffMatrix, List.forall_mem_map]

/-! ## The checks -/

/-- **The checks of a scheme**, in the order in which they are made. -/
theorem checkValid_eq (threshold : ℕ) (params : List (Parameter F)) :
    checkValid threshold params =
      if threshold < minThreshold then .error (.invalidThreshold threshold)
      else if params.length < threshold then .error (.thresholdNotMet threshold params.length)
      else if ¬ (params.map (·.x)).Nodup then .error .duplicateCoordinate
      else
        match findExcess 0 (sortedRanks params) with
        | some (rank, place) => .error (Singularity.rankTooHigh rank place).error
        | none =>
          if (rowReduce threshold (birkhoffMatrix threshold params)).rank = threshold then .ok ()
          else .error (Singularity.rankDeficient
            (rowReduce threshold (birkhoffMatrix threshold params)).rank threshold).error := by
  unfold checkValid ensureThreshold
  split
  · rfl
  · split
    · rfl
    · by_cases hnodup : (params.map (·.x)).Nodup
      · simp only [hnodup, not_true, if_false]
        cases h : findExcess 0 (sortedRanks params) with
        | none =>
          by_cases hrank : (rowReduce threshold (birkhoffMatrix threshold params)).rank = threshold
          · simp only [hrank, ne_eq, not_true, if_false, if_true]
            rfl
          · simp only [hrank, ne_eq, not_false_eq_true, if_false, if_true]
            rfl
        | some q => rfl
      · simp only [hnodup, not_false_eq_true, if_true]
        rfl

theorem checkValid_eq_ok_iff :
    checkValid threshold params = .ok () ↔
      2 ≤ threshold ∧ threshold ≤ params.length ∧ (params.map (·.x)).Nodup ∧
        findExcess 0 (sortedRanks params) = none ∧ Determines threshold params := by
  rw [checkValid_eq, ← rank_birkhoffMatrix_eq_iff]
  by_cases hmin : threshold < minThreshold
  · simp only [if_pos hmin]
    have : ¬ 2 ≤ threshold := Nat.not_le.mpr hmin
    simp [this]
  · by_cases hlength : params.length < threshold
    · simp [hmin, hlength, Nat.not_le.mpr hlength]
    · have hmin' : 2 ≤ threshold := Nat.le_of_not_lt hmin
      rw [if_neg hmin, if_neg hlength]
      by_cases hnodup : (params.map (·.x)).Nodup
      · cases findExcess 0 (sortedRanks params) <;>
          simp [hnodup, hmin', Nat.le_of_not_lt hlength]
      · simp [hnodup]

theorem determines_of_checkValid (h : checkValid threshold params = .ok ()) :
    Determines threshold params :=
  (checkValid_eq_ok_iff.mp h).2.2.2.2

end Checks

/-! ## The factors of the shares -/

theorem entry_map (f : Parameter F → F) {i : ℕ} (hi : i < params.length) :
    entry (params.map f) i = f params[i] := by
  simp [entry, List.getD_eq_getElem?_getD, hi]

/-- The vectors whose first entries are the shares of a polynomial at some positions, followed by
its constant term. -/
def dealtSpace (threshold : ℕ) (params : List (Parameter F)) : Submodule F (ℕ → F) where
  carrier := {x | ∃ f : F[X], f.degree < threshold ∧
    (∀ i (hi : i < params.length), x i = params[i].shareOf f) ∧ x params.length = f.eval 0}
  zero_mem' := ⟨0, by simp, by simp, by simp⟩
  add_mem' := by
    rintro x y ⟨f, hf, hfi, hf0⟩ ⟨g, hg, hgi, hg0⟩
    refine ⟨f + g, (degree_add_le f g).trans_lt (max_lt hf hg), fun i hi => ?_, ?_⟩
    · rw [Pi.add_apply, hfi i hi, hgi i hi, Parameter.shareOf_add]
    · rw [Pi.add_apply, hf0, hg0, eval_add]
  smul_mem' := by
    rintro a x ⟨f, hf, hfi, hf0⟩
    refine ⟨C a * f, ?_, fun i hi => ?_, ?_⟩
    · refine (degree_lt_iff_coeff_zero _ _).mpr fun j hj => ?_
      rw [coeff_C_mul, (degree_lt_iff_coeff_zero f threshold).mp hf j hj, mul_zero]
    · rw [Pi.smul_apply, smul_eq_mul, hfi i hi, Parameter.shareOf_C_mul]
    · rw [Pi.smul_apply, smul_eq_mul, hf0, eval_mul, eval_C]

theorem length_secretEquations (threshold : ℕ) (params : List (Parameter F)) :
    ∀ row ∈ secretEquations threshold params, row.length = params.length + 1 := by
  intro row h
  obtain ⟨j, -, rfl⟩ := List.mem_map.mp h
  simp [birkhoffMatrix]

theorem mem_secretEquations {row : List F} :
    row ∈ secretEquations threshold params ↔
      ∃ j < threshold, row =
        params.map (fun p => entry (p.row threshold) j) ++ [if j = 0 then 1 else 0] := by
  simp only [secretEquations, birkhoffMatrix, List.mem_map, List.mem_range, List.map_map]
  exact ⟨fun ⟨j, hj, h⟩ => ⟨j, hj, h.symm⟩, fun ⟨j, hj, h⟩ => ⟨j, hj, h.symm⟩⟩

/-- The equation of a coefficient is made of the shares of a monomial. -/
theorem rowSpace_secretEquations_le :
    rowSpace (secretEquations threshold params) ≤ dealtSpace threshold params := by
  refine rowSpace_le_iff.mpr fun row hrow => ?_
  obtain ⟨j, hj, rfl⟩ := mem_secretEquations.mp hrow
  -- Every entry of the equation is the share of one monomial, and so is the constant term.
  have hdegree : (X ^ j : F[X]).degree < threshold :=
    (degree_X_pow_le j).trans_lt (by exact_mod_cast hj)
  refine ⟨X ^ j, hdegree, fun i hi => ?_, ?_⟩
  · rw [entry_append_of_lt _ _ (by simpa using hi), entry_map _ hi,
      Parameter.shareOf_X_pow _ threshold hj]
  · rw [entry_append_last (List.length_map _), eval_pow, eval_X]
    by_cases hj0 : j = 0 <;> simp [hj0]

section Factors

variable [DecidableEq F]

/-- The transposed system never contradicts itself if the positions determine the polynomial. -/
theorem rest_secretEquations_eq_zero (h : Determines threshold params) :
    ∀ row ∈ (rowReduce params.length (secretEquations threshold params)).rest,
      entry row params.length = 0 := by
  intro row hrow
  have hwidth := length_secretEquations threshold params
  -- A row that is left consists of the shares of a polynomial, and these are all zero.
  have hmem : entry row ∈ rowSpace (secretEquations threshold params) := by
    rw [← rowSpace_rowReduce hwidth params.length]
    exact entry_mem_rowSpace (Echelon.mem_rows.mpr (Or.inr hrow))
  obtain ⟨f, hf, hshare, hconstant⟩ := rowSpace_secretEquations_le hmem
  have hzero : f = 0 := by
    apply h f hf
    intro p hp
    obtain ⟨i, hi, rfl⟩ := List.getElem_of_mem hp
    rw [← hshare i hi]
    exact (isReduced_rowReduce hwidth params.length).rest_zero row hrow i hi
  rw [hconstant, hzero, eval_zero]

/-- **The factors exist** for every scheme: they are the solution of the transposed system. -/
theorem secretCoefficients_eq_ok (h : checkValid threshold params = .ok ()) :
    secretCoefficients threshold params = .ok ((List.range params.length).map
      ((rowReduce params.length (secretEquations threshold params)).solution params.length)) := by
  have hrest := rest_secretEquations_eq_zero (determines_of_checkValid h)
  have hany : (rowReduce params.length (secretEquations threshold params)).rest.any
      (entry · params.length ≠ 0) = false := by
    simpa using hrest
  simp only [secretCoefficients, h, hany]
  rfl

/-- Factors are only found for a scheme. -/
theorem checkValid_of_secretCoefficients {factors : List F}
    (h : secretCoefficients threshold params = .ok factors) :
    checkValid threshold params = .ok () := by
  cases hc : checkValid threshold params with
  | ok u => rfl
  | error e =>
    simp only [secretCoefficients, hc] at h
    cases h

/-- What the factors satisfy: against a column of the matrix they give one for the constant term
and zero for the other coefficients. -/
theorem sum_secretCoefficients {factors : List F}
    (h : secretCoefficients threshold params = .ok factors) {j : ℕ} (hj : j < threshold) :
    ∑ i ∈ range params.length,
      entry factors i * entry (params.map fun p => entry (p.row threshold) j) i =
        if j = 0 then 1 else 0 := by
  have hvalid := checkValid_of_secretCoefficients h
  rw [secretCoefficients_eq_ok hvalid] at h
  cases h
  -- The factors are the solution that is read off, and this is the equation of coefficient `j`.
  have hsolves := valueAt_solution_rowReduce (length_secretEquations threshold params)
    (rest_secretEquations_eq_zero (determines_of_checkValid hvalid))
    (mem_secretEquations.mpr ⟨j, hj, rfl⟩)
  rw [entry_append_last (List.length_map _)] at hsolves
  rw [← hsolves, valueAt]
  refine sum_congr rfl fun i hi => ?_
  have hi := mem_range.mp hi
  rw [entry_map_range _ _ hi, entry_append_of_lt _ _ (by simpa using hi), mul_comm]

theorem length_secretCoefficients {factors : List F}
    (h : secretCoefficients threshold params = .ok factors) : factors.length = params.length := by
  rw [secretCoefficients_eq_ok (checkValid_of_secretCoefficients h)] at h
  cases h
  simp

/-- **The factors give the constant term** of every polynomial from its shares. -/
theorem dot_secretCoefficients {factors : List F}
    (h : secretCoefficients threshold params = .ok factors) {f : F[X]} (hf : f.degree < threshold)
    (hpos : 0 < threshold) : dot factors (params.map (·.shareOf f)) = f.eval 0 := by
  rw [dot_eq_sum (length_secretCoefficients h).le]
  -- Exchange the sums over positions and coefficients: the factors single out the constant term.
  calc ∑ i ∈ range params.length, entry factors i * entry (params.map (·.shareOf f)) i
      = ∑ i ∈ range params.length, ∑ j ∈ range threshold, f.coeff j *
          (entry factors i * entry (params.map fun p => entry (p.row threshold) j) i) := by
        refine sum_congr rfl fun i hi => ?_
        have hi := mem_range.mp hi
        rw [entry_map _ hi, ← Parameter.valueAt_row _ threshold hf, valueAt, mul_sum]
        refine sum_congr rfl fun j _ => ?_
        rw [entry_map _ hi]
        ring
    _ = ∑ j ∈ range threshold, f.coeff j * if j = 0 then 1 else 0 := by
        rw [sum_comm]
        refine sum_congr rfl fun j hj => ?_
        rw [← mul_sum, sum_secretCoefficients h (mem_range.mp hj)]
    _ = f.eval 0 := by
        simp [hpos, coeff_zero_eq_eval_zero]

end Factors

/-! ## The polynomial of the shares -/

/-- The rows of the positions, each with its share behind it. -/
def shareEquations (threshold : ℕ) (params : List (Parameter F)) (shares : List F) :
    List (List F) :=
  List.zipWith (fun row share => row ++ [share]) (birkhoffMatrix threshold params) shares

theorem length_shareEquations (threshold : ℕ) (params : List (Parameter F)) (shares : List F) :
    ∀ row ∈ shareEquations threshold params shares, row.length = threshold + 1 := by
  intro row h
  obtain ⟨i, hi, rfl⟩ := List.getElem_of_mem h
  simp [shareEquations, birkhoffMatrix]

/-- A polynomial solves the equations exactly when it deals the shares. -/
theorem forall_mem_shareEquations_iff {shares : List F} (hlength : shares.length = params.length)
    {f : F[X]} (hf : f.degree < threshold) :
    (∀ row ∈ shareEquations threshold params shares,
      valueAt threshold f.coeff row = entry row threshold) ↔ params.map (·.shareOf f) = shares := by
  induction params generalizing shares with
  | nil =>
    cases shares with
    | nil => simp [shareEquations, birkhoffMatrix]
    | cons share shares => simp at hlength
  | cons p params ih =>
    cases shares with
    | nil => simp at hlength
    | cons share shares =>
      -- The first equation is that of the first share.
      have htail := @ih shares (by simpa using hlength)
      have hrow := p.length_row threshold
      have hhead : valueAt threshold f.coeff (p.row threshold ++ [share]) = p.shareOf f := by
        rw [← p.valueAt_row threshold hf]
        refine sum_congr rfl fun j hj => ?_
        rw [entry_append_of_lt _ _ (hrow.symm ▸ mem_range.mp hj)]
      have hlast : entry (p.row threshold ++ [share]) threshold = share :=
        entry_append_last hrow share
      have hcons : shareEquations threshold (p :: params) (share :: shares) =
          (p.row threshold ++ [share]) :: shareEquations threshold params shares := rfl
      rw [hcons, List.forall_mem_cons, hhead, hlast, htail, List.map_cons, List.cons.injEq]

section Interpolation

variable [DecidableEq F] {shares : List F}

theorem rank_shareEquations (hlength : shares.length = params.length)
    (h : Determines threshold params) :
    (rowReduce threshold (shareEquations threshold params shares)).rank = threshold := by
  refine (rank_rowReduce_eq_iff (length_shareEquations threshold params shares) threshold).mpr ?_
  intro v hv j hj
  -- The shares stand behind the matrix, so that the unknowns solve the same rows.
  have hrank := (rank_rowReduce_eq_iff (length_birkhoffMatrix threshold params) threshold).mp
    (rank_birkhoffMatrix_eq_iff.mpr h)
  refine hrank v (fun row hrow => ?_) j hj
  obtain ⟨i, hi, rfl⟩ := List.getElem_of_mem hrow
  have hwidth : (birkhoffMatrix threshold params)[i].length = threshold :=
    length_birkhoffMatrix threshold params _ hrow
  have hi' : i < params.length := by simpa [birkhoffMatrix] using hi
  have hmem : (birkhoffMatrix threshold params)[i] ++ [shares[i]] ∈
      shareEquations threshold params shares := by
    refine List.mem_iff_getElem.mpr ⟨i, ?_, ?_⟩
    · simp only [shareEquations, List.length_zipWith, hlength]
      exact lt_min hi hi'
    · simp [shareEquations]
  rw [← hv _ hmem]
  refine sum_congr rfl fun k hk => ?_
  rw [entry_append_of_lt _ _ (hwidth.symm ▸ mem_range.mp hk)]

theorem interpolate_eq (hlength : shares.length = params.length)
    (h : checkValid threshold params = .ok ()) :
    interpolate threshold params shares =
      if ∀ row ∈ (rowReduce threshold (shareEquations threshold params shares)).rest,
          entry row threshold = 0 then
        .ok ((List.range threshold).map
          ((rowReduce threshold (shareEquations threshold params shares)).solution threshold))
      else .error (.verificationFailed "shares do not lie on a single polynomial") := by
  -- Every column has a pivot, so that the pivot rows list the whole solution.
  have hred := isReduced_rowReduce (length_shareEquations threshold params shares) threshold
  have hpivots := hred.map_entry_pivots (rank_shareEquations hlength (determines_of_checkValid h))
  rw [← hpivots]
  have haligned : ensureAligned shares params = .ok () := by
    simp [ensureAligned, hlength]
  simp only [interpolate, haligned, h]
  by_cases hrest : ∀ row ∈ (rowReduce threshold (shareEquations threshold params shares)).rest,
      entry row threshold = 0
  · have hany : (rowReduce threshold (shareEquations threshold params shares)).rest.any
        (entry · threshold ≠ 0) = false := by simpa using hrest
    rw [if_pos hrest]
    simp only [shareEquations] at hany
    simp only [shareEquations, bind, Except.bind, hany]
    rfl
  · have hany : (rowReduce threshold (shareEquations threshold params shares)).rest.any
        (entry · threshold ≠ 0) = true := by simpa using hrest
    rw [if_neg hrest]
    simp only [shareEquations] at hany
    simp only [bind, Except.bind, hany]
    rfl

/-- The rows that are left agree exactly with shares that lie on a polynomial. -/
theorem rest_shareEquations_eq_zero_iff (hlength : shares.length = params.length) :
    (∀ row ∈ (rowReduce threshold (shareEquations threshold params shares)).rest,
      entry row threshold = 0) ↔
        ∃ f : F[X], f.degree < threshold ∧ params.map (·.shareOf f) = shares := by
  rw [rest_rowReduce_eq_zero_iff (length_shareEquations threshold params shares)]
  constructor
  · rintro ⟨v, hv⟩
    -- The unknowns that solve the system are the coefficients of the polynomial.
    have hdegree := degree_polynomialOf_map_range_lt v threshold
    refine ⟨_, hdegree, (forall_mem_shareEquations_iff hlength hdegree).mp fun row hrow => ?_⟩
    rw [← hv row hrow]
    refine valueAt_congr (fun j hj => ?_) row
    rw [coeff_polynomialOf, entry_map_range v threshold hj]
  · rintro ⟨f, hf, hshares⟩
    exact ⟨f.coeff, (forall_mem_shareEquations_iff hlength hf).mpr hshares⟩

/-- **Interpolation** finds the coefficients of a polynomial that deals the shares. -/
theorem interpolate_eq_ok (hlength : shares.length = params.length)
    (h : checkValid threshold params = .ok ()) {f : F[X]} (hf : f.degree < threshold)
    (hshares : params.map (·.shareOf f) = shares) :
    interpolate threshold params shares = .ok ((List.range threshold).map f.coeff) := by
  rw [interpolate_eq hlength h,
    if_pos ((rest_shareEquations_eq_zero_iff hlength).mpr ⟨f, hf, hshares⟩)]
  refine congrArg Except.ok (List.map_congr_left fun j hj => ?_)
  exact (eq_solution_rowReduce (length_shareEquations threshold params shares)
    (rank_shareEquations hlength (determines_of_checkValid h))
    ((forall_mem_shareEquations_iff hlength hf).mpr hshares) (List.mem_range.mp hj)).symm

/-- Shares that lie on no polynomial are refused. -/
theorem interpolate_eq_error (hlength : shares.length = params.length)
    (h : checkValid threshold params = .ok ())
    (hshares : ¬ ∃ f : F[X], f.degree < threshold ∧ params.map (·.shareOf f) = shares) :
    interpolate threshold params shares =
      .error (.verificationFailed "shares do not lie on a single polynomial") := by
  rw [interpolate_eq hlength h, if_neg (mt (rest_shareEquations_eq_zero_iff hlength).mp hshares)]

/-- **As many shares as coefficients** always lie on a polynomial: no row is left over. -/
theorem exists_polynomial_of_length_eq (hlength : shares.length = params.length)
    (h : Determines threshold params) (ht : params.length = threshold) :
    ∃ f : F[X], f.degree < threshold ∧ params.map (·.shareOf f) = shares := by
  refine (rest_shareEquations_eq_zero_iff hlength).mp ?_
  -- There are as many pivot rows as rows.
  have hrank := rank_shareEquations hlength h
  have hcount : (shareEquations threshold params shares).length = threshold := by
    simp [shareEquations, birkhoffMatrix, hlength, ht]
  simp [rest_rowReduce_eq_nil (hrank.trans hcount.symm)]

omit [DecidableEq F] in
/-- Two polynomials that deal the same shares to a scheme are equal. -/
theorem Determines.eq_of_shares_eq (h : Determines threshold params) {f g : F[X]}
    (hf : f.degree < threshold) (hg : g.degree < threshold)
    (heq : ∀ p ∈ params, p.shareOf f = p.shareOf g) : f = g := by
  refine sub_eq_zero.mp (h (f - g) ?_ fun p hp => ?_)
  · exact (degree_sub_le f g).trans_lt (max_lt hf hg)
  · rw [p.shareOf_sub, heq p hp, sub_self]

end Interpolation

/-! ## Reconstruction -/

section Reconstruction

variable [DecidableEq F] {shares : List F}

/-- Reconstruction applies the factors to the shares. -/
theorem reconstruct_eq {factors : List F} (hlength : shares.length = params.length)
    (h : secretCoefficients threshold params = .ok factors) :
    reconstruct threshold params shares = .ok (dot factors shares) := by
  rw [reconstruct, h, ensureAligned, if_pos hlength]
  rfl

/-- **Reconstruction** gives the constant term of a polynomial that deals the shares. -/
theorem reconstruct_eq_ok (h : checkValid threshold params = .ok ()) {f : F[X]}
    (hf : f.degree < threshold) :
    reconstruct threshold params (params.map (·.shareOf f)) = .ok (f.eval 0) := by
  have hpos : 0 < threshold := by
    have := (checkValid_eq_ok_iff.mp h).1
    omega
  have hfactors := secretCoefficients_eq_ok h
  rw [reconstruct_eq (by simp) hfactors, dot_secretCoefficients hfactors hf hpos]

end Reconstruction

end RankedKeys
