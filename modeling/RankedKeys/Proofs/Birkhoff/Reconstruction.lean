import RankedKeys.Proofs.Birkhoff.Scheme

/-!
# Reconstruction from the positions

Whatever the positions are, looking for the factors of the shares either fails as the checks of the
positions fail, or gives factors that find the constant term of every polynomial with the right
number of coefficients. The search for the factors has a fault of its own, a system without a
solution, which positions that pass the checks never show.

## Main definitions

* `Reconstructs threshold params`: what the factors and the reconstruction do at some positions

## Main results

* `checkValid_ne_inconsistent`: the checks do not report a system without a solution
* `reconstructs_of_positions`: the factors and the reconstruction do so at all positions
-/

namespace RankedKeys

open Polynomial

variable {F : Type} [Field F]

/-- The other faults of a scheme are worded differently from a system without a solution. -/
theorem Singularity.message_ne_inconsistent {fault : Singularity} (h : fault ≠ .inconsistent) :
    fault.message ≠ Singularity.inconsistent.message := by
  intro heq
  have hhead := congrArg (·.toList.head?) heq
  cases fault with
  | rankTooHigh rank position => simp [Singularity.message, toString] at hhead
  | rankDeficient rank threshold => simp [Singularity.message, toString] at hhead
  | inconsistent => exact h rfl

theorem Singularity.error_ne_inconsistent {fault : Singularity} (h : fault ≠ .inconsistent) :
    fault.error ≠ Singularity.inconsistent.error := by
  intro heq
  rw [Singularity.error, Singularity.error, Error.singularScheme.injEq] at heq
  exact message_ne_inconsistent h heq

/-- The shares that the evaluation of coefficients gives are those of their polynomial. -/
theorem map_evaluate_eq (params : List (Parameter F)) (coefficients : List F) :
    params.map (·.evaluate coefficients) = params.map (·.shareOf (polynomialOf coefficients)) := by
  simp only [Parameter.evaluate_eq_shareOf]

section Reconstruction

variable [DecidableEq F] {threshold : ℕ} {params : List (Parameter F)}

/-- **What reconstruction owes** to a threshold and a list of positions. -/
structure Reconstructs (threshold : ℕ) (params : List (Parameter F)) : Prop where
  /-- Factors are found exactly where the checks pass; the fault is that of the checks otherwise. -/
  sound : (secretCoefficients threshold params).map (fun _ => ()) = checkValid threshold params
  /-- The system for the factors is never found to have no solution. -/
  solvable : secretCoefficients threshold params ≠ .error Singularity.inconsistent.error
  /-- There is one factor for each position. -/
  aligned : ∀ factors, secretCoefficients threshold params = .ok factors →
    factors.length = params.length
  /-- The factors give the value at zero of every polynomial from its derivatives. -/
  secret : ∀ factors, secretCoefficients threshold params = .ok factors →
    ∀ f : F[X], f.degree < threshold →
      (List.zipWith (fun c p => c * (derivative^[p.rank.toNat] f).eval p.x) factors params).sum =
        f.eval 0
  /-- The shares that coefficients deal give back the first of them if the checks pass. -/
  dealt : ∀ coefficients : List F, coefficients.length = threshold →
    reconstruct threshold params (params.map (·.evaluate coefficients)) =
      (checkValid threshold params).map fun _ => coefficients.headD 0
  /-- Any other number of shares than that of the positions is refused, whatever the positions. -/
  misaligned : ∀ shares : List F, shares.length ≠ params.length →
    reconstruct threshold params shares =
      .error (.invalidConfig s!"{shares.length} shares for {params.length} BK parameters")

theorem checkValid_ne_inconsistent (threshold : ℕ) (params : List (Parameter F)) :
    checkValid threshold params ≠ .error Singularity.inconsistent.error := by
  rw [checkValid_eq]
  -- The first three faults are of other kinds.
  split
  · exact nofun
  split
  · exact nofun
  split
  · exact nofun
  split
  · exact fun h => Singularity.error_ne_inconsistent (by simp) (Except.error.inj h)
  split
  · exact nofun
  · exact fun h => Singularity.error_ne_inconsistent (by simp) (Except.error.inj h)

/-- A fault of the checks is a fault of the search for the factors. -/
theorem secretCoefficients_eq_error {e : Error} (h : checkValid threshold params = .error e) :
    secretCoefficients threshold params = .error e := by
  rw [secretCoefficients, h]
  rfl

theorem map_secretCoefficients (threshold : ℕ) (params : List (Parameter F)) :
    (secretCoefficients threshold params).map (fun _ => ()) = checkValid threshold params := by
  cases h : checkValid threshold params with
  | ok u => rw [secretCoefficients_eq_ok h, Except.map]
  | error e => rw [secretCoefficients_eq_error h, Except.map]

/-- The factors against the derivatives of a polynomial at the positions. -/
theorem sum_derivatives {factors : List F} (h : secretCoefficients threshold params = .ok factors)
    {f : F[X]} (hf : f.degree < threshold) :
    (List.zipWith (fun c p => c * (derivative^[p.rank.toNat] f).eval p.x) factors params).sum =
      f.eval 0 := by
  have hvalid := checkValid_of_secretCoefficients h
  have hpos : 0 < threshold := by
    have := (checkValid_eq_ok_iff.mp hvalid).1
    omega
  rw [← dot_secretCoefficients h hf hpos, dot_eq_sum_zipWith, List.zipWith_map_right]
  rfl

/-- Shares that coefficients deal are reconstructed, or refused with the fault of the checks. -/
theorem reconstruct_evaluate {coefficients : List F} (hlength : coefficients.length = threshold) :
    reconstruct threshold params (params.map (·.evaluate coefficients)) =
      (checkValid threshold params).map fun _ => coefficients.headD 0 := by
  cases h : checkValid threshold params with
  | ok u =>
    have hdegree := degree_polynomialOf_lt coefficients
    rw [hlength] at hdegree
    rw [map_evaluate_eq, reconstruct_eq_ok h hdegree, eval_zero_polynomialOf]
    cases coefficients <;> rfl
  | error e =>
    rw [reconstruct, ensureAligned, if_pos (List.length_map _), secretCoefficients_eq_error h]
    rfl

/-- **Reconstruction is correct** for every list of positions and every threshold: positions that
pass the checks have factors that find the value at zero of every polynomial, and the shares of a
polynomial give it back, however many positions there are and whatever their ranks. -/
theorem reconstructs_of_positions (threshold : ℕ) (params : List (Parameter F)) :
    Reconstructs threshold params where
  sound := map_secretCoefficients threshold params
  solvable := by
    intro h
    have hsound := map_secretCoefficients threshold params
    rw [h] at hsound
    exact checkValid_ne_inconsistent threshold params hsound.symm
  aligned factors h := length_secretCoefficients h
  secret factors h f hf := sum_derivatives h hf
  dealt coefficients hlength := reconstruct_evaluate hlength
  misaligned shares hlength := by
    rw [reconstruct, ensureAligned, if_neg hlength]
    rfl

end Reconstruction

end RankedKeys
