import RankedKeys.Proofs.Birkhoff.Scheme
import RankedKeys.Proofs.Curve.Secp256k1

/-!
# Interpolation of all shares

Interpolation solves the system of all positions, reconstruction the transposed system for the
factors of the constant term. For a scheme the first has a solution exactly if some coefficients
have all the shares as their derivatives, and it is the only one then; the factors find its constant
term whether they make use of all shares or not.

## Main definitions

* `PassesThrough threshold params shares coefficients`: the coefficients of a polynomial that has
  some shares at some positions

## Main results

* `passesThrough_iff`: such coefficients are those of a polynomial that deals the shares
* `interpolate_exact`: interpolation finds the only such coefficients, and fails if there are none
-/

namespace RankedKeys

open Polynomial

variable {F : Type} [Field F]

/-- Coefficients, as many as the threshold asks for, that have some shares as their derivatives at
some positions. -/
structure PassesThrough (threshold : ℕ) (params : List (Parameter F)) (shares : List F)
    (coefficients : List F) : Prop where
  length : coefficients.length = threshold
  evaluate : params.map (·.evaluate coefficients) = shares

variable {threshold : ℕ} {params : List (Parameter F)} {shares coefficients : List F}

/-- **Coefficients pass through shares** if they are those of a polynomial that deals them. -/
theorem passesThrough_iff : PassesThrough threshold params shares coefficients ↔
    ∃ f : F[X], f.degree < threshold ∧ params.map (·.shareOf f) = shares ∧
      coefficients = (List.range threshold).map f.coeff := by
  constructor
  · rintro ⟨rfl, rfl⟩
    exact ⟨polynomialOf coefficients, degree_polynomialOf_lt coefficients,
      by simp only [Parameter.evaluate_eq_shareOf], (map_coeff_polynomialOf coefficients).symm⟩
  · rintro ⟨f, hf, rfl, rfl⟩
    refine ⟨by simp, ?_⟩
    simp only [Parameter.evaluate_eq_shareOf, polynomialOf_map_coeff hf]

theorem exists_passesThrough_iff : (∃ coefficients, PassesThrough threshold params shares
    coefficients) ↔ ∃ f : F[X], f.degree < threshold ∧ params.map (·.shareOf f) = shares := by
  simp only [passesThrough_iff]
  constructor
  · rintro ⟨_, f, hf, hshares, -⟩
    exact ⟨f, hf, hshares⟩
  · rintro ⟨f, hf, hshares⟩
    exact ⟨_, f, hf, hshares, rfl⟩

/-- The shares of a scheme determine the coefficients. -/
theorem PassesThrough.unique (h : Determines threshold params) {other : List F}
    (through : PassesThrough threshold params shares coefficients)
    (through' : PassesThrough threshold params shares other) : coefficients = other := by
  obtain ⟨f, hf, hshares, rfl⟩ := passesThrough_iff.mp through
  obtain ⟨g, hg, hshares', rfl⟩ := passesThrough_iff.mp through'
  rw [h.eq_of_shares_eq hf hg (List.map_inj_left.mp (hshares.trans hshares'.symm))]

section Scheme

variable [DecidableEq F] (valid : checkValid threshold params = .ok ())

include valid

/-- What interpolation answers for a scheme. -/
theorem interpolate_of_passesThrough
    (through : PassesThrough threshold params shares coefficients) :
    interpolate threshold params shares = .ok coefficients := by
  obtain ⟨f, hf, rfl, rfl⟩ := passesThrough_iff.mp through
  exact interpolate_eq_ok (List.length_map _) valid hf rfl

theorem interpolate_of_not_passesThrough (aligned : shares.length = params.length)
    (h : ¬ ∃ coefficients, PassesThrough threshold params shares coefficients) :
    interpolate threshold params shares =
      .error (.verificationFailed "shares do not lie on a single polynomial") :=
  interpolate_eq_error aligned valid (mt exists_passesThrough_iff.mpr h)

/-- **Reconstruction** finds the constant term of the coefficients that pass through the shares. -/
theorem reconstruct_of_passesThrough
    (through : PassesThrough threshold params shares coefficients) :
    ∃ secret, coefficients.head? = some secret ∧
      reconstruct threshold params shares = .ok secret := by
  obtain ⟨f, hf, rfl, rfl⟩ := passesThrough_iff.mp through
  obtain ⟨two_le, -⟩ := checkValid_eq_ok_iff.mp valid
  refine ⟨f.eval 0, ?_, reconstruct_eq_ok valid hf⟩
  obtain ⟨n, rfl⟩ : ∃ n, threshold = n + 1 := ⟨threshold - 1, by omega⟩
  rw [List.range_succ_eq_map, List.map_cons, List.head?_cons, coeff_zero_eq_eval_zero]

/-- **Interpolation is exact** for every scheme and as many shares as positions: it finds the
coefficients that have all the shares as their derivatives, of which there are no two, and fails
with one error if there are none, which is never the case where there are as many shares as
coefficients. Reconstruction from the same shares agrees with it. -/
theorem interpolate_exact (aligned : shares.length = params.length) :
    (∀ coefficients, interpolate threshold params shares = .ok coefficients ↔
      PassesThrough threshold params shares coefficients) ∧
    (∀ coefficients other, PassesThrough threshold params shares coefficients →
      PassesThrough threshold params shares other → coefficients = other) ∧
    (∀ e, interpolate threshold params shares = .error e ↔
      e = .verificationFailed "shares do not lie on a single polynomial" ∧
        ¬ ∃ coefficients, PassesThrough threshold params shares coefficients) ∧
    (params.length = threshold →
      ∃ coefficients, PassesThrough threshold params shares coefficients) ∧
    (∀ coefficients, interpolate threshold params shares = .ok coefficients →
      ∃ secret, coefficients.head? = some secret ∧
        reconstruct threshold params shares = .ok secret) := by
  have determined := determines_of_checkValid valid
  -- Either some coefficients pass through the shares, or interpolation fails.
  have hok : ∀ coefficients, interpolate threshold params shares = .ok coefficients ↔
      PassesThrough threshold params shares coefficients := by
    refine fun coefficients => ⟨fun h => ?_, interpolate_of_passesThrough valid⟩
    by_contra hnot
    by_cases hexists : ∃ other, PassesThrough threshold params shares other
    · obtain ⟨other, hother⟩ := hexists
      rw [interpolate_of_passesThrough valid hother] at h
      exact hnot (Except.ok.inj h ▸ hother)
    · rw [interpolate_of_not_passesThrough valid aligned hexists] at h
      cases h
  refine ⟨hok, fun _ _ => PassesThrough.unique determined, fun e => ?_, fun hlength => ?_,
    fun _ h => reconstruct_of_passesThrough valid ((hok _).mp h)⟩
  · constructor
    · intro h
      have hnot : ¬ ∃ coefficients, PassesThrough threshold params shares coefficients := by
        rintro ⟨coefficients, hthrough⟩
        rw [(hok _).mpr hthrough] at h
        cases h
      rw [interpolate_of_not_passesThrough valid aligned hnot] at h
      exact ⟨(Except.error.inj h).symm, hnot⟩
    · rintro ⟨rfl, hnot⟩
      exact interpolate_of_not_passesThrough valid aligned hnot
  · exact exists_passesThrough_iff.mpr (exists_polynomial_of_length_eq aligned determined hlength)

end Scheme

/-- Two plain shares of `1 + 5·x` and one of its derivative, for a threshold of two: as they are,
and with the second one changed. -/
theorem interpolate_exact_secp256k1 :
    let params : List (Parameter Curve.secp256k1.Scalar) := [⟨1, 0⟩, ⟨2, 0⟩, ⟨3, 1⟩]
    checkValid 2 params = .ok () ∧
      interpolate 2 params [6, 11, 5] = .ok [1, 5] ∧
      reconstruct 2 params [6, 11, 5] = .ok 1 ∧
      ¬ ∃ coefficients, PassesThrough 2 params [6, 12, 5] coefficients := by
  intro params
  have hvalid : checkValid 2 params = .ok () := by decide +kernel
  have haligned : ([6, 11, 5] : List Curve.secp256k1.Scalar).length = params.length := rfl
  obtain ⟨hok, -, -, -, hsecret⟩ := interpolate_exact hvalid haligned
  have hanswer := (hok [1, 5]).mpr ⟨rfl, by decide +kernel⟩
  obtain ⟨secret, hhead, hreconstruct⟩ := hsecret _ hanswer
  obtain rfl : 1 = secret := Option.some.inj hhead
  refine ⟨hvalid, hanswer, hreconstruct, ?_⟩
  have haligned' : ([6, 12, 5] : List Curve.secp256k1.Scalar).length = params.length := rfl
  have hrefused : interpolate 2 params [6, 12, 5] =
      .error (.verificationFailed "shares do not lie on a single polynomial") := by decide +kernel
  exact (((interpolate_exact hvalid haligned').2.2.1 _).mp hrefused).2

end RankedKeys
