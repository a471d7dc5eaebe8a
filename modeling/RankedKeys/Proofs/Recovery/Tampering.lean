import Mathlib.LinearAlgebra.Lagrange
import RankedKeys.Proofs.Recovery.Exactness

/-!
# Tampered shares

A share that has been changed is noticed unless the shares are then those of another polynomial
with the same constant term, and the key that is recovered is the right one even so. With no share
to spare that happens exactly if the share has no weight in the constant term; it never happens
where all ranks are zero and no coordinate is.

## Main definitions

* `dealt f positions`: the shares of a polynomial at some positions
* `tamper i d peers`: the shares with `d` added to the one in place `i`

## Main results

* `exists_deals_iff_of_length_eq`, `not_exists_deals_of_ranks_eq_zero`: when some polynomial
  explains the tampered shares
* `recoverKey_tampered`: when a tampered share is noticed
-/

namespace RankedKeys

open Polynomial

section Shares

variable {F : Type} [Field F] {threshold : ℕ} {positions : List (Parameter F)} {f g : F[X]}
  {i : ℕ} {d : F}

/-- The shares of a polynomial at some positions. -/
noncomputable def dealt (f : F[X]) (positions : List (Parameter F)) : List (RankedShare F) :=
  positions.map fun p => ⟨p.shareOf f, p⟩

/-- Adds to the share in one place. -/
def tamper (i : ℕ) (d : F) (peers : List (RankedShare F)) : List (RankedShare F) :=
  peers.modify i fun peer => { peer with share := peer.share + d }

/-- The shares at some positions are those of a polynomial given by its coefficients. -/
theorem dealt_polynomialOf (coefficients : List F) (positions : List (Parameter F)) :
    dealt (polynomialOf coefficients) positions =
      positions.map fun p => ⟨p.evaluate coefficients, p⟩ :=
  List.map_congr_left fun p _ => by rw [p.evaluate_eq_shareOf]

@[simp] theorem length_tamper_dealt :
    (tamper i d (dealt f positions)).length = positions.length := by
  simp [tamper, dealt]

theorem getElem_tamper_dealt {j : ℕ} (hj : j < positions.length)
    (hj' : j < (tamper i d (dealt f positions)).length) :
    (tamper i d (dealt f positions))[j] =
      ⟨positions[j].shareOf f + if j = i then d else 0, positions[j]⟩ := by
  simp only [tamper, dealt, List.getElem_modify, List.getElem_map]
  by_cases hij : i = j
  · simp [hij]
  · simp [hij, Ne.symm hij]

theorem position_tamper_dealt :
    (tamper i d (dealt f positions)).map (·.position) = positions := by
  refine List.ext_getElem (by simp) fun j hj hj' => ?_
  rw [List.getElem_map, getElem_tamper_dealt hj' (by simpa using hj')]

/-- A polynomial deals the tampered shares if its shares differ from the dealt ones in the one
place. -/
theorem deals_tamper_iff : Deals threshold g (tamper i d (dealt f positions)) ↔
    g.degree < threshold ∧ ∀ j (hj : j < positions.length),
      positions[j].shareOf (g - f) = if j = i then d else 0 := by
  refine and_congr_right fun _ => ?_
  rw [List.forall_mem_iff_getElem]
  simp only [length_tamper_dealt]
  refine forall₂_congr fun j hj => ?_
  rw [getElem_tamper_dealt hj (by simpa using hj), Parameter.shareOf_sub, sub_eq_iff_eq_add',
    eq_comm]

section Difference

variable [DecidableEq F] {h : F[X]} (hh : h.degree < threshold)
  (hshares : ∀ j (hj : j < positions.length), positions[j].shareOf h = if j = i then d else 0)

include hh hshares

/-- With a single share that is not zero, the constant term is that share times its factor. -/
theorem eval_zero_eq_entry_mul {factors : List F} (hpos : 0 < threshold)
    (hfactors : secretCoefficients threshold positions = .ok factors) (hi : i < positions.length) :
    h.eval 0 = entry factors i * d := by
  rw [← dot_secretCoefficients hfactors hh hpos, dot_eq_sum (length_secretCoefficients hfactors).le,
    Finset.sum_eq_single i]
  · rw [entry_map _ hi, hshares i hi, if_pos rfl]
  · intro j hj hij
    rw [entry_map _ (Finset.mem_range.mp hj), hshares j (Finset.mem_range.mp hj), if_neg hij,
      mul_zero]
  · exact fun h => absurd (Finset.mem_range.mpr hi) h

/-- With plain shares only, at distinct coordinates that are not zero, a polynomial without
constant term has one root more than there are shares that are zero. -/
theorem eq_zero_of_ranks_eq_zero (hle : threshold ≤ positions.length)
    (hnodup : (positions.map (·.x)).Nodup) (hplain : ∀ p ∈ positions, p.rank = 0 ∧ p.x ≠ 0)
    (hi : i < positions.length) (hzero : h.eval 0 = 0) : h = 0 := by
  set others := ((positions.map (·.x)).eraseIdx i).toFinset with hothers
  have hcard : others.card = positions.length - 1 := by
    rw [List.toFinset_card_of_nodup (hnodup.sublist (List.eraseIdx_sublist _ _)),
      List.length_eraseIdx_of_lt (by simpa using hi), List.length_map]
  have hmem : ∀ x, x ∈ others ↔ ∃ j, ∃ hj : j < positions.length, j ≠ i ∧ positions[j].x = x := by
    intro x
    rw [hothers, List.mem_toFinset, List.mem_eraseIdx_iff_getElem]
    simp only [List.getElem_map, List.length_map]
  have hnot : (0 : F) ∉ others := by
    intro h0
    obtain ⟨j, hj, -, hx⟩ := (hmem 0).mp h0
    exact (hplain _ (List.getElem_mem hj)).2 hx
  -- The roots are zero and the coordinates of all shares but one.
  refine eq_zero_of_degree_lt_of_eval_finset_eq_zero (insert 0 others) ?_ fun x hx => ?_
  · rw [Finset.card_insert_of_notMem hnot, hcard]
    exact hh.trans_le (by exact_mod_cast (by omega : threshold ≤ positions.length - 1 + 1))
  · rcases Finset.mem_insert.mp hx with rfl | hx
    · exact hzero
    · obtain ⟨j, hj, hji, rfl⟩ := (hmem x).mp hx
      have hshare := hshares j hj
      rw [if_neg hji, Parameter.shareOf, (hplain _ (List.getElem_mem hj)).1] at hshare
      exact hshare

end Difference

end Shares

section Recovery

variable {c : Curve} [c.Lawful]

section Explained

variable {threshold : ℕ} {positions : List (Parameter c.Scalar)} {f : c.Scalar[X]}
  {key : PublicKey c} {i : ℕ} {d : c.Scalar} (hvalid : checkValid threshold positions = .ok ())

include hvalid

theorem checkValid_tamper_dealt :
    checkValid threshold ((tamper i d (dealt f positions)).map (·.position)) = .ok () := by
  rwa [position_tamper_dealt]

section Key

variable (hkey : f.eval 0 • c.generator = Point.affine key)

include hkey

omit hvalid in
/-- The public key tells the constant term. -/
theorem eval_zero_smul_eq_iff {g : c.Scalar[X]} :
    g.eval 0 • c.generator = Point.affine key ↔ g.eval 0 = f.eval 0 := by
  rw [← hkey, smul_generator_inj]

/-- A tampered share goes unnoticed if some polynomial explains the shares. -/
theorem recoverKey_tamper_eq_error_iff :
    recoverKey threshold key (tamper i d (dealt f positions)) = .error .publicKeyMismatch ↔
      ¬ ∃ g : c.Scalar[X], Deals threshold g (tamper i d (dealt f positions)) ∧
        g.eval 0 = f.eval 0 := by
  rw [recoverKey_eq_error_iff (checkValid_tamper_dealt hvalid)]
  simp only [and_true, eval_zero_smul_eq_iff hkey]

/-- The answer is the right key even so. -/
theorem recoverKey_tamper_eq_ok {g : c.Scalar[X]}
    (hg : Deals threshold g (tamper i d (dealt f positions))) (heq : g.eval 0 = f.eval 0) :
    recoverKey threshold key (tamper i d (dealt f positions)) = .ok (f.eval 0) :=
  (recoverKey_eq_ok_iff (checkValid_tamper_dealt hvalid)).mpr
    ⟨g, hg, (eval_zero_smul_eq_iff hkey).mpr heq, heq.symm⟩

end Key

variable (hf : f.degree < threshold) (hi : i < positions.length) (hd : d ≠ 0)

include hf hi hd

/-- **With no share to spare** some polynomial deals the tampered shares, and its constant term
differs by the weight of the changed share. -/
theorem exists_deals_iff_of_length_eq (hlength : positions.length = threshold)
    {factors : List c.Scalar} (hfactors : secretCoefficients threshold positions = .ok factors) :
    (∃ g : c.Scalar[X], Deals threshold g (tamper i d (dealt f positions)) ∧
      g.eval 0 = f.eval 0) ↔ entry factors i = 0 := by
  obtain ⟨two_le, -, -, -, determined⟩ := checkValid_eq_ok_iff.mp hvalid
  -- As many shares as coefficients lie on a polynomial, whatever they are.
  obtain ⟨g, hg, hshares⟩ : ∃ g : c.Scalar[X], g.degree < threshold ∧
      positions.map (·.shareOf g) = (tamper i d (dealt f positions)).map (·.share) :=
    exists_polynomial_of_length_eq (by simp) determined hlength
  have hdeals : Deals threshold g (tamper i d (dealt f positions)) :=
    deals_iff.mpr ⟨hg, by rw [position_tamper_dealt, hshares]⟩
  have hsub : (g - f).degree < threshold := (degree_sub_le g f).trans_lt (max_lt hg hf)
  -- It differs from the dealt one in one share only, which enters the constant term by its factor.
  have heval := eval_zero_eq_entry_mul hsub (deals_tamper_iff.mp hdeals).2 (by omega) hfactors hi
  rw [eval_sub, sub_eq_iff_eq_add'] at heval
  have hconstant : g.eval 0 = f.eval 0 ↔ entry factors i = 0 := by
    rw [heval, add_eq_left, mul_eq_zero_iff_right hd]
  rw [← hconstant]
  constructor
  · rintro ⟨g', hg', heq⟩
    exact Deals.unique (checkValid_tamper_dealt hvalid) hg' hdeals ▸ heq
  · exact fun heq => ⟨g, hdeals, heq⟩

/-- **Plain shares** at coordinates that are not zero: the difference of two polynomials that both
explain all shares but one would have too many roots. -/
theorem not_exists_deals_of_ranks_eq_zero (hplain : ∀ p ∈ positions, p.rank = 0 ∧ p.x ≠ 0) :
    ¬ ∃ g : c.Scalar[X], Deals threshold g (tamper i d (dealt f positions)) ∧
      g.eval 0 = f.eval 0 := by
  rintro ⟨g, hdeals, heq⟩
  obtain ⟨-, le, hnodup, -, -⟩ := checkValid_eq_ok_iff.mp hvalid
  obtain ⟨hg, hshares⟩ := deals_tamper_iff.mp hdeals
  have hsub : (g - f).degree < threshold := (degree_sub_le g f).trans_lt (max_lt hg hf)
  have hzero : g - f = 0 := eq_zero_of_ranks_eq_zero hsub hshares le hnodup hplain hi
    (by rw [eval_sub, heq, sub_self])
  have hshare := hshares i hi
  rw [hzero, Parameter.shareOf_zero, if_pos rfl] at hshare
  exact hd hshare.symm

end Explained

/-- **Tampered shares**: the shares of a polynomial are refused after `d` was added to one of
them, unless they are then the shares of another polynomial with the same constant term; and then
the answer is still the right key. With no share to spare, the changed share goes unnoticed
exactly if its factor in the constant term is zero. Where all ranks are zero and no coordinate is,
every change is noticed. -/
theorem recoverKey_tampered {threshold : ℕ} {positions : List (Parameter c.Scalar)}
    {f : c.Scalar[X]} {key : PublicKey c} {i : ℕ} {d : c.Scalar}
    (hvalid : checkValid threshold positions = .ok ()) (hf : f.degree < threshold)
    (hkey : f.eval 0 • c.generator = Point.affine key) (hi : i < positions.length) (hd : d ≠ 0) :
    let answer := recoverKey threshold key (tamper i d (dealt f positions))
    (answer = .error .publicKeyMismatch ∨ answer = .ok (f.eval 0)) ∧
      (answer = .error .publicKeyMismatch ↔
        ¬ ∃ g : c.Scalar[X], Deals threshold g (tamper i d (dealt f positions)) ∧
          g.eval 0 = f.eval 0) ∧
      (positions.length = threshold → ∀ factors,
        secretCoefficients threshold positions = .ok factors →
          (answer = .error .publicKeyMismatch ↔ entry factors i ≠ 0)) ∧
      ((∀ p ∈ positions, p.rank = 0 ∧ p.x ≠ 0) → answer = .error .publicKeyMismatch) := by
  intro answer
  have herror := recoverKey_tamper_eq_error_iff (i := i) (d := d) hvalid hkey
  refine ⟨?_, herror, fun hlength factors hfactors => ?_, fun hplain => ?_⟩
  · by_cases hg : ∃ g : c.Scalar[X], Deals threshold g (tamper i d (dealt f positions)) ∧
      g.eval 0 = f.eval 0
    · obtain ⟨g, hg, heq⟩ := hg
      exact .inr (recoverKey_tamper_eq_ok hvalid hkey hg heq)
    · exact .inl (herror.mpr hg)
  · rw [herror, exists_deals_iff_of_length_eq hvalid hf hi hd hlength hfactors]
  · exact herror.mpr (not_exists_deals_of_ranks_eq_zero hvalid hf hi hd hplain)

/-- Three plain shares of `1 + 5·x`, the last of them changed. -/
theorem recoverKey_tampered_secp256k1 :
    let positions : List (Parameter Curve.secp256k1.Scalar) := [⟨1, 0⟩, ⟨2, 0⟩, ⟨3, 0⟩]
    recoverKey 2 secp256k1Key (tamper 2 7 (dealt (polynomialOf [1, 5]) positions)) =
      .error .publicKeyMismatch := by
  intro positions
  have hkey : (polynomialOf ([1, 5] : List Curve.secp256k1.Scalar)).eval 0 •
      Curve.secp256k1.generator = Point.affine secp256k1Key := by
    rw [eval_zero_polynomialOf, entry_cons_zero, one_smul, generator_secp256k1]
  have hvalid : checkValid 2 positions = .ok () := by decide +kernel
  have hseven : (7 : Curve.secp256k1.Scalar) ≠ 0 := by decide +kernel
  exact (recoverKey_tampered hvalid (degree_polynomialOf_lt [1, 5]) hkey
    (by decide : 2 < positions.length) hseven).2.2.2 (by decide +kernel)

/-- **A change that goes unnoticed**: the positions `(1, 0)`, `(4, 0)` and `(2, 1)` form a scheme
of threshold three, in which the constant term is the share at `4` less four times the derivative
at `2`, so that the share at `1` has no weight. -/
theorem recoverKey_tampered_unnoticed :
    let positions : List (Parameter Curve.secp256k1.Scalar) := [⟨1, 0⟩, ⟨4, 0⟩, ⟨2, 1⟩]
    let f : Curve.secp256k1.Scalar[X] := polynomialOf [1, 0, 0]
    checkValid 3 positions = .ok () ∧ f.degree < (3 : ℕ) ∧ f.eval 0 ≠ 0 ∧
      f.eval 0 • Curve.secp256k1.generator = Point.affine secp256k1Key ∧
      (1 : Curve.secp256k1.Scalar) ≠ 0 ∧
      recoverKey 3 secp256k1Key (tamper 0 1 (dealt f positions)) = .ok 1 := by
  intro positions f
  have hone : f.eval 0 = 1 := by
    rw [eval_zero_polynomialOf, entry_cons_zero]
  refine ⟨by decide +kernel, degree_polynomialOf_lt [1, 0, 0], ?_, ?_, one_ne_zero, ?_⟩
  · rw [hone]
    exact one_ne_zero
  · rw [hone, one_smul, generator_secp256k1]
  · rw [dealt_polynomialOf]
    decide +kernel

end Recovery

end RankedKeys
