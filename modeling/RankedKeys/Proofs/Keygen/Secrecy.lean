import Mathlib.Algebra.Polynomial.BigOperators
import RankedKeys.Proofs.Curve.Secp256k1
import RankedKeys.Proofs.Keygen.Guards

/-!
# What few shares say about a secret

A party of rank zero gets the value of the dealer's polynomial at its own coordinate. For fewer of
them than the polynomial has coefficients there is a polynomial that vanishes at all their
coordinates and not at zero, because the first round takes no contribution at the coordinate zero.
Its multiples can be added to the dealer's polynomial without a change to any of their shares, and
lead to every secret. So what these parties are dealt is the same for all secrets.

## Main definitions

* `mask coordinates`: a polynomial that is one at zero and zero at some coordinates

## Main results

* `exists_coefficients`: another secret with the same values at few coordinates
* `Round.Keeps.foldlM`: what the rounds have recorded after some messages
* `Round.exists_alike_of_plain`: few parties of rank zero are dealt the same for every secret
-/

namespace RankedKeys

open Polynomial

/-! ## Masks -/

section Mask

variable {F : Type} [Field F] {coordinates : List F}

/-- **A mask** of some coordinates: the product of `1 - X / x` over all of them. -/
noncomputable def mask (coordinates : List F) : F[X] :=
  (coordinates.map fun x => C x⁻¹ * (C x - X)).prod

theorem eval_zero_mask (nonzero : ∀ x ∈ coordinates, x ≠ 0) : (mask coordinates).eval 0 = 1 := by
  rw [mask, eval_list_prod, List.map_map]
  refine List.prod_eq_one fun v hv => ?_
  obtain ⟨x, hx, rfl⟩ := List.mem_map.mp hv
  simp [nonzero x hx]

theorem eval_mask {x : F} (hx : x ∈ coordinates) : (mask coordinates).eval x = 0 := by
  rw [mask, eval_list_prod, List.map_map]
  refine List.prod_eq_zero (List.mem_map.mpr ⟨x, hx, ?_⟩)
  simp

theorem degree_mask_le : (mask coordinates).degree ≤ coordinates.length := by
  induction coordinates with
  | nil => simp [mask]
  | cons x coordinates ih =>
    have hfactor : (C x⁻¹ * (C x - X)).degree ≤ 1 := by
      compute_degree
    rw [mask, List.map_cons, List.prod_cons, List.length_cons, Nat.cast_succ, add_comm]
    exact (degree_mul_le _ _).trans (add_le_add hfactor ih)

/-- **Another secret**, with the same values at few coordinates that are not zero. -/
theorem exists_coefficients (nonzero : ∀ x ∈ coordinates, x ≠ 0) {coefficients : List F}
    (few : coordinates.length < coefficients.length) (secret : F) :
    ∃ others : List F, others.length = coefficients.length ∧ others.head? = some secret ∧
      ∀ x ∈ coordinates, (polynomialOf others).eval x = (polynomialOf coefficients).eval x := by
  set f := polynomialOf coefficients
  set g := f + C (secret - f.eval 0) * mask coordinates with hg
  have hdegree : g.degree < coefficients.length := by
    refine (degree_add_le _ _).trans_lt (max_lt (degree_polynomialOf_lt _) ?_)
    calc (C (secret - f.eval 0) * mask coordinates).degree
        ≤ (C (secret - f.eval 0)).degree + (mask coordinates).degree := degree_mul_le _ _
      _ ≤ 0 + coordinates.length := add_le_add degree_C_le degree_mask_le
      _ < coefficients.length := by rw [zero_add]; exact_mod_cast few
  have hzero : g.coeff 0 = secret := by
    rw [coeff_zero_eq_eval_zero, hg, eval_add, eval_mul, eval_C, eval_zero_mask nonzero]
    ring
  refine ⟨(List.range coefficients.length).map g.coeff, by simp, ?_, fun x hx => ?_⟩
  · obtain ⟨n, hn⟩ : ∃ n, coefficients.length = n + 1 := ⟨coefficients.length - 1, by omega⟩
    rw [hn, List.range_succ_eq_map, List.map_cons, List.head?_cons, hzero]
  · rw [polynomialOf_map_coeff hdegree, hg, eval_add, eval_mul, eval_mask hx, mul_zero, add_zero]

end Mask

variable {c : Curve}

namespace Round

variable {d : Dealer c} {round round' : Round c} {received : Roster (PeerCommit c)}

/-- **What the rounds have recorded** stays in order while messages are taken in. -/
theorem Keeps.foldlM (h : round.Keeps d) {messages : List KeygenMessage}
    (taken : messages.foldlM Round.handle round = .ok round') : round'.Keeps d := by
  induction messages generalizing round with
  | nil =>
    cases taken
    exact h
  | cons m messages ih =>
    rw [List.foldlM_cons] at taken
    obtain ⟨next, hnext, taken⟩ := bind_eq_ok_iff.mp taken
    exact ih (h.handle (handle_eq_ok_iff.mp hnext)) taken

/-- The parties that are dealt a share by a polynomial do not depend on it. -/
theorem closeCommits_withPolynomial {closing : Closing (Round c) KeygenMessage (KeyShare c)}
    (close : (commits d received).close = .ok closing) (others : List c.Scalar) :
    closing.outbox = dealt d received ∧ ∃ later,
      (commits { d with polynomial := others } received).close =
        .ok ⟨dealt { d with polynomial := others } received, .next later⟩ := by
  obtain ⟨hvalid, rfl⟩ := closeCommits_eq_ok_iff.mp close
  refine ⟨rfl, _, closeCommits_eq_ok_iff.mpr ⟨?_, rfl⟩⟩
  -- Of a party's own contribution only the position counts.
  rw [Roster.map_insert] at hvalid ⊢
  exact hvalid

variable [Fact c.order.Prime]

/-- **Few parties of rank zero** learn nothing about the secret from what they are dealt. Whatever
messages the first round has taken, for every secret there is a polynomial with that constant term
whose values at their positions are the same; and where the dealer ends the round, it would have
sent them the same messages with that polynomial. Their coordinates need not be different, and the
other peers may have any rank. -/
theorem exists_alike_of_plain {messages : List KeygenMessage}
    (taken : messages.foldlM Round.handle (commits d .empty) = .ok (commits d received))
    (length : d.polynomial.length = d.threshold) {coalition : List PartyId}
    (few : coalition.length < d.threshold)
    (plain : ∀ id ∈ coalition, ∀ commit, received.find? id = some commit →
      commit.position.rank = 0) (secret : c.Scalar) :
    ∃ others : List c.Scalar, others.length = d.threshold ∧ others.head? = some secret ∧
      (∀ id ∈ coalition, ∀ commit, received.find? id = some commit →
        commit.position.evaluate others = commit.position.evaluate d.polynomial) ∧
      ∀ closing, (commits d received).close = .ok closing →
        ∃ closing', (commits { d with polynomial := others } received).close = .ok closing' ∧
          closing'.outbox.filter (·.1 ∈ coalition) = closing.outbox.filter (·.1 ∈ coalition) := by
  have initial : (commits d .empty).Keeps d := .commits nofun
  have peers : ∀ id commit, received.find? id = some commit → d.WellFormed id commit := by
    cases initial.foldlM taken with
    | commits peers => exact peers
  set coordinates := (coalition.filterMap received.find?).map (·.position.x)
  have hfew : coordinates.length < d.polynomial.length := by
    rw [length]
    exact ((List.length_map _).trans_le (List.length_filterMap_le _ _)).trans_lt few
  -- The first round has taken no contribution at the coordinate zero.
  have hnonzero : ∀ x ∈ coordinates, x ≠ 0 := by
    intro x hx
    obtain ⟨commit, hcommit, rfl⟩ := List.mem_map.mp hx
    obtain ⟨id, -, hfind⟩ := List.mem_filterMap.mp hcommit
    exact (peers id commit hfind).coordinate
  obtain ⟨others, hlength, hsecret, hvalues⟩ := exists_coefficients hnonzero hfew secret
  have halike : ∀ id ∈ coalition, ∀ commit, received.find? id = some commit →
      commit.position.evaluate others = commit.position.evaluate d.polynomial := by
    intro id hid commit hfind
    have hrank := plain id hid commit hfind
    rw [Parameter.evaluate_eq_shareOf, Parameter.evaluate_eq_shareOf,
      Parameter.shareOf_of_rank_eq_zero hrank, Parameter.shareOf_of_rank_eq_zero hrank]
    exact hvalues _ (List.mem_map.mpr ⟨commit, List.mem_filterMap.mpr ⟨id, hid, hfind⟩, rfl⟩)
  refine ⟨others, hlength.trans length, hsecret, halike, fun closing hclose => ?_⟩
  obtain ⟨houtbox, later, hlater⟩ := closeCommits_withPolynomial hclose others
  refine ⟨_, hlater, ?_⟩
  rw [houtbox, dealt, dealt, List.filter_map, List.filter_map]
  refine List.map_congr_left fun e he => ?_
  obtain ⟨hmem, hid⟩ := List.mem_filter.mp he
  have hfind : received.find? e.1 = some e.2 := Roster.find?_eq_some_iff.mpr hmem
  simp only [Dealer.shareMessage, halike e.1 (by simpa using hid) e.2 hfind]

end Round

section ThreeParties

/-- The dealer of the first of three parties of threshold three. -/
def firstOfThree : Dealer .secp256k1 :=
  { firstOfTwo with
    config := { firstOfTwo.config with partyIds := ["a", "b", "c"], threshold := 3 }
    polynomial := [11, 12, 13]
    peerCount := 2 }

/-- What a peer of rank zero sends it in the first round. -/
def commitToFirst (sender : PartyId) (x : Curve.secp256k1.Scalar)
    (commitments : List (Point .secp256k1)) : CommitMessage where
  sender
  sessionId := firstOfThree.config.sessionId
  coordinate := Curve.scalarBytes x
  rank := 0
  commitments := commitments.map Point.toBytes

/-- The other two parties get the same shares for another secret. -/
theorem exists_alike_of_plain_secp256k1 :
    ∃ others : List Curve.secp256k1.Scalar, others.length = 3 ∧ others.head? = some 99 ∧
      (Parameter.mk 6 0).evaluate others = (Parameter.mk 6 0).evaluate [11, 12, 13] ∧
      (Parameter.mk 7 0).evaluate others = (Parameter.mk 7 0).evaluate [11, 12, 13] := by
  let g := Curve.secp256k1.generator
  have collects : Collects (·.sender) firstOfThree.acceptCommit
      [commitToFirst "b" 6 [g, g, g], commitToFirst "c" 7 [g, g, 0]]
      ((Roster.empty.insert "b" ⟨⟨6, 0⟩, [g, g, g]⟩).insert "c" ⟨⟨7, 0⟩, [g, g, 0]⟩) :=
    .snoc (.snoc .nil nofun (by decide +kernel)) (by decide +kernel) (by decide +kernel)
  obtain ⟨others, length, head, alike, -⟩ := Round.exists_alike_of_plain
    (Dealer.foldlM_handle_commits collects) rfl
    (show ["b", "c"].length < firstOfThree.threshold by decide) (by decide +kernel) 99
  exact ⟨others, length, head, alike "b" (by decide) ⟨⟨6, 0⟩, [g, g, g]⟩ (by decide +kernel),
    alike "c" (by decide) ⟨⟨7, 0⟩, [g, g, 0]⟩ (by decide +kernel)⟩

end ThreeParties

end RankedKeys
