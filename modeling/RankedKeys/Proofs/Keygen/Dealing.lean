import Mathlib.RingTheory.Polynomial.Basic
import RankedKeys.Proofs.Curve.Encoding
import RankedKeys.Proofs.Keygen.Combination
import RankedKeys.Proofs.Keygen.Stage

/-!
# What honest parties deal

Parties that agree on the session take each other's messages: what is encoded is decoded again, and
a share that is dealt fits the commitments. Their polynomials add up to the common polynomial; the
sum of the shares that a party is dealt is its share of the common polynomial, and the partial keys
and the sum of the constant commitments belong to the same polynomial.

## Main definitions

* `Lineup.Agrees`: the parties agree on the session
* `Lineup.common`: the common polynomial
* `Lineup.partialKeysOf`: the partial keys of a polynomial

## Main results

* `Lineup.Agrees.honest`: parties that agree take each other's messages
* `Lineup.Agrees.constantSum_eq`, `Lineup.Agrees.find?_partialKeys`, `Lineup.Agrees.shareSum_eq`:
  the sums at the end of a run
* `Lineup.Agrees.closeShares_eq`, `Lineup.Agrees.closeShares_of_refresh`: the end of a run
-/

namespace RankedKeys

open Polynomial

variable {c : Curve}

namespace Lineup

/-- **Parties that agree** on the session, each with a polynomial and a position of its own. In a
refresh the polynomials have no constant term, and the positions are the previous ones. What is
forged is not what it stands for. -/
structure Agrees (l : Lineup c) (sessionId : SessionId) : Prop where
  nodup : l.ids.Nodup
  two_le : 2 ≤ l.ids.length
  threshold_pos : 0 < l.threshold
  selfId : ∀ id ∈ l.ids, (l.dealer id).config.selfId = id
  partyIds : ∀ id ∈ l.ids, l.ids ⊆ (l.dealer id).config.partyIds
  sessionId : ∀ id ∈ l.ids, (l.dealer id).config.sessionId = sessionId
  threshold : ∀ id ∈ l.ids, (l.dealer id).threshold = l.threshold
  peerCount : ∀ id ∈ l.ids, (l.dealer id).peerCount + 1 = l.ids.length
  polynomial : ∀ id ∈ l.ids, (l.dealer id).polynomial.length = l.threshold
  coordinate : ∀ id ∈ l.ids, (l.dealer id).position.x ≠ 0
  rank : ∀ id ∈ l.ids, (l.dealer id).position.rank.toNat < l.threshold
  isRefresh : ∀ id ∈ l.ids, ∀ x ∈ l.ids, (l.dealer x).isRefresh = (l.dealer id).isRefresh
  constant : ∀ id ∈ l.ids, (l.dealer id).isRefresh = true →
    (l.dealer id).polynomial.headD 0 = 0
  position : ∀ id ∈ l.ids, ∀ k, (l.dealer id).previous = some k → ∀ x ∈ l.ids,
    k.positions.find? x = some (l.dealer x).position
  spurious : ∀ id ∈ l.ids, ∀ x ∈ l.others id, ∀ bytes, l.forged x id = some bytes →
    bytes ≠ Curve.scalarBytes (l.shareFor id x)

variable {l : Lineup c} {id x : PartyId} {sessionId : SessionId}

theorem find?_committed (h : id ∈ l.ids) : l.committed.find? id = some (l.contribution id) := by
  rw [committed, Roster.find?_gather, if_pos h]

namespace Agrees

variable (agrees : l.Agrees sessionId)

include agrees

theorem length_commitments (hid : id ∈ l.ids) :
    (l.contribution id).commitments.length = l.threshold :=
  (List.length_map _).trans (agrees.polynomial id hid)

theorem isPeer (hid : id ∈ l.ids) (hx : x ∈ l.others id) :
    (l.dealer id).IsPeer (l.dealer x).config.selfId := by
  obtain ⟨hmem, hne⟩ := mem_others.mp hx
  rw [Dealer.IsPeer, agrees.selfId x hmem, agrees.selfId id hid]
  exact ⟨hne, agrees.partyIds id hid hmem⟩

variable [c.Lawful]

/-- What the messages of a refresh leave out is zero. -/
theorem replicate_omitted_append (hid : id ∈ l.ids) :
    List.replicate (l.dealer id).omitted 0 ++ (l.dealer id).commitments.drop (l.dealer id).omitted =
      (l.dealer id).commitments := by
  refine (l.dealer id).replicate_omitted_append fun refresh => ?_
  -- A refresh leaves out one commitment, that to a constant term of zero.
  have hconstant := agrees.constant id hid refresh
  have hlength := agrees.polynomial id hid
  have hpos := agrees.threshold_pos
  cases hpolynomial : (l.dealer id).polynomial with
  | nil =>
    rw [hpolynomial, List.length_nil] at hlength
    omega
  | cons a rest =>
    rw [hpolynomial] at hconstant
    exact congrArg some hconstant

/-- **A contribution** is accepted as it is announced. -/
theorem acceptsCommit [c.Smooth] (hid : id ∈ l.ids) (hx : x ∈ l.others id) :
    (l.dealer id).AcceptsCommit
      { sender := (l.dealer x).config.selfId
        sessionId := (l.dealer x).config.sessionId
        coordinate := Curve.scalarBytes (l.dealer x).position.x
        rank := (l.dealer x).position.rank
        commitments := ((l.dealer x).commitments.drop (l.dealer x).omitted).map Point.toBytes }
      (l.contribution x) := by
  obtain ⟨hmem, hne⟩ := mem_others.mp hx
  have homitted : (l.dealer x).omitted = (l.dealer id).omitted := by
    rw [Dealer.omitted, Dealer.omitted, agrees.isRefresh id hid x hmem]
  have hle : (l.dealer x).omitted ≤ l.threshold := by
    have := agrees.threshold_pos
    unfold Dealer.omitted
    split <;> omega
  refine ⟨agrees.isPeer hid hx, ?_, ?_, ?_,
    Curve.scalarOfBytes_scalarBytes _, agrees.coordinate x hmem, rfl, ?_, fun k hk => ?_⟩
  · exact (agrees.sessionId x hmem).trans (agrees.sessionId id hid).symm
  · -- as many commitments as the receiver expects
    have hlength : (l.dealer x).commitments.length = l.threshold :=
      agrees.length_commitments hmem
    rw [List.length_map, List.length_drop, hlength, agrees.threshold id hid, ← homitted]
    omega
  · -- the commitments, decoded
    refine ⟨(l.dealer x).commitments.drop (l.dealer x).omitted, ?_, ?_⟩
    · rw [mapM_eq_ok_iff, List.forall₂_map_left_iff, List.forall₂_same]
      exact fun p _ => Point.ofBytes_toBytes p
    · rw [← homitted]
      exact (agrees.replicate_omitted_append hmem).symm
  · rw [agrees.threshold id hid]
    exact agrees.rank x hmem
  · rw [agrees.selfId x hmem]
    exact agrees.position id hid k hk x hmem

theorem takesCommit [c.Smooth] (hid : id ∈ l.ids) (hx : x ∈ l.others id)
    (received : Roster (PeerCommit c)) :
    (Round.commits (l.dealer id) received).handle (l.letter .commits x id) =
      .ok (.commits (l.dealer id) (received.insert x (l.contribution x))) := by
  refine (Round.handle_eq_ok_iff.mpr (.commit (agrees.acceptsCommit hid hx))).trans ?_
  dsimp only
  rw [agrees.selfId x (mem_others.mp hx).1]

/-- **A share** fits the commitments of the dealer. -/
theorem acceptsShare (hid : id ∈ l.ids) (hx : x ∈ l.others id) :
    (l.dealer id).AcceptsShare l.committed
      { sender := (l.dealer x).config.selfId
        receiver := id
        sessionId := (l.dealer x).config.sessionId
        share := Curve.scalarBytes (l.shareFor id x) } (l.shareFor id x) := by
  obtain ⟨hmem, hne⟩ := mem_others.mp hx
  refine ⟨agrees.isPeer hid hx, ?_, ?_, Curve.scalarOfBytes_scalarBytes _, l.contribution x, ?_, ?_⟩
  · exact (agrees.sessionId x hmem).trans (agrees.sessionId id hid).symm
  · exact (agrees.selfId id hid).symm
  · rw [agrees.selfId x hmem]
    exact find?_committed hmem
  · -- the share is what the commitments combine to
    show _ = combine _ ((l.dealer x).polynomial.map (· • c.generator))
    rw [combine_commitments, agrees.threshold id hid, ← agrees.polynomial x hmem]
    rfl

theorem takesShare (hid : id ∈ l.ids) (hx : x ∈ l.others id) (received : Roster c.Scalar) :
    (Round.shares (l.dealer id) l.committed received).handle (l.letter .shares x id) =
      .ok (.shares (l.dealer id) l.committed (received.insert x (l.shareFor id x))) := by
  refine (Round.handle_eq_ok_iff.mpr (.share (agrees.acceptsShare hid hx))).trans ?_
  dsimp only
  rw [agrees.selfId x (mem_others.mp hx).1]

/-- **A forged share** does not. -/
theorem refusesForged (hid : id ∈ l.ids) (hx : x ∈ l.others id) {bytes : Bytes}
    (forged : l.forged x id = some bytes) (received : Roster c.Scalar) :
    (Round.shares (l.dealer id) l.committed received).handle (l.arrival .shares x id) =
      .error (complaint c x bytes) := by
  have hrefuses := Dealer.acceptShare_forged (agrees.acceptsShare hid hx)
    (agrees.spurious id hid x hx bytes forged)
  rw [arrival, forged]
  refine (Round.handle_share_of_acceptShare_eq_error hrefuses).trans ?_
  dsimp only
  rw [agrees.selfId x (mem_others.mp hx).1]

omit [c.Lawful] in
/-- Whether the parties agree does not depend on what is forged. -/
theorem withForged {forged : PartyId → PartyId → Option Bytes}
    (spurious : ∀ id ∈ l.ids, ∀ x ∈ l.others id, ∀ bytes, forged x id = some bytes →
      bytes ≠ Curve.scalarBytes (l.shareFor id x)) :
    ({ l with forged } : Lineup c).Agrees sessionId :=
  { agrees with spurious }

/-- **Parties that agree** are honest. -/
theorem honest [c.Smooth] : l.Honest where
  nodup := agrees.nodup
  two_le := agrees.two_le
  selfId := agrees.selfId
  threshold := agrees.threshold
  peerCount := agrees.peerCount
  takesCommit _ hid _ hx := agrees.takesCommit hid hx
  takesShare _ hid _ hx := agrees.takesShare hid hx
  refusesForged _ hid _ hx _ := agrees.refusesForged hid hx

end Agrees

/-! ## Sums over all parties -/

section Sums

variable [c.Lawful]

/-- The share of every party of a polynomial, times the generator. -/
noncomputable def partialKeysOf (l : Lineup c) (f : c.Scalar[X]) : Roster (Point c) :=
  .gather (fun id => (l.dealer id).position.shareOf f • c.generator) l.ids

theorem find?_partialKeysOf (f : c.Scalar[X]) (h : id ∈ l.ids) :
    (l.partialKeysOf f).find? id = some ((l.dealer id).position.shareOf f • c.generator) := by
  rw [partialKeysOf, Roster.find?_gather, if_pos h]

/-- **The common polynomial** is the sum of those of all parties. -/
noncomputable def common (l : Lineup c) : c.Scalar[X] :=
  (l.ids.map fun id => polynomialOf (l.dealer id).polynomial).sum

namespace Agrees

variable (agrees : l.Agrees sessionId)

include agrees

theorem combine_contribution (hid : id ∈ l.ids) (p : Parameter c.Scalar) :
    combine (p.row l.threshold) (l.contribution id).commitments =
      p.shareOf (polynomialOf (l.dealer id).polynomial) • c.generator := by
  rw [← agrees.polynomial id hid]
  exact combine_row_commitments p _

/-- **The constant commitments** add up to that of the common polynomial. -/
theorem constantSum_eq : Round.constantSum l.committed = l.common.eval 0 • c.generator := by
  have hperm := Roster.values_gather_perm l.contribution agrees.nodup
  rw [Round.constantSum, ← List.sum_eq_foldl, committed, (hperm.map _).sum_eq, common, eval_listSum,
    List.sum_smul, List.map_map, List.map_map, List.map_map]
  refine congrArg List.sum (List.map_congr_left fun id _ => ?_)
  simp only [Function.comp_apply, eval_zero_polynomialOf]
  show ((l.dealer id).polynomial.map (· • c.generator)).headD 0 = _
  cases (l.dealer id).polynomial with
  | nil => exact (zero_smul _ _).symm
  | cons a rest => rfl

/-- **The partial key** of every party belongs to its share of the common polynomial. -/
theorem find?_partialKeys (hid : id ∈ l.ids) (hx : x ∈ l.ids) :
    (Round.partialKeys (l.dealer id) l.committed).find? x =
      some ((l.dealer x).position.shareOf l.common • c.generator) := by
  have hperm := Roster.values_gather_perm l.contribution agrees.nodup
  -- The commitments are summed column by column, and all columns are full.
  have hlists : ∀ list ∈ l.committed.values.map (·.commitments), list.length = l.threshold := by
    intro list hlist
    obtain ⟨commit, hcommit, rfl⟩ := List.mem_map.mp hlist
    obtain ⟨y, hy, rfl⟩ := List.mem_map.mp (hperm.subset hcommit)
    exact agrees.length_commitments hy
  rw [Round.partialKeys, Roster.find?_map, find?_committed hx, Option.map_some,
    agrees.threshold id hid, combine_columnSums hlists (Parameter.length_row _ _), List.map_map,
    committed, (hperm.map _).sum_eq, List.map_map, common, Parameter.shareOf_sum_map, List.sum_smul,
    List.map_map]
  refine congrArg (fun list => some (List.sum list)) (List.map_congr_left fun y hy => ?_)
  exact agrees.combine_contribution hy _

/-- **The shares** that a party is dealt add up to its share of the common polynomial. -/
theorem shareSum_eq (hid : id ∈ l.ids) :
    Round.shareSum (l.dealer id) (l.dealtTo id) = (l.dealer id).position.shareOf l.common := by
  -- The party itself and its peers are all parties.
  have hothers : (l.others id).Nodup := agrees.nodup.filter _
  have hperm : (id :: l.others id).Perm l.ids := by
    rw [others, ← agrees.nodup.erase_eq_filter]
    exact (List.perm_cons_erase hid).symm
  have hvalues := Roster.values_gather_perm (l.shareFor id) hothers
  calc Round.shareSum (l.dealer id) (l.dealtTo id)
      = l.shareFor id id + (l.dealtTo id).values.sum := Round.shareSum_eq _ _
    _ = ((id :: l.others id).map (l.shareFor id)).sum := by
        rw [dealtTo, hvalues.sum_eq, List.map_cons, List.sum_cons]
    _ = (l.dealer id).position.shareOf l.common := by
        rw [(hperm.map _).sum_eq, common, Parameter.shareOf_sum_map]
        refine congrArg List.sum (List.map_congr_left fun y _ => ?_)
        exact Parameter.evaluate_eq_shareOf _ _

/-- **The end of the second round** of a key generation. -/
theorem closeShares_eq (hid : id ∈ l.ids) (generation : (l.dealer id).previous = none) :
    Round.closeShares (l.dealer id) l.committed (l.dealtTo id) =
      match (l.common.eval 0 • c.generator).key? with
      | none => .error (.verificationFailed "Public key is the identity")
      | some key => .ok ⟨[], .done ((l.dealer id).keyShare l.committed
          ((l.dealer id).position.shareOf l.common) key
          (Round.partialKeys (l.dealer id) l.committed))⟩ := by
  -- The only thing that can go wrong is that the constant terms cancel out.
  have houtcome : Round.outcome (l.dealer id) l.committed (l.dealtTo id) = _ :=
    Round.outcome_of_generation generation
  rw [agrees.constantSum_eq, agrees.shareSum_eq hid] at houtcome
  cases hkey : (l.common.eval 0 • c.generator).key? with
  | none =>
    rw [hkey] at houtcome
    rw [Round.closeShares, houtcome]
    rfl
  | some key =>
    rw [hkey] at houtcome
    refine Round.closeShares_eq_ok_iff.mpr ⟨_, _, _, houtcome, ?_, rfl⟩
    rw [agrees.selfId id hid]
    exact agrees.find?_partialKeys hid hid

/-! ### The end of a refresh -/

theorem degree_common_lt : l.common.degree < l.threshold := by
  rw [← mem_degreeLT]
  refine list_sum_mem fun f hf => ?_
  obtain ⟨id, hid, rfl⟩ := List.mem_map.mp hf
  rw [mem_degreeLT, ← agrees.polynomial id hid]
  exact degree_polynomialOf_lt _

/-- The polynomials of a refresh add up to one without constant term. -/
theorem eval_zero_common (refresh : ∀ id ∈ l.ids, (l.dealer id).isRefresh = true) :
    l.common.eval 0 = 0 := by
  rw [common, eval_listSum, List.map_map]
  refine List.sum_eq_zero fun a ha => ?_
  obtain ⟨id, hid, rfl⟩ := List.mem_map.mp ha
  have hconstant := agrees.constant id hid (refresh id hid)
  rw [Function.comp_apply, eval_zero_polynomialOf]
  rw [List.headD_eq_head?_getD, List.head?_eq_getElem?] at hconstant
  exact hconstant

/-- **The end of the second round** of a refresh: if the previous key shares are those of a
polynomial, the new ones are those of its sum with the common polynomial. -/
theorem closeShares_of_refresh {k : KeyShare c} {f : c.Scalar[X]} (hid : id ∈ l.ids)
    (refresh : (l.dealer id).previous = some k)
    (share : k.share = (l.dealer id).position.shareOf f)
    (partialKeys : k.partialKeys = l.partialKeysOf f) :
    Round.closeShares (l.dealer id) l.committed (l.dealtTo id) =
      .ok ⟨[], .done ((l.dealer id).keyShare l.committed
        ((l.dealer id).position.shareOf (l.common + f)) k.publicKey
        (l.partialKeysOf (l.common + f)))⟩ := by
  refine Round.closeShares_eq_ok_iff.mpr ⟨_, _, _,
    (Round.outcome_of_refresh_eq_ok_iff refresh).mpr ⟨fun x hx => ?_, ?_, rfl, fun x => ?_⟩, ?_, rfl⟩
  · rw [partialKeys]
    exact (Roster.mem_ids_gather _).mpr ((Roster.mem_ids_gather _).mp hx)
  · rw [agrees.shareSum_eq hid, share, Parameter.shareOf_add]
  · -- Who takes part has an old and a new partial key, and nobody else has one.
    by_cases hx : x ∈ l.ids
    · rw [partialKeys, find?_partialKeysOf _ hx, find?_partialKeysOf _ hx,
        agrees.find?_partialKeys hid hx, Option.map_some, Option.getD_some, Parameter.shareOf_add,
        add_smul]
    · have hnone : (Round.partialKeys (l.dealer id) l.committed).find? x = none := by
        rw [Roster.find?_eq_none_iff, Round.partialKeys, Roster.ids_map]
        exact fun hmem => hx ((Roster.mem_ids_gather _).mp hmem)
      rw [hnone, Option.map_none, Roster.find?_eq_none_iff]
      exact fun hmem => hx ((Roster.mem_ids_gather _).mp hmem)
  · rw [agrees.selfId id hid, find?_partialKeysOf _ hid]

end Agrees

end Sums

end Lineup

end RankedKeys
