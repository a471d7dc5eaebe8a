import RankedKeys.Proofs.Keygen.Combination
import RankedKeys.Proofs.Keygen.Forgery
import RankedKeys.Proofs.Keygen.Soundness

/-!
# Verification of shares

The commitments to the coefficients of a polynomial combine at a position to the commitment to the
derivative there, and different scalars have different commitments. So a receiver that knows the
commitments of a dealer accepts one scalar from it, the derivative at its own position, and one way
of writing it.

## Main definitions

* `Dealer.CommitsTo d commit coefficients`: the commitments to some coefficients, as they are kept
* `Round.recorded`, `Round.offered`: the shares of a round, and the round after a message

## Main results

* `Dealer.AcceptsCommit.exists_commitsTo`: what is accepted in the first round are commitments
* `Dealer.CommitsTo.combine_eq`: what the commitments combine to at a position
* `Round.handle_share_exact`: which shares are accepted, and what is recorded
-/

namespace RankedKeys

open Polynomial

variable {c : Curve}

/-- The commitments to some coefficients, as many as the threshold asks for, as a party keeps them.
In a refresh the first coefficient is zero, and the neutral element stands for the commitment that
the messages leave out. -/
structure Dealer.CommitsTo (d : Dealer c) (commit : PeerCommit c)
    (coefficients : List c.Scalar) : Prop where
  length : coefficients.length = d.threshold
  constant : d.isRefresh = true → coefficients.head? = some 0
  commitments : commit.commitments =
    List.replicate d.omitted 0 ++ (coefficients.drop d.omitted).map (· • c.generator)

namespace Round

/-- The shares that a round has recorded. -/
def recorded : Round c → Roster c.Scalar
  | commits .. => .empty
  | shares _ _ received => received

/-- A round after it has been offered a message. One that it refuses leaves it as it is. -/
def offered (round : Round c) (m : KeygenMessage) : Round c :=
  match round.handle m with
  | .ok after => after
  | .error _ => round

end Round

variable {d : Dealer c} {committed : Roster (PeerCommit c)} {received : Roster c.Scalar}
  {commit : PeerCommit c} {coefficients : List c.Scalar} {m : ShareMessage}

variable [c.Lawful]

/-- **Every contribution** that the first round accepts commits to some coefficients. -/
theorem Dealer.AcceptsCommit.exists_commitsTo {m : CommitMessage} (h : d.AcceptsCommit m commit) :
    ∃ coefficients, d.CommitsTo commit coefficients := by
  obtain ⟨points, hpoints, hcommitments⟩ := h.commitments
  -- The generator has every point as a multiple.
  choose factor hfactor using Curve.Lawful.generates (c := c)
  have hmap : (points.map factor).map (· • c.generator) = points := by
    rw [List.map_map]
    exact List.map_id'' hfactor points
  refine ⟨List.replicate d.omitted 0 ++ points.map factor, ?_, fun refresh => ?_, ?_⟩
  · have hlength := (mapM_eq_ok_iff.mp hpoints).length_eq
    have hcount := h.count
    rw [List.length_append, List.length_replicate, List.length_map]
    omega
  · rw [Dealer.omitted, if_pos refresh]
    rfl
  · rw [List.drop_left' List.length_replicate, hmap, hcommitments]

/-- **Commitments** combine at a position to that to the derivative there. -/
theorem Dealer.CommitsTo.combine_eq (h : d.CommitsTo commit coefficients)
    (p : Parameter c.Scalar) :
    combine (p.row d.threshold) commit.commitments =
      p.shareOf (polynomialOf coefficients) • c.generator := by
  rw [h.commitments, List.map_drop, d.replicate_omitted_append h.constant, ← h.length,
    combine_row_commitments]

/-- **The right share** is accepted. -/
theorem Dealer.CommitsTo.acceptsShare (h : d.CommitsTo commit coefficients)
    (peer : d.IsPeer m.sender) (session : m.sessionId = d.config.sessionId)
    (receiver : m.receiver = d.config.selfId) (found : committed.find? m.sender = some commit) :
    d.AcceptsShare committed
      { m with share := Curve.scalarBytes (d.position.shareOf (polynomialOf coefficients)) }
      (d.position.shareOf (polynomialOf coefficients)) where
  peer := peer
  session := session
  receiver := receiver
  share_eq := Curve.scalarOfBytes_scalarBytes _
  commitment := ⟨commit, found, (h.combine_eq d.position).symm⟩

namespace Round

/-- **A share is accepted exactly when it is right**: a message of this session from a peer, for
this party, is taken in if its bytes are those of the derivative at the party's position of the
polynomial that the peer has committed to, and this scalar is recorded for the peer. No other bytes
are accepted, be it another scalar or no scalar at all, and what is recorded stays as it is. -/
theorem handle_share_exact (commits : d.CommitsTo commit coefficients) (peer : d.IsPeer m.sender)
    (session : m.sessionId = d.config.sessionId) (receiver : m.receiver = d.config.selfId)
    (found : committed.find? m.sender = some commit) :
    let round := shares d committed received
    let share := (derivative^[d.position.rank.toNat] (polynomialOf coefficients)).eval d.position.x
    round.handle (.share m) =
      (if m.share = Curve.scalarBytes share then
        .ok (.shares d committed (received.insert m.sender share))
      else .error (complaint c m.sender m.share)) ∧
    (round.offered (.share m)).recorded =
      if m.share = Curve.scalarBytes share then received.insert m.sender share else received := by
  intro round share
  have haccepts := commits.acceptsShare peer session receiver found
  by_cases hright : m.share = Curve.scalarBytes share
  · have hm : { m with share := Curve.scalarBytes share } = m := by rw [← hright]
    have hhandle : round.handle (.share m) = _ := handle_eq_ok_iff.mpr (.share (hm ▸ haccepts))
    rw [if_pos hright, if_pos hright, offered, hhandle]
    exact ⟨rfl, rfl⟩
  · have hhandle : round.handle (.share m) = _ :=
      handle_share_of_acceptShare_eq_error (Dealer.acceptShare_forged haccepts hright)
    rw [if_neg hright, if_neg hright, offered, hhandle]
    exact ⟨rfl, rfl⟩

end Round

/-- The second of two parties sends the first, which keeps the derivative in a refresh, the
derivative of `13·x`; and in place of the value `59` of `9 + 10·x` at five, another scalar. -/
theorem handle_share_exact_secp256k1 :
    let refreshing : Dealer .secp256k1 :=
      { dealerOfTwo "a" (some keyShareOfTwo) 5 0 12 with position := ⟨5, 1⟩ }
    let commit : PeerCommit .secp256k1 :=
      ⟨⟨6, 0⟩, [0, (13 : Curve.secp256k1.Scalar) • Curve.secp256k1.generator]⟩
    let refreshed : Roster (PeerCommit .secp256k1) := .insert .empty "b" commit
    let committed : Roster (PeerCommit .secp256k1) := .insert .empty "b" secondOfTwo.ownCommit
    let right : ShareMessage :=
      ⟨"b", "a", refreshing.config.sessionId, Curve.scalarBytes (c := .secp256k1) 13⟩
    let wrong : ShareMessage :=
      ⟨"b", "a", firstOfTwo.config.sessionId, Curve.scalarBytes (c := .secp256k1) 60⟩
    (Round.shares refreshing refreshed .empty).handle (.share right) =
        .ok (.shares refreshing refreshed (.insert .empty "b" 13)) ∧
      (Round.shares firstOfTwo committed .empty).handle (.share wrong) =
        .error (Refusal.shareMismatch "b").error := by
  intro refreshing commit refreshed committed right wrong
  constructor
  · have commits : refreshing.CommitsTo commit [0, 13] := ⟨rfl, fun _ => rfl, rfl⟩
    have hshare : (derivative^[refreshing.position.rank.toNat] (polynomialOf [0, 13])).eval
        refreshing.position.x = 13 :=
      (refreshing.position.evaluate_eq_shareOf [0, 13]).symm.trans (by decide +kernel)
    have found : refreshed.find? right.sender = some commit := by decide +kernel
    have hexact : (Round.shares refreshing refreshed .empty).handle (.share right) = _ :=
      (Round.handle_share_exact commits ⟨by decide, by decide⟩ rfl rfl found).1
    rwa [hshare, if_pos rfl] at hexact
  · have commits : firstOfTwo.CommitsTo secondOfTwo.ownCommit [9, 10] :=
      ⟨rfl, fun h => (nomatch h), rfl⟩
    have hshare : (derivative^[firstOfTwo.position.rank.toNat] (polynomialOf [9, 10])).eval
        firstOfTwo.position.x = 59 :=
      (firstOfTwo.position.evaluate_eq_shareOf [9, 10]).symm.trans (by decide +kernel)
    have found : committed.find? wrong.sender = some secondOfTwo.ownCommit := by decide +kernel
    have hexact : (Round.shares firstOfTwo committed .empty).handle (.share wrong) = _ :=
      (Round.handle_share_exact commits ⟨by decide, by decide⟩ rfl rfl found).1
    rwa [hshare, if_neg (by decide +kernel)] at hexact

end RankedKeys
