import RankedKeys.Keygen.Round
import RankedKeys.Proofs.Answers

/-!
# What a party accepts

The settings and the messages that pass the checks of a party, and what it keeps of them.

## Main definitions

* `Dealer.AcceptsCommit d m commit`, `Dealer.AcceptsShare d commits m share`: all that the checks
  ask for
* `Round.Handles round m round'`: what a round does with a message that it takes in

## Main results

* `KeygenConfig.validate_eq_ok_iff`, `KeygenConfig.check_eq_ok_iff`: the settings that fit together
* `Dealer.acceptCommit_eq_ok_iff`, `Dealer.acceptShare_eq_ok_iff`: the checks ask for that
* `Round.handle_eq_ok_iff`: a round takes in what its checks accept, and does no more than keep it
-/

namespace RankedKeys

variable {c : Curve}

theorem ensureThreshold_eq_ok_iff {threshold parties : Nat} {u : Unit} :
    ensureThreshold threshold parties = .ok u ↔ 2 ≤ threshold ∧ threshold ≤ parties := by
  unfold ensureThreshold minThreshold
  split
  · exact ⟨fun h => (nomatch h), fun h => by omega⟩
  · split
    · exact ⟨fun h => (nomatch h), fun h => by omega⟩
    · exact ⟨fun _ => by omega, fun _ => rfl⟩

namespace KeygenConfig

theorem validate_eq_ok_iff {config : KeygenConfig} {u : Unit} :
    config.validate = .ok u ↔
      2 ≤ config.threshold.toNat ∧ config.threshold.toNat ≤ config.partyIds.length ∧
        config.partyIds.Nodup ∧ config.selfId ∈ config.partyIds ∧
        config.rank.toNat < config.threshold.toNat := by
  simp only [validate, bind_eq_ok_iff, guard_eq_ok_iff, reject_eq_ok_iff,
    ensureThreshold_eq_ok_iff, not_not, Nat.not_le]
  constructor
  · rintro ⟨-, ⟨two_le, le⟩, nodup, mem, rank_lt, -⟩
    exact ⟨two_le, le, nodup, mem, rank_lt⟩
  · rintro ⟨two_le, le, nodup, mem, rank_lt⟩
    exact ⟨(), ⟨two_le, le⟩, nodup, mem, rank_lt, rfl⟩

theorem check_eq_ok_iff {config : KeygenConfig} {knownPeers : Nat} {u : Unit} :
    config.check knownPeers = .ok u ↔
      config.validate = .ok () ∧ knownPeers + 1 = config.partyIds.length := by
  simp only [check, bind_eq_ok_iff, reject_eq_ok_iff, ne_eq, not_not]
  constructor
  · rintro ⟨_, hvalid, hpeers, -⟩
    exact ⟨hvalid, hpeers⟩
  · rintro ⟨hvalid, hpeers⟩
    exact ⟨(), hvalid, hpeers, rfl⟩

end KeygenConfig

namespace Dealer

/-- A sender is one of the other parties. -/
def IsPeer (d : Dealer c) (id : PartyId) : Prop :=
  id ≠ d.config.selfId ∧ id ∈ d.config.partyIds

theorem checkSender_eq_ok_iff {d : Dealer c} {id : PartyId} {u : Unit} :
    d.checkSender id = .ok u ↔ d.IsPeer id := by
  unfold checkSender IsPeer
  split
  · rename_i h
    exact ⟨fun h' => (nomatch h'), fun h' => (h.elim h'.1 fun h => h h'.2).elim⟩
  · rename_i h
    rw [not_or, not_not] at h
    exact ⟨fun _ => h, fun _ => rfl⟩

theorem checkSession_eq_ok_iff {d : Dealer c} {id : SessionId} {u : Unit} :
    d.checkSession id = .ok u ↔ id = d.config.sessionId := by
  unfold checkSession
  split
  · rename_i h
    exact ⟨fun h' => (nomatch h'), fun h' => absurd h' h⟩
  · rename_i h
    exact ⟨fun _ => not_not.mp h, fun _ => rfl⟩

theorem checkPosition_eq_ok_iff {d : Dealer c} {id : PartyId} {position : Parameter c.Scalar}
    {u : Unit} : d.checkPosition id position = .ok u ↔
      ∀ k, d.previous = some k → k.positions.find? id = some position := by
  unfold checkPosition
  cases d.previous with
  | none => exact ⟨fun _ k h => (nomatch h), fun _ => rfl⟩
  | some k =>
    simp only [Option.some.injEq, forall_eq']
    split
    · rename_i h
      exact ⟨fun h' => (nomatch h'), fun h' => absurd h' h⟩
    · rename_i h
      exact ⟨fun _ => not_not.mp h, fun _ => rfl⟩

/-- All that a message of the first round has to satisfy, and what is kept of it. -/
structure AcceptsCommit (d : Dealer c) (m : CommitMessage) (commit : PeerCommit c) : Prop where
  peer : d.IsPeer m.sender
  session : m.sessionId = d.config.sessionId
  count : d.omitted + m.commitments.length = d.threshold
  commitments : ∃ points, m.commitments.mapM (Point.ofBytes c) = .ok points ∧
    commit.commitments = List.replicate d.omitted 0 ++ points
  coordinate : Curve.scalarOfBytes m.coordinate = .ok commit.position.x
  coordinate_ne_zero : commit.position.x ≠ 0
  rank : commit.position.rank = m.rank
  rank_lt : m.rank.toNat < d.threshold
  position : ∀ k, d.previous = some k → k.positions.find? m.sender = some commit.position

/-- **Commitments** are accepted exactly if they satisfy that. -/
theorem acceptCommit_eq_ok_iff {d : Dealer c} {m : CommitMessage} {commit : PeerCommit c} :
    d.acceptCommit m = .ok commit ↔ d.AcceptsCommit m commit := by
  simp only [acceptCommit, bind_eq_ok_iff, guard_eq_ok_iff, pure_eq_ok_iff, checkSender_eq_ok_iff,
    checkSession_eq_ok_iff, checkPosition_eq_ok_iff, Nat.not_le, ne_eq, not_not]
  constructor
  · rintro ⟨-, peer, -, session, count, points, hpoints, x, hx, hne, hrank, -, hposition, rfl⟩
    exact ⟨peer, session, count, ⟨points, hpoints, rfl⟩, hx, hne, rfl, hrank, hposition⟩
  · rintro ⟨peer, session, count, ⟨points, hpoints, hcommitments⟩, hx, hne, hrank, hlt, hposition⟩
    rcases commit with ⟨⟨x, rank⟩, commitments⟩
    obtain rfl : rank = m.rank := hrank
    obtain rfl : commitments = _ := hcommitments
    exact ⟨(), peer, (), session, count, points, hpoints, x, hx, hne, hlt, (), hposition, rfl⟩

/-- All that a message of the second round has to satisfy, and what is kept of it. -/
structure AcceptsShare (d : Dealer c) (commits : Roster (PeerCommit c)) (m : ShareMessage)
    (share : c.Scalar) : Prop where
  peer : d.IsPeer m.sender
  session : m.sessionId = d.config.sessionId
  receiver : m.receiver = d.config.selfId
  share_eq : Curve.scalarOfBytes m.share = .ok share
  commitment : ∃ commit, commits.find? m.sender = some commit ∧
    share • c.generator = combine (d.position.row d.threshold) commit.commitments

/-- **Shares** are accepted exactly if they satisfy that. -/
theorem acceptShare_eq_ok_iff {d : Dealer c} {commits : Roster (PeerCommit c)} {m : ShareMessage}
    {share : c.Scalar} : d.acceptShare commits m = .ok share ↔ d.AcceptsShare commits m share := by
  simp only [acceptShare, bind_eq_ok_iff, guard_eq_ok_iff, checkSender_eq_ok_iff,
    checkSession_eq_ok_iff, ne_eq, not_not]
  constructor
  · rintro ⟨-, peer, -, session, receiver, h⟩
    cases hcommit : commits.find? m.sender with
    | none =>
      rw [hcommit] at h
      cases h
    | some commit =>
      simp only [hcommit, bind_eq_ok_iff, guard_eq_ok_iff, pure_eq_ok_iff, not_not] at h
      obtain ⟨_, hshare, hcombine, rfl⟩ := h
      exact ⟨peer, session, receiver, hshare, commit, hcommit, hcombine⟩
  · rintro ⟨peer, session, receiver, hshare, commit, hcommit, hcombine⟩
    refine ⟨(), peer, (), session, receiver, ?_⟩
    simp only [hcommit, bind_eq_ok_iff, guard_eq_ok_iff, pure_eq_ok_iff, not_not]
    exact ⟨share, hshare, hcombine, rfl⟩

end Dealer

namespace Round

/-- A round takes a message of its own kind in that its checks accept, and keeps it under the name
of its sender. -/
inductive Handles : Round c → KeygenMessage → Round c → Prop
  | commit {d : Dealer c} {received : Roster (PeerCommit c)} {m : CommitMessage}
    {commit : PeerCommit c} (accepts : d.AcceptsCommit m commit) :
    Handles (.commits d received) (.commit m) (.commits d (received.insert m.sender commit))
  | share {d : Dealer c} {committed : Roster (PeerCommit c)} {received : Roster c.Scalar}
    {m : ShareMessage} {share : c.Scalar} (accepts : d.AcceptsShare committed m share) :
    Handles (.shares d committed received) (.share m)
      (.shares d committed (received.insert m.sender share))

/-- **A round** does nothing else with a message that it takes in. -/
theorem handle_eq_ok_iff {round round' : Round c} {m : KeygenMessage} :
    round.handle m = .ok round' ↔ round.Handles m round' := by
  constructor
  · intro h
    cases round with
    | commits d received =>
      cases m with
      | commit m =>
        obtain ⟨commit, haccept, hround⟩ := bind_eq_ok_iff.mp h
        obtain rfl := pure_eq_ok_iff.mp hround
        exact .commit (Dealer.acceptCommit_eq_ok_iff.mp haccept)
      | share m => cases h
    | shares d committed received =>
      cases m with
      | commit m => cases h
      | share m =>
        obtain ⟨share, haccept, hround⟩ := bind_eq_ok_iff.mp h
        obtain rfl := pure_eq_ok_iff.mp hround
        exact .share (Dealer.acceptShare_eq_ok_iff.mp haccept)
  · rintro (accepts | accepts)
    · exact bind_eq_ok_iff.mpr ⟨_, Dealer.acceptCommit_eq_ok_iff.mpr accepts, rfl⟩
    · exact bind_eq_ok_iff.mpr ⟨_, Dealer.acceptShare_eq_ok_iff.mpr accepts, rfl⟩

/-- A share that the checks refuse is refused as they say. -/
theorem handle_share_of_acceptShare_eq_error {d : Dealer c} {committed : Roster (PeerCommit c)}
    {received : Roster c.Scalar} {m : ShareMessage} {e : Error}
    (h : d.acceptShare committed m = .error e) :
    (shares d committed received).handle (.share m) = .error e :=
  congrArg (· >>= _) h

end Round

end RankedKeys
