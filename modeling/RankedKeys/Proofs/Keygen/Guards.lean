import RankedKeys.Proofs.Engine.BrokenOff
import RankedKeys.Proofs.Engine.Quorum
import RankedKeys.Proofs.Keygen.Origin

/-!
# What the rounds have recorded

Whatever the peers of a party send, its rounds record nothing that has not been checked. In the
first round these are contributions of peers, each with as many commitments as the threshold asks
for. When the second round begins, the contributions are those of exactly the configured parties: the
round before has been closed on as many different peers as there are.

So nothing that the rounds do with their records can fail. To say this, the places where they count
on a record to be complete are made to break off if it is not; the party does not notice.

## Main definitions

* `Dealer.WellFormed d id commit`: a contribution of a peer that has been checked
* `Round.Keeps d round`: what a round of a party has recorded
* `Round.brittle`: the rounds, made to break off where a record is not complete

## Main results

* `Round.tracks_protocol`: the rounds know whom they have heard
* `Round.keeps_of_visits`: every round that is visited keeps its records complete
* `Dealer.guarded_of_play`: so do the rounds of every run, and none of them breaks off
-/

namespace RankedKeys

variable {c : Curve}

/-! ## Whom a round has heard -/

namespace Round

variable {d : Dealer c} {round : Round c} {visit : Visit (Round c) KeygenMessage}

/-- The parties whose messages a round has recorded. -/
def heard : Round c → List PartyId
  | commits _ received => received.ids
  | shares _ _ received => received.ids

theorem handled_iff {id : PartyId} : round.handled id = true ↔ id ∈ round.heard := by
  cases round <;> exact Roster.contains_iff

/-- A message that is taken in adds its sender, and the round needs as many messages as before. -/
theorem Handles.heard {round' : Round c} {m : KeygenMessage} (h : round.Handles m round') :
    (∀ id, id ∈ round'.heard ↔ id ∈ round.heard ∨ id = Tagged.sender m) ∧
      round'.quota = round.quota := by
  cases h <;> exact ⟨fun id => Roster.mem_ids_insert.trans or_comm, rfl⟩

/-- **A round has heard** the senders of the messages that it has accepted. -/
theorem heard_of_visits (visits : (Round.protocol c).Visits (.commits d .empty) visit round) :
    (∀ id, id ∈ round.heard ↔ id ∈ visit.senders) ∧ round.quota = visit.opened.quota := by
  induction visits with
  | first => exact ⟨fun id => Iff.rfl, rfl⟩
  | takes _ _ _ takes ih =>
    obtain ⟨hheard, hquota⟩ := (handle_eq_ok_iff.mp (mapError_eq_ok_iff.mp takes.handle)).heard
    refine ⟨fun id => ?_, hquota.trans ih.2⟩
    rw [hheard, ih.1, Visit.senders_accept, List.mem_append, List.mem_singleton]
  | @next visit round later outbox _ _ close _ =>
    have hclose : round.close = .ok ⟨outbox, .next later⟩ := mapError_eq_ok_iff.mp close
    cases round with
    | commits d received =>
      obtain ⟨-, hclosing⟩ := closeCommits_eq_ok_iff.mp hclose
      cases hclosing
      exact ⟨fun id => Iff.rfl, rfl⟩
    | shares d committed received =>
      obtain ⟨share, key, points, -, -, hclosing⟩ := closeShares_eq_ok_iff.mp hclose
      cases hclosing

/-- **The rounds of a party** know whom they have heard. -/
theorem tracks_protocol (d : Dealer c) : (Round.protocol c).Tracks (.commits d .empty) where
  handled _ _ visits id := handled_iff.trans ((heard_of_visits visits).1 id)
  quota _ _ visits := (heard_of_visits visits).2

/-- A round has heard as many parties as it has accepted messages. -/
theorem length_heard (visits : (Round.protocol c).Visits (.commits d .empty) visit round) :
    round.heard.length = visit.accepted.length := by
  have hnodup : round.heard.Nodup := by
    cases round <;> exact Roster.nodup_ids _
  have hperm := (List.perm_ext_iff_of_nodup hnodup
    ((tracks_protocol d).nodup_senders visits)).mpr (heard_of_visits visits).1
  rw [hperm.length_eq, Visit.senders, List.length_map]

end Round

/-! ## Records -/

/-- **A contribution of a peer** that has been checked. In a refresh the first commitment is that to
zero, and the peer is where it was. -/
structure Dealer.WellFormed (d : Dealer c) (id : PartyId) (commit : PeerCommit c) : Prop where
  peer : d.IsPeer id
  count : commit.commitments.length = d.threshold
  coordinate : commit.position.x ≠ 0
  rank : commit.position.rank.toNat < d.threshold
  refresh : ∀ k, d.previous = some k →
    commit.commitments.head? = some 0 ∧ k.positions.find? id = some commit.position

/-- **What a round of a party has recorded**: well-formed contributions of peers in the first round;
and in the second one those of exactly the configured parties, with shares that fit them. -/
inductive Round.Keeps (d : Dealer c) : Round c → Prop
  | commits {received : Roster (PeerCommit c)}
    (peers : ∀ id commit, received.find? id = some commit → d.WellFormed id commit) :
    Keeps d (.commits d received)
  | shares {committed : Roster (PeerCommit c)} {received : Roster c.Scalar}
    (ids : ∀ id, id ∈ committed.ids ↔ id ∈ d.config.partyIds)
    (positions : ∀ id, id ∈ (committed.map (·.position)).ids ↔ id ∈ d.config.partyIds)
    (own : committed.find? d.config.selfId = some d.ownCommit)
    (peers : ∀ id commit, committed.find? id = some commit → id ≠ d.config.selfId →
      d.WellFormed id commit)
    (verified : ∀ id share, received.find? id = some share → d.IsPeer id ∧
      ∃ commit, committed.find? id = some commit ∧
        share • c.generator = combine (d.position.row d.threshold) commit.commitments) :
    Keeps d (.shares d committed received)

variable {d : Dealer c}

/-- What the checks of the first round accept is well-formed. -/
theorem Dealer.AcceptsCommit.wellFormed {m : CommitMessage} {commit : PeerCommit c}
    (h : d.AcceptsCommit m commit) : d.WellFormed m.sender commit where
  peer := h.peer
  count := (Dealer.admits_of_acceptsCommit h).length
  coordinate := h.coordinate_ne_zero
  rank := h.rank ▸ h.rank_lt
  refresh k hk := by
    obtain ⟨points, -, hcommitments⟩ := h.commitments
    have homitted : d.omitted = 1 := by simp [Dealer.omitted, Dealer.isRefresh, hk]
    rw [hcommitments, homitted]
    exact ⟨rfl, h.position k hk⟩

namespace Round

variable {round round' : Round c} {visit : Visit (Round c) KeygenMessage}

/-- A message that is taken in is recorded as it has been checked. -/
theorem Keeps.handle {m : KeygenMessage} (h : round.Keeps d) (handles : round.Handles m round') :
    round'.Keeps d := by
  cases handles with
  | @commit _ received m commit accepts =>
    cases h with
    | commits peers =>
      refine .commits fun id commit' hfind => ?_
      rw [Roster.find?_insert] at hfind
      split at hfind
      · rename_i hid
        cases hfind
        exact hid ▸ accepts.wellFormed
      · exact peers id commit' hfind
  | @share _ committed received m share accepts =>
    cases h with
    | shares ids positions own peers verified =>
      refine .shares ids positions own peers fun id share' hfind => ?_
      rw [Roster.find?_insert] at hfind
      split at hfind
      · rename_i hid
        cases hfind
        exact hid ▸ ⟨accepts.peer, accepts.commitment⟩
      · exact verified id share' hfind

/-- **The second round** begins with the contributions of exactly the configured parties, if the
first one has heard as many peers as there are. -/
theorem Keeps.close {outbox : List (PartyId × KeygenMessage)} (fits : d.Fits) (h : round.Keeps d)
    (enough : d.peerCount ≤ round.heard.length) (close : round.close = .ok ⟨outbox, .next round'⟩) :
    round'.Keeps d := by
  cases h with
  | @commits received peers =>
    obtain ⟨-, hclosing⟩ := closeCommits_eq_ok_iff.mp close
    cases hclosing
    have hnot : d.config.selfId ∉ received.ids := by
      intro hmem
      obtain ⟨commit, hfind⟩ := Roster.mem_ids_iff.mp hmem
      exact (peers _ commit hfind).peer.1 rfl
    have hself : d.config.selfId ∈ d.config.partyIds :=
      (KeygenConfig.validate_eq_ok_iff.mp fits.valid).2.2.2.1
    -- All are configured parties, and there are as many of them.
    have hids : ∀ id, id ∈ (d.committed received).ids ↔ id ∈ d.config.partyIds := by
      refine fun id => Roster.mem_ids_iff_of_subset (fun id hid => ?_) ?_
      · rcases Roster.mem_ids_insert.mp hid with rfl | hid
        · exact hself
        · obtain ⟨commit, hfind⟩ := Roster.mem_ids_iff.mp hid
          exact (peers id commit hfind).peer.2
      · rw [Dealer.committed, Roster.size_insert hnot, ← Roster.length_ids, ← fits.peerCount]
        exact Nat.succ_le_succ enough
    refine .shares hids ?_ ?_ ?_ nofun
    · exact fun id => (Roster.ids_map (·.position) (d.committed received)).symm ▸ hids id
    · rw [Roster.find?_insert, if_pos rfl]
    · intro id commit hfind hne
      rw [Roster.find?_insert, if_neg hne] at hfind
      exact peers id commit hfind
  | shares =>
    obtain ⟨share, key, points, -, -, hclosing⟩ := closeShares_eq_ok_iff.mp close
    cases hclosing

/-- **Every round** that is visited keeps complete records. -/
theorem keeps_of_visits (fits : d.Fits)
    (visits : (Round.protocol c).Visits (.commits d .empty) visit round) : round.Keeps d := by
  induction visits with
  | first => exact .commits nofun
  | takes _ _ _ takes ih =>
    exact ih.handle (handle_eq_ok_iff.mp (mapError_eq_ok_iff.mp takes.handle))
  | @next visit round later outbox visits enough close ih =>
    refine ih.close fits ?_ (mapError_eq_ok_iff.mp close)
    rw [length_heard visits]
    cases ih <;> exact enough.2

end Round

/-! ## Records that are counted on -/

/-- The check of a contribution, made to break off where the number of commitments that it asks for
in a complaint would be negative. -/
def Dealer.brittleAcceptCommit (d : Dealer c) (m : CommitMessage) :
    Except Fault (PeerCommit c) := do
  (d.checkSender m.sender).mapError .error
  (d.checkSession m.sessionId).mapError .error
  if d.omitted + m.commitments.length ≠ d.threshold ∧ d.threshold < d.omitted then
    throw .crash
  (d.acceptCommit m).mapError .error

/-- The check of a share, made to break off where the sender has no contribution, or one that does
not have a commitment for each factor of the row. -/
def Dealer.brittleAcceptShare (d : Dealer c) (commits : Roster (PeerCommit c)) (m : ShareMessage) :
    Except Fault c.Scalar := do
  (d.checkSender m.sender).mapError .error
  (d.checkSession m.sessionId).mapError .error
  if m.receiver = d.config.selfId ∧
      (commits.find? m.sender).all (·.commitments.length != d.threshold) then
    throw .crash
  (d.acceptShare commits m).mapError .error

namespace Round

/-- The end of the second round, made to break off where a contribution does not have a commitment
for each factor of the rows, or none at its front that goes into the public key. -/
def brittleCloseShares (dealer : Dealer c) (committed : Roster (PeerCommit c))
    (received : Roster c.Scalar) :
    Except Fault (Closing (Round c) KeygenMessage (KeyShare c)) := do
  if committed.values.any fun commit => commit.commitments.length != dealer.threshold ||
      !dealer.isRefresh && commit.commitments.isEmpty then
    throw .crash
  (closeShares dealer committed received).mapError .error

/-- The rounds, made to break off where a record is not as it should be. -/
def brittle (c : Curve) : Protocol (Round c) KeygenMessage (KeyShare c) where
  tag := tag
  handled := handled
  handle
    | commits dealer received, .commit m => do
      let commit ← dealer.brittleAcceptCommit m
      pure (commits dealer (received.insert m.sender commit))
    | shares dealer committed received, .share m => do
      let share ← dealer.brittleAcceptShare committed m
      pure (shares dealer committed (received.insert m.sender share))
    | round, m => (round.handle m).mapError .error
  quota := quota
  close
    | shares dealer committed received => brittleCloseShares dealer committed received
    | round => round.close.mapError .error

theorem sameFrame_brittle : (Round.protocol c).SameFrame (brittle c) :=
  ⟨rfl, rfl, rfl⟩

variable {committed : Roster (PeerCommit c)} {received : Roster c.Scalar}

/-- A refresh leaves out no more commitments than there are. -/
theorem omitted_le (fits : d.Fits) : d.omitted ≤ d.threshold := by
  refine le_trans ?_ fits.threshold_pos
  unfold Dealer.omitted
  split <;> decide

theorem brittleAcceptCommit_eq (fits : d.Fits) (m : CommitMessage) :
    d.brittleAcceptCommit m = (d.acceptCommit m).mapError .error := by
  unfold Dealer.brittleAcceptCommit
  rw [if_neg fun h => absurd h.2 (Nat.not_lt.mpr (omitted_le fits)), Dealer.acceptCommit]
  cases d.checkSender m.sender with
  | error error => rfl
  | ok u =>
    cases d.checkSession m.sessionId with
    | error error => rfl
    | ok u => rfl

namespace Keeps

variable (keeps : (Round.shares d committed received).Keeps d)

include keeps

/-- All contributions of the second round have as many commitments as the threshold asks for. -/
theorem count (fits : d.Fits) {id : PartyId} {commit : PeerCommit c}
    (hfind : committed.find? id = some commit) : commit.commitments.length = d.threshold := by
  cases keeps with
  | shares ids positions own peers verified =>
    by_cases hid : id = d.config.selfId
    · subst hid
      obtain rfl := Option.some.inj (own.symm.trans hfind)
      exact (List.length_map _).trans fits.polynomial
    · exact (peers id commit hfind hid).count

theorem length_of_mem_values (fits : d.Fits) :
    ∀ commit ∈ committed.values, commit.commitments.length = d.threshold := by
  intro commit hcommit
  obtain ⟨⟨id, _⟩, hmem, rfl⟩ := List.mem_map.mp hcommit
  exact keeps.count fits (Roster.find?_eq_some_iff.mpr hmem)

theorem brittleAcceptShare_eq (fits : d.Fits) (m : ShareMessage) :
    d.brittleAcceptShare committed m = (d.acceptShare committed m).mapError .error := by
  unfold Dealer.brittleAcceptShare
  cases hsender : d.checkSender m.sender with
  | error error =>
    rw [Dealer.acceptShare, hsender]
    rfl
  | ok u =>
    -- The sender is a peer, so that it has a contribution.
    have hmem : m.sender ∈ committed.ids := by
      cases keeps with
      | shares ids => exact (ids m.sender).mpr (Dealer.checkSender_eq_ok_iff.mp hsender).2
    obtain ⟨commit, hfind⟩ := Roster.mem_ids_iff.mp hmem
    have hcount := keeps.count fits hfind
    rw [hfind, if_neg (by simp [hcount]), Dealer.acceptShare, hsender]
    cases d.checkSession m.sessionId with
    | error error => rfl
    | ok u => rfl

theorem brittleCloseShares_eq (fits : d.Fits) :
    brittleCloseShares d committed received =
      (closeShares d committed received).mapError .error := by
  refine if_neg ?_
  rw [List.any_eq_true]
  rintro ⟨commit, hcommit, hfails⟩
  have hcount := keeps.length_of_mem_values fits commit hcommit
  have hpos := List.length_pos_iff.mp (hcount ▸ fits.threshold_pos)
  simp [hcount, hpos] at hfails

end Keeps

/-- **The rounds answer alike**, whether they would break off or not, if their records are
complete. -/
theorem Keeps.agreesOn (fits : d.Fits) {call : Call (Round c) KeygenMessage}
    (keeps : call.round.Keeps d) : (Round.protocol c).AgreesOn (brittle c) call := by
  cases call with
  | handle round m =>
    show (brittle c).handle round m = (round.handle m).mapError .error
    cases round with
    | commits d' received =>
      cases m with
      | share m => rfl
      | commit m =>
        obtain ⟨-⟩ := keeps
        show d.brittleAcceptCommit m >>= _ = _
        rw [brittleAcceptCommit_eq fits, Round.handle]
        cases d.acceptCommit m <;> rfl
    | shares d' committed received =>
      cases m with
      | commit m => rfl
      | share m =>
        obtain rfl : d' = d := by cases keeps; rfl
        show d'.brittleAcceptShare committed m >>= _ = _
        rw [brittleAcceptShare_eq keeps fits, Round.handle]
        cases d'.acceptShare committed m <;> rfl
  | close round =>
    show (brittle c).close round = round.close.mapError .error
    cases round with
    | commits d' received => rfl
    | shares d' committed received =>
      obtain rfl : d' = d := by cases keeps; rfl
      exact brittleCloseShares_eq keeps fits

/-- The rounds answer every call with a reason if they refuse it. -/
theorem not_crashes (call : Call (Round c) KeygenMessage) :
    ¬ (Round.protocol c).Crashes call := by
  have refuses : ∀ {α : Type} {x : Except Error α}, x.mapError Fault.error ≠ .error .crash := by
    intro α x hcrash
    obtain ⟨error, -, heq⟩ := mapError_eq_error_iff.mp hcrash
    cases heq
  cases call with
  | handle round m => exact refuses
  | close round => exact refuses

end Round

/-! ## Runs -/

/-- **The records of a party are complete** at any time, whatever is delivered to it and by whom, in
a key generation as in a refresh: those of the round in progress, and those of every round that is
called. So a party whose rounds would break off where a record is not complete has the same run, and
no run is broken off by anything but a shutdown. -/
theorem Dealer.guarded_of_play {view : PeerView} (created : d.Created view)
    (happenings : List (Happening KeygenMessage)) :
    let start := Record.initial (Party.ofDealer d view).engine
    let r := start.play (Round.protocol c) happenings
    d.polynomial ≠ [] ∧ d.omitted ≤ d.threshold ∧
    (∀ round count, r.engine.consumer.progress? = some (round, count) → round.Keeps d) ∧
    (∀ call ∈ start.asked (Round.protocol c) happenings, call.round.Keeps d) ∧
    start.play (Round.brittle c) happenings = r ∧
    ∀ happening ≠ .shutdown, r.engine.result ≠ .error Engine.aborted →
      (r.react (Round.protocol c) happening).engine.result ≠ .error Engine.aborted := by
  intro start r
  have fits := created.fits
  have calls : ∀ call ∈ start.asked (Round.protocol c) happenings, call.round.Keeps d := by
    intro call hcall
    obtain ⟨before, after, hasked⟩ := List.append_of_mem hcall
    cases Record.makes_of_asked_eq (Round.protocol c) d.config.selfId view.peers.length
      (.commits d .empty) [commitTag, shareTag] hasked with
    | handle visits fresh => exact Round.keeps_of_visits fits visits
    | close visits enough => exact Round.keeps_of_visits fits visits
  refine ⟨?_, Round.omitted_le fits, ?_, calls, ?_, ?_⟩
  · exact List.length_pos_iff.mp (fits.polynomial ▸ fits.threshold_pos)
  · intro round count progress
    obtain ⟨visit, visits⟩ := Record.exists_visits_of_progress (Round.protocol c) d.config.selfId
      view.peers.length (.commits d .empty) [commitTag, shareTag] happenings progress
    exact Round.keeps_of_visits fits visits
  · exact Record.play_congr Round.sameFrame_brittle fun call hcall =>
      (calls call hcall).agreesOn fits
  · intro happening ne unbroken
    exact Record.not_brokenOff_react unbroken ne fun call _ => Round.not_crashes call

/-- What a hostile peer sends to the first of two parties: a share before any commitments, and
commitments of the wrong number. -/
def hostileToFirst : List (Happening KeygenMessage) :=
  [.start, .deliver "b" (secondOfTwo.shareMessage "a" firstOfTwo.position),
    .deliver "b" (.commit ⟨"b", firstOfTwo.config.sessionId, [], 0, []⟩), .move]

/-- The party complains about the number of commitments, and so does one whose rounds would break
off if it were to count less than none. -/
theorem guarded_of_play_secp256k1 :
    ((Record.initial (Party.ofDealer firstOfTwo ⟨"a", ["b"]⟩).engine).play
      (Round.brittle .secp256k1) hostileToFirst).engine.result =
        .error (.handlerValidationFailed "b"
          (Error.verificationFailed "Expected 2 commitments, got 0").message) := by
  have hguarded := Dealer.guarded_of_play (.generated _ generate_dealerOfTwo) hostileToFirst
  refine (congrArg (fun r => r.engine.result) hguarded.2.2.2.2.1).trans ?_
  decide +kernel

end RankedKeys
