import Mathlib.Data.List.Nodup
import RankedKeys.Engine.Script
import RankedKeys.Proofs.Engine.Visits

/-!
# The contributions that close a round

A round is closed when it has accepted as many messages as it needs. If the rounds know whom they
have heard, these messages are from different senders, and a sender that is heard a second time ends
the run.

## Main definitions

* `Protocol.Tracks`: rounds that know whom they have heard, and always need as many messages
* `Protocol.ClosedOn round visit`: what a round has accepted when it is closed

## Main results

* `Record.quorum_of_play`: rounds are closed on as many senders as they need, and no sender is heard
  twice
* `Script.tracks_protocol`: the rounds of a table that do not forget
-/

namespace RankedKeys

variable {σ M R : Type} [Tagged M]

namespace Protocol

/-- **Rounds that know whom they have heard**, and that need the same number of messages during a
whole visit. -/
structure Tracks (P : Protocol σ M R) (first : σ) : Prop where
  handled : ∀ visit round, P.Visits first visit round → ∀ id,
    P.handled round id = true ↔ id ∈ visit.senders
  quota : ∀ visit round, P.Visits first visit round → P.quota round = P.quota visit.opened

/-- **A round that is closed** on exactly what it needs. -/
structure ClosedOn (P : Protocol σ M R) (first : σ) (round : σ) (visit : Visit σ M) : Prop where
  visits : P.Visits first visit round
  count : visit.accepted.length = max 1 (P.quota round)
  own : ∀ m ∈ visit.accepted, Tagged.tag m = P.tag visit.opened
  distinct : visit.senders.Nodup

variable {P : Protocol σ M R} {first round : σ} {visit : Visit σ M}

/-- No sender is accepted twice. -/
theorem Tracks.nodup_senders (tracks : P.Tracks first) (visits : P.Visits first visit round) :
    visit.senders.Nodup := by
  induction visits with
  | first => exact List.nodup_nil
  | takes visits _ _ takes ih =>
    have hnot := mt (tracks.handled _ _ visits _).mpr (Bool.not_eq_true _ ▸ takes.fresh)
    rw [Visit.senders_accept, ← List.concat_eq_append]
    exact List.Nodup.concat hnot ih
  | next => exact List.nodup_nil

/-- No round accepts more messages than it needs, but for the first one. -/
theorem Tracks.length_le (tracks : P.Tracks first) (visits : P.Visits first visit round) :
    visit.accepted.length ≤ max 1 (P.quota round) := by
  rw [tracks.quota _ _ visits]
  cases visits with
  | first => exact Nat.zero_le _
  | @takes visit round _ m visits waits =>
    have hquota : P.quota round = P.quota visit.opened := tracks.quota _ _ visits
    rw [Enough, not_and_or, not_ne_iff, Nat.not_le] at waits
    show (visit.accept m).accepted.length ≤ max 1 (P.quota visit.opened)
    rw [Visit.length_accepted_accept]
    rcases waits with hnil | hlt
    · rw [hnil]
      exact Nat.le_max_left _ _
    · omega
  | next => exact Nat.zero_le _

/-- **A round that has enough** has exactly what it needs. -/
theorem Tracks.closedOn (tracks : P.Tracks first) (visits : P.Visits first visit round)
    (enough : P.Enough visit round) : P.ClosedOn first round visit where
  visits := visits
  count := by
    have hle := tracks.length_le visits
    have hpos := List.length_pos_iff.mpr enough.1
    have hge := enough.2
    omega
  own := visits.own
  distinct := tracks.nodup_senders visits

end Protocol

/-! ## Closing and repeating -/

namespace Record

/-- **A round is closed on exactly as many senders as it needs**, and a sender that is heard a
second time ends the run before the round is asked anything. This is so for all rounds that know
whom they have heard and do not change their mind on how many they need. The calls that are looked
at are all that a run makes: it is the same with any protocol that answers them alike. -/
theorem quorum_of_play (P : Protocol σ M R) (selfId : PartyId) (peerCount : ℕ) (first : σ)
    (types : List MessageType) (tracks : P.Tracks first) (happenings : List (Happening M)) :
    let start := initial (Engine.create P selfId peerCount first types)
    let r := start.play P happenings
    let visit := Visit.replay P first (start.asked P happenings)
    (∀ before round after, start.asked P happenings = before ++ .close round :: after →
      P.ClosedOn first round (Visit.replay P first before)) ∧
    (∀ e round count m mailboxes, r.situation = .waiting e →
      Engine.Pops e round count m mailboxes → Tagged.sender m ∈ visit.senders →
        (r.react P .move).engine.state = .failed ∧
        (r.react P .move).engine.result =
          .error (.duplicateSender (Tagged.sender m) (P.tag visit.opened)) ∧
        r.askedBy P .move = [] ∧ (r.react P .move).handled = r.handled) ∧
    ∀ P', P.SameFrame P' → (∀ call ∈ start.asked P happenings, P.AgreesOn P' call) →
      start.play P' happenings = r := by
  intro start r visit
  refine ⟨?_, ?_, fun P' frame agrees => play_congr frame agrees⟩
  · intro before round after hasked
    cases makes_of_asked_eq P selfId peerCount first types hasked with
    | close visits enough => exact tracks.closedOn visits enough
  · intro e round count m mailboxes hwaiting pops hsender
    have hagrees : visit.Agrees P first r.situation :=
      agrees_of_play P selfId peerCount first types happenings
    rw [hwaiting] at hagrees
    obtain ⟨tag, -, visits, -⟩ := hagrees _ _ (Engine.progress?_of_inProgress pops.inProgress)
    -- The round knows the sender, and so the move that pops the message ends the run.
    have handled := (tracks.handled _ _ visits _).mpr hsender
    have hadvance := Engine.advance_of_pops P pops
    rw [Engine.consume, if_pos handled] at hadvance
    have hmove : r.react P .move =
        ⟨.waiting (Engine.finish { e with mailboxes }
          (.error (.duplicateSender (Tagged.sender m) e.tag))),
          r.delivered, r.handled, r.handed⟩ := by
      show r.move P = _
      rw [move, hwaiting]
      dsimp only
      rw [hadvance]
      dsimp only
      rw [Engine.given_of_pops pops, if_pos handled, List.append_nil]
    refine ⟨?_, ?_, ?_, ?_⟩
    · rw [hmove]
      rfl
    · rw [hmove, ← tag]
      rfl
    · rw [askedBy, hwaiting]
      exact Engine.asks_of_repeated pops handled
    · rw [hmove]

end Record

namespace Script

variable {V : Type}

/-- What a round in progress of a table has noted during a visit. -/
structure Noted (rows : List ScriptedRound) (visit : Visit (Script V) (Note V)) (s : Script V) :
    Prop where
  table : s.table = rows
  row : s.round ∈ rows
  opened : visit.opened.round = s.round
  seen : s.seen.map (·.1) = visit.senders

theorem Noted.take {rows : List ScriptedRound} {visit : Visit (Script V) (Note V)}
    {s s' : Script V} {m : Note V} (h : Noted rows visit s) (handle : s.take m = .ok s') :
    Noted rows (visit.accept m) s' := by
  unfold Script.take at handle
  split at handle
  · cases handle
  · split at handle
    · cases handle
    · cases handle
      refine ⟨h.table, h.row, h.opened, ?_⟩
      rw [Visit.senders_accept, ← h.seen, List.map_append]
      rfl

/-- The next round is a row of the same table, and it has noted nothing. -/
theorem Noted.close {rows : List ScriptedRound} {visit : Visit (Script V) (Note V)}
    {s later : Script V} {outbox : List (PartyId × Note V)} (h : Noted rows visit s)
    (close : s.close = .ok ⟨outbox, .next later⟩) : Noted rows ⟨later, []⟩ later := by
  unfold Script.close at close
  split at close
  · cases close
  · split at close
    · cases close
    · rw [Except.ok.injEq, Closing.mk.injEq] at close
      have transition := close.2
      split at transition
      · cases transition
      · rename_i index round follows
        obtain rfl := Transition.next.inj transition
        refine ⟨h.table, ?_, rfl, rfl⟩
        obtain ⟨index', -, hrow⟩ := Option.bind_eq_some_iff.mp follows
        obtain ⟨round', hget, hround⟩ := Option.map_eq_some_iff.mp hrow
        cases hround
        rw [← h.table]
        exact List.mem_of_getElem? hget

theorem noted_of_visits {round : ScriptedRound} {rounds : List ScriptedRound}
    {visit : Visit (Script V) (Note V)} {s : Script V}
    (visits : Protocol.Visits protocol (first round rounds) visit s) :
    Noted (round :: rounds) visit s := by
  induction visits with
  | first => exact ⟨rfl, List.mem_cons_self, rfl, rfl⟩
  | takes _ _ _ takes ih => exact ih.take takes.handle
  | next _ _ close ih => exact ih.close close

/-- **The rounds of a table** know whom they have heard, if none of them forgets. -/
theorem tracks_protocol {round : ScriptedRound} {rounds : List ScriptedRound}
    (remembers : ∀ row ∈ round :: rounds, row.forgets = false) :
    (protocol (V := V)).Tracks (first round rounds) where
  handled visit s visits id := by
    have noted := noted_of_visits visits
    show (!s.round.forgets && s.seen.any (·.1 == id)) = true ↔ _
    rw [remembers _ noted.row, Bool.not_false, Bool.true_and, List.any_eq_true, ← noted.seen,
      List.mem_map]
    simp only [beq_iff_eq]
  quota visit s visits := by
    show s.round.quota = visit.opened.round.quota
    rw [(noted_of_visits visits).opened]

/-- Two rounds of one tag, and so with one mailbox, each of which takes two messages. -/
def relay : Script ℕ :=
  .first ⟨1, 2, [], [], none, false, false, .nextRow⟩ [⟨1, 2, [], [], none, false, false, .finish⟩]

/-- The first round is over after two messages, and the second one gets two of one sender. -/
def relayed : List (Happening (Note ℕ)) :=
  [.deliver "b" ⟨"b", 1, 10⟩, .deliver "c" ⟨"c", 1, 11⟩, .deliver "b" ⟨"b", 1, 20⟩,
    .deliver "b" ⟨"b", 1, 21⟩, .start, .move, .move, .move]

/-- **Two rounds that share a mailbox** are told apart: the sender that the first one has heard is
new to the second, and only there its second message ends the run. -/
theorem repeated_relayed :
    let start := Record.initial (Engine.create protocol "a" 4 relay [1])
    (∃ round, (start.asked protocol relayed)[2]? = some (.close round) ∧
      protocol.ClosedOn relay round ⟨relay, [⟨"b", 1, 10⟩, ⟨"c", 1, 11⟩]⟩) ∧
    ((start.play protocol relayed).react protocol .move).engine.result =
      .error (.duplicateSender "b" 1) := by
  have tracks : (protocol (V := ℕ)).Tracks relay := tracks_protocol (by decide)
  obtain ⟨closed, repeated, -⟩ := Record.quorum_of_play protocol "a" 4 relay [1] tracks relayed
  refine ⟨⟨_, rfl, closed [_, _] _ _ rfl⟩, ?_⟩
  exact (repeated _ _ _ ⟨"b", 1, 21⟩ _ rfl ⟨rfl, rfl⟩ (by decide)).2.1

end Script

end RankedKeys
