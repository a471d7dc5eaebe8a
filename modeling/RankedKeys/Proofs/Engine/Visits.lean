import RankedKeys.Proofs.Engine.Ascent
import RankedKeys.Proofs.Engine.Calls

/-!
# Visits of rounds

The calls of a run tell which round is active and what it has accepted since it became active. An
engine counts messages on its own, and counts anew whenever a round becomes active, even if the
round before had the same tag and so the same mailbox, or if a round is visited again: its count is
the number of messages that the calls tell of.

## Main definitions

* `Visit`, `Visit.replay`: the round that is active after some calls, as it was when it became
  active, and the messages that it has accepted since
* `Protocol.Visits P first visit round`: a round in progress during a visit
* `Visit.Makes P first visit call`: a call that is made during a visit
* `Visit.Agrees P first visit situation`: an engine agrees with a visit

## Main results

* `Visit.Agrees.play`: an engine agrees with the visit that the calls of its run tell of
* `Record.exists_visits_of_progress`: every round in progress is visited
* `Record.makes_of_asked_eq`: every call is made during the visit that the calls before tell of
-/

namespace RankedKeys

variable {σ M R : Type} [Tagged M]

/-! ## Visits -/

/-- **A visit of a round**: the round as it was when it became active, and the messages that it has
accepted since. -/
structure Visit (σ M : Type) where
  opened : σ
  accepted : List M

namespace Visit

/-- The senders that have been heard, first to last. -/
def senders (visit : Visit σ M) : List PartyId :=
  visit.accepted.map Tagged.sender

/-- One message more is accepted. -/
def accept (visit : Visit σ M) (m : M) : Visit σ M :=
  { visit with accepted := visit.accepted ++ [m] }

/-- The visit after a call. When a round is closed and leads to another one, a new visit begins. -/
def after (P : Protocol σ M R) (visit : Visit σ M) : Call σ M → Visit σ M
  | .handle round m =>
    match P.handle round m with
    | .ok _ => visit.accept m
    | .error _ => visit
  | .close round =>
    match P.close round with
    | .ok ⟨_, .next later⟩ => ⟨later, []⟩
    | _ => visit

/-- **The visit** after some calls. -/
def replay (P : Protocol σ M R) (first : σ) (calls : List (Call σ M)) : Visit σ M :=
  calls.foldl (after P) ⟨first, []⟩

omit [Tagged M] in
theorem replay_append (P : Protocol σ M R) (first : σ) (calls calls' : List (Call σ M)) :
    replay P first (calls ++ calls') = calls'.foldl (after P) (replay P first calls) :=
  List.foldl_append

@[simp] theorem senders_accept (visit : Visit σ M) (m : M) :
    (visit.accept m).senders = visit.senders ++ [Tagged.sender m] := by
  simp [senders, accept]

omit [Tagged M] in
@[simp] theorem length_accepted_accept (visit : Visit σ M) (m : M) :
    (visit.accept m).accepted.length = visit.accepted.length + 1 := by
  simp [accept]

end Visit

namespace Protocol

/-- A round has accepted enough. It is never closed before it has accepted anything. -/
def Enough (P : Protocol σ M R) (visit : Visit σ M) (round : σ) : Prop :=
  visit.accepted ≠ [] ∧ P.quota round ≤ visit.accepted.length

/-- **The rounds in progress** during the visits of a protocol: a round accepts messages of the tag
that it had when it became active until it has enough, and then it is closed. -/
inductive Visits (P : Protocol σ M R) (first : σ) : Visit σ M → σ → Prop
  | first : Visits P first ⟨first, []⟩ first
  | takes {visit : Visit σ M} {round round' : σ} {m : M} (visits : Visits P first visit round)
    (waits : ¬ P.Enough visit round) (own : Tagged.tag m = P.tag visit.opened)
    (takes : P.Takes round m round') : Visits P first (visit.accept m) round'
  | next {visit : Visit σ M} {round later : σ} {outbox : List (PartyId × M)}
    (visits : Visits P first visit round) (enough : P.Enough visit round)
    (close : P.close round = .ok ⟨outbox, .next later⟩) : Visits P first ⟨later, []⟩ later

variable {P : Protocol σ M R} {first round : σ} {visit : Visit σ M}

omit [Tagged M] in
/-- A round that has just become active waits for a message. -/
theorem not_enough_of_nil (P : Protocol σ M R) (round opened : σ) :
    ¬ P.Enough (⟨opened, []⟩ : Visit σ M) round :=
  fun enough => enough.1 rfl

/-- All messages that a round accepts have the tag that it had when it became active. -/
theorem Visits.own (visits : P.Visits first visit round) :
    ∀ m ∈ visit.accepted, Tagged.tag m = P.tag visit.opened := by
  induction visits with
  | first => exact fun _ hm => absurd hm List.not_mem_nil
  | takes _ _ own _ ih =>
    intro m' hm'
    rcases List.mem_append.mp hm' with hm' | hm'
    · exact ih m' hm'
    · rw [List.mem_singleton.mp hm']
      exact own
  | next => exact fun _ hm => absurd hm List.not_mem_nil

end Protocol

/-- **A call that is made during a visit**. -/
inductive Visit.Makes (P : Protocol σ M R) (first : σ) (visit : Visit σ M) : Call σ M → Prop
  | handle {round : σ} {m : M} (visits : P.Visits first visit round)
    (fresh : P.handled round (Tagged.sender m) = false) : Makes P first visit (.handle round m)
  | close {round : σ} (visits : P.Visits first visit round) (enough : P.Enough visit round) :
    Makes P first visit (.close round)

/-! ## The engine during a visit -/

open Engine (Situation)

namespace Visit

variable {P : Protocol σ M R} {first : σ} {visit : Visit σ M}

/-- **An engine agrees with a visit**: it is in a round of that visit, shows its tag, and has
counted its messages; or the round has been closed, and the visit of the next one begins as soon as
all messages are handed over. -/
def Agrees (P : Protocol σ M R) (first : σ) (visit : Visit σ M) : Situation σ M R → Prop
  | .waiting e => ∀ round count, e.consumer.progress? = some (round, count) →
    e.tag = P.tag visit.opened ∧ count = visit.accepted.length ∧ P.Visits first visit round ∧
      ¬ P.Enough visit round
  | .handing e closing => (∀ later, closing.transition = .next later →
      visit = ⟨later, []⟩ ∧ P.Visits first visit later) ∧
    ∀ round count, e.consumer.progress? = some (round, count) →
      ∃ before, P.Visits first before round

namespace Agrees

variable {e : Engine σ M R} {s : Situation σ M R}

/-- An engine whose run is over is in no round. -/
theorem of_ended (h : e.consumer = .ended) : visit.Agrees P first (.waiting e) := by
  intro round count hprogress
  rw [h] at hprogress
  cases hprogress

/-- What leaves the tag and the round in progress alone changes nothing. -/
theorem withEngine {e' : Engine σ M R} (h : visit.Agrees P first s)
    (tag : e'.tag = s.engine.tag)
    (progress : e'.consumer.progress? = s.engine.consumer.progress?) :
    visit.Agrees P first (s.withEngine e') := by
  cases s with
  | handing e closing =>
    exact ⟨h.1, fun round count hprogress => h.2 round count (progress.symm.trans hprogress)⟩
  | waiting e =>
    intro round count hprogress
    rw [tag]
    exact h round count (progress.symm.trans hprogress)

/-- The next round becomes active when all messages have been handed over. -/
theorem settle {outbox : List (PartyId × M)} {transition : Transition σ R}
    (h : visit.Agrees P first (.handing e ⟨outbox, transition⟩)) :
    visit.Agrees P first ((Situation.handing e ⟨outbox, transition⟩).settle P) := by
  cases outbox with
  | cons letter outbox => exact h
  | nil =>
    cases transition with
    | done output => exact of_ended rfl
    | next later =>
      obtain ⟨rfl, visits⟩ := h.1 later rfl
      rintro _ _ ⟨⟩
      exact ⟨rfl, rfl, visits, Protocol.not_enough_of_nil P _ _⟩

/-- **A move** and its calls. -/
theorem move (h : visit.Agrees P first (.waiting e)) (delivered handed : List (Passed M))
    (handled : List M) :
    ((e.asks P).foldl (after P) visit).Agrees P first
      (Record.move P ⟨.waiting e, delivered, handled, handed⟩).situation := by
  have moves := Engine.moves_advance P e
  have silent : (∀ round count m mailboxes, ¬ Engine.Pops e round count m mailboxes) →
      (e.asks P).foldl (after P) visit = visit := by
    intro hnone
    rw [Engine.asks_eq_nil hnone, List.foldl_nil]
  unfold Record.move
  dsimp only
  generalize hadvance : e.advance P = move at moves ⊢
  cases moves with
  | rest =>
    rwa [silent fun _ _ _ _ pops => Engine.advance_ne_rest pops hadvance]
  | wakes spawned live waits =>
    rw [silent fun _ _ _ _ pops => nomatch waits.symm.trans pops.pop]
    exact h.withEngine (s := .waiting e) rfl (by rw [Situation.engine, spawned]; rfl)
  | breaksOff => exact of_ended rfl
  | repeated => exact of_ended rfl
  | refuses => exact of_ended rfl
  | failsToClose => exact of_ended rfl
  | takes pops fresh handle short =>
    obtain ⟨tag, rfl, visits, waits⟩ := h _ _ (Engine.progress?_of_inProgress pops.inProgress)
    rw [Engine.asks_of_takes pops ⟨fresh, handle⟩ short, List.foldl_cons, List.foldl_nil, after,
      handle]
    rintro _ _ ⟨⟩
    refine ⟨tag, (length_accepted_accept _ _).symm,
      visits.takes waits (pops.own.1.trans tag) ⟨fresh, handle⟩, fun enough => ?_⟩
    have hge := enough.2
    rw [length_accepted_accept] at hge
    omega
  | @closes round round' count m mailboxes closing pops fresh handle enough close =>
    obtain ⟨tag, rfl, visits, waits⟩ := h _ _ (Engine.progress?_of_inProgress pops.inProgress)
    have hvisits := visits.takes waits (pops.own.1.trans tag) ⟨fresh, handle⟩
    have henough : P.Enough (visit.accept m) round' := by
      refine ⟨?_, by rwa [length_accepted_accept]⟩
      simp [accept]
    rw [Engine.asks_of_closes pops ⟨fresh, handle⟩ enough, List.foldl_cons, List.foldl_cons,
      List.foldl_nil, after, handle, after, close]
    rcases closing with ⟨outbox, transition⟩
    refine settle ⟨?_, ?_⟩
    · rintro later ⟨⟩
      exact ⟨rfl, hvisits.next henough close⟩
    · rintro _ _ ⟨⟩
      exact ⟨_, hvisits⟩

/-- A shutdown ends the run, or it leaves the round alone. -/
theorem shutdown (h : visit.Agrees P first (.waiting e)) :
    visit.Agrees P first (.waiting e.shutdown) := by
  unfold Engine.shutdown
  split
  · split
    · exact of_ended rfl
    · exact h
  · exact h.withEngine (s := .waiting e) rfl rfl

theorem deliver {r : Record σ M R} (h : visit.Agrees P first r.situation) (sender : PartyId)
    (m : M) : visit.Agrees P first (r.deliver sender m).situation := by
  unfold Record.deliver
  split
  · exact h
  · rename_i e' taken
    obtain ⟨-, -, mailboxes, -, rfl⟩ := Engine.addMessage_eq_ok_iff.mp taken
    exact h.withEngine rfl rfl

theorem answer {r : Record σ M R} (h : visit.Agrees P first r.situation)
    (answer : Except Error Unit) : visit.Agrees P first (r.answer P answer).situation := by
  unfold Record.answer
  split
  · rename_i e peer m later transition hsituation
    rw [hsituation] at h
    cases answer with
    | error error => exact of_ended rfl
    | ok u => exact settle h
  · exact h

/-- **Every happening**, with its calls, leaves it so. -/
theorem react {r : Record σ M R} (h : visit.Agrees P first r.situation) (happening : Happening M) :
    ((r.askedBy P happening).foldl (after P) visit).Agrees P first
      (r.react P happening).situation := by
  rcases r with ⟨situation, delivered, handled, handed⟩
  cases happening with
  | start => exact h.withEngine (Engine.tag_start _) (Engine.progress?_start _)
  | stop => exact h.withEngine rfl rfl
  | shutdown =>
    cases situation with
    | waiting e => exact h.shutdown
    | handing e closing => exact h
  | deliver sender m => exact h.deliver sender m
  | move =>
    cases situation with
    | handing e closing => exact h
    | waiting e => exact h.move delivered handed handled
  | answer reply => exact h.answer reply

/-- **A run**, with all of its calls, leaves it so. -/
theorem play {r : Record σ M R} (h : visit.Agrees P first r.situation)
    (happenings : List (Happening M)) :
    ((r.asked P happenings).foldl (after P) visit).Agrees P first
      (r.play P happenings).situation := by
  induction happenings generalizing r visit with
  | nil => exact h
  | cons happening happenings ih =>
    rw [Record.asked, List.foldl_append]
    exact ih (h.react happening)

/-- **A call** is made during the visit that the calls before it tell of. -/
theorem makes (h : visit.Agrees P first (.waiting e)) {call : Call σ M}
    {own later : List (Call σ M)} (hasks : e.asks P = own ++ call :: later) :
    (own.foldl (after P) visit).Makes P first call := by
  obtain ⟨round, count, m, mailboxes, pops, fresh, hcall⟩ := Engine.exists_pops_of_asks_eq hasks
  obtain ⟨tag, rfl, visits, waits⟩ := h _ _ (Engine.progress?_of_inProgress pops.inProgress)
  rcases hcall with ⟨rfl, rfl⟩ | ⟨round', takes, enough, rfl, rfl⟩
  · exact .handle visits fresh
  · rw [List.foldl_cons, List.foldl_nil, after, takes.handle]
    refine .close (visits.takes waits (pops.own.1.trans tag) takes) ⟨by simp [accept], ?_⟩
    rwa [length_accepted_accept]

end Agrees

end Visit

/-! ## Runs from the start -/

namespace Record

variable (P : Protocol σ M R) (selfId : PartyId) (peerCount : ℕ) (first : σ)
  (types : List MessageType)

/-- **A run** agrees with the visit that its calls tell of. -/
theorem agrees_of_play (happenings : List (Happening M)) :
    let start := initial (Engine.create P selfId peerCount first types)
    (Visit.replay P first (start.asked P happenings)).Agrees P first
      (start.play P happenings).situation := by
  refine Visit.Agrees.play ?_ happenings
  rintro _ _ ⟨⟩
  exact ⟨rfl, rfl, .first, Protocol.not_enough_of_nil P _ _⟩

/-- **Every round in progress** is visited. -/
theorem exists_visits_of_progress (happenings : List (Happening M)) {round : σ} {count : ℕ}
    (progress : ((initial (Engine.create P selfId peerCount first types)).play P
      happenings).engine.consumer.progress? = some (round, count)) :
    ∃ visit, P.Visits first visit round := by
  have hagrees := agrees_of_play P selfId peerCount first types happenings
  rw [engine] at progress
  dsimp only at hagrees
  generalize ((initial (Engine.create P selfId peerCount first types)).play P
    happenings).situation = situation at progress hagrees
  cases situation with
  | waiting e => exact ⟨_, (hagrees round count progress).2.2.1⟩
  | handing e closing => exact hagrees.2 round count progress

/-- **Every call** is made during the visit that the calls before it tell of. -/
theorem makes_of_asked_eq {happenings : List (Happening M)} {call : Call σ M}
    {before after : List (Call σ M)}
    (h : (initial (Engine.create P selfId peerCount first types)).asked P happenings =
      before ++ call :: after) : (Visit.replay P first before).Makes P first call := by
  obtain ⟨earlier, happening, own, later, rfl, hby⟩ := exists_of_asked_eq h
  rw [Visit.replay_append]
  have hagrees := agrees_of_play P selfId peerCount first types earlier
  unfold askedBy at hby
  split at hby
  · split at hby
    · rename_i e hwaiting
      dsimp only at hagrees
      rw [hwaiting] at hagrees
      exact hagrees.makes hby
    · exact absurd hby (by simp)
  · exact absurd hby (by simp)

end Record

end RankedKeys
