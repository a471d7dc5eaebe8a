import RankedKeys.Proofs.Engine.Record

/-!
# Trails

How the rounds of a protocol follow each other by themselves: from the first round on, each message
that a round takes leads on, and the last one that it needs closes it. A record always agrees with
a trail. What has been handled leads to the round in progress, and what has been handed over is what
the rounds on the way left in their outboxes; only a peer that refuses a message keeps the rest of
an outbox back, and that ends the run.

## Main definitions

* `Protocol.Takes`: a round takes a message in
* `Trail P first tag round count handled handed`: the messages lead to a round in progress
* `Trail.Closes P first tag handled handed closing`: the messages lead to the end of a round
* `Record.Follows P first r`: a record agrees with a trail

## Main results

* `Record.Follows.react`: every happening leaves it so
* `Record.follows_of_play`: a recorded run follows a trail
-/

namespace RankedKeys

variable {σ M R : Type} [Tagged M]

/-- A round in progress takes a message in, of a sender that it has not heard. -/
structure Protocol.Takes (P : Protocol σ M R) (round : σ) (m : M) (round' : σ) : Prop where
  fresh : P.handled round (Tagged.sender m) = false
  handle : P.handle round m = .ok round'

/-- **A trail** of a protocol: messages that lead from the first round to a round in progress,
which has the given tag and has taken some messages in, and what has been left in outboxes on the
way. -/
inductive Trail (P : Protocol σ M R) (first : σ) :
    MessageType → σ → ℕ → List M → List (PartyId × M) → Prop
  | start : Trail P first (P.tag first) first 0 [] []
  | takes {tag : MessageType} {round round' : σ} {count : ℕ} {m : M} {handled : List M}
    {handed : List (PartyId × M)} (trail : Trail P first tag round count handled handed)
    (takes : P.Takes round m round') (short : count + 1 < P.quota round') :
    Trail P first tag round' (count + 1) (handled ++ [m]) handed
  | next {tag : MessageType} {round round' : σ} {count : ℕ} {m : M} {handled : List M}
    {handed outbox : List (PartyId × M)} {later : σ}
    (trail : Trail P first tag round count handled handed) (takes : P.Takes round m round')
    (enough : P.quota round' ≤ count + 1) (close : P.close round' = .ok ⟨outbox, .next later⟩) :
    Trail P first (P.tag later) later 0 (handled ++ [m]) (handed ++ outbox)

/-- A trail whose last message closes a round; what is left in the outbox of that round comes
after what the rounds before left in theirs. -/
inductive Trail.Closes (P : Protocol σ M R) (first : σ) :
    MessageType → List M → List (PartyId × M) → Closing σ M R → Prop
  | intro {tag : MessageType} {round round' : σ} {count : ℕ} {m : M} {handled : List M}
    {handed : List (PartyId × M)} {closing : Closing σ M R}
    (trail : Trail P first tag round count handled handed) (takes : P.Takes round m round')
    (enough : P.quota round' ≤ count + 1) (close : P.close round' = .ok closing) :
    Closes P first tag (handled ++ [m]) handed closing

/-- The end of a round leads to the next one. -/
theorem Trail.Closes.next {P : Protocol σ M R} {first later : σ} {tag : MessageType}
    {handled : List M} {handed outbox : List (PartyId × M)}
    (h : Closes P first tag handled handed ⟨outbox, .next later⟩) :
    Trail P first (P.tag later) later 0 handled (handed ++ outbox) := by
  cases h with
  | intro trail takes enough close => exact .next trail takes enough close

open Engine (Situation)

namespace Record

variable {P : Protocol σ M R} {first : σ}

/-- The peers have taken all messages that were handed to them. -/
def AllTaken (handed : List (Passed M)) : Prop :=
  ∀ p ∈ handed, p.answer = .ok ()

/-- **A record that follows a trail**, by how the run stands. -/
inductive Follows (P : Protocol σ M R) (first : σ) : Record σ M R → Prop
  /-- The consumer is in a round, or it has not been started. -/
  | ongoing {e : Engine σ M R} {delivered handed : List (Passed M)} {handled : List M} {round : σ}
    {count : ℕ} (progress : e.consumer.progress? = some (round, count))
    (outcome : e.outcome = none)
    (trail : Trail P first e.tag round count handled (handed.map Passed.letter))
    (taken : AllTaken handed) : Follows P first ⟨.waiting e, delivered, handled, handed⟩
  /-- A round is closed, and some of its messages have not been handed over. -/
  | handing {e : Engine σ M R} {delivered handed : List (Passed M)} {handled : List M}
    {outbox before later : List (PartyId × M)} {transition : Transition σ R}
    (outcome : e.outcome = none)
    (closes : Trail.Closes P first e.tag handled before ⟨outbox, transition⟩)
    (taken : AllTaken handed) (split : handed.map Passed.letter ++ later = before ++ outbox)
    (pending : later ≠ []) :
    Follows P first ⟨.handing e ⟨later, transition⟩, delivered, handled, handed⟩
  /-- The run has got to its output. -/
  | done {e : Engine σ M R} {delivered handed : List (Passed M)} {handled : List M}
    {outbox before : List (PartyId × M)} {output : R} (consumer : e.consumer = .ended)
    (outcome : e.outcome = some (.ok output))
    (closes : Trail.Closes P first e.tag handled before ⟨outbox, .done output⟩)
    (taken : AllTaken handed) (split : handed.map Passed.letter = before ++ outbox) :
    Follows P first ⟨.waiting e, delivered, handled, handed⟩
  /-- The run has failed in a round, with the message that was handled last or without. -/
  | failed {e : Engine σ M R} {delivered handed : List (Passed M)} {handled more : List M}
    {round : σ} {count : ℕ} {error : Error} (consumer : e.consumer = .ended)
    (outcome : e.outcome = some (.error error))
    (trail : Trail P first e.tag round count handled (handed.map Passed.letter))
    (taken : AllTaken handed) :
    Follows P first ⟨.waiting e, delivered, handled ++ more, handed⟩
  /-- A peer has refused a message, and the run has failed for that. -/
  | refused {e : Engine σ M R} {delivered handed : List (Passed M)} {handled : List M}
    {outbox before later : List (PartyId × M)} {transition : Transition σ R} {peer : PartyId}
    {m : M} {error : Error} (consumer : e.consumer = .ended)
    (outcome : e.outcome = some (.error (.finalizeFailed error.message)))
    (closes : Trail.Closes P first e.tag handled before ⟨outbox, transition⟩)
    (taken : AllTaken handed)
    (split : handed.map Passed.letter ++ (peer, m) :: later = before ++ outbox) :
    Follows P first
      ⟨.waiting e, delivered, handled, handed ++ [⟨peer, m, .error error⟩]⟩

/-! ## Every happening keeps to the trail -/

/-- A consumer that has ended does not move. -/
theorem move_of_ended {e : Engine σ M R} (consumer : e.consumer = .ended)
    (delivered handed : List (Passed M)) (handled : List M) :
    Record.move P ⟨.waiting e, delivered, handled, handed⟩ =
      ⟨.waiting e, delivered, handled, handed⟩ := by
  simp [move, Engine.advance_of_ended consumer]

namespace Follows

variable {e : Engine σ M R} {delivered handed : List (Passed M)} {handled : List M}

/-- What does not touch consumer, tag and outcome of an engine changes nothing. -/
theorem withEngine {situation : Situation σ M R} {e' : Engine σ M R}
    (h : Follows P first ⟨situation, delivered, handled, handed⟩)
    (delivered' : List (Passed M))
    (progress : e'.consumer.progress? = situation.engine.consumer.progress?)
    (ended : situation.engine.consumer = .ended → e'.consumer = .ended)
    (tag : e'.tag = situation.engine.tag) (outcome : e'.outcome = situation.engine.outcome) :
    Follows P first ⟨situation.withEngine e', delivered', handled, handed⟩ := by
  cases h with
  | ongoing progress' outcome' trail taken =>
    exact .ongoing (progress.trans progress') (outcome.trans outcome') (tag ▸ trail) taken
  | handing outcome' closes taken split pending =>
    exact .handing (outcome.trans outcome') (tag ▸ closes) taken split pending
  | done consumer outcome' closes taken split =>
    exact .done (ended consumer) (outcome.trans outcome') (tag ▸ closes) taken split
  | failed consumer outcome' trail taken =>
    exact .failed (ended consumer) (outcome.trans outcome') (tag ▸ trail) taken
  | refused consumer outcome' closes taken split =>
    exact .refused (ended consumer) (outcome.trans outcome') (tag ▸ closes) taken split

/-- A round is closed: its messages are handed over, or there are none. -/
theorem settle {outbox before later : List (PartyId × M)} {transition : Transition σ R}
    (outcome : e.outcome = none)
    (closes : Trail.Closes P first e.tag handled before ⟨outbox, transition⟩)
    (taken : AllTaken handed) (split : handed.map Passed.letter ++ later = before ++ outbox) :
    Follows P first
      ⟨(Situation.handing e ⟨later, transition⟩).settle P, delivered, handled, handed⟩ := by
  cases later with
  | cons letter later => exact .handing outcome closes taken split (List.cons_ne_nil _ _)
  | nil =>
    rw [List.append_nil] at split
    cases transition with
    | done output => exact .done rfl rfl closes taken split
    | next round =>
      refine .ongoing (e := { e with tag := P.tag round, consumer := .active round 0 }) rfl outcome
        ?_ taken
      rw [split]
      exact closes.next

theorem answer {outbox before later : List (PartyId × M)} {transition : Transition σ R}
    {peer : PartyId} {m : M} (outcome : e.outcome = none)
    (closes : Trail.Closes P first e.tag handled before ⟨outbox, transition⟩)
    (taken : AllTaken handed)
    (split : handed.map Passed.letter ++ (peer, m) :: later = before ++ outbox)
    (answer : Except Error Unit) :
    Follows P first (Record.answer P
      ⟨.handing e ⟨(peer, m) :: later, transition⟩, delivered, handled, handed⟩ answer) := by
  cases answer with
  | error error => exact .refused rfl rfl closes taken split
  | ok u =>
    refine settle outcome closes (fun p hp => ?_) ?_
    · rcases List.mem_append.mp hp with hp | hp
      · exact taken p hp
      · rw [List.mem_singleton.mp hp]
    · rw [← split, List.map_append, List.append_assoc]
      rfl

/-- **A move** takes the next message of a trail, or it ends the run. -/
theorem move {round : σ} {count : ℕ} (progress : e.consumer.progress? = some (round, count))
    (outcome : e.outcome = none)
    (trail : Trail P first e.tag round count handled (handed.map Passed.letter))
    (taken : AllTaken handed) :
    Follows P first (Record.move P ⟨.waiting e, delivered, handled, handed⟩) := by
  have moves := Engine.moves_advance P e
  unfold Record.move
  dsimp only
  generalize e.advance P = move at moves ⊢
  cases moves with
  | rest => exact .ongoing progress outcome trail taken
  | wakes spawned live waits =>
    rw [spawned] at progress
    dsimp only
    rw [Engine.given_eq_nil (by simp [waits]), List.append_nil]
    exact .ongoing (e := { e with consumer := _ }) progress outcome trail taken
  -- The run ends, whether the last message has been given to the round or not.
  | breaksOff inProgress pop => exact .failed rfl rfl trail taken
  | repeated pops handled => exact .failed (e := Engine.finish _ _) rfl rfl trail taken
  | refuses pops fresh handle => exact .failed (e := Engine.finish _ _) rfl rfl trail taken
  | failsToClose pops fresh handle enough close =>
    exact .failed (e := Engine.finish _ _) rfl rfl trail taken
  | takes pops fresh handle short =>
    cases progress.symm.trans (Engine.progress?_of_inProgress pops.inProgress)
    dsimp only
    rw [Engine.given_of_fresh pops fresh]
    exact .ongoing (e := { e with mailboxes := _, consumer := _ }) rfl outcome
      (trail.takes ⟨fresh, handle⟩ short) taken
  | closes pops fresh handle enough close =>
    cases progress.symm.trans (Engine.progress?_of_inProgress pops.inProgress)
    dsimp only
    rw [Engine.given_of_fresh pops fresh]
    exact settle (e := { e with mailboxes := _, consumer := _ }) outcome
      (.intro trail ⟨fresh, handle⟩ enough close) taken rfl

theorem start {situation : Situation σ M R}
    (h : Follows P first ⟨situation, delivered, handled, handed⟩) :
    Follows P first ⟨situation.withEngine situation.engine.start, delivered, handled, handed⟩ := by
  refine h.withEngine delivered (Engine.progress?_start _) (fun ended => ?_) (Engine.tag_start _)
    (Engine.outcome_start _)
  simp [Engine.start, ended]

/-- A shutdown ends the run of a consumer that has had a turn. -/
theorem shutdown (h : Follows P first ⟨.waiting e, delivered, handled, handed⟩) :
    Follows P first ⟨.waiting e.shutdown, delivered, handled, handed⟩ := by
  unfold Engine.shutdown
  split
  · rename_i round count active
    split
    · cases h with
      | ongoing progress outcome trail taken =>
        rw [← List.append_nil handled]
        exact .failed (e := { Engine.finish _ _ with live := false }) rfl rfl trail taken
      | done consumer => exact absurd (active.symm.trans consumer) (by simp)
      | failed consumer => exact absurd (active.symm.trans consumer) (by simp)
      | refused consumer => exact absurd (active.symm.trans consumer) (by simp)
    · exact h
  · show Follows P first ⟨.waiting { e with live := false }, delivered, handled, handed⟩
    exact h.withEngine delivered rfl id rfl rfl

theorem deliver {situation : Situation σ M R}
    (h : Follows P first ⟨situation, delivered, handled, handed⟩) (sender : PartyId) (m : M) :
    Follows P first (Record.deliver ⟨situation, delivered, handled, handed⟩ sender m) := by
  unfold Record.deliver
  split
  · have hsame : situation.withEngine situation.engine = situation := by cases situation <;> rfl
    dsimp only
    rw [← hsame]
    exact h.withEngine _ rfl id rfl rfl
  · rename_i e' taken
    obtain ⟨-, -, mailboxes, -, rfl⟩ := Engine.addMessage_eq_ok_iff.mp taken
    exact h.withEngine _ rfl id rfl rfl

/-- **Every happening** keeps a record to its trail. -/
theorem react {r : Record σ M R} (h : Follows P first r) (happening : Happening M) :
    Follows P first (r.react P happening) := by
  rcases r with ⟨situation, delivered, handled, handed⟩
  cases happening with
  | start => exact h.start
  | stop => exact h.withEngine delivered rfl id rfl rfl
  | deliver sender m => exact h.deliver sender m
  | shutdown =>
    cases situation with
    | waiting e => exact h.shutdown
    | handing e closing => exact h
  | move =>
    cases h with
    | ongoing progress outcome trail taken => exact move progress outcome trail taken
    | handing outcome closes taken split pending =>
      exact .handing outcome closes taken split pending
    | done consumer outcome closes taken split =>
      rw [Record.react, move_of_ended consumer]
      exact .done consumer outcome closes taken split
    | failed consumer outcome trail taken =>
      rw [Record.react, move_of_ended consumer]
      exact .failed consumer outcome trail taken
    | refused consumer outcome closes taken split =>
      rw [Record.react, move_of_ended consumer]
      exact .refused consumer outcome closes taken split
  | answer reply =>
    cases h with
    | @handing _ _ _ _ _ _ later transition outcome closes taken split pending =>
      cases later with
      | nil => exact absurd rfl pending
      | cons letter later => exact answer outcome closes taken split reply
    -- Nobody waits for an answer.
    | ongoing progress outcome trail taken => exact .ongoing progress outcome trail taken
    | done consumer outcome closes taken split => exact .done consumer outcome closes taken split
    | failed consumer outcome trail taken => exact .failed consumer outcome trail taken
    | refused consumer outcome closes taken split =>
      exact .refused consumer outcome closes taken split

end Follows

/-- **A recorded run** follows a trail. -/
theorem follows_of_play (P : Protocol σ M R) (selfId : PartyId) (peerCount : ℕ) (first : σ)
    (types : List MessageType) (happenings : List (Happening M)) :
    Follows P first
      ((initial (Engine.create P selfId peerCount first types)).play P happenings) :=
  play_induction (fun _ happening h => h.react happening)
    (.ongoing rfl rfl .start fun _ hp => absurd hp List.not_mem_nil) happenings

end Record

end RankedKeys
