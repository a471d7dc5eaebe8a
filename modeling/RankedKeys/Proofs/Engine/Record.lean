import RankedKeys.Proofs.Engine.Events

/-!
# Records of a run

An engine among arbitrary peers, with a record of the messages that pass: those that are delivered
to it, with the name the transport gives for their sender and the answer they get; those that the
rounds are given to handle; and those that are handed over when a round is closed, with the answers
of the peers. The peers do as they please at any time, also between two messages that are handed
over.

## Main definitions

* `Passed`: a message with the party on the other side and the answer
* `Record`, `Happening`, `Record.play`: a run that is recorded
* `Engine.given`: the message that a move gives to a round

## Main results

* `Record.delivered_of_play`: what is handled has been taken in from the sender that it names
-/

namespace RankedKeys

variable {σ M R : Type}

/-- A message that is passed to or from the party on the other side, with the answer that it
gets. -/
structure Passed (M : Type) where
  peer : PartyId
  message : M
  answer : Except Error Unit

/-- The message with the party on the other side. -/
def Passed.letter (p : Passed M) : PartyId × M :=
  (p.peer, p.message)

/-- The round that a consumer is in, with the number of messages it has taken in. -/
def Consumer.progress? : Consumer σ → Option (σ × ℕ)
  | .unstarted round => some (round, 0)
  | .spawned round => some (round, 0)
  | .active round count => some (round, count)
  | .ended => none

namespace Engine

namespace Situation

/-- The engine, whatever its consumer does. -/
def engine : Situation σ M R → Engine σ M R
  | .waiting e => e
  | .handing e _ => e

/-- Another engine in the same situation. -/
def withEngine (e : Engine σ M R) : Situation σ M R → Situation σ M R
  | .waiting _ => .waiting e
  | .handing _ closing => .handing e closing

/-- A consumer that has no more messages to hand over goes on. -/
def settle (P : Protocol σ M R) : Situation σ M R → Situation σ M R
  | .handing e ⟨[], transition⟩ => .waiting (e.conclude P (.ok ()) transition)
  | s => s

@[simp] theorem engine_withEngine (e : Engine σ M R) (s : Situation σ M R) :
    (s.withEngine e).engine = e := by
  cases s <;> rfl

end Situation

variable [Tagged M]

/-- The message that a move gives to the round in progress, if any. A second message of one sender
is not given to the round. -/
def given (P : Protocol σ M R) (e : Engine σ M R) : List M :=
  match e.inProgress with
  | none => []
  | some (round, _) =>
    match e.mailboxes.pop e.tag !e.running with
    | .settled (.ok (m, _)) => if P.handled round (Tagged.sender m) then [] else [m]
    | _ => []

end Engine

open Engine (Situation)

/-- What an engine has been given and has given away, and how it stands. -/
structure Record (σ M R : Type) where
  situation : Situation σ M R
  /-- The messages that the transport has delivered, under the name of their sender, with the
  answer of the engine. -/
  delivered : List (Passed M)
  /-- The messages that the rounds have been given. -/
  handled : List M
  /-- The messages that have been handed over, each to its receiver, with the answer of the
  receiver. -/
  handed : List (Passed M)

/-- What happens to an engine among arbitrary peers. -/
inductive Happening (M : Type) where
  | start
  | stop
  | shutdown
  /-- The transport delivers a message under the name of a sender. -/
  | deliver (sender : PartyId) (m : M)
  /-- The consumer makes a move. -/
  | move
  /-- The next message that is handed over is answered. -/
  | answer (answer : Except Error Unit)

namespace Record

variable [Tagged M]

/-- Nothing has been recorded. -/
def initial (e : Engine σ M R) : Record σ M R := ⟨.waiting e, [], [], []⟩

/-- The engine. -/
def engine (r : Record σ M R) : Engine σ M R := r.situation.engine

/-- A message is delivered; the engine takes it in or refuses it. -/
def deliver (r : Record σ M R) (sender : PartyId) (m : M) : Record σ M R :=
  match r.engine.addMessage sender m with
  | .error error => { r with delivered := r.delivered ++ [⟨sender, m, .error error⟩] }
  | .ok e =>
    { r with
      situation := r.situation.withEngine e
      delivered := r.delivered ++ [⟨sender, m, .ok ()⟩] }

/-- A consumer that is not handing messages over makes its next move. -/
def move (P : Protocol σ M R) (r : Record σ M R) : Record σ M R :=
  match r.situation with
  | .handing .. => r
  | .waiting e =>
    match e.advance P with
    | .rest => r
    | .moved e' => { r with situation := .waiting e', handled := r.handled ++ e.given P }
    | .handOver e' closing =>
      { r with situation := (Situation.handing e' closing).settle P,
               handled := r.handled ++ e.given P }

/-- A message that is handed over is answered. A refusal ends the run, and the messages behind it
are kept back. -/
def answer (P : Protocol σ M R) (r : Record σ M R) (answer : Except Error Unit) : Record σ M R :=
  match r.situation with
  | .handing e ⟨(peer, m) :: later, transition⟩ =>
    { r with
      situation :=
        match answer with
        | .ok () => (Situation.handing e ⟨later, transition⟩).settle P
        | .error error => .waiting (e.conclude P (.error error) transition)
      handed := r.handed ++ [⟨peer, m, answer⟩] }
  | _ => r

/-- What happens to an engine, with its record. -/
def react (P : Protocol σ M R) (r : Record σ M R) : Happening M → Record σ M R
  | .start => { r with situation := r.situation.withEngine r.engine.start }
  | .stop => { r with situation := r.situation.withEngine r.engine.stop }
  | .shutdown =>
    match r.situation with
    | .waiting e => { r with situation := .waiting e.shutdown }
    -- Messages are handed over without a wait in between, so that a shutdown comes too late.
    | .handing .. => r
  | .deliver sender m => r.deliver sender m
  | .move => r.move P
  | .answer answer => r.answer P answer

/-- **A run** of an engine, recorded. -/
def play (P : Protocol σ M R) (r : Record σ M R) (happenings : List (Happening M)) :
    Record σ M R :=
  happenings.foldl (react P) r

/-- What every happening keeps, a run keeps. -/
theorem play_induction {P : Protocol σ M R} {p : Record σ M R → Prop}
    (h : ∀ r happening, p r → p (r.react P happening)) {r : Record σ M R} (hr : p r)
    (happenings : List (Happening M)) : p (r.play P happenings) := by
  induction happenings generalizing r with
  | nil => exact hr
  | cons happening happenings ih => exact ih (h r happening hr)

end Record

/-! ## Where the messages come from -/

namespace Engine

variable [Tagged M] {P : Protocol σ M R} {e e' : Engine σ M R}

omit [Tagged M] in
theorem progress?_of_inProgress {progress : σ × ℕ} (h : e.inProgress = some progress) :
    e.consumer.progress? = some progress := by
  unfold inProgress at h
  split at h
  · split at h <;> cases h <;> simp [Consumer.progress?, *]
  · cases h

theorem given_of_pops {round : σ} {count : ℕ} {m : M} {mailboxes : Mailboxes M}
    (pops : Pops e round count m mailboxes) :
    e.given P = if P.handled round (Tagged.sender m) then [] else [m] := by
  rw [given, pops.inProgress]
  dsimp only
  rw [pops.pop]

theorem given_of_fresh {round : σ} {count : ℕ} {m : M} {mailboxes : Mailboxes M}
    (pops : Pops e round count m mailboxes) (fresh : P.handled round (Tagged.sender m) = false) :
    e.given P = [m] := by
  rw [given_of_pops pops, fresh, if_neg Bool.false_ne_true]

/-- A request that is not answered with a message gives nothing to a round. -/
theorem given_eq_nil
    (h : ∀ m mailboxes, e.mailboxes.pop e.tag (!e.running) ≠ .settled (.ok (m, mailboxes))) :
    e.given P = [] := by
  unfold given
  split
  · rfl
  · split
    · exact absurd ‹_› (h _ _)
    · rfl

/-- A message that is popped has been waiting, and so have those that it leaves. -/
theorem Pops.mem_waiting {round : σ} {count : ℕ} {m m' : M} {mailboxes : Mailboxes M}
    (pops : Pops e round count m mailboxes) (hm' : m' ∈ mailboxes.waiting ++ e.given P) :
    m' ∈ e.mailboxes.waiting := by
  obtain ⟨-, -, hfind, rfl⟩ := Mailboxes.pop_eq_ok_iff.mp pops.pop
  rw [given_of_pops pops] at hm'
  rcases List.mem_append.mp hm' with hm' | hm'
  · exact List.mem_of_mem_eraseP hm'
  · split at hm'
    · exact absurd hm' List.not_mem_nil
    · rw [List.mem_singleton.mp hm']
      exact List.mem_of_find?_eq_some hfind

/-- **A move** leaves and gives to a round what has been waiting. -/
theorem Moves.mem_waiting {move : Move σ M R} (moves : Moves P e move)
    (hmove : move = .moved e' ∨ ∃ closing, move = .handOver e' closing) {m : M}
    (hm : m ∈ e'.mailboxes.waiting ++ e.given P) : m ∈ e.mailboxes.waiting := by
  rcases hmove with rfl | ⟨closing, rfl⟩
  · cases moves with
    | wakes spawned live waits =>
      rwa [given_eq_nil (by simp [waits]), List.append_nil] at hm
    | breaksOff inProgress pop =>
      rwa [given_eq_nil (by simp [pop]), List.append_nil] at hm
    | repeated pops => exact pops.mem_waiting hm
    | refuses pops => exact pops.mem_waiting hm
    | takes pops => exact pops.mem_waiting hm
    | failsToClose pops => exact pops.mem_waiting hm
  · cases moves with
    | closes pops => exact pops.mem_waiting hm

omit [Tagged M] in
theorem mailboxes_conclude (e : Engine σ M R) (handed : Except Error Unit)
    (transition : Transition σ R) : (e.conclude P handed transition).mailboxes = e.mailboxes := by
  cases handed with
  | error error => rfl
  | ok u => cases transition <;> rfl

omit [Tagged M] in
theorem Situation.mailboxes_settle (s : Situation σ M R) :
    (s.settle P).engine.mailboxes = s.engine.mailboxes := by
  unfold settle
  split
  · exact mailboxes_conclude (P := P) _ (.ok ()) _
  · rfl

omit [Tagged M] in
theorem tag_start (e : Engine σ M R) : e.start.tag = e.tag := by
  unfold start
  split <;> rfl

omit [Tagged M] in
theorem outcome_start (e : Engine σ M R) : e.start.outcome = e.outcome := by
  unfold start
  split <;> rfl

omit [Tagged M] in
/-- A consumer that is started is in the round that it will be in at its first turn. -/
theorem progress?_start (e : Engine σ M R) : e.start.consumer.progress? = e.consumer.progress? := by
  unfold start
  split <;> simp [*, Consumer.progress?]

omit [Tagged M] in
theorem mailboxes_start (e : Engine σ M R) : e.start.mailboxes = e.mailboxes := by
  unfold start
  split <;> rfl

omit [Tagged M] in
theorem mailboxes_shutdown (e : Engine σ M R) : e.shutdown.mailboxes = e.mailboxes := by
  unfold shutdown
  split
  · split <;> rfl
  · rfl

end Engine

namespace Record

variable [Tagged M] {P : Protocol σ M R} {r : Record σ M R}

/-- What waits and what has been handled was taken in from the sender that it names. -/
def Sourced (r : Record σ M R) : Prop :=
  ∀ m ∈ r.engine.mailboxes.waiting ++ r.handled, ⟨Tagged.sender m, m, .ok ()⟩ ∈ r.delivered

namespace Sourced

variable {situation : Situation σ M R} {delivered : List (Passed M)} {handled : List M}
  {handed : List (Passed M)} (h : Sourced ⟨situation, delivered, handled, handed⟩)

include h

/-- What does not touch the mailboxes changes nothing. -/
theorem unchanged {situation' : Situation σ M R} (handed' : List (Passed M))
    (heq : situation'.engine.mailboxes = situation.engine.mailboxes) :
    Sourced ⟨situation', delivered, handled, handed'⟩ :=
  fun m hm => h m (by rwa [engine, ← heq])

theorem deliver (sender : PartyId) (m : M) :
    (Record.deliver ⟨situation, delivered, handled, handed⟩ sender m).Sourced := by
  unfold Record.deliver
  split
  · exact fun m' hm' => List.mem_append_left _ (h m' hm')
  · rename_i e' taken
    obtain ⟨rfl, -, mailboxes, hpush, rfl⟩ := Engine.addMessage_eq_ok_iff.mp taken
    intro m' hm'
    simp only [engine, Situation.engine_withEngine, Mailboxes.waiting_of_push hpush] at hm'
    -- The message itself, or one that was there before.
    rcases List.mem_append.mp hm' with hm' | hm'
    · rcases List.mem_append.mp hm' with hm' | hm'
      · exact List.mem_append_left _ (h m' (List.mem_append_left _ hm'))
      · rw [List.mem_singleton.mp hm']
        exact List.mem_append_right _ (List.mem_singleton_self _)
    · exact List.mem_append_left _ (h m' (List.mem_append_right _ hm'))

theorem move (P : Protocol σ M R) :
    (Record.move P ⟨situation, delivered, handled, handed⟩).Sourced := by
  cases situation with
  | handing e closing => exact h
  | waiting e =>
    have moves := Engine.moves_advance P e
    have key : ∀ {e'}, (e.advance P = .moved e' ∨ ∃ closing, e.advance P = .handOver e' closing) →
        ∀ m ∈ e'.mailboxes.waiting ++ (handled ++ e.given P),
          ⟨Tagged.sender m, m, .ok ()⟩ ∈ delivered := by
      intro e' hmove m hm
      rcases List.mem_append.mp hm with hm | hm
      · exact h m (List.mem_append_left _ (moves.mem_waiting hmove (List.mem_append_left _ hm)))
      · rcases List.mem_append.mp hm with hm | hm
        · exact h m (List.mem_append_right _ hm)
        · exact h m (List.mem_append_left _ (moves.mem_waiting hmove (List.mem_append_right _ hm)))
    unfold Record.move
    dsimp only
    split
    · exact h
    · rename_i e' advance
      exact key (.inl advance)
    · rename_i e' closing advance
      intro m hm
      rw [engine, Situation.mailboxes_settle] at hm
      exact key (.inr ⟨closing, advance⟩) m hm

theorem answer (P : Protocol σ M R) (answer : Except Error Unit) :
    (Record.answer P ⟨situation, delivered, handled, handed⟩ answer).Sourced := by
  unfold Record.answer
  dsimp only
  split
  · rename_i e peer m later transition
    refine h.unchanged _ ?_
    cases answer with
    | ok u => exact Situation.mailboxes_settle _
    | error error => exact Engine.mailboxes_conclude (P := P) e (.error error) transition
  · exact h

/-- **Every happening** leaves it so. -/
theorem react (P : Protocol σ M R) (happening : Happening M) :
    (Record.react P ⟨situation, delivered, handled, handed⟩ happening).Sourced := by
  cases happening with
  | start => exact h.unchanged _ (by simp [engine, Engine.mailboxes_start])
  | stop => exact h.unchanged _ (by simp [engine, Engine.stop])
  | shutdown =>
    cases situation with
    | waiting e => exact h.unchanged _ (Engine.mailboxes_shutdown e)
    | handing e closing => exact h
  | deliver sender m => exact h.deliver sender m
  | move => exact h.move P
  | answer answer => exact h.answer P answer

end Sourced

/-- **What is handled** has been taken in from the sender that it names. -/
theorem delivered_of_play {e : Engine σ M R} (empty : e.mailboxes.waiting = [])
    (happenings : List (Happening M)) {m : M}
    (hm : m ∈ ((initial e).play P happenings).handled) :
    ⟨Tagged.sender m, m, .ok ()⟩ ∈ ((initial e).play P happenings).delivered := by
  have hsourced : ((initial e).play P happenings).Sourced := by
    refine play_induction (fun r happening h => h.react P happening) ?_ happenings
    intro m hm
    simp [initial, engine, Situation.engine, empty] at hm
  exact hsourced m (List.mem_append_right _ hm)

end Record

end RankedKeys
