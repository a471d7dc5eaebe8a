import RankedKeys.Engine.Script
import RankedKeys.Proofs.Engine.Ending

/-!
# The end of the runtime

A shutdown of the runtime is the end of a run whose consumer has had a turn: if the run was not over
before, it fails, and everybody who waits for its end is told. A consumer that has been started but
has had no turn by then has nothing that could break off. Its run never ends, and those who wait for
the end wait for ever.

## Main definitions

* `Engine.getsTurn`: whether the consumer gets a turn before the runtime goes down
* `Engine.Over`, `Engine.Stranded`: a run that is over, and one that will never be

## Main results

* `Engine.Idle.play`: whether a consumer gets a turn decides how it is found
* `Engine.over_of_shutdown`: a shutdown ends the runs whose consumers got a turn, and no others
-/

namespace RankedKeys

variable {σ M R : Type}

namespace Engine

/-- **Whether the consumer gets a turn** in a run, with or without having been started: a turn after
the start, as long as the runtime is up. -/
def getsTurn (started : Bool) : List (Event M) → Bool
  | [] => false
  | .start :: events => getsTurn true events
  | .stop :: events => getsTurn started events
  | .add _ _ :: events => getsTurn started events
  | .step :: events => started || getsTurn started events
  | .turn :: events => started || getsTurn started events
  | .shutdown :: _ => false

/-- **A run that is over**, with all who wait for its end told. -/
structure Over (e : Engine σ M R) : Prop where
  state : e.state = .done ∨ e.state = .failed
  stopped : e.running = false
  calls : e.calls = [(.init, e.state)]
  result : e.result ≠ .error .notReady
  wait : e.listener.wait = .settled (.ok e.state)
  ended : e.listener.ended ≠ .pending

/-- **A run that has not ended**, with all who wait for its end still waiting. -/
structure Stranded (e : Engine σ M R) : Prop where
  state : e.state = .init
  calls : e.calls = []
  result : e.result = .error .notReady
  wait : e.listener.wait = .pending
  ended : e.listener.ended = .pending

theorem getsTurn_append_shutdown (started : Bool) (before after : List (Event M)) :
    getsTurn started (before ++ .shutdown :: after) = getsTurn started before := by
  induction before generalizing started with
  | nil => rfl
  | cons event before ih => cases event <;> simp [getsTurn, ih]

/-- The consumer has had a turn: it is in a round, or its run is over. -/
inductive Entered (e : Engine σ M R) : Prop
  | active {round : σ} {count : ℕ} (consumer : e.consumer = .active round count)
    (outcome : e.outcome = none)
  | ended (consumer : e.consumer = .ended) (outcome : e.outcome ≠ none)

/-- The consumer has had no turn, and nothing has been announced. -/
structure Idle (started : Bool) (e : Engine σ M R) : Prop where
  consumer : ∃ round, e.consumer = if started then .spawned round else .unstarted round
  outcome : e.outcome = none
  calls : e.calls = []

variable [Tagged M] {P : Protocol σ M R} {e : Engine σ M R} {started : Bool}

/-! ## The runtime -/

omit [Tagged M] in
theorem live_start (e : Engine σ M R) : e.start.live = e.live := by
  unfold start
  split <;> rfl

theorem live_offer (e : Engine σ M R) (sender : PartyId) (m : M) :
    (e.offer sender m).live = e.live := by
  obtain ⟨mailboxes, hoffer⟩ := offer_eq e sender m
  rw [hoffer]

theorem live_step (P : Protocol σ M R) (e : Engine σ M R) : (e.step P).live = e.live := by
  have stepped := stepped_step P e
  generalize e.step P = next at stepped ⊢
  cases stepped with
  | rest | wakes | breaksOff => rfl
  | @takes round count m mailboxes pops => cases P.progress e.tag round count m <;> rfl

theorem live_turn (P : Protocol σ M R) (e : Engine σ M R) : (e.turn P).live = e.live :=
  repeated_induction (p := (·.live = e.live)) (fun e' he => (live_step P e').trans he) _ rfl

omit [Tagged M] in
theorem live_shutdown (e : Engine σ M R) : e.shutdown.live = false := by
  unfold shutdown
  split
  · split
    · rfl
    · rename_i down
      exact Bool.not_eq_true _ ▸ down
  · rfl

/-- **Nothing but a shutdown** takes the runtime down. -/
theorem live_play {events : List (Event M)} (h : .shutdown ∉ events) :
    (e.play P events).live = e.live := by
  refine play_induction (p := (·.live = e.live)) (fun event hevent e' he => ?_) rfl
  cases event with
  | start => exact (live_start e').trans he
  | stop => exact he
  | add sender m => exact (live_offer e' sender m).trans he
  | step => exact (live_step P e').trans he
  | turn => exact (live_turn P e').trans he
  | shutdown => exact absurd hevent h

/-! ## Consumers that have had a turn -/

namespace Entered

omit [Tagged M] in
theorem finish (e : Engine σ M R) (outcome : Except Error R) : Entered (e.finish outcome) :=
  .ended rfl (Option.some_ne_none outcome)

omit [Tagged M] in
theorem follow (outcome : e.outcome = none) (mailboxes : Mailboxes M) (progress : Progress σ R) :
    Entered (Engine.follow { e with mailboxes } progress) := by
  cases progress with
  | ends outcome => exact finish _ outcome
  | goesOn tag round count => exact .active rfl outcome

theorem step (h : Entered e) (P : Protocol σ M R) : Entered (e.step P) := by
  cases h with
  | ended consumer outcome =>
    rw [step_of_rest (advance_of_ended consumer)]
    exact .ended consumer outcome
  | active consumer outcome =>
    have stepped := stepped_step P e
    generalize e.step P = next at stepped ⊢
    cases stepped with
    | rest => exact .active consumer outcome
    | wakes => exact .active rfl outcome
    | breaksOff => exact finish e _
    | takes => exact follow outcome _ _

/-- **Every event** leaves it so. -/
theorem react (h : Entered e) (P : Protocol σ M R) (event : Event M) :
    Entered (e.react P event) := by
  have same : ∀ e' : Engine σ M R, e'.consumer = e.consumer → e'.outcome = e.outcome →
      Entered e' := by
    intro e' hconsumer houtcome
    cases h with
    | active consumer outcome =>
      exact .active (hconsumer.trans consumer) (houtcome.trans outcome)
    | ended consumer outcome => exact .ended (hconsumer.trans consumer) (houtcome ▸ outcome)
  cases event with
  | start =>
    show Entered e.start
    unfold start
    split
    · rename_i round unstarted
      cases h with
      | active consumer => cases unstarted.symm.trans consumer
      | ended consumer => cases unstarted.symm.trans consumer
    · exact h
  | stop => exact same _ rfl rfl
  | add sender m =>
    obtain ⟨mailboxes, hoffer⟩ := offer_eq e sender m
    show Entered (e.offer sender m)
    rw [hoffer]
    exact same _ rfl rfl
  | step => exact h.step P
  | turn => exact repeated_induction (p := Entered) (fun _ he => he.step P) _ h
  | shutdown =>
    show Entered e.shutdown
    unfold shutdown
    split
    · split
      · exact .ended rfl (Option.some_ne_none _)
      · exact h
    · exact same _ rfl rfl

theorem play (h : Entered e) (P : Protocol σ M R) (events : List (Event M)) :
    Entered (e.play P events) :=
  play_induction (fun event _ _ he => he.react P event) h

omit [Tagged M] in
/-- **A shutdown** ends the run, if it is not over. -/
theorem outcome_shutdown (h : Entered e) (live : e.live = true) :
    e.shutdown.outcome = some (e.outcome.getD (.error aborted)) := by
  cases h with
  | active consumer outcome => simp [shutdown, consumer, live, outcome, Engine.finish]
  | ended consumer outcome =>
    obtain ⟨r, hr⟩ := Option.ne_none_iff_exists'.mp outcome
    simp [shutdown, consumer, hr]

end Entered

/-! ## Consumers without a turn -/

namespace Idle

/-- The first turn of a consumer that has been started. -/
theorem entered_step (h : Idle true e) (live : e.live = true) (P : Protocol σ M R) :
    Entered (e.step P) := by
  obtain ⟨round, spawned⟩ := h.consumer
  rw [if_pos rfl] at spawned
  have ready : e.isReady = true := by
    have hprogress : e.inProgress = some (round, 0) := by simp [inProgress, live, spawned]
    rw [isReady, hprogress]
    dsimp only
    split
    · rw [spawned]
    · rfl
  have stepped := stepped_step P e
  generalize e.step P = next at stepped ⊢
  cases stepped with
  | rest advance => exact absurd advance (advance_ne_rest_of_isReady ready)
  | wakes => exact .active rfl h.outcome
  | breaksOff => exact .finish e _
  | takes => exact .follow h.outcome _ _

theorem entered_turn (h : Idle true e) (live : e.live = true) (P : Protocol σ M R) :
    Entered (e.turn P) := by
  rw [turn, repeated]
  exact repeated_induction (p := Entered) (fun _ he => he.step P) _ (h.entered_step live P)

omit [Tagged M] in
theorem inProgress_eq_none (h : Idle started e) (waits : started = false ∨ e.live = false) :
    e.inProgress = none := by
  obtain ⟨round, hconsumer⟩ := h.consumer
  rcases waits with rfl | down
  · simp [inProgress, hconsumer]
  · simp [inProgress, down]

omit [Tagged M] in
theorem start (h : Idle started e) : Idle true e.start := by
  obtain ⟨round, hconsumer⟩ := h.consumer
  cases started with
  | false =>
    rw [if_neg Bool.false_ne_true] at hconsumer
    have hstart : e.start = { e with consumer := .spawned round, running := true } := by
      rw [Engine.start, hconsumer]
    rw [hstart]
    exact ⟨⟨round, rfl⟩, h.outcome, h.calls⟩
  | true =>
    have hstart : e.start = e := by
      rw [Engine.start, hconsumer, if_pos rfl]
    rwa [hstart]

omit [Tagged M] in
/-- **A shutdown** finds nothing to break off. -/
theorem shutdown (h : Idle started e) : Idle started e.shutdown := by
  obtain ⟨round, hconsumer⟩ := h.consumer
  have hshutdown : e.shutdown = { e with live := false } := by
    rw [Engine.shutdown, hconsumer]
    cases started <;> rfl
  rw [hshutdown]
  exact ⟨⟨round, hconsumer⟩, h.outcome, h.calls⟩

omit [Tagged M] in
theorem stop (h : Idle started e) : Idle started e.stop :=
  ⟨h.consumer, h.outcome, h.calls⟩

theorem offer (h : Idle started e) (sender : PartyId) (m : M) :
    Idle started (e.offer sender m) := by
  obtain ⟨mailboxes, hoffer⟩ := offer_eq e sender m
  rw [hoffer]
  exact ⟨h.consumer, h.outcome, h.calls⟩

/-- A step of a consumer that cannot get a turn. -/
theorem step (h : Idle started e) (waits : started = false ∨ e.live = false)
    (P : Protocol σ M R) : Idle started (e.step P) := by
  rwa [step_of_rest (advance_of_inProgress_eq_none (h.inProgress_eq_none waits))]

theorem turn (h : Idle started e) (waits : started = false ∨ e.live = false)
    (P : Protocol σ M R) : Idle started (e.turn P) := by
  rwa [Engine.turn,
    repeated_of_rest (advance_of_inProgress_eq_none (h.inProgress_eq_none waits))]

/-- **Without a runtime** a consumer gets no turn any more. -/
theorem play_of_down (h : Idle started e) (down : e.live = false) (P : Protocol σ M R)
    (events : List (Event M)) : ∃ started, Idle started (e.play P events) := by
  have keeps : (∃ started, Idle started (e.play P events)) ∧ (e.play P events).live = false := by
    refine play_induction (p := fun e => (∃ started, Idle started e) ∧ e.live = false)
      (fun event _ e he => ?_) ⟨⟨started, h⟩, down⟩
    obtain ⟨⟨started, h⟩, down⟩ := he
    cases event with
    | start => exact ⟨⟨true, h.start⟩, (live_start e).trans down⟩
    | stop => exact ⟨⟨started, h.stop⟩, down⟩
    | add sender m => exact ⟨⟨started, h.offer sender m⟩, (live_offer e sender m).trans down⟩
    | step => exact ⟨⟨started, h.step (.inr down) P⟩, (live_step P e).trans down⟩
    | turn => exact ⟨⟨started, h.turn (.inr down) P⟩, (live_turn P e).trans down⟩
    | shutdown => exact ⟨⟨started, h.shutdown⟩, live_shutdown e⟩
  exact keeps.1

/-- **Whether a consumer gets a turn** decides how it is found at the end of some events. -/
theorem play (h : Idle started e) (live : e.live = true) (P : Protocol σ M R)
    (events : List (Event M)) :
    (getsTurn started events = true → Entered (e.play P events)) ∧
      (getsTurn started events = false → ∃ started, Idle started (e.play P events)) := by
  induction events generalizing started e with
  | nil => exact ⟨fun turn => absurd turn Bool.false_ne_true, fun _ => ⟨started, h⟩⟩
  | cons event events ih =>
    cases event with
    | start => exact ih h.start ((live_start e).trans live)
    | stop => exact ih h.stop live
    | add sender m => exact ih (h.offer sender m) ((live_offer e sender m).trans live)
    | step =>
      cases started with
      | true => exact ⟨fun _ => (h.entered_step live P).play P events, nofun⟩
      | false => exact ih (h.step (.inl rfl) P) ((live_step P e).trans live)
    | turn =>
      cases started with
      | true => exact ⟨fun _ => (h.entered_turn live P).play P events, nofun⟩
      | false => exact ih (h.turn (.inl rfl) P) ((live_turn P e).trans live)
    | shutdown =>
      exact ⟨fun turn => absurd turn Bool.false_ne_true,
        fun _ => h.shutdown.play_of_down (live_shutdown e) P events⟩

omit [Tagged M] in
/-- Nobody is told of the end of a run whose consumer has had no turn. -/
theorem stranded (h : Idle started e) : Stranded e where
  state := by rw [Engine.state, h.outcome]
  calls := h.calls
  result := by rw [Engine.result, h.outcome]
  wait := by rw [Engine.listener, h.calls]; rfl
  ended := by rw [Engine.listener, h.calls]; rfl

end Idle

/-! ## The end of the runtime -/

omit [Tagged M] in
/-- Everybody is told of the end of a run. -/
theorem Standing.over (h : Standing e) (outcome : e.outcome ≠ none) : Over e := by
  cases h with
  | ongoing ongoing => exact absurd ongoing outcome
  | @ended r outcome ready calls consumer stopped =>
    have hstate : e.state = endState r := by
      rw [state, outcome]
      cases r <;> rfl
    have hresult : e.result = r := by
      rw [result, outcome]
    have hlistener : e.listener = ⟨some (endState r)⟩ := by
      rw [listener, calls]
      cases r <;> rfl
    constructor
    case state => cases r <;> simp [hstate, endState]
    case stopped => exact stopped
    case calls => rw [calls, hstate]
    case result => rwa [hresult]
    case wait => rw [hlistener, hstate]; rfl
    case ended => cases r <;> simp [hlistener, endState, Listener.ended]

/-- **A consumer that has had a turn** when the runtime goes down ends its run there, unless the run
was over already. -/
theorem outcome_of_shutdown (P : Protocol σ M R) (selfId : PartyId) (peerCount : ℕ) (round : σ)
    (types : List MessageType) {before : List (Event M)} (first : .shutdown ∉ before)
    (turn : getsTurn false before = true) (after : List (Event M)) :
    ((create P selfId peerCount round types).play P (before ++ .shutdown :: after)).outcome =
      some (((create P selfId peerCount round types).play P before).outcome.getD
        (.error aborted)) := by
  have hidle : Idle false (create P selfId peerCount round types) := ⟨⟨round, rfl⟩, rfl, rfl⟩
  have hentered := (hidle.play rfl P before).1 turn
  have hlive : ((create P selfId peerCount round types).play P before).live = true :=
    live_play first
  have hstanding := standing_of_play P selfId peerCount round types (before ++ [.shutdown])
  rw [play_append, play_cons, play_nil] at hstanding
  rw [play_append, play_cons]
  generalize (create P selfId peerCount round types).play P before = e at *
  have hdown : (e.react P .shutdown).outcome = some (e.outcome.getD (.error aborted)) :=
    hentered.outcome_shutdown hlive
  -- Whatever happens later, the run is over.
  cases hstanding with
  | ongoing ongoing => cases ongoing.symm.trans hdown
  | ended _ _ _ consumer stopped =>
    obtain ⟨mailboxes, live, hplay⟩ := play_of_ended P consumer stopped after
    rw [hplay]
    exact hdown

/-- **A shutdown of the runtime** ends the runs whose consumers got a turn before it: a run that was
not over fails. A consumer that got none, started or not, leaves its run without an end for ever. -/
theorem over_of_shutdown (P : Protocol σ M R) (selfId : PartyId) (peerCount : ℕ) (round : σ)
    (types : List MessageType) {events : List (Event M)} (shut : .shutdown ∈ events) :
    (getsTurn false events = true →
      Over ((create P selfId peerCount round types).play P events)) ∧
    (∀ before after, events = before ++ .shutdown :: after → getsTurn false before = true →
      ((create P selfId peerCount round types).play P before).state = .init →
        ((create P selfId peerCount round types).play P events).result = .error aborted) ∧
    (getsTurn false events = false →
      Stranded ((create P selfId peerCount round types).play P events)) := by
  have hover : ∀ events : List (Event M), .shutdown ∈ events → getsTurn false events = true →
      Over ((create P selfId peerCount round types).play P events) := by
    intro events shut turn
    obtain ⟨before, after, rfl, first⟩ := List.eq_append_cons_of_mem shut
    rw [getsTurn_append_shutdown] at turn
    refine (standing_of_play P selfId peerCount round types _).over ?_
    rw [outcome_of_shutdown P selfId peerCount round types first turn after]
    exact Option.some_ne_none _
  refine ⟨hover events shut, ?_, fun turn => ?_⟩
  · rintro before after rfl turn ongoing
    have first : .shutdown ∉ before := by
      intro earlier
      rcases (hover before earlier turn).state with state | state <;> cases ongoing.symm.trans state
    have houtcome := outcome_of_shutdown P selfId peerCount round types first turn after
    have hnone : ((create P selfId peerCount round types).play P before).outcome = none := by
      revert ongoing
      unfold state
      split <;> simp_all
    rw [result, houtcome, hnone]
    rfl
  · have hidle : Idle false (create P selfId peerCount round types) := ⟨⟨round, rfl⟩, rfl, rfl⟩
    obtain ⟨started, hidle⟩ := (hidle.play rfl P events).2 turn
    exact hidle.stranded

end Engine

namespace Script

/-- The engine of a table with one round, which waits for a message. -/
def waiting : Engine (Script ℕ) (Note ℕ) (List (RoundNotes ℕ)) :=
  .create protocol "a" 2 (.first ⟨1, 2, [], [], none, false, false, .finish⟩ []) [1]

/-- With a turn between the start and the shutdown the run is over, without one it is not. -/
theorem over_waiting :
    Engine.Over (waiting.play protocol [.start, .turn, .shutdown]) ∧
      (waiting.play protocol [.start, .turn, .shutdown]).result = .error Engine.aborted ∧
        Engine.Stranded (waiting.play protocol [.start, .shutdown]) := by
  have hawake : (.shutdown : Engine.Event (Note ℕ)) ∈ [.start, .turn, .shutdown] := by simp
  have hasleep : (.shutdown : Engine.Event (Note ℕ)) ∈ [.start, .shutdown] := by simp
  have awake := Engine.over_of_shutdown (protocol (V := ℕ)) "a" 2
    (.first ⟨1, 2, [], [], none, false, false, .finish⟩ []) [1] hawake
  have asleep := Engine.over_of_shutdown (protocol (V := ℕ)) "a" 2
    (.first ⟨1, 2, [], [], none, false, false, .finish⟩ []) [1] hasleep
  exact ⟨awake.1 rfl, awake.2.1 [.start, .turn] [] rfl rfl rfl, asleep.2.2 rfl⟩

/-- **A started run** that a shutdown does not end: it is still running, and nobody is told. -/
theorem not_over_waiting :
    ¬ Engine.Over (waiting.play protocol [.start, .shutdown]) ∧
      (waiting.play protocol [.start, .shutdown]).state = .init ∧
        (waiting.play protocol [.start, .shutdown]).running = true ∧
          (waiting.play protocol [.start, .shutdown]).calls = [] ∧
            (waiting.play protocol [.start, .shutdown]).listener.wait = .pending := by
  refine ⟨fun hover => ?_, rfl, rfl, rfl, rfl⟩
  cases hover.stopped

end Script

end RankedKeys
