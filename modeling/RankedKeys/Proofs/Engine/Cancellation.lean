import RankedKeys.Engine.Script
import RankedKeys.Proofs.Engine.Calls
import RankedKeys.Proofs.Engine.Shutdown

/-!
# Stopping an engine

A stop is noticed at the next turn of the consumer, before it looks at any message. Whatever waits
in the mailboxes stays there, no round is called, and the run fails. Nothing that is asked of the
engine in the meantime changes this: an engine is started once, and a stop is not undone.

## Main definitions

* `Engine.Event.IsRequest`: a start, a stop, or a message that is offered
* `Engine.Lifecycle`: an engine before its start, in a round, and after its stop or its end
* `Engine.Cancels P e`: the next turn of the consumer cancels the run

## Main results

* `Engine.lifecycle_of_run`: every engine is in one of these phases
* `Engine.exists_play_stop_eq`: requests to a stopped engine change its mailboxes at most
* `Engine.Halted.play`: a stopped engine is never running again
* `Engine.cancels_of_stop`: a stop of a running engine cancels its run
-/

namespace RankedKeys

variable {σ M R : Type}

namespace Engine

/-- What others ask of an engine while the runtime is up. -/
def Event.IsRequest : Event M → Prop
  | .start | .stop | .add _ _ => True
  | .step | .turn | .shutdown => False

/-- **An engine that will not be running** any more: it is not, and it has been started before. -/
structure Halted (e : Engine σ M R) : Prop where
  stopped : e.running = false
  started : e.Started

/-- **The phases** of an engine: it has not been started, it is in a round, or it will not be
running any more. -/
inductive Lifecycle (e : Engine σ M R) : Prop
  | fresh {round : σ} (consumer : e.consumer = .unstarted round) (stopped : e.running = false)
    (outcome : e.outcome = none) (calls : e.calls = [])
  | ongoing {round : σ} {count : ℕ}
    (consumer : e.consumer = .spawned round ∨ e.consumer = .active round count)
    (outcome : e.outcome = none) (calls : e.calls = [])
  | halted (halted : e.Halted)

variable [Tagged M] {P : Protocol σ M R} {e e' : Engine σ M R}

/-- **The next turn cancels the run**: it fails without a call of a round, all messages stay in
their mailboxes, and the tag that is shown stays as it is. -/
structure Cancels (P : Protocol σ M R) (e : Engine σ M R) : Prop where
  state : (e.turn P).state = .failed
  result : (e.turn P).result = .error .cancelled
  calls : (e.turn P).calls = [(.init, .failed)]
  asks : e.asksOf P .turn = []
  mailboxes : (e.turn P).mailboxes = e.mailboxes
  tag : (e.turn P).tag = e.tag

/-! ## Phases -/

omit [Tagged M] in
theorem started_of_round {round : σ} {count : ℕ}
    (h : e.consumer = .spawned round ∨ e.consumer = .active round count) : e.Started := by
  rcases h with h | h <;> simp [Started, h]

namespace Lifecycle

omit [Tagged M] in
theorem of_ended (consumer : e.consumer = .ended) (stopped : e.running = false) : Lifecycle e :=
  .halted ⟨stopped, by simp [Started, consumer]⟩

omit [Tagged M] in
/-- What leaves consumer and outcome alone, and does not start the engine, leaves its phase. -/
theorem same (h : Lifecycle e) (consumer : e'.consumer = e.consumer)
    (running : e'.running = e.running ∨ e'.running = false) (outcome : e'.outcome = e.outcome)
    (calls : e'.calls = e.calls) : Lifecycle e' := by
  have hstopped : e.running = false → e'.running = false :=
    fun stopped => running.elim (·.trans stopped) id
  cases h with
  | fresh consumer' stopped outcome' calls' =>
    exact .fresh (consumer.trans consumer') (hstopped stopped) (outcome.trans outcome')
      (calls.trans calls')
  | ongoing consumer' outcome' calls' =>
    exact .ongoing (consumer'.imp consumer.trans consumer.trans) (outcome.trans outcome')
      (calls.trans calls')
  | halted halted =>
    exact .halted ⟨hstopped halted.stopped, fun round unstarted =>
      halted.started round (consumer.symm.trans unstarted)⟩

omit [Tagged M] in
/-- A consumer goes on in some round. -/
theorem enter (h : Lifecycle e) (mailboxes : Mailboxes M) (tag : MessageType) (round : σ)
    (count : ℕ) : Lifecycle { e with mailboxes, tag, consumer := .active round count } := by
  cases h with
  | fresh _ _ outcome calls => exact .ongoing (.inr rfl) outcome calls
  | ongoing _ outcome calls => exact .ongoing (.inr rfl) outcome calls
  | halted halted => exact .halted ⟨halted.stopped, nofun⟩

/-- What others do to an engine. -/
theorem touch (h : Lifecycle e) (touches : Touches e e') : Lifecycle e' := by
  cases touches with
  | start =>
    cases h with
    | @fresh round consumer stopped outcome calls =>
      have hstart : e.start = { e with consumer := .spawned round, running := true } := by
        rw [start, consumer]
      rw [hstart]
      exact .ongoing (.inl rfl : _ ∨ _ = Consumer.active round 0) outcome calls
    | ongoing consumer outcome calls =>
      rw [start_of_started (started_of_round consumer)]
      exact .ongoing consumer outcome calls
    | halted halted =>
      rw [start_of_started halted.started]
      exact .halted halted
  | stop => exact h.same rfl (.inr rfl) rfl rfl
  | shutdown =>
    unfold shutdown
    split
    · split
      · exact .of_ended rfl rfl
      · exact h
    · exact h.same rfl (.inl rfl) rfl rfl
  | addMessage taken =>
    obtain ⟨-, -, mailboxes, -, rfl⟩ := addMessage_eq_ok_iff.mp taken
    exact h.same rfl (.inl rfl) rfl rfl

/-- **A move** ends the run, or the consumer goes on. -/
theorem moved (h : Lifecycle e) (advance : e.advance P = .moved e') : Lifecycle e' := by
  have moves := moves_advance P e
  rw [advance] at moves
  cases moves with
  | wakes => exact h.enter _ _ _ _
  | takes => exact h.enter _ _ _ _
  | breaksOff | repeated | refuses | failsToClose => exact .of_ended rfl rfl

/-- A consumer that hands messages over is in a round. -/
theorem handsOver (h : Lifecycle e) {closing : Closing σ M R}
    (advance : e.advance P = .handOver e' closing) : Lifecycle e' := by
  have moves := moves_advance P e
  rw [advance] at moves
  cases moves with
  | closes => exact h.enter _ _ _ _

omit [Tagged M] in
theorem conclude (h : Lifecycle e) (P : Protocol σ M R) (handed : Except Error Unit)
    (transition : Transition σ R) : Lifecycle (e.conclude P handed transition) := by
  cases handed with
  | error error => exact .of_ended rfl rfl
  | ok u =>
    cases transition with
    | done output => exact .of_ended rfl rfl
    | next round => exact h.enter _ _ _ _

end Lifecycle

/-- **Every engine** is in one of the phases, whatever its peers do. -/
theorem lifecycle_of_run {selfId : PartyId} {peerCount : ℕ} {first : σ} {types : List MessageType}
    (run : Run P (create P selfId peerCount first types) e) : Lifecycle e :=
  run.induction (fun _ => True) (fun _ _ touches h => Lifecycle.touch h touches)
    (fun _ _ advance h => h.moved advance)
    (fun _ _ _ advance h => ⟨h.handsOver advance, trivial⟩)
    (fun _ transition handed h _ => h.conclude P handed transition) (.fresh rfl rfl rfl rfl)

/-! ## Stops -/

theorem types_offer (e : Engine σ M R) (sender : PartyId) (m : M) :
    (e.offer sender m).mailboxes.types = e.mailboxes.types := by
  unfold offer
  split
  · rename_i taken
    obtain ⟨-, -, mailboxes, hpush, rfl⟩ := addMessage_eq_ok_iff.mp taken
    exact (Mailboxes.pushed_of_push hpush).types
  · rfl

/-- **Requests** to an engine that is stopped change its mailboxes at most. -/
theorem exists_play_stop_eq (started : e.Started)
    {requests : List (Event M)} (h : ∀ request ∈ requests, request.IsRequest) :
    ∃ mailboxes, mailboxes.types = e.mailboxes.types ∧
      e.stop.play P requests = { e with mailboxes, running := false } := by
  refine play_induction (p := fun e' => ∃ mailboxes, mailboxes.types = e.mailboxes.types ∧
    e' = { e with mailboxes, running := false }) ?_ ⟨e.mailboxes, rfl, rfl⟩
  rintro request hrequest _ ⟨mailboxes, types, rfl⟩
  cases request with
  | start => exact ⟨mailboxes, types, start_of_started started⟩
  | stop => exact ⟨mailboxes, types, rfl⟩
  | add sender m =>
    have htypes := types_offer { e with mailboxes, running := false } sender m
    obtain ⟨mailboxes', hoffer⟩ := offer_eq { e with mailboxes, running := false } sender m
    rw [hoffer] at htypes
    exact ⟨mailboxes', htypes.trans types, hoffer⟩
  | step | turn | shutdown => exact absurd (h _ hrequest) id

namespace Halted

theorem step (h : Halted e) (P : Protocol σ M R) : Halted (e.step P) := by
  refine ⟨?_, h.started.step P⟩
  have stepped := stepped_step P e
  generalize e.step P = next at stepped ⊢
  cases stepped with
  | rest => exact h.stopped
  | wakes => exact h.stopped
  | breaksOff => rfl
  | @takes round count m mailboxes pops =>
    cases P.progress e.tag round count m with
    | ends outcome => rfl
    | goesOn tag round count => exact h.stopped

/-- **Every event** leaves it so. -/
theorem react (h : Halted e) (P : Protocol σ M R) (event : Event M) : Halted (e.react P event) := by
  refine ⟨?_, h.started.react P event⟩
  cases event with
  | start =>
    show e.start.running = false
    rw [start_of_started h.started, h.stopped]
  | stop => rfl
  | add sender m =>
    obtain ⟨mailboxes, hoffer⟩ := offer_eq e sender m
    show (e.offer sender m).running = false
    rw [hoffer, h.stopped]
  | step => exact (h.step P).stopped
  | turn => exact (repeated_induction (p := Halted) (fun _ he => he.step P) _ h).stopped
  | shutdown =>
    show e.shutdown.running = false
    unfold shutdown
    split
    · split
      · rfl
      · exact h.stopped
    · exact h.stopped

theorem play (h : Halted e) (P : Protocol σ M R) (events : List (Event M)) :
    Halted (e.play P events) :=
  play_induction (fun event _ _ he => he.react P event) h

end Halted

/-! ## Turns -/

theorem asksIn_of_ended (consumer : e.consumer = .ended) (n : ℕ) : asksIn P n e = [] := by
  induction n with
  | zero => rfl
  | succ n ih =>
    rw [asksIn, step_of_rest (advance_of_ended consumer), ih, List.append_nil]
    refine asks_eq_nil fun _ _ _ _ pops => ?_
    have hprogress := pops.inProgress
    simp [inProgress, consumer] at hprogress

/-- **The turn of a consumer that has been stopped**: it ends the run, and that is all. -/
theorem turn_of_stopped {progress : σ × ℕ} (inProgress : e.inProgress = some progress)
    (stopped : e.running = false) (registered : e.tag ∈ e.mailboxes.types) :
    e.turn P = e.finish (.error .cancelled) ∧ e.asksOf P .turn = [] := by
  have hpop : e.mailboxes.pop e.tag (!e.running) = .settled (.error .cancelled) :=
    Mailboxes.pop_eq_error_iff.mpr (.inr ⟨registered, by rw [stopped, Bool.not_false], rfl⟩)
  have hstep : e.step P = e.finish (.error .cancelled) := step_of_pop_eq_error inProgress hpop
  have hasks : e.asks P = [] := by
    refine asks_eq_nil fun _ _ _ _ pops => ?_
    cases pops.pop.symm.trans hpop
  refine ⟨?_, ?_⟩
  · rw [turn, repeated, hstep, repeated_of_rest (advance_of_ended rfl)]
  · rw [asksOf, asksIn, hasks, hstep, asksIn_of_ended rfl, List.append_nil]

/-- **A stop of a running engine cancels its run**, wherever the run is and whatever waits in the
mailboxes. Messages that come in, starts and stops in the meantime change nothing about it: if the
runtime is up, so that the consumer gets a turn at all, its next turn is the last one. No later
start spawns a consumer, before that turn or after it, and the engine is never running again. -/
theorem cancels_of_stop {selfId : PartyId} {peerCount : ℕ} {first : σ} {types : List MessageType}
    (run : Run P (create P selfId peerCount first types) e) (running : e.running = true)
    (registered : e.tag ∈ e.mailboxes.types) {requests : List (Event M)}
    (h : ∀ request ∈ requests, request.IsRequest) :
    (e.live = true → (e.stop.play P requests).Cancels P) ∧ (e.stop.play P requests).tag = e.tag ∧
      ∀ later, ((e.stop.play P requests).play P later).running = false ∧
        ((e.stop.play P requests).play P later).start = (e.stop.play P requests).play P later := by
  cases lifecycle_of_run run with
  | fresh _ stopped => cases stopped.symm.trans running
  | halted halted => cases halted.stopped.symm.trans running
  | @ongoing round count consumer outcome calls =>
    have started := started_of_round consumer
    obtain ⟨mailboxes, types, hplay⟩ := exists_play_stop_eq (P := P) started h
    generalize e.stop.play P requests = e' at hplay ⊢
    subst hplay
    refine ⟨fun live => ?_, rfl, fun later => ?_⟩
    · obtain ⟨progress, hprogress⟩ : ∃ progress,
          inProgress { e with mailboxes, running := false } = some progress := by
        rcases consumer with consumer | consumer <;> simp [inProgress, live, consumer]
      obtain ⟨hturn, hasks⟩ := turn_of_stopped (P := P) hprogress rfl (types ▸ registered)
      constructor
      case asks => exact hasks
      case calls =>
        rw [hturn, finish, calls, state, outcome]
        rfl
      all_goals
        rw [hturn]
        rfl
    · have halted : Halted { e with mailboxes, running := false } := ⟨rfl, started⟩
      exact ⟨(halted.play P later).stopped, start_of_started (halted.play P later).started⟩

/-- A run that is given by its events is a run among peers. -/
theorem Run.play (P : Protocol σ M R) (e : Engine σ M R) (events : List (Event M)) :
    Run P e (e.play P events) := by
  refine play_induction (p := Run P e) (fun event _ e' run => run.trans ?_) (.refl P e)
  cases event with
  | start => exact .touches (.start e')
  | stop => exact .touches (.stop e')
  | add sender m => exact .offer e' sender m
  | step => exact .step P e'
  | turn => exact .turn P e'
  | shutdown => exact .touches (.shutdown e')

end Engine

namespace Script

open Engine (Event)

/-- The messages that the only round of a table needs wait when its engine is stopped, and another
start comes afterwards. -/
def stoppedFull : List (Event (Note ℕ)) :=
  [.add "c" ⟨"c", 1, 11⟩, .start]

theorem cancels_waiting :
    let e := waiting.play protocol [.start, .turn, .add "b" ⟨"b", 1, 10⟩]
    (e.stop.play protocol stoppedFull).mailboxes.size = 2 ∧
      (e.stop.play protocol stoppedFull).Cancels protocol ∧
        (e.stop.play protocol (stoppedFull ++ [.turn, .start])).running = false := by
  have run := Engine.Run.play protocol waiting [.start, .turn, .add "b" ⟨"b", 1, 10⟩]
  have requests : ∀ request ∈ stoppedFull, request.IsRequest := by
    simp [stoppedFull, Event.IsRequest]
  obtain ⟨cancels, -, halted⟩ := Engine.cancels_of_stop run rfl (by decide) requests
  refine ⟨rfl, cancels rfl, ?_⟩
  rw [Engine.play_append]
  exact (halted [.turn, .start]).1

end Script

end RankedKeys
