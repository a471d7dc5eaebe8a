import RankedKeys.Proofs.Engine.Events

/-!
# The end of a run

A run ends at most once, and it is then over for good. There are many ways to get there: an output,
a message that is refused, a round that cannot be closed, a reaction that breaks off, a mailbox that
is not registered, a stop and a shutdown. All of them end the run in the same way, and all of them
are closed to an engine whose run is over.

## Main definitions

* `Engine.Standing`: a run goes on and nothing has been announced, or its end has been announced
* `Engine.Coherent`: what the state, the result, the announcements and those who wait tell

## Main results

* `Engine.play_of_ended`: an engine whose run is over only ever takes messages in
* `Engine.coherent_of_play`: a run ends at most once, and all that tell of it agree
-/

namespace RankedKeys

variable {σ M R : Type} [Tagged M]

/-- No message ends a run with the error of a result that is not ready. -/
theorem Protocol.ne_notReady_of_progress {P : Protocol σ M R} {tag : MessageType} {round : σ}
    {count : ℕ} {m : M} {outcome : Except Error R}
    (h : P.progress tag round count m = .ends outcome) : outcome ≠ .error .notReady := by
  unfold progress at h
  split at h
  · cases h
    simp
  · split at h
    · rename_i fault _
      cases h
      cases fault <;> simp [Engine.handlingError, Engine.aborted]
    · split at h
      · cases h
      · split at h
        · rename_i fault _
          cases h
          cases fault <;> simp [Engine.closingError, Engine.aborted]
        · split at h
          · cases h
            simp
          · cases h

namespace Engine

variable {P : Protocol σ M R} {e : Engine σ M R} {outcome : Except Error R}

/-- **How an engine stands**: its run goes on and nothing has been announced, or its run is over
and its end has been announced once. -/
inductive Standing (e : Engine σ M R) : Prop
  | ongoing (outcome : e.outcome = none) (calls : e.calls = [])
  | ended {r : Except Error R} (outcome : e.outcome = some r) (ready : r ≠ .error .notReady)
    (calls : e.calls = [(.init, endState r)]) (consumer : e.consumer = .ended)
    (stopped : e.running = false)

/-! ## A run that is over -/

/-- **An event** lets an engine whose run is over take a message in at most. -/
theorem react_of_ended (P : Protocol σ M R) (consumer : e.consumer = .ended)
    (stopped : e.running = false) (event : Event M) :
    ∃ mailboxes live, e.react P event = { e with mailboxes, live } := by
  cases event with
  | start =>
    refine ⟨e.mailboxes, e.live, ?_⟩
    show e.start = e
    simp [start, consumer]
  | stop =>
    refine ⟨e.mailboxes, e.live, ?_⟩
    rw [react, stop, ← stopped]
  | add sender m =>
    obtain ⟨mailboxes, hoffer⟩ := offer_eq e sender m
    exact ⟨mailboxes, e.live, hoffer⟩
  | step => exact ⟨e.mailboxes, e.live, step_of_rest (advance_of_ended consumer)⟩
  | turn => exact ⟨e.mailboxes, e.live, repeated_of_rest (advance_of_ended consumer) _⟩
  | shutdown => exact ⟨e.mailboxes, false, by simp [react, shutdown, consumer]⟩

/-- **An engine whose run is over** only ever takes messages in. -/
theorem play_of_ended (P : Protocol σ M R) (consumer : e.consumer = .ended)
    (stopped : e.running = false) (events : List (Event M)) :
    ∃ mailboxes live, e.play P events = { e with mailboxes, live } := by
  refine play_induction (p := fun e' => ∃ mailboxes live, e' = { e with mailboxes, live }) ?_
    ⟨e.mailboxes, e.live, rfl⟩
  rintro event - _ ⟨mailboxes, live, rfl⟩
  obtain ⟨mailboxes, live, hreact⟩ := react_of_ended P (e := { e with mailboxes, live })
    consumer stopped event
  exact ⟨mailboxes, live, hreact⟩

/-! ## Every event keeps the standing -/

namespace Standing

omit [Tagged M] in
/-- The end of an ongoing run is announced. -/
theorem finish (ongoing : e.outcome = none) (calls : e.calls = [])
    (ready : outcome ≠ .error .notReady) : Standing (e.finish outcome) := by
  refine .ended rfl ready ?_ rfl rfl
  rw [Engine.finish, calls, state, ongoing]
  rfl

/-- **A step** ends an ongoing run, or it announces nothing. -/
theorem step (h : Standing e) (P : Protocol σ M R) : Standing (e.step P) := by
  cases h with
  | ended outcome ready calls consumer stopped =>
    rw [step_of_rest (advance_of_ended consumer)]
    exact .ended outcome ready calls consumer stopped
  | ongoing outcome calls =>
    have stepped := stepped_step P e
    generalize e.step P = next at stepped ⊢
    cases stepped with
    | rest => exact .ongoing outcome calls
    | wakes => exact .ongoing outcome calls
    | breaksOff inProgress pop =>
      refine finish outcome calls ?_
      rcases Mailboxes.pop_eq_error_iff.mp pop with ⟨-, rfl⟩ | ⟨-, -, rfl⟩
      · simp [Mailboxes.unknownType]
      · simp
    | @takes round count m mailboxes pops =>
      cases hprogress : P.progress e.tag round count m with
      | goesOn tag round count => exact .ongoing outcome calls
      | ends r =>
        exact finish (e := { e with mailboxes }) outcome calls
          (Protocol.ne_notReady_of_progress hprogress)

/-- **Every event** keeps the standing of an engine. -/
theorem react (h : Standing e) (P : Protocol σ M R) (event : Event M) :
    Standing (e.react P event) := by
  cases h with
  | ended outcome ready calls consumer stopped =>
    obtain ⟨mailboxes, live, hreact⟩ := react_of_ended P consumer stopped event
    rw [hreact]
    exact .ended outcome ready calls consumer stopped
  | ongoing outcome calls =>
    cases event with
    | start =>
      show Standing e.start
      unfold Engine.start
      split <;> exact .ongoing outcome calls
    | stop => exact .ongoing outcome calls
    | add sender m =>
      obtain ⟨mailboxes, hoffer⟩ := offer_eq e sender m
      show Standing (e.offer sender m)
      rw [hoffer]
      exact .ongoing outcome calls
    | step => exact step (.ongoing outcome calls) P
    | turn =>
      show Standing (e.turn P)
      exact repeated_induction (p := Standing) (fun _ he => step he P) _ (.ongoing outcome calls)
    | shutdown =>
      show Standing e.shutdown
      unfold Engine.shutdown
      split
      · split
        · -- The consumer breaks off.
          refine .ended rfl (by simp [aborted]) ?_ rfl rfl
          simp [Engine.finish, calls, state, outcome]
        · exact .ongoing outcome calls
      · exact .ongoing outcome calls

end Standing

/-- An engine that has been through some events stands in one of the two ways. -/
theorem standing_of_play (P : Protocol σ M R) (selfId : PartyId) (peerCount : ℕ) (round : σ)
    (types : List MessageType) (events : List (Event M)) :
    Standing ((create P selfId peerCount round types).play P events) :=
  play_induction (fun event _ _ h => h.react P event) (.ongoing rfl rfl)

/-! ## What can be told of a run -/

/-- **All that tell of a run** agree, and what they tell of its end is final. -/
structure Coherent (P : Protocol σ M R) (e : Engine σ M R) : Prop where
  /-- The end is announced once, and nothing else is. -/
  calls : e.calls = if e.state = .init then [] else [(.init, e.state)]
  notReady : e.result = .error .notReady ↔ e.state = .init
  output : (∃ r, e.result = .ok r) ↔ e.state = .done
  failure : (∃ error, error ≠ .notReady ∧ e.result = .error error) ↔ e.state = .failed
  /-- Who waits for the end waits until there is one. -/
  wait : e.listener.wait = if e.state = .init then .pending else .settled (.ok e.state)
  ended_pending : e.listener.ended = .pending ↔ e.state = .init
  ended : e.listener.ended = .settled (.ok ()) ↔ e.state = .done
  /-- A run that is over does not go on, whatever happens to the engine. -/
  final : e.state.isTerminal = true → e.running = false ∧ ∀ later : List (Event M),
    (e.play P later).state = e.state ∧ (e.play P later).result = e.result ∧
      (e.play P later).tag = e.tag ∧ (e.play P later).calls = e.calls

theorem Standing.coherent (h : Standing e) (P : Protocol σ M R) : e.Coherent P := by
  cases h with
  | ongoing outcome calls =>
    have hstate : e.state = .init := by
      rw [state, outcome]
    have hresult : e.result = .error .notReady := by
      rw [result, outcome]
    have hlistener : e.listener = .initial := by
      rw [listener, calls]
      rfl
    constructor
    all_goals
      simp [hstate, hresult, hlistener, calls, Listener.initial, Listener.wait, Listener.ended,
        RunState.isTerminal]
  | @ended r outcome ready calls consumer stopped =>
    have hstate : e.state = endState r := by
      rw [state, outcome]
      cases r <;> rfl
    have hresult : e.result = r := by
      rw [result, outcome]
    have hlistener : e.listener = ⟨some (endState r)⟩ := by
      rw [listener, calls]
      cases r <;> rfl
    have hfinal : ∀ later : List (Event M), (e.play P later).state = e.state ∧
        (e.play P later).result = e.result ∧ (e.play P later).tag = e.tag ∧
          (e.play P later).calls = e.calls := by
      intro later
      obtain ⟨mailboxes, live, hplay⟩ := play_of_ended P consumer stopped later
      rw [hplay]
      exact ⟨rfl, rfl, rfl, rfl⟩
    cases r with
    | ok output =>
      constructor
      case final => exact fun _ => ⟨stopped, hfinal⟩
      all_goals
        simp [hstate, hresult, hlistener, calls, endState, Listener.wait, Listener.ended]
    | error error =>
      have hready : error ≠ .notReady := fun h => ready (congrArg _ h)
      constructor
      case final => exact fun _ => ⟨stopped, hfinal⟩
      all_goals
        simp [hstate, hresult, hlistener, calls, hready, endState, Listener.wait, Listener.ended]

/-- **A run ends at most once**: whatever the protocol and whatever happens to an engine, all that
tell of its run agree, and what they tell of its end is final. -/
theorem coherent_of_play (P : Protocol σ M R) (selfId : PartyId) (peerCount : ℕ) (round : σ)
    (types : List MessageType) (events : List (Event M)) :
    ((create P selfId peerCount round types).play P events).Coherent P :=
  (standing_of_play P selfId peerCount round types events).coherent P

end Engine

end RankedKeys
