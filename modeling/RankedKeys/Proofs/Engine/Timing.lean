import RankedKeys.Engine.Script
import RankedKeys.Proofs.Engine.Events

/-!
# Runs do not depend on timing

How the messages of different rounds are interleaved, and when the consumer gets its turns, has no
influence on a run that goes on until nothing is left to do. Every such run is compared with the
one whose messages are all there before the start: an engine goes through the same steps, it only
has to wait for some of its messages.

## Main definitions

* `Engine.Behind rest e e'`: two engines that differ in the messages that are still to come
* `Settles events`: events with a start and a turn after it
* `Engine.Alike e e'`: engines of which the same can be told

## Main results

* `Engine.Behind.step`: an engine that lacks messages takes the same steps, or it waits
* `Engine.Behind.catchesUp`: at the end of its run it is where the engine with all messages gets
* `Engine.alike_of_plays`: runs that take the same messages of every round in end alike
-/

namespace RankedKeys

variable {σ M R : Type} [Tagged M]

namespace Engine

variable {P : Protocol σ M R} {e e' e'' : Engine σ M R} {rest : MessageType → List M}

/-- An event that neither stops an engine nor takes its runtime down. -/
def Event.Proceeds : Event M → Prop
  | .stop => False
  | .shutdown => False
  | _ => True

/-- **Events** that start an engine and let it do all that it can do in the end. -/
structure Settles (events : List (Event M)) : Prop where
  proceeds : ∀ event ∈ events, event.Proceeds
  settled : ∃ before, .start ∈ before ∧ events = before ++ [.turn]

omit [Tagged M] in
theorem inProgress_finish (e : Engine σ M R) (outcome : Except Error R) :
    (e.finish outcome).inProgress = none := by
  unfold inProgress
  split <;> rfl

omit [Tagged M] in
theorem inProgress_follow_goesOn (e : Engine σ M R) (tag : MessageType) (round : σ) (count : ℕ) :
    (e.follow (.goesOn tag round count)).inProgress =
      if e.live then some (round, count) else none := rfl

/-- **Engines of which the same can be told**: how the run stands, its round, what was announced
and what is left in the mailboxes. -/
structure Alike (e e' : Engine σ M R) : Prop where
  state : e.state = e'.state
  result : e.result = e'.result
  tag : e.tag = e'.tag
  calls : e.calls = e'.calls
  box : ∀ tag, e.mailboxes.box tag = e'.mailboxes.box tag

/-! ## Engines that lack messages -/

/-- **An engine is behind** another one if all that it lacks are the last messages in the
mailboxes. -/
structure Behind (rest : MessageType → List M) (e e' : Engine σ M R) : Prop where
  inProgress : e.inProgress = e'.inProgress
  tag : e.tag = e'.tag
  running : e.running = e'.running
  live : e.live = e'.live
  outcome : e.outcome = e'.outcome
  calls : e.calls = e'.calls
  types : e.mailboxes.types = e'.mailboxes.types
  box : ∀ tag, e.mailboxes.box tag ++ rest tag = e'.mailboxes.box tag

namespace Behind

theorem symm (h : Behind (fun _ => []) e e') : Behind (fun _ => []) e' e where
  inProgress := h.inProgress.symm
  tag := h.tag.symm
  running := h.running.symm
  live := h.live.symm
  outcome := h.outcome.symm
  calls := h.calls.symm
  types := h.types.symm
  box tag := by
    have hbox := h.box tag
    rw [List.append_nil] at hbox ⊢
    exact hbox.symm

theorem trans (h : Behind (fun _ => []) e e') (h' : Behind (fun _ => []) e' e'') :
    Behind (fun _ => []) e e'' where
  inProgress := h.inProgress.trans h'.inProgress
  tag := h.tag.trans h'.tag
  running := h.running.trans h'.running
  live := h.live.trans h'.live
  outcome := h.outcome.trans h'.outcome
  calls := h.calls.trans h'.calls
  types := h.types.trans h'.types
  box tag := by
    have hbox := h.box tag
    rw [List.append_nil] at hbox
    rw [hbox]
    exact h'.box tag

/-- If nothing is lacking, the same can be told of both engines. -/
theorem alike (h : Behind (fun _ => []) e e') : Alike e e' where
  state := by rw [state, state, h.outcome]
  result := by rw [result, result, h.outcome]
  tag := h.tag
  calls := h.calls
  box tag := by
    have hbox := h.box tag
    rwa [List.append_nil] at hbox

/-- The end of a run is the same for both engines. -/
theorem finish (h : Behind rest e e') (outcome : Except Error R) :
    Behind rest (e.finish outcome) (e'.finish outcome) where
  inProgress := by rw [inProgress_finish, inProgress_finish]
  tag := h.tag
  running := rfl
  live := h.live
  outcome := rfl
  calls := by
    have hstate : e.state = e'.state := by rw [state, state, h.outcome]
    simp only [Engine.finish, h.calls, hstate]
  types := h.types
  box := h.box

/-- What a message does is the same for both engines. -/
theorem follow (h : Behind rest e e') (progress : Progress σ R) :
    Behind rest (e.follow progress) (e'.follow progress) := by
  cases progress with
  | ends outcome => exact h.finish outcome
  | goesOn tag round count =>
    refine ⟨?_, rfl, h.running, h.live, h.outcome, h.calls, h.types, h.box⟩
    rw [inProgress_follow_goesOn, inProgress_follow_goesOn, h.live]

/-- Both engines get the same message. -/
theorem pop {round : σ} {count : ℕ} {m : M} {mailboxes : Mailboxes M} (h : Behind rest e e')
    (pops : Pops e round count m mailboxes) :
    ∃ mailboxes', Pops e' round count m mailboxes' ∧
      Behind rest { e with mailboxes } { e' with mailboxes := mailboxes' } := by
  obtain ⟨registered, running, -⟩ := Mailboxes.pop_eq_ok_iff.mp pops.pop
  have hpopped := Mailboxes.popped_of_pop pops.pop
  -- The message is the oldest one of the fuller mailbox as well.
  have hbox : e'.mailboxes.box e'.tag = m :: (mailboxes.box e.tag ++ rest e.tag) := by
    rw [← h.tag, ← h.box, hpopped.box_self, List.cons_append]
  rw [h.types, h.tag] at registered
  obtain ⟨mailboxes', pop', hpopped'⟩ := Mailboxes.pop_of_box registered hbox
  refine ⟨mailboxes', ⟨?_, ?_⟩, ?_⟩
  · rw [← h.inProgress, pops.inProgress]
  · rw [← h.running, running, pop']
  · refine ⟨h.inProgress, h.tag, h.running, h.live, h.outcome, h.calls, ?_, fun tag => ?_⟩
    · show mailboxes.types = mailboxes'.types
      rw [hpopped.types, hpopped'.types, h.types]
    · show mailboxes.box tag ++ rest tag = mailboxes'.box tag
      by_cases htag : tag = e.tag
      · have hself := hpopped'.box_self
        rw [hbox, List.cons.injEq, ← h.tag] at hself
        rw [htag, hself.2]
      · rw [hpopped.box_of_ne tag htag, hpopped'.box_of_ne tag (h.tag ▸ htag), h.box]

/-- **A step** of an engine that lacks messages is one that the other engine takes as well, or
nothing but a wait. -/
theorem step (h : Behind rest e e') (P : Protocol σ M R) :
    Behind rest (e.step P) e' ∨ Behind rest (e.step P) (e'.step P) := by
  have stepped := stepped_step P e
  generalize e.step P = next at stepped ⊢
  cases stepped with
  | rest => exact .inl h
  | @wakes round spawned live =>
    left
    refine ⟨?_, h.tag, h.running, h.live, h.outcome, h.calls, h.types, h.box⟩
    rw [← h.inProgress]
    simp [Engine.inProgress, spawned]
  | @breaksOff round count error inProgress pop =>
    right
    have hpop : e'.mailboxes.pop e'.tag (!e'.running) = .settled (.error error) := by
      rw [Mailboxes.pop_eq_error_iff] at pop ⊢
      rwa [← h.tag, ← h.running, ← h.types]
    rw [step_of_pop_eq_error (h.inProgress ▸ inProgress) hpop]
    exact h.finish (.error error)
  | @takes round count m mailboxes pops =>
    right
    obtain ⟨mailboxes', pops', hbehind⟩ := h.pop pops
    have hstep : e'.step P =
        Engine.follow { e' with mailboxes := mailboxes' } (P.progress e.tag round count m) := by
      rw [h.tag]
      exact step_of_pops pops'
    rw [hstep]
    exact hbehind.follow _

/-- The steps of a turn are steps of the other engine. -/
theorem repeated (h : Behind rest e e') (P : Protocol σ M R) (k : ℕ) :
    ∃ n, Behind rest (repeated (Engine.step P) k e) (repeated (Engine.step P) n e') := by
  induction k generalizing e e' with
  | zero => exact ⟨0, h⟩
  | succ k ih =>
    rcases h.step P with hwaits | hsteps
    · exact ih hwaits
    · obtain ⟨n, hn⟩ := ih hsteps
      exact ⟨n + 1, hn⟩

/-- An offer supplies a message that was lacking, unless it is refused. -/
theorem offer {sender : PartyId} {m : M} {messages : List M}
    (h : Behind (tagged (e.taken (.add sender m) ++ messages)) e e') :
    Behind (tagged messages) (e.offer sender m) e' := by
  unfold Engine.offer
  rw [taken] at h
  cases hadd : e.addMessage sender m with
  | error error =>
    rw [hadd] at h
    exact h
  | ok next =>
    rw [hadd] at h
    obtain ⟨-, -, mailboxes, hpush, rfl⟩ := addMessage_eq_ok_iff.mp hadd
    have pushed := Mailboxes.pushed_of_push hpush
    refine ⟨h.inProgress, h.tag, h.running, h.live, h.outcome, h.calls, ?_, fun tag => ?_⟩
    · exact pushed.types.trans h.types
    · rw [← h.box tag]
      exact pushed.box_append_tagged messages tag

/-- Both engines are started. -/
theorem start {round : σ} (h : Behind rest e e') (fresh : e.consumer = .unstarted round)
    (fresh' : e'.consumer = .unstarted round) : Behind rest e.start e'.start := by
  unfold Engine.start
  rw [fresh, fresh']
  refine ⟨?_, h.tag, rfl, h.live, h.outcome, h.calls, h.types, h.box⟩
  simp only [Engine.inProgress, h.live]

end Behind

/-! ## Runs -/

/-- **While it runs**, an engine that lacks messages goes through states of the other engine, which
has them all from the start. -/
theorem Behind.catchesUp {events : List (Event M)} (proceeds : ∀ event ∈ events, event.Proceeds)
    (started : e.Started) (h : Behind (tagged (accepted P e events)) e e') :
    ∃ n, Behind (fun _ => []) (e.play P events) (Engine.repeated (Engine.step P) n e') := by
  induction events generalizing e e' with
  | nil => exact ⟨0, h⟩
  | cons event events ih =>
    rw [List.forall_mem_cons] at proceeds
    rw [play_cons]
    cases event with
    | start =>
      rw [react, start_of_started started]
      rw [accepted, react, start_of_started started] at h
      exact ih proceeds.2 started h
    | add sender m =>
      obtain ⟨mailboxes, hoffer⟩ := offer_eq e sender m
      refine ih proceeds.2 ?_ h.offer
      rw [react, hoffer]
      exact started
    | step =>
      rcases h.step P with hwaits | hsteps
      · exact ih proceeds.2 (started.step P) hwaits
      · obtain ⟨n, hn⟩ := ih proceeds.2 (started.step P) hsteps
        exact ⟨n + 1, hn⟩
    | turn =>
      obtain ⟨n, hn⟩ := h.repeated P (e.mailboxes.size + 1)
      obtain ⟨n', hn'⟩ := ih proceeds.2 (started.react P .turn) hn
      exact ⟨n + n', by rwa [repeated_add]⟩
    | stop => exact absurd proceeds.1 id
    | shutdown => exact absurd proceeds.1 id

/-- Before its start an engine only takes messages in; from then on it catches up. -/
theorem Behind.catchesUp_start {round : σ} {events : List (Event M)}
    (proceeds : ∀ event ∈ events, event.Proceeds) (starts : .start ∈ events)
    (fresh : e.consumer = .unstarted round) (fresh' : e'.consumer = .unstarted round)
    (h : Behind (tagged (accepted P e events)) e e') :
    ∃ n, Behind (fun _ => []) (e.play P events) (Engine.repeated (Engine.step P) n e'.start) := by
  induction events generalizing e with
  | nil => exact absurd starts List.not_mem_nil
  | cons event events ih =>
    rw [List.forall_mem_cons] at proceeds
    have hrest : e.advance P = .rest :=
      advance_of_inProgress_eq_none (by simp [Engine.inProgress, fresh])
    rw [play_cons]
    cases event with
    | start =>
      exact catchesUp proceeds.2 (started_start e) (Behind.start h fresh fresh')
    | add sender m =>
      obtain ⟨mailboxes, hoffer⟩ := offer_eq e sender m
      refine ih proceeds.2 (by simpa using starts) ?_ h.offer
      rw [react, hoffer]
      exact fresh
    | step =>
      have hreact : e.react P .step = e := step_of_rest hrest
      rw [accepted, hreact] at h
      rw [hreact]
      exact ih proceeds.2 (by simpa using starts) fresh h
    | turn =>
      have hreact : e.react P .turn = e := repeated_of_rest hrest _
      rw [accepted, hreact] at h
      rw [hreact]
      exact ih proceeds.2 (by simpa using starts) fresh h
    | stop => exact absurd proceeds.1 id
    | shutdown => exact absurd proceeds.1 id

omit [Tagged M] in
theorem Settles.start_mem {events : List (Event M)} (h : Settles events) : .start ∈ events := by
  obtain ⟨before, hstart, rfl⟩ := h.settled
  exact List.mem_append_left _ hstart

theorem Settles.advance {events : List (Event M)} (h : Settles events) (P : Protocol σ M R)
    (e : Engine σ M R) : (e.play P events).advance P = .rest := by
  obtain ⟨before, -, rfl⟩ := h.settled
  rw [play_append]
  exact advance_turn P _

/-- Of two engines that have nothing left to do, the one that is behind is where the other is. -/
theorem Behind.of_rest {n k : ℕ} (rests : e.advance P = .rest)
    (h : Behind (fun _ => []) e (Engine.repeated (Engine.step P) n e''))
    (h' : Behind (fun _ => []) e' (Engine.repeated (Engine.step P) (n + k) e'')) :
    Behind (fun _ => []) e e' := by
  -- The steps that the second engine has taken more do not change anything.
  have hsteps : Behind (fun _ => []) (Engine.repeated (Engine.step P) (n + k) e'') e := by
    rw [repeated_add]
    refine repeated_induction (p := (Behind (fun _ => []) · e)) (fun next hnext => ?_) k h.symm
    rcases hnext.step P with hwaits | hmoves
    · exact hwaits
    · rwa [step_of_rest rests] at hmoves
  exact (h'.trans hsteps).symm

/-- **A run does not depend on timing**: if two runs go on until nothing is left to do, and if they
take the same messages of every round in, each in the same order, they end alike. -/
theorem alike_of_plays (P : Protocol σ M R) (selfId : PartyId) (peerCount : ℕ) (round : σ)
    (types : List MessageType) {first second : List (Event M)} (hfirst : Settles first)
    (hsecond : Settles second)
    (same : ∀ tag, tagged (accepted P (create P selfId peerCount round types) first) tag =
      tagged (accepted P (create P selfId peerCount round types) second) tag) :
    Alike ((create P selfId peerCount round types).play P first)
      ((create P selfId peerCount round types).play P second) := by
  let e := create P selfId peerCount round types
  -- The engine that has all messages before its start.
  let full : Engine σ M R := { e with mailboxes.waiting := accepted P e first }
  have reaches : ∀ {events : List (Event M)}, Settles events →
      tagged (accepted P e first) = tagged (accepted P e events) →
        ∃ n, Behind (fun _ => []) (e.play P events) (repeated (step P) n full.start) := by
    intro events hevents heq
    refine Behind.catchesUp_start hevents.proceeds hevents.start_mem rfl rfl ?_
    rw [← heq]
    exact ⟨rfl, rfl, rfl, rfl, rfl, rfl, rfl, fun tag => rfl⟩
  obtain ⟨n, hn⟩ := reaches hfirst rfl
  obtain ⟨k, hk⟩ := reaches hsecond (funext same)
  rcases Nat.le_total n k with hle | hle
  · obtain ⟨d, rfl⟩ := Nat.exists_eq_add_of_le hle
    exact (Behind.of_rest (hfirst.advance P e) hn hk).alike
  · obtain ⟨d, rfl⟩ := Nat.exists_eq_add_of_le hle
    exact (Behind.of_rest (hsecond.advance P e) hk hn).symm.alike

/-! ## Two schedules of one run -/

/-- A table of two rounds, of which the second one refuses the only note that it gets. -/
def refusing : Script ℕ :=
  .first ⟨1, 1, [], [], none, false, false, .nextRow⟩
    [⟨2, 1, [("b", "out of range")], [], none, false, false, .nextRow⟩]

/-- The second note arrives before the start, and the first one afterwards. -/
def backlogFirst : List (Event (Note ℕ)) :=
  [.add "b" ⟨"b", 2, 20⟩, .start, .turn, .add "b" ⟨"b", 1, 10⟩, .turn]

/-- Both notes arrive after the start, one after the other. -/
def oneByOne : List (Event (Note ℕ)) :=
  [.start, .turn, .add "b" ⟨"b", 1, 10⟩, .turn, .add "b" ⟨"b", 2, 20⟩, .turn]

/-- Both runs fail in the second round, in the same way. -/
theorem alike_backlogFirst_oneByOne :
    let e := create Script.protocol "a" 1 refusing [1, 2]
    Alike (e.play Script.protocol backlogFirst) (e.play Script.protocol oneByOne) ∧
      ∀ events ∈ [backlogFirst, oneByOne],
        (e.play Script.protocol events).tag = 2 ∧
          (e.play Script.protocol events).result = .error (.handlerValidationFailed "b"
            (Error.verificationFailed "out of range").message) := by
  constructor
  · refine alike_of_plays Script.protocol "a" 1 refusing [1, 2]
      ⟨?_, backlogFirst.dropLast, ?_, rfl⟩ ⟨?_, oneByOne.dropLast, ?_, rfl⟩ ?_
    · simp [backlogFirst, Event.Proceeds]
    · simp [backlogFirst]
    · simp [oneByOne, Event.Proceeds]
    · simp [oneByOne]
    · intro tag
      have hfirst : accepted Script.protocol (create Script.protocol "a" 1 refusing [1, 2])
          backlogFirst = [⟨"b", 2, 20⟩, ⟨"b", 1, 10⟩] := rfl
      have hsecond : accepted Script.protocol (create Script.protocol "a" 1 refusing [1, 2])
          oneByOne = [⟨"b", 1, 10⟩, ⟨"b", 2, 20⟩] := rfl
      rw [hfirst, hsecond]
      -- The two notes are in different mailboxes.
      by_cases htag : tag = 1
      · subst htag
        rfl
      · have hne : ¬ (1 : MessageType) = tag := fun h => htag h.symm
        simp [tagged, Tagged.tag, hne, List.filter_cons]
  · exact List.forall_mem_cons.mpr ⟨⟨rfl, rfl⟩, List.forall_mem_singleton.mpr ⟨rfl, rfl⟩⟩

end Engine

end RankedKeys
