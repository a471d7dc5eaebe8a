import RankedKeys.Proofs.Engine.Ending
import RankedKeys.Proofs.Engine.Timing

/-!
# Complete sets of messages

If all messages that a protocol needs are on their way, each with the tag of the round that takes
it, the order in which they come in does not matter: those of later rounds wait in their mailboxes,
none of them is refused, and the run gets to its output.

## Main definitions

* `Course P output tag round count messages`: a round in progress gets to the output with some
  messages
* `Engine.Underway P output coming messages e`: an engine on its course, with messages that are
  still to come

## Main results

* `Engine.Underway.accepts`: a message that is to come is taken in
* `Engine.Underway.play`: a run stays on its course
* `Engine.Underway.arrives`: when nothing is left to come and to do, the run is over
-/

namespace RankedKeys

variable {σ M R : Type} [Tagged M]

/-- **A course** of a protocol: the messages that lead a round in progress to the output, in the
order in which they are taken. -/
inductive Course (P : Protocol σ M R) (output : R) : MessageType → σ → ℕ → List M → Prop
  | last {tag : MessageType} {round : σ} {count : ℕ} {m : M} (own : Tagged.tag m = tag)
    (ends : P.progress tag round count m = .ends (.ok output)) :
    Course P output tag round count [m]
  | more {tag : MessageType} {round : σ} {count : ℕ} {m : M} {tag' : MessageType} {round' : σ}
    {count' : ℕ} {messages : List M} (own : Tagged.tag m = tag)
    (goesOn : P.progress tag round count m = .goesOn tag' round' count')
    (next : Course P output tag' round' count' messages) :
    Course P output tag round count (m :: messages)

/-- A round in progress needs a message of its own tag. -/
theorem Course.exists_cons {P : Protocol σ M R} {output : R} {tag : MessageType} {round : σ}
    {count : ℕ} {messages : List M} (h : Course P output tag round count messages) :
    ∃ m later, messages = m :: later ∧ Tagged.tag m = tag := by
  cases h with
  | last own => exact ⟨_, _, rfl, own⟩
  | more own => exact ⟨_, _, rfl, own⟩

namespace Engine

variable {P : Protocol σ M R} {e : Engine σ M R} {output : R} {coming messages : List M}

/-- **A run that got to its output**, and was announced as such. -/
structure Finished (e : Engine σ M R) (output : R) : Prop where
  state : e.state = .done
  result : e.result = .ok output
  calls : e.calls = [(.init, .done)]

omit [Tagged M] in
theorem Standing.finished (h : Standing e) (outcome : e.outcome = some (.ok output)) :
    e.Finished output := by
  cases h with
  | ongoing none => cases none.symm.trans outcome
  | ended some ready calls =>
    cases some.symm.trans outcome
    refine ⟨?_, ?_, calls⟩
    · rw [state, outcome]
    · rw [result, outcome]

/-- How far an engine has got on its course. -/
inductive Phase (P : Protocol σ M R) (output : R) (e : Engine σ M R) : List M → Prop
  | idle {round : σ} {messages : List M} (consumer : e.consumer = .unstarted round)
    (course : Course P output e.tag round 0 messages) : Phase P output e messages
  | active {round : σ} {count : ℕ} {messages : List M} (running : e.running = true)
    (inProgress : e.inProgress = some (round, count))
    (course : Course P output e.tag round count messages) : Phase P output e messages
  | ended (consumer : e.consumer = .ended) (outcome : e.outcome = some (.ok output)) :
    Phase P output e []

/-- **An engine on its course**, with the messages that it has not taken out of its mailboxes so
far. Those that are still to come belong at the ends of the mailboxes. -/
structure Underway (P : Protocol σ M R) (output : R) (coming messages : List M)
    (e : Engine σ M R) : Prop where
  live : e.live = true
  phase : Phase P output e messages
  box : ∀ tag, e.mailboxes.box tag ++ tagged coming tag = tagged messages tag
  sorted : messages.Pairwise (Tagged.tag · ≤ Tagged.tag ·)
  registered : ∀ m ∈ messages, Tagged.tag m ∈ e.mailboxes.types
  room : ∀ tag, (tagged messages tag).length ≤ e.mailboxes.capacity

/-- An engine is on no later round than the messages of its course. -/
theorem Phase.tag_le {m : M} (h : Phase P output e messages)
    (sorted : messages.Pairwise (Tagged.tag · ≤ Tagged.tag ·)) (hm : m ∈ messages) :
    e.tag ≤ Tagged.tag m := by
  have hcourse : ∃ first later, messages = first :: later ∧ Tagged.tag first = e.tag := by
    cases h with
    | idle consumer course => exact course.exists_cons
    | active running inProgress course => exact course.exists_cons
    | ended => exact absurd hm List.not_mem_nil
  obtain ⟨first, later, rfl, hfirst⟩ := hcourse
  rw [← hfirst]
  rcases List.mem_cons.mp hm with rfl | hlater
  · exact UInt32.le_refl _
  · exact (List.pairwise_cons.mp sorted).1 m hlater

namespace Underway

/-- **A message that is to come** is taken in. -/
theorem accepts {m : M} (h : Underway P output (m :: coming) messages e) :
    ∃ mailboxes, e.addMessage (Tagged.sender m) m = .ok { e with mailboxes } ∧
      Underway P output coming messages { e with mailboxes } := by
  have hbox := h.box (Tagged.tag m)
  rw [tagged_cons_self] at hbox
  have hmem : m ∈ messages := by
    have hm : m ∈ tagged messages (Tagged.tag m) := by
      rw [← hbox]
      exact List.mem_append_right _ List.mem_cons_self
    exact (List.mem_filter.mp hm).1
  -- The message is one of those that there is room for.
  have hroom : (e.mailboxes.box (Tagged.tag m)).length < e.mailboxes.capacity := by
    have hlength := h.room (Tagged.tag m)
    rw [← hbox, List.length_append, List.length_cons] at hlength
    omega
  obtain ⟨mailboxes, hpush, pushed⟩ := Mailboxes.pushed_of_room (h.registered m hmem) hroom
  refine ⟨mailboxes, addMessage_eq_ok_iff.mpr ⟨rfl, h.phase.tag_le h.sorted hmem, mailboxes,
    hpush, rfl⟩, ?_⟩
  refine ⟨h.live, ?_, fun tag => ?_, h.sorted, ?_, ?_⟩
  · cases h.phase with
    | idle consumer course => exact .idle consumer course
    | active running inProgress course => exact .active running inProgress course
    | ended consumer outcome => exact .ended consumer outcome
  · exact (pushed.box_append_tagged coming tag).trans (h.box tag)
  · show ∀ m ∈ messages, Tagged.tag m ∈ mailboxes.types
    rw [pushed.types]
    exact h.registered
  · show ∀ tag, (tagged messages tag).length ≤ mailboxes.capacity
    rw [pushed.capacity]
    exact h.room

theorem start (h : Underway P output coming messages e) :
    Underway P output coming messages e.start := by
  unfold Engine.start
  split
  · rename_i round hround
    refine ⟨h.live, ?_, h.box, h.sorted, h.registered, h.room⟩
    cases h.phase with
    | idle consumer course =>
      rw [hround, Consumer.unstarted.injEq] at consumer
      subst consumer
      refine .active rfl ?_ course
      simp [Engine.inProgress, h.live]
    | active running inProgress => simp [Engine.inProgress, hround] at inProgress
    | ended consumer =>
      rw [hround] at consumer
      cases consumer
  · exact h

/-- What is taken out of a mailbox is the next message of the course. -/
theorem pop {round : σ} {count : ℕ} {m first : M} {later : List M} {mailboxes : Mailboxes M}
    (h : Underway P output coming (first :: later) e) (hfirst : Tagged.tag first = e.tag)
    (pops : Pops e round count m mailboxes) :
    m = first ∧ ∀ tag, mailboxes.box tag ++ tagged coming tag = tagged later tag := by
  have hpopped := Mailboxes.popped_of_pop pops.pop
  have hbox := h.box e.tag
  rw [hpopped.box_self, ← hfirst, tagged_cons_self, List.cons_append, List.cons.injEq] at hbox
  obtain ⟨rfl, -⟩ := hbox
  rw [← hfirst] at hpopped
  exact ⟨rfl, hpopped.box_append_tagged h.box⟩

/-- **A step** keeps an engine on its course. -/
theorem step (h : Underway P output coming messages e) :
    ∃ messages', Underway P output coming messages' (e.step P) := by
  cases h.phase with
  | idle consumer course =>
    refine ⟨messages, ?_⟩
    rwa [step_of_rest (advance_of_inProgress_eq_none (by simp [Engine.inProgress, consumer]))]
  | ended consumer outcome =>
    refine ⟨[], ?_⟩
    rwa [step_of_rest (advance_of_ended consumer)]
  | @active round count _ running inProgress course =>
    obtain ⟨first, later, rfl, hfirst⟩ := course.exists_cons
    have stepped := stepped_step P e
    generalize e.step P = next at stepped ⊢
    cases stepped with
    | rest => exact ⟨_, h⟩
    | @wakes round' spawned live =>
      refine ⟨_, h.live, .active running ?_ course, h.box, h.sorted, h.registered, h.room⟩
      rw [← inProgress]
      simp [Engine.inProgress, spawned]
    | @breaksOff round' count' error inProgress' pop =>
      -- The mailbox of the round is registered, and nobody has stopped the engine.
      have hregistered : e.tag ∈ e.mailboxes.types := by
        rw [← hfirst]
        exact h.registered first List.mem_cons_self
      rw [running] at pop
      exact absurd pop (Mailboxes.pop_ne_error hregistered error)
    | @takes round' count' m mailboxes pops =>
      have hpopped := Mailboxes.popped_of_pop pops.pop
      obtain ⟨rfl, hbox⟩ := h.pop hfirst pops
      have hsorted := (List.pairwise_cons.mp h.sorted).2
      have hregistered : ∀ m ∈ later, Tagged.tag m ∈ mailboxes.types := by
        rw [hpopped.types]
        exact fun m hm => h.registered m (List.mem_cons_of_mem _ hm)
      have hroom : ∀ tag, (tagged later tag).length ≤ mailboxes.capacity := by
        intro tag
        rw [hpopped.capacity]
        have hsublist := (List.sublist_cons_self m later).filter (Tagged.tag · == tag)
        exact Nat.le_trans hsublist.length_le (h.room tag)
      have heq := pops.inProgress
      rw [inProgress, Option.some.injEq, Prod.mk.injEq] at heq
      obtain ⟨rfl, rfl⟩ := heq
      cases course with
      | last own ends =>
        rw [ends]
        exact ⟨_, h.live, .ended rfl rfl, hbox, hsorted, hregistered, hroom⟩
      | more own goesOn next =>
        rw [goesOn]
        refine ⟨_, h.live, .active running ?_ next, hbox, hsorted, hregistered, hroom⟩
        rw [inProgress_follow_goesOn]
        exact if_pos h.live

/-- **A run** stays on its course, and the messages that are offered are those that were to
come. -/
theorem play {before : List (Event M)} (proceeds : ∀ event ∈ before, event.Proceeds)
    (senders : ∀ sender m, .add sender m ∈ before → sender = Tagged.sender m)
    (h : Underway P output (offered before ++ coming) messages e) :
    ∃ messages', Underway P output coming messages' (e.play P before) := by
  induction before generalizing e messages with
  | nil => exact ⟨messages, h⟩
  | cons event before ih =>
    rw [List.forall_mem_cons] at proceeds
    have hsenders : ∀ sender m, .add sender m ∈ before → sender = Tagged.sender m :=
      fun sender m hm => senders sender m (List.mem_cons_of_mem _ hm)
    rw [play_cons]
    cases event with
    | start => exact ih proceeds.2 hsenders h.start
    | add sender m =>
      obtain rfl := senders sender m List.mem_cons_self
      obtain ⟨mailboxes, hadd, hunderway⟩ := accepts h
      have hreact : e.react P (.add (Tagged.sender m) m) = { e with mailboxes } := by
        rw [react, offer, hadd]
      rw [hreact]
      exact ih proceeds.2 hsenders hunderway
    | step =>
      obtain ⟨messages', hstep⟩ := h.step
      exact ih proceeds.2 hsenders hstep
    | turn =>
      have hturn : ∃ messages', Underway P output (offered before ++ coming) messages' (e.turn P) :=
        repeated_induction
          (p := fun e => ∃ messages', Underway P output (offered before ++ coming) messages' e)
          (fun _ he => he.elim fun _ hunderway => hunderway.step) _ ⟨messages, h⟩
      obtain ⟨messages', hmessages'⟩ := hturn
      exact ih proceeds.2 hsenders hmessages'
    | stop => exact absurd proceeds.1 id
    | shutdown => exact absurd proceeds.1 id

/-- **Every message of a run** on its course is taken in. -/
theorem admits {before after : List (Event M)} {sender : PartyId} {m : M}
    (proceeds : ∀ event ∈ before ++ .add sender m :: after, event.Proceeds)
    (senders : ∀ sender' m', .add sender' m' ∈ before ++ .add sender m :: after →
      sender' = Tagged.sender m')
    (h : Underway P output (offered (before ++ .add sender m :: after)) messages e) :
    ∃ e', (e.play P before).addMessage sender m = .ok e' := by
  obtain rfl := senders sender m (List.mem_append_right _ List.mem_cons_self)
  have hoffered : offered (before ++ .add (Tagged.sender m) m :: after) =
      offered before ++ m :: offered after := List.filterMap_append
  have hproceeds : ∀ event ∈ before, event.Proceeds :=
    fun event hevent => proceeds event (List.mem_append_left _ hevent)
  have hsenders : ∀ sender' m', .add sender' m' ∈ before → sender' = Tagged.sender m' :=
    fun sender' m' hadd => senders sender' m' (List.mem_append_left _ hadd)
  rw [hoffered] at h
  obtain ⟨messages', hplay⟩ := h.play hproceeds hsenders
  obtain ⟨mailboxes, hadd, -⟩ := hplay.accepts
  exact ⟨_, hadd⟩

/-- **When nothing is left** to come and to do, a started engine has got to its output. -/
theorem arrives (h : Underway P output [] messages e) (started : e.Started)
    (rests : e.advance P = .rest) : e.outcome = some (.ok output) := by
  cases h.phase with
  | idle consumer => exact absurd consumer (started _)
  | ended consumer outcome => exact outcome
  | active running inProgress course =>
    -- Otherwise the next message of the course would wait in its mailbox.
    obtain ⟨first, later, rfl, hfirst⟩ := course.exists_cons
    have hbox := h.box e.tag
    rw [tagged_nil, List.append_nil, ← hfirst, tagged_cons_self, hfirst] at hbox
    have hregistered : e.tag ∈ e.mailboxes.types := by
      rw [← hfirst]
      exact h.registered first List.mem_cons_self
    obtain ⟨mailboxes, hpop, hpopped⟩ := Mailboxes.pop_of_box hregistered hbox
    exact absurd rests (advance_ne_rest ⟨inProgress, by rw [running]; exact hpop⟩)

/-- **An engine on its course** finishes when all messages have come in, in whatever order. -/
theorem finishes {events : List (Event M)} (settles : Settles events)
    (senders : ∀ sender m, .add sender m ∈ events → sender = Tagged.sender m)
    (h : Underway P output (offered events) messages e) :
    (e.play P events).outcome = some (.ok output) := by
  rw [← List.append_nil (offered events)] at h
  obtain ⟨messages', hplay⟩ := h.play settles.proceeds senders
  exact hplay.arrives (started_of_play settles.start_mem P e) (settles.advance P e)

end Underway

end Engine

end RankedKeys
