import RankedKeys.Proofs.Engine.Mailboxes
import RankedKeys.Proofs.Engine.Run

/-!
# Engines under events

An engine is started, stopped and shut down, gets messages, and its consumer gets turns, in any
order. What a step of the consumer does depends on the round in progress and on the oldest message
of its tag alone; a turn takes steps until there is nothing left to do.

## Main definitions

* `tagged messages tag`: the messages of one round
* `Protocol.progress`, `Engine.follow`: what a message does to the consumer that takes it
* `Engine.Stepped P e next`: what an engine is after a step, one constructor for each kind
* `Engine.Event`, `Engine.play`: a run that is given by its events
* `Engine.accepted`: the messages that are taken in during a run
* `Engine.Started`: the engines that have been started

## Main results

* `Engine.stepped_step`: every step is of one of these kinds
* `Engine.advance_turn`: a turn leaves nothing to do
* `Engine.Started.react`: an engine is started once
-/

namespace RankedKeys

variable {σ M R : Type} [Tagged M]

/-- The messages of a list that carry a tag, in order. -/
def tagged (messages : List M) (tag : MessageType) : List M :=
  messages.filter (Tagged.tag · == tag)

@[simp] theorem tagged_nil (tag : MessageType) : tagged ([] : List M) tag = [] := rfl

theorem tagged_cons_self (m : M) (messages : List M) :
    tagged (m :: messages) (Tagged.tag m) = m :: tagged messages (Tagged.tag m) := by
  simp [tagged]

theorem tagged_cons_of_ne {m : M} {tag : MessageType} (h : tag ≠ Tagged.tag m)
    (messages : List M) : tagged (m :: messages) tag = tagged messages tag := by
  simp [tagged, h.symm]

theorem tag_of_mem_tagged {m : M} {messages : List M} {tag : MessageType}
    (h : m ∈ tagged messages tag) : Tagged.tag m = tag :=
  beq_iff_eq.mp (List.mem_filter.mp h).2

theorem tagged_eq_nil {messages : List M} {tag : MessageType}
    (h : ∀ m ∈ messages, Tagged.tag m ≠ tag) : tagged messages tag = [] :=
  List.filter_eq_nil_iff.mpr fun m hm heq => h m hm (beq_iff_eq.mp heq)

/-- What one round gets out of the messages of another one. -/
theorem tagged_tagged (messages : List M) (tag' tag : MessageType) :
    tagged (tagged messages tag') tag = if tag' = tag then tagged messages tag else [] := by
  split
  · rename_i heq
    subst heq
    exact List.filter_eq_self.mpr fun m hm => beq_iff_eq.mpr (tag_of_mem_tagged hm)
  · rename_i hne
    exact tagged_eq_nil fun m hm heq => hne ((tag_of_mem_tagged hm).symm.trans heq)

/-- The messages of some rounds, one round after the other, are those of each of them. -/
theorem tagged_flatMap_tagged {tags : List MessageType} (nodup : tags.Nodup) (messages : List M)
    (tag : MessageType) :
    tagged (tags.flatMap (tagged messages)) tag =
      if tag ∈ tags then tagged messages tag else [] := by
  induction tags with
  | nil => rfl
  | cons first tags ih =>
    rw [List.nodup_cons] at nodup
    have happend : tagged ((first :: tags).flatMap (tagged messages)) tag =
        tagged (tagged messages first) tag ++ tagged (tags.flatMap (tagged messages)) tag := by
      rw [List.flatMap_cons]
      exact List.filter_append ..
    rw [happend, tagged_tagged, ih nodup.2]
    by_cases hfirst : first = tag
    · subst hfirst
      rw [if_pos rfl, if_neg nodup.1, if_pos List.mem_cons_self, List.append_nil]
    · rw [if_neg hfirst, List.nil_append]
      simp [Ne.symm hfirst]

/-- A message that is pushed counts in the mailboxes, and not among those to come any more. -/
theorem Mailboxes.Pushed.box_append_tagged {q q' : Mailboxes M} {m : M} (h : Pushed q m q')
    (coming : List M) (tag : MessageType) :
    q'.box tag ++ tagged coming tag = q.box tag ++ tagged (m :: coming) tag := by
  by_cases htag : tag = Tagged.tag m
  · rw [htag, h.box_self, tagged_cons_self, List.append_assoc]
    rfl
  · rw [h.box_of_ne tag htag, tagged_cons_of_ne htag]

/-- A message that is popped does not count in the mailboxes any more. -/
theorem Mailboxes.Popped.box_append_tagged {q q' : Mailboxes M} {m : M}
    (h : Popped q (Tagged.tag m) m q') {coming later : List M}
    (hbox : ∀ tag, q.box tag ++ tagged coming tag = tagged (m :: later) tag)
    (tag : MessageType) : q'.box tag ++ tagged coming tag = tagged later tag := by
  by_cases htag : tag = Tagged.tag m
  · have hself := hbox tag
    rw [htag, h.box_self, tagged_cons_self, List.cons_append, List.cons.injEq] at hself
    rw [htag, hself.2]
  · rw [h.box_of_ne tag htag, hbox tag, tagged_cons_of_ne htag]

/-- What a message does to the consumer that takes it: the run ends, or it goes on in a round that
has taken some messages. -/
inductive Progress (σ R : Type) where
  | ends (outcome : Except Error R)
  | goesOn (tag : MessageType) (round : σ) (count : ℕ)

/-- What a message does to a round in progress. -/
def Protocol.progress (P : Protocol σ M R) (tag : MessageType) (round : σ) (count : ℕ) (m : M) :
    Progress σ R :=
  if P.handled round (Tagged.sender m) then
    .ends (.error (.duplicateSender (Tagged.sender m) tag))
  else
    match P.handle round m with
    | .error fault => .ends (.error (Engine.handlingError (Tagged.sender m) fault))
    | .ok round =>
      if count + 1 < P.quota round then .goesOn tag round (count + 1)
      else
        match P.close round with
        | .error fault => .ends (.error (Engine.closingError fault))
        | .ok closing =>
          match closing.transition with
          | .done output => .ends (.ok output)
          | .next round => .goesOn (P.tag round) round 0

namespace Engine

variable {P : Protocol σ M R} {e e' : Engine σ M R}

/-- The engine whose consumer has taken a message. -/
def follow (e : Engine σ M R) : Progress σ R → Engine σ M R
  | .ends outcome => e.finish outcome
  | .goesOn tag round count => { e with tag, consumer := .active round count }

/-! ## Steps -/

/-- A message that is popped is consumed. -/
theorem advance_of_pops (P : Protocol σ M R) {round : σ} {count : ℕ} {m : M}
    {mailboxes : Mailboxes M} (pops : Pops e round count m mailboxes) :
    e.advance P = consume P { e with mailboxes } round count m := by
  rw [advance, pops.inProgress]
  dsimp only
  rw [pops.pop]

/-- A message that is popped makes its progress. -/
theorem step_of_pops {round : σ} {count : ℕ} {m : M} {mailboxes : Mailboxes M}
    (pops : Pops e round count m mailboxes) :
    e.step P = follow { e with mailboxes } (P.progress e.tag round count m) := by
  rw [step, advance_of_pops P pops, consume, Protocol.progress]
  dsimp only
  -- Both sides look at the same answers of the round, one after the other.
  by_cases handled : P.handled round (Tagged.sender m) = true
  · rw [if_pos handled, if_pos handled]
    rfl
  · rw [if_neg handled, if_neg handled]
    cases P.handle round m with
    | error fault => rfl
    | ok round =>
      dsimp only
      by_cases short : count + 1 < P.quota round
      · rw [if_pos short, if_pos short]
        rfl
      · rw [if_neg short, if_neg short]
        cases P.close round with
        | error fault => rfl
        | ok closing =>
          rcases closing with ⟨outbox, transition⟩
          cases transition with
          | done output => rfl
          | next round => rfl

theorem advance_of_inProgress_eq_none (h : e.inProgress = none) : e.advance P = .rest := by
  rw [advance, h]

theorem advance_of_ended (h : e.consumer = .ended) : e.advance P = .rest :=
  advance_of_inProgress_eq_none (by simp [inProgress, h])

theorem step_of_rest (h : e.advance P = .rest) : e.step P = e := by
  rw [step, h]

omit [Tagged M] in
/-- What a message does leaves the other messages in their mailboxes. -/
theorem mailboxes_follow (e : Engine σ M R) (progress : Progress σ R) :
    (e.follow progress).mailboxes = e.mailboxes := by
  cases progress <;> rfl

/-- A message that can be popped is something to do. -/
theorem advance_ne_rest {round : σ} {count : ℕ} {m : M} {mailboxes : Mailboxes M}
    (pops : Pops e round count m mailboxes) : e.advance P ≠ .rest := by
  intro hrest
  -- Otherwise a step would leave the message in its mailbox.
  have hstep := step_of_pops (P := P) pops
  rw [step_of_rest hrest] at hstep
  have heq := congrArg Engine.mailboxes hstep
  rw [mailboxes_follow] at heq
  have hsize := Mailboxes.size_of_pop pops.pop
  rw [heq] at hsize
  exact absurd hsize (Nat.succ_ne_self _)

/-- A request that is refused ends the run. -/
theorem step_of_pop_eq_error {round : σ} {count : ℕ} {error : Error}
    (inProgress : e.inProgress = some (round, count))
    (pop : e.mailboxes.pop e.tag (!e.running) = .settled (.error error)) :
    e.step P = e.finish (.error error) := by
  rw [step, advance, inProgress]
  dsimp only
  rw [pop]

/-- **What an engine is** after a step. -/
inductive Stepped (P : Protocol σ M R) (e : Engine σ M R) : Engine σ M R → Prop
  | rest (advance : e.advance P = .rest) : Stepped P e e
  /-- The first turn of a consumer without a message. -/
  | wakes {round : σ} (spawned : e.consumer = .spawned round) (live : e.live = true)
    (waits : e.mailboxes.pop e.tag (!e.running) = .pending) :
    Stepped P e { e with consumer := .active round 0 }
  /-- The mailbox is not registered, or the consumer was stopped. -/
  | breaksOff {round : σ} {count : ℕ} {error : Error}
    (inProgress : e.inProgress = some (round, count))
    (pop : e.mailboxes.pop e.tag (!e.running) = .settled (.error error)) :
    Stepped P e (e.finish (.error error))
  | takes {round : σ} {count : ℕ} {m : M} {mailboxes : Mailboxes M}
    (pops : Pops e round count m mailboxes) :
    Stepped P e (follow { e with mailboxes } (P.progress e.tag round count m))

/-- **Every step** is of one of these kinds. -/
theorem stepped_step (P : Protocol σ M R) (e : Engine σ M R) : Stepped P e (e.step P) := by
  cases hprogress : e.inProgress with
  | none =>
    have hrest : e.advance P = .rest := advance_of_inProgress_eq_none hprogress
    rw [step_of_rest hrest]
    exact .rest hrest
  | some progress =>
    rcases progress with ⟨round, count⟩
    cases hpop : e.mailboxes.pop e.tag (!e.running) with
    | settled answer =>
      cases answer with
      | error error =>
        rw [step_of_pop_eq_error hprogress hpop]
        exact .breaksOff hprogress hpop
      | ok popped =>
        rcases popped with ⟨m, mailboxes⟩
        rw [step_of_pops ⟨hprogress, hpop⟩]
        exact .takes ⟨hprogress, hpop⟩
    | pending =>
      -- Without a message only the first turn of a consumer changes anything.
      cases hconsumer : e.consumer with
      | spawned round' =>
        have live := live_of_inProgress hprogress
        have hstep : e.step P = { e with consumer := .active round count } := by
          rw [step, advance, hprogress]
          dsimp only
          rw [hpop, hconsumer]
        simp only [Engine.inProgress, live, hconsumer, if_true, Option.some.injEq,
          Prod.mk.injEq] at hprogress
        obtain ⟨rfl, rfl⟩ := hprogress
        rw [hstep]
        exact .wakes hconsumer live hpop
      | unstarted _ | active _ _ | ended =>
        have hrest : e.advance P = .rest := by
          rw [advance, hprogress]
          dsimp only
          rw [hpop, hconsumer]
        rw [step_of_rest hrest]
        exact .rest hrest

/-! ## Turns -/

theorem repeated_of_rest (h : e.advance P = .rest) (n : ℕ) : repeated (step P) n e = e :=
  repeated_induction (p := (· = e)) (by rintro _ rfl; exact step_of_rest h) n rfl

/-- After a step there is nothing left to do, or one message less. -/
theorem advance_step_eq_rest_or_size_lt (P : Protocol σ M R) (e : Engine σ M R) :
    (e.step P).advance P = .rest ∨ (e.step P).mailboxes.size < e.mailboxes.size := by
  have stepped := stepped_step P e
  generalize e.step P = next at stepped ⊢
  cases stepped with
  | rest advance => exact .inl advance
  | wakes spawned live waits =>
    left
    simp [advance, inProgress, live, waits]
  | breaksOff inProgress pop => exact .inl (advance_of_ended rfl)
  | @takes round count m mailboxes pops =>
    right
    rw [mailboxes_follow]
    exact Nat.lt_of_succ_le (Nat.le_of_eq (Mailboxes.size_of_pop pops.pop))

/-- **A turn** leaves nothing to do. -/
theorem advance_turn (P : Protocol σ M R) (e : Engine σ M R) :
    (e.turn P).advance P = .rest := by
  -- Induction on the messages that wait: every step but the last takes one of them.
  have walk : ∀ (n : ℕ) (e : Engine σ M R), e.mailboxes.size ≤ n →
      (repeated (step P) (n + 1) e).advance P = .rest := by
    intro n
    induction n with
    | zero =>
      intro e hsize
      rcases advance_step_eq_rest_or_size_lt P e with hrest | hlt
      · exact hrest
      · omega
    | succ n ih =>
      intro e hsize
      rcases advance_step_eq_rest_or_size_lt P e with hrest | hlt
      · rw [repeated, repeated_of_rest hrest]
        exact hrest
      · exact ih (e.step P) (by omega)
  exact walk _ e (Nat.le_refl _)

/-! ## Runs that are given by their events -/

/-- What happens to an engine. -/
inductive Event (M : Type) where
  | start
  | stop
  /-- A sender offers a message. -/
  | add (sender : PartyId) (m : M)
  /-- One step of the consumer, as part of a turn. -/
  | step
  | turn
  | shutdown

/-- What an event does to an engine. -/
def react (P : Protocol σ M R) (e : Engine σ M R) : Event M → Engine σ M R
  | .start => e.start
  | .stop => e.stop
  | .add sender m => e.offer sender m
  | .step => e.step P
  | .turn => e.turn P
  | .shutdown => e.shutdown

/-- **A run** that is given by its events. -/
def play (P : Protocol σ M R) (e : Engine σ M R) (events : List (Event M)) : Engine σ M R :=
  events.foldl (react P) e

/-- The message that an event makes an engine take in, if any. -/
def taken (e : Engine σ M R) : Event M → List M
  | .add sender m =>
    match e.addMessage sender m with
    | .ok _ => [m]
    | .error _ => []
  | _ => []

/-- **The messages** that an engine takes in during a run, oldest first. -/
def accepted (P : Protocol σ M R) : Engine σ M R → List (Event M) → List M
  | _, [] => []
  | e, event :: events => e.taken event ++ accepted P (e.react P event) events

/-- The messages that are offered in a run, oldest first. -/
def offered (events : List (Event M)) : List M :=
  events.filterMap fun
    | .add _ m => some m
    | _ => none

@[simp] theorem play_nil : e.play P [] = e := rfl

@[simp] theorem play_cons (event : Event M) (events : List (Event M)) :
    e.play P (event :: events) = (e.react P event).play P events := rfl

@[simp] theorem play_append (before after : List (Event M)) :
    e.play P (before ++ after) = (e.play P before).play P after :=
  List.foldl_append

/-- What every event keeps, a run keeps. -/
theorem play_induction {p : Engine σ M R → Prop} {events : List (Event M)}
    (h : ∀ event ∈ events, ∀ e, p e → p (e.react P event)) (he : p e) : p (e.play P events) := by
  induction events generalizing e with
  | nil => exact he
  | cons event events ih =>
    rw [List.forall_mem_cons] at h
    exact ih h.2 (h.1 e he)

/-- An offer changes the mailboxes at most. -/
theorem offer_eq (e : Engine σ M R) (sender : PartyId) (m : M) :
    ∃ mailboxes, e.offer sender m = { e with mailboxes } := by
  unfold offer
  split
  · rename_i taken
    obtain ⟨-, -, mailboxes, -, rfl⟩ := addMessage_eq_ok_iff.mp taken
    exact ⟨mailboxes, rfl⟩
  · exact ⟨e.mailboxes, rfl⟩

/-! ## Engines that are started -/

/-- A consumer that is started stays so. -/
def Started (e : Engine σ M R) : Prop :=
  ∀ round, e.consumer ≠ .unstarted round

omit [Tagged M] in
theorem start_of_started (h : e.Started) : e.start = e := by
  unfold start
  split
  · rename_i hround
    exact absurd hround (h _)
  · rfl

theorem Started.step (h : e.Started) (P : Protocol σ M R) : (e.step P).Started := by
  have stepped := stepped_step P e
  generalize e.step P = next at stepped ⊢
  cases stepped with
  | rest => exact h
  | wakes => exact fun _ hround => nomatch hround
  | breaksOff => exact fun _ hround => nomatch hround
  | @takes round count m mailboxes =>
    cases P.progress e.tag round count m <;> exact fun _ hround => nomatch hround

/-- **Every event** lets a consumer that is started be so. -/
theorem Started.react (h : e.Started) (P : Protocol σ M R) (event : Event M) :
    (e.react P event).Started := by
  cases event with
  | start =>
    show e.start.Started
    rwa [start_of_started h]
  | stop => exact h
  | add sender m =>
    obtain ⟨mailboxes, hoffer⟩ := offer_eq e sender m
    show (e.offer sender m).Started
    rw [hoffer]
    exact h
  | step => exact h.step P
  | turn => exact repeated_induction (p := Started) (fun _ he => he.step P) _ h
  | shutdown =>
    show e.shutdown.Started
    unfold shutdown
    split
    · split
      · exact fun _ hround => nomatch hround
      · exact h
    · exact h

omit [Tagged M] in
theorem started_start (e : Engine σ M R) : e.start.Started := by
  unfold start
  split
  · exact fun _ hround => nomatch hround
  · rename_i hstarted
    exact hstarted

theorem started_of_play {events : List (Event M)} (h : .start ∈ events) (P : Protocol σ M R)
    (e : Engine σ M R) : (e.play P events).Started := by
  obtain ⟨before, after, rfl⟩ := List.append_of_mem h
  rw [play_append, play_cons]
  exact play_induction (p := Started) (fun event _ _ he => he.react P event)
    (started_start (e.play P before))

end Engine

end RankedKeys
