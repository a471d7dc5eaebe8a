import RankedKeys.Proofs.Engine.Record

/-!
# What becomes of a message

A message that an engine has taken in waits in the mailbox of its tag until the consumer draws it,
and it is drawn in a round of this tag. Nothing is lost on the way, nothing is drawn twice, and the
messages of one tag keep their order, whatever else happens to the engine: a round may refuse a
message or break off at it, but the message has been drawn then, and the others wait on. A message
that is refused leaves no trace.

## Main definitions

* `Draw`: a message that has been taken out of its mailbox, with the round that has taken it
* `Engine.draws`, `Engine.drawn`: what a step and a run take out of the mailboxes
* `Engine.Refuses e sender m error`: why a message is not taken in
* `Engine.Accounts`: how the mailboxes of an engine stand after a run

## Main results

* `Engine.messages_drawsOf_append_box`: an event takes from the front of a mailbox and adds at its
  end
* `Engine.addMessage_eq_error_iff`: when a message is not taken in
* `Engine.accounts_of_play`: no message is lost, doubled, or drawn in a round of another tag
-/

namespace RankedKeys

variable {σ M R : Type}

/-- A message that has been taken out of its mailbox. -/
structure Draw (σ M : Type) where
  /-- The round that has taken it, as it was before. -/
  round : σ
  /-- The tag that the engine showed at that moment. -/
  tag : MessageType
  message : M

/-- The messages of some draws that carry a tag, in order. -/
def Draw.messages [Tagged M] (draws : List (Draw σ M)) (tag : MessageType) : List M :=
  tagged (draws.map Draw.message) tag

@[simp] theorem Draw.messages_nil [Tagged M] (tag : MessageType) :
    messages ([] : List (Draw σ M)) tag = [] := rfl

@[simp] theorem Draw.messages_append [Tagged M] (draws draws' : List (Draw σ M))
    (tag : MessageType) :
    messages (draws ++ draws') tag = messages draws tag ++ messages draws' tag := by
  simp [messages, tagged]

/-- To take a message in does not change the tag of a round. -/
def Protocol.KeepsTag (P : Protocol σ M R) : Prop :=
  ∀ round m round', P.handle round m = .ok round' → P.tag round' = P.tag round

variable [Tagged M]

namespace Engine

variable {P : Protocol σ M R} {e e' : Engine σ M R}

/-! ## Messages that are drawn -/

/-- **What a step** of the consumer takes out of the mailboxes. -/
def draws (e : Engine σ M R) : List (Draw σ M) :=
  match e.inProgress with
  | none => []
  | some (round, _) =>
    match e.mailboxes.pop e.tag !e.running with
    | .settled (.ok (m, _)) => [⟨round, e.tag, m⟩]
    | _ => []

/-- What some steps in a row take out of the mailboxes. -/
def drawsIn (P : Protocol σ M R) : ℕ → Engine σ M R → List (Draw σ M)
  | 0, _ => []
  | n + 1, e => e.draws ++ drawsIn P n (e.step P)

/-- What an event takes out of the mailboxes. -/
def drawsOf (P : Protocol σ M R) (e : Engine σ M R) : Event M → List (Draw σ M)
  | .step => e.draws
  | .turn => drawsIn P (e.mailboxes.size + 1) e
  | _ => []

/-- **The messages** that are taken out of the mailboxes during a run, first to last. -/
def drawn (P : Protocol σ M R) : Engine σ M R → List (Event M) → List (Draw σ M)
  | _, [] => []
  | e, event :: events => e.drawsOf P event ++ drawn P (e.react P event) events

theorem draws_of_pops {round : σ} {count : ℕ} {m : M} {mailboxes : Mailboxes M}
    (pops : Pops e round count m mailboxes) : e.draws = [⟨round, e.tag, m⟩] := by
  rw [draws, pops.inProgress]
  dsimp only
  rw [pops.pop]

/-- What is drawn can be popped. -/
theorem exists_pops_of_mem_draws {draw : Draw σ M} (h : draw ∈ e.draws) :
    draw.tag = e.tag ∧ ∃ count mailboxes, Pops e draw.round count draw.message mailboxes := by
  unfold draws at h
  split at h
  · exact absurd h List.not_mem_nil
  · rename_i round count inProgress
    split at h
    · rename_i m mailboxes pop
      rw [List.mem_singleton.mp h]
      exact ⟨rfl, count, mailboxes, inProgress, pop⟩
    · exact absurd h List.not_mem_nil

/-- Without a message to pop nothing is drawn. -/
theorem draws_eq_nil (h : ∀ round count m mailboxes, ¬ Pops e round count m mailboxes) :
    e.draws = [] := by
  refine List.eq_nil_iff_forall_not_mem.mpr fun draw hdraw => ?_
  obtain ⟨-, count, mailboxes, pops⟩ := exists_pops_of_mem_draws hdraw
  exact h _ _ _ _ pops

/-- A message is drawn in a round of its tag. -/
theorem tag_of_mem_draws {draw : Draw σ M} (h : draw ∈ e.draws) :
    Tagged.tag draw.message = draw.tag := by
  obtain ⟨htag, count, mailboxes, pops⟩ := exists_pops_of_mem_draws h
  obtain ⟨-, -, hfind, -⟩ := Mailboxes.pop_eq_ok_iff.mp pops.pop
  rw [htag]
  simpa using List.find?_some hfind

/-- What holds of every draw of a step holds of every draw of a run, if it is known of the engine
before the step, and every event keeps this. -/
theorem drawn_induction {p : Engine σ M R → Prop} {q : Draw σ M → Prop}
    (draws : ∀ e, p e → ∀ draw ∈ draws e, q draw)
    (reacts : ∀ e event, p e → p (e.react P event)) (h : p e) (events : List (Event M)) :
    ∀ draw ∈ drawn P e events, q draw := by
  have several : ∀ n e, p e → ∀ draw ∈ drawsIn P n e, q draw := by
    intro n
    induction n with
    | zero => exact fun _ _ _ hdraw => absurd hdraw List.not_mem_nil
    | succ n ih =>
      intro e he draw hdraw
      rcases List.mem_append.mp hdraw with hdraw | hdraw
      · exact draws e he draw hdraw
      · exact ih (e.step P) (reacts e .step he) draw hdraw
  induction events generalizing e with
  | nil => exact fun _ hdraw => absurd hdraw List.not_mem_nil
  | cons event events ih =>
    intro draw hdraw
    rcases List.mem_append.mp hdraw with hdraw | hdraw
    · cases event with
      | step => exact draws e h draw hdraw
      | turn => exact several _ e h draw hdraw
      | start | stop | add _ _ | shutdown => exact absurd hdraw List.not_mem_nil
    · exact ih (reacts e event h) draw hdraw

/-! ## Nothing is lost -/

/-- **A step** takes from the front of a mailbox. -/
theorem messages_draws_append_box (P : Protocol σ M R) (e : Engine σ M R) (tag : MessageType) :
    Draw.messages e.draws tag ++ (e.step P).mailboxes.box tag = e.mailboxes.box tag := by
  have stepped := stepped_step P e
  generalize e.step P = next at stepped ⊢
  cases stepped with
  | rest advance =>
    rw [draws_eq_nil fun _ _ _ _ pops => advance_ne_rest pops advance]
    rfl
  | wakes spawned live waits =>
    rw [draws_eq_nil fun _ _ _ _ pops => nomatch waits.symm.trans pops.pop]
    rfl
  | breaksOff inProgress pop =>
    rw [draws_eq_nil fun _ _ _ _ pops => nomatch pop.symm.trans pops.pop]
    rfl
  | @takes round count m mailboxes pops =>
    have htag : Tagged.tag m = e.tag :=
      tag_of_mem_draws (draws_of_pops pops ▸ List.mem_singleton_self _)
    have popped := Mailboxes.popped_of_pop pops.pop
    rw [draws_of_pops pops, mailboxes_follow]
    show tagged [m] tag ++ mailboxes.box tag = _
    by_cases h : tag = Tagged.tag m
    · rw [h, tagged_cons_self, htag, popped.box_self]
      rfl
    · rw [tagged_cons_of_ne h, popped.box_of_ne tag (htag ▸ h)]
      rfl

theorem messages_drawsIn_append_box (P : Protocol σ M R) (n : ℕ) (e : Engine σ M R)
    (tag : MessageType) :
    Draw.messages (drawsIn P n e) tag ++ (repeated (step P) n e).mailboxes.box tag =
      e.mailboxes.box tag := by
  induction n generalizing e with
  | zero => rfl
  | succ n ih =>
    rw [drawsIn, repeated, Draw.messages_append, List.append_assoc, ih,
      messages_draws_append_box]

/-- **An event** takes from the front of a mailbox, and adds what is taken in at its end. -/
theorem messages_drawsOf_append_box (P : Protocol σ M R) (e : Engine σ M R) (event : Event M)
    (tag : MessageType) :
    Draw.messages (e.drawsOf P event) tag ++ (e.react P event).mailboxes.box tag =
      e.mailboxes.box tag ++ tagged (e.taken event) tag := by
  cases event with
  | start => simp [drawsOf, react, mailboxes_start, taken]
  | stop => simp [drawsOf, react, stop, taken]
  | shutdown => simp [drawsOf, react, mailboxes_shutdown, taken]
  | step => exact (messages_draws_append_box P e tag).trans (List.append_nil _).symm
  | turn => exact (messages_drawsIn_append_box P _ e tag).trans (List.append_nil _).symm
  | add sender m =>
    show (e.offer sender m).mailboxes.box tag = _
    cases hadd : e.addMessage sender m with
    | error error => simp [offer, taken, hadd]
    | ok e' =>
      obtain ⟨-, -, mailboxes, hpush, rfl⟩ := addMessage_eq_ok_iff.mp hadd
      have hbox := (Mailboxes.pushed_of_push hpush).box_append_tagged [] tag
      rw [tagged_nil, List.append_nil] at hbox
      simpa only [offer, taken, hadd] using hbox

/-- **Over a run** the messages that are drawn, and then those that wait, are the ones that waited
at the beginning, and then those that have been taken in. -/
theorem messages_drawn_append_box (P : Protocol σ M R) (e : Engine σ M R)
    (events : List (Event M)) (tag : MessageType) :
    Draw.messages (drawn P e events) tag ++ (e.play P events).mailboxes.box tag =
      e.mailboxes.box tag ++ tagged (accepted P e events) tag := by
  induction events generalizing e with
  | nil => simp [drawn, accepted]
  | cons event events ih =>
    have happend : tagged (accepted P e (event :: events)) tag =
        tagged (e.taken event) tag ++ tagged (accepted P (e.react P event) events) tag :=
      List.filter_append ..
    rw [drawn, Draw.messages_append, play_cons, List.append_assoc, ih, happend, ← List.append_assoc,
      messages_drawsOf_append_box, List.append_assoc]

/-! ## The mailboxes stay as they were set up -/

/-- The mailboxes are those for some tags, and none holds more than it may. -/
structure Keeps (peerCount : ℕ) (types : List MessageType) (e : Engine σ M R) : Prop where
  capacity : e.mailboxes.capacity = max 1 peerCount
  types : e.mailboxes.types = types
  room : ∀ tag, (e.mailboxes.box tag).length ≤ e.mailboxes.capacity

namespace Keeps

variable {peerCount : ℕ} {types : List MessageType} (h : Keeps peerCount types e)

include h

/-- What only takes messages out of the mailboxes leaves room. -/
theorem of_append (capacity : e'.mailboxes.capacity = e.mailboxes.capacity)
    (registered : e'.mailboxes.types = e.mailboxes.types)
    (box : ∀ tag, ∃ before, before ++ e'.mailboxes.box tag = e.mailboxes.box tag) :
    Keeps peerCount types e' := by
  refine ⟨capacity.trans h.capacity, registered.trans h.types, fun tag => ?_⟩
  obtain ⟨before, heq⟩ := box tag
  have hroom := h.room tag
  rw [← heq, List.length_append] at hroom
  omega

theorem step (P : Protocol σ M R) : Keeps peerCount types (e.step P) := by
  have same : (e.step P).mailboxes.capacity = e.mailboxes.capacity ∧
      (e.step P).mailboxes.types = e.mailboxes.types := by
    have stepped := stepped_step P e
    generalize e.step P = next at stepped ⊢
    cases stepped with
    | rest | wakes | breaksOff => exact ⟨rfl, rfl⟩
    | takes pops =>
      have popped := Mailboxes.popped_of_pop pops.pop
      rw [mailboxes_follow]
      exact ⟨popped.capacity, popped.types⟩
  exact h.of_append same.1 same.2 fun tag => ⟨_, messages_draws_append_box P e tag⟩

theorem offer (sender : PartyId) (m : M) : Keeps peerCount types (e.offer sender m) := by
  unfold Engine.offer
  split
  · rename_i taken
    obtain ⟨-, -, mailboxes, hpush, rfl⟩ := addMessage_eq_ok_iff.mp taken
    have pushed := Mailboxes.pushed_of_push hpush
    refine ⟨pushed.capacity.trans h.capacity, pushed.types.trans h.types, fun tag => ?_⟩
    show (mailboxes.box tag).length ≤ mailboxes.capacity
    rw [pushed.capacity]
    by_cases htag : tag = Tagged.tag m
    · have hroom := Mailboxes.room_of_push hpush
      rw [htag, pushed.box_self, List.length_append, List.length_singleton]
      omega
    · rw [pushed.box_of_ne tag htag]
      exact h.room tag
  · exact h

/-- **Every event** keeps the mailboxes. -/
theorem react (P : Protocol σ M R) (event : Event M) : Keeps peerCount types (e.react P event) := by
  have same : ∀ e' : Engine σ M R, e'.mailboxes = e.mailboxes → Keeps peerCount types e' := by
    intro e' heq
    exact h.of_append (by rw [heq]) (by rw [heq]) fun tag => ⟨[], by rw [heq, List.nil_append]⟩
  cases event with
  | start => exact same _ (mailboxes_start e)
  | stop => exact same _ rfl
  | shutdown => exact same _ (mailboxes_shutdown e)
  | add sender m => exact h.offer sender m
  | step => exact h.step P
  | turn => exact repeated_induction (p := Keeps peerCount types) (fun _ he => he.step P) _ h

end Keeps

/-! ## The tag of a round -/

/-- The engine shows the tag of its round. -/
def Steady (P : Protocol σ M R) (e : Engine σ M R) : Prop :=
  ∀ round count, e.consumer.progress? = some (round, count) → P.tag round = e.tag

namespace Steady

omit [Tagged M] in
/-- What leaves the tag and the round in progress alone changes nothing. -/
theorem of_progress? (h : Steady P e) (tag : e'.tag = e.tag)
    (progress : ∀ p, e'.consumer.progress? = some p → e.consumer.progress? = some p) :
    Steady P e' := by
  intro round count hprogress
  rw [tag]
  exact h round count (progress _ hprogress)

omit [Tagged M] in
theorem finish (e : Engine σ M R) (outcome : Except Error R) : Steady P (e.finish outcome) :=
  fun _ _ h => nomatch h

/-- A message leads to a round of the tag that the engine shows then. -/
theorem follow (keeps : P.KeepsTag) {round : σ} (tag : P.tag round = e.tag) (count : ℕ) (m : M)
    (mailboxes : Mailboxes M) :
    Steady P (Engine.follow { e with mailboxes } (P.progress e.tag round count m)) := by
  unfold Protocol.progress
  split
  · exact finish _ _
  · split
    · exact finish _ _
    · rename_i round' handle
      split
      · -- The round goes on.
        rintro _ _ ⟨⟩
        exact (keeps _ _ _ handle).trans tag
      · split
        · exact finish _ _
        · split
          · exact finish _ _
          · -- The next round opens.
            rintro _ _ ⟨⟩
            rfl

theorem step (keeps : P.KeepsTag) (h : Steady P e) : Steady P (e.step P) := by
  have stepped := stepped_step P e
  generalize e.step P = next at stepped ⊢
  cases stepped with
  | rest => exact h
  | wakes spawned => exact h.of_progress? rfl fun p hp => by rwa [spawned]
  | breaksOff => exact finish _ _
  | takes pops => exact follow keeps (h _ _ (progress?_of_inProgress pops.inProgress)) _ _ _

/-- **Every event** leaves the engine with the tag of its round. -/
theorem react (keeps : P.KeepsTag) (h : Steady P e) (event : Event M) :
    Steady P (e.react P event) := by
  cases event with
  | start =>
    show Steady P e.start
    unfold start
    split
    · rename_i round unstarted
      exact h.of_progress? rfl fun p hp => by rwa [unstarted]
    · exact h
  | stop => exact h
  | add sender m =>
    obtain ⟨mailboxes, hoffer⟩ := offer_eq e sender m
    show Steady P (e.offer sender m)
    rw [hoffer]
    exact h
  | step => exact h.step keeps
  | turn => exact repeated_induction (p := Steady P) (fun _ he => he.step keeps) _ h
  | shutdown =>
    show Steady P e.shutdown
    unfold shutdown
    split
    · split
      · exact fun _ _ h => nomatch h
      · exact h
    · exact h

end Steady

/-! ## Messages that are refused -/

/-- **Why a message is not taken in**, the first reason first. -/
inductive Refuses (e : Engine σ M R) (sender : PartyId) (m : M) : Error → Prop
  | identityMismatch (other : sender ≠ Tagged.sender m) :
    Refuses e sender m (.identityMismatch sender (Tagged.sender m))
  | staleMessage (named : sender = Tagged.sender m) (past : Tagged.tag m < e.tag) :
    Refuses e sender m (.staleMessage e.tag (Tagged.tag m))
  | unknownType (named : sender = Tagged.sender m) (fresh : e.tag ≤ Tagged.tag m)
    (unregistered : Tagged.tag m ∉ e.mailboxes.types) :
    Refuses e sender m (Mailboxes.unknownType (Tagged.tag m))
  | boxFull (named : sender = Tagged.sender m) (fresh : e.tag ≤ Tagged.tag m)
    (registered : Tagged.tag m ∈ e.mailboxes.types)
    (full : e.mailboxes.capacity ≤ (e.mailboxes.box (Tagged.tag m)).length) :
    Refuses e sender m (Mailboxes.boxFull (Tagged.tag m))

/-- **A message is refused** exactly for these reasons. -/
theorem addMessage_eq_error_iff {sender : PartyId} {m : M} {error : Error} :
    e.addMessage sender m = .error error ↔ Refuses e sender m error := by
  unfold addMessage
  constructor
  · intro h
    split at h
    · rename_i other
      cases h
      exact .identityMismatch other
    · rename_i named
      rw [ne_eq, not_not] at named
      split at h
      · rename_i past
        cases h
        exact .staleMessage named past
      · rename_i fresh
        rw [UInt32.not_lt] at fresh
        cases hpush : e.mailboxes.push m with
        | ok mailboxes =>
          rw [hpush] at h
          cases h
        | error error =>
          rw [hpush] at h
          cases h
          rcases Mailboxes.push_eq_error_iff.mp hpush with ⟨unregistered, rfl⟩ |
            ⟨registered, full, rfl⟩
          · exact .unknownType named fresh unregistered
          · exact .boxFull named fresh registered full
  · intro h
    cases h with
    | identityMismatch other => rw [if_pos other]
    | staleMessage named past => rw [if_neg (not_not.mpr named), if_pos past]
    | unknownType named fresh unregistered =>
      rw [if_neg (not_not.mpr named), if_neg (UInt32.not_lt.mpr fresh),
        Mailboxes.push_eq_error_iff.mpr (.inl ⟨unregistered, rfl⟩)]
      rfl
    | boxFull named fresh registered full =>
      rw [if_neg (not_not.mpr named), if_neg (UInt32.not_lt.mpr fresh),
        Mailboxes.push_eq_error_iff.mpr (.inr ⟨registered, full, rfl⟩)]
      rfl

/-! ## The account of a run -/

/-- **How an engine stands** after a run in which it has taken some messages in, and in which some
have been drawn. -/
structure Accounts (P : Protocol σ M R) (peerCount : ℕ) (types : List MessageType)
    (e : Engine σ M R) (accepted : List M) (drawn : List (Draw σ M)) : Prop where
  /-- The messages of a tag that have been drawn, and then those that wait, are those that have been
  taken in. -/
  balance : ∀ tag, Draw.messages drawn tag ++ e.mailboxes.box tag = tagged accepted tag
  /-- No mailbox holds more than it may. -/
  keeps : Keeps peerCount types e
  /-- A message is drawn while the engine shows its tag. -/
  own : ∀ draw ∈ drawn, Tagged.tag draw.message = draw.tag
  /-- That is the tag of the round, if rounds do not change theirs. -/
  ownRound : P.KeepsTag → ∀ draw ∈ drawn, Tagged.tag draw.message = P.tag draw.round
  refused : ∀ sender m error, e.addMessage sender m = .error error ↔ Refuses e sender m error
  /-- A message that is refused leaves no trace. -/
  unchanged : ∀ sender m error, e.addMessage sender m = .error error →
    e.react P (.add sender m) = e

/-- **No message is lost**, doubled, or drawn before an older one of its tag or in a round of
another tag, whatever the protocol and whatever happens to an engine; no mailbox holds more messages
than there are peers; and a message that is refused leaves no trace. -/
theorem accounts_of_play (P : Protocol σ M R) (selfId : PartyId) (peerCount : ℕ) (round : σ)
    (types : List MessageType) (events : List (Event M)) :
    let e := create P selfId peerCount round types
    Accounts P peerCount types (e.play P events) (accepted P e events) (drawn P e events) := by
  intro e
  constructor
  case balance => exact messages_drawn_append_box P e events
  case keeps =>
    refine play_induction (fun event _ _ h => h.react P event) ⟨rfl, rfl, fun tag => ?_⟩
    exact Nat.zero_le _
  case own =>
    exact drawn_induction (p := fun _ => True) (fun _ _ _ hdraw => tag_of_mem_draws hdraw)
      (fun _ _ _ => trivial) trivial events
  case ownRound =>
    intro keeps
    refine drawn_induction (p := Steady P) (fun e steady draw hdraw => ?_)
      (fun e event h => h.react keeps event) ?_ events
    · obtain ⟨htag, count, mailboxes, pops⟩ := exists_pops_of_mem_draws hdraw
      rw [tag_of_mem_draws hdraw, htag]
      exact (steady _ _ (progress?_of_inProgress pops.inProgress)).symm
    · rintro _ _ ⟨⟩
      rfl
  case refused => exact fun _ _ _ => addMessage_eq_error_iff
  case unchanged =>
    intro sender m error hadd
    show offer _ sender m = _
    rw [offer, hadd]

end Engine

end RankedKeys
