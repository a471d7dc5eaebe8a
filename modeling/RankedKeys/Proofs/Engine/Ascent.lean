import Mathlib.Data.List.Chain
import RankedKeys.Engine.Script
import RankedKeys.Proofs.Engine.Conservation

/-!
# Rounds that go back

An engine shows the tag of the round that a closed round leads to, whatever it is; nothing compares
it with the tag before. So it is up to the protocol whether a run ever goes back. If every round
that can be reached leads to none of a lower tag, then the tag never decreases, a tag that has been
refused as stale is refused ever after, and messages are drawn in the order of their tags. One round
that leads back is enough to break all of this, since there are events that bring the engine there.

## Main definitions

* `Protocol.Reached`, `Protocol.Ascends`: the rounds that messages lead to, and a protocol none of
  whose rounds leads to a lower tag
* `Rises lower draws upper`: draws whose tags do not decrease, between two other tags
* `Engine.Forward P e events`: events during which an engine does not go back

## Main results

* `Engine.Within.rises_play`: a run of a protocol that ascends
* `Engine.Stands.play`: one more message brings an engine to the round that it leads to
* `Engine.forward_iff_ascends`: no run goes back exactly if the protocol ascends
* `Script.not_forward_descending`: a table of two rounds that makes its engine go back
-/

namespace RankedKeys

variable {σ M R : Type} [Tagged M]

/-! ## Protocols that ascend -/

/-- **The rounds that messages lead to**, with the tag that is shown in them and the number of
messages they have taken in. A round takes messages of its own tag, if this is registered. -/
inductive Protocol.Reached (P : Protocol σ M R) (types : List MessageType) (first : σ) :
    MessageType → σ → ℕ → Prop
  | first : Reached P types first (P.tag first) first 0
  | next {tag tag' : MessageType} {round round' : σ} {count count' : ℕ} {m : M}
    (reached : Reached P types first tag round count) (registered : tag ∈ types)
    (own : Tagged.tag m = tag) (progress : P.progress tag round count m = .goesOn tag' round' count') :
    Reached P types first tag' round' count'

/-- **A protocol that ascends**: a message never leads to a round of a lower tag. -/
def Protocol.Ascends (P : Protocol σ M R) (types : List MessageType) (first : σ) : Prop :=
  ∀ tag round count m tag' round' count', P.Reached types first tag round count → tag ∈ types →
    Tagged.tag m = tag → P.progress tag round count m = .goesOn tag' round' count' → tag ≤ tag'

/-- A message that does not close its round leaves the tag as it is. -/
theorem Protocol.tag_eq_or_exists_close {P : Protocol σ M R} {tag tag' : MessageType}
    {round round' : σ} {count count' : ℕ} {m : M}
    (h : P.progress tag round count m = .goesOn tag' round' count') :
    ∃ round₁, P.handle round m = .ok round₁ ∧ (tag' = tag ∧ round' = round₁ ∨
      tag' = P.tag round' ∧ ∃ outbox, P.close round₁ = .ok ⟨outbox, .next round'⟩) := by
  unfold Protocol.progress at h
  split at h
  · cases h
  · split at h
    · cases h
    · rename_i round₁ handle
      refine ⟨round₁, handle, ?_⟩
      split at h
      · cases h
        exact .inl ⟨rfl, rfl⟩
      · split at h
        · cases h
        · rename_i closing close
          rcases closing with ⟨outbox, transition⟩
          split at h
          · cases h
          · rename_i next
            cases h
            cases next
            exact .inr ⟨rfl, outbox, close⟩

/-- If messages do not change the tag of a round, the tag that is shown is that of the round. -/
theorem Protocol.Reached.tag_eq {P : Protocol σ M R} (keeps : P.KeepsTag)
    {types : List MessageType} {first round : σ} {tag : MessageType} {count : ℕ}
    (h : P.Reached types first tag round count) : P.tag round = tag := by
  induction h with
  | first => rfl
  | next _ _ _ progress ih =>
    obtain ⟨round₁, handle, ⟨rfl, rfl⟩ | ⟨rfl, -⟩⟩ := tag_eq_or_exists_close progress
    · exact (keeps _ _ _ handle).trans ih
    · rfl

/-- **A protocol ascends** if no round of it is closed in favour of one of a lower tag. -/
theorem Protocol.ascends_of_close {P : Protocol σ M R} (keeps : P.KeepsTag)
    (close : ∀ round outbox later, P.close round = .ok ⟨outbox, .next later⟩ →
      P.tag round ≤ P.tag later) (types : List MessageType) (first : σ) :
    P.Ascends types first := by
  intro tag round count m tag' round' count' reached registered own progress
  obtain ⟨round₁, handle, ⟨rfl, -⟩ | ⟨rfl, outbox, hclose⟩⟩ := tag_eq_or_exists_close progress
  · exact UInt32.le_refl _
  · rw [← reached.tag_eq keeps, ← keeps _ _ _ handle]
    exact close _ _ _ hclose

/-! ## Tags that do not decrease -/

/-- **Draws between two tags**: neither the tags of the draws decrease, nor do they leave the
bounds. -/
def Rises (lower : MessageType) (draws : List (Draw σ M)) (upper : MessageType) : Prop :=
  (lower :: (draws.map Draw.tag ++ [upper])).Pairwise (· ≤ ·)

namespace Rises

variable {lower middle upper : MessageType} {draws draws' : List (Draw σ M)}

omit [Tagged M] in
theorem nil_iff : Rises lower ([] : List (Draw σ M)) upper ↔ lower ≤ upper := by
  simp [Rises]

omit [Tagged M] in
theorem le (h : Rises lower draws upper) : lower ≤ upper :=
  List.rel_of_pairwise_cons h (List.mem_append_right _ (List.mem_singleton_self _))

omit [Tagged M] in
/-- What is drawn later is drawn in rounds of no lower tag. -/
theorem append (h : Rises lower draws middle) (h' : Rises middle draws' upper) :
    Rises lower (draws ++ draws') upper := by
  unfold Rises at *
  rw [← List.isChain_iff_pairwise] at h h'
  have hchain : (lower :: draws.map Draw.tag ++ [middle] ++
      (draws'.map Draw.tag ++ [upper])).IsChain (· ≤ ·) :=
    List.IsChain.append_overlap h h' (List.cons_ne_nil _ _)
  -- The tag in between is left out.
  refine (List.isChain_iff_pairwise.mp hchain).sublist ?_
  simp [List.map_append]

end Rises

namespace Engine

variable {P : Protocol σ M R} {types : List MessageType} {first : σ} {e : Engine σ M R}

/-! ## Runs of protocols that ascend -/

/-- A message is popped in a round of its tag, which is registered. -/
theorem Pops.own {round : σ} {count : ℕ} {m : M} {mailboxes : Mailboxes M}
    (pops : Pops e round count m mailboxes) : Tagged.tag m = e.tag ∧ e.tag ∈ e.mailboxes.types := by
  obtain ⟨registered, -, hfind, -⟩ := Mailboxes.pop_eq_ok_iff.mp pops.pop
  refine ⟨?_, registered⟩
  simpa using List.find?_some hfind

/-- The engine is in a round that messages lead to. -/
structure Within (P : Protocol σ M R) (types : List MessageType) (first : σ) (e : Engine σ M R) :
    Prop where
  registered : e.mailboxes.types = types
  reached : ∀ round count, e.consumer.progress? = some (round, count) →
    P.Reached types first e.tag round count

namespace Within

theorem finish (registered : e.mailboxes.types = types) (outcome : Except Error R) :
    Within P types first (e.finish outcome) :=
  ⟨registered, fun _ _ h => nomatch h⟩

/-- What leaves the round in progress alone leaves it so. -/
theorem of_progress? {e' : Engine σ M R} (h : Within P types first e)
    (registered : e'.mailboxes.types = e.mailboxes.types) (tag : e'.tag = e.tag)
    (progress : ∀ p, e'.consumer.progress? = some p → e.consumer.progress? = some p) :
    Within P types first e' := by
  refine ⟨registered.trans h.registered, ?_⟩
  intro round count hprogress
  rw [tag]
  exact h.reached round count (progress _ hprogress)

/-- **A step** leads to a round of no lower tag, and so do the messages that it draws. -/
theorem step (h : Within P types first e) :
    Within P types first (e.step P) ∧
      (P.Ascends types first → Rises e.tag e.draws (e.step P).tag) := by
  have rises_nil : (∀ round count m mailboxes, ¬ Pops e round count m mailboxes) →
      Rises e.tag e.draws e.tag := by
    intro hnone
    rw [draws_eq_nil hnone, Rises.nil_iff]
    exact UInt32.le_refl _
  have stepped := stepped_step P e
  generalize e.step P = next at stepped ⊢
  cases stepped with
  | rest advance =>
    exact ⟨h, fun _ => rises_nil fun _ _ _ _ pops => advance_ne_rest pops advance⟩
  | wakes spawned live waits =>
    refine ⟨h.of_progress? rfl rfl fun p hp => by rwa [spawned], fun _ => ?_⟩
    exact rises_nil fun _ _ _ _ pops => nomatch waits.symm.trans pops.pop
  | breaksOff inProgress pop =>
    refine ⟨finish h.registered _, fun _ => ?_⟩
    exact rises_nil fun _ _ _ _ pops => nomatch pop.symm.trans pops.pop
  | @takes round count m mailboxes pops =>
    have popped := Mailboxes.popped_of_pop pops.pop
    have reached := h.reached _ _ (progress?_of_inProgress pops.inProgress)
    obtain ⟨own, registered⟩ := pops.own
    rw [h.registered] at registered
    rw [draws_of_pops pops]
    cases progress : P.progress e.tag round count m with
    | ends outcome =>
      refine ⟨finish (popped.types.trans h.registered) outcome, fun _ => ?_⟩
      simp [Rises, follow, Engine.finish]
    | goesOn tag' round' count' =>
      refine ⟨⟨popped.types.trans h.registered, ?_⟩, fun ascends => ?_⟩
      · rintro _ _ ⟨⟩
        exact reached.next registered own progress
      · have hle := ascends _ _ _ _ _ _ _ reached registered own progress
        simpa [Rises, follow] using hle

theorem drawsIn (h : Within P types first e) (n : ℕ) :
    Within P types first (repeated (Engine.step P) n e) ∧ (P.Ascends types first →
      Rises e.tag (Engine.drawsIn P n e) (repeated (Engine.step P) n e).tag) := by
  induction n generalizing e with
  | zero => exact ⟨h, fun _ => Rises.nil_iff.mpr (UInt32.le_refl _)⟩
  | succ n ih =>
    obtain ⟨hstep, rises⟩ := h.step
    obtain ⟨hsteps, rises'⟩ := ih hstep
    exact ⟨hsteps, fun ascends => (rises ascends).append (rises' ascends)⟩

/-- **An event** leads to a round of no lower tag. -/
theorem react (h : Within P types first e) (event : Event M) :
    Within P types first (e.react P event) ∧
      (P.Ascends types first → Rises e.tag (e.drawsOf P event) (e.react P event).tag) := by
  have same : ∀ e' : Engine σ M R, e'.mailboxes.types = e.mailboxes.types → e'.tag = e.tag →
      (∀ p, e'.consumer.progress? = some p → e.consumer.progress? = some p) →
      Within P types first e' ∧
        (P.Ascends types first → Rises e.tag ([] : List (Draw σ M)) e'.tag) := by
    intro e' registered tag progress
    refine ⟨h.of_progress? registered tag progress, fun _ => ?_⟩
    rw [Rises.nil_iff, tag]
    exact UInt32.le_refl _
  cases event with
  | start =>
    show Within P types first e.start ∧ _
    refine same e.start (by rw [mailboxes_start]) ?_ ?_
    all_goals
      unfold Engine.start
      split
    · rfl
    · rfl
    · rename_i round unstarted
      intro p hp
      rwa [unstarted]
    · exact fun _ hp => hp
  | stop => exact same e.stop rfl rfl fun _ hp => hp
  | add sender m =>
    show Within P types first (e.offer sender m) ∧ _
    obtain ⟨mailboxes, hoffer⟩ := offer_eq e sender m
    refine same _ ?_ (by rw [hoffer]) (by rw [hoffer]; exact fun _ hp => hp)
    unfold Engine.offer
    split
    · rename_i taken
      obtain ⟨-, -, mailboxes, hpush, rfl⟩ := addMessage_eq_ok_iff.mp taken
      exact (Mailboxes.pushed_of_push hpush).types
    · rfl
  | step => exact h.step
  | turn => exact h.drawsIn _
  | shutdown =>
    show Within P types first e.shutdown ∧ _
    refine same e.shutdown (by rw [mailboxes_shutdown]) ?_ ?_
    all_goals
      unfold Engine.shutdown
      split
    · split <;> rfl
    · rfl
    · split
      · exact fun _ hp => nomatch hp
      · exact fun _ hp => hp
    · exact fun _ hp => hp

/-- **Over a run** the tags of a protocol that ascends do not decrease. -/
theorem rises_play (h : Within P types first e) (ascends : P.Ascends types first)
    (events : List (Event M)) : Rises e.tag (drawn P e events) (e.play P events).tag := by
  induction events generalizing e with
  | nil => exact Rises.nil_iff.mpr (UInt32.le_refl _)
  | cons event events ih =>
    obtain ⟨hreact, rises⟩ := h.react event
    exact (rises ascends).append (ih hreact)

theorem play (h : Within P types first e) (events : List (Event M)) :
    Within P types first (e.play P events) :=
  play_induction (fun event _ _ he => (he.react event).1) h

end Within

theorem within_create (P : Protocol σ M R) (selfId : PartyId) (peerCount : ℕ) (first : σ)
    (types : List MessageType) : Within P types first (create P selfId peerCount first types) := by
  refine ⟨rfl, ?_⟩
  rintro _ _ ⟨⟩
  exact .first

/-! ## Where the events lead -/

/-- An engine that waits for messages in a round, with nothing in its mailboxes. -/
structure Stands (types : List MessageType) (tag : MessageType) (round : σ) (count : ℕ)
    (e : Engine σ M R) : Prop where
  tag : e.tag = tag
  inProgress : e.inProgress = some (round, count)
  running : e.running = true
  empty : e.mailboxes.waiting = []
  registered : e.mailboxes.types = types
  capacity : 0 < e.mailboxes.capacity

/-- **One more message** brings the engine to the round that it leads to. -/
theorem Stands.play {tag tag' : MessageType} {round round' : σ} {count count' : ℕ} {m : M}
    (h : Stands types tag round count e) (registered : tag ∈ types) (own : Tagged.tag m = tag)
    (progress : P.progress tag round count m = .goesOn tag' round' count') :
    Stands types tag' round' count' (e.play P [.add (Tagged.sender m) m, .step]) := by
  have hlive := live_of_inProgress h.inProgress
  have hbox : e.mailboxes.box (Tagged.tag m) = [] := by simp [Mailboxes.box, h.empty]
  -- There is room for the message, and its round is not over.
  obtain ⟨mailboxes, hpush, pushed⟩ := Mailboxes.pushed_of_room (q := e.mailboxes) (m := m)
    (by rw [h.registered, own]; exact registered) (by rw [hbox]; exact h.capacity)
  have hadd : e.addMessage (Tagged.sender m) m = .ok { e with mailboxes } := by
    refine addMessage_eq_ok_iff.mpr ⟨rfl, ?_, mailboxes, hpush, rfl⟩
    rw [h.tag, own]
    exact UInt32.le_refl _
  have hself := pushed.box_self
  rw [hbox, own, List.nil_append] at hself
  -- It is the only one that waits, so that the next step takes it.
  obtain ⟨mailboxes', hpop, popped⟩ := Mailboxes.pop_of_box
    (by rw [pushed.types, h.registered]; exact registered) hself
  have pops : Pops { e with mailboxes } round count m mailboxes' := by
    refine ⟨h.inProgress, ?_⟩
    simpa [h.running, h.tag] using hpop
  have hempty : mailboxes'.waiting = [] := by
    have hsize := Mailboxes.size_of_pop hpop
    rw [Mailboxes.size, Mailboxes.size, Mailboxes.waiting_of_push hpush, h.empty] at hsize
    exact List.length_eq_zero_iff.mp (by simpa using hsize)
  have hplay : e.play P [.add (Tagged.sender m) m, .step] =
      { e with mailboxes := mailboxes', tag := tag', consumer := .active round' count' } := by
    simp only [play_cons, play_nil, react, offer, hadd]
    rw [step_of_pops pops]
    simp only [h.tag, progress, follow]
  rw [hplay]
  constructor
  case tag => rfl
  case inProgress => simp [Engine.inProgress, hlive]
  case running => exact h.running
  case empty => exact hempty
  case registered => exact popped.types.trans (pushed.types.trans h.registered)
  case capacity =>
    show 0 < mailboxes'.capacity
    rw [popped.capacity, pushed.capacity]
    exact h.capacity

/-- **Every round** that messages lead to is one that events bring an engine to. -/
theorem exists_stands {tag : MessageType} {round : σ} {count : ℕ}
    (h : P.Reached types first tag round count) (selfId : PartyId) (peerCount : ℕ) :
    ∃ events, Stands types tag round count
      ((create P selfId peerCount first types).play P events) := by
  induction h with
  | first =>
    refine ⟨[.start], rfl, rfl, rfl, rfl, rfl, ?_⟩
    exact Nat.lt_of_lt_of_le Nat.zero_lt_one (Nat.le_max_left 1 peerCount)
  | @next _ _ _ _ _ _ m _ registered own progress ih =>
    obtain ⟨events, stands⟩ := ih
    refine ⟨events ++ [.add (Tagged.sender m) m, .step], ?_⟩
    rw [play_append]
    exact stands.play registered own progress

/-! ## Runs that do not go back -/

/-- **Events during which an engine does not go back**. -/
structure Forward (P : Protocol σ M R) (e : Engine σ M R) (events : List (Event M)) : Prop where
  /-- The tag that is shown before, the tags of the rounds that draw messages, in order, and the tag
  that is shown afterwards do not decrease. -/
  rises : Rises e.tag (drawn P e events) (e.play P events).tag
  /-- Once a message is refused as stale, all messages of its tag are refused as stale
  afterwards. -/
  stale : ∀ sender m current received,
    e.addMessage sender m = .error (.staleMessage current received) →
      ∀ m', Tagged.tag m' = received → (e.play P events).addMessage (Tagged.sender m') m' =
        .error (.staleMessage (e.play P events).tag received)

theorem forward_of_rises {events : List (Event M)}
    (rises : Rises e.tag (drawn P e events) (e.play P events).tag) : Forward P e events := by
  refine ⟨rises, ?_⟩
  intro sender m current received hadd m' htag
  -- The tag is lower than what was shown, and this has not decreased since.
  have hpast : received < e.tag := by
    cases addMessage_eq_error_iff.mp hadd with
    | staleMessage named past => exact past
  rw [addMessage_eq_error_iff, ← htag]
  exact .staleMessage rfl (htag ▸ UInt32.lt_of_lt_of_le hpast rises.le)

/-- A run of a protocol that ascends does not go back, from any point of it on. -/
theorem forward_of_ascends (ascends : P.Ascends types first) (selfId : PartyId) (peerCount : ℕ)
    (before after : List (Event M)) :
    Forward P ((create P selfId peerCount first types).play P before) after := by
  have within := (within_create P selfId peerCount first types).play before
  exact forward_of_rises (within.rises_play ascends after)

/-- **No run goes back** exactly if the protocol ascends: then the tag never decreases, what is stale
stays stale, and no round draws a message whose tag is lower than that of an earlier round. If
messages lead to a lower tag anywhere in the protocol, some run goes back. -/
theorem forward_iff_ascends (P : Protocol σ M R) (selfId : PartyId) (peerCount : ℕ) (first : σ)
    (types : List MessageType) :
    (∀ before after,
      Forward P ((create P selfId peerCount first types).play P before) after) ↔
        P.Ascends types first := by
  constructor
  · intro forward tag round count m tag' round' count' reached registered own progress
    obtain ⟨before, stands⟩ := exists_stands reached selfId peerCount
    have hle := (forward before [.add (Tagged.sender m) m, .step]).rises.le
    rwa [stands.tag, (stands.play registered own progress).tag] at hle
  · intro ascends before after
    exact forward_of_ascends ascends selfId peerCount before after

end Engine

namespace Script

open Engine (Forward)

/-- A table of two rounds of one message each, the second of which has the lower tag. -/
def descending : Engine (Script ℕ) (Note ℕ) (List (RoundNotes ℕ)) :=
  .create protocol "a" 2 (.first ⟨2, 1, [], [], none, false, false, .nextRow⟩
    [⟨1, 1, [], [], none, false, false, .finish⟩]) [1, 2]

/-- **An engine that goes back**: after the first round it takes a message in that it has refused as
stale before, and the second round draws it. -/
theorem not_forward_descending :
    ¬ Forward protocol (descending.play protocol [.start, .add "b" ⟨"b", 2, 0⟩])
      [.turn, .add "b" ⟨"b", 1, 0⟩, .turn] ∧
    (descending.play protocol [.start, .add "b" ⟨"b", 2, 0⟩]).addMessage "b" ⟨"b", 1, 0⟩ =
      .error (.staleMessage 2 1) ∧
    (descending.play protocol [.start, .add "b" ⟨"b", 2, 0⟩, .turn]).tag = 1 ∧
    (∃ e, (descending.play protocol [.start, .add "b" ⟨"b", 2, 0⟩, .turn]).addMessage "b"
      ⟨"b", 1, 0⟩ = .ok e) ∧
    (Engine.drawn protocol descending [.start, .add "b" ⟨"b", 2, 0⟩, .turn,
      .add "b" ⟨"b", 1, 0⟩, .turn]).map (fun draw => (draw.tag, draw.message.tag)) =
        [(2, 2), (1, 1)] := by
  refine ⟨fun forward => ?_, rfl, rfl, ⟨_, rfl⟩, rfl⟩
  exact absurd forward.rises.le (by decide)

end Script

end RankedKeys
