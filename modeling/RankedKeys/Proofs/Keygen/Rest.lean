import RankedKeys.Proofs.Engine.Ascent
import RankedKeys.Proofs.Keygen.Schedule

/-!
# Coming to rest

Consumers that get turns come to rest, whoever the parties are and whatever they send: a round takes
no more messages than it needs, and the second round is the last. It has the higher tag, so that no
engine of a party goes back.

## Main definitions

* `Consumer.movesLeft`: how many moves a consumer has left at most
* `Ensemble.Posting.KeepsConsumers`: sending does not move a consumer

## Main results

* `Round.close_next_cases`: where the end of a round leads
* `Round.ascends_protocol`, `Round.forward_play`: the tags of the rounds do not decrease, so that no
  engine of a party goes back
* `movesLeft_lt_of_moved`, `movesLeft_conclude_lt`: every move leaves fewer of them
* `Ensemble.exists_rest`: every schedule can be continued until all consumers rest
-/

namespace RankedKeys

variable {c : Curve}

/-! ## The moves of a consumer -/

/-- How many moves a round in progress has left at most, with those of the rounds after it. -/
def Round.movesLeft : Round c → ℕ → ℕ
  | commits dealer _, count => dealer.peerCount - count + dealer.peerCount + 2
  | shares dealer _ _, count => dealer.peerCount - count + 1

/-- **How many moves** a consumer has left at most. -/
def Consumer.movesLeft : Consumer (Round c) → ℕ
  | unstarted round => round.movesLeft 0 + 1
  | spawned round => round.movesLeft 0 + 1
  | active round count => round.movesLeft count
  | ended => 0

namespace Round

variable {round round' : Round c} {count : ℕ}

theorem movesLeft_pos (round : Round c) (count : ℕ) : 0 < round.movesLeft count := by
  cases round <;> exact Nat.succ_pos _

/-- **The end of a round** that leads to another one is that of the first, and it leads to the
second. -/
theorem close_next_cases {outbox : List (PartyId × KeygenMessage)}
    (h : (Round.protocol c).close round = .ok ⟨outbox, .next round'⟩) :
    ∃ dealer received committed, round = .commits dealer received ∧
      round' = .shares dealer committed .empty := by
  rw [protocol, mapError_eq_ok_iff] at h
  cases round with
  | commits dealer received =>
    obtain ⟨-, hclosing⟩ := closeCommits_eq_ok_iff.mp h
    cases hclosing
    exact ⟨dealer, received, _, rfl, rfl⟩
  | shares dealer committed received =>
    obtain ⟨share, key, points, -, -, hclosing⟩ := closeShares_eq_ok_iff.mp h
    cases hclosing

/-- **The tags of the rounds** do not decrease, whatever the peers send. -/
theorem ascends_protocol (types : List MessageType) (first : Round c) :
    (Round.protocol c).Ascends types first := by
  refine Protocol.ascends_of_close ?_ ?_ types first
  · intro round m round' handle
    cases handle_eq_ok_iff.mp (mapError_eq_ok_iff.mp handle) <;> rfl
  · intro round outbox later close
    obtain ⟨_, _, _, rfl, rfl⟩ := close_next_cases close
    show commitTag ≤ shareTag
    decide

/-- **No engine of a party goes back**: the tag that it shows never decreases, and what it has
refused as stale it refuses ever after, whatever happens to it. -/
theorem forward_play (selfId : PartyId) (peerCount : ℕ) (first : Round c) (types : List MessageType)
    (before after : List (Engine.Event KeygenMessage)) :
    Engine.Forward (Round.protocol c)
      ((Engine.create (Round.protocol c) selfId peerCount first types).play (Round.protocol c) before)
      after :=
  Engine.forward_of_ascends (ascends_protocol types first) selfId peerCount before after

/-- A message that is taken in leaves a round that needs as many. -/
theorem movesLeft_handle {m : KeygenMessage} (h : (Round.protocol c).handle round m = .ok round')
    (n : ℕ) : round'.movesLeft n = round.movesLeft n ∧ round'.quota = round.quota := by
  cases handle_eq_ok_iff.mp (mapError_eq_ok_iff.mp h) <;> exact ⟨rfl, rfl⟩

/-- One message more leaves fewer moves, if the round needs still more. -/
theorem movesLeft_succ_lt (short : count + 1 < round.quota) :
    round.movesLeft (count + 1) < round.movesLeft count := by
  cases round with
  | commits dealer received =>
    have : count + 1 < dealer.peerCount := short
    simp only [movesLeft]
    omega
  | shares dealer committed received =>
    have : count + 1 < dealer.peerCount := short
    simp only [movesLeft]
    omega

/-- The round after the first has fewer moves left, and there is none after the second. -/
theorem movesLeft_next_lt {outbox : List (PartyId × KeygenMessage)}
    (h : (Round.protocol c).close round = .ok ⟨outbox, .next round'⟩) :
    round'.movesLeft 0 < round.movesLeft count := by
  obtain ⟨dealer, received, committed, rfl, rfl⟩ := close_next_cases h
  simp only [movesLeft]
  omega

end Round

open Lineup (KeygenEngine)

variable {e e' : KeygenEngine c}

theorem movesLeft_le_of_inProgress {round : Round c} {count : ℕ}
    (h : e.inProgress = some (round, count)) : round.movesLeft count ≤ e.consumer.movesLeft := by
  unfold Engine.inProgress at h
  split at h
  · split at h
    · rename_i hconsumer
      cases h
      rw [hconsumer]
      exact Nat.le_succ _
    · rename_i hconsumer
      cases h
      rw [hconsumer]
      exact Nat.le_refl _
    · cases h
  · cases h

/-- **A move** leaves fewer of them. -/
theorem movesLeft_lt_of_moved (h : e.advance (Round.protocol c) = .moved e') :
    e'.consumer.movesLeft < e.consumer.movesLeft := by
  have moves := Engine.moves_advance (Round.protocol c) e
  rw [h] at moves
  -- A round in progress has moves left, and an ended one none.
  have hends : ∀ {round : Round c} {count : ℕ}, e.inProgress = some (round, count) →
      (Consumer.ended (σ := Round c)).movesLeft < e.consumer.movesLeft := by
    intro round count hprogress
    exact (round.movesLeft_pos count).trans_le (movesLeft_le_of_inProgress hprogress)
  cases moves with
  | wakes spawned =>
    rw [spawned]
    exact Nat.lt_succ_self _
  | breaksOff inProgress => exact hends inProgress
  | repeated pops => exact hends pops.inProgress
  | refuses pops => exact hends pops.inProgress
  | failsToClose pops => exact hends pops.inProgress
  | @takes round round' count m mailboxes pops fresh handle short =>
    obtain ⟨hleft, -⟩ := Round.movesLeft_handle handle count
    exact (Round.movesLeft_succ_lt short).trans_le
      (hleft.le.trans (movesLeft_le_of_inProgress pops.inProgress))

/-- **A move that hands messages over** leaves fewer moves, whatever becomes of the messages. -/
theorem movesLeft_conclude_lt {closing : Closing (Round c) KeygenMessage (KeyShare c)}
    (h : e.advance (Round.protocol c) = .handOver e' closing) (e'' : KeygenEngine c)
    (handed : Except Error Unit) :
    (e''.conclude (Round.protocol c) handed closing.transition).consumer.movesLeft <
      e.consumer.movesLeft := by
  have moves := Engine.moves_advance (Round.protocol c) e
  rw [h] at moves
  cases moves with
  | @closes round round' count m mailboxes closing pops fresh handle enough close =>
    have hle := movesLeft_le_of_inProgress pops.inProgress
    obtain ⟨hleft, -⟩ := Round.movesLeft_handle handle count
    have hpos := (round.movesLeft_pos count).trans_le hle
    cases handed with
    | error error => exact hpos
    | ok u =>
      rcases closing with ⟨outbox, output | next⟩
      · exact hpos
      · exact (Round.movesLeft_next_lt close).trans_le (hleft.le.trans hle)

/-! ## The consumers of an ensemble -/

/-- Where a consumer is after a move depends on what became of the messages. -/
theorem consumer_conclude (e e' : KeygenEngine c) (handed : Except Error Unit)
    (transition : Transition (Round c) (KeyShare c)) :
    (e.conclude (Round.protocol c) handed transition).consumer =
      (e'.conclude (Round.protocol c) handed transition).consumer := by
  cases handed with
  | error error => rfl
  | ok u => cases transition <;> rfl

namespace Ensemble

/-- The consumers of all parties. -/
def consumers (s : Ensemble c) : List (Consumer (Round c)) :=
  s.engines.map (·.consumer)

/-- How many moves all consumers have left at most. -/
def movesLeft (s : Ensemble c) : ℕ :=
  (s.consumers.map Consumer.movesLeft).sum

theorem getElem?_consumers {s : Ensemble c} {i : ℕ} {p : Party c} (hp : s.parties[i]? = some p) :
    s.consumers[i]? = some p.engine.consumer := by
  rw [consumers, List.getElem?_map, getElem?_engines hp, Option.map_some]

@[simp] theorem consumers_wake (s : Ensemble c) (i : ℕ) : (s.wake i).consumers = s.consumers := by
  rw [consumers, engines_wake, consumers]

/-- The consumer of one engine is put in some state. -/
theorem consumers_modifyEngine {f : KeygenEngine c → KeygenEngine c} {consumer : Consumer (Round c)}
    (h : ∀ e, (f e).consumer = consumer) (s : Ensemble c) (i : ℕ) :
    (s.modifyEngine i f).consumers = s.consumers.set i consumer := by
  rw [consumers, engines_modifyEngine, List.modify_eq_set_getElem?, consumers]
  cases hi : s.engines[i]? with
  | none =>
    have hlen : (s.engines.map (·.consumer)).length ≤ i := by
      rwa [List.length_map, ← List.getElem?_eq_none_iff]
    exact (List.set_eq_of_length_le hlen).symm
  | some e => exact List.map_set.trans (congrArg _ (h e))

theorem consumers_setEngine (s : Ensemble c) (i : ℕ) (e : KeygenEngine c) :
    (s.setEngine i e).consumers = s.consumers.set i e.consumer :=
  consumers_modifyEngine (f := fun _ => e) (fun _ => rfl) s i

/-- **Fewer moves** are left if one consumer has fewer. -/
theorem movesLeft_lt_of_set {s s' : Ensemble c} {i : ℕ} {p : Party c} {consumer : Consumer (Round c)}
    (hp : s.parties[i]? = some p) (hset : s'.consumers = s.consumers.set i consumer)
    (hlt : consumer.movesLeft < p.engine.consumer.movesLeft) : s'.movesLeft < s.movesLeft := by
  rw [movesLeft, hset]
  exact sum_map_set_lt (getElem?_consumers hp) hlt

/-- Sending in a given way does not move a consumer. -/
def Posting.KeepsConsumers (post : Posting c) : Prop :=
  ∀ sender receiver m s, (post sender receiver m s).2.consumers = s.consumers

/-- **A message** that is sent moves no consumer: what is taken in goes to the mailboxes. -/
theorem keepsConsumers_send : Posting.KeepsConsumers (send (c := c)) := by
  intro sender receiver m s
  unfold send
  split
  · rcases s.deliver_cases sender receiver m with ⟨error, heq⟩ | ⟨i, p, e, hp, taken, heq⟩
    · rw [heq]
    · obtain ⟨-, -, mailboxes, -, rfl⟩ := Engine.addMessage_eq_ok_iff.mp taken
      rw [heq, consumers_wake, consumers_setEngine]
      obtain ⟨hlt, hconsumer⟩ := List.getElem?_eq_some_iff.mp (getElem?_consumers hp)
      exact hconsumer ▸ List.set_getElem_self hlt
  · rfl

theorem keepsConsumers_sendForged (forged : PartyId → PartyId → Option Bytes) :
    Posting.KeepsConsumers (sendForged (c := c) forged) :=
  fun sender receiver m s => keepsConsumers_send sender receiver (m.forge (forged sender receiver)) s

section Turns

variable {post : Posting c} {s : Ensemble c} {i : ℕ} {p : Party c}

/-- **A move** of a consumer either does nothing or leaves fewer moves. -/
theorem moveBy_eq_or_movesLeft_lt (keeps : post.KeepsConsumers) (hp : s.parties[i]? = some p) :
    (p.engine.advance (Round.protocol c) = .rest ∧ s.moveBy post i = s) ∨
      (s.moveBy post i).movesLeft < s.movesLeft := by
  unfold moveBy
  rw [hp]
  dsimp only
  cases hadvance : p.engine.advance (Round.protocol c) with
  | rest => exact .inl ⟨rfl, rfl⟩
  | moved e =>
    exact .inr (movesLeft_lt_of_set hp (consumers_setEngine s i e) (movesLeft_lt_of_moved hadvance))
  | handOver e closing =>
    -- Handing the messages over moves no consumer.
    have hhanded := handEach_induction (p := fun s' => s'.consumers = s.consumers.set i e.consumer)
      (g := fun parcel => post p.view.self parcel.1 parcel.2)
      (fun _ s' hs' => (keeps _ _ _ s').trans hs') closing.outbox (consumers_setEngine s i e)
    dsimp only
    generalize RankedKeys.handEach _ closing.outbox (s.setEngine i e) = answer at hhanded ⊢
    refine .inr (movesLeft_lt_of_set hp ?_ (movesLeft_conclude_lt hadvance e answer.1))
    rw [consumers_modifyEngine (fun e' => consumer_conclude e' e answer.1 closing.transition),
      hhanded, List.set_set]

theorem movesLeft_moveBy_le (keeps : post.KeepsConsumers) (s : Ensemble c) (i : ℕ) :
    (s.moveBy post i).movesLeft ≤ s.movesLeft := by
  cases hp : s.parties[i]? with
  | none => rw [moveBy, hp]
  | some p =>
    rcases moveBy_eq_or_movesLeft_lt keeps hp with ⟨-, heq⟩ | hlt
    · rw [heq]
    · exact hlt.le

/-- **A turn** of a consumer that has something to do leaves fewer moves. -/
theorem movesLeft_turnBy_lt (keeps : post.KeepsConsumers) (hp : s.parties[i]? = some p)
    (ready : p.engine.isReady = true) : (s.turnBy post i).movesLeft < s.movesLeft := by
  have hfirst : (s.moveBy post i).movesLeft < s.movesLeft :=
    (moveBy_eq_or_movesLeft_lt keeps hp).resolve_left
      fun h => Engine.advance_ne_rest_of_isReady ready h.1
  have hrest := Engine.repeated_induction (p := fun s' : Ensemble c => s'.movesLeft < s.movesLeft)
    (fun s' h => (movesLeft_moveBy_le keeps s' i).trans_lt h) p.engine.mailboxes.size hfirst
  unfold turnBy
  rw [hp]
  dsimp only
  rw [movesLeft, consumers_wake]
  exact hrest

/-- **Coming to rest**: there are turns after which no consumer has anything to do. -/
theorem exists_turns (keeps : post.KeepsConsumers) (s : Ensemble c) :
    ∃ turns : List ℕ, (s.playBy post (turns.map .turn)).atRest = true := by
  -- Every turn of a consumer that has something to do leaves fewer moves.
  induction hn : s.movesLeft using Nat.strong_induction_on generalizing s with
  | _ n ih =>
    cases hrest : s.atRest with
    | true => exact ⟨[], hrest⟩
    | false =>
      obtain ⟨p, hmem, hready⟩ := List.all_eq_false.mp hrest
      obtain ⟨i, hlt, hi⟩ := List.getElem_of_mem hmem
      have hp : s.parties[i]? = some p := List.getElem?_eq_some_iff.mpr ⟨hlt, hi⟩
      obtain ⟨turns, hturns⟩ := ih _ (hn ▸ movesLeft_turnBy_lt keeps hp (by simpa using hready))
        (s.turnBy post i) rfl
      exact ⟨i :: turns, hturns⟩

/-- **Every schedule** can be continued until all consumers rest. -/
theorem exists_rest (keeps : post.KeepsConsumers) (s : Ensemble c) (schedule : List Action) :
    ∃ turns : List ℕ, (s.playBy post (schedule ++ turns.map .turn)).atRest = true := by
  obtain ⟨turns, hturns⟩ := exists_turns keeps (s.playBy post schedule)
  refine ⟨turns, ?_⟩
  rwa [playBy, List.foldl_append]

end Turns

end Ensemble

end RankedKeys
