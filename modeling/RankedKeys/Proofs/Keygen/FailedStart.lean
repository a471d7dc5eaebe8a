import RankedKeys.Proofs.Engine.Cancellation
import RankedKeys.Proofs.Engine.Conservation
import RankedKeys.Proofs.Keygen.Agreement
import RankedKeys.Proofs.Keygen.Recorded

/-!
# Starts that fail

A party that is started announces itself to its peers, one after the other. The first peer that
cannot be reached or refuses the announcement makes the start fail: its error is the answer, the
peers before it keep their copies, and the party is stopped. Its consumer has been spawned by then,
and all that its first round needs may wait in the mailboxes. But it has not had a turn, and at its
first one it notices the stop before it looks at any message.

## Main definitions

* `Engine.StoppedEarly`, `Engine.CalledOff`: before and after this turn
* `Ensemble.Confined i s s'`: nothing has changed but for the engine at a place
* `Ensemble.Placed`: names stand for parties
* `Ensemble.Declines`: why a peer does not take a message
* `Ensemble.FailsAt`: what an announcement that has failed at a peer has done
* `Party.withBacklog`: a party before its start, with messages in its mailboxes

## Main results

* `Engine.Withdrawn.advance_cases`: a consumer that is stopped early ends its run or rests
* `Ensemble.At.intervene`: nothing that happens to the parties changes this
* `Ensemble.placed_of_interventions`: in an ensemble that has been built, names stand for parties
* `Ensemble.exists_failsAt_of_start`: where a start fails
* `Ensemble.calledOff_of_start`: a start that fails calls the run off
-/

namespace RankedKeys

/-! ## Consumers that are stopped before their first turn -/

namespace Engine

variable {σ M R : Type}

/-- A consumer has been spawned and stopped, and has not had a turn. -/
structure StoppedEarly [Tagged M] (e : Engine σ M R) : Prop where
  spawned : ∃ round, e.consumer = .spawned round
  stopped : e.running = false
  live : e.live = true
  outcome : e.outcome = none
  calls : e.calls = []
  registered : e.tag ∈ e.mailboxes.types

/-- **A run that has been called off**: it has failed since it has been cancelled, and this is all
that has been announced. -/
structure CalledOff (e : Engine σ M R) : Prop where
  ended : e.consumer = .ended
  stopped : e.running = false
  outcome : e.outcome = some (.error .cancelled)
  calls : e.calls = [(.init, .failed)]

variable [Tagged M] {P : Protocol σ M R} {e e' : Engine σ M R}

/-- **An engine that is withdrawn**: its consumer has been stopped before its first turn, and has not
had one since or has called the run off. -/
inductive Withdrawn (e : Engine σ M R) : Prop
  | waiting (h : e.StoppedEarly)
  | ended (h : e.CalledOff)

theorem shielded_calledOff : Shielded (CalledOff : Engine σ M R → Prop) where
  start h := by
    rw [start_of_started (by simp [Started, h.ended])]
    exact h
  stop h := ⟨h.ended, rfl, h.outcome, h.calls⟩
  taken h taken := by
    obtain ⟨-, -, mailboxes, -, rfl⟩ := addMessage_eq_ok_iff.mp taken
    exact ⟨h.ended, h.stopped, h.outcome, h.calls⟩

theorem shielded_stoppedEarly : Shielded (StoppedEarly : Engine σ M R → Prop) where
  start h := by
    obtain ⟨round, spawned⟩ := h.spawned
    rw [start_of_started (by simp [Started, spawned])]
    exact h
  stop h := ⟨h.spawned, rfl, h.live, h.outcome, h.calls, h.registered⟩
  taken h taken := by
    obtain ⟨-, -, mailboxes, push, rfl⟩ := addMessage_eq_ok_iff.mp taken
    have types := (Mailboxes.pushed_of_push push).types
    exact ⟨h.spawned, h.stopped, h.live, h.outcome, h.calls, types.symm ▸ h.registered⟩

theorem shielded_withdrawn : Shielded (Withdrawn : Engine σ M R → Prop) where
  start h := by
    cases h with
    | waiting h => exact .waiting (shielded_stoppedEarly.start h)
    | ended h => exact .ended (shielded_calledOff.start h)
  stop h := by
    cases h with
    | waiting h => exact .waiting (shielded_stoppedEarly.stop h)
    | ended h => exact .ended (shielded_calledOff.stop h)
  taken h taken := by
    cases h with
    | waiting h => exact .waiting (shielded_stoppedEarly.taken h taken)
    | ended h => exact .ended (shielded_calledOff.taken h taken)

theorem StoppedEarly.pop (h : e.StoppedEarly) :
    e.mailboxes.pop e.tag (!e.running) = .settled (.error .cancelled) :=
  Mailboxes.pop_eq_error_iff.mpr (.inr ⟨h.registered, by rw [h.stopped, Bool.not_false], rfl⟩)

/-- The first move of a consumer that has been stopped calls the run off. -/
theorem StoppedEarly.advance (h : e.StoppedEarly) (P : Protocol σ M R) :
    e.advance P = .moved (e.finish (.error .cancelled)) := by
  obtain ⟨round, spawned⟩ := h.spawned
  have hprogress : e.inProgress = some (round, 0) := by simp [inProgress, h.live, spawned]
  rw [Engine.advance, hprogress]
  dsimp only
  rw [h.pop]

theorem StoppedEarly.calledOff_finish (h : e.StoppedEarly) :
    (e.finish (.error .cancelled)).CalledOff := by
  refine ⟨rfl, rfl, rfl, ?_⟩
  rw [finish, h.calls, state, h.outcome]
  rfl

namespace Withdrawn

/-- **A consumer that is withdrawn** rests, or its move calls the run off. -/
theorem advance_cases (h : e.Withdrawn) (P : Protocol σ M R) :
    e.CalledOff ∧ e.advance P = .rest ∨ ∃ e', e.advance P = .moved e' ∧ e'.CalledOff := by
  cases h with
  | waiting h => exact .inr ⟨_, h.advance P, h.calledOff_finish⟩
  | ended h => exact .inl ⟨h, advance_of_ended h.ended⟩

theorem advance_ne_handOver (h : e.Withdrawn) (P : Protocol σ M R) (e' : Engine σ M R)
    (closing : Closing σ M R) : e.advance P ≠ .handOver e' closing := by
  rcases h.advance_cases P with ⟨-, advance⟩ | ⟨e'', advance, -⟩
  all_goals
    rw [advance]
    nofun

theorem step (h : e.Withdrawn) (P : Protocol σ M R) : (e.step P).Withdrawn := by
  rw [Engine.step]
  rcases h.advance_cases P with ⟨h, advance⟩ | ⟨e', advance, h⟩
  all_goals
    rw [advance]
    exact .ended h

theorem asks_eq_nil (h : e.Withdrawn) (P : Protocol σ M R) : e.asks P = [] := by
  refine Engine.asks_eq_nil fun round count m mailboxes pops => ?_
  cases h with
  | waiting h => cases pops.pop.symm.trans h.pop
  | ended h =>
    have hprogress := pops.inProgress
    simp [inProgress, h.ended] at hprogress

/-- **No round is called**, whatever happens next. -/
theorem asksOf_eq_nil (h : e.Withdrawn) (P : Protocol σ M R) (event : Event M) :
    e.asksOf P event = [] := by
  have walk : ∀ (n : ℕ) {e : Engine σ M R}, e.Withdrawn → asksIn P n e = [] := by
    intro n
    induction n with
    | zero => exact fun _ => rfl
    | succ n ih =>
      intro e h
      rw [asksIn, h.asks_eq_nil P, ih (h.step P), List.append_nil]
  cases event with
  | step => exact h.asks_eq_nil P
  | turn => exact walk _ h
  | _ => rfl

end Withdrawn

/-! ## Copies of a message -/

/-- The engine with some copies of a message behind all that waits. -/
def withCopies (e : Engine σ M R) (m : M) (n : ℕ) : Engine σ M R :=
  { e with
    mailboxes := { e.mailboxes with waiting := e.mailboxes.waiting ++ List.replicate n m } }

omit [Tagged M] in
@[simp] theorem withCopies_zero (e : Engine σ M R) (m : M) : e.withCopies m 0 = e := by
  simp [withCopies]

omit [Tagged M] in
theorem withCopies_withCopies (e : Engine σ M R) (m : M) (k n : ℕ) :
    (e.withCopies m k).withCopies m n = e.withCopies m (k + n) := by
  simp [withCopies, List.append_assoc, List.replicate_append_replicate]

/-- Whether an engine is running does not matter for what it takes in. -/
theorem addMessage_stop (e : Engine σ M R) (sender : PartyId) (m : M) :
    e.stop.addMessage sender m = (e.addMessage sender m).map stop := by
  unfold addMessage
  split
  · rfl
  · split
    · rename_i past
      have hpast : Tagged.tag m < e.tag := past
      rw [if_pos hpast]
      rfl
    · rename_i fresh
      have hfresh : ¬ Tagged.tag m < e.tag := fresh
      rw [if_neg hfresh]
      show (e.mailboxes.push m >>= _) = Except.map stop (e.mailboxes.push m >>= _)
      cases e.mailboxes.push m with
      | error error => rfl
      | ok mailboxes => rfl

/-- What is taken in waits behind all others. -/
theorem eq_withCopies_of_addMessage {sender : PartyId} {m : M}
    (taken : e.addMessage sender m = .ok e') : e' = e.withCopies m 1 := by
  obtain ⟨-, -, mailboxes, push, rfl⟩ := addMessage_eq_ok_iff.mp taken
  have pushed := Mailboxes.pushed_of_push push
  have waiting := Mailboxes.waiting_of_push push
  rcases mailboxes with ⟨capacity, types, waiting'⟩
  obtain rfl : capacity = e.mailboxes.capacity := pushed.capacity
  obtain rfl : types = e.mailboxes.types := pushed.types
  obtain rfl : waiting' = e.mailboxes.waiting ++ [m] := waiting
  rfl

end Engine

variable {c : Curve}

open Lineup (KeygenEngine)

namespace Ensemble

variable {s s' : Ensemble c} {i j : ℕ}

/-! ## Parties that are withdrawn -/

/-- **Nothing has changed** but for the engine at a place. -/
structure Confined (i : ℕ) (s s' : Ensemble c) : Prop where
  network : s'.network = s.network
  outbox : s'.outbox = s.outbox
  direct : s'.direct = s.direct
  engines : ∀ j, j ≠ i → s'.engines[j]? = s.engines[j]?

namespace Confined

theorem refl (i : ℕ) (s : Ensemble c) : Confined i s s := ⟨rfl, rfl, rfl, fun _ _ => rfl⟩

theorem trans {s'' : Ensemble c} (h : Confined i s s') (h' : Confined i s' s'') :
    Confined i s s'' :=
  ⟨h'.network.trans h.network, h'.outbox.trans h.outbox, h'.direct.trans h.direct,
    fun j hj => (h'.engines j hj).trans (h.engines j hj)⟩

theorem modifyEngine (s : Ensemble c) (i : ℕ) (f : KeygenEngine c → KeygenEngine c) :
    Confined i s (s.modifyEngine i f) :=
  ⟨rfl, rfl, rfl, fun _ hj => getElem?_engines_modifyEngine_ne (Ne.symm hj) s f⟩

theorem wake (s : Ensemble c) (i j : ℕ) : Confined i s (s.wake j) := by
  refine ⟨?_, ?_, ?_, fun k _ => by rw [engines_wake]⟩
  all_goals
    unfold Ensemble.wake
    split
    · split <;> rfl
    · rfl

end Confined

namespace At

theorem exists_party {p : KeygenEngine c → Prop} (h : s.At i p) :
    ∃ party, s.parties[i]? = some party ∧ p party.engine := by
  obtain ⟨e, engine, he⟩ := h
  rw [engines, List.getElem?_map, Option.map_eq_some_iff] at engine
  obtain ⟨party, hparty, rfl⟩ := engine
  exact ⟨party, hparty, he⟩

/-- **A move** of a consumer that is withdrawn calls the run off, and touches nobody else. -/
theorem move_of_withdrawn (h : s.At i Engine.Withdrawn) :
    (s.move i).At i Engine.CalledOff ∧ Confined i s (s.move i) := by
  obtain ⟨party, hparty, withdrawn⟩ := h.exists_party
  have engine := getElem?_engines hparty
  rw [Ensemble.move, hparty]
  dsimp only
  rcases withdrawn.advance_cases (Round.protocol c) with ⟨ended, advance⟩ | ⟨e', advance, ended⟩
  · rw [advance]
    exact ⟨⟨_, engine, ended⟩, .refl i s⟩
  · rw [advance]
    exact ⟨⟨e', getElem?_engines_modifyEngine_self engine fun _ => e', ended⟩,
      .modifyEngine s i fun _ => e'⟩

/-- **A turn** of it consists of such moves. -/
theorem turn_of_withdrawn (h : s.At i Engine.Withdrawn) :
    (s.turn i).At i Engine.CalledOff ∧ Confined i s (s.turn i) := by
  obtain ⟨party, hparty, -⟩ := h.exists_party
  rw [Ensemble.turn, hparty]
  dsimp only
  -- The first move calls the run off, and the others change nothing.
  rw [Engine.repeated]
  have hmoves := Engine.repeated_induction
    (p := fun t : Ensemble c => t.At i Engine.CalledOff ∧ Confined i s t)
    (fun t ht => by
      obtain ⟨ended, confined⟩ := ht
      have hnext := At.move_of_withdrawn (ended.imp fun _ he => ⟨he.1, .ended he.2⟩)
      exact ⟨hnext.1, confined.trans hnext.2⟩) party.engine.mailboxes.size h.move_of_withdrawn
  exact ⟨hmoves.1.wake i, hmoves.2.trans (.wake _ i i)⟩

/-- **Whatever happens** to the parties, an engine that is withdrawn stays so, and a run that has
been called off stays called off. -/
theorem intervene {p : KeygenEngine c → Prop} (shielded : Engine.Shielded p)
    (withdrawn : ∀ e, p e → e.Withdrawn) (calledOff : ∀ e, e.CalledOff → p e) (h : s.At i p)
    (interventions : List Intervention) : (interventions.foldl Ensemble.intervene s).At i p := by
  induction interventions generalizing s with
  | nil => exact h
  | cons intervention interventions ih =>
    refine ih ?_
    have hwithdrawn : s.At i Engine.Withdrawn := h.imp fun e he => ⟨he.1, withdrawn e he.2⟩
    cases intervention with
    | act action =>
      cases action with
      | start j => exact h.start shielded j
      | move j =>
        by_cases hij : j = i
        · subst hij
          exact hwithdrawn.move_of_withdrawn.1.imp fun e he => ⟨he.1, calledOff e he.2⟩
        · exact h.move_of_ne shielded hij
      | turn j =>
        by_cases hij : j = i
        · subst hij
          exact hwithdrawn.turn_of_withdrawn.1.imp fun e he => ⟨he.1, calledOff e he.2⟩
        · exact turn_induction (p := (At · i p)) (fun _ h' => h'.move_of_ne shielded hij)
            (fun _ h' => h'.wake j) h
    | stop j => exact h.stop shielded j
    | deliver sender receiver m => exact h.deliver shielded.taken sender receiver m

end At

/-! ## Names that stand for parties -/

/-- **Names stand for parties**: the network knows no place without one. -/
def Placed (s : Ensemble c) : Prop :=
  ∀ id j, s.network.find? id = some j → j < s.parties.length

theorem placed_empty (direct : Bool) : (empty direct : Ensemble c).Placed :=
  fun _ _ sink => (nomatch sink)

namespace Placed

theorem congr (h : s.Placed) (network : s'.network = s.network)
    (size : s'.parties.length = s.parties.length) : s'.Placed := by
  intro id j sink
  rw [size]
  exact h id j (network ▸ sink)

theorem add (h : s.Placed) (id : PartyId) (p : Party c) (registered : Bool) :
    (s.add id p registered).Placed := by
  intro x j sink
  show j < (s.parties ++ [p]).length
  rw [List.length_append, List.length_singleton]
  -- A name that is not registered here stands for the place that it stood for before.
  have hold (known : s.network.find? x = some j) : j < s.parties.length + 1 :=
    Nat.lt_succ_of_lt (h x j known)
  cases registered with
  | false => exact hold sink
  | true =>
    rw [Ensemble.add, if_pos rfl, Network.find?_register] at sink
    split at sink
    · cases sink
      exact Nat.lt_succ_self _
    · exact hold sink

theorem modifyEngine (h : s.Placed) (i : ℕ) (f : KeygenEngine c → KeygenEngine c) :
    (s.modifyEngine i f).Placed :=
  h.congr rfl (List.length_modify _ _ _)

theorem wake (h : s.Placed) (i : ℕ) : (s.wake i).Placed := by
  unfold Ensemble.wake
  split
  · split
    · exact h.congr rfl rfl
    · exact h
  · exact h

theorem stop (h : s.Placed) (i : ℕ) : (s.stop i).Placed :=
  (h.modifyEngine i Engine.stop).wake i

theorem deliver (h : s.Placed) (sender receiver : PartyId) (m : KeygenMessage) :
    (s.deliver sender receiver m).2.Placed := by
  rcases s.deliver_cases sender receiver m with ⟨error, heq⟩ | ⟨j, party, e, -, -, heq⟩
  · rwa [heq]
  · rw [heq]
    exact (h.modifyEngine j fun _ => e).wake j

theorem send (h : s.Placed) (sender receiver : PartyId) (m : KeygenMessage) :
    (s.send sender receiver m).2.Placed := by
  unfold Ensemble.send
  split
  · exact h.deliver sender receiver m
  · exact h.congr rfl rfl

theorem start (h : s.Placed) (i : ℕ) : (s.start i).2.Placed :=
  start_induction (p := Placed) (fun _ h' => (h'.modifyEngine i Engine.start).wake i)
    (fun _ self receiver m h' => h'.send self receiver m) (fun _ h' => h'.stop i) h

theorem move (h : s.Placed) (i : ℕ) : (s.move i).Placed :=
  move_induction (p := Placed) (fun _ f h' => h'.modifyEngine i f)
    (fun _ self receiver m h' => h'.send self receiver m) h

theorem turn (h : s.Placed) (i : ℕ) : (s.turn i).Placed :=
  turn_induction (p := Placed) (fun _ h' => h'.move i) (fun _ h' => h'.wake i) h

theorem intervene (h : s.Placed) (intervention : Intervention) :
    (s.intervene intervention).Placed := by
  cases intervention with
  | act action =>
    cases action with
    | start i => exact h.start i
    | move i => exact h.move i
    | turn i => exact h.turn i
  | stop i => exact h.stop i
  | deliver sender receiver m => exact h.deliver sender receiver m

end Placed

/-- **In an ensemble that has been built** from parties, names stand for parties, whatever has
happened to them since. -/
theorem placed_of_interventions (direct : Bool) (parties : List (PartyId × Party c × Bool))
    (interventions : List Intervention) :
    (interventions.foldl intervene
      (parties.foldl (fun s e => s.add e.1 e.2.1 e.2.2) (empty direct))).Placed := by
  induction interventions using List.reverseRecOn with
  | nil =>
    induction parties using List.reverseRecOn with
    | nil => exact placed_empty direct
    | append_singleton parties e ih =>
      rw [List.foldl_append]
      exact ih.add e.1 e.2.1 e.2.2
  | append_singleton interventions intervention ih =>
    rw [List.foldl_append]
    exact ih.intervene intervention

/-! ## Announcements -/

/-- **Why a peer does not take a message**: nobody has registered under its name, or the party that
has refuses it. -/
inductive Declines (s : Ensemble c) (sender peer : PartyId) (m : KeygenMessage) : Error → Prop
  | unregistered (unknown : s.network.find? peer = none) :
    Declines s sender peer m (Network.unknownPeer peer)
  | refuses {j : ℕ} {e : KeygenEngine c} {error : Error} (sink : s.network.find? peer = some j)
    (engine : s.engines[j]? = some e) (refuses : e.Refuses sender m error) :
    Declines s sender peer m error

/-- The answer to a delivery is that of the engine which the receiver's name stands for. -/
theorem deliver_fst (s : Ensemble c) (sender peer : PartyId) (m : KeygenMessage) :
    (s.deliver sender peer m).1 =
      match s.network.find? peer with
      | none => .error (Network.unknownPeer peer)
      | some j =>
        match s.engines[j]? with
        | none => .error (Network.unknownPeer sender)
        | some e => (e.addMessage sender m).map fun _ => () := by
  rw [Ensemble.deliver, Network.deliver]
  cases s.network.find? peer with
  | none => rfl
  | some j =>
    dsimp only [accept]
    rw [engines, List.getElem?_map]
    cases s.parties[j]? with
    | none => rfl
    | some party =>
      dsimp only [Option.map_some]
      cases party.engine.addMessage sender m with
      | error error => rfl
      | ok e => rfl

/-- **A message that is not taken**, where names stand for parties, is declined for one of these
reasons. -/
theorem Placed.declines {sender peer : PartyId} {m : KeygenMessage} {error : Error} (h : s.Placed)
    (answer : (s.deliver sender peer m).1 = .error error) : s.Declines sender peer m error := by
  rw [deliver_fst] at answer
  cases hfind : s.network.find? peer with
  | none =>
    rw [hfind] at answer
    cases answer
    exact .unregistered hfind
  | some j =>
    -- There is a party at the place, so that the answer is its own.
    obtain ⟨party, hparty⟩ : ∃ party, s.parties[j]? = some party :=
      ⟨_, List.getElem?_eq_getElem (h peer j hfind)⟩
    have engine := getElem?_engines hparty
    rw [hfind] at answer
    dsimp only at answer
    rw [engine] at answer
    dsimp only at answer
    cases taken : party.engine.addMessage sender m with
    | ok e =>
      rw [taken] at answer
      cases answer
    | error error' =>
      rw [taken] at answer
      cases answer
      exact .refuses hfind engine (Engine.addMessage_eq_error_iff.mp taken)

/-- How many of some names are registered for the party at a place. -/
def addressed (s : Ensemble c) (ids : List PartyId) (j : ℕ) : ℕ :=
  ids.countP (s.network.find? · == some j)

theorem addressed_cons (s : Ensemble c) (id : PartyId) (ids : List PartyId) (j : ℕ) :
    s.addressed (id :: ids) j =
      (if s.network.find? id = some j then 1 else 0) + s.addressed ids j := by
  rw [addressed, List.countP_cons, Nat.add_comm, addressed]
  simp only [beq_iff_eq]

theorem addressed_congr (network : s'.network = s.network) : s'.addressed = s.addressed := by
  funext ids j
  rw [addressed, network, addressed]

/-- **An announcement that has failed at a peer**: every party has got as many copies as there are
names for it before that of the peer, nothing else has happened, and the peer would give the same
answer again. -/
structure FailsAt (sender : PartyId) (m : KeygenMessage) (s : Ensemble c) (before : List PartyId)
    (peer : PartyId) (error : Error) (s' : Ensemble c) : Prop where
  reached : ∀ id ∈ before, ∃ j e, s.network.find? id = some j ∧ s.engines[j]? = some e
  copies : ∀ j, s'.engines[j]? =
    (s.engines[j]?).map fun e : KeygenEngine c => e.withCopies m (s.addressed before j)
  answer : (s'.deliver sender peer m).1 = .error error
  network : s'.network = s.network
  outbox : s'.outbox = s.outbox

/-- **A delivery** is declined, or one party gets a copy. -/
theorem deliver_declined_or_taken (s : Ensemble c) (sender receiver : PartyId) (m : KeygenMessage) :
    (∃ error, s.deliver sender receiver m = (.error error, s)) ∨
    ∃ j e s', s.network.find? receiver = some j ∧ s.engines[j]? = some e ∧ Confined j s s' ∧
      s'.engines[j]? = some (e.withCopies m 1) ∧ s.deliver sender receiver m = (.ok (), s') := by
  unfold deliver Network.deliver
  cases hfind : s.network.find? receiver with
  | none => exact .inl ⟨_, rfl⟩
  | some j =>
    dsimp only [accept]
    cases hparty : s.parties[j]? with
    | none => exact .inl ⟨_, rfl⟩
    | some party =>
      have engine := getElem?_engines hparty
      dsimp only
      cases taken : party.engine.addMessage sender m with
      | error error => exact .inl ⟨error, rfl⟩
      | ok e =>
        obtain rfl := Engine.eq_withCopies_of_addMessage taken
        have confined := Confined.modifyEngine s j fun _ => party.engine.withCopies m 1
        refine .inr ⟨j, _, _, rfl, engine, confined.trans (.wake _ j j), ?_, rfl⟩
        rw [engines_wake]
        exact getElem?_engines_modifyEngine_self engine fun _ => party.engine.withCopies m 1

/-- Sending into the outbox never fails. -/
theorem direct_of_handEach {self : PartyId} {m : KeygenMessage} {ids : List PartyId} {error : Error}
    (h : (handEach (fun id => send self id m) ids s).1 = .error error) : s.direct = true := by
  by_contra hdirect
  induction ids generalizing s with
  | nil => cases h
  | cons id ids ih =>
    rw [handEach, send, if_neg hdirect] at h
    exact ih h hdirect

/-- **Where an announcement fails**: at the first peer that does not take it. -/
theorem exists_failsAt_of_handEach {self : PartyId} {m : KeygenMessage} {ids : List PartyId}
    {error : Error} (h : handEach (fun id => send self id m) ids s = (.error error, s')) :
    ∃ before peer after, ids = before ++ peer :: after ∧
      FailsAt self m s before peer error s' := by
  have direct : s.direct = true := direct_of_handEach (congrArg Prod.fst h)
  induction ids generalizing s with
  | nil => cases h
  | cons id ids ih =>
    rw [handEach, send, if_pos direct] at h
    rcases s.deliver_declined_or_taken self id m with ⟨error, heq⟩ |
      ⟨j, e, s₁, sink, engine, confined, copied, heq⟩
    · rw [heq] at h
      cases h
      refine ⟨[], id, ids, rfl, ⟨fun _ hx => absurd hx List.not_mem_nil, fun j => ?_,
        congrArg Prod.fst heq, rfl, rfl⟩⟩
      simp [addressed]
    · rw [heq] at h
      obtain ⟨before, peer, after, rfl, fails⟩ := ih h (confined.direct.trans direct)
      refine ⟨id :: before, peer, after, rfl, ⟨?_, fun k => ?_, fails.answer,
        fails.network.trans confined.network, fails.outbox.trans confined.outbox⟩⟩
      · rintro x (_ | ⟨_, hx⟩)
        · exact ⟨j, e, sink, engine⟩
        · obtain ⟨k, e', sink', engine'⟩ := fails.reached x hx
          rw [confined.network] at sink'
          by_cases hkj : k = j
          · exact ⟨j, e, hkj ▸ sink', engine⟩
          · exact ⟨k, e', sink', (confined.engines k hkj).symm.trans engine'⟩
      · rw [fails.copies k, addressed_congr confined.network, addressed_cons, sink]
        by_cases hjk : j = k
        · subst hjk
          rw [copied, engine, if_pos rfl, Option.map_some, Option.map_some,
            Engine.withCopies_withCopies]
        · rw [confined.engines k (Ne.symm hjk), if_neg fun heq => hjk (Option.some.inj heq),
            Nat.zero_add]

section Stop

variable {t : Ensemble c} {sender peer : PartyId} {m : KeygenMessage} {error : Error}

theorem getElem?_engines_stop (s : Ensemble c) (i j : ℕ) :
    (s.stop i).engines[j]? = (s.engines[j]?).map fun e => if i = j then e.stop else e := by
  rw [Ensemble.stop, engines_wake, engines_modifyEngine, List.getElem?_modify]
  rfl

theorem confined_stop (s : Ensemble c) (i : ℕ) : Confined i s (s.stop i) :=
  (Confined.modifyEngine s i Engine.stop).trans (.wake _ i i)

/-- Whether an engine is running does not matter for what it answers. -/
theorem deliver_stop_fst (s : Ensemble c) (i : ℕ) (sender peer : PartyId) (m : KeygenMessage) :
    ((s.stop i).deliver sender peer m).1 = (s.deliver sender peer m).1 := by
  rw [deliver_fst, deliver_fst, (s.confined_stop i).network]
  cases s.network.find? peer with
  | none => rfl
  | some j =>
    dsimp only
    rw [getElem?_engines_stop]
    cases s.engines[j]? with
    | none => rfl
    | some e =>
      dsimp only [Option.map_some]
      split
      · rw [Engine.addMessage_stop]
        cases e.addMessage sender m with
        | error error => rfl
        | ok e' => rfl
      · rfl

/-- **To stop a party** after an announcement is as good as to stop it before. -/
theorem FailsAt.stop {before : List PartyId} (h : FailsAt sender m s before peer error s')
    (network : t.network = s.network) (outbox : t.outbox = s.outbox)
    (engines : ∀ j, t.engines[j]? = (s.engines[j]?).map fun e => if i = j then e.stop else e) :
    FailsAt sender m t before peer error (s'.stop i) := by
  have confined := s'.confined_stop i
  refine ⟨fun id hid => ?_, fun j => ?_, (s'.deliver_stop_fst i sender peer m).trans h.answer,
    (confined.network.trans h.network).trans network.symm,
    (confined.outbox.trans h.outbox).trans outbox.symm⟩
  · obtain ⟨j, e, sink, engine⟩ := h.reached id hid
    refine ⟨j, if i = j then e.stop else e, network ▸ sink, (engines j).trans ?_⟩
    rw [engine, Option.map_some]
  · rw [getElem?_engines_stop, h.copies, engines, addressed_congr network, Option.map_map,
      Option.map_map]
    refine congrArg (Option.map · _) (funext fun e => ?_)
    dsimp only [Function.comp_apply]
    split <;> rfl

end Stop

/-! ## Starts -/

/-- **Where a start fails**, and what it leaves behind. -/
theorem exists_failsAt_of_start {p : Party c} {error : Error} (party : s.parties[i]? = some p)
    (fails : s.start i = (.error error, s')) :
    ∃ before peer after, p.view.peers = before ++ peer :: after ∧
      FailsAt p.view.self p.announcement (s.modifyEngine i fun e => e.start.stop) before peer error
        s' := by
  rw [Ensemble.start, party] at fails
  dsimp only [PeerView.broadcast] at fails
  cases hsent : handEach (fun id => send p.view.self id p.announcement) p.view.peers
      ((s.modifyEngine i Engine.start).wake i) with
  | mk answer s₁ =>
    rw [hsent] at fails
    cases answer with
    | ok u => cases fails
    | error error' =>
      cases fails
      obtain ⟨before, peer, after, order, hfails⟩ := exists_failsAt_of_handEach hsent
      have hwake := Confined.wake (s.modifyEngine i Engine.start) i i
      refine ⟨before, peer, after, order, hfails.stop hwake.network.symm hwake.outbox.symm fun j => ?_⟩
      rw [engines_wake, engines_modifyEngine, engines_modifyEngine, List.getElem?_modify,
        List.getElem?_modify]
      cases s.engines[j]? with
      | none => rfl
      | some e =>
        by_cases hij : i = j
        · simp [hij]
        · simp [hij]

end Ensemble

/-- **A party that has been built**, and to which messages have been offered since. -/
def Party.withBacklog (d : Dealer c) (view : PeerView)
    (backlog : List (PartyId × KeygenMessage)) : Party c :=
  let p := Party.ofDealer d view
  { p with engine := backlog.foldl (fun e parcel => e.offer parcel.1 parcel.2) p.engine }

/-- What has been offered is in the mailboxes or nowhere. -/
theorem Party.exists_engine_withBacklog (d : Dealer c) (view : PeerView)
    (backlog : List (PartyId × KeygenMessage)) : ∃ mailboxes,
      mailboxes.types = [commitTag, shareTag] ∧ (Party.withBacklog d view backlog).engine =
        { (Party.ofDealer d view).engine with mailboxes } := by
  rw [withBacklog]
  induction backlog using List.reverseRecOn with
  | nil => exact ⟨_, rfl, rfl⟩
  | append_singleton backlog parcel ih =>
    obtain ⟨mailboxes, types, engine⟩ := ih
    dsimp only at engine ⊢
    rw [List.foldl_append, engine, List.foldl_cons, List.foldl_nil]
    obtain ⟨mailboxes', hoffer⟩ := Engine.offer_eq
      { (Party.ofDealer d view).engine with mailboxes } parcel.1 parcel.2
    have htypes := Engine.types_offer
      { (Party.ofDealer d view).engine with mailboxes } parcel.1 parcel.2
    rw [hoffer] at htypes
    exact ⟨mailboxes', htypes.trans types, hoffer⟩

/-- A party that is stopped with its start is withdrawn, whatever waits in its mailboxes. -/
theorem Party.stoppedEarly_withBacklog (d : Dealer c) (view : PeerView)
    (backlog : List (PartyId × KeygenMessage)) (m : KeygenMessage) (n : ℕ) :
    ((Party.withBacklog d view backlog).engine.start.stop.withCopies m n).StoppedEarly := by
  obtain ⟨mailboxes, types, engine⟩ := Party.exists_engine_withBacklog d view backlog
  rw [engine]
  refine ⟨⟨_, rfl⟩, rfl, rfl, rfl, rfl, ?_⟩
  show commitTag ∈ mailboxes.types
  rw [types]
  exact List.mem_cons_self

theorem Party.outcome_of_stoppedEarly {p : Party c} (h : p.engine.StoppedEarly) :
    p.outcome = .pending := by
  rw [outcome, Engine.listener, h.calls]
  rfl

theorem Party.outcome_of_calledOff {p : Party c} (h : p.engine.CalledOff) :
    p.outcome = .settled (.error .cancelled) := by
  rw [outcome, Engine.listener, h.calls, Engine.result, h.outcome]
  rfl

namespace Ensemble

variable {s s' : Ensemble c} {i : ℕ}

/-- **A start that fails calls the run off**, in a key generation as in a refresh, whatever waits in
the mailboxes of the party and whoever is on the network. The error is that of the first peer that
does not take the announcement, as it is not registered or refuses it, and each peer before it has
got one copy. Whatever happens afterwards, no round of the party is called, its consumer hands
nothing over and touches nobody else, and from its first turn on the run has failed since it has been
cancelled. -/
theorem calledOff_of_start {d : Dealer c} {view : PeerView}
    {backlog : List (PartyId × KeygenMessage)} {error : Error}
    (fresh : s.parties[i]? = some (Party.withBacklog d view backlog))
    (fails : s.start i = (.error error, s')) :
    (∃ before peer after, view.peers = before ++ peer :: after ∧
      FailsAt view.self d.commitMessage (s.modifyEngine i fun e => e.start.stop) before peer error
        s' ∧ (s.Placed → s'.Declines view.self peer d.commitMessage error)) ∧
    (∀ later : List Intervention,
      let t := later.foldl intervene s'
      ∃ p, t.parties[i]? = some p ∧
        (∀ event, p.engine.asksOf (Round.protocol c) event = []) ∧
        (∀ e closing, p.engine.advance (Round.protocol c) ≠ .handOver e closing) ∧
        Confined i t (t.turn i) ∧
        (p.outcome = .pending ∨ p.outcome = .settled (.error .cancelled))) ∧
    ∀ before after : List Intervention,
      ∃ p, ((before ++ .act (.turn i) :: after).foldl intervene s').parties[i]? = some p ∧
        p.engine.state = .failed ∧ p.engine.calls = [(.init, .failed)] ∧
        p.engine.result = .error .cancelled ∧ p.outcome = .settled (.error .cancelled) := by
  obtain ⟨before, peer, after, order, hfails⟩ := exists_failsAt_of_start fresh fails
  have hstopped : s'.At i Engine.Withdrawn := by
    refine ⟨_, ?_, .waiting (Party.stoppedEarly_withBacklog d view backlog d.commitMessage
      (addressed (s.modifyEngine i fun e => e.start.stop) before i))⟩
    rw [hfails.copies i, getElem?_engines_modifyEngine_self (getElem?_engines fresh)]
    rfl
  have hlater (later : List Intervention) : (later.foldl intervene s').At i Engine.Withdrawn :=
    hstopped.intervene Engine.shielded_withdrawn (fun _ => id) (fun _ => .ended) later
  -- The peer would give the same answer after the start, where names still stand for parties.
  have hdeclines (placed : s.Placed) : s'.Declines view.self peer d.commitMessage error := by
    have hplaced := placed.start i
    rw [fails] at hplaced
    exact hplaced.declines hfails.answer
  refine ⟨⟨before, peer, after, order, hfails, hdeclines⟩, fun later => ?_, fun earlier later => ?_⟩
  · obtain ⟨p, party, withdrawn⟩ := (hlater later).exists_party
    refine ⟨p, party, withdrawn.asksOf_eq_nil _, withdrawn.advance_ne_handOver _,
      (hlater later).turn_of_withdrawn.2, ?_⟩
    cases withdrawn with
    | waiting h => exact .inl (Party.outcome_of_stoppedEarly h)
    | ended h => exact .inr (Party.outcome_of_calledOff h)
  · -- The turn calls the run off, and nothing undoes this.
    have hended : ((earlier ++ .act (.turn i) :: later).foldl intervene s').At i Engine.CalledOff := by
      rw [List.foldl_append, List.foldl_cons]
      exact (hlater earlier).turn_of_withdrawn.1.intervene Engine.shielded_calledOff (fun _ => .ended)
        (fun _ => id) later
    obtain ⟨p, party, ended⟩ := hended.exists_party
    refine ⟨p, party, ?_, ended.calls, ?_, Party.outcome_of_calledOff ended⟩
    · rw [Engine.state, ended.outcome]
    · rw [Engine.result, ended.outcome]

end Ensemble

section ThreeParties

open Ensemble (Intervention intervene)

/-- The dealer of a party of three. -/
def dealerOfThree (id : PartyId) : Dealer .secp256k1 :=
  sessionOfThree.dealer (sessionOfThree.member id)

/-- The first of three parties, which has got the contributions of the other two already. -/
def expectantOfThree : Party .secp256k1 :=
  .withBacklog (dealerOfThree "a") ⟨"a", ["b", "c"]⟩
    (["b", "c"].map fun id => (id, (dealerOfThree id).commitMessage))

/-- The last of three parties has not registered. -/
def absentOfThree : Ensemble .secp256k1 :=
  (((Ensemble.empty true).add "a" expectantOfThree true).add "b"
    (.ofDealer (dealerOfThree "b") ⟨"b", ["a", "c"]⟩) true).add "c"
      (.ofDealer (dealerOfThree "c") ⟨"c", ["a", "b"]⟩) false

/-- A party that could close its first round at once is started, and cannot reach the second of its
peers. Its run is called off. -/
theorem calledOff_of_start_secp256k1 :
    (expectantOfThree.engine.start.turn (Round.protocol .secp256k1)).tag = shareTag ∧
    (absentOfThree.start 0).1 = .error (Network.unknownPeer "c") ∧
    ∀ before after : List Intervention,
      ∃ p, ((before ++ .act (.turn 0) :: after).foldl intervene (absentOfThree.start 0).2).parties[0]?
          = some p ∧ p.outcome = .settled (.error .cancelled) := by
  have hfails : (absentOfThree.start 0).1 = .error (Network.unknownPeer "c") := by
    decide +kernel
  refine ⟨by decide +kernel, hfails, fun before after => ?_⟩
  obtain ⟨p, party, -, -, -, outcome⟩ := (Ensemble.calledOff_of_start
    (s := absentOfThree) (i := 0) rfl (Prod.ext hfails rfl)).2.2 before after
  exact ⟨p, party, outcome⟩

end ThreeParties

end RankedKeys
