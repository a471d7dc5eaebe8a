import RankedKeys.Proofs.Engine.Record
import RankedKeys.Proofs.Keygen.Schedule

/-!
# The record of a party on a network

A party on a network with others, whoever they are and whatever they send, runs like an engine among
arbitrary peers: what the others do comes down to messages that are delivered to it, and to answers
to the messages that it hands over. So it has a record at any time, and all that is known of
recorded runs holds of its engine.

## Main definitions

* `Ensemble.Intervention`, `Ensemble.intervene`: what may happen to parties on a network
* `Engine.Shielded p`: a kind of engine that only its own consumer can change
* `Ensemble.At i p`: the engine at a place is of a kind
* `Ensemble.Recorded first i s`: the party at a place has a record

## Main results

* `Ensemble.At.start`, `Ensemble.At.move_of_ne`: an engine stays of its kind whatever the others do
* `Ensemble.recorded_of_interventions`: every party has a record at any time
-/

namespace RankedKeys

open Engine (Situation)
open Lineup (KeygenEngine)

variable {c : Curve}

/-- The records of key generations and refreshes. -/
abbrev KeygenRecord (c : Curve) : Type :=
  Record (Round c) KeygenMessage (KeyShare c)

/-- **A kind of engine** that only its own consumer can change: starts, stops and messages that are
taken in leave an engine of the same kind. -/
structure Engine.Shielded {σ M R : Type} [Tagged M] (p : Engine σ M R → Prop) : Prop where
  start : ∀ {e}, p e → p e.start
  stop : ∀ {e}, p e → p e.stop
  taken : ∀ {e e' sender m}, p e → e.addMessage sender m = .ok e' → p e'

namespace Ensemble

/-- **What may happen** to parties on a network: one of them acts or is stopped, or somebody has a
message delivered, under any name. -/
inductive Intervention where
  | act (action : Action)
  | stop (i : ℕ)
  | deliver (sender receiver : PartyId) (m : KeygenMessage)

/-- What an intervention does. -/
def intervene (s : Ensemble c) : Intervention → Ensemble c
  | .act action => s.act action
  | .stop i => s.stop i
  | .deliver sender receiver m => (s.deliver sender receiver m).2

variable {s s' : Ensemble c} {i j : ℕ}

theorem getElem?_engines_modifyEngine_self {e : KeygenEngine c}
    (h : s.engines[i]? = some e) (f : KeygenEngine c → KeygenEngine c) :
    (s.modifyEngine i f).engines[i]? = some (f e) := by
  rw [engines_modifyEngine, List.getElem?_modify_eq, h]
  rfl

theorem getElem?_engines_modifyEngine_ne (h : j ≠ i) (s : Ensemble c)
    (f : KeygenEngine c → KeygenEngine c) : (s.modifyEngine j f).engines[i]? = s.engines[i]? := by
  rw [engines_modifyEngine, List.getElem?_modify_ne f _ h]

/-! ## What actions keep -/

section Inductions

variable {p : Ensemble c → Prop}

/-- What sending keeps, and the start and the stop of the party as well, its start with the
announcement keeps. -/
theorem start_induction (starts : ∀ s, p s → p ((s.modifyEngine i Engine.start).wake i))
    (sends : ∀ s self receiver m, p s → p (send self receiver m s).2)
    (stops : ∀ s, p s → p (s.stop i)) (h : p s) : p (s.start i).2 := by
  unfold Ensemble.start
  split
  · exact h
  · rename_i party _
    have hsent := handEach_induction (p := p)
      (g := fun receiver => send party.view.self receiver party.announcement)
      (fun receiver s' => sends s' party.view.self receiver party.announcement) party.view.peers
      (starts s h)
    dsimp only [PeerView.broadcast]
    generalize handEach _ party.view.peers _ = answer at hsent ⊢
    rcases answer with ⟨(error | ⟨⟩), s'⟩
    · exact stops s' hsent
    · exact hsent

/-- What sending keeps, and any change of the engine of the party, its move keeps. -/
theorem move_induction (changes : ∀ s f, p s → p (s.modifyEngine i f))
    (sends : ∀ s self receiver m, p s → p (send self receiver m s).2) (h : p s) :
    p (s.move i) := by
  unfold Ensemble.move
  split
  · exact h
  · rename_i party _
    cases party.engine.advance (Round.protocol c) with
    | rest => exact h
    | moved e => exact changes s (fun _ => e) h
    | handOver e closing =>
      have hsent := handEach_induction (p := p)
        (g := fun parcel => send party.view.self parcel.1 parcel.2)
        (fun parcel s' => sends s' party.view.self parcel.1 parcel.2) closing.outbox
        (changes s (fun _ => e) h)
      exact changes _ _ hsent

/-- What a move keeps, and the line, a turn keeps. -/
theorem turn_induction (moves : ∀ s, p s → p (s.move i)) (wakes : ∀ s, p s → p (s.wake i))
    (h : p s) : p (s.turn i) := by
  unfold Ensemble.turn
  split
  · exact h
  · exact wakes _ (Engine.repeated_induction moves _ h)

end Inductions

/-! ## What others do to a party -/

/-- The engine at a place is of a kind. -/
def At (s : Ensemble c) (i : ℕ) (p : KeygenEngine c → Prop) : Prop :=
  ∃ e, s.engines[i]? = some e ∧ p e

namespace At

variable {p : KeygenEngine c → Prop}

theorem congr (h : s.At i p) (heq : s'.engines[i]? = s.engines[i]?) : s'.At i p := by
  obtain ⟨e, engine, he⟩ := h
  exact ⟨e, heq.trans engine, he⟩

theorem modifyEngine (h : s.At i p) {f : KeygenEngine c → KeygenEngine c}
    (keeps : ∀ e, p e → p (f e)) (j : ℕ) : (s.modifyEngine j f).At i p := by
  by_cases hij : j = i
  · subst hij
    obtain ⟨e, engine, he⟩ := h
    exact ⟨f e, getElem?_engines_modifyEngine_self engine f, keeps e he⟩
  · exact h.congr (getElem?_engines_modifyEngine_ne hij s f)

theorem wake (h : s.At i p) (j : ℕ) : (s.wake j).At i p :=
  h.congr (congrArg (·[i]?) (engines_wake s j))

section Deliveries

variable (taken : ∀ {e e' : KeygenEngine c} {sender m}, p e → e.addMessage sender m = .ok e' → p e')

include taken

theorem deliver (h : s.At i p) (sender receiver : PartyId) (m : KeygenMessage) :
    (s.deliver sender receiver m).2.At i p := by
  rcases s.deliver_cases sender receiver m with ⟨error, heq⟩ | ⟨j, party, e, hparty, htaken, heq⟩
  · rwa [heq]
  · rw [heq]
    by_cases hij : j = i
    · subst hij
      obtain ⟨e', engine, he'⟩ := h
      obtain rfl : party.engine = e' :=
        Option.some.inj ((getElem?_engines hparty).symm.trans engine)
      exact At.wake ⟨e, getElem?_engines_modifyEngine_self engine fun _ => e,
        taken he' htaken⟩ j
    · exact (h.congr (getElem?_engines_modifyEngine_ne hij s fun _ => e)).wake j

theorem send (h : s.At i p) (sender receiver : PartyId) (m : KeygenMessage) :
    (s.send sender receiver m).2.At i p := by
  unfold Ensemble.send
  split
  · exact h.deliver taken sender receiver m
  · exact h

end Deliveries

variable (shielded : Engine.Shielded p)

include shielded

theorem stop (h : s.At i p) (j : ℕ) : (s.stop j).At i p :=
  (h.modifyEngine (fun _ => shielded.stop) j).wake j

theorem start (h : s.At i p) (j : ℕ) : (s.start j).2.At i p :=
  start_induction (p := (At · i p))
    (fun _ h' => (h'.modifyEngine (fun _ => shielded.start) j).wake j)
    (fun _ self receiver m h' => h'.send shielded.taken self receiver m)
    (fun _ h' => h'.stop shielded j) h

/-- **The others** may move as they like. -/
theorem move_of_ne (h : s.At i p) (hij : j ≠ i) : (s.move j).At i p :=
  move_induction (p := (At · i p))
    (fun s f h' => h'.congr (getElem?_engines_modifyEngine_ne hij s f))
    (fun _ self receiver m h' => h'.send shielded.taken self receiver m) h

end At

/-! ## Records -/

/-- A recorded run goes on to another point. -/
def LeadsTo (r r' : KeygenRecord c) : Prop :=
  ∃ happenings, r.play (Round.protocol c) happenings = r'

variable {r r' r'' first : KeygenRecord c}

theorem LeadsTo.refl (r : KeygenRecord c) : LeadsTo r r := ⟨[], rfl⟩

theorem LeadsTo.trans (h : LeadsTo r r') (h' : LeadsTo r' r'') : LeadsTo r r'' := by
  obtain ⟨before, rfl⟩ := h
  obtain ⟨after, rfl⟩ := h'
  exact ⟨before ++ after, List.foldl_append⟩

theorem LeadsTo.react (h : LeadsTo r r') (happening : Happening KeygenMessage) :
    LeadsTo r (r'.react (Round.protocol c) happening) :=
  h.trans ⟨[happening], rfl⟩

/-- The engine is that of a later point of a record, and its consumer does what it did before. -/
def Continues (r : KeygenRecord c) (e : KeygenEngine c) : Prop :=
  ∃ r', LeadsTo r r' ∧ r'.situation = r.situation.withEngine e

theorem Continues.of_engine (r : KeygenRecord c) : Continues r r.engine := by
  refine ⟨r, .refl r, ?_⟩
  rw [Record.engine]
  cases r.situation <;> rfl

/-- **A message** that is taken in is delivered. -/
theorem Continues.taken {e e' : KeygenEngine c} {sender : PartyId} {m : KeygenMessage}
    (h : Continues r e) (taken : e.addMessage sender m = .ok e') : Continues r e' := by
  obtain ⟨r', leads, situation⟩ := h
  have hengine : r'.engine = e := by rw [Record.engine, situation, Situation.engine_withEngine]
  refine ⟨_, leads.react (.deliver sender m), ?_⟩
  rw [Record.react, Record.deliver, hengine, taken]
  dsimp only
  rw [situation]
  cases r.situation <;> rfl

/-- **Messages handed over** by the party itself: each is answered, and the peers may deliver what
they like before. -/
theorem exists_concluded (outbox : List (PartyId × KeygenMessage))
    (transition : Transition (Round c) (KeyShare c)) {e : KeygenEngine c}
    (situation : r.situation = (Situation.handing e ⟨outbox, transition⟩).settle (Round.protocol c))
    (engine : s.engines[i]? = some e) (self : PartyId) :
    let answer := handEach (fun (receiver, m) => send self receiver m) outbox s
    ∃ r' e', LeadsTo r r' ∧ answer.2.engines[i]? = some e' ∧
      r'.situation = .waiting (e'.conclude (Round.protocol c) answer.1 transition) := by
  induction outbox generalizing r s e with
  | nil => exact ⟨r, e, .refl r, engine, situation⟩
  | cons parcel outbox ih =>
    rcases parcel with ⟨receiver, m⟩
    rw [handEach]
    have hbeside : s.At i (Continues r) := by
      refine ⟨r.engine, ?_, .of_engine r⟩
      rw [engine, Record.engine, situation]
      rfl
    obtain ⟨e₁, engine', r', leads, situation'⟩ := hbeside.send Continues.taken self receiver m
    have hsituation : r'.situation = .handing e₁ ⟨(receiver, m) :: outbox, transition⟩ := by
      rw [situation', situation]
      rfl
    dsimp only
    generalize s.send self receiver m = answer at engine' ⊢
    rcases answer with ⟨(error | ⟨⟩), s'⟩
    · -- the refusal ends the run
      refine ⟨_, e₁, leads.react (.answer (.error error)), engine', ?_⟩
      rw [Record.react, Record.answer, hsituation]
    · obtain ⟨r'', e'', leads', engine'', situation''⟩ :=
        ih (r := r'.react (Round.protocol c) (.answer (.ok ())))
          (by rw [Record.react, Record.answer, hsituation]) engine'
      exact ⟨r'', e'', (leads.react (.answer (.ok ()))).trans leads', engine'', situation''⟩

/-- **An engine with a record**: that of a recorded run, whose consumer waits for its next move. -/
def Records (first : KeygenRecord c) (e : KeygenEngine c) : Prop :=
  ∃ r, LeadsTo first r ∧ r.situation = .waiting e

theorem shielded_records (first : KeygenRecord c) : Engine.Shielded (Records first) where
  start := by
    rintro e ⟨r, leads, situation⟩
    refine ⟨_, leads.react .start, ?_⟩
    simp [Record.react, Record.engine, situation, Situation.engine, Situation.withEngine]
  stop := by
    rintro e ⟨r, leads, situation⟩
    refine ⟨_, leads.react .stop, ?_⟩
    simp [Record.react, Record.engine, situation, Situation.engine, Situation.withEngine]
  taken := by
    rintro e e' sender m ⟨r, leads, situation⟩ taken
    have hengine : r.engine = e := by rw [Record.engine, situation, Situation.engine]
    refine ⟨_, leads.react (.deliver sender m), ?_⟩
    rw [Record.react, Record.deliver, hengine, taken, situation]
    rfl

/-- **The party at a place** has a record: its engine is that of a recorded run, whose consumer waits
for its next move. -/
def Recorded (first : KeygenRecord c) (i : ℕ) (s : Ensemble c) : Prop :=
  ∃ r e, LeadsTo first r ∧ r.situation = .waiting e ∧ s.engines[i]? = some e

theorem recorded_iff_at : Recorded first i s ↔ s.At i (Records first) := by
  constructor
  · rintro ⟨r, e, leads, situation, engine⟩
    exact ⟨e, engine, r, leads, situation⟩
  · rintro ⟨e, engine, r, leads, situation⟩
    exact ⟨r, e, leads, situation, engine⟩

namespace Recorded

/-- **A move** of some party. -/
theorem move (h : Recorded first i s) (j : ℕ) : Recorded first i (s.move j) := by
  by_cases hij : j = i
  · -- the party itself: a move of its record
    subst hij
    unfold Ensemble.move
    split
    · exact h
    · rename_i p hp
      obtain ⟨r, e, leads, situation, engine⟩ := h
      obtain rfl : p.engine = e := Option.some.inj ((getElem?_engines hp).symm.trans engine)
      cases hadvance : p.engine.advance (Round.protocol c) with
      | rest => exact ⟨r, _, leads, situation, engine⟩
      | moved e' =>
        refine ⟨_, e', leads.react .move, ?_, ?_⟩
        · rw [Record.react, Record.move, situation]
          dsimp only
          rw [hadvance]
        · exact getElem?_engines_modifyEngine_self engine fun _ => e'
      | handOver e' closing =>
        have hset : (s.setEngine j e').engines[j]? = some e' :=
          getElem?_engines_modifyEngine_self engine fun _ => e'
        have hmove : (r.react (Round.protocol c) .move).situation =
            (Situation.handing e' closing).settle (Round.protocol c) := by
          rw [Record.react, Record.move, situation]
          dsimp only
          rw [hadvance]
        obtain ⟨r', e'', leads', engine', situation'⟩ :=
          exists_concluded closing.outbox closing.transition hmove hset p.view.self
        exact ⟨r', _, (leads.react .move).trans leads', situation',
          getElem?_engines_modifyEngine_self engine' _⟩
  · -- another party: what it hands over is delivered, or does not concern this one
    exact recorded_iff_at.mpr ((recorded_iff_at.mp h).move_of_ne (shielded_records first) hij)

/-- **Everything that may happen** leaves the party with a record. -/
theorem intervene (h : Recorded first i s) (intervention : Intervention) :
    Recorded first i (s.intervene intervention) := by
  have shielded := shielded_records first
  have hat := recorded_iff_at.mp h
  cases intervention with
  | act action =>
    cases action with
    | start j => exact recorded_iff_at.mpr (hat.start shielded j)
    | move j => exact h.move j
    | turn j =>
      exact turn_induction (p := Recorded first i) (fun _ h' => h'.move j)
        (fun _ h' => recorded_iff_at.mpr ((recorded_iff_at.mp h').wake j)) h
  | stop j => exact recorded_iff_at.mpr (hat.stop shielded j)
  | deliver sender receiver m =>
    exact recorded_iff_at.mpr (hat.deliver shielded.taken sender receiver m)

end Recorded

/-- **Every party** on a network has a record at any time, whatever happens to it and to the others:
its engine is that of a recorded run. -/
theorem recorded_of_interventions {p : Party c} (hp : s.parties[i]? = some p)
    (interventions : List Intervention) :
    Recorded (.initial p.engine) i (interventions.foldl intervene s) := by
  have hfirst : Recorded (.initial p.engine) i s :=
    ⟨_, p.engine, .refl _, rfl, getElem?_engines hp⟩
  clear hp
  induction interventions generalizing s with
  | nil => exact hfirst
  | cons intervention interventions ih => exact ih (hfirst.intervene intervention)

end Ensemble

end RankedKeys
