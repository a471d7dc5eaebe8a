import RankedKeys.Keygen.Ensemble
import RankedKeys.Proofs.Keygen.Stage
import RankedKeys.Proofs.Network

/-!
# Honest parties under any schedule

The parties of a session are started, and their consumers get turns, in any order. Every message is
taken in at once, whatever the receiver is doing, so that every party is at a stage at any time.
When all have been started and every consumer rests, all have got to the same end, but for those
that have got a forged share.

## Main definitions

* `Ensemble.Action`, `Ensemble.play`: a schedule of starts and turns
* `Ensemble.playBy post`, `Ensemble.sendForged`: a schedule with another way of sending, and one that
  forges shares
* `Lineup.Concludes`, `Lineup.Ends`: how the run of a party ends, with forged shares and without
* `Lineup.Wired Q s`: the parties of a session on one network, with engines in `Q`
* `Lineup.Along started s`: a session after some starts

## Main results

* `Lineup.Wired.handEach`: messages to distinct parties are handed over one by one
* `Lineup.Along.start`, `Lineup.Along.move`: a start and a move keep every party at a stage
* `Lineup.Along.play`: so does every schedule
* `Lineup.concludes_of_play`, `Lineup.ends_of_play`: how the parties end
-/

namespace RankedKeys

variable {c : Curve}

namespace Ensemble

/-- What happens next in a session. -/
inductive Action where
  | start (i : ℕ)
  /-- One move of a consumer, as part of a turn. -/
  | move (i : ℕ)
  | turn (i : ℕ)

/-- What an action does. A start may answer with an error. -/
def act (s : Ensemble c) : Action → Ensemble c
  | .start i => (s.start i).2
  | .move i => s.move i
  | .turn i => s.turn i

/-- A schedule of actions. -/
def play (s : Ensemble c) (schedule : List Action) : Ensemble c :=
  schedule.foldl act s

/-! ### Other ways of sending -/

/-- **A way of sending**: what becomes of a message of a party to a peer. -/
abbrev Posting (c : Curve) : Type :=
  PartyId → PartyId → KeygenMessage → Ensemble c → Except Error Unit × Ensemble c

section Posting

variable (post : Posting c)

/-- Starts a party that sends in a given way. -/
def startBy (i : ℕ) (s : Ensemble c) : Except Error Unit × Ensemble c :=
  match s.parties[i]? with
  | none => (.ok (), s)
  | some p =>
    let s := (s.modifyEngine i Engine.start).wake i
    match p.view.broadcast (post p.view.self) p.announcement s with
    | (.ok (), s) => (.ok (), s)
    | (.error e, s) => (.error e, (s.modifyEngine i Engine.stop).wake i)

/-- One move of the consumer of a party that sends in a given way. -/
def moveBy (i : ℕ) (s : Ensemble c) : Ensemble c :=
  match s.parties[i]? with
  | none => s
  | some p =>
    match p.engine.advance (Round.protocol c) with
    | .rest => s
    | .moved e => s.setEngine i e
    | .handOver e closing =>
      let (handed, s) := handEach (fun (receiver, m) => post p.view.self receiver m) closing.outbox
        (s.setEngine i e)
      s.modifyEngine i fun e => e.conclude (Round.protocol c) handed closing.transition

/-- A turn of the consumer of a party that sends in a given way. -/
def turnBy (i : ℕ) (s : Ensemble c) : Ensemble c :=
  match s.parties[i]? with
  | none => s
  | some p => (Engine.repeated (moveBy post i) (p.engine.mailboxes.size + 1) s).wake i

/-- What an action does if all parties send in a given way. -/
def actBy (s : Ensemble c) : Action → Ensemble c
  | .start i => (s.startBy post i).2
  | .move i => s.moveBy post i
  | .turn i => s.turnBy post i

/-- A schedule of actions of parties that send in a given way. -/
def playBy (s : Ensemble c) (schedule : List Action) : Ensemble c :=
  schedule.foldl (actBy post) s

end Posting

/-- **The usual way**: messages are sent as they are. -/
theorem playBy_send (s : Ensemble c) (schedule : List Action) :
    s.playBy send schedule = s.play schedule := by
  have hact : actBy (send (c := c)) = act := by
    funext s action
    cases action <;> rfl
  rw [playBy, play, hact]

/-- **Forged shares**: a message is sent with other bytes in place of the share. -/
def sendForged (forged : PartyId → PartyId → Option Bytes) : Posting c :=
  fun self receiver m s => s.send self receiver (m.forge (forged self receiver))

/-- If nothing is forged, messages are sent as they are. -/
theorem sendForged_of_genuine {forged : PartyId → PartyId → Option Bytes}
    (h : ∀ x y, forged x y = none) : sendForged forged = send (c := c) := by
  funext self receiver m s
  rw [sendForged, h, KeygenMessage.forge_none]

/-- The places of the parties that a schedule starts. -/
def starts (schedule : List Action) : List ℕ :=
  schedule.filterMap fun
    | .start i => some i
    | _ => none

/-! ### The engines of an ensemble -/

open Lineup (KeygenEngine)

/-- The engines of all parties. -/
def engines (s : Ensemble c) : List (KeygenEngine c) :=
  s.parties.map (·.engine)

theorem getElem?_engines {s : Ensemble c} {i : ℕ} {p : Party c} (hp : s.parties[i]? = some p) :
    s.engines[i]? = some p.engine := by
  rw [engines, List.getElem?_map, hp, Option.map_some]

@[simp] theorem engines_wake (s : Ensemble c) (i : ℕ) : (s.wake i).engines = s.engines := by
  unfold wake
  split
  · split <;> rfl
  · rfl

@[simp] theorem engines_modifyEngine (s : Ensemble c) (i : ℕ) (f : KeygenEngine c → KeygenEngine c) :
    (s.modifyEngine i f).engines = s.engines.modify i f := by
  refine List.ext_getElem? fun j => ?_
  rw [engines, modifyEngine, List.getElem?_map, List.getElem?_modify, List.getElem?_modify, engines,
    List.getElem?_map]
  cases s.parties[j]? with
  | none => rfl
  | some p =>
    by_cases hij : i = j
    · simp [hij]
    · simp [hij]

@[simp] theorem engines_setEngine (s : Ensemble c) (i : ℕ) (e : KeygenEngine c) :
    (s.setEngine i e).engines = s.engines.modify i fun _ => e :=
  s.engines_modifyEngine i fun _ => e

/-! ### Deliveries -/

/-- **What a delivery does**: the message is refused and nothing happens, or one party takes it in
and its consumer may come to have something to do. -/
theorem deliver_cases (s : Ensemble c) (sender receiver : PartyId) (m : KeygenMessage) :
    (∃ error, s.deliver sender receiver m = (.error error, s)) ∨
      ∃ i p e, s.parties[i]? = some p ∧ p.engine.addMessage sender m = .ok e ∧
        s.deliver sender receiver m = (.ok (), (s.setEngine i e).wake i) := by
  unfold deliver Network.deliver
  cases s.network.find? receiver with
  | none => exact .inl ⟨_, rfl⟩
  | some i =>
    dsimp only [accept]
    cases hp : s.parties[i]? with
    | none => exact .inl ⟨_, rfl⟩
    | some p =>
      dsimp only
      cases taken : p.engine.addMessage sender m with
      | error error => exact .inl ⟨error, rfl⟩
      | ok e => exact .inr ⟨i, p, e, hp, taken, rfl⟩

/-! ### Ensembles of registered parties -/

/-- Parties that have all registered under their names. -/
def ofParties (parties : List (PartyId × Party c)) : Ensemble c :=
  parties.foldl (fun s e => s.add e.1 e.2 true) (.empty true)

theorem ofParties_append_singleton (parties : List (PartyId × Party c)) (e : PartyId × Party c) :
    ofParties (parties ++ [e]) = (ofParties parties).add e.1 e.2 true := by
  simp [ofParties]

@[simp] theorem parties_ofParties (parties : List (PartyId × Party c)) :
    (ofParties parties).parties = parties.map (·.2) := by
  induction parties using List.reverseRecOn with
  | nil => rfl
  | append_singleton parties e ih =>
    rw [ofParties_append_singleton, List.map_append, add, ih]
    rfl

@[simp] theorem direct_ofParties (parties : List (PartyId × Party c)) :
    (ofParties parties).direct = true := by
  induction parties using List.reverseRecOn with
  | nil => rfl
  | append_singleton parties e ih => rwa [ofParties_append_singleton]

end Ensemble

/-- Every party is found under its name. -/
theorem Ensemble.find?_ofParties {parties : List (PartyId × Party c)}
    (nodup : (parties.map (·.1)).Nodup) {i : ℕ} {id : PartyId}
    (hi : (parties.map (·.1))[i]? = some id) :
    (ofParties parties).network.find? id = some i := by
  induction parties using List.reverseRecOn with
  | nil => cases hi
  | append_singleton parties e ih =>
    rw [List.map_append, List.map_singleton] at nodup hi
    rw [ofParties_append_singleton, add, if_pos rfl, parties_ofParties, List.length_map]
    dsimp only
    rw [Network.find?_register]
    -- The last party is found at the last place, and nobody else has its name.
    have hlast : (parties.map (·.1) ++ [e.1])[parties.length]? = some e.1 := by
      simp
    have hlt := (List.getElem?_eq_some_iff.mp hi).1
    split
    · rename_i h
      subst h
      exact congrArg some ((List.getElem?_inj hlt nodup).mp (hi.trans hlast.symm)).symm
    · rename_i h
      have hne : i ≠ parties.length := by
        rintro rfl
        exact h (Option.some.inj (hi.symm.trans hlast))
      have hshort : i < (parties.map (·.1)).length := by
        simp only [List.length_append, List.length_map, List.length_singleton] at hlt ⊢
        omega
      rw [List.getElem?_append_left hshort] at hi
      exact ih (List.nodup_append.mp nodup).1 hi

theorem handEach_map {α β σ : Type} (give : β → σ → Except Error Unit × σ) (f : α → β)
    (list : List α) (s : σ) :
    handEach give (list.map f) s = handEach (fun a => give (f a)) list s := by
  induction list generalizing s with
  | nil => rfl
  | cons a list ih =>
    rw [List.map_cons, handEach, handEach]
    split
    · rfl
    · exact ih _

namespace Lineup

variable {l : Lineup c} {id : PartyId} {i : ℕ} {s : Ensemble c}
  {Q Q' : PartyId → KeygenEngine c → Prop}

/-- **The parties of a session** on one network that delivers at once, each with an engine in a
given condition. -/
structure Wired (l : Lineup c) (Q : PartyId → KeygenEngine c → Prop) (s : Ensemble c) : Prop where
  direct : s.direct = true
  size : s.parties.length = l.ids.length
  registered : ∀ (i : ℕ) (id : PartyId), l.ids[i]? = some id → s.network.find? id = some i
  party : ∀ (i : ℕ) (id : PartyId), l.ids[i]? = some id → ∃ p : Party c, s.parties[i]? = some p ∧
    p.view = .create id l.ids ∧ p.announcement = (l.dealer id).commitMessage ∧ Q id p.engine

namespace Wired

theorem wake (h : l.Wired Q s) (i : ℕ) : l.Wired Q (s.wake i) := by
  unfold Ensemble.wake
  split
  · split
    · exact ⟨h.direct, h.size, h.registered, h.party⟩
    · exact h
  · exact h

theorem mono (h : l.Wired Q s) (weaken : ∀ x ∈ l.ids, ∀ e, Q x e → Q' x e) : l.Wired Q' s where
  direct := h.direct
  size := h.size
  registered := h.registered
  party i x hi := by
    obtain ⟨p, hp, hview, hannouncement, hQ⟩ := h.party i x hi
    exact ⟨p, hp, hview, hannouncement, weaken x (List.mem_of_getElem? hi) _ hQ⟩

/-- One engine changes, and the others may come to be seen in another way. -/
theorem modifyEngine (h : l.Wired Q s) (honest : l.Honest) (hi : l.ids[i]? = some id)
    {f : KeygenEngine c → KeygenEngine c} (self : ∀ e, Q id e → Q' id (f e))
    (other : ∀ x ∈ l.ids, x ≠ id → ∀ e, Q x e → Q' x e) : l.Wired Q' (s.modifyEngine i f) where
  direct := h.direct
  size := (List.length_modify _ _ _).trans h.size
  registered := h.registered
  party j x hj := by
    obtain ⟨p, hp, hview, hannouncement, hQ⟩ := h.party j x hj
    rw [Ensemble.modifyEngine, List.getElem?_modify, hp]
    by_cases hij : i = j
    · subst hij
      obtain rfl : id = x := Option.some.inj (hi.symm.trans hj)
      refine ⟨_, rfl, ?_⟩
      dsimp only
      rw [if_pos rfl]
      exact ⟨hview, hannouncement, self _ hQ⟩
    · -- Different places have different names.
      have hne : x ≠ id := by
        rintro rfl
        have hlt := (List.getElem?_eq_some_iff.mp hi).1
        exact hij ((List.getElem?_inj hlt honest.nodup).mp (hi.trans hj.symm))
      refine ⟨_, rfl, ?_⟩
      dsimp only
      rw [if_neg hij]
      exact ⟨hview, hannouncement, other x (List.mem_of_getElem? hj) hne _ hQ⟩

/-- An engine is put in place of the one of a party. -/
theorem setEngine (h : l.Wired Q s) (honest : l.Honest) (hi : l.ids[i]? = some id)
    (e : KeygenEngine c) :
    l.Wired (fun y e' => if y = id then e' = e else Q y e') (s.setEngine i e) := by
  refine h.modifyEngine honest hi (f := fun _ => e) (fun _ _ => ?_) fun x _ hx e' he => ?_
  · rw [if_pos rfl]
  · rwa [if_neg hx]

/-- Something is done to an engine that is known. -/
theorem modifyEngine_of_eq {e : KeygenEngine c}
    (h : l.Wired (fun y e' => if y = id then e' = e else Q y e') s) (honest : l.Honest)
    (hi : l.ids[i]? = some id) {f : KeygenEngine c → KeygenEngine c} (hf : Q id (f e)) :
    l.Wired Q (s.modifyEngine i f) := by
  refine h.modifyEngine honest hi (fun e' he => ?_) fun x _ hx e' he => ?_
  · rw [if_pos rfl] at he
    exact he ▸ hf
  · rwa [if_neg hx] at he

/-- **A message** that its receiver takes is delivered. -/
theorem send (h : l.Wired Q s) (honest : l.Honest) (hid : id ∈ l.ids) {x : PartyId}
    {m : KeygenMessage} (takes : ∀ e, Q id e → ∃ e', e.addMessage x m = .ok e' ∧ Q' id e')
    (other : ∀ y ∈ l.ids, y ≠ id → ∀ e, Q y e → Q' y e) :
    ∃ s', s.send x id m = (.ok (), s') ∧ l.Wired Q' s' := by
  obtain ⟨i, hlt, hi⟩ := List.getElem_of_mem hid
  have hi : l.ids[i]? = some id := List.getElem?_eq_some_iff.mpr ⟨hlt, hi⟩
  obtain ⟨p, hp, -, -, hQ⟩ := h.party i id hi
  obtain ⟨e', he', hQ'⟩ := takes p.engine hQ
  refine ⟨(s.setEngine i e').wake i, ?_, ?_⟩
  · rw [Ensemble.send, if_pos h.direct, Ensemble.deliver, Network.deliver, h.registered i id hi]
    simp only [Ensemble.accept, hp, he']
  · exact (h.modifyEngine honest hi (f := fun _ => e') (fun _ _ => hQ') other).wake i

/-- **Messages** to distinct parties are handed over one by one, if every receiver takes its own. -/
theorem handEach (h : l.Wired Q s) (honest : l.Honest) {x : PartyId} {receivers : List PartyId}
    {m : PartyId → KeygenMessage} (nodup : receivers.Nodup) (sub : receivers ⊆ l.ids)
    (takes : ∀ y ∈ receivers, ∀ e, Q y e → ∃ e', e.addMessage x (m y) = .ok e' ∧ Q' y e')
    (other : ∀ y ∈ l.ids, y ∉ receivers → ∀ e, Q y e → Q' y e) :
    ∃ s', RankedKeys.handEach (fun y => Ensemble.send x y (m y)) receivers s = (.ok (), s') ∧
      l.Wired Q' s' := by
  induction receivers generalizing Q s with
  | nil => exact ⟨s, rfl, h.mono fun y hy => other y hy List.not_mem_nil⟩
  | cons y receivers ih =>
    obtain ⟨hnot, nodup⟩ := List.nodup_cons.mp nodup
    obtain ⟨hy, sub⟩ := List.cons_subset.mp sub
    -- The first receiver has taken its message, and the others still have to.
    obtain ⟨s', hsend, hs'⟩ : ∃ s', s.send x y (m y) = (.ok (), s') ∧
        l.Wired (fun z e => if z = y then Q' z e else Q z e) s' :=
      h.send honest hy (fun e he => by simpa using takes y List.mem_cons_self e he)
        (fun z _ hz e he => by rwa [if_neg hz])
    rw [RankedKeys.handEach, hsend]
    refine ih hs' nodup sub (fun z hz e he => ?_) (fun z hmem hz e he => ?_)
    · have hzy : z ≠ y := by
        rintro rfl
        exact hnot hz
      rw [if_neg hzy] at he
      exact takes z (List.mem_cons_of_mem _ hz) e he
    · by_cases hzy : z = y
      · rwa [if_pos hzy] at he
      · rw [if_neg hzy] at he
        exact other z hmem (by simp [hzy, hz]) e he

end Wired

/-! ## Starts and moves -/

variable {sent : Leg → PartyId → Prop}

theorem others_subset : l.others id ⊆ l.ids :=
  fun _ hx => (mem_others.mp hx).1

/-- **A letter to every peer** of a party is handed over, or what is forged in its place; the party
itself is seen as before. -/
theorem Wired.handLetters {X : KeygenEngine c → Prop}
    (h : l.Wired (fun y e => if y = id then X e else l.Stage sent y e) s) (honest : l.Honest)
    (hid : id ∈ l.ids) {leg : Leg} (fresh : ¬ sent leg id) {receivers : List PartyId}
    (nodup : receivers.Nodup) (mem : ∀ x, x ∈ receivers ↔ x ∈ l.others id) :
    ∃ s', RankedKeys.handEach (fun y => Ensemble.sendForged l.forged id y (l.letter leg id y))
        receivers s = (.ok (), s') ∧
      l.Wired (fun y e => if y = id then X e else l.Stage (extend sent leg id) y e) s' := by
  refine h.handEach (m := l.arrival leg id) honest nodup
    (fun y hy => others_subset ((mem y).mp hy)) (fun y hy e he => ?_) (fun y hmem hy e he => ?_)
  -- a receiver takes the letter, as it has not had one of this round from the party
  · obtain ⟨hmem, hne⟩ := mem_others.mp ((mem y).mp hy)
    rw [if_neg hne] at he
    simp only [if_neg hne]
    exact he.accepts honest hmem (mem_others.mpr ⟨hid, hne.symm⟩) fresh
  -- who is no receiver is the party itself
  · by_cases hy' : y = id
    · rwa [if_pos hy'] at he ⊢
    · exact absurd ((mem y).mpr (mem_others.mpr ⟨hmem, hy'⟩)) hy

/-- **A session** in which the parties at some places have been started: every party is at a stage,
and the peers have sent what their stages say. -/
def Along (l : Lineup c) (started : List ℕ) (s : Ensemble c) : Prop :=
  ∃ sent : Leg → PartyId → Prop, (∀ x, sent .commits x ↔ ∃ i ∈ started, l.ids[i]? = some x) ∧
    l.Wired (l.Stage sent) s

namespace Along

variable {started : List ℕ}

/-- **A start** succeeds, and the announcement goes to all peers. -/
theorem start (h : l.Along started s) (honest : l.Honest) (fresh : i ∉ started) :
    ∃ s', s.startBy (Ensemble.sendForged l.forged) i = (.ok (), s') ∧
      l.Along (started ++ [i]) s' := by
  obtain ⟨sent, hstarted, wired⟩ := h
  cases hi : l.ids[i]? with
  | none =>
    -- There is no such party, and nothing happens.
    have hnone : s.parties[i]? = none := by
      rw [List.getElem?_eq_none_iff] at hi ⊢
      rwa [wired.size]
    refine ⟨s, by rw [Ensemble.startBy, hnone], sent, fun x => (hstarted x).trans ?_, wired⟩
    simp [or_and_right, exists_or, hi]
  | some id =>
    have hid := List.mem_of_getElem? hi
    -- Who has sent its announcement has been started, and nobody is started twice.
    have hsent : ¬ sent .commits id := by
      rintro hsent
      obtain ⟨j, hj, hjid⟩ := (hstarted id).mp hsent
      have hlt := (List.getElem?_eq_some_iff.mp hi).1
      exact fresh ((List.getElem?_inj hlt honest.nodup).mp (hi.trans hjid.symm) ▸ hj)
    obtain ⟨p, hp, hview, hannouncement, -⟩ := wired.party i id hi
    -- The party's own engine is started before the announcement goes out.
    have hself : l.Wired (fun y e =>
        if y = id then l.Stage (extend sent .commits id) id e else l.Stage sent y e)
        ((s.modifyEngine i Engine.start).wake i) := by
      refine (wired.modifyEngine honest hi (fun e he => ?_) fun x _ hx e he => ?_).wake i
      · rw [if_pos rfl]
        exact he.start honest hid hsent
      · rwa [if_neg hx]
    obtain ⟨s', hhand, wired'⟩ := hself.handLetters honest hid hsent (honest.nodup.filter _)
      fun _ => Iff.rfl
    have hbroadcast : p.view.broadcast (Ensemble.sendForged l.forged p.view.self) p.announcement
        ((s.modifyEngine i Engine.start).wake i) = (.ok (), s') := by
      rw [PeerView.broadcast, hview, hannouncement]
      exact hhand
    refine ⟨s', ?_, extend sent .commits id, fun x => ?_, wired'.mono fun x _ e he => ?_⟩
    · rw [Ensemble.startBy, hp]
      dsimp only
      rw [hbroadcast]
    · rw [extend, hstarted]
      simp [or_and_right, exists_or, hi, eq_comm]
    · split at he
      · rename_i hx
        exact hx ▸ he
      · exact he

/-- **A move** of a consumer; if it closes the first round, every peer takes its share. -/
theorem move (h : l.Along started s) (honest : l.Honest) (i : ℕ) :
    l.Along started (s.moveBy (Ensemble.sendForged l.forged) i) := by
  obtain ⟨sent, hstarted, wired⟩ := h
  unfold Ensemble.moveBy
  split
  · exact ⟨sent, hstarted, wired⟩
  · rename_i p hp
    obtain ⟨id, hi⟩ : ∃ id, l.ids[i]? = some id := by
      have hlt := (List.getElem?_eq_some_iff.mp hp).1
      rw [wired.size] at hlt
      exact ⟨_, List.getElem?_eq_getElem hlt⟩
    have hid := List.mem_of_getElem? hi
    obtain ⟨p', hp', hview, -, stage⟩ := wired.party i id hi
    obtain rfl : p = p' := Option.some.inj (hp.symm.trans hp')
    have advances := stage.advances honest hid
    generalize p.engine.advance (Round.protocol c) = move at advances ⊢
    cases advances with
    | rest => exact ⟨sent, hstarted, wired⟩
    | @moved e stage =>
      exact ⟨sent, hstarted, wired.modifyEngine honest hi (f := fun _ => e) (fun _ _ => stage)
        fun _ _ _ _ he => he⟩
    | @deals e receivers round undealt nodup mem stage =>
      -- While the shares are handed over, the party's own engine is still in its first round.
      obtain ⟨s', hhand, wired'⟩ :=
        (wired.setEngine honest hi e).handLetters honest hid undealt nodup mem
      refine ⟨extend sent .shares id, fun x => ?_, ?_⟩
      · rw [extend, hstarted]
        simp
      · dsimp only
        generalize hhanded : RankedKeys.handEach _ _ (s.setEngine i e) = handed
        rw [handEach_map, hview] at hhanded
        obtain rfl : handed = (.ok (), s') := hhanded.symm.trans hhand
        exact wired'.modifyEngine_of_eq honest hi stage
    | @ends e k stage =>
      exact ⟨sent, hstarted, (wired.setEngine honest hi e).modifyEngine_of_eq honest hi stage⟩

/-- A turn of a consumer. -/
theorem turn (h : l.Along started s) (honest : l.Honest) (i : ℕ) :
    l.Along started (s.turnBy (Ensemble.sendForged l.forged) i) := by
  unfold Ensemble.turnBy
  split
  · exact h
  · -- A turn is a number of moves in a row.
    obtain ⟨sent, hstarted, wired⟩ := Engine.repeated_induction (p := l.Along started)
      (fun _ h' => h'.move honest i) _ h
    exact ⟨sent, hstarted, wired.wake i⟩

/-- **A schedule** that starts no party twice. -/
theorem play (h : l.Along started s) (honest : l.Honest) {schedule : List Ensemble.Action}
    (nodup : (started ++ Ensemble.starts schedule).Nodup) :
    l.Along (started ++ Ensemble.starts schedule)
      (s.playBy (Ensemble.sendForged l.forged) schedule) := by
  induction schedule generalizing started s with
  | nil => simpa [Ensemble.starts, Ensemble.playBy] using h
  | cons action schedule ih =>
    rw [Ensemble.playBy, List.foldl_cons]
    cases action with
    | start i =>
      -- The party is among those that have been started from here on.
      have hstarts : started ++ Ensemble.starts (.start i :: schedule) =
          (started ++ [i]) ++ Ensemble.starts schedule := by
        simp [Ensemble.starts]
      rw [hstarts] at nodup ⊢
      have hfresh : i ∉ started := by
        intro hi
        have := (List.nodup_append.mp (List.nodup_append.mp nodup).1).2.2
        exact this i hi i (List.mem_singleton_self i) rfl
      obtain ⟨s', hstart, hs'⟩ := h.start honest hfresh
      rw [Ensemble.actBy, hstart]
      exact ih hs' nodup
    | move i => exact ih (h.move honest i) nodup
    | turn i => exact ih (h.turn honest i) nodup

end Along

/-- How the run of a party ends. -/
def Concludes (l : Lineup c) (id : PartyId) (r : Except Error (KeyShare c)) : Prop :=
  match l.scheme with
  | .error error => r = .error (.finalizeFailed error.message)
  | .ok () => l.Settles id r

/-- How the run of a party ends if no share is forged. -/
def Ends (l : Lineup c) (id : PartyId) (r : Except Error (KeyShare c)) : Prop :=
  match l.scheme with
  | .error error => r = .error (.finalizeFailed error.message)
  | .ok () => l.Closes id r

/-- A party that gets no forged share. -/
theorem Concludes.ends {r : Except Error (KeyShare c)} (h : l.Concludes id r)
    (genuine : ∀ x, l.forged x id = none) : l.Ends id r := by
  unfold Concludes at h
  unfold Ends
  split at h
  · exact h
  · cases h with
    | refuses hx forged => cases (genuine _).symm.trans forged
    | closes _ closes => exact closes

/-- The parties of a session, of which none has been started. -/
def ensemble (l : Lineup c) : Ensemble c :=
  .ofParties (l.ids.map fun id => (id, .ofDealer (l.dealer id) (.create id l.ids)))

theorem along_ensemble (honest : l.Honest) : l.Along [] l.ensemble := by
  have hnames : (l.ids.map fun id => (id, Party.ofDealer (l.dealer id) (.create id l.ids))).map
      (·.1) = l.ids := by
    rw [List.map_map]
    exact List.map_id _
  refine ⟨fun _ _ => False, by simp, Ensemble.direct_ofParties _, by simp [ensemble],
    fun i id hi => ?_, fun i id hi => ?_⟩
  · exact Ensemble.find?_ofParties (by rw [hnames]; exact honest.nodup) (by rwa [hnames])
  · refine ⟨_, ?_, rfl, rfl, .ofDealer l (honest.length_others (List.mem_of_getElem? hi))⟩
    rw [ensemble, Ensemble.parties_ofParties, List.getElem?_map, List.getElem?_map, hi]
    rfl

/-- **All parties get to their ends** if all are started and the consumers rest. -/
theorem Along.concludes_of_rest {started : List ℕ} (h : l.Along started s) (honest : l.Honest)
    (all : ∀ i < l.ids.length, i ∈ started) (rest : s.atRest = true) :
    List.Forall₂ (fun id (p : Party c) => ∃ r, p.engine.outcome = some r ∧ l.Concludes id r)
      l.ids s.parties := by
  obtain ⟨sent, hstarted, wired⟩ := h
  have hcommits : ∀ x ∈ l.ids, sent .commits x := by
    intro x hx
    obtain ⟨j, hlt, hj⟩ := List.getElem_of_mem hx
    exact (hstarted x).mpr ⟨j, all j hlt, List.getElem?_eq_some_iff.mpr ⟨hlt, hj⟩⟩
  -- Every party rests by itself; what is left open is whether the shares of the others are there.
  have hrests : ∀ {i : ℕ} {id : PartyId}, l.ids[i]? = some id → ∃ p : Party c,
      s.parties[i]? = some p ∧
        ((∃ error, l.scheme = .error error ∧
          p.engine.outcome = some (.error (.finalizeFailed error.message))) ∨
        l.scheme = .ok () ∧ sent .shares id ∧ ((∀ x ∈ l.ids, sent .shares x) →
          ∃ r, l.Settles id r ∧ p.engine.outcome = some r)) := by
    intro i id hi
    obtain ⟨p, hp, -, -, stage⟩ := wired.party i id hi
    have hready : p.engine.isReady = false := by
      have := List.all_eq_true.mp rest p (List.mem_of_getElem? hp)
      simpa using this
    exact ⟨p, hp, stage.rests honest (List.mem_of_getElem? hi) hready hcommits⟩
  refine List.forall₂_iff_get.mpr ⟨wired.size.symm, fun i hi hi' => ?_⟩
  obtain ⟨p, hp, hend⟩ := hrests (List.getElem?_eq_getElem hi)
  have hget : s.parties.get ⟨i, hi'⟩ = p := (List.getElem?_eq_some_iff.mp hp).2
  rw [hget]
  rcases hend with ⟨error, hscheme, houtcome⟩ | ⟨hscheme, -, hsettles⟩
  · refine ⟨_, houtcome, ?_⟩
    rw [Concludes, hscheme]
  · -- The positions form a scheme for all parties or for none, so that all have dealt.
    have hshares : ∀ x ∈ l.ids, sent .shares x := by
      intro x hx
      obtain ⟨j, hlt, hj⟩ := List.getElem_of_mem hx
      obtain ⟨-, -, ⟨error, herror, -⟩ | ⟨-, hsent, -⟩⟩ :=
        hrests (List.getElem?_eq_some_iff.mpr ⟨hlt, hj⟩)
      · rw [hscheme] at herror
        cases herror
      · exact hsent
    obtain ⟨r, hr, houtcome⟩ := hsettles hshares
    refine ⟨r, houtcome, ?_⟩
    rwa [Concludes, hscheme]

/-- **How a session ends** under a schedule that starts every party once and lets the consumers come
to rest. -/
theorem concludes_of_play (honest : l.Honest) {schedule : List Ensemble.Action}
    (once : (Ensemble.starts schedule).Perm (List.range l.ids.length))
    (rest : (l.ensemble.playBy (Ensemble.sendForged l.forged) schedule).atRest = true) :
    List.Forall₂ (fun id (p : Party c) => ∃ r, p.engine.outcome = some r ∧ l.Concludes id r)
      l.ids (l.ensemble.playBy (Ensemble.sendForged l.forged) schedule).parties := by
  have along := (along_ensemble honest).play honest
    (once.nodup_iff.mpr List.nodup_range)
  exact along.concludes_of_rest honest (fun i hi => once.mem_iff.mpr (List.mem_range.mpr hi)) rest

/-- **All parties get to the same end** if no share is forged. -/
theorem ends_of_play (honest : l.Honest) (genuine : ∀ x y, l.forged x y = none)
    {schedule : List Ensemble.Action}
    (once : (Ensemble.starts schedule).Perm (List.range l.ids.length))
    (rest : (l.ensemble.play schedule).atRest = true) :
    List.Forall₂ (fun id (p : Party c) => ∃ r, p.engine.outcome = some r ∧ l.Ends id r)
      l.ids (l.ensemble.play schedule).parties := by
  rw [← Ensemble.playBy_send, ← Ensemble.sendForged_of_genuine genuine] at rest ⊢
  refine (concludes_of_play honest once rest).imp fun id p h => ?_
  obtain ⟨r, houtcome, hr⟩ := h
  exact ⟨r, houtcome, hr.ends fun x => genuine x id⟩

end Lineup

end RankedKeys
