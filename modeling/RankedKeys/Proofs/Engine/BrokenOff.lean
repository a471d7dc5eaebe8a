import RankedKeys.Proofs.Engine.Calls

/-!
# Runs that are broken off

A run is broken off when a round breaks off while it takes a message in or is closed, and when the
runtime goes down. Nothing else ends a run in this way: not the refusal of a message, nor a round
that cannot be closed, nor a peer that does not take what it is handed.

## Main definitions

* `Protocol.Crashes P call`: a call at which a round breaks off
* `Engine.BrokenOff`: a run that has been broken off

## Main results

* `Record.not_brokenOff_react`: but for a shutdown, nothing breaks a run off unless a round does
-/

namespace RankedKeys

variable {σ M R : Type} [Tagged M]

/-- A call at which a round breaks off. -/
def Protocol.Crashes (P : Protocol σ M R) : Call σ M → Prop
  | .handle round m => P.handle round m = .error .crash
  | .close round => P.close round = .error .crash

namespace Engine

variable {P : Protocol σ M R} {e : Engine σ M R}

/-- The run has been broken off. -/
def BrokenOff (e : Engine σ M R) : Prop :=
  e.result = .error aborted

theorem handlingError_ne_aborted {fault : Fault} (h : fault ≠ .crash) (sender : PartyId) :
    handlingError sender fault ≠ aborted := by
  cases fault with
  | error error => simp [handlingError, aborted]
  | crash => exact absurd rfl h

theorem closingError_ne_aborted {fault : Fault} (h : fault ≠ .crash) :
    closingError fault ≠ aborted := by
  cases fault with
  | error error => simp [closingError, aborted]
  | crash => exact absurd rfl h

/-- A request that is refused does not break a run off. -/
theorem ne_aborted_of_pop {q : Mailboxes M} {tag : MessageType} {cancelled : Bool} {error : Error}
    (pop : q.pop tag cancelled = .settled (.error error)) : error ≠ aborted := by
  rcases Mailboxes.pop_eq_error_iff.mp pop with ⟨-, rfl⟩ | ⟨-, -, rfl⟩
  · simp [Mailboxes.unknownType, aborted]
  · simp [aborted]

omit [Tagged M] in
theorem not_brokenOff_finish {outcome : Except Error R} (h : outcome ≠ .error aborted) :
    ¬ (e.finish outcome).BrokenOff :=
  h

omit [Tagged M] in
theorem not_brokenOff_conclude (h : ¬ e.BrokenOff) (P : Protocol σ M R) (handed : Except Error Unit)
    (transition : Transition σ R) : ¬ (e.conclude P handed transition).BrokenOff := by
  cases handed with
  | error error =>
    have hne : Fault.error error ≠ .crash := nofun
    exact not_brokenOff_finish fun heq => closingError_ne_aborted hne (Except.error.inj heq)
  | ok u =>
    cases transition with
    | done output => exact not_brokenOff_finish nofun
    | next round => exact h

omit [Tagged M] in
theorem not_brokenOff_settle {s : Situation σ M R} (h : ¬ s.engine.BrokenOff)
    (P : Protocol σ M R) : ¬ (s.settle P).engine.BrokenOff := by
  unfold Situation.settle
  split
  · rename_i e transition
    exact not_brokenOff_conclude (e := e) h P (.ok ()) transition
  · exact h

/-- **A move** breaks the run off only if a round does. -/
theorem not_brokenOff_of_advance (h : ¬ e.BrokenOff) (steady : ∀ call ∈ e.asks P, ¬ P.Crashes call)
    {e' : Engine σ M R}
    (advance : e.advance P = .moved e' ∨ ∃ closing, e.advance P = .handOver e' closing) :
    ¬ e'.BrokenOff := by
  have moves := moves_advance P e
  rcases advance with advance | ⟨closing, advance⟩
  · rw [advance] at moves
    cases moves with
    | wakes => exact h
    | takes => exact h
    | breaksOff inProgress pop =>
      exact not_brokenOff_finish fun heq => ne_aborted_of_pop pop (Except.error.inj heq)
    | repeated => exact not_brokenOff_finish fun heq => by simp [aborted] at heq
    | refuses pops fresh handle =>
      refine not_brokenOff_finish fun heq => handlingError_ne_aborted ?_ _ (Except.error.inj heq)
      rintro rfl
      refine steady (.handle _ _) ?_ handle
      rw [asks_of_fresh pops fresh]
      exact List.mem_cons_self
    | failsToClose pops fresh handle enough close =>
      refine not_brokenOff_finish fun heq => closingError_ne_aborted ?_ (Except.error.inj heq)
      rintro rfl
      refine steady (.close _) ?_ close
      rw [asks_of_closes pops ⟨fresh, handle⟩ enough]
      exact List.mem_cons_of_mem _ (List.mem_singleton_self _)
  · rw [advance] at moves
    cases moves with
    | closes => exact h

end Engine

namespace Record

variable {P : Protocol σ M R} {r : Record σ M R}

/-- **Nothing that happens** to an engine, but for a shutdown, breaks its run off unless a round
does. -/
theorem not_brokenOff_react (h : ¬ r.engine.BrokenOff) {happening : Happening M}
    (ne : happening ≠ .shutdown) (steady : ∀ call ∈ r.askedBy P happening, ¬ P.Crashes call) :
    ¬ (r.react P happening).engine.BrokenOff := by
  have same : ∀ (situation : Engine.Situation σ M R) (e : Engine σ M R), ¬ e.BrokenOff →
      ¬ (situation.withEngine e).engine.BrokenOff := by
    intro situation e he
    rwa [Engine.Situation.engine_withEngine]
  cases happening with
  | shutdown => exact absurd rfl ne
  | start =>
    refine same _ _ ?_
    unfold Engine.start
    split <;> exact h
  | stop => exact same _ _ h
  | deliver sender m =>
    show ¬ (r.deliver sender m).engine.BrokenOff
    unfold deliver
    split
    · exact h
    · rename_i e taken
      obtain ⟨-, -, mailboxes, -, rfl⟩ := Engine.addMessage_eq_ok_iff.mp taken
      exact same _ _ h
  | answer reply =>
    show ¬ (r.answer P reply).engine.BrokenOff
    unfold answer
    split
    · rename_i e peer m later transition hsituation
      have he : ¬ e.BrokenOff := by
        rw [engine, hsituation] at h
        exact h
      cases reply with
      | error error => exact Engine.not_brokenOff_conclude he P (.error error) transition
      | ok u => exact Engine.not_brokenOff_settle (s := .handing e ⟨later, transition⟩) he P
    · exact h
  | move =>
    show ¬ (r.move P).engine.BrokenOff
    unfold move
    split
    · exact h
    · rename_i e hwaiting
      have he : ¬ e.BrokenOff := by
        rw [engine, hwaiting] at h
        exact h
      rw [askedBy, hwaiting] at steady
      split
      · exact h
      · rename_i e' advance
        exact Engine.not_brokenOff_of_advance he steady (.inl advance)
      · rename_i e' closing advance
        exact Engine.not_brokenOff_settle (s := .handing e' closing)
          (Engine.not_brokenOff_of_advance he steady (.inr ⟨closing, advance⟩)) P

end Record

end RankedKeys
