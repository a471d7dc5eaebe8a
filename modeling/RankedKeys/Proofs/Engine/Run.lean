import Mathlib.Data.Nat.Notation
import Mathlib.Logic.Relation
import Mathlib.Tactic.ByContra
import RankedKeys.Engine.Basic

/-!
# Moves and runs of an engine

What a move of the consumer can be, with all that it depends on, and the runs that an engine has
among peers that do as they please: they deliver messages at any time, also while the consumer
hands its own over, and they start, stop and shut down; what they answer to the messages that are
handed to them is up to them.

## Main definitions

* `Engine.Moves P e move`: the moves of an engine, one constructor for each way
* `Engine.Touches e e'`: what others do to an engine
* `Engine.Situation`, `Engine.Step`, `Engine.Run`: a consumer waits or hands messages over, and
  takes steps among arbitrary peers

## Main results

* `Engine.moves_advance`: `advance` makes one of the moves
* `Engine.advance_ne_rest_of_isReady`: a consumer that has something to do does it
* `Engine.addMessage_eq_ok_iff`: when a message is taken in
* `Engine.repeated_induction`: what a function keeps, its repetitions keep
* `Engine.Run.induction`: what every step preserves holds at the end of a run
* `Engine.Run.turn`: a turn of the consumer whose messages are all taken is a run
-/

namespace RankedKeys

namespace Engine

variable {σ M R : Type} [Tagged M] {P : Protocol σ M R} {e e' : Engine σ M R}

/-- The round in progress takes a message out of its mailbox. -/
structure Pops (e : Engine σ M R) (round : σ) (count : ℕ) (m : M) (mailboxes : Mailboxes M) :
    Prop where
  inProgress : e.inProgress = some (round, count)
  pop : e.mailboxes.pop e.tag (!e.running) = .settled (.ok (m, mailboxes))

omit [Tagged M] in
/-- A round is only in progress as long as the engine lives. -/
theorem live_of_inProgress {progress : σ × ℕ} (h : e.inProgress = some progress) :
    e.live = true := by
  by_contra hlive
  simp [inProgress, hlive] at h

/-- **The moves** of the consumer of an engine. -/
inductive Moves (P : Protocol σ M R) (e : Engine σ M R) : Move σ M R → Prop
  | rest : Moves P e .rest
  /-- The first turn of a consumer without a message. -/
  | wakes {round : σ} (spawned : e.consumer = .spawned round) (live : e.live = true)
    (waits : e.mailboxes.pop e.tag (!e.running) = .pending) :
    Moves P e (.moved { e with consumer := .active round 0 })
  /-- The mailbox is not registered, or the consumer was stopped. -/
  | breaksOff {round : σ} {count : ℕ} {error : Error}
    (inProgress : e.inProgress = some (round, count))
    (pop : e.mailboxes.pop e.tag (!e.running) = .settled (.error error)) :
    Moves P e (.moved (e.finish (.error error)))
  | repeated {round : σ} {count : ℕ} {m : M} {mailboxes : Mailboxes M}
    (pops : Pops e round count m mailboxes) (handled : P.handled round (Tagged.sender m) = true) :
    Moves P e (.moved
      (finish { e with mailboxes } (.error (.duplicateSender (Tagged.sender m) e.tag))))
  | refuses {round : σ} {count : ℕ} {m : M} {mailboxes : Mailboxes M} {fault : Fault}
    (pops : Pops e round count m mailboxes) (fresh : P.handled round (Tagged.sender m) = false)
    (handle : P.handle round m = .error fault) :
    Moves P e (.moved
      (finish { e with mailboxes } (.error (handlingError (Tagged.sender m) fault))))
  | takes {round round' : σ} {count : ℕ} {m : M} {mailboxes : Mailboxes M}
    (pops : Pops e round count m mailboxes) (fresh : P.handled round (Tagged.sender m) = false)
    (handle : P.handle round m = .ok round') (short : count + 1 < P.quota round') :
    Moves P e (.moved { e with mailboxes, consumer := .active round' (count + 1) })
  | failsToClose {round round' : σ} {count : ℕ} {m : M} {mailboxes : Mailboxes M} {fault : Fault}
    (pops : Pops e round count m mailboxes) (fresh : P.handled round (Tagged.sender m) = false)
    (handle : P.handle round m = .ok round') (enough : P.quota round' ≤ count + 1)
    (close : P.close round' = .error fault) :
    Moves P e (.moved (finish { e with mailboxes, consumer := .active round' (count + 1) }
      (.error (closingError fault))))
  | closes {round round' : σ} {count : ℕ} {m : M} {mailboxes : Mailboxes M}
    {closing : Closing σ M R}
    (pops : Pops e round count m mailboxes) (fresh : P.handled round (Tagged.sender m) = false)
    (handle : P.handle round m = .ok round') (enough : P.quota round' ≤ count + 1)
    (close : P.close round' = .ok closing) :
    Moves P e
      (.handOver { e with mailboxes, consumer := .active round' (count + 1) } closing)

theorem moves_consume {round : σ} {count : ℕ} {m : M} {mailboxes : Mailboxes M}
    (pops : Pops e round count m mailboxes) :
    Moves P e (consume P { e with mailboxes } round count m) := by
  unfold consume
  dsimp only
  split
  -- The sender has been heard in this round before.
  · rename_i handled
    exact .repeated pops handled
  · rename_i fresh
    rw [Bool.not_eq_true] at fresh
    split
    · rename_i handle
      exact .refuses pops fresh handle
    · rename_i round' handle
      split
      · rename_i short
        exact .takes pops fresh handle short
      · rename_i enough
        rw [Nat.not_lt] at enough
        split
        · rename_i close
          exact .failsToClose pops fresh handle enough close
        · rename_i close
          exact .closes pops fresh handle enough close

/-- **Every move** is one of these. -/
theorem moves_advance (P : Protocol σ M R) (e : Engine σ M R) : Moves P e (e.advance P) := by
  unfold advance
  split
  · exact .rest
  · rename_i round count inProgress
    split
    · rename_i waits
      split
      · rename_i round' spawned
        have live := live_of_inProgress inProgress
        simp only [Engine.inProgress, live, spawned, if_true, Option.some.injEq,
          Prod.mk.injEq] at inProgress
        obtain ⟨rfl, rfl⟩ := inProgress
        exact .wakes spawned live waits
      · exact .rest
    · rename_i error pop
      exact .breaksOff inProgress pop
    · rename_i m mailboxes pop
      exact moves_consume ⟨inProgress, pop⟩

theorem consume_ne_rest {round : σ} {count : ℕ} {m : M} :
    consume P e round count m ≠ .rest := by
  unfold consume
  dsimp only
  split
  · nofun
  · split
    · nofun
    · split
      · nofun
      · split <;> nofun

/-- A consumer that has something to do makes a move. -/
theorem advance_ne_rest_of_isReady (ready : e.isReady = true) : e.advance P ≠ .rest := by
  unfold isReady at ready
  unfold advance
  split at ready
  · cases ready
  · rename_i progress hprogress
    rw [hprogress]
    dsimp only
    split at ready
    · rename_i hpop
      rw [hpop]
      dsimp only
      split at ready
      · nofun
      · cases ready
    · rename_i answer hpop
      rw [hpop]
      rcases answer with error | ⟨m, mailboxes⟩
      · nofun
      · exact consume_ne_rest

/-- **A message is taken in** if its sender is the one that offers it, if its round is not over
and if there is room for it; it changes the mailboxes and nothing else. -/
theorem addMessage_eq_ok_iff {sender : PartyId} {m : M} :
    e.addMessage sender m = .ok e' ↔
      sender = Tagged.sender m ∧ e.tag ≤ Tagged.tag m ∧
        ∃ mailboxes, e.mailboxes.push m = .ok mailboxes ∧ e' = { e with mailboxes } := by
  unfold addMessage
  constructor
  · intro h
    split at h
    · cases h
    · rename_i hsender
      split at h
      · cases h
      · rename_i stale
        cases hpush : e.mailboxes.push m with
        | error error =>
          rw [hpush] at h
          cases h
        | ok mailboxes =>
          rw [hpush] at h
          cases h
          exact ⟨not_not.mp hsender, UInt32.not_lt.mp stale, mailboxes, rfl, rfl⟩
  · rintro ⟨rfl, fresh, mailboxes, hpush, rfl⟩
    rw [if_neg (not_not.mpr rfl), if_neg (UInt32.not_lt.mpr fresh), hpush]
    rfl

/-- What a function keeps, its repetitions keep. -/
theorem repeated_induction {α : Type} {p : α → Prop} {f : α → α} (h : ∀ a, p a → p (f a))
    (n : ℕ) {a : α} (ha : p a) : p (repeated f n a) := by
  induction n generalizing a with
  | zero => exact ha
  | succ n ih => exact ih (h a ha)

theorem repeated_add {α : Type} (f : α → α) (m n : ℕ) (a : α) :
    repeated f (m + n) a = repeated f n (repeated f m a) := by
  induction m generalizing a with
  | zero => rw [Nat.zero_add, repeated]
  | succ m ih => rw [Nat.succ_add, repeated, repeated, ih]

/-- What others do to an engine. -/
inductive Touches : Engine σ M R → Engine σ M R → Prop
  | start (e : Engine σ M R) : Touches e e.start
  | stop (e : Engine σ M R) : Touches e e.stop
  | shutdown (e : Engine σ M R) : Touches e e.shutdown
  | addMessage {e e' : Engine σ M R} {sender : PartyId} {m : M}
    (taken : e.addMessage sender m = .ok e') : Touches e e'

/-- How the consumer of an engine stands: it waits for its next move, or it hands messages over. -/
inductive Situation (σ M R : Type) where
  | waiting (e : Engine σ M R)
  | handing (e : Engine σ M R) (closing : Closing σ M R)

/-- **A step** of an engine among arbitrary peers. -/
inductive Step (P : Protocol σ M R) : Situation σ M R → Situation σ M R → Prop
  | touched {e e' : Engine σ M R} (touches : Touches e e') : Step P (.waiting e) (.waiting e')
  | touchedWhileHanding {e e' : Engine σ M R} {closing : Closing σ M R} (touches : Touches e e') :
    Step P (.handing e closing) (.handing e' closing)
  | moved {e e' : Engine σ M R} (advance : e.advance P = .moved e') :
    Step P (.waiting e) (.waiting e')
  | handsOver {e e' : Engine σ M R} {closing : Closing σ M R}
    (advance : e.advance P = .handOver e' closing) :
    Step P (.waiting e) (.handing e' closing)
  /-- The peers have taken the messages, or one of them has refused one. -/
  | concluded (e : Engine σ M R) (closing : Closing σ M R) (handed : Except Error Unit) :
    Step P (.handing e closing) (.waiting (e.conclude P handed closing.transition))

/-- **A run** of an engine among arbitrary peers. -/
def Run (P : Protocol σ M R) (e e' : Engine σ M R) : Prop :=
  Relation.ReflTransGen (Step P) (.waiting e) (.waiting e')

/-- Offers a message to an engine, which may refuse it. -/
def offer (e : Engine σ M R) (sender : PartyId) (m : M) : Engine σ M R :=
  match e.addMessage sender m with
  | .ok e' => e'
  | .error _ => e

namespace Run

theorem refl (P : Protocol σ M R) (e : Engine σ M R) : Run P e e := Relation.ReflTransGen.refl

theorem trans {e'' : Engine σ M R} (h : Run P e e') (h' : Run P e' e'') : Run P e e'' :=
  Relation.ReflTransGen.trans h h'

theorem touches (h : Touches e e') : Run P e e' :=
  Relation.ReflTransGen.single (.touched h)

theorem offer (e : Engine σ M R) (sender : PartyId) (m : M) : Run P e (e.offer sender m) := by
  unfold Engine.offer
  split
  · rename_i taken
    exact touches (.addMessage taken)
  · exact refl P e

/-- A move of an engine whose messages are all taken is a run. -/
theorem step (P : Protocol σ M R) (e : Engine σ M R) : Run P e (e.step P) := by
  unfold Engine.step
  split
  · exact refl P e
  · rename_i e' advance
    exact Relation.ReflTransGen.single (.moved advance)
  · rename_i e' closing advance
    exact (Relation.ReflTransGen.single (.handsOver advance)).tail (.concluded e' closing (.ok ()))

/-- A turn of the consumer is a run. -/
theorem turn (P : Protocol σ M R) (e : Engine σ M R) : Run P e (e.turn P) := by
  -- A turn is a number of moves in a row.
  exact repeated_induction (p := Run P e) (fun e' h => h.trans (step P e')) _ (refl P e)

/-- **What every step preserves** holds at the end of a run. Of a consumer that hands messages over
it has to be known where the protocol goes. -/
theorem induction {Inv : Engine σ M R → Prop} (Leads : Transition σ R → Prop)
    (touched : ∀ e e', Touches e e' → Inv e → Inv e')
    (moved : ∀ e e', e.advance P = .moved e' → Inv e → Inv e')
    (handsOver : ∀ e e' closing, e.advance P = .handOver e' closing → Inv e →
      Inv e' ∧ Leads closing.transition)
    (concluded : ∀ e transition handed, Inv e → Leads transition →
      Inv (e.conclude P handed transition))
    (run : Run P e e') (start : Inv e) : Inv e' := by
  -- Induction on the steps, with what is known of a consumer that hands messages over beside it.
  suffices h : ∀ s, Relation.ReflTransGen (Step P) (.waiting e) s →
      match s with
      | .waiting e => Inv e
      | .handing e closing => Inv e ∧ Leads closing.transition from h _ run
  intro s hs
  induction hs with
  | refl => exact start
  | tail _ step ih =>
    cases step with
    | touched touches => exact touched _ _ touches ih
    -- Peers may deliver while messages are handed over; where the protocol goes is settled.
    | touchedWhileHanding touches => exact ⟨touched _ _ touches ih.1, ih.2⟩
    | moved advance => exact moved _ _ advance ih
    | handsOver advance => exact handsOver _ _ _ advance ih
    | concluded e closing handed => exact concluded _ _ _ ih.1 ih.2

end Run

end Engine

end RankedKeys
