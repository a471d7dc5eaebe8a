import RankedKeys.Proofs.Engine.Trail

/-!
# Calls of the rounds

What the consumer of an engine asks of the rounds of its protocol: a round is called to take a
message in, and when it has enough of them it is called to be closed. The calls of a run are all
that a run depends on in the rounds, so that two protocols that answer them alike run alike.

## Main definitions

* `Call`: a call of a round
* `Engine.asks`, `Engine.asksOf`: the calls of a move and of an event
* `Record.asked`: the calls of a recorded run, first to last
* `Protocol.AgreesOn P P' call`: two protocols give the same answer to a call

## Main results

* `Engine.exists_pops_of_asks_eq`: a call is made for a message that has been popped
* `Record.exists_of_asked_eq`: a call of a run is made by one of its happenings
* `Record.play_congr`: protocols that agree on all calls of a run have the same run
-/

namespace RankedKeys

variable {σ M R : Type}

/-- **A call of a round**: to take a message in, or to be closed. -/
inductive Call (σ M : Type) where
  | handle (round : σ) (m : M)
  | close (round : σ)

/-- The round that is called. -/
def Call.round : Call σ M → σ
  | handle round _ => round
  | close round => round

variable [Tagged M]

namespace Engine

variable {P P' : Protocol σ M R} {e : Engine σ M R}

/-! ## The calls of a move -/

/-- **The calls** that the next move of the consumer makes, first to last. -/
def asks (P : Protocol σ M R) (e : Engine σ M R) : List (Call σ M) :=
  match e.inProgress with
  | none => []
  | some (round, count) =>
    match e.mailboxes.pop e.tag !e.running with
    | .settled (.ok (m, _)) =>
      -- A second message of one sender ends the run without a call.
      if P.handled round (Tagged.sender m) then []
      else
        .handle round m ::
          match P.handle round m with
          | .error _ => []
          | .ok round => if count + 1 < P.quota round then [] else [.close round]
    | _ => []

/-- The calls of some steps in a row. -/
def asksIn (P : Protocol σ M R) : ℕ → Engine σ M R → List (Call σ M)
  | 0, _ => []
  | n + 1, e => e.asks P ++ asksIn P n (e.step P)

/-- The calls of an event. -/
def asksOf (P : Protocol σ M R) (e : Engine σ M R) : Event M → List (Call σ M)
  | .step => e.asks P
  | .turn => asksIn P (e.mailboxes.size + 1) e
  | _ => []

/-- Without a message to pop no round is called. -/
theorem asks_eq_nil (h : ∀ round count m mailboxes, ¬ Pops e round count m mailboxes) :
    e.asks P = [] := by
  unfold asks
  split
  · rfl
  · rename_i hprogress
    split
    · rename_i hpop
      exact absurd ⟨hprogress, hpop⟩ (h _ _ _ _)
    · rfl

section Pops

variable {round round' : σ} {count : ℕ} {m : M} {mailboxes : Mailboxes M}
  (pops : Pops e round count m mailboxes)

include pops

theorem asks_of_repeated (handled : P.handled round (Tagged.sender m) = true) :
    e.asks P = [] := by
  rw [asks, pops.inProgress]
  dsimp only
  rw [pops.pop]
  dsimp only
  rw [if_pos handled]

theorem asks_of_fresh (fresh : P.handled round (Tagged.sender m) = false) :
    e.asks P = .handle round m ::
      match P.handle round m with
      | .error _ => []
      | .ok round => if count + 1 < P.quota round then [] else [.close round] := by
  rw [asks, pops.inProgress]
  dsimp only
  rw [pops.pop]
  dsimp only
  rw [fresh, if_neg Bool.false_ne_true]

theorem asks_of_takes (takes : P.Takes round m round') (short : count + 1 < P.quota round') :
    e.asks P = [.handle round m] := by
  rw [asks_of_fresh pops takes.fresh, takes.handle]
  dsimp only
  rw [if_pos short]

theorem asks_of_closes (takes : P.Takes round m round') (enough : P.quota round' ≤ count + 1) :
    e.asks P = [.handle round m, .close round'] := by
  rw [asks_of_fresh pops takes.fresh, takes.handle]
  dsimp only
  rw [if_neg (Nat.not_lt.mpr enough)]

end Pops

/-- **A call** is made for a message that has been popped: the round takes it in, and is closed with
the same move if it has enough then. -/
theorem exists_pops_of_asks_eq {call : Call σ M} {own later : List (Call σ M)}
    (h : e.asks P = own ++ call :: later) :
    ∃ round count m mailboxes, Pops e round count m mailboxes ∧
      P.handled round (Tagged.sender m) = false ∧
      (own = [] ∧ call = .handle round m ∨ ∃ round', P.Takes round m round' ∧
        P.quota round' ≤ count + 1 ∧ own = [.handle round m] ∧ call = .close round') := by
  by_cases hpops : ∃ round count m mailboxes, Pops e round count m mailboxes
  · obtain ⟨round, count, m, mailboxes, pops⟩ := hpops
    cases handled : P.handled round (Tagged.sender m) with
    | true =>
      rw [asks_of_repeated pops handled] at h
      exact absurd h (by simp)
    | false =>
      refine ⟨round, count, m, mailboxes, pops, handled, ?_⟩
      rw [asks_of_fresh pops handled] at h
      cases own with
      | nil => exact .inl ⟨rfl, (List.cons.inj h).1.symm⟩
      | cons first own =>
        -- The second call closes the round, and there is no third one.
        obtain ⟨rfl, h⟩ := List.cons.inj h
        split at h
        · exact absurd h (by simp)
        · rename_i round' handle
          split at h
          · exact absurd h (by simp)
          · rename_i enough
            obtain ⟨rfl, hcall⟩ : own = [] ∧ call = .close round' := by
              cases own <;> simp_all
            exact .inr ⟨round', ⟨handled, handle⟩, Nat.not_lt.mp enough, rfl, hcall⟩
  · rw [asks_eq_nil fun _ _ _ _ pops => hpops ⟨_, _, _, _, pops⟩] at h
    exact absurd h (by simp)

end Engine

/-! ## Protocols that give the same answers -/

/-- Two protocols give the same answer to a call. -/
def Protocol.AgreesOn (P P' : Protocol σ M R) : Call σ M → Prop
  | .handle round m => P'.handle round m = P.handle round m
  | .close round => P'.close round = P.close round

/-- Protocols that differ in what their rounds do with messages and at their end, at most. -/
structure Protocol.SameFrame (P P' : Protocol σ M R) : Prop where
  tag : P'.tag = P.tag
  handled : P'.handled = P.handled
  quota : P'.quota = P.quota

namespace Engine

variable {P P' : Protocol σ M R} {e : Engine σ M R}

/-- Without a message to pop the protocol does not matter. -/
theorem advance_congr_of_not_pops
    (h : ∀ round count m mailboxes, ¬ Pops e round count m mailboxes) :
    e.advance P' = e.advance P := by
  unfold advance
  split
  · rfl
  · rename_i hprogress
    split
    · rfl
    · rfl
    · rename_i hpop
      exact absurd ⟨hprogress, hpop⟩ (h _ _ _ _)

/-- **Protocols that agree on the calls of a move** make the same move. -/
theorem advance_congr (frame : P.SameFrame P') (agrees : ∀ call ∈ e.asks P, P.AgreesOn P' call) :
    e.advance P' = e.advance P := by
  by_cases hpops : ∃ round count m mailboxes, Pops e round count m mailboxes
  · obtain ⟨round, count, m, mailboxes, pops⟩ := hpops
    rw [advance_of_pops P pops, advance_of_pops P' pops, consume, consume, frame.handled,
      frame.quota]
    dsimp only
    cases handled : P.handled round (Tagged.sender m) with
    | true => rfl
    | false =>
      have hhandle : P'.handle round m = P.handle round m := by
        refine agrees (.handle round m) ?_
        rw [asks_of_fresh pops handled]
        exact List.mem_cons_self
      rw [hhandle]
      cases handle : P.handle round m with
      | error fault => rfl
      | ok round' =>
        dsimp only
        by_cases short : count + 1 < P.quota round'
        · rw [if_pos short, if_pos short]
        · have hclose : P'.close round' = P.close round' := by
            refine agrees (.close round') ?_
            rw [asks_of_closes pops ⟨handled, handle⟩ (Nat.not_lt.mp short)]
            exact List.mem_cons_of_mem _ (List.mem_singleton_self _)
          rw [if_neg short, if_neg short, hclose]
  · exact advance_congr_of_not_pops fun _ _ _ _ pops => hpops ⟨_, _, _, _, pops⟩

omit [Tagged M] in
theorem conclude_congr (tag : P'.tag = P.tag) (e : Engine σ M R) (handed : Except Error Unit)
    (transition : Transition σ R) :
    e.conclude P' handed transition = e.conclude P handed transition := by
  unfold conclude
  rw [tag]

omit [Tagged M] in
theorem Situation.settle_congr (tag : P'.tag = P.tag) (s : Situation σ M R) :
    s.settle P' = s.settle P := by
  unfold settle
  split
  · rw [conclude_congr tag]
  · rfl

end Engine

/-! ## The calls of a recorded run -/

namespace Record

variable {P P' : Protocol σ M R} {r : Record σ M R}

/-- The calls that a happening leads to. -/
def askedBy (P : Protocol σ M R) (r : Record σ M R) : Happening M → List (Call σ M)
  | .move =>
    match r.situation with
    | .waiting e => e.asks P
    | .handing .. => []
  | _ => []

/-- **The calls of a run**, first to last. -/
def asked (P : Protocol σ M R) : Record σ M R → List (Happening M) → List (Call σ M)
  | _, [] => []
  | r, happening :: happenings =>
    r.askedBy P happening ++ asked P (r.react P happening) happenings

/-- **A call of a run** is made by one of its happenings, after the calls of those before. -/
theorem exists_of_asked_eq {happenings : List (Happening M)} {call : Call σ M}
    {before after : List (Call σ M)} (h : r.asked P happenings = before ++ call :: after) :
    ∃ earlier happening own later, before = r.asked P earlier ++ own ∧
      (r.play P earlier).askedBy P happening = own ++ call :: later := by
  induction happenings generalizing r before with
  | nil => exact absurd h.symm (by simp [asked])
  | cons happening happenings ih =>
    have here : ∀ own later, before = own → r.askedBy P happening = own ++ call :: later →
        ∃ earlier happening own later, before = r.asked P earlier ++ own ∧
          (r.play P earlier).askedBy P happening = own ++ call :: later :=
      fun own later hown hby => ⟨[], happening, own, later, hown, hby⟩
    have further : ∀ rest, before = r.askedBy P happening ++ rest →
        (r.react P happening).asked P happenings = rest ++ call :: after →
          ∃ earlier happening own later, before = r.asked P earlier ++ own ∧
            (r.play P earlier).askedBy P happening = own ++ call :: later := by
      intro rest hrest hasked
      obtain ⟨earlier, happening', own, later, rfl, hby⟩ := ih hasked
      refine ⟨happening :: earlier, happening', own, later, ?_, hby⟩
      rw [hrest, asked, List.append_assoc]
    -- The calls of the first happening end before the call, or they go on behind it.
    rcases List.append_eq_append_iff.mp h with ⟨rest, hrest, hasked⟩ | ⟨rest, hby, hrest⟩
    · exact further rest hrest hasked
    · cases rest with
      | nil =>
        rw [List.append_nil] at hby
        exact further [] (by rw [hby, List.append_nil]) hrest.symm
      | cons first rest =>
        obtain ⟨rfl, -⟩ := List.cons.inj hrest
        exact here before rest rfl hby

/-- **Protocols that agree on the calls** that a happening leads to make the same of it. -/
theorem react_congr (frame : P.SameFrame P') (happening : Happening M)
    (agrees : ∀ call ∈ r.askedBy P happening, P.AgreesOn P' call) :
    r.react P' happening = r.react P happening := by
  cases happening with
  | start | stop | shutdown | deliver _ _ => rfl
  | answer reply =>
    show r.answer P' reply = r.answer P reply
    unfold answer
    split
    · simp only [Engine.Situation.settle_congr frame.tag, Engine.conclude_congr frame.tag]
    · rfl
  | move =>
    show r.move P' = r.move P
    unfold move
    split
    · rfl
    · rename_i e hwaiting
      have hasks : r.askedBy P .move = e.asks P := by rw [askedBy, hwaiting]
      rw [hasks] at agrees
      rw [Engine.advance_congr frame agrees]
      have hgiven : e.given P' = e.given P := by
        unfold Engine.given
        rw [frame.handled]
      split
      · rfl
      · rw [hgiven]
      · rw [hgiven, Engine.Situation.settle_congr frame.tag]

/-- **Protocols that agree on all calls of a run** have the same run. -/
theorem play_congr (frame : P.SameFrame P') {happenings : List (Happening M)}
    (agrees : ∀ call ∈ r.asked P happenings, P.AgreesOn P' call) :
    r.play P' happenings = r.play P happenings := by
  induction happenings generalizing r with
  | nil => rfl
  | cons happening happenings ih =>
    have hreact : r.react P' happening = r.react P happening :=
      react_congr frame happening fun call hcall => agrees call (List.mem_append_left _ hcall)
    show (r.react P' happening).play P' happenings = (r.react P happening).play P happenings
    rw [hreact]
    exact ih fun call hcall => agrees call (List.mem_append_right _ hcall)

end Record

end RankedKeys
