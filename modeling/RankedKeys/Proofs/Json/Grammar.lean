import RankedKeys.Proofs.Json.Reader

/-!
# What is read is spelt

A text is taken apart into tokens only if it spells them, and tokens are read as a value only if
they are the tokens of the value: at every moment the open containers and what may come next tell
which tokens have been read. So the texts that are read as a value are the spellings of its tokens,
no more and no less.

## Main definitions

* `Json.State.tokens`: the tokens that have been read

## Main results

* `Json.exists_words_of_pieces?`, `Json.spells_of_tokens?`: strings and texts that are taken apart
* `Json.tokens_of_step`: one token more has been read
* `Json.read?_eq_some_iff`: the texts that are read as a value
-/

namespace RankedKeys.Json

/-! ## Texts -/

/-- **A string** that is taken apart consists of spellings of its pieces, up to a quote. -/
theorem exists_words_of_pieces? {cs rest : List Char} {pieces : List Piece}
    (h : pieces? cs = some (pieces, rest)) :
    ∃ words, List.Forall₂ Piece.Spelt pieces words ∧ cs = words.flatten ++ '"' :: rest := by
  fun_induction pieces? cs generalizing pieces with
  | case1 cs =>
    cases h
    exact ⟨[], .nil, rfl⟩
  | case2 a b c d cs ih =>
    simp only [Option.bind_eq_bind, Option.bind_eq_some_iff, Option.pure_def, Option.some_inj] at h
    obtain ⟨u, hunit, ⟨later, _⟩, hlater, ⟨⟩⟩ := h
    obtain ⟨words, hwords, rfl⟩ := ih hlater
    exact ⟨_ :: words, .cons (.unit hunit) hwords, rfl⟩
  | case3 e cs _ ih =>
    simp only [Option.bind_eq_bind, Option.bind_eq_some_iff, Option.pure_def, Option.some_inj] at h
    obtain ⟨c, hescape, ⟨later, _⟩, hlater, ⟨⟩⟩ := h
    obtain ⟨words, hwords, rfl⟩ := ih hlater
    exact ⟨_ :: words, .cons (.short hescape) hwords, rfl⟩
  | case4 => cases h
  | case5 c cs quote _ _ visible ih =>
    simp only [Option.bind_eq_bind, Option.bind_eq_some_iff, Option.pure_def, Option.some_inj] at h
    obtain ⟨⟨later, _⟩, hlater, ⟨⟩⟩ := h
    obtain ⟨words, hwords, rfl⟩ := ih hlater
    rw [Bool.or_eq_true, decide_eq_true_eq, beq_iff_eq, not_or] at visible
    exact ⟨_ :: words, .cons (.plain (Nat.le_of_not_lt visible.1) quote visible.2) hwords, rfl⟩
  | case6 => cases h

theorem apart_dropWhile (cs : List Char) : Apart (cs.dropWhile isNumeric) := by
  intro c hc
  have hhead := List.head?_dropWhile_not isNumeric cs
  rw [hc] at hhead
  simpa using hhead

/-- **A token** that is taken off the front of a text is spelt there. -/
theorem spells_of_token? {front rest : List Char} {t : Token} {ts : List Token}
    (h : token? front = some (t, rest)) (hrest : Spells rest ts) : Spells front (t :: ts) := by
  unfold token? at h
  split at h
  case h_7 =>
    simp only [Option.bind_eq_bind, Option.bind_eq_some_iff, Option.pure_def, Option.some_inj] at h
    obtain ⟨⟨pieces, _⟩, hpieces, ⟨⟩⟩ := h
    obtain ⟨words, hwords, rfl⟩ := exists_words_of_pieces? hpieces
    have hspells := Spells.token (.string hwords) hrest
    rwa [List.cons_append, List.append_assoc, List.singleton_append] at hspells
  case h_11 =>
    obtain ⟨number, hnumber, ⟨⟩⟩ := Option.map_eq_some_iff.mp h
    have hspells := Spells.number hnumber (apart_dropWhile front) hrest
    rwa [List.takeWhile_append_dropWhile] at hspells
  case h_1 => cases h; exact .token .openArray hrest
  case h_2 => cases h; exact .token .closeArray hrest
  case h_3 => cases h; exact .token .openObject hrest
  case h_4 => cases h; exact .token .closeObject hrest
  case h_5 => cases h; exact .token .colon hrest
  case h_6 => cases h; exact .token .comma hrest
  case h_8 => cases h; exact .token .null hrest
  case h_9 => cases h; exact .token .true hrest
  case h_10 => cases h; exact .token .false hrest

theorem Spells.blanks {blanks cs : List Char} {ts : List Token}
    (space : ∀ c ∈ blanks, isSpace c = true) (h : Spells cs ts) : Spells (blanks ++ cs) ts := by
  induction blanks with
  | nil => exact h
  | cons c blanks ih =>
    rw [List.forall_mem_cons] at space
    exact .blank space.1 (ih space.2)

/-- **A text** that is taken apart into tokens spells them. -/
theorem spells_of_tokens? {cs : List Char} {ts : List Token} (h : tokens? cs = some ts) :
    Spells cs ts := by
  have upTo : ∀ fuel cs ts, tokensUpTo? fuel cs = some ts → Spells cs ts := by
    intro fuel
    induction fuel with
    | zero =>
      intro cs ts h
      rw [tokensUpTo?, Option.ite_none_right_eq_some, List.all_eq_true] at h
      obtain ⟨hspace, ⟨⟩⟩ := h
      rw [← List.append_nil cs]
      exact .blanks hspace .nil
    | succ fuel ih =>
      intro cs ts h
      rw [← List.takeWhile_append_dropWhile (p := isSpace) (l := cs)]
      refine .blanks (fun c hc => List.mem_takeWhile_imp hc) ?_
      rw [tokensUpTo?] at h
      split at h
      · rename_i heq
        cases h
        rw [heq]
        exact .nil
      · simp only [Option.bind_eq_bind, Option.bind_eq_some_iff, Option.pure_def,
          Option.some_inj] at h
        obtain ⟨⟨t, rest⟩, htoken, later, hlater, rfl⟩ := h
        exact spells_of_token? htoken (ih rest later hlater)
  exact upTo _ cs ts h

deriving instance DecidableEq for Token

/-- Whether a text spells given tokens is decided by taking it apart. -/
instance (cs : List Char) (ts : List Token) : Decidable (Spells cs ts) :=
  decidable_of_iff (tokens? cs = some ts) ⟨spells_of_tokens?, tokens?_of_spells⟩

/-! ## Values -/

/-- The tokens of an open container, up to what is being read. -/
def Frame.tokens : Frame → List Token
  | .items before => .openArray :: before.reverse.flatMap fun v => Json.tokens v ++ [.comma]
  | .members before name => .openObject :: (before.reverse.flatMap fun m =>
      (.string m.1 :: .colon :: Json.tokens m.2) ++ [.comma]) ++ [.string name, .colon]

/-- What has been read since the innermost container that is still open. -/
def Expects.tokens : Expects → List Token
  | .value => []
  | .firstItem => [.openArray]
  | .firstName => [.openObject]
  | .name before => .openObject :: before.reverse.flatMap fun m =>
      (.string m.1 :: .colon :: Json.tokens m.2) ++ [.comma]
  | .colon before last => .openObject :: (before.reverse.flatMap fun m =>
      (.string m.1 :: .colon :: Json.tokens m.2) ++ [.comma]) ++ [.string last]
  | .next v => Json.tokens v

/-- **The tokens that have been read**, outermost container first. -/
def State.tokens (s : State) : List Token :=
  s.stack.reverse.flatMap Frame.tokens ++ s.expects.tokens

theorem itemTokens_append_singleton (items : List Json) (v : Json) :
    itemTokens (items ++ [v]) = (items.flatMap fun w => tokens w ++ [.comma]) ++ tokens v := by
  rw [itemTokens_eq, List.map_append, List.map_singleton, intercalate_append_singleton,
    List.flatMap_map]

theorem memberTokens_append_singleton (members : List (Option String × Json)) (name : Option String)
    (v : Json) :
    memberTokens (members ++ [(name, v)]) = (members.flatMap fun m =>
      (.string m.1 :: .colon :: tokens m.2) ++ [.comma]) ++ .string name :: .colon :: tokens v := by
  rw [memberTokens_eq, List.map_append, List.map_singleton, intercalate_append_singleton,
    List.flatMap_map]

theorem tokens_of_takeValue {stack : List Frame} {t : Token} {s : State}
    (h : State.takeValue stack t = some s) :
    s.tokens = stack.reverse.flatMap Frame.tokens ++ [t] := by
  cases t <;> cases h <;> simp [State.tokens, Expects.tokens, tokens]

theorem tokens_of_takeNext {stack : List Frame} {v : Json} {t : Token} {s : State}
    (h : State.takeNext stack v t = some s) :
    s.tokens = stack.reverse.flatMap Frame.tokens ++ (tokens v ++ [t]) := by
  cases stack with
  | nil => cases h
  | cons frame stack =>
    rw [List.reverse_cons, List.flatMap_append, List.flatMap_singleton]
    cases frame with
    | items before =>
      cases t <;> cases h <;>
        simp [State.tokens, Expects.tokens, Frame.tokens, tokens, itemTokens_append_singleton]
    | members before name =>
      cases t <;> cases h <;>
        simp [State.tokens, Expects.tokens, Frame.tokens, tokens, memberTokens_append_singleton]

/-- **A step** reads one token more. -/
theorem tokens_of_step {s s' : State} {t : Token} (h : s.step t = some s') :
    s'.tokens = s.tokens ++ [t] := by
  rcases s with ⟨stack, expects⟩
  cases expects with
  | value => simpa [State.tokens, Expects.tokens] using tokens_of_takeValue h
  | firstItem =>
    rcases eq_or_ne t .closeArray with rfl | hne
    · cases h
      simp [State.tokens, Expects.tokens, tokens, itemTokens]
    · -- The first item is read like a later one.
      have htake : State.takeValue (.items [] :: stack) t = some s' := by
        cases t <;> first | exact absurd rfl hne | exact h
      simpa [State.tokens, Expects.tokens, Frame.tokens] using tokens_of_takeValue htake
  | firstName =>
    cases t <;> cases h <;> simp [State.tokens, Expects.tokens, tokens, memberTokens]
  | name before =>
    cases t <;> cases h
    simp [State.tokens, Expects.tokens]
  | colon before name =>
    cases t <;> cases h
    simp [State.tokens, Expects.tokens, Frame.tokens]
  | next v => simpa [State.tokens, Expects.tokens] using tokens_of_takeNext h

theorem tokens_of_foldlM {s s' : State} {ts : List Token}
    (h : ts.foldlM State.step s = some s') : s'.tokens = s.tokens ++ ts := by
  induction ts generalizing s with
  | nil =>
    cases h
    exact (List.append_nil _).symm
  | cons t ts ih =>
    rw [List.foldlM_cons, Option.bind_eq_bind, Option.bind_eq_some_iff] at h
    obtain ⟨s₁, hstep, hrest⟩ := h
    rw [ih hrest, tokens_of_step hstep, List.append_assoc, List.singleton_append]

/-- **Tokens** that are read as a value are its tokens. -/
theorem eq_tokens_of_ofTokens? {ts : List Token} {v : Json} (h : ofTokens? ts = some v) :
    ts = tokens v := by
  obtain ⟨s, hread, hresult⟩ := Option.bind_eq_some_iff.mp h
  have htokens := tokens_of_foldlM hread
  unfold State.result? at hresult
  split at hresult
  · cases hresult
    exact htokens.symm
  · cases hresult

/-- **The texts that are read** as a value are those that spell its tokens. -/
theorem read?_eq_some_iff {text : String} {v : Json} :
    read? text = some v ↔ Spells text.toList (tokens v) := by
  refine ⟨fun h => ?_, read?_of_spells⟩
  obtain ⟨ts, htext, hvalue⟩ := Option.bind_eq_some_iff.mp h
  rw [← eq_tokens_of_ofTokens? hvalue]
  exact spells_of_tokens? htext

end RankedKeys.Json
