import Mathlib.Data.List.Forall2
import Mathlib.Data.List.TakeWhile
import RankedKeys.Json.Token

/-!
# The spellings of JSON tokens

A text spells tokens if it is made of spellings of them, with any blanks around; behind a number
stands nothing that numbers are written with. Every such text is taken apart into just these tokens.

## Main definitions

* `Json.Piece.Spelt`, `Json.Token.Spelt`: the spellings of a part of a string and of a token
* `Json.Spells cs ts`: a text that spells tokens

## Main results

* `Json.pieces?_of_spelt`: a string is taken apart into its pieces
* `Json.tokens?_of_spells`: a text is taken apart into the tokens that it spells
-/

namespace RankedKeys.Json

/-! ## Strings -/

/-- **The spellings of a part of a string**. -/
inductive Piece.Spelt : Piece → List Char → Prop
  | plain {c : Char} (visible : 0x20 ≤ c.toNat) (quote : c ≠ '"') (backslash : c ≠ '\\') :
    Spelt (.char c) [c]
  | short {e c : Char} (escape : shortEscape? e = some c) : Spelt (.char c) ['\\', e]
  | unit {a b c d : Char} {u : ℕ} (digits : unit? a b c d = some u) :
    Spelt (.unit u) ['\\', 'u', a, b, c, d]

/-- A part of a string is taken off. -/
theorem pieces?_append {piece : Piece} {word : List Char} (h : piece.Spelt word)
    (cs : List Char) :
    pieces? (word ++ cs) = (pieces? cs).map fun p => (piece :: p.1, p.2) := by
  cases h with
  | @plain c visible quote backslash =>
    have hvisible : ¬ (decide (c.toNat < 0x20) || c == '\\') = true := by
      simpa [backslash] using visible
    rw [List.singleton_append, pieces?.eq_def]
    split
    case h_1 heq => exact absurd (List.cons.inj heq).1 quote
    case h_2 heq => exact absurd (List.cons.inj heq).1 backslash
    case h_3 heq => exact absurd (List.cons.inj heq).1 backslash
    case h_4 heq =>
      obtain ⟨rfl, rfl⟩ := List.cons.inj heq
      rw [if_neg hvisible]
      cases pieces? cs <;> rfl
    case h_5 heq => cases heq
  | @short e c escape =>
    rw [List.cons_append, List.singleton_append, pieces?.eq_def]
    split
    case h_1 heq => cases heq
    case h_2 heq =>
      cases heq
      cases escape
    case h_3 heq =>
      cases heq
      rw [escape]
      cases pieces? cs <;> rfl
    case h_4 other heq =>
      obtain ⟨rfl, rfl⟩ := List.cons.inj heq
      exact (other e cs rfl rfl).elim
    case h_5 heq => cases heq
  | @unit a b c d u digits =>
    show pieces? ('\\' :: 'u' :: a :: b :: c :: d :: cs) = _
    rw [pieces?, digits]
    cases pieces? cs <;> rfl

/-- **A string** is taken apart into its pieces, up to the closing quote. -/
theorem pieces?_of_spelt {pieces : List Piece} {words : List (List Char)}
    (h : List.Forall₂ Piece.Spelt pieces words) (cs : List Char) :
    pieces? (words.flatten ++ '"' :: cs) = some (pieces, cs) := by
  induction h with
  | nil => rfl
  | cons first _ ih =>
    rw [List.flatten_cons, List.append_assoc, pieces?_append first, ih]
    rfl

/-! ## Numbers -/

theorem isNumeric_of_isDigit {c : Char} (h : Text.isDigit c = true) : isNumeric c = true := by
  simp [isNumeric, h]

/-- Digits that are dropped are no other characters than those of numbers, and so on for the other
parts of a number. -/
theorem isNumeric_of_dropDigits? {cs rest : List Char} (h : dropDigits? cs = some rest)
    (hrest : ∀ c ∈ rest, isNumeric c = true) : ∀ c ∈ cs, isNumeric c = true := by
  cases cs with
  | nil => cases h
  | cons c cs =>
    rw [dropDigits?] at h
    split at h
    · rename_i hdigit
      cases h
      refine List.forall_mem_cons.mpr ⟨isNumeric_of_isDigit hdigit, fun x hx => ?_⟩
      rw [← List.takeWhile_append_dropWhile (p := Text.isDigit) (l := cs), List.mem_append] at hx
      rcases hx with hx | hx
      · exact isNumeric_of_isDigit (List.mem_takeWhile_imp hx)
      · exact hrest x hx
    · cases h

theorem isNumeric_of_dropWhole? {cs rest : List Char} (h : dropWhole? cs = some rest)
    (hrest : ∀ c ∈ rest, isNumeric c = true) : ∀ c ∈ cs, isNumeric c = true := by
  unfold dropWhole? at h
  split at h
  · cases h
    exact List.forall_mem_cons.mpr ⟨rfl, hrest⟩
  · exact isNumeric_of_dropDigits? h hrest

theorem isNumeric_of_dropFraction? {cs rest : List Char} (h : dropFraction? cs = some rest)
    (hrest : ∀ c ∈ rest, isNumeric c = true) : ∀ c ∈ cs, isNumeric c = true := by
  unfold dropFraction? at h
  split at h
  · exact List.forall_mem_cons.mpr ⟨rfl, isNumeric_of_dropDigits? h hrest⟩
  · cases h
    exact hrest

theorem isNumeric_of_dropExponent? {cs rest : List Char} (h : dropExponent? cs = some rest)
    (hrest : ∀ c ∈ rest, isNumeric c = true) : ∀ c ∈ cs, isNumeric c = true := by
  unfold dropExponent? at h
  split at h
  · rename_i c _
    split at h
    · rename_i hletter
      have hnumeric : isNumeric c = true := by
        rcases hletter with rfl | rfl <;> rfl
      refine List.forall_mem_cons.mpr ⟨hnumeric, ?_⟩
      split at h
      · exact List.forall_mem_cons.mpr ⟨rfl, isNumeric_of_dropDigits? h hrest⟩
      · exact List.forall_mem_cons.mpr ⟨rfl, isNumeric_of_dropDigits? h hrest⟩
      · exact isNumeric_of_dropDigits? h hrest
    · cases h
      exact hrest
  · cases h
    exact hrest

/-- **A number** is written with the characters of numbers alone. -/
theorem isNumeric_of_isNumber {word : List Char} (h : isNumber word = true) :
    ∀ c ∈ word, isNumeric c = true := by
  obtain ⟨unsigned, hsign, hdrop⟩ : ∃ unsigned, (word = '-' :: unsigned ∨ word = unsigned) ∧
      ((dropWhole? unsigned).bind fun rest => (dropFraction? rest).bind dropExponent?) =
        some [] := by
    unfold isNumber at h
    dsimp only at h
    split at h
    · rename_i rest hdrop
      obtain rfl := List.isEmpty_iff.mp h
      refine ⟨_, ?_, hdrop⟩
      split
      · exact .inl rfl
      · exact .inr rfl
    · exact absurd h Bool.false_ne_true
  obtain ⟨afterWhole, hwhole, hdrop⟩ := Option.bind_eq_some_iff.mp hdrop
  obtain ⟨afterFraction, hfraction, hexponent⟩ := Option.bind_eq_some_iff.mp hdrop
  have hunsigned : ∀ c ∈ unsigned, isNumeric c = true := by
    refine isNumeric_of_dropWhole? hwhole (isNumeric_of_dropFraction? hfraction ?_)
    exact isNumeric_of_dropExponent? hexponent fun c hc => absurd hc List.not_mem_nil
  rcases hsign with rfl | rfl
  · exact List.forall_mem_cons.mpr ⟨rfl, hunsigned⟩
  · exact hunsigned

/-- What stands behind a number: nothing that a number is written with. -/
def Apart (cs : List Char) : Prop :=
  ∀ c, cs.head? = some c → isNumeric c = false

theorem takeWhile_of_apart {word cs : List Char} (h : ∀ c ∈ word, isNumeric c = true)
    (apart : Apart cs) : (word ++ cs).takeWhile isNumeric = word := by
  rw [List.takeWhile_append_of_pos h]
  cases cs with
  | nil => exact List.append_nil word
  | cons c cs => rw [List.takeWhile_cons_of_neg (by simp [apart c rfl]), List.append_nil]

theorem dropWhile_of_apart {word cs : List Char} (h : ∀ c ∈ word, isNumeric c = true)
    (apart : Apart cs) : (word ++ cs).dropWhile isNumeric = cs := by
  rw [List.dropWhile_append_of_pos h]
  cases cs with
  | nil => rfl
  | cons c cs => exact List.dropWhile_cons_of_neg (by simp [apart c rfl])

/-! ## Tokens -/

/-- **The spellings of a token** that is no number. -/
inductive Token.Spelt : Token → List Char → Prop
  | openArray : Spelt .openArray ['[']
  | closeArray : Spelt .closeArray [']']
  | openObject : Spelt .openObject ['\x7b']
  | closeObject : Spelt .closeObject ['\x7d']
  | colon : Spelt .colon [':']
  | comma : Spelt .comma [',']
  | null : Spelt .null ['n', 'u', 'l', 'l']
  | true : Spelt (.bool true) ['t', 'r', 'u', 'e']
  | false : Spelt (.bool false) ['f', 'a', 'l', 's', 'e']
  | string {pieces : List Piece} {words : List (List Char)}
    (spelt : List.Forall₂ Piece.Spelt pieces words) :
    Spelt (.string ((assemble? pieces).map String.ofList)) ('"' :: (words.flatten ++ ['"']))

/-- **A text that spells tokens**, with any blanks around them. -/
inductive Spells : List Char → List Token → Prop
  | nil : Spells [] []
  | blank {c : Char} {cs : List Char} {ts : List Token} (space : isSpace c = true)
    (rest : Spells cs ts) : Spells (c :: cs) ts
  | token {t : Token} {word cs : List Char} {ts : List Token} (spelt : t.Spelt word)
    (rest : Spells cs ts) : Spells (word ++ cs) (t :: ts)
  | number {t : Token} {word cs : List Char} {ts : List Token} (spelt : number? word = some t)
    (apart : Apart cs) (rest : Spells cs ts) : Spells (word ++ cs) (t :: ts)

/-- A token is taken off the front of a text. -/
structure Takes (t : Token) (front rest : List Char) : Prop where
  token? : token? front = some (t, rest)
  /-- No blank stands in front. -/
  head : front.dropWhile isSpace = front
  length : rest.length < front.length

theorem takes_of_spelt {t : Token} {word : List Char} (h : t.Spelt word) (cs : List Char) :
    Takes t (word ++ cs) cs := by
  have hlength : word ≠ [] → cs.length < (word ++ cs).length := by
    intro hne
    have := List.length_pos_iff.mpr hne
    rw [List.length_append]
    omega
  cases h with
  | @string pieces words spelt =>
    refine ⟨?_, rfl, hlength (List.cons_ne_nil _ _)⟩
    have hpieces := pieces?_of_spelt spelt cs
    rw [List.cons_append, List.append_assoc, token?]
    show ((pieces? (words.flatten ++ '"' :: cs)).bind _) = _
    rw [hpieces]
    rfl
  | openArray | closeArray | openObject | closeObject | colon | comma | null | true | false =>
    exact ⟨rfl, rfl, hlength (List.cons_ne_nil _ _)⟩

/-- What begins like a number is read as a number. -/
theorem token?_of_isNumeric {c : Char} (h : isNumeric c = true) (cs : List Char) :
    token? (c :: cs) = (number? ((c :: cs).takeWhile isNumeric)).map
      fun t => (t, (c :: cs).dropWhile isNumeric) := by
  rw [token?.eq_def]
  split
  case h_11 => rfl
  all_goals
    rename_i heq
    cases heq
    cases h

theorem takes_of_number {t : Token} {word cs : List Char} (h : number? word = some t)
    (apart : Apart cs) : Takes t (word ++ cs) cs := by
  have hnumber : isNumber word = true := by
    unfold number? at h
    split at h
    · assumption
    · cases h
  have hnumeric := isNumeric_of_isNumber hnumber
  cases word with
  | nil => cases hnumber
  | cons c word =>
    have hc := hnumeric c List.mem_cons_self
    refine ⟨?_, ?_, ?_⟩
    · rw [List.cons_append, token?_of_isNumeric hc, ← List.cons_append,
        takeWhile_of_apart hnumeric apart, dropWhile_of_apart hnumeric apart, h]
      rfl
    · refine List.dropWhile_cons_of_neg fun hspace => ?_
      -- No blank is a character of numbers.
      simp only [isSpace, Bool.or_eq_true, beq_iff_eq] at hspace
      rcases hspace with ((rfl | rfl) | rfl) | rfl <;> cases hc
    · rw [List.length_append, List.length_cons]
      omega

/-- A text with enough fuel is taken apart into its first token and those of the rest. -/
theorem tokensUpTo?_of_takes {t : Token} {front rest : List Char} (h : Takes t front rest)
    (fuel : ℕ) : tokensUpTo? (fuel + 1) front = (tokensUpTo? fuel rest).map (t :: ·) := by
  rw [tokensUpTo?, h.head]
  cases front with
  | nil => exact absurd h.length (Nat.not_lt_zero _)
  | cons c cs =>
    dsimp only
    rw [h.token?]
    show (tokensUpTo? fuel rest).bind _ = _
    cases tokensUpTo? fuel rest <;> rfl

theorem tokensUpTo?_blank {c : Char} (h : isSpace c = true) (fuel : ℕ) (cs : List Char) :
    tokensUpTo? (fuel + 1) (c :: cs) = tokensUpTo? (fuel + 1) cs := by
  rw [tokensUpTo?, tokensUpTo?, List.dropWhile_cons_of_pos h]

/-- **A text** is taken apart into the tokens that it spells. -/
theorem tokens?_of_spells {cs : List Char} {ts : List Token} (h : Spells cs ts) :
    tokens? cs = some ts := by
  -- Every token takes a character at least, so that the fuel is enough.
  have takes : ∀ {t front rest ts}, Takes t front rest →
      (∀ fuel, rest.length ≤ fuel → tokensUpTo? fuel rest = some ts) →
        ∀ fuel, front.length ≤ fuel → tokensUpTo? fuel front = some (t :: ts) := by
    intro t front rest ts htakes ih fuel hfuel
    have hlength := htakes.length
    obtain ⟨fuel, rfl⟩ : ∃ n, fuel = n + 1 := ⟨fuel - 1, by omega⟩
    rw [tokensUpTo?_of_takes htakes, ih fuel (by omega)]
    rfl
  have enough : ∀ fuel, cs.length ≤ fuel → tokensUpTo? fuel cs = some ts := by
    induction h with
    | nil =>
      intro fuel _
      cases fuel <;> rfl
    | @blank c cs ts space rest ih =>
      intro fuel hfuel
      rw [List.length_cons] at hfuel
      obtain ⟨fuel, rfl⟩ : ∃ n, fuel = n + 1 := ⟨fuel - 1, by omega⟩
      rw [tokensUpTo?_blank space]
      exact ih _ (Nat.le_of_succ_le hfuel)
    | token spelt rest ih => exact takes (takes_of_spelt spelt _) ih
    | number spelt apart rest ih => exact takes (takes_of_number spelt apart) ih
  exact enough cs.length le_rfl

end RankedKeys.Json
