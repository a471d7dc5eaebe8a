import Mathlib.Data.List.Forall2
import RankedKeys.Json.Writer
import RankedKeys.Proofs.Json.Reader
import RankedKeys.Proofs.Text.Decimal

/-!
# What is written is read back

A string is written as a spelling of its text, a number without leading zeros, and a container with
commas between its parts and, in the laid out form, with blanks around them. So both forms of a
value spell its tokens, whatever its depth, and are read as the value; of the values that are
written only those have to be left out whose strings stand for no text, and whose numbers are none.

## Main definitions

* `Json.Written`: the values whose strings and numbers can be written
* `Json.Writes text ts`: a text that spells tokens in front of anything that may follow
* `Json.Lays v`: a value of which both forms spell the tokens

## Main results

* `Json.spelt_quote`, `Json.number?_toString`: the spellings of strings and numbers
* `Json.Writes.commas`: the parts of a container, with commas between them
* `Json.Written.lays`: both forms of a value spell its tokens
* `Json.read?_compact`, `Json.read?_pretty`: they are read back
-/

namespace RankedKeys

theorem Bytes.hexValue?_hexDigit {n : ℕ} (h : n < 16) : hexValue? (hexDigit n) = some n := by
  have hall : ∀ n : Fin 16, hexValue? (hexDigit n) = some n.val := by decide
  exact hall ⟨n, h⟩

namespace Json

/-! ## Strings -/

/-- The form of a character in a string is a spelling of it. -/
theorem exists_piece (c : Char) : ∃ piece : Piece, piece.Spelt (escapeChar c) ∧
    ∀ pieces, assemble? (piece :: pieces) = (assemble? pieces).map (c :: ·) := by
  unfold escapeChar
  split
  case h_8 quote backslash _ _ _ _ _ =>
    split
    · rename_i hcontrol
      -- Two digits are enough for the characters below the space.
      have hdigits : unit? '0' '0' (Bytes.hexDigit (c.toNat / 16))
          (Bytes.hexDigit (c.toNat % 16)) = some c.toNat := by
        have hsum : ((0 * 16 + 0) * 16 + c.toNat / 16) * 16 + c.toNat % 16 = c.toNat := by omega
        rw [unit?, Bytes.hexValue?_hexDigit (by omega), Bytes.hexValue?_hexDigit (by omega)]
        exact congrArg some hsum
      refine ⟨.unit c.toNat, .unit hdigits, fun pieces => ?_⟩
      have hhigh : isHighHalf c.toNat = false := by
        simp [isHighHalf]
        omega
      have hlow : isLowHalf c.toNat = false := by
        simp [isLowHalf]
        omega
      rw [assemble?.eq_def]
      simp only [hhigh, hlow, Bool.false_eq_true, if_false, Char.ofNat_toNat]
    · rename_i hvisible
      exact ⟨.char c, .plain (Nat.le_of_not_lt hvisible) quote backslash, fun _ => rfl⟩
  all_goals exact ⟨.char _, .short rfl, fun _ => rfl⟩

theorem exists_pieces (cs : List Char) : ∃ pieces : List Piece,
    List.Forall₂ Piece.Spelt pieces (cs.map escapeChar) ∧ assemble? pieces = some cs := by
  induction cs with
  | nil => exact ⟨[], .nil, rfl⟩
  | cons c cs ih =>
    obtain ⟨pieces, hspelt, hassemble⟩ := ih
    obtain ⟨piece, hpiece, hcons⟩ := exists_piece c
    refine ⟨piece :: pieces, .cons hpiece hspelt, ?_⟩
    rw [hcons, hassemble]
    rfl

/-- **A text in quotes** is a spelling of it. -/
theorem spelt_quote (s : String) : (Token.string (some s)).Spelt (quote s) := by
  obtain ⟨pieces, hspelt, hassemble⟩ := exists_pieces s.toList
  have hquote := Token.Spelt.string hspelt
  rw [hassemble, Option.map_some, String.ofList_toList, ← List.flatMap_def] at hquote
  exact hquote

/-! ## Numbers -/

/-- No number but zero is written with a leading zero. -/
theorem head?_toDigits {n : ℕ} (h : n ≠ 0) : (Nat.toDigits 10 n).head? ≠ some '0' := by
  induction n using Nat.strong_induction_on with
  | _ n ih =>
    rcases Nat.lt_or_ge n 10 with hlt | hge
    · rw [Nat.toDigits_of_lt_base hlt]
      intro heq
      exact h (Nat.digitChar_eq_zero.mp (Option.some.inj heq))
    · rw [Nat.toDigits_of_base_le (by decide) hge, List.head?_append_of_ne_nil _ Nat.toDigits_ne_nil]
      exact ih (n / 10) (Nat.div_lt_self (by omega) (by decide)) (by omega)

/-- Digits without a leading zero spell a number. -/
theorem isNumber_of_digits {c : Char} {cs : List Char} (hc : Text.isDigit c = true)
    (hcs : ∀ c ∈ cs, Text.isDigit c = true) (lead : c ≠ '0' ∨ cs = []) :
    isNumber (c :: cs) = true := by
  have hwhole : dropWhole? (c :: cs) = some [] := by
    by_cases hzero : c = '0'
    · obtain rfl := lead.resolve_left (not_not.mpr hzero)
      rw [hzero]
      rfl
    · have hdrop : cs.dropWhile Text.isDigit = [] := List.dropWhile_eq_nil_iff.mpr hcs
      rw [dropWhole?.eq_def]
      split
      · rename_i heq
        exact absurd (List.cons.inj heq).1 hzero
      · rw [dropDigits?, if_pos hc, hdrop]
  have hsign : c ≠ '-' := by
    rintro rfl
    cases hc
  rw [isNumber.eq_def]
  split
  · rename_i heq
    exact absurd (List.cons.inj heq).1 hsign
  · dsimp only
    rw [hwhole]
    rfl

theorem isNumber_toDigits (n : ℕ) : isNumber (Nat.toDigits 10 n) = true := by
  cases hdigits : Nat.toDigits 10 n with
  | nil => exact absurd hdigits Nat.toDigits_ne_nil
  | cons c cs =>
    have hall : ∀ x ∈ c :: cs, Text.isDigit x = true :=
      fun x hx => Text.isDigit_of_mem_toDigits (hdigits ▸ hx)
    rw [List.forall_mem_cons] at hall
    refine isNumber_of_digits hall.1 hall.2 ?_
    rcases eq_or_ne n 0 with rfl | hn
    · right
      cases hdigits
      rfl
    · left
      rintro rfl
      exact head?_toDigits hn (by rw [hdigits]; rfl)

/-- **A number** is written as a spelling of it. -/
theorem number?_toString (n : ℕ) : number? (toString n).toList = some (.natural n) := by
  have hdigits : (Nat.toDigits 10 n).all Text.isDigit = true :=
    List.all_eq_true.mpr fun c hc => Text.isDigit_of_mem_toDigits hc
  rw [Nat.toString_eq_ofList_toDigits, String.toList_ofList, number?, if_pos (isNumber_toDigits n),
    if_pos hdigits, Text.digitsValue_toDigits]

/-! ## Containers -/

/-- **The values that can be written**: a string stands for a text, and a number that is not natural
is spelt as one. -/
inductive Written : Json → Prop
  | null : Written .null
  | bool (b : Bool) : Written (.bool b)
  | natural (n : ℕ) : Written (.natural n)
  | decimal {spelling : List Char} (number : number? spelling = some (.decimal spelling)) :
    Written (.decimal spelling)
  | str (s : String) : Written (.str s)
  | array {items : List Json} (values : ∀ v ∈ items, Written v) : Written (.array items)
  | object {members : List (Option String × Json)}
    (names : ∀ m ∈ members, m.1.isSome = true) (values : ∀ m ∈ members, Written m.2) :
    Written (.object members)

theorem Written.obj {members : List (String × Json)} (h : ∀ m ∈ members, Written m.2) :
    Written (.obj members) := by
  refine .object ?_ ?_
  · exact List.forall_mem_map.mpr fun _ _ => rfl
  · exact List.forall_mem_map.mpr h

/-- **A text that writes tokens**: it spells them in front of anything that may follow. -/
def Writes (text : List Char) (ts : List Token) : Prop :=
  ∀ (rest : List Char) (more : List Token), Apart rest → Spells rest more →
    Spells (text ++ rest) (ts ++ more)

theorem apart_cons {c : Char} (h : isNumeric c = false) (cs : List Char) : Apart (c :: cs) := by
  rintro _ ⟨⟩
  exact h

theorem spells_newLine {rest : List Char} {ts : List Token} (h : Spells rest ts) (depth : ℕ) :
    Spells (newLine depth ++ rest) ts := by
  have hspaces : ∀ n : ℕ, Spells (List.replicate n ' ' ++ rest) ts := by
    intro n
    induction n with
    | zero => exact h
    | succ n ih => exact .blank rfl ih
  exact .blank rfl (hspaces (2 * depth))

namespace Writes

variable {text text' : List Char} {ts ts' : List Token}

theorem nil : Writes [] [] := fun _ _ _ hrest => hrest

theorem token {t : Token} (spelt : t.Spelt text) : Writes text [t] :=
  fun _ _ _ hrest => .token spelt hrest

theorem number {t : Token} (spelt : number? text = some t) : Writes text [t] :=
  fun _ _ apart hrest => .number spelt apart hrest

theorem space (h : Writes text ts) : Writes (' ' :: text) ts :=
  fun rest more apart hrest => .blank rfl (h rest more apart hrest)

theorem newLine_append (h : Writes text ts) (depth : ℕ) : Writes (newLine depth ++ text) ts := by
  intro rest more apart hrest
  rw [List.append_assoc]
  exact spells_newLine (h rest more apart hrest) depth

theorem append_newLine (h : Writes text ts) (depth : ℕ) : Writes (text ++ newLine depth) ts := by
  intro rest more _ hrest
  rw [List.append_assoc]
  exact h _ _ (apart_cons rfl _) (spells_newLine hrest depth)

/-- A mark keeps what stands in front of it apart from what follows. -/
theorem append_mark {t : Token} {c : Char} (spelt : t.Spelt [c]) (apart : isNumeric c = false)
    (h : Writes text ts) (h' : Writes text' ts') :
    Writes (text ++ c :: text') (ts ++ t :: ts') := by
  intro rest more hrest hmore
  have hmark : Spells ([c] ++ (text' ++ rest)) (t :: (ts' ++ more)) :=
    .token spelt (h' rest more hrest hmore)
  rw [List.append_assoc, List.append_assoc]
  exact h _ _ (apart_cons apart _) hmark

/-- What stands between the brackets of an array. -/
theorem inArray (h : Writes text ts) :
    Writes ('[' :: text ++ [']']) (.openArray :: (ts ++ [.closeArray])) :=
  append_mark .openArray rfl nil (append_mark .closeArray rfl h nil)

/-- What stands between the brackets of an object. -/
theorem inObject (h : Writes text ts) :
    Writes ('\x7b' :: text ++ ['\x7d']) (.openObject :: (ts ++ [.closeObject])) :=
  append_mark .openObject rfl nil (append_mark .closeObject rfl h nil)

/-- A name and what stands behind its colon. -/
theorem member {name : Option String} (whole : name.isSome = true) (h : Writes text ts) :
    Writes (quote? name ++ ':' :: text) (.string name :: .colon :: ts) := by
  obtain ⟨s, rfl⟩ := Option.isSome_iff_exists.mp whole
  exact append_mark .colon rfl (token (spelt_quote s)) h

/-- **Parts with commas between them**. -/
theorem commas {α : Type} {text : α → List Char} {ts : α → List Token} {parts : List α}
    (h : ∀ a ∈ parts, Writes (text a) (ts a)) :
    Writes ([','].intercalate (parts.map text)) ([Token.comma].intercalate (parts.map ts)) := by
  induction parts with
  | nil => exact nil
  | cons a parts ih =>
    rw [List.forall_mem_cons] at h
    cases parts with
    | nil => simpa using h.1
    | cons b parts =>
      simp only [List.map_cons, List.intercalate_cons_cons, List.append_assoc]
      exact append_mark .comma rfl h.1 (ih h.2)

end Writes

theorem compactItems_eq (items : List Json) :
    compactItems items = [','].intercalate (items.map compactText) :=
  eq_intercalate (by rw [compactItems]) (fun _ => by rw [compactItems])
    (fun _ _ _ => by rw [compactItems]) items

theorem compactMembers_eq (members : List (Option String × Json)) :
    compactMembers members = [','].intercalate
      (members.map fun m => quote? m.1 ++ ':' :: compactText m.2) :=
  eq_intercalate (by rw [compactMembers]) (fun _ => by rw [compactMembers])
    (fun _ _ _ => by rw [compactMembers]) members

theorem prettyItems_eq (depth : ℕ) (items : List Json) :
    prettyItems depth items = [','].intercalate
      (items.map fun v => newLine depth ++ prettyText depth v) :=
  eq_intercalate (by rw [prettyItems]) (fun _ => by rw [prettyItems])
    (fun _ _ _ => by rw [prettyItems]) items

theorem prettyMembers_eq (depth : ℕ) (members : List (Option String × Json)) :
    prettyMembers depth members = [','].intercalate (members.map fun m =>
      newLine depth ++ (quote? m.1 ++ ':' :: ' ' :: prettyText depth m.2)) :=
  eq_intercalate (by rw [prettyMembers]) (fun _ => by rw [prettyMembers, List.append_assoc])
    (fun _ _ _ => by simp only [prettyMembers, List.append_assoc]) members

/-- **Both forms of a value** write its tokens, the laid out one at any depth. -/
structure Lays (v : Json) : Prop where
  compact : Writes (compactText v) (tokens v)
  pretty : ∀ depth, Writes (prettyText depth v) (tokens v)

theorem Lays.array {items : List Json} (h : ∀ v ∈ items, Lays v) : Lays (.array items) where
  compact := by
    rw [compactText, tokens, compactItems_eq, itemTokens_eq]
    exact .inArray (.commas fun v hv => (h v hv).compact)
  pretty depth := by
    cases items with
    | nil => exact .inArray .nil
    | cons v items =>
      rw [prettyText, tokens, prettyItems_eq, itemTokens_eq]
      exact .inArray (.append_newLine
        (.commas fun w hw => .newLine_append ((h w hw).pretty (depth + 1)) _) depth)

theorem Lays.object {members : List (Option String × Json)}
    (names : ∀ m ∈ members, m.1.isSome = true) (h : ∀ m ∈ members, Lays m.2) :
    Lays (.object members) where
  compact := by
    rw [compactText, tokens, compactMembers_eq, memberTokens_eq]
    exact .inObject (.commas fun m hm => .member (names m hm) (h m hm).compact)
  pretty depth := by
    cases members with
    | nil => exact .inObject .nil
    | cons m members =>
      rw [prettyText, tokens, prettyMembers_eq, memberTokens_eq]
      exact .inObject (.append_newLine (.commas fun m' hm' => .newLine_append
        (.member (names m' hm') (.space ((h m' hm').pretty (depth + 1)))) _) depth)

/-- **What is written** spells the tokens of the value, in either form. -/
theorem Written.lays {v : Json} (h : Written v) : Lays v := by
  induction h with
  | null => exact ⟨.token .null, fun _ => .token .null⟩
  | bool b =>
    cases b with
    | true => exact ⟨.token .true, fun _ => .token .true⟩
    | false => exact ⟨.token .false, fun _ => .token .false⟩
  | natural n => exact ⟨.number (number?_toString n), fun _ => .number (number?_toString n)⟩
  | decimal number => exact ⟨.number number, fun _ => .number number⟩
  | str s => exact ⟨.token (spelt_quote s), fun _ => .token (spelt_quote s)⟩
  | array values ih => exact .array ih
  | object names values ih => exact .object names ih

theorem read?_of_writes {text : List Char} {v : Json} (h : Writes text (tokens v)) :
    read? (String.ofList text) = some v := by
  refine read?_of_spells ?_
  have hspells := h [] [] (fun _ hc => nomatch hc) .nil
  rwa [List.append_nil, List.append_nil, ← String.toList_ofList (l := text)] at hspells

/-- **What is written** in the compact form is read back. -/
theorem read?_compact {v : Json} (h : Written v) : read? v.compact = some v :=
  read?_of_writes h.lays.compact

/-- **What is written** in the laid out form is read back. -/
theorem read?_pretty {v : Json} (h : Written v) : read? v.pretty = some v :=
  read?_of_writes (h.lays.pretty 0)

end Json

end RankedKeys
