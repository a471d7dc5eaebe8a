import Mathlib.Tactic.SplitIfs
import RankedKeys.Proofs.Files
import RankedKeys.Text.Order

/-!
# The order of texts is that of their bytes

Texts are compared by code points. UTF-8 writes a greater code point with greater bytes, at the
first place where the two differ and before either of them ends, so comparing the bytes gives the
same answer.

## Main definitions

* `Text.BytesPrecede`: the order of texts by their bytes

## Main results

* `Text.atMost_trans`, `Text.atMost_total`, `Text.atMost_antisymm`: the order in which a text may
  stand before an equal one is total
* `Bytes.ofText_eq_flatMap`: the bytes of a text are those of its characters
* `Text.lex_utf8EncodeChar`: a greater code point has greater bytes, whatever follows
* `Text.precedes_iff`: a text precedes another exactly if its bytes do
-/

namespace RankedKeys

/-- The bytes of a text are those of its characters. -/
theorem Bytes.ofText_eq_flatMap (s : String) :
    ofText s = s.toList.flatMap String.utf8EncodeChar := by
  have hbytes : s.toByteArray = s.toList.utf8Encode := by
    rw [← String.toByteArray_ofList, String.ofList_toList]
  rw [ofText, toList_eq_toList_data, String.toUTF8_eq_toByteArray, hbytes]
  exact List.toList_data_toByteArray

namespace Text

/-! ## A total order -/

theorem not_precedes_of_precedes {s t : String} (h : precedes s t = true) :
    ¬ precedes t s = true := by
  intro h'
  have hirrefl := precedes_trans h h'
  rw [precedes_irrefl] at hirrefl
  cases hirrefl

/-- A text may stand before another if it does, or if they are equal. -/
theorem atMost_iff {s t : String} : atMost s t = true ↔ precedes s t = true ∨ s = t := by
  rw [atMost, Bool.not_eq_true', ← Bool.not_eq_true]
  constructor
  · intro h
    rcases precedes_total s t with hst | rfl | hts
    · exact .inl hst
    · exact .inr rfl
    · exact absurd hts h
  · rintro (hst | rfl)
    · exact not_precedes_of_precedes hst
    · simp [precedes_irrefl]

theorem atMost_trans (s t u : String) (h : atMost s t = true) (h' : atMost t u = true) :
    atMost s u = true := by
  rw [atMost_iff] at h h' ⊢
  rcases h with hst | rfl
  · rcases h' with htu | rfl
    · exact .inl (precedes_trans hst htu)
    · exact .inl hst
  · exact h'

theorem atMost_total (s t : String) : atMost s t = true ∨ atMost t s = true := by
  rw [atMost_iff, atMost_iff]
  rcases precedes_total s t with h | h | h
  · exact .inl (.inl h)
  · exact .inl (.inr h)
  · exact .inr (.inl h)

theorem atMost_antisymm {s t : String} (h : atMost s t = true) (h' : atMost t s = true) :
    s = t := by
  rw [atMost_iff] at h h'
  rcases h with hst | rfl
  · exact (h'.resolve_left (not_precedes_of_precedes hst)).symm
  · rfl

/-! ## Bytes -/

/-- **A greater code point** has greater bytes, at a place that both characters have. -/
theorem lex_utf8EncodeChar {a b : Char} (h : a.toNat < b.toNat) (as bs : Bytes) :
    List.Lex (· < ·) (String.utf8EncodeChar a ++ as) (String.utf8EncodeChar b ++ bs) := by
  have ha : a.val.toNat = a.toNat := rfl
  have hb : b.val.toNat = b.toNat := rfl
  have hlt : b.toNat < 0x110000 := by
    have := b.valid
    unfold UInt32.isValidChar Nat.isValidChar at this
    omega
  simp only [String.utf8EncodeChar, ha, hb]
  generalize a.toNat = m at *
  generalize b.toNat = n at *
  -- A longer form has a greater first byte; forms of one length are the digits to the base 64.
  split_ifs <;>
    simp (disch := omega) only [List.cons_append, List.nil_append, List.cons_lex_cons_iff,
      UInt8.lt_iff_toNat_lt, ← UInt8.toNat_inj, UInt8.toNat_ofNat', Nat.mod_eq_of_lt] <;>
    omega

/-- A list of characters that comes before another does so by its bytes. -/
theorem lex_flatMap_of_comesBefore {as bs : List Char} (h : comesBefore as bs = true) :
    List.Lex (· < ·) (as.flatMap String.utf8EncodeChar) (bs.flatMap String.utf8EncodeChar) := by
  induction as generalizing bs with
  | nil =>
    cases bs with
    | nil => simp [comesBefore] at h
    | cons b bs =>
      -- A character takes at least one byte.
      obtain ⟨first, rest, heq⟩ := List.exists_cons_of_length_pos
        (Nat.lt_of_lt_of_eq b.utf8Size_pos (String.length_utf8EncodeChar b).symm)
      rw [List.flatMap_nil, List.flatMap_cons, heq]
      exact .nil
  | cons a as ih =>
    cases bs with
    | nil => simp [comesBefore] at h
    | cons b bs =>
      simp only [comesBefore, Bool.or_eq_true, decide_eq_true_eq, Bool.and_eq_true,
        beq_iff_eq] at h
      rw [List.flatMap_cons, List.flatMap_cons]
      rcases h with h | ⟨rfl, h⟩
      · exact lex_utf8EncodeChar h _ _
      · exact List.append_left_lt (ih h)

/-- The order of texts by their UTF-8 bytes, as words in a dictionary. -/
def BytesPrecede (s t : String) : Prop :=
  List.Lex (· < ·) (Bytes.ofText s) (Bytes.ofText t)

/-- **The order of texts** is the order of their bytes. -/
theorem precedes_iff {s t : String} : precedes s t = true ↔ BytesPrecede s t := by
  have hlex : ∀ {s t : String}, precedes s t = true → Bytes.ofText s < Bytes.ofText t := by
    intro s t h
    rw [Bytes.ofText_eq_flatMap, Bytes.ofText_eq_flatMap]
    exact lex_flatMap_of_comesBefore h
  refine ⟨hlex, fun h => ?_⟩
  rcases precedes_total s t with hst | rfl | hts
  · exact hst
  · exact absurd h (List.lt_irrefl _)
  · exact absurd h (List.lt_asymm (hlex hts))

end Text

end RankedKeys
