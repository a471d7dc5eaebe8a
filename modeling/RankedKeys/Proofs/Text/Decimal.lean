import Mathlib.Data.List.TakeWhile
import RankedKeys.Proofs.Curve.Encoding

/-!
# Numbers survive their decimal form

A number is written with the digits of its base ten representation, without blanks and without
leading zeros, and they denote it again. A number that fits in some bytes is read back into these
bytes, and so are scalars and public keys: their numbers are below the order and the prime.

## Main results

* `Text.natural?_toString`: a number is read back from its digits
* `Bytes.width_le_iff`: the numbers that fit in some bytes
* `Text.decimalToBytes_toString`: a number that fits is read back into bytes
* `Curve.scalarOfDecimal_scalarToDecimal`, `PublicKey.ofDecimal_toDecimal`: scalars and public keys
  are read back
-/

namespace RankedKeys

/-! ## Digits -/

namespace Text

theorem isDigit_iff {c : Char} : isDigit c = true ↔ 48 ≤ c.toNat ∧ c.toNat ≤ 57 := by
  rw [isDigit, Bool.and_eq_true, decide_eq_true_iff, decide_eq_true_iff]
  exact Iff.rfl

/-- The digits of a number denote it. -/
theorem digitsValue_toDigits (n : ℕ) : digitsValue (Nat.toDigits 10 n) = n :=
  Nat.ofDigitChars_eq_foldl.symm.trans Nat.ofDigitChars_ten_toDigits

theorem isDigit_of_mem_toDigits {n : ℕ} {c : Char} (h : c ∈ Nat.toDigits 10 n) :
    isDigit c = true := by
  have hdigit := Nat.isDigit_of_mem_toDigits (by decide) le_rfl h
  rw [Char.isDigit, Bool.and_eq_true, decide_eq_true_iff, decide_eq_true_iff] at hdigit
  exact isDigit_iff.mpr hdigit

/-- No digit is a blank. -/
theorem isBlank_of_isDigit {c : Char} (h : isDigit c = true) : isBlank c = false := by
  have := isDigit_iff.mp h
  simp only [isBlank, blankRanges, List.any_cons, List.any_nil, Bool.or_false, Bool.or_eq_false_iff,
    Bool.and_eq_false_iff, decide_eq_false_iff_not]
  omega

/-- A text without blanks is left as it is. -/
theorem trimBlanks_eq_self {cs : List Char} (h : ∀ c ∈ cs, isBlank c = false) :
    trimBlanks cs = cs := by
  have hdrop : ∀ list : List Char, (∀ c ∈ list, c ∈ cs) → list.dropWhile isBlank = list := by
    intro list hsub
    refine List.dropWhile_eq_self_iff.mpr fun hpos => ?_
    rw [h _ (hsub _ (List.getElem_mem hpos))]
    exact Bool.false_ne_true
  rw [trimBlanks, hdrop cs fun _ => id, hdrop cs.reverse fun _ => List.mem_reverse.mp,
    List.reverse_reverse]

/-- **A number** is read back from its digits. -/
theorem natural?_toString (n : ℕ) : natural? (toString n).toList = some n := by
  have hdigit : ∀ c ∈ Nat.toDigits 10 n, isDigit c = true := fun c => isDigit_of_mem_toDigits
  have htrim := trimBlanks_eq_self fun c hc => isBlank_of_isDigit (hdigit c hc)
  rw [Nat.toString_eq_ofList_toDigits, String.toList_ofList, natural?, htrim, digitsValue_toDigits]
  exact if_pos ⟨Nat.toDigits_ne_nil, List.all_eq_true.mpr hdigit⟩

end Text

/-! ## Numbers of bytes -/

/-- **The numbers that fit** in some bytes, one at least. -/
theorem Bytes.width_le_iff {length n : ℕ} (h : 1 ≤ length) :
    width n ≤ length ↔ n < count length := by
  have hcount : count length = 2 ^ (8 * length) := by
    rw [count, pow_mul]
    rfl
  rw [width, hcount]
  rcases eq_or_ne n 0 with rfl | hn
  · simp
    omega
  · have hlog : n.log2 / 8 + 1 ≤ length ↔ n.log2 < 8 * length := by omega
    rw [hlog, Nat.log2_lt hn]

/-- **A number that fits** is read back into bytes. -/
theorem Text.decimalToBytes_toString {length n : ℕ} (hlength : 1 ≤ length)
    (h : n < Bytes.count length) :
    decimalToBytes (toString n) length = .ok (Bytes.ofNat length n) := by
  rw [decimalToBytes, natural?_toString]
  exact if_pos ((Bytes.width_le_iff hlength).mpr h)

/-- A number that is written as bytes and then in decimal form is read back. -/
theorem Text.decimalToBytes_bytesToDecimal {length n : ℕ} (hlength : 1 ≤ length)
    (h : n < Bytes.count length) :
    decimalToBytes (bytesToDecimal (Bytes.ofNat length n)) length = .ok (Bytes.ofNat length n) := by
  rw [bytesToDecimal, Bytes.toNat_ofNat h, decimalToBytes_toString hlength h]

/-! ## Scalars and public keys -/

variable {c : Curve}

/-- **Scalars** are read back from their decimal form. -/
theorem Curve.scalarOfDecimal_scalarToDecimal (s : c.Scalar) :
    c.scalarOfDecimal (scalarToDecimal s) = .ok s := by
  have hlt : s.val < Bytes.count fieldWidth := s.val_lt.trans_le c.order_le
  have hbytes : Text.decimalToBytes (scalarToDecimal s) fieldWidth = .ok (scalarBytes s) :=
    Text.decimalToBytes_bytesToDecimal (by decide) hlt
  have hval : Bytes.toNat (scalarBytes s) = s.val := Bytes.toNat_ofNat hlt
  rw [scalarOfDecimal, hbytes]
  simp only [bind, Except.bind, hval, Residue.ofNat?_val]

/-- **Public keys** are read back from the decimal forms of their coordinates. -/
theorem PublicKey.ofDecimal_toDecimal (key : PublicKey c) :
    ofDecimal c key.toDecimal.1 key.toDecimal.2 = .ok key := by
  have hcoordinate : ∀ x : c.Base, x.val < Bytes.count fieldWidth :=
    fun x => x.val_lt.trans_le c.prime_le
  have hread : ∀ x : c.Base, Text.decimalToBytes
      (Text.bytesToDecimal (Bytes.ofNat fieldWidth x.val)) fieldWidth =
        .ok (Bytes.ofNat fieldWidth x.val) :=
    fun x => Text.decimalToBytes_bytesToDecimal (by decide) (hcoordinate x)
  have hkey : ofNats? c key.x.val key.y.val = some key := by
    simp only [ofNats?, Residue.ofNat?_val, bind, Option.bind]
    exact dif_pos key.holds
  rw [ofDecimal, toDecimal, hread, hread]
  simp only [bind, Except.bind, Bytes.toNat_ofNat (hcoordinate _), hkey]

end RankedKeys
