import Mathlib.Data.Nat.Digits.Lemmas
import RankedKeys.Proofs.Text.Decimal

/-!
# The texts that spell a number

A number may be written with blanks around it and with any leading zeros. The texts that are read as
a number are these and no others, and what is written for the number then is the same digits without
the blanks and without the leading zeros. So decimal text and byte strings of a given length stand
for each other as far as the numbers fit.

## Main definitions

* `Text.Numeral digits cs`: a text that consists of digits with any blanks around them
* `Text.denoted`: the number that digits denote in base ten
* `Text.plainDigits`: digits without leading zeros

## Main results

* `Text.natural?_eq_some_iff`: the texts that are read as a number
* `Text.toString_denoted`: the number of some digits is written with these digits
* `Text.decimalToBytes_eq_ok_iff`: the texts that are read into bytes
* `Text.decimalToBytes_exact`: reading and writing between decimal text and bytes
-/

namespace RankedKeys

namespace Text

/-- **A text that spells a number**: ASCII digits, one at least, with any blanks around them. -/
inductive Numeral (digits : List Char) : List Char → Prop
  | intro {before after : List Char} (blanks : ∀ c ∈ before ++ after, isBlank c = true)
    (nonempty : digits ≠ []) (all : ∀ c ∈ digits, isDigit c = true) :
    Numeral digits (before ++ digits ++ after)

/-- The number that digits denote in base ten; the last one is that of the units. -/
def denoted (digits : List Char) : ℕ :=
  Nat.ofDigits 10 (digits.reverse.map fun c => c.toNat - '0'.toNat)

/-- Digits without leading zeros; zero keeps one. -/
def plainDigits (digits : List Char) : List Char :=
  match digits.dropWhile (· == '0') with
  | [] => ['0']
  | c :: rest => c :: rest

/-! ## Blanks -/

theorem exists_dropWhile_isBlank (cs : List Char) :
    ∃ blanks, (∀ c ∈ blanks, isBlank c = true) ∧ cs = blanks ++ cs.dropWhile isBlank :=
  ⟨cs.takeWhile isBlank, fun _ hc => List.mem_takeWhile_imp hc,
    List.takeWhile_append_dropWhile.symm⟩

/-- What has been trimmed off at the two ends is blank. -/
theorem exists_trimBlanks (cs : List Char) : ∃ before after,
    (∀ c ∈ before ++ after, isBlank c = true) ∧ cs = before ++ trimBlanks cs ++ after := by
  obtain ⟨before, hbefore, hcs⟩ := exists_dropWhile_isBlank cs
  obtain ⟨after, hafter, hrest⟩ := exists_dropWhile_isBlank (cs.dropWhile isBlank).reverse
  refine ⟨before, after.reverse, ?_, ?_⟩
  · intro c hc
    rcases List.mem_append.mp hc with hc | hc
    · exact hbefore c hc
    · exact hafter c (List.mem_reverse.mp hc)
  · rw [trimBlanks, List.append_assoc, ← List.reverse_append, ← hrest, List.reverse_reverse]
    exact hcs

/-- A text that neither begins nor ends with a blank is what trimming leaves of it between
blanks. -/
theorem trimBlanks_append {before cs after : List Char}
    (blanks : ∀ c ∈ before ++ after, isBlank c = true) (nonempty : cs ≠ [])
    (visible : ∀ c ∈ cs, isBlank c = false) : trimBlanks (before ++ cs ++ after) = cs := by
  have hdrop : ∀ blanks rest : List Char, (∀ c ∈ blanks, isBlank c = true) → rest ≠ [] →
      (∀ c, rest.head? = some c → isBlank c = false) →
        (blanks ++ rest).dropWhile isBlank = rest := by
    intro blanks rest hblanks hrest hhead
    rw [List.dropWhile_append_of_pos hblanks]
    cases rest with
    | nil => exact absurd rfl hrest
    | cons c rest => exact List.dropWhile_cons_of_neg (by simp [hhead c rfl])
  rw [List.forall_mem_append] at blanks
  have hfront : (before ++ cs ++ after).dropWhile isBlank = cs ++ after := by
    rw [List.append_assoc]
    refine hdrop before (cs ++ after) blanks.1 (by simp [nonempty]) ?_
    intro c hc
    rw [List.head?_append_of_ne_nil _ nonempty] at hc
    exact visible c (List.mem_of_mem_head? hc)
  have hback : (cs ++ after).reverse.dropWhile isBlank = cs.reverse := by
    rw [List.reverse_append]
    refine hdrop after.reverse cs.reverse ?_ (by simpa using nonempty) ?_
    · intro c hc
      exact blanks.2 c (List.mem_reverse.mp hc)
    · intro c hc
      exact visible c (List.mem_reverse.mp (List.mem_of_mem_head? hc))
  rw [trimBlanks, hfront, hback, List.reverse_reverse]

theorem Numeral.trimBlanks_eq {digits cs : List Char} (h : Numeral digits cs) :
    trimBlanks cs = digits := by
  cases h with
  | intro blanks nonempty all =>
    exact trimBlanks_append blanks nonempty fun c hc => isBlank_of_isDigit (all c hc)

theorem Numeral.all_isDigit {digits cs : List Char} (h : Numeral digits cs) :
    ∀ c ∈ digits, isDigit c = true := by
  cases h with
  | intro _ _ all => exact all

/-! ## Digits -/

theorem denoted_append_singleton (digits : List Char) (c : Char) :
    denoted (digits ++ [c]) = 10 * denoted digits + (c.toNat - '0'.toNat) := by
  simp [denoted, Nat.ofDigits_cons, Nat.add_comm]

theorem digitsValue_eq_denoted (digits : List Char) : digitsValue digits = denoted digits := by
  induction digits using List.reverseRecOn with
  | nil => rfl
  | append_singleton digits c ih =>
    rw [denoted_append_singleton, ← ih, digitsValue, List.foldl_append]
    rfl

/-- **The texts that are read as a number** are those that spell it. -/
theorem natural?_eq_some_iff {cs : List Char} {n : ℕ} :
    natural? cs = some n ↔ ∃ digits, Numeral digits cs ∧ denoted digits = n := by
  simp only [natural?, Option.ite_none_right_eq_some, Option.some_inj, digitsValue_eq_denoted,
    List.all_eq_true]
  constructor
  · rintro ⟨⟨hsome, hall⟩, hvalue⟩
    obtain ⟨before, after, hblanks, hcs⟩ := exists_trimBlanks cs
    refine ⟨trimBlanks cs, ?_, hvalue⟩
    have hnumeral := Numeral.intro hblanks hsome hall
    rwa [← hcs] at hnumeral
  · rintro ⟨digits, hnumeral, hvalue⟩
    rw [hnumeral.trimBlanks_eq]
    cases hnumeral with
    | intro blanks nonempty all => exact ⟨⟨nonempty, all⟩, hvalue⟩

/-- A digit is written for its own value. -/
theorem digitChar_of_isDigit {c : Char} (h : isDigit c = true) :
    Nat.digitChar (c.toNat - '0'.toNat) = c := by
  have hall : ∀ d : Fin 10, (Nat.digitChar d).toNat = 48 + d := by decide
  obtain ⟨hlow, hhigh⟩ := isDigit_iff.mp h
  have hzero : '0'.toNat = 48 := rfl
  apply Char.toNat_inj.mp
  rw [hzero, hall ⟨c.toNat - 48, by omega⟩]
  exact Nat.add_sub_cancel' hlow

/-- **Digits without a leading zero** are those that their number is written with. -/
theorem toDigits_denoted {digits : List Char} (all : ∀ c ∈ digits, isDigit c = true)
    (nonempty : digits ≠ []) (lead : digits.head? ≠ some '0') :
    Nat.toDigits 10 (denoted digits) = digits := by
  induction digits using List.reverseRecOn with
  | nil => exact absurd rfl nonempty
  | append_singleton digits c ih =>
    rw [List.forall_mem_append] at all
    have hc : isDigit c = true := all.2 c (List.mem_singleton.mpr rfl)
    have hlt : c.toNat - '0'.toNat < 10 := by
      have hhigh := (isDigit_iff.mp hc).2
      have hzero : '0'.toNat = 48 := rfl
      omega
    have hlast : Nat.toDigits 10 (c.toNat - '0'.toNat) = [c] := by
      rw [Nat.toDigits_of_lt_base hlt, digitChar_of_isDigit hc]
    rw [denoted_append_singleton]
    rcases eq_or_ne digits [] with rfl | hdigits
    · rw [List.nil_append, ← hlast]
      simp [denoted]
    · rw [List.head?_append_of_ne_nil _ hdigits] at lead
      have hprefix := ih all.1 hdigits lead
      have hpos : 0 < denoted digits := by
        rcases Nat.eq_zero_or_pos (denoted digits) with hzero | hpos
        · -- Otherwise the digits before the last one were a single zero.
          rw [hzero, Nat.toDigits_zero] at hprefix
          exact absurd (congrArg List.head? hprefix.symm) lead
        · exact hpos
      rw [← Nat.toDigits_append_toDigits (by decide) hpos hlt, hprefix, hlast]

/-- Leading zeros do not count. -/
theorem denoted_dropWhile (digits : List Char) :
    denoted (digits.dropWhile (· == '0')) = denoted digits := by
  induction digits with
  | nil => rfl
  | cons c digits ih =>
    by_cases hc : c = '0'
    · subst hc
      rw [List.dropWhile_cons_of_pos (by simp), ih]
      simp [denoted, Nat.ofDigits_append]
    · rw [List.dropWhile_cons_of_neg (by simpa using hc)]

/-- **The number of some digits** is written with these digits, without leading zeros. -/
theorem toString_denoted {digits : List Char} (all : ∀ c ∈ digits, isDigit c = true) :
    toString (denoted digits) = String.ofList (plainDigits digits) := by
  rw [Nat.toString_eq_ofList_toDigits, ← denoted_dropWhile, plainDigits]
  have hlead : (digits.dropWhile (· == '0')).head? ≠ some '0' := by
    intro hhead
    have hnot := List.head?_dropWhile_not (· == '0') digits
    rw [hhead] at hnot
    simp at hnot
  have hall : ∀ c ∈ digits.dropWhile (· == '0'), isDigit c = true :=
    fun c hc => all c ((List.dropWhile_suffix _).subset hc)
  cases hrest : digits.dropWhile (· == '0') with
  | nil => rfl
  | cons c rest =>
    rw [hrest] at hlead hall
    exact congrArg String.ofList (toDigits_denoted hall (List.cons_ne_nil _ _) hlead)

end Text

/-! ## Bytes -/

theorem Bytes.toNat_eq_ofDigits (bytes : Bytes) :
    toNat bytes = Nat.ofDigits 256 (bytes.reverse.map UInt8.toNat) := by
  induction bytes using List.reverseRecOn with
  | nil => rfl
  | append_singleton bytes b ih =>
    rw [toNat_append_singleton, ih]
    simp [Nat.ofDigits_cons, Nat.add_comm]

theorem Bytes.toNat_lt (bytes : Bytes) : toNat bytes < 256 ^ bytes.length := by
  rw [toNat_eq_ofDigits]
  have hlt : ∀ d ∈ bytes.reverse.map UInt8.toNat, d < 256 := by
    intro d hd
    obtain ⟨b, -, rfl⟩ := List.mem_map.mp hd
    exact b.toNat_lt
  simpa using Nat.ofDigits_lt_base_pow_length (by decide) hlt

/-- A number fits in some bytes if there is one at least, and it is less than they can tell apart. -/
theorem Bytes.fits_iff {n length : ℕ} : width n ≤ length ↔ 1 ≤ length ∧ n < 256 ^ length := by
  constructor
  · intro h
    have hlength : 1 ≤ length := Nat.le_trans (Nat.le_add_left 1 _) h
    exact ⟨hlength, (width_le_iff hlength).mp h⟩
  · rintro ⟨hlength, hlt⟩
    exact (width_le_iff hlength).mpr hlt

namespace Text

/-- **The texts that are read into bytes**: those that spell the number that the bytes denote. -/
theorem decimalToBytes_eq_ok_iff {value : String} {length : ℕ} {bytes : Bytes} :
    decimalToBytes value length = .ok bytes ↔ ∃ digits, Numeral digits value.toList ∧
      1 ≤ length ∧ bytes.length = length ∧ bytes.toNat = denoted digits := by
  have hread : decimalToBytes value length = .ok bytes ↔ ∃ n, natural? value.toList = some n ∧
      Bytes.width n ≤ length ∧ Bytes.ofNat length n = bytes := by
    unfold decimalToBytes
    cases natural? value.toList with
    | none => simp
    | some n =>
      dsimp only
      split
      · rename_i hwidth
        simp [hwidth]
      · rename_i hwidth
        simp [hwidth]
  simp only [hread, natural?_eq_some_iff, Bytes.fits_iff]
  constructor
  · rintro ⟨_, ⟨digits, hnumeral, rfl⟩, ⟨hlength, hlt⟩, rfl⟩
    exact ⟨digits, hnumeral, hlength, Bytes.length_ofNat length _, Bytes.toNat_ofNat hlt⟩
  · rintro ⟨digits, hnumeral, hlength, rfl, hvalue⟩
    refine ⟨_, ⟨digits, hnumeral, rfl⟩, ⟨hlength, ?_⟩, ?_⟩
    · rw [← hvalue]
      exact bytes.toNat_lt
    · rw [← hvalue, Bytes.ofNat_toNat]

/-- A text is read if its number fits. -/
theorem exists_decimalToBytes_iff {value : String} {length : ℕ} :
    (∃ bytes, decimalToBytes value length = .ok bytes) ↔
      ∃ digits, Numeral digits value.toList ∧ 1 ≤ length ∧ denoted digits < 256 ^ length := by
  simp only [decimalToBytes_eq_ok_iff]
  constructor
  · rintro ⟨bytes, digits, hnumeral, hlength, rfl, hvalue⟩
    exact ⟨digits, hnumeral, hlength, hvalue ▸ bytes.toNat_lt⟩
  · rintro ⟨digits, hnumeral, hlength, hlt⟩
    exact ⟨Bytes.ofNat length (denoted digits), digits, hnumeral, hlength,
      Bytes.length_ofNat length _, Bytes.toNat_ofNat hlt⟩

/-- What is written for a number that has been read is its text without blanks and leading
zeros. -/
theorem bytesToDecimal_of_numeral {bytes : Bytes} {digits cs : List Char}
    (h : Numeral digits cs) (value : bytes.toNat = denoted digits) :
    bytesToDecimal bytes = String.ofList (plainDigits digits) := by
  rw [bytesToDecimal, value, toString_denoted h.all_isDigit]

/-- **Decimal text and bytes** stand for each other. A text is read into a number of bytes just if
it is a run of ASCII digits, one at least, with any blanks around it, the number of bytes is not
zero, and the number of the digits fits; the bytes are as many as asked, denote this number with the
most significant one first, and are written as the same digits without leading zeros. Bytes, one at
least, are read back from the text that is written for them. -/
theorem decimalToBytes_exact :
    (∀ (value : String) (length : ℕ), (∃ bytes, decimalToBytes value length = .ok bytes) ↔
      ∃ digits, Numeral digits value.toList ∧ 1 ≤ length ∧ denoted digits < 256 ^ length) ∧
    (∀ (value : String) (length : ℕ) (bytes : Bytes), decimalToBytes value length = .ok bytes ↔
      ∃ digits, Numeral digits value.toList ∧ 1 ≤ length ∧ bytes.length = length ∧
        Nat.ofDigits 256 (bytes.reverse.map UInt8.toNat) = denoted digits ∧
        bytesToDecimal bytes = String.ofList (plainDigits digits)) ∧
    ∀ (b : UInt8) (bytes : Bytes),
      decimalToBytes (bytesToDecimal (b :: bytes)) (bytes.length + 1) = .ok (b :: bytes) := by
  refine ⟨fun value length => exists_decimalToBytes_iff, fun value length bytes => ?_,
    fun b bytes => ?_⟩
  · simp only [decimalToBytes_eq_ok_iff, ← Bytes.toNat_eq_ofDigits]
    constructor
    · rintro ⟨digits, hnumeral, hlength, hbytes, hvalue⟩
      exact ⟨digits, hnumeral, hlength, hbytes, hvalue, bytesToDecimal_of_numeral hnumeral hvalue⟩
    · rintro ⟨digits, hnumeral, hlength, hbytes, hvalue, -⟩
      exact ⟨digits, hnumeral, hlength, hbytes, hvalue⟩
  · have hlt := Bytes.toNat_lt (b :: bytes)
    have hread := decimalToBytes_toString (Nat.le_add_left 1 bytes.length) hlt
    rwa [← List.length_cons (a := b), Bytes.ofNat_toNat] at hread

end Text

end RankedKeys
