import RankedKeys.Proofs.Answers
import RankedKeys.Proofs.Text.Numeral

/-!
# The texts that spell a scalar or a public key

A scalar is read from the texts that spell a number below the order, and a public key from two texts
that spell numbers below the prime which satisfy the equation of the curve. What is written for them
are the digits without blanks and leading zeros. The bounds are exact: a number may fit in the bytes
of a scalar or a coordinate without being one.

## Main results

* `exists_ofNat?_decimalToBytes_iff`: the texts that are read as a residue class
* `Curve.holds_iff`: the equation of a curve, for numbers
* `Curve.scalarOfDecimal_eq_ok_iff`, `PublicKey.ofDecimal_eq_ok_iff`: the texts that are read
* `Curve.decimalForms_exact`: scalars and public keys and their texts
-/

namespace RankedKeys

open Text (Numeral denoted plainDigits)

theorem Residue.ofNat?_eq_some_iff {m n : ℕ} {a : Residue m} : ofNat? m n = some a ↔ a.val = n := by
  constructor
  · exact val_of_ofNat?_eq_some
  · rintro rfl
    exact ofNat?_val a

/-! ## Residue classes -/

section Residues

variable {m : ℕ} {a : Residue m}

/-- **The texts that are read as a residue class**, for a modulus that fits: those that spell its
least representative. -/
theorem exists_ofNat?_decimalToBytes_iff (fits : m ≤ Bytes.count fieldWidth) {value : String} :
    (∃ bytes, Text.decimalToBytes value fieldWidth = .ok bytes ∧
      Residue.ofNat? m bytes.toNat = some a) ↔
      ∃ digits, Numeral digits value.toList ∧ a.val = denoted digits := by
  simp only [Text.decimalToBytes_eq_ok_iff, Residue.ofNat?_eq_some_iff]
  constructor
  · rintro ⟨bytes, ⟨digits, hnumeral, -, -, hvalue⟩, ha⟩
    exact ⟨digits, hnumeral, ha.trans hvalue⟩
  · rintro ⟨digits, hnumeral, ha⟩
    have hvalue : Bytes.toNat (Bytes.ofNat fieldWidth a.val) = a.val :=
      Bytes.toNat_ofNat (a.val_lt.trans_le fits)
    exact ⟨Bytes.ofNat fieldWidth a.val,
      ⟨digits, hnumeral, by decide, Bytes.length_ofNat _ _, hvalue.trans ha⟩, hvalue.symm⟩

/-- What is written for a residue class that has been read is the text without blanks and leading
zeros. -/
theorem bytesToDecimal_residue (fits : m ≤ Bytes.count fieldWidth) {digits cs : List Char}
    (h : Numeral digits cs) (ha : a.val = denoted digits) :
    Text.bytesToDecimal (Bytes.ofNat fieldWidth a.val) = String.ofList (plainDigits digits) :=
  Text.bytesToDecimal_of_numeral h ((Bytes.toNat_ofNat (a.val_lt.trans_le fits)).trans ha)

end Residues

variable {c : Curve}

/-! ## Scalars -/

namespace Curve

/-- **The texts that are read as a scalar** spell its number. -/
theorem scalarOfDecimal_eq_ok_iff {value : String} {s : c.Scalar} :
    c.scalarOfDecimal value = .ok s ↔ ∃ digits, Numeral digits value.toList ∧
      s.val = denoted digits := by
  rw [← exists_ofNat?_decimalToBytes_iff c.order_le, scalarOfDecimal, bind_eq_ok_iff]
  refine exists_congr fun bytes => and_congr_right fun _ => ?_
  cases Residue.ofNat? c.order bytes.toNat <;> simp

/-- A text is read as a scalar if its number is below the order. -/
theorem exists_scalarOfDecimal_iff {value : String} :
    (∃ s, c.scalarOfDecimal value = .ok s) ↔
      ∃ digits, Numeral digits value.toList ∧ denoted digits < c.order := by
  simp only [scalarOfDecimal_eq_ok_iff]
  constructor
  · rintro ⟨s, digits, hnumeral, hs⟩
    exact ⟨digits, hnumeral, hs ▸ s.val_lt⟩
  · rintro ⟨digits, hnumeral, hlt⟩
    exact ⟨⟨denoted digits, hlt⟩, digits, hnumeral, rfl⟩

/-! ## Public keys -/

/-- **The equation of a curve** is a congruence between numbers. -/
theorem holds_iff {x y : c.Base} :
    c.Holds x y ↔ y.val ^ 2 ≡ x.val ^ 3 + c.a * x.val + c.b [MOD c.prime] := by
  have hleft : (y * y).toZMod = ((y.val ^ 2 : ℕ) : ZMod c.prime) := by
    rw [Residue.toZMod_mul, Residue.toZMod]
    push_cast
    ring
  have hright : (c.cubic x).toZMod = ((x.val ^ 3 + c.a * x.val + c.b : ℕ) : ZMod c.prime) := by
    rw [cubic, Residue.toZMod_add, Residue.toZMod_mul, Residue.toZMod_add, Residue.toZMod_mul,
      Residue.toZMod_natCast, Residue.toZMod_natCast, Residue.toZMod]
    push_cast
    ring
  rw [Holds, ← Residue.toZMod_injective.eq_iff, hleft, hright, ZMod.natCast_eq_natCast_iff]

end Curve

namespace PublicKey

theorem ofNats?_eq_some_iff {x y : ℕ} {key : PublicKey c} :
    ofNats? c x y = some key ↔
      Residue.ofNat? c.prime x = some key.x ∧ Residue.ofNat? c.prime y = some key.y := by
  simp only [ofNats?, Option.bind_eq_bind, Option.bind_eq_some_iff, Option.dite_none_right_eq_some,
    Option.some_inj]
  constructor
  · rintro ⟨_, hx, _, hy, _, rfl⟩
    exact ⟨hx, hy⟩
  · rintro ⟨hx, hy⟩
    exact ⟨key.x, hx, key.y, hy, key.holds, rfl⟩

/-- **The texts that are read as a public key** spell the numbers of its coordinates. -/
theorem ofDecimal_eq_ok_iff {x y : String} {key : PublicKey c} :
    ofDecimal c x y = .ok key ↔
      (∃ digits, Numeral digits x.toList ∧ key.x.val = denoted digits) ∧
      ∃ digits, Numeral digits y.toList ∧ key.y.val = denoted digits := by
  rw [← exists_ofNat?_decimalToBytes_iff c.prime_le, ← exists_ofNat?_decimalToBytes_iff c.prime_le]
  simp only [ofDecimal, bind_eq_ok_iff]
  constructor
  · rintro ⟨xs, hx, ys, hy, hread⟩
    cases hkey : ofNats? c xs.toNat ys.toNat with
    | none => simp [hkey] at hread
    | some key' =>
      rw [hkey] at hread
      obtain rfl := Except.ok.inj hread
      obtain ⟨hx', hy'⟩ := ofNats?_eq_some_iff.mp hkey
      exact ⟨⟨xs, hx, hx'⟩, ys, hy, hy'⟩
  · rintro ⟨⟨xs, hx, hx'⟩, ys, hy, hy'⟩
    refine ⟨xs, hx, ys, hy, ?_⟩
    rw [ofNats?_eq_some_iff.mpr ⟨hx', hy'⟩]

/-- Two texts are read as a public key if their numbers are below the prime and satisfy the equation
of the curve. -/
theorem exists_ofDecimal_iff {x y : String} :
    (∃ key, ofDecimal c x y = .ok key) ↔ ∃ xs ys, Numeral xs x.toList ∧ Numeral ys y.toList ∧
      denoted xs < c.prime ∧ denoted ys < c.prime ∧
      denoted ys ^ 2 ≡ denoted xs ^ 3 + c.a * denoted xs + c.b [MOD c.prime] := by
  simp only [ofDecimal_eq_ok_iff]
  constructor
  · rintro ⟨key, ⟨xs, hxs, hx⟩, ys, hys, hy⟩
    refine ⟨xs, ys, hxs, hys, hx ▸ key.x.val_lt, hy ▸ key.y.val_lt, ?_⟩
    rw [← hx, ← hy]
    exact Curve.holds_iff.mp key.holds
  · rintro ⟨xs, ys, hxs, hys, hx, hy, hholds⟩
    refine ⟨⟨⟨denoted xs, hx⟩, ⟨denoted ys, hy⟩, Curve.holds_iff.mpr hholds⟩, ?_⟩
    exact ⟨⟨xs, hxs, rfl⟩, ys, hys, rfl⟩

end PublicKey

/-- **Scalars and public keys survive their decimal form**, on every curve. A scalar is read back
from its text. A text is read as a scalar just if it is a run of digits with any blanks around it
whose number is below the order, and then the same digits without leading zeros are written for the
scalar. A public key is read back from the texts of its coordinates. Two texts are read as a public
key just if both are such runs of digits, with numbers that are below the prime and satisfy the
equation of the curve, and again the same digits without leading zeros are written for the key. -/
theorem Curve.decimalForms_exact (c : Curve) :
    (∀ s : c.Scalar, c.scalarOfDecimal (scalarToDecimal s) = .ok s) ∧
    (∀ value, (∃ s, c.scalarOfDecimal value = .ok s) ↔
      ∃ digits, Numeral digits value.toList ∧ denoted digits < c.order) ∧
    (∀ value (s : c.Scalar), c.scalarOfDecimal value = .ok s ↔
      ∃ digits, Numeral digits value.toList ∧ s.val = denoted digits ∧
        scalarToDecimal s = String.ofList (plainDigits digits)) ∧
    (∀ key : PublicKey c, PublicKey.ofDecimal c key.toDecimal.1 key.toDecimal.2 = .ok key) ∧
    (∀ x y, (∃ key, PublicKey.ofDecimal c x y = .ok key) ↔
      ∃ xs ys, Numeral xs x.toList ∧ Numeral ys y.toList ∧
        denoted xs < c.prime ∧ denoted ys < c.prime ∧
        denoted ys ^ 2 ≡ denoted xs ^ 3 + c.a * denoted xs + c.b [MOD c.prime]) ∧
    ∀ x y (key : PublicKey c), PublicKey.ofDecimal c x y = .ok key ↔
      ∃ xs ys, Numeral xs x.toList ∧ Numeral ys y.toList ∧
        key.x.val = denoted xs ∧ key.y.val = denoted ys ∧
        key.toDecimal = (String.ofList (plainDigits xs), String.ofList (plainDigits ys)) := by
  refine ⟨scalarOfDecimal_scalarToDecimal, fun value => exists_scalarOfDecimal_iff,
    fun value s => ?_, PublicKey.ofDecimal_toDecimal, fun x y => PublicKey.exists_ofDecimal_iff,
    fun x y key => ?_⟩
  · rw [scalarOfDecimal_eq_ok_iff]
    constructor
    · rintro ⟨digits, hnumeral, hs⟩
      exact ⟨digits, hnumeral, hs, bytesToDecimal_residue c.order_le hnumeral hs⟩
    · rintro ⟨digits, hnumeral, hs, -⟩
      exact ⟨digits, hnumeral, hs⟩
  · rw [PublicKey.ofDecimal_eq_ok_iff]
    constructor
    · rintro ⟨⟨xs, hxs, hx⟩, ys, hys, hy⟩
      refine ⟨xs, ys, hxs, hys, hx, hy, Prod.ext ?_ ?_⟩
      · exact bytesToDecimal_residue c.prime_le hxs hx
      · exact bytesToDecimal_residue c.prime_le hys hy
    · rintro ⟨xs, ys, hxs, hys, hx, hy, -⟩
      exact ⟨⟨xs, hxs, hx⟩, ys, hys, hy⟩

end RankedKeys
