import RankedKeys.Bytes.Basic
import RankedKeys.Error
import RankedKeys.Text.Blank
import RankedKeys.Text.Quoted

/-!
# Decimal numbers

Natural numbers in base ten, and the byte strings of a fixed length that they stand for. Blanks
around a number are dropped; between them only ASCII digits are accepted, in any number and with
any leading zeros.

## Main definitions

* `digitsValue`: the number that a run of digits denotes
* `decimalToBytes`, `bytesToDecimal`: between decimal text and byte strings
-/

namespace RankedKeys.Text

/-- The ASCII digits. -/
def isDigit (c : Char) : Bool :=
  '0' ≤ c && c ≤ '9'

/-- The number that a run of digits denotes. -/
def digitsValue (cs : List Char) : Nat :=
  cs.foldl (fun n c => 10 * n + (c.toNat - 48)) 0

/-- Reads a number between blanks. -/
def natural? (cs : List Char) : Option Nat :=
  let inner := trimBlanks cs
  if inner ≠ [] ∧ inner.all isDigit then some (digitsValue inner) else none

/-- Reads a number between blanks into exactly `length` bytes. -/
def decimalToBytes (value : String) (length : Nat) : Except Error Bytes :=
  match natural? value.toList with
  | none =>
    let shown := quoted (String.ofList (trimBlanks value.toList))
    .error (.deserialization s!"Invalid decimal integer {shown}")
  | some n =>
    if Bytes.width n ≤ length then .ok (Bytes.ofNat length n)
    else .error (.deserialization s!"Integer does not fit in {length} bytes")

/-- The shortest decimal text of the number that a byte string denotes. -/
def bytesToDecimal (bytes : Bytes) : String :=
  toString bytes.toNat

end RankedKeys.Text
