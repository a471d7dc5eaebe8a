import RankedKeys.Bytes.Basic

/-!
# Hexadecimal text

Two digits to a byte, written in lower case and read in either case.

## Main definitions

* `Bytes.toHex`, `Bytes.ofHex?`
-/

namespace RankedKeys.Bytes

/-- The lower-case digit of a number below sixteen. -/
def hexDigit (n : Nat) : Char :=
  if n < 10 then Char.ofNat (48 + n) else Char.ofNat (87 + n)

/-- The value of a digit of either case. -/
def hexValue? (c : Char) : Option Nat :=
  if '0' ≤ c ∧ c ≤ '9' then some (c.toNat - 48)
  else if 'a' ≤ c ∧ c ≤ 'f' then some (c.toNat - 87)
  else if 'A' ≤ c ∧ c ≤ 'F' then some (c.toNat - 55)
  else none

/-- The two digits of every byte. -/
def hexDigits (bytes : Bytes) : List Char :=
  bytes.flatMap fun b => [hexDigit (b.toNat / 16), hexDigit (b.toNat % 16)]

/-- A byte string in hexadecimal. -/
def toHex (bytes : Bytes) : String :=
  String.ofList (hexDigits bytes)

/-- Reads pairs of digits. -/
def ofHexDigits? : List Char → Option Bytes
  | [] => some []
  | high :: low :: rest => do
    let h ← hexValue? high
    let l ← hexValue? low
    let bytes ← ofHexDigits? rest
    pure (UInt8.ofNat (16 * h + l) :: bytes)
  | [_] => none

/-- Reads a byte string from hexadecimal. -/
def ofHex? (s : String) : Option Bytes :=
  ofHexDigits? s.toList

end RankedKeys.Bytes
