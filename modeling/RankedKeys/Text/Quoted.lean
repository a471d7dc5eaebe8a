import RankedKeys.Bytes.Hex
import RankedKeys.Text.Glyph

/-!
# Quoted text

A text between double quotes in which every character can be told apart: quotes and backslashes
are escaped by a backslash, tab, return, newline and NUL have short escapes, and a character that
prints nothing or leans on its neighbour is given by its code point.

## Main definitions

* `quoted`: the quoted form of a text
-/

namespace RankedKeys.Text

/-- A number in hexadecimal, without leading zeros. -/
def hexNumber (n : Nat) : List Char :=
  (Nat.toDigits 16 n)

/-- The form of one character between double quotes. -/
def quotedChar (c : Char) : List Char :=
  match c with
  | '\x00' => ['\\', '0']
  | '\t' => ['\\', 't']
  | '\r' => ['\\', 'r']
  | '\n' => ['\\', 'n']
  | '"' => ['\\', '"']
  | '\\' => ['\\', '\\']
  | c =>
    if isExtending c || isUnprintable c then
      ['\\', 'u', '\x7b'] ++ hexNumber c.toNat ++ ['\x7d']
    else [c]

/-- A text between double quotes. -/
def quoted (s : String) : String :=
  String.ofList (['"'] ++ s.toList.flatMap quotedChar ++ ['"'])

end RankedKeys.Text
