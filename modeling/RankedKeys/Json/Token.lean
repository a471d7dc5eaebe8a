import RankedKeys.Bytes.Hex
import RankedKeys.Json.Basic
import RankedKeys.Text.Decimal

/-!
# JSON tokens

The marks, words, numbers and strings of a JSON text, with the blanks between them dropped.

A string is first taken apart into pieces, a character written as such or a 16-bit unit written as
an escape, and then put together: two units that form a surrogate pair are one character, and half
a pair alone makes the string stand for no text.

## Main definitions

* `Json.Token`, `Json.tokens?`: the tokens of a text
* `Json.Piece`, `Json.assemble?`: the parts of a string and the text they form
-/

namespace RankedKeys.Json

/-- A mark or a value without parts. -/
inductive Token where
  | openArray
  | closeArray
  | openObject
  | closeObject
  | colon
  | comma
  | null
  | bool (b : Bool)
  | natural (n : Nat)
  | decimal (spelling : List Char)
  | string (s : Option String)

/-- A part of a string. -/
inductive Piece where
  /-- A character, written as such or by a short escape. -/
  | char (c : Char)
  /-- A unit given by its four digits. -/
  | unit (u : Nat)

/-- Units that open a surrogate pair. -/
def isHighHalf (u : Nat) : Bool := 0xd800 ≤ u && u < 0xdc00

/-- Units that close a surrogate pair. -/
def isLowHalf (u : Nat) : Bool := 0xdc00 ≤ u && u < 0xe000

/-- The code point of a surrogate pair. -/
def pairCode (high low : Nat) : Nat :=
  0x10000 + (high - 0xd800) * 0x400 + (low - 0xdc00)

/-- The text that some pieces form. -/
def assemble? : List Piece → Option (List Char)
  | [] => some []
  | .char c :: rest => (assemble? rest).map (c :: ·)
  | .unit u :: rest =>
    if isHighHalf u then
      match rest with
      | .unit v :: rest =>
        if isLowHalf v then (assemble? rest).map (Char.ofNat (pairCode u v) :: ·) else none
      | _ => none
    else if isLowHalf u then none
    else (assemble? rest).map (Char.ofNat u :: ·)

/-- The characters that end a line or part tokens. -/
def isSpace (c : Char) : Bool :=
  c == ' ' || c == '\n' || c == '\r' || c == '\t'

/-- The character that a short escape stands for. -/
def shortEscape? : Char → Option Char
  | '"' => some '"'
  | '\\' => some '\\'
  | '/' => some '/'
  | 'b' => some '\x08'
  | 'f' => some '\x0c'
  | 'n' => some '\n'
  | 'r' => some '\r'
  | 't' => some '\t'
  | _ => none

/-- The unit that four hexadecimal digits name. -/
def unit? (a b c d : Char) : Option Nat := do
  let a ← Bytes.hexValue? a
  let b ← Bytes.hexValue? b
  let c ← Bytes.hexValue? c
  let d ← Bytes.hexValue? d
  pure (((a * 16 + b) * 16 + c) * 16 + d)

/-- The pieces of a string up to its closing quote, and the text after it. Characters below
the space are refused. -/
def pieces? : List Char → Option (List Piece × List Char)
  | '"' :: rest => some ([], rest)
  | '\\' :: 'u' :: a :: b :: c :: d :: rest => do
    let u ← unit? a b c d
    let (pieces, rest) ← pieces? rest
    pure (.unit u :: pieces, rest)
  | '\\' :: e :: rest => do
    let c ← shortEscape? e
    let (pieces, rest) ← pieces? rest
    pure (.char c :: pieces, rest)
  | c :: rest =>
    if c.toNat < 0x20 || c == '\\' then none
    else do
      let (pieces, rest) ← pieces? rest
      pure (.char c :: pieces, rest)
  | [] => none

/-- The characters that a number is written with. -/
def isNumeric (c : Char) : Bool :=
  Text.isDigit c || c == '-' || c == '+' || c == '.' || c == 'e' || c == 'E'

/-- Drops a run of at least one digit. -/
def dropDigits? (cs : List Char) : Option (List Char) :=
  match cs with
  | c :: rest => if Text.isDigit c then some (rest.dropWhile Text.isDigit) else none
  | [] => none

/-- Drops the part before the point: a zero, or digits that do not begin with a zero. -/
def dropWhole? : List Char → Option (List Char)
  | '0' :: rest => some rest
  | cs => dropDigits? cs

/-- Drops a fraction, if there is one. -/
def dropFraction? : List Char → Option (List Char)
  | '.' :: rest => dropDigits? rest
  | cs => some cs

/-- Drops an exponent, if there is one. -/
def dropExponent? : List Char → Option (List Char)
  | c :: rest =>
    if c = 'e' ∨ c = 'E' then
      match rest with
      | '+' :: rest => dropDigits? rest
      | '-' :: rest => dropDigits? rest
      | rest => dropDigits? rest
    else some (c :: rest)
  | [] => some []

/-- Whether a word spells a number. -/
def isNumber (word : List Char) : Bool :=
  let unsigned := match word with
    | '-' :: rest => rest
    | word => word
  match (dropWhole? unsigned).bind fun rest => (dropFraction? rest).bind dropExponent? with
  | some rest => rest.isEmpty
  | none => false

/-- The number that a word spells. -/
def number? (word : List Char) : Option Token :=
  if isNumber word then
    if word.all Text.isDigit then some (.natural (Text.digitsValue word))
    else some (.decimal word)
  else none

/-- The token in front of a text that does not begin with a blank, and the text after it. -/
def token? : List Char → Option (Token × List Char)
  | '[' :: rest => some (.openArray, rest)
  | ']' :: rest => some (.closeArray, rest)
  | '\x7b' :: rest => some (.openObject, rest)
  | '\x7d' :: rest => some (.closeObject, rest)
  | ':' :: rest => some (.colon, rest)
  | ',' :: rest => some (.comma, rest)
  | '"' :: rest => do
    let (pieces, rest) ← pieces? rest
    pure (.string ((assemble? pieces).map String.ofList), rest)
  | 'n' :: 'u' :: 'l' :: 'l' :: rest => some (.null, rest)
  | 't' :: 'r' :: 'u' :: 'e' :: rest => some (.bool true, rest)
  | 'f' :: 'a' :: 'l' :: 's' :: 'e' :: rest => some (.bool false, rest)
  | cs => (number? (cs.takeWhile isNumeric)).map fun t => (t, cs.dropWhile isNumeric)

/-- The tokens of a text, from at most `fuel` characters. -/
def tokensUpTo? : (fuel : Nat) → List Char → Option (List Token)
  | 0, cs => if cs.all isSpace then some [] else none
  | fuel + 1, cs =>
    match cs.dropWhile isSpace with
    | [] => some []
    | cs => do
      let (t, rest) ← token? cs
      let ts ← tokensUpTo? fuel rest
      pure (t :: ts)

/-- The tokens of a text. Each takes at least one character, so the length of the text bounds
their number. -/
def tokens? (cs : List Char) : Option (List Token) :=
  tokensUpTo? cs.length cs

end RankedKeys.Json
