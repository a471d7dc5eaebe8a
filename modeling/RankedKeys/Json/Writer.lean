import RankedKeys.Bytes.Hex
import RankedKeys.Json.Basic

/-!
# Writing JSON

Two forms: compact, without any blank, and laid out, with a line for every item and member, two
spaces of indent and a space after the colon. An empty container is `[]` or `{}` in both. In a
string only the quote, the backslash and the characters below the space are escaped.

## Main definitions

* `Json.escapeChar`, `Json.quote`: strings
* `Json.compact`, `Json.pretty`: the two forms
-/

namespace RankedKeys.Json

/-- The form of a character in a string. -/
def escapeChar (c : Char) : List Char :=
  match c with
  | '"' => ['\\', '"']
  | '\\' => ['\\', '\\']
  | '\x08' => ['\\', 'b']
  | '\x0c' => ['\\', 'f']
  | '\n' => ['\\', 'n']
  | '\r' => ['\\', 'r']
  | '\t' => ['\\', 't']
  | c =>
    if c.toNat < 0x20 then
      ['\\', 'u', '0', '0', Bytes.hexDigit (c.toNat / 16), Bytes.hexDigit (c.toNat % 16)]
    else [c]

/-- A text in quotes. -/
def quote (s : String) : List Char :=
  '"' :: s.toList.flatMap escapeChar ++ ['"']

/-- A string that may stand for no text; then it is written as if it were empty. -/
def quote? (s : Option String) : List Char :=
  quote (s.getD "")

/-- A value without parts. -/
def scalarText : Json → List Char
  | null => "null".toList
  | bool b => if b then "true".toList else "false".toList
  | natural n => (toString n).toList
  | decimal spelling => spelling
  | string s => quote? s
  | array _ => "[]".toList
  | object _ => ['\x7b', '\x7d']

mutual

/-- The compact form. -/
def compactText : Json → List Char
  | array items => '[' :: compactItems items ++ [']']
  | object members => '\x7b' :: compactMembers members ++ ['\x7d']
  | v => scalarText v

/-- Items with commas between them. -/
def compactItems : List Json → List Char
  | [] => []
  | [v] => compactText v
  | v :: w :: rest => compactText v ++ ',' :: compactItems (w :: rest)

/-- Members with commas between them. -/
def compactMembers : List (Option String × Json) → List Char
  | [] => []
  | [(name, v)] => quote? name ++ ':' :: compactText v
  | (name, v) :: m :: rest =>
    quote? name ++ ':' :: compactText v ++ ',' :: compactMembers (m :: rest)

end

/-- A new line with some depth of indent. -/
def newLine (depth : Nat) : List Char :=
  '\n' :: List.replicate (2 * depth) ' '

mutual

/-- The form with a line for every item and member, at some depth of indent. -/
def prettyText (depth : Nat) : Json → List Char
  | array (v :: items) =>
    '[' :: prettyItems (depth + 1) (v :: items) ++ newLine depth ++ [']']
  | object (m :: members) =>
    '\x7b' :: prettyMembers (depth + 1) (m :: members) ++ newLine depth ++ ['\x7d']
  | v => scalarText v

/-- Items, each on a line of its own. -/
def prettyItems (depth : Nat) : List Json → List Char
  | [] => []
  | [v] => newLine depth ++ prettyText depth v
  | v :: w :: rest =>
    newLine depth ++ prettyText depth v ++ ',' :: prettyItems depth (w :: rest)

/-- Members, each on a line of its own. -/
def prettyMembers (depth : Nat) : List (Option String × Json) → List Char
  | [] => []
  | [(name, v)] => newLine depth ++ quote? name ++ ':' :: ' ' :: prettyText depth v
  | (name, v) :: m :: rest =>
    newLine depth ++ quote? name ++ ':' :: ' ' :: prettyText depth v ++
      ',' :: prettyMembers depth (m :: rest)

end

/-- A value without blanks. -/
def compact (v : Json) : String :=
  String.ofList (compactText v)

/-- A value with a line for every item and member. -/
def pretty (v : Json) : String :=
  String.ofList (prettyText 0 v)

end RankedKeys.Json
