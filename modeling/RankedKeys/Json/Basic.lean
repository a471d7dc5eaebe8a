/-!
# JSON values

A value keeps all that a reader may want to refuse: members in their order with repeated names,
integers apart from other numbers, and strings with half of a surrogate pair, which stand for no
text.

## Main definitions

* `Json`: the values
* `Json.obj`, `Json.str`: values whose strings are all whole
-/

namespace RankedKeys

/-- A JSON value. -/
inductive Json where
  | null
  | bool (b : Bool)
  /-- A number without sign, fraction and exponent. -/
  | natural (n : Nat)
  /-- Any other number, as it is spelt. -/
  | decimal (spelling : List Char)
  /-- A string; `none` if an escape names half of a surrogate pair alone. -/
  | string (s : Option String)
  | array (items : List Json)
  /-- The members in their order, repeated names included. -/
  | object (members : List (Option String × Json))

namespace Json

/-- A whole string. -/
def str (s : String) : Json :=
  string (some s)

/-- An object with whole names. -/
def obj (members : List (String × Json)) : Json :=
  object (members.map fun (name, value) => (some name, value))

/-- A list of numbers. -/
def naturals (ns : List Nat) : Json :=
  array (ns.map natural)

end Json

end RankedKeys
