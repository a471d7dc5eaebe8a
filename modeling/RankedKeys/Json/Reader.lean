import RankedKeys.Json.Token

/-!
# Reading JSON

A text is read token by token with the open arrays and objects on a stack, so that no depth of
nesting is too great. Nothing but blanks may follow the value.

## Main definitions

* `Json.Frame`, `Json.State`: the open containers and what may come next
* `Json.State.step`: one token
* `Json.read?`: the value of a text
-/

namespace RankedKeys.Json

/-- A container that is still open, with what it holds so far, last first. -/
inductive Frame where
  | items (before : List Json)
  /-- The member whose value is being read has the given name. -/
  | members (before : List (Option String × Json)) (name : Option String)

/-- What may come next. -/
inductive Expects where
  | value
  /-- A value, or the end of an array that has just been opened. -/
  | firstItem
  /-- A name, or the end of an object that has just been opened. -/
  | firstName
  /-- The name of one more member. -/
  | name (before : List (Option String × Json))
  | colon (before : List (Option String × Json)) (name : Option String)
  /-- A value has been completed: a comma or the end of its container. -/
  | next (v : Json)

/-- How far a text has been read: the open containers, innermost first, and what may come next. -/
structure State where
  stack : List Frame
  expects : Expects

namespace State

/-- Nothing has been read. -/
def initial : State := ⟨[], .value⟩

/-- A value without parts has been read, or a container has been opened. -/
def takeValue (stack : List Frame) : Token → Option State
  | .null => some ⟨stack, .next .null⟩
  | .bool b => some ⟨stack, .next (.bool b)⟩
  | .natural n => some ⟨stack, .next (.natural n)⟩
  | .decimal s => some ⟨stack, .next (.decimal s)⟩
  | .string s => some ⟨stack, .next (.string s)⟩
  | .openArray => some ⟨stack, .firstItem⟩
  | .openObject => some ⟨stack, .firstName⟩
  | _ => none

/-- What follows a completed value. -/
def takeNext (stack : List Frame) (v : Json) (t : Token) : Option State :=
  match stack with
  | [] => none
  | .items before :: stack =>
    match t with
    | .comma => some ⟨.items (v :: before) :: stack, .value⟩
    | .closeArray => some ⟨stack, .next (.array (before.reverse ++ [v]))⟩
    | _ => none
  | .members before name :: stack =>
    match t with
    | .comma => some ⟨stack, .name ((name, v) :: before)⟩
    | .closeObject => some ⟨stack, .next (.object (before.reverse ++ [(name, v)]))⟩
    | _ => none

/-- Reads one token; fails if it may not stand here. -/
def step (s : State) (t : Token) : Option State :=
  match s.expects, t with
  | .value, t => takeValue s.stack t
  | .firstItem, .closeArray => some ⟨s.stack, .next (.array [])⟩
  | .firstItem, t => takeValue (.items [] :: s.stack) t
  | .firstName, .closeObject => some ⟨s.stack, .next (.object [])⟩
  | .firstName, .string name => some ⟨s.stack, .colon [] name⟩
  | .name before, .string name => some ⟨s.stack, .colon before name⟩
  | .colon before name, .colon => some ⟨.members before name :: s.stack, .value⟩
  | .next v, t => takeNext s.stack v t
  | _, _ => none

/-- The value, if exactly one has been read. -/
def result? : State → Option Json
  | ⟨[], .next v⟩ => some v
  | _ => none

end State

/-- The value that some tokens spell. -/
def ofTokens? (ts : List Token) : Option Json :=
  (ts.foldlM State.step State.initial).bind State.result?

/-- The value of a text. -/
def read? (s : String) : Option Json :=
  (tokens? s.toList).bind ofTokens?

end RankedKeys.Json
