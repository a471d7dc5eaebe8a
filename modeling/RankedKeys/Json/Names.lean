import RankedKeys.Curve.Standard
import RankedKeys.Json.Record
import RankedKeys.Json.Writer

/-!
# States, tags and curves as JSON

A state and a curve are written by name, a tag as a number. A name may also be read as a choice
without content.

## Main definitions

* `RunState.parse?`, `CurveName.parseName?`, `MessageType.parse?` and the texts they read
-/

namespace RankedKeys

/-- The text of a state. -/
def RunState.print (s : RunState) : String :=
  (Json.str s.name).compact

/-- Reads a state from its text. -/
def RunState.parse? (text : String) : Option RunState := do
  RunState.ofName? (← (← Json.read? text).name?)

/-- The text of a curve. -/
def CurveName.print (c : CurveName) : String :=
  (Json.str c.label).compact

/-- Reads a curve from its text; only the name under which it is stored is accepted. -/
def CurveName.parseName? (text : String) : Option CurveName := do
  let name ← (← Json.read? text).name?
  CurveName.all.find? (·.label == name)

/-- The text of a tag. -/
def MessageType.print (t : MessageType) : String :=
  (Json.natural t.toNat).compact

/-- Reads a tag from its text. -/
def MessageType.parse? (text : String) : Option MessageType := do
  (← Json.read? text).word32?

end RankedKeys
