/-!
# Parties, tags and run states

The nouns that every part of the library shares: who takes part, which round a message belongs
to, and how far a protocol run has come.

## Main definitions

* `PartyId`, `MessageType`: names of parties and of rounds
* `RunState`: the life of one protocol run
* `version`, `defaultThreshold`, `defaultParties`, `minThreshold`: the figures the tool ships with
-/

namespace RankedKeys

/-- The name of a party. Parties are ordered by code points, which is the order of their UTF-8
bytes. -/
abbrev PartyId := String

/-- The tag of a round, a 32-bit word. -/
abbrev MessageType := UInt32

/-- The life of a protocol run: not over yet, over with an output, or over with an error. -/
inductive RunState where
  | init
  | done
  | failed
  deriving DecidableEq, Repr

namespace RunState

/-- A run that is over never changes again. -/
def isTerminal : RunState → Bool
  | init => false
  | done => true
  | failed => true

/-- The name under which a state is shown and stored. -/
def name : RunState → String
  | init => "Init"
  | done => "Done"
  | failed => "Failed"

/-- Every state, in the order of a run. -/
def all : List RunState := [init, done, failed]

/-- The state with a given name. -/
def ofName? (s : String) : Option RunState :=
  all.find? (·.name == s)

end RunState

/-- The version of the library and its command line. -/
def version : String := "0.1.0"

/-- The threshold of a session that names none. -/
def defaultThreshold : Nat := 2

/-- The number of parties of a session that names none. -/
def defaultParties : Nat := 3

/-- The least threshold a scheme may have. -/
def minThreshold : Nat := 2

end RankedKeys
