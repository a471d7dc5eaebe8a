import RankedKeys.Engine.Basic

/-!
# Scripted protocols

A protocol given by a table of rounds. Each round notes who contributed what, and the output is the
list of all rounds that were closed, with their notes. A round of the table may refuse or break off
at some senders, fail when it is closed, forget its contributors, and name the round that follows.

## Main definitions

* `Note`: messages with a payload
* `ScriptedRound`: a row of the table
* `Script`: a round in progress
* `Script.protocol`, `Script.engine`: the protocol of a table, and an engine that runs it
-/

namespace RankedKeys

/-- A message with any payload. -/
structure Note (V : Type) where
  sender : PartyId
  tag : MessageType
  payload : V

instance {V : Type} : Tagged (Note V) := ⟨Note.sender, Note.tag⟩

/-- Where a round of the table leads. -/
inductive Following where
  /-- To the next row. -/
  | nextRow
  /-- To the row with a given index. -/
  | row (index : Nat)
  /-- To the end. -/
  | finish
  deriving DecidableEq

/-- A row of the table. -/
structure ScriptedRound where
  tag : MessageType
  quota : Nat
  /-- The senders that are refused, with the reasons. -/
  rejects : List (PartyId × String)
  /-- The senders at which the round breaks off. -/
  crashes : List PartyId
  /-- Why the round cannot be closed. -/
  closingFails : Option String
  /-- Whether the round breaks off when it is closed. -/
  closingCrashes : Bool
  /-- Whether the round takes several messages of one sender. -/
  forgets : Bool
  following : Following

/-- What a closed round leaves behind: its tag and the payloads by sender, in order. -/
structure RoundNotes (V : Type) where
  tag : MessageType
  seen : List (PartyId × V)

/-- A round of a table in progress. -/
structure Script (V : Type) where
  table : List ScriptedRound
  index : Nat
  round : ScriptedRound
  seen : List (PartyId × V)
  log : List (RoundNotes V)

namespace Script

variable {V : Type}

/-- The first round of a table. -/
def first (round : ScriptedRound) (rounds : List ScriptedRound) : Script V :=
  ⟨round :: rounds, 0, round, [], []⟩

/-- The row that follows the round in progress. -/
def following? (s : Script V) : Option (Nat × ScriptedRound) :=
  let index? := match s.round.following with
    | .nextRow => some (s.index + 1)
    | .row index => some index
    | .finish => none
  index?.bind fun index => s.table[index]?.map fun round => (index, round)

/-- Takes a note in. -/
def take (s : Script V) (m : Note V) : Except Fault (Script V) :=
  if s.round.crashes.contains m.sender then .error .crash
  else
    match s.round.rejects.lookup m.sender with
    | some reason => .error (.error (.verificationFailed reason))
    | none => .ok { s with seen := s.seen ++ [(m.sender, m.payload)] }

/-- Closes a round. -/
def close (s : Script V) : Except Fault (Closing (Script V) (Note V) (List (RoundNotes V))) :=
  if s.round.closingCrashes then .error .crash
  else
    match s.round.closingFails with
    | some reason => .error (.error (.internal reason))
    | none =>
      let log := s.log ++ [⟨s.round.tag, s.seen⟩]
      .ok
        { outbox := []
          transition :=
            match s.following? with
            | none => .done log
            | some (index, round) => .next { s with index, round, seen := [], log } }

/-- The protocol of a table of rounds. -/
def protocol : Protocol (Script V) (Note V) (List (RoundNotes V)) where
  tag s := s.round.tag
  handled s sender := !s.round.forgets && s.seen.any (·.1 == sender)
  handle := take
  quota s := s.round.quota
  close := close

/-- An engine that runs a table of rounds. -/
def engine (selfId : PartyId) (peerCount : Nat) (round : ScriptedRound)
    (rounds : List ScriptedRound) (types : List MessageType) :
    Engine (Script V) (Note V) (List (RoundNotes V)) :=
  Engine.create protocol selfId peerCount (first round rounds) types

end Script

end RankedKeys
