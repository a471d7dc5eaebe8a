import RankedKeys.Json.Record
import RankedKeys.Json.Writer
import RankedKeys.Keygen.Message

/-!
# Messages of key generation as JSON

A message is a choice between the cases `Commit` and `Share`, and byte strings are arrays of
numbers.

## Main definitions

* `KeygenMessage.toJson`, `KeygenMessage.ofJson?`
* `KeygenMessage.print`, `KeygenMessage.parse`: the text of a message
-/

namespace RankedKeys

/-- A byte string as an array of numbers. -/
def Bytes.toJson (bytes : Bytes) : Json :=
  .naturals (bytes.map UInt8.toNat)

/-- Reads a byte string from an array of numbers. -/
def Bytes.ofJson? (v : Json) : Option Bytes :=
  v.listOf? Json.byte?

/-- Reads the name of a session from an array of 32 numbers. -/
def SessionId.ofJson? (v : Json) : Option SessionId :=
  (Bytes.ofJson? v).bind SessionId.ofBytes?

/-- The fields of a commitment message. -/
def CommitMessage.toJson (m : CommitMessage) : Json :=
  .obj
    [("from", .str m.sender), ("session_id", m.sessionId.bytes.toJson),
     ("bk_x", m.coordinate.toJson), ("bk_rank", .natural m.rank.toNat),
     ("commitments", .array (m.commitments.map Bytes.toJson))]

/-- Reads a commitment message. -/
def CommitMessage.ofJson? (v : Json) : Option CommitMessage := do
  match ← v.fields? (["from", "session_id", "bk_x", "bk_rank", "commitments"].map
    Json.required) with
  | [sender, sessionId, coordinate, rank, commitments] =>
    pure { sender := ← sender.text?
           sessionId := ← SessionId.ofJson? sessionId
           coordinate := ← Bytes.ofJson? coordinate
           rank := ← rank.word32?
           commitments := ← commitments.listOf? Bytes.ofJson? }
  | _ => none

/-- The fields of a share message. -/
def ShareMessage.toJson (m : ShareMessage) : Json :=
  .obj
    [("from", .str m.sender), ("to", .str m.receiver),
     ("session_id", m.sessionId.bytes.toJson), ("share", m.share.toJson)]

/-- Reads a share message. -/
def ShareMessage.ofJson? (v : Json) : Option ShareMessage := do
  match ← v.fields? (["from", "to", "session_id", "share"].map Json.required) with
  | [sender, receiver, sessionId, share] =>
    pure { sender := ← sender.text?
           receiver := ← receiver.text?
           sessionId := ← SessionId.ofJson? sessionId
           share := ← Bytes.ofJson? share }
  | _ => none

namespace KeygenMessage

/-- A message as a JSON value. -/
def toJson : KeygenMessage → Json
  | commit m => .obj [("Commit", m.toJson)]
  | share m => .obj [("Share", m.toJson)]

/-- Reads a message from a JSON value. -/
def ofJson? (v : Json) : Option KeygenMessage := do
  match ← v.case? with
  | ("Commit", content) => (CommitMessage.ofJson? content).map commit
  | ("Share", content) => (ShareMessage.ofJson? content).map share
  | _ => none

/-- The text of a message. -/
def print (m : KeygenMessage) : String :=
  m.toJson.compact

/-- Reads a message from its text. -/
def parse (text : String) : Except Error KeygenMessage :=
  match (Json.read? text).bind ofJson? with
  | some m => .ok m
  | none => .error (.serialization "not a message of key generation")

end KeygenMessage

end RankedKeys
