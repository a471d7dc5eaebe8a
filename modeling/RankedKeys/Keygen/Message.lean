import RankedKeys.Engine.Mailboxes
import RankedKeys.Keygen.SessionId

/-!
# Messages of key generation

In the first round every party broadcasts its position and commitments to its polynomial; in the
second it deals every peer a share. The numbers and points in a message are bytes that nobody has
checked.

## Main definitions

* `CommitMessage`, `ShareMessage`, `KeygenMessage`
* `commitTag`, `shareTag`: the tags of the two rounds
-/

namespace RankedKeys

/-- The tag of the first round. -/
def commitTag : MessageType := 1

/-- The tag of the second round. -/
def shareTag : MessageType := 2

/-- A position and commitments to a polynomial. -/
structure CommitMessage where
  sender : PartyId
  sessionId : SessionId
  /-- The coordinate of the sender's position. -/
  coordinate : Bytes
  /-- The rank of the sender's position. -/
  rank : UInt32
  /-- One point for each coefficient; a refresh leaves the constant term out, which is zero. -/
  commitments : List Bytes
  deriving DecidableEq

/-- A share for one receiver. -/
structure ShareMessage where
  sender : PartyId
  receiver : PartyId
  sessionId : SessionId
  share : Bytes
  deriving DecidableEq

/-- A message of either round. -/
inductive KeygenMessage where
  | commit (m : CommitMessage)
  | share (m : ShareMessage)
  deriving DecidableEq

namespace KeygenMessage

/-- Whom a message names as its sender. -/
def sender : KeygenMessage → PartyId
  | commit m => m.sender
  | share m => m.sender

/-- The round of a message. -/
def tag : KeygenMessage → MessageType
  | commit _ => commitTag
  | share _ => shareTag

instance : Tagged KeygenMessage := ⟨sender, tag⟩

end KeygenMessage

end RankedKeys
