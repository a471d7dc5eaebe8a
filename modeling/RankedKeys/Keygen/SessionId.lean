import RankedKeys.Basic
import RankedKeys.Bytes.Sha256
import RankedKeys.Bytes.Utf8
import RankedKeys.Sorting
import RankedKeys.Text.Order

/-!
# Session names

All parties of a session agree on its name without talking to each other: it is the digest of the
sorted list of parties and a nonce. Every party is preceded by its length, so that the digested
text tells the parties apart.

## Main definitions

* `SessionId`: 32 bytes
* `SessionId.preimage`, `SessionId.derive`
-/

namespace RankedKeys

/-- The name of a session. -/
structure SessionId where
  bytes : Bytes
  length_eq : bytes.length = 32
  deriving DecidableEq

namespace SessionId

/-- The name with given bytes, if there are 32. -/
def ofBytes? (bytes : Bytes) : Option SessionId :=
  if h : bytes.length = 32 then some ⟨bytes, h⟩ else none

/-- The text in front of every list of parties. -/
def label : String := "birkhoff-tss/session"

/-- A name with its length in eight bytes in front. -/
def framed (id : PartyId) : Bytes :=
  Bytes.ofNat 8 (Bytes.ofText id).length ++ Bytes.ofText id

/-- Sorts names by code points. -/
def sortIds (ids : List PartyId) : List PartyId :=
  sortBy Text.atMost ids

/-- The text that names a session: a label, the parties in order, and the nonce. -/
def preimage (ids : List PartyId) (nonce : Bytes) : Bytes :=
  Bytes.ofText label ++ (sortIds ids).flatMap framed ++ nonce

/-- The name of the session of some parties. -/
def derive (ids : List PartyId) (nonce : Bytes) : SessionId :=
  ⟨Sha256.digest (preimage ids nonce), Sha256.length_digest _⟩

end SessionId

end RankedKeys
