import RankedKeys.Keygen.SessionId
import RankedKeys.Recovery.Config

/-!
# Key shares

What a party holds at the end of a key generation or of a refresh.

## Main definitions

* `KeyShare`: the share, the public key, and the positions and partial public keys of all parties
* `KeyShare.rankedShare`: the share with its position
* `KeyShare.summary`: a text that does not show the share
* `RecoveryConfig.ofKeyShares`: the configuration that recovers the key
* `recoverFromShares`: the key of several shares
-/

namespace RankedKeys

variable {c : Curve}

/-- What a party holds at the end of a run. -/
structure KeyShare (c : Curve) where
  sessionId : SessionId
  selfId : PartyId
  threshold : UInt64
  /-- The derivative of the common polynomial at the party's position. -/
  share : c.Scalar
  publicKey : PublicKey c
  /-- The position of every party. -/
  positions : Roster (Parameter c.Scalar)
  /-- The share of every party times the generator. -/
  partialKeys : Roster (Point c)
  deriving DecidableEq

namespace KeyShare

/-- The party's own position. -/
def position (k : KeyShare c) : Except Error (Parameter c.Scalar) :=
  match k.positions.find? k.selfId with
  | some position => .ok position
  | none => .error (.internal s!"No BK parameter for {k.selfId}")

/-- The share with its position. -/
def rankedShare (k : KeyShare c) : Except Error (RankedShare c.Scalar) := do
  let position ← k.position
  pure ⟨k.share, position⟩

/-- The public key in hexadecimal. -/
def publicKeyHex (k : KeyShare c) : String :=
  k.publicKey.toBytes.toHex

/-- Texts with commas between them. -/
def listed (texts : List String) : String :=
  String.intercalate ", " texts

/-- A text that does not show the share. -/
def summary (k : KeyShare c) : String :=
  "DkgResult \x7b self_id: " ++ Text.quoted k.selfId ++ ", threshold: " ++ toString k.threshold ++
    ", public_key: " ++ Text.quoted k.publicKeyHex ++ ", parties: [" ++
    listed (k.positions.ids.map Text.quoted) ++ "], .. \x7d"

/-- The record of a share in a recovery configuration. -/
def toPeerRecord (k : KeyShare c) : Except Error PeerRecord := do
  let position ← k.position
  pure { id := k.selfId
         share := Curve.scalarToDecimal k.share
         position := { x := Curve.scalarToDecimal position.x, rank := position.rank } }

end KeyShare

/-- The configuration that recovers the key of several shares. The first share tells the threshold
and the public key. -/
def RecoveryConfig.ofKeyShares (shares : List (KeyShare .secp256k1)) :
    Except Error RecoveryConfig :=
  match shares with
  | [] => .error (.notEnoughPeers 0)
  | first :: _ => do
    let (x, y) := first.publicKey.toDecimal
    let peers ← shares.mapM KeyShare.toPeerRecord
    pure { curve := some CurveName.secp256k1.label
           threshold := first.threshold
           key := { x, y }
           peers }

/-- The key of several shares. The first share tells the threshold and the public key. -/
def recoverFromShares (first : KeyShare c) (shares : List (KeyShare c)) :
    Except Error c.Scalar := do
  let peers ← shares.mapM KeyShare.rankedShare
  recoverKey first.threshold.toNat first.publicKey peers

end RankedKeys
