import RankedKeys.Curve.Standard
import RankedKeys.Recovery.Share

/-!
# Recovery configurations

All that is needed to recover a key, as an operator writes it down: numbers are decimal text, and
the peers are named.

## Main definitions

* `RecoveryConfig`: the record
* `RecoveryConfig.recover`: the key it describes
* `RecoveredKey`: a private key with its public key
-/

namespace RankedKeys

/-- The coordinates of a public key as decimal text. -/
structure KeyRecord where
  x : String
  y : String
  deriving DecidableEq

/-- A position with its coordinate as decimal text. -/
structure PositionRecord where
  x : String
  rank : UInt32
  deriving DecidableEq

/-- The share of one peer. -/
structure PeerRecord where
  id : PartyId
  share : String
  position : PositionRecord
  deriving DecidableEq

/-- All that is needed to recover a key. -/
structure RecoveryConfig where
  curve : Option String
  threshold : UInt64
  key : KeyRecord
  peers : List PeerRecord
  deriving DecidableEq

/-- A private key with its public key. -/
structure RecoveredKey where
  curve : CurveName
  /-- The scalar, 32 bytes. -/
  privateKey : Bytes
  /-- The point in its written form. -/
  publicKey : Bytes
  deriving DecidableEq

namespace RecoveryConfig

/-- Shares and positions by peer, as far as they have been read. -/
structure Tally (c : Curve) where
  shares : Roster c.Scalar
  positions : Roster (Parameter c.Scalar)

/-- Reads the record of one peer; no two peers may have one name. -/
def Tally.add {c : Curve} (t : Tally c) (peer : PeerRecord) : Except Error (Tally c) := do
  let share ← c.scalarOfDecimal peer.share
  let x ← c.scalarOfDecimal peer.position.x
  if t.shares.contains peer.id then
    throw (.invalidConfig s!"Duplicate peer {peer.id}")
  pure { shares := t.shares.insert peer.id share
         positions := t.positions.insert peer.id ⟨x, peer.position.rank⟩ }

/-- The private and the public key on a given curve. -/
def recoverOn (config : RecoveryConfig) (c : Curve) :
    Except Error (c.Scalar × PublicKey c) := do
  let tally ← config.peers.foldlM Tally.add (⟨.empty, .empty⟩ : Tally c)
  let peers ← RankedShare.pair tally.shares tally.positions
  let key ← PublicKey.ofDecimal c config.key.x config.key.y
  let secret ← recoverKey config.threshold.toNat key peers
  pure (secret, key)

/-- Recovers the key that a configuration describes. -/
def recover (config : RecoveryConfig) : Except Error RecoveredKey := do
  if config.peers.length < 2 then
    throw (.notEnoughPeers config.peers.length)
  match config.curve with
  | none => throw .absentCurve
  | some spelling =>
    let name ← CurveName.parse spelling
    let (secret, key) ← config.recoverOn name.curve
    pure { curve := name, privateKey := Curve.scalarBytes secret, publicKey := key.toBytes }

end RecoveryConfig

end RankedKeys
