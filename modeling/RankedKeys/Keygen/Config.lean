import RankedKeys.Birkhoff.Scheme
import RankedKeys.Keygen.SessionId

/-!
# Settings of a key generation

## Main definitions

* `KeygenConfig`: the settings of one party
* `KeygenConfig.check`: whether they fit together
-/

namespace RankedKeys

/-- The settings of one party. -/
structure KeygenConfig where
  sessionId : SessionId
  selfId : PartyId
  /-- All parties, this one included. -/
  partyIds : List PartyId
  threshold : UInt64
  rank : UInt32
  deriving DecidableEq

/-- Why settings do not fit together. -/
inductive KeygenConfig.Misfit where
  | duplicateParty
  | notParticipant (id : PartyId)
  | rankTooHigh (rank : UInt32) (threshold : UInt64)
  | peerCount (known parties : Nat)

namespace KeygenConfig

/-- The wording of a misfit. -/
def Misfit.message : Misfit → String
  | duplicateParty => "Duplicate party ID"
  | notParticipant id => s!"{id} is not a participant"
  | rankTooHigh rank threshold => s!"Rank {rank} must be below threshold {threshold}"
  | peerCount known parties => s!"Peer manager knows {known} peers, session has {parties} parties"

/-- A misfit as an error. -/
def Misfit.error (m : Misfit) : Error :=
  .invalidConfig m.message

/-- Whether the settings fit together. -/
def validate (config : KeygenConfig) : Except Error Unit := do
  ensureThreshold config.threshold.toNat config.partyIds.length
  if ¬ config.partyIds.Nodup then
    throw Misfit.duplicateParty.error
  if config.selfId ∉ config.partyIds then
    throw (Misfit.notParticipant config.selfId).error
  if config.threshold.toNat ≤ config.rank.toNat then
    throw (Misfit.rankTooHigh config.rank config.threshold).error

/-- Whether the settings fit together and all but one of the parties are known peers. -/
def check (config : KeygenConfig) (knownPeers : Nat) : Except Error Unit := do
  config.validate
  if knownPeers + 1 ≠ config.partyIds.length then
    throw (Misfit.peerCount knownPeers config.partyIds.length).error

end KeygenConfig

end RankedKeys
