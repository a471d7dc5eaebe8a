import RankedKeys.Basic

/-!
# Errors

Every way in which a call or a run can fail, and the one place that words it.

## Main definitions

* `Error`: the causes
* `Error.message`: the wording
* `Outcome`: the answer of a call that may have to wait
-/

namespace RankedKeys

/-- The cause of a failure. Where the cause lies in data from outside, it carries its own
description. -/
inductive Error where
  /-- The transport's sender is not the one the message names. -/
  | identityMismatch (sender claimed : PartyId)
  /-- The message belongs to a round that is over. -/
  | staleMessage (current received : MessageType)
  /-- A party contributed twice to one round. -/
  | duplicateSender (sender : PartyId) (round : MessageType)
  | queueRejected (reason : String)
  /-- A round refused a message. -/
  | handlerValidationFailed (sender : PartyId) (reason : String)
  | finalizeFailed (reason : String)
  | cancelled
  | invalidStateTransition (old new : RunState)
  | notReady
  /-- The parameters do not determine a polynomial. -/
  | singularScheme (reason : String)
  | duplicateCoordinate
  | thresholdNotMet (required actual : Nat)
  | invalidThreshold (threshold : Nat)
  | publicKeyMismatch
  | notEnoughPeers (actual : Nat)
  | absentCurve
  | unsupportedCurve (name : String)
  | invalidConfig (reason : String)
  | relay (reason : String)
  | verificationFailed (reason : String)
  | serialization (reason : String)
  | deserialization (reason : String)
  | internal (reason : String)
  deriving DecidableEq, Repr

/-- The wording of an error. -/
def Error.message : Error → String
  | identityMismatch sender claimed =>
    s!"Identity mismatch: sender {sender}, message claims {claimed}"
  | staleMessage current received =>
    s!"Stale message: current type {current}, got {received}"
  | duplicateSender sender round => s!"Duplicate message from {sender} for type {round}"
  | queueRejected reason => s!"Queue rejected message: {reason}"
  | handlerValidationFailed sender reason =>
    s!"Handler validation failed for {sender}: {reason}"
  | finalizeFailed reason => s!"Finalize failed: {reason}"
  | cancelled => "Run cancelled"
  | invalidStateTransition old new =>
    s!"Invalid state transition: {old.name} -> {new.name}"
  | notReady => "Result not ready"
  | singularScheme reason => s!"Singular scheme: {reason}"
  | duplicateCoordinate => "Duplicate BK coordinate"
  | thresholdNotMet required actual =>
    s!"Threshold not met: required {required}, got {actual}"
  | invalidThreshold threshold => s!"Invalid threshold: {threshold}"
  | publicKeyMismatch => "Public key derived from the recovered private key does not match"
  | notEnoughPeers actual => s!"Not enough peers: need at least 2, got {actual}"
  | absentCurve => "Curve is absent"
  | unsupportedCurve name => s!"Unsupported curve: {name}"
  | invalidConfig reason => s!"Invalid configuration: {reason}"
  | relay reason => s!"Relay error: {reason}"
  | verificationFailed reason => s!"Message verification failed: {reason}"
  | serialization reason => s!"Serialization error: {reason}"
  | deserialization reason => s!"Deserialization error: {reason}"
  | internal reason => s!"Internal error: {reason}"

/-- The answer of a call that may have to wait for something to happen first. -/
inductive Outcome (α : Type) where
  | pending
  | settled (answer : Except Error α)

/-- Gives a task to each receiver in turn and stops at the first refusal, whose error is the
answer; the receivers after it get nothing. -/
def handEach {α σ : Type} (give : α → σ → Except Error Unit × σ) :
    List α → σ → Except Error Unit × σ
  | [], s => (.ok (), s)
  | a :: rest, s =>
    match give a s with
    | (.error e, s) => (.error e, s)
    | (.ok (), s) => handEach give rest s

end RankedKeys
