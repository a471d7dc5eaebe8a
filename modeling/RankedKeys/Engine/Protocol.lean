import RankedKeys.Engine.Mailboxes

/-!
# Protocols of rounds

A protocol is a machine whose states are the rounds in progress. A round takes messages of one
tag, at most one from each sender, until it has enough of them; then it is closed, which hands
over messages of its own and leads to the next round or to the output.

## Main definitions

* `Protocol`: the reactions of the rounds
* `Closing`, `Transition`: what the end of a round leads to
* `Fault`: how a reaction fails
-/

namespace RankedKeys

/-- How a reaction fails: it reports an error, or it breaks off. -/
inductive Fault where
  | error (e : Error)
  | crash
  deriving DecidableEq

/-- Where a protocol goes when a round is closed. -/
inductive Transition (σ R : Type) where
  | done (output : R)
  | next (round : σ)

/-- The end of a round: messages to hand over, in order, and where the protocol goes when all of
them have been taken. -/
structure Closing (σ M R : Type) where
  outbox : List (PartyId × M)
  transition : Transition σ R

/-- The reactions of the rounds of a protocol, with rounds in progress in `σ`, messages in `M` and
the output in `R`. -/
structure Protocol (σ M R : Type) where
  /-- The tag of the messages that a round takes. -/
  tag : σ → MessageType
  /-- Whether a sender has contributed to a round. -/
  handled : σ → PartyId → Bool
  /-- Takes a message in. -/
  handle : σ → M → Except Fault σ
  /-- How many messages a round needs. -/
  quota : σ → Nat
  /-- Closes a round. -/
  close : σ → Except Fault (Closing σ M R)

end RankedKeys
