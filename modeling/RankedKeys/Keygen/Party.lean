import RankedKeys.Engine.Basic
import RankedKeys.Keygen.Entropy
import RankedKeys.Keygen.Round
import RankedKeys.Network

/-!
# Parties of a session

A party is an engine in the first round of a key generation or a refresh, together with its view
of the peers and the message it announces itself with.

## Main definitions

* `Party`: one side of a session
* `Party.assemble`: a party from a position and a polynomial
* `Party.generate`, `Party.refresh`: parties that draw what they need
* `Party.outcome`: what the party ends with
-/

namespace RankedKeys

variable {c : Curve}

/-- One side of a session. -/
structure Party (c : Curve) where
  engine : Engine (Round c) KeygenMessage (KeyShare c)
  view : PeerView
  /-- The message of the first round. -/
  announcement : KeygenMessage

namespace Party

/-- The party with a given polynomial, before it is started. -/
def ofDealer (dealer : Dealer c) (view : PeerView) : Party c where
  engine := .create (Round.protocol c) dealer.config.selfId view.peers.length
    (.commits dealer .empty) [commitTag, shareTag]
  view
  announcement := dealer.commitMessage

/-- The polynomial of a party: a refresh has no constant term. -/
def polynomial (previous : Option (KeyShare c)) (coefficients : List c.Scalar) : List c.Scalar :=
  match previous with
  | none => coefficients
  | some _ => coefficients.set 0 0

/-- A party at a position, with as many coefficients as the threshold asks for. -/
def assemble (config : KeygenConfig) (position : Parameter c.Scalar)
    (previous : Option (KeyShare c)) (view : PeerView) (coefficients : Nat → List c.Scalar) :
    Except Error (Party c) := do
  config.check view.peers.length
  pure (ofDealer
    { config
      position
      polynomial := polynomial previous (coefficients config.threshold.toNat)
      peerCount := view.peers.length
      previous } view)

/-- A party of a key generation. It draws its coordinate, and then its coefficients. -/
def generate (config : KeygenConfig) (view : PeerView) (entropy : Entropy) :
    Except Error (Party c) :=
  let (x, entropy) := entropy.nonzero c
  assemble config ⟨x, config.rank⟩ none view fun n => Entropy.scalars c n entropy

/-- A party of a refresh, at the position of the previous key share. It draws its coefficients. -/
def refresh (previous : KeyShare c) (sessionId : SessionId) (view : PeerView)
    (entropy : Entropy) : Except Error (Party c) := do
  let position ← previous.position
  let config : KeygenConfig :=
    { sessionId
      selfId := previous.selfId
      partyIds := previous.positions.ids
      threshold := previous.threshold
      rank := position.rank }
  assemble config position (some previous) view fun n => Entropy.scalars c n entropy

/-- What the party ends with; it waits for the end of the run. -/
def outcome (p : Party c) : Outcome (KeyShare c) :=
  match p.engine.listener.wait with
  | .pending => .pending
  | .settled (.error e) => .settled (.error e)
  | .settled (.ok _) => .settled p.engine.result

end Party

end RankedKeys
