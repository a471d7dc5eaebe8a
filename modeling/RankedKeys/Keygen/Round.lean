import RankedKeys.Engine.Protocol
import RankedKeys.Keygen.Config
import RankedKeys.Keygen.KeyShare
import RankedKeys.Keygen.Message

/-!
# The rounds of key generation

Every party has a polynomial of its own. In the first round the parties commit to their
polynomials, coefficient by coefficient, and announce their positions; in the second every party
deals each peer the derivative of its polynomial at the peer's position, and the receiver checks
the share against the commitments. The sum of all polynomials is the common one: the sum of the
shares a party has got, its own included, is its share of the key, and the sum of the constant
commitments is the public key.

A refresh runs the same rounds with polynomials without constant term, whose constant commitments
are left out of the messages, and adds the outcome to a previous key share.

## Main definitions

* `Dealer`: a party's own polynomial and settings
* `Round`: the two rounds in progress
* `Refusal`: why a message is refused
* `Round.protocol`: the reactions of the rounds
-/

namespace RankedKeys

variable {c : Curve}

/-- The combination of points with given factors. -/
def combine (factors : List c.Scalar) (points : List (Point c)) : Point c :=
  (List.zipWith (· • ·) factors points).foldl (· + ·) 0

/-- The sum of lists of points of one length, column by column. -/
def columnSums (length : Nat) (lists : List (List (Point c))) : List (Point c) :=
  lists.foldl (List.zipWith (· + ·)) (List.replicate length 0)

/-- A party's own polynomial and all that is needed to deal it. -/
structure Dealer (c : Curve) where
  config : KeygenConfig
  position : Parameter c.Scalar
  /-- The coefficients, constant term first. -/
  polynomial : List c.Scalar
  peerCount : Nat
  /-- The key share that is refreshed, if this is a refresh. -/
  previous : Option (KeyShare c)
  deriving DecidableEq

/-- What a party has contributed to the first round. -/
structure PeerCommit (c : Curve) where
  position : Parameter c.Scalar
  /-- One point for each coefficient, the constant term included. -/
  commitments : List (Point c)
  deriving DecidableEq

/-- Why a message is refused. -/
inductive Refusal where
  | notCommit
  | notShare
  | notPeer (id : PartyId)
  | wrongSession
  | commitmentCount (expected actual : Nat)
  | zeroCoordinate
  | rankTooHigh (rank : UInt32) (threshold : UInt64)
  | positionChanged (id : PartyId)
  | notAddressed (receiver : PartyId)
  | noCommitment (id : PartyId)
  | shareMismatch (id : PartyId)
  deriving DecidableEq

namespace Refusal

/-- The wording of a refusal. -/
def message : Refusal → String
  | notCommit => "Expected a commitment"
  | notShare => "Expected a share"
  | notPeer id => s!"{id} is not a peer"
  | wrongSession => "Session ID mismatch"
  | commitmentCount expected actual => s!"Expected {expected} commitments, got {actual}"
  | zeroCoordinate => "Zero BK coordinate"
  | rankTooHigh rank threshold => s!"Rank {rank} must be below threshold {threshold}"
  | positionChanged id => s!"BK parameter of {id} changed"
  | notAddressed receiver => s!"Share addressed to {receiver}"
  | noCommitment id => s!"No commitment from {id}"
  | shareMismatch id => s!"Share from {id} does not match commitment"

/-- A refusal as an error. -/
def error (r : Refusal) : Error :=
  .verificationFailed r.message

end Refusal

namespace Dealer

/-- The number of coefficients. -/
def threshold (d : Dealer c) : Nat :=
  d.config.threshold.toNat

/-- Whether this is a refresh. -/
def isRefresh (d : Dealer c) : Bool :=
  d.previous.isSome

/-- How many constant commitments the messages leave out. -/
def omitted (d : Dealer c) : Nat :=
  if d.isRefresh then 1 else 0

/-- The commitments to all coefficients. -/
def commitments (d : Dealer c) : List (Point c) :=
  d.polynomial.map (· • c.generator)

/-- What this party contributes to the first round. -/
def ownCommit (d : Dealer c) : PeerCommit c :=
  ⟨d.position, d.commitments⟩

/-- The message of the first round. -/
def commitMessage (d : Dealer c) : KeygenMessage :=
  .commit
    { sender := d.config.selfId
      sessionId := d.config.sessionId
      coordinate := Curve.scalarBytes d.position.x
      rank := d.position.rank
      commitments := (d.commitments.drop d.omitted).map Point.toBytes }

/-- The message that deals a share to the party at a position. -/
def shareMessage (d : Dealer c) (receiver : PartyId) (position : Parameter c.Scalar) :
    KeygenMessage :=
  .share
    { sender := d.config.selfId
      receiver
      sessionId := d.config.sessionId
      share := Curve.scalarBytes (position.evaluate d.polynomial) }

/-- A sender has to be one of the other parties. -/
def checkSender (d : Dealer c) (id : PartyId) : Except Error Unit :=
  if id = d.config.selfId ∨ id ∉ d.config.partyIds then .error (Refusal.notPeer id).error
  else .ok ()

/-- A message has to belong to this session. -/
def checkSession (d : Dealer c) (id : SessionId) : Except Error Unit :=
  if id ≠ d.config.sessionId then .error Refusal.wrongSession.error else .ok ()

/-- A refresh keeps every party at its position. -/
def checkPosition (d : Dealer c) (id : PartyId) (position : Parameter c.Scalar) :
    Except Error Unit :=
  match d.previous with
  | none => .ok ()
  | some previous =>
    if previous.positions.find? id ≠ some position then .error (Refusal.positionChanged id).error
    else .ok ()

/-- Checks a message of the first round. -/
def acceptCommit (d : Dealer c) (m : CommitMessage) : Except Error (PeerCommit c) := do
  d.checkSender m.sender
  d.checkSession m.sessionId
  if d.omitted + m.commitments.length ≠ d.threshold then
    throw (Refusal.commitmentCount (d.threshold - d.omitted) m.commitments.length).error
  let points ← m.commitments.mapM (Point.ofBytes c)
  let x ← Curve.scalarOfBytes (c := c) m.coordinate
  if x = 0 then
    throw Refusal.zeroCoordinate.error
  if d.threshold ≤ m.rank.toNat then
    throw (Refusal.rankTooHigh m.rank d.config.threshold).error
  let position : Parameter c.Scalar := ⟨x, m.rank⟩
  d.checkPosition m.sender position
  -- The commitments that a refresh leaves out are those to zero.
  pure ⟨position, List.replicate d.omitted 0 ++ points⟩

/-- Checks a message of the second round. -/
def acceptShare (d : Dealer c) (commits : Roster (PeerCommit c)) (m : ShareMessage) :
    Except Error c.Scalar := do
  d.checkSender m.sender
  d.checkSession m.sessionId
  if m.receiver ≠ d.config.selfId then
    throw (Refusal.notAddressed m.receiver).error
  match commits.find? m.sender with
  | none => throw (Refusal.noCommitment m.sender).error
  | some commit =>
    let share ← Curve.scalarOfBytes (c := c) m.share
    -- What the commitments of the dealer combine to at this party's position.
    if share • c.generator ≠ combine (d.position.row d.threshold) commit.commitments then
      throw (Refusal.shareMismatch m.sender).error
    pure share

end Dealer

/-- A round in progress. -/
inductive Round (c : Curve) where
  /-- The first round, with what the peers have contributed. -/
  | commits (dealer : Dealer c) (received : Roster (PeerCommit c))
  /-- The second round, with what all parties have contributed to the first, and the shares. -/
  | shares (dealer : Dealer c) (commits : Roster (PeerCommit c)) (received : Roster c.Scalar)

namespace Round

/-- The tag of the messages that a round takes. -/
def tag : Round c → MessageType
  | commits .. => commitTag
  | shares .. => shareTag

/-- Whether a sender has contributed to a round. -/
def handled : Round c → PartyId → Bool
  | commits _ received, id => received.contains id
  | shares _ _ received, id => received.contains id

/-- How many messages a round needs. -/
def quota : Round c → Nat
  | commits dealer _ => dealer.peerCount
  | shares dealer _ _ => dealer.peerCount

/-- Takes a message in. -/
def handle : Round c → KeygenMessage → Except Error (Round c)
  | commits dealer received, m =>
    match m with
    | .commit m => do
      let commit ← dealer.acceptCommit m
      pure (commits dealer (received.insert m.sender commit))
    | .share _ => .error Refusal.notCommit.error
  | shares dealer committed received, m =>
    match m with
    | .share m => do
      let share ← dealer.acceptShare committed m
      pure (shares dealer committed (received.insert m.sender share))
    | .commit _ => .error Refusal.notShare.error

/-- The end of the first round: the positions have to form a scheme, and every peer is dealt its
share, in the order of the peers. -/
def closeCommits (dealer : Dealer c) (received : Roster (PeerCommit c)) :
    Except Error (Closing (Round c) KeygenMessage (KeyShare c)) := do
  -- The party's own contribution counts like those of its peers.
  let committed := received.insert dealer.config.selfId dealer.ownCommit
  checkValid dealer.threshold (committed.values.map (·.position))
  pure
    { outbox := received.entries.map fun (id, commit) =>
        (id, dealer.shareMessage id commit.position)
      transition := .next (shares dealer committed .empty) }

/-- The share times the generator of every party in this run. -/
def partialKeys (dealer : Dealer c) (committed : Roster (PeerCommit c)) : Roster (Point c) :=
  let sums := columnSums dealer.threshold (committed.values.map (·.commitments))
  committed.map fun commit => combine (commit.position.row dealer.threshold) sums

/-- The sum of the constant commitments. -/
def constantSum (committed : Roster (PeerCommit c)) : Point c :=
  (committed.values.map fun commit => commit.commitments.headD 0).foldl (· + ·) 0

/-- The sum of the shares dealt to this party, its own included. -/
def shareSum (dealer : Dealer c) (received : Roster c.Scalar) : c.Scalar :=
  received.values.foldl (· + ·) (dealer.position.evaluate dealer.polynomial)

/-- Adds the partial keys of a refresh to the previous ones. -/
def addPartialKeys (previous : Roster (Point c)) :
    List (PartyId × Point c) → Except Error (List (PartyId × Point c))
  | [] => .ok []
  | (id, point) :: rest =>
    match previous.find? id with
    | none => .error (.verificationFailed s!"No partial public key for {id}")
    | some old => do
      let rest ← addPartialKeys previous rest
      pure ((id, point + old) :: rest)

/-- The share, the public key and the partial keys that a run ends with. -/
def outcome (dealer : Dealer c) (committed : Roster (PeerCommit c)) (received : Roster c.Scalar) :
    Except Error (c.Scalar × PublicKey c × Roster (Point c)) :=
  let share := shareSum dealer received
  let points := partialKeys dealer committed
  match dealer.previous with
  | none =>
    match (constantSum committed).key? with
    -- The constant terms cancel out.
    | none => .error (.verificationFailed "Public key is the identity")
    | some key => .ok (share, key, points)
  | some previous => do
    let entries ← addPartialKeys previous.partialKeys points.entries
    pure (share + previous.share, previous.publicKey, Roster.ofList entries)

/-- The end of the second round: the share has to fit the party's own partial key. -/
def closeShares (dealer : Dealer c) (committed : Roster (PeerCommit c))
    (received : Roster c.Scalar) :
    Except Error (Closing (Round c) KeygenMessage (KeyShare c)) := do
  let (share, publicKey, points) ← outcome dealer committed received
  if points.find? dealer.config.selfId ≠ some (share • c.generator) then
    throw (.verificationFailed "Share does not match partial public key")
  pure
    { outbox := []
      transition := .done
        { sessionId := dealer.config.sessionId
          selfId := dealer.config.selfId
          threshold := dealer.config.threshold
          share
          publicKey
          positions := committed.map (·.position)
          partialKeys := points } }

/-- Closes a round. -/
def close : Round c → Except Error (Closing (Round c) KeygenMessage (KeyShare c))
  | commits dealer received => closeCommits dealer received
  | shares dealer committed received => closeShares dealer committed received

/-- The protocol of the two rounds. No reaction breaks off. -/
def protocol (c : Curve) : Protocol (Round c) KeygenMessage (KeyShare c) where
  tag := tag
  handled := handled
  handle round m := (round.handle m).mapError .error
  quota := quota
  close round := round.close.mapError .error

end Round

end RankedKeys
