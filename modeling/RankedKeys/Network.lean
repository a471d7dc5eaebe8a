import RankedKeys.Error

/-!
# Local networks

A network routes messages to the receivers that have registered, by name. A party sees it as a
list of peers: the given names without its own.

## Main definitions

* `Network`: the registered receivers
* `PeerView`: a party's view of its peers
* `Network.deliver`, `PeerView.broadcast`: handing messages over
* `Network.connected`: whether all peers of a view have registered
-/

namespace RankedKeys

/-- The registered receivers by name, the latest registration first. -/
structure Network (κ : Type) where
  sinks : List (PartyId × κ)

namespace Network

variable {κ M σ : Type}

/-- Nobody has registered. -/
def empty : Network κ := ⟨[]⟩

/-- Forgets the receiver of a name. -/
def unregister (n : Network κ) (id : PartyId) : Network κ :=
  ⟨n.sinks.filter (·.1 != id)⟩

/-- Registers a receiver, in place of the one that had the name before. -/
def register (n : Network κ) (id : PartyId) (sink : κ) : Network κ :=
  ⟨(id, sink) :: (n.unregister id).sinks⟩

/-- The receiver of a name. -/
def find? (n : Network κ) (id : PartyId) : Option κ :=
  n.sinks.lookup id

/-- Whether a name has a receiver. -/
def isRegistered (n : Network κ) (id : PartyId) : Bool :=
  (n.find? id).isSome

/-- The refusal of a message to a name without a receiver. -/
def unknownPeer (id : PartyId) : Error :=
  .relay s!"unknown peer {id}"

/-- Gives a message to the receiver of a name; `accept` is what receivers do with a message of a
sender. -/
def deliver (n : Network κ) (accept : κ → PartyId → M → σ → Except Error Unit × σ)
    (sender receiver : PartyId) (m : M) (s : σ) : Except Error Unit × σ :=
  match n.find? receiver with
  | none => (.error (unknownPeer receiver), s)
  | some sink => accept sink sender m s

end Network

/-- What a party sees of a network: under which name it sends, and to whom. -/
structure PeerView where
  self : PartyId
  peers : List PartyId
  deriving DecidableEq

namespace PeerView

variable {M σ : Type}

/-- The view of a party on given names. -/
def create (self : PartyId) (ids : List PartyId) : PeerView :=
  ⟨self, ids.filter (· != self)⟩

/-- Sends a message to every peer in turn, up to the first refusal. -/
def broadcast (v : PeerView) (send : PartyId → M → σ → Except Error Unit × σ) (m : M) (s : σ) :
    Except Error Unit × σ :=
  handEach (send · m) v.peers s

end PeerView

/-- Whether all peers of a view have registered. -/
def Network.connected {κ : Type} (n : Network κ) (v : PeerView) : Bool :=
  v.peers.all n.isRegistered

end RankedKeys
