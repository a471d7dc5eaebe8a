import RankedKeys.Keygen.Party

/-!
# Sessions of several parties

An ensemble is a number of parties on one network. What a party sends either goes straight to the
receiver or waits in a common outbox until somebody delivers it. Consumers get turns one at a
time; those that have something to do stand in line, in the order in which they came to have it.

## Main definitions

* `Ensemble`: the parties, the network, the outbox and the line
* `Ensemble.start`, `Ensemble.stop`, `Ensemble.deliver`: what can happen to it
* `Ensemble.turn`: the turn of one consumer
* `Ensemble.settle`: turns until every consumer rests
* `Ensemble.drain`: delivers the outbox
* `Ensemble.run`: a whole session without an outbox
-/

namespace RankedKeys

variable {c : Curve}

/-- A message on its way. -/
structure Parcel where
  sender : PartyId
  receiver : PartyId
  message : KeygenMessage
  deriving DecidableEq

/-- Parties on one network. -/
structure Ensemble (c : Curve) where
  parties : List (Party c)
  /-- The registered parties, by their places in the list. -/
  network : Network Nat
  /-- The messages that nobody has delivered, oldest first. -/
  outbox : List Parcel
  /-- Whether messages go straight to their receivers. -/
  direct : Bool
  /-- The places of the parties whose consumers have something to do, in line. -/
  line : List Nat

namespace Ensemble

/-- Nobody takes part. -/
def empty (direct : Bool) : Ensemble c := ⟨[], .empty, [], direct, []⟩

/-- One more party takes part; it may be left out of the network at first. -/
def add (s : Ensemble c) (id : PartyId) (p : Party c) (registered : Bool) : Ensemble c :=
  { s with
    parties := s.parties ++ [p]
    network := if registered then s.network.register id s.parties.length else s.network }

/-- A party whose consumer has come to have something to do gets in line. -/
def wake (s : Ensemble c) (i : Nat) : Ensemble c :=
  match s.parties[i]? with
  | some p => if p.engine.isReady && !s.line.contains i then { s with line := s.line ++ [i] } else s
  | none => s

/-- Puts the engine of a party in place of the one before. -/
def setEngine (s : Ensemble c) (i : Nat) (e : Engine (Round c) KeygenMessage (KeyShare c)) :
    Ensemble c :=
  { s with parties := s.parties.modify i fun p => { p with engine := e } }

/-- Does something to the engine of a party. -/
def modifyEngine (s : Ensemble c) (i : Nat)
    (f : Engine (Round c) KeygenMessage (KeyShare c) →
      Engine (Round c) KeygenMessage (KeyShare c)) : Ensemble c :=
  { s with parties := s.parties.modify i fun p => { p with engine := f p.engine } }

/-- A party takes a message of a sender in, or refuses it. -/
def accept (i : Nat) (sender : PartyId) (m : KeygenMessage) (s : Ensemble c) :
    Except Error Unit × Ensemble c :=
  match s.parties[i]? with
  | none => (.error (Network.unknownPeer sender), s)
  | some p =>
    match p.engine.addMessage sender m with
    | .error e => (.error e, s)
    | .ok e => (.ok (), (s.setEngine i e).wake i)

/-- The network delivers a message. -/
def deliver (sender receiver : PartyId) (m : KeygenMessage) (s : Ensemble c) :
    Except Error Unit × Ensemble c :=
  s.network.deliver accept sender receiver m s

/-- A party sends a message: it is delivered, or put into the outbox. -/
def send (self receiver : PartyId) (m : KeygenMessage) (s : Ensemble c) :
    Except Error Unit × Ensemble c :=
  if s.direct then s.deliver self receiver m
  else (.ok (), { s with outbox := s.outbox ++ [⟨self, receiver, m⟩] })

/-- Starts a party: its consumer is started, and its announcement goes to all peers. If a peer
refuses it the party is stopped again. -/
def start (i : Nat) (s : Ensemble c) : Except Error Unit × Ensemble c :=
  match s.parties[i]? with
  | none => (.ok (), s)
  | some p =>
    -- The consumer is in line before the announcement is out.
    let s := (s.modifyEngine i Engine.start).wake i
    match p.view.broadcast (send p.view.self) p.announcement s with
    | (.ok (), s) => (.ok (), s)
    | (.error e, s) => (.error e, (s.modifyEngine i Engine.stop).wake i)

/-- Stops a party. -/
def stop (i : Nat) (s : Ensemble c) : Ensemble c :=
  (s.modifyEngine i Engine.stop).wake i

/-- One move of the consumer of a party. -/
def move (i : Nat) (s : Ensemble c) : Ensemble c :=
  match s.parties[i]? with
  | none => s
  | some p =>
    match p.engine.advance (Round.protocol c) with
    | .rest => s
    | .moved e => s.setEngine i e
    | .handOver e closing =>
      -- The engine stays in the round that it closes until its messages have been handed over.
      let (handed, s) := handEach (fun (receiver, m) => send p.view.self receiver m) closing.outbox
        (s.setEngine i e)
      s.modifyEngine i fun e => e.conclude (Round.protocol c) handed closing.transition

/-- A turn of the consumer of a party: it moves until it has to wait. -/
def turn (i : Nat) (s : Ensemble c) : Ensemble c :=
  match s.parties[i]? with
  | none => s
  | some p => (Engine.repeated (move i) (p.engine.mailboxes.size + 1) s).wake i

/-- At most some turns, of the consumers in line. -/
def settleWithin : Nat → Ensemble c → Ensemble c
  | 0, s => s
  | n + 1, s =>
    match s.line with
    | [] => s
    -- A party that still has something to do gets in line again, behind the others.
    | i :: line => settleWithin n (turn i { s with line })

/-- A bound for the turns that are still to come: one for each party in line, and for each party
one that is its own and one for each share that it deals. -/
def pendingTurns (s : Ensemble c) : Nat :=
  s.line.length + s.parties.length + (s.parties.flatMap fun p => p.view.peers).length

/-- Gives turns until every consumer rests. -/
def settle (s : Ensemble c) : Ensemble c :=
  settleWithin s.pendingTurns s

/-- Delivers at most some parcels from the front of the outbox; the consumers come to rest after
each. -/
def drainWithin : Nat → Ensemble c → List (Parcel × Except Error Unit) × Ensemble c
  | 0, s => ([], s)
  | n + 1, s =>
    match s.outbox with
    | [] => ([], s)
    | parcel :: outbox =>
      let (answer, s) := deliver parcel.sender parcel.receiver parcel.message { s with outbox }
      let (answers, s) := drainWithin n s.settle
      ((parcel, answer) :: answers, s)

/-- Delivers from the front of the outbox until it is empty. -/
def drain (s : Ensemble c) : List (Parcel × Except Error Unit) × Ensemble c :=
  drainWithin (s.outbox.length + s.pendingTurns) s

/-- Whether every consumer rests. -/
def atRest (s : Ensemble c) : Bool :=
  s.parties.all fun p => !p.engine.isReady

/-- Starts all parties in order and lets them come to rest. A party that cannot be started ends
with that error. -/
def run (s : Ensemble c) : List (Except Error (KeyShare c)) :=
  let (started, s) := (List.range s.parties.length).foldl
    (fun (started, s) i =>
      let (answer, s) := start i s
      (started ++ [answer], s))
    (([] : List (Except Error Unit)), s)
  List.zipWith
    (fun answer (p : Party c) =>
      match answer with
      | .error e => .error e
      | .ok () => p.engine.result)
    started s.settle.parties

end Ensemble

end RankedKeys
