import RankedKeys.Engine.Listener
import RankedKeys.Engine.Protocol

/-!
# The round engine

An engine runs one protocol for one party. Messages come in at any time and wait in mailboxes; the
consumer takes those of the current round one by one whenever it gets a turn. A run ends once, with
an output or with an error, and the end is announced.

The consumer has no turn before it is started, and after it has ended. Stopping an engine lowers
`running`; the consumer notices at its next turn, before it looks at any message. If the runtime is
shut down, a consumer that has had a turn breaks off; one that has not leaves no trace.

## Main definitions

* `Engine`, `Consumer`: the state of an engine
* `Engine.start`, `Engine.stop`, `Engine.addMessage`, `Engine.shutdown`: what others do to it
* `Engine.advance`, `Engine.conclude`: one move of the consumer
* `Engine.step`, `Engine.turn`: the consumer of an engine whose messages are all taken
* `Engine.state`, `Engine.result`: how the run stands
-/

namespace RankedKeys

/-- The task that takes messages out of the mailboxes, with the round in progress. -/
inductive Consumer (σ : Type) where
  | unstarted (round : σ)
  /-- Started, but without a turn so far. -/
  | spawned (round : σ)
  /-- In a round that has taken some messages in. -/
  | active (round : σ) (count : Nat)
  | ended

/-- An engine of one party. -/
structure Engine (σ M R : Type) where
  selfId : PartyId
  peerCount : Nat
  mailboxes : Mailboxes M
  /-- The tag of the round in progress. -/
  tag : MessageType
  consumer : Consumer σ
  /-- Started, and neither stopped nor over. -/
  running : Bool
  /-- Whether the runtime that gives turns is up. -/
  live : Bool
  outcome : Option (Except Error R)
  /-- The announced changes of state, first to last. -/
  calls : List (RunState × RunState)

/-- A move of the consumer. -/
inductive Move (σ M R : Type) where
  /-- There is nothing to do. -/
  | rest
  | moved (e : Engine σ M R)
  /-- A round is closed: its messages are to be handed over, and then the move is concluded. -/
  | handOver (e : Engine σ M R) (closing : Closing σ M R)

namespace Engine

variable {σ M R : Type} [Tagged M]

/-- An engine that has not been started. Every mailbox has room for one message of each peer. -/
def create (P : Protocol σ M R) (selfId : PartyId) (peerCount : Nat) (round : σ)
    (types : List MessageType) : Engine σ M R where
  selfId
  peerCount
  mailboxes := .create peerCount types
  tag := P.tag round
  consumer := .unstarted round
  running := false
  live := true
  outcome := none
  calls := []

/-- How the run stands. -/
def state (e : Engine σ M R) : RunState :=
  match e.outcome with
  | none => .init
  | some (.ok _) => .done
  | some (.error _) => .failed

/-- The output of the run, or the error that ended it. -/
def result (e : Engine σ M R) : Except Error R :=
  match e.outcome with
  | none => .error .notReady
  | some r => r

/-- All that the announcements tell. -/
def listener (e : Engine σ M R) : Listener :=
  .ofCalls e.calls

/-- The state that a run ends in. -/
def endState : Except Error R → RunState
  | .ok _ => .done
  | .error _ => .failed

/-- Ends the run and announces it. -/
def finish (e : Engine σ M R) (outcome : Except Error R) : Engine σ M R :=
  { e with
    consumer := .ended
    running := false
    outcome := some outcome
    calls := e.calls ++ [(e.state, endState outcome)] }

/-- Starts the consumer, once. -/
def start (e : Engine σ M R) : Engine σ M R :=
  match e.consumer with
  | .unstarted round => { e with consumer := .spawned round, running := true }
  | _ => e

/-- Stops the consumer. -/
def stop (e : Engine σ M R) : Engine σ M R :=
  { e with running := false }

/-- Takes a message from a sender in, if it is the one that the message names, if the message's
round is not over, and if its mailbox has room. -/
def addMessage (e : Engine σ M R) (sender : PartyId) (m : M) : Except Error (Engine σ M R) :=
  if sender ≠ Tagged.sender m then
    .error (.identityMismatch sender (Tagged.sender m))
  -- A message of a later round is taken in and waits.
  else if Tagged.tag m < e.tag then
    .error (.staleMessage e.tag (Tagged.tag m))
  else do
    let mailboxes ← e.mailboxes.push m
    pure { e with mailboxes }

/-- The error of a run whose consumer broke off. -/
def aborted : Error := .internal "consumer task aborted"

/-- Takes the runtime down. -/
def shutdown (e : Engine σ M R) : Engine σ M R :=
  match e.consumer with
  | .active .. => if e.live then { e.finish (.error aborted) with live := false } else e
  -- A consumer that has not had its first turn is dropped without an announcement.
  | _ => { e with live := false }

/-- The round in progress and the number of messages it has taken in, if the consumer can get a
turn. -/
def inProgress (e : Engine σ M R) : Option (σ × Nat) :=
  if e.live then
    match e.consumer with
    | .spawned round => some (round, 0)
    | .active round count => some (round, count)
    | _ => none
  else none

/-- The error that a fault in taking a message in ends the run with. -/
def handlingError (sender : PartyId) : Fault → Error
  | .error e => .handlerValidationFailed sender e.message
  | .crash => aborted

/-- The error that a fault in closing a round ends the run with. -/
def closingError : Fault → Error
  | .error e => .finalizeFailed e.message
  | .crash => aborted

/-- The round in progress takes a message in, and is closed when it has enough. -/
def consume (P : Protocol σ M R) (e : Engine σ M R) (round : σ) (count : Nat) (m : M) :
    Move σ M R :=
  let sender := Tagged.sender m
  if P.handled round sender then
    .moved (e.finish (.error (.duplicateSender sender e.tag)))
  else
    match P.handle round m with
    | .error fault => .moved (e.finish (.error (handlingError sender fault)))
    | .ok round =>
      let e := { e with consumer := .active round (count + 1) }
      if count + 1 < P.quota round then .moved e
      else
        -- The last message closes the round within the same move.
        match P.close round with
        | .error fault => .moved (e.finish (.error (closingError fault)))
        | .ok closing => .handOver e closing

/-- The next move of the consumer. A stopped consumer ends before it looks at a message. -/
def advance (P : Protocol σ M R) (e : Engine σ M R) : Move σ M R :=
  match e.inProgress with
  | none => .rest
  | some (round, count) =>
    match e.mailboxes.pop e.tag !e.running with
    | .pending =>
      -- The first turn of a consumer counts as a move even if nothing waits.
      match e.consumer with
      | .spawned _ => .moved { e with consumer := .active round count }
      | _ => .rest
    | .settled (.error error) => .moved (e.finish (.error error))
    | .settled (.ok (m, mailboxes)) => consume P { e with mailboxes } round count m

/-- Whether the consumer has something to do when it gets a turn. -/
def isReady (e : Engine σ M R) : Bool :=
  match e.inProgress with
  | none => false
  | some _ =>
    match e.mailboxes.pop e.tag !e.running with
    | .pending =>
      match e.consumer with
      | .spawned _ => true
      | _ => false
    | .settled _ => true

/-- Ends a move in which messages were handed over: if one was refused the run fails, otherwise
the protocol goes on. -/
def conclude (P : Protocol σ M R) (e : Engine σ M R) (handed : Except Error Unit)
    (transition : Transition σ R) : Engine σ M R :=
  match handed with
  | .error error => e.finish (.error (closingError (.error error)))
  | .ok () =>
    match transition with
    | .done output => e.finish (.ok output)
    -- Messages of the next round may be waiting already.
    | .next round => { e with tag := P.tag round, consumer := .active round 0 }

/-- One move of an engine whose messages are all taken. -/
def step (P : Protocol σ M R) (e : Engine σ M R) : Engine σ M R :=
  match e.advance P with
  | .rest => e
  | .moved e => e
  | .handOver e closing => e.conclude P (.ok ()) closing.transition

/-- Repeats a function. -/
def repeated {α : Type} (f : α → α) : Nat → α → α
  | 0, a => a
  | n + 1, a => repeated f n (f a)

/-- A turn of the consumer: it moves until it has to wait. Every move but the last takes a message
out of the mailboxes. -/
def turn (P : Protocol σ M R) (e : Engine σ M R) : Engine σ M R :=
  repeated (step P) (e.mailboxes.size + 1) e

end Engine

end RankedKeys
