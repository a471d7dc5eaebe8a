import RankedKeys.Error

/-!
# Mailboxes

Messages that have come in wait in bounded mailboxes, one for each registered round, until their
round asks for them. All mailboxes are kept in one list in the order of arrival; the mailbox of a
round is the part of the list that carries its tag.

## Main definitions

* `Tagged`: messages that name their sender and their round
* `CancelFlag`: the flag that ends a wait
* `Mailboxes`: the waiting messages, with `box`, `push` and `pop`

## Main results

* `Mailboxes.box_push_self`, `Mailboxes.box_push_of_ne`: what a push does to the mailboxes
-/

namespace RankedKeys

/-- A message that names its sender and its round. -/
class Tagged (M : Type) where
  sender : M → PartyId
  tag : M → MessageType

/-- A flag that can be raised and lowered while somebody holds it. -/
structure CancelFlag where
  raised : Bool
  held : Bool
  deriving DecidableEq

namespace CancelFlag

/-- Held, and not raised. -/
def initial : CancelFlag := ⟨false, true⟩

/-- Raises or lowers the flag. A flag that nobody holds stays as it is. -/
def set (f : CancelFlag) (raised : Bool) : CancelFlag :=
  if f.held then { f with raised } else f

/-- Lets go of the flag. -/
def release (f : CancelFlag) : CancelFlag :=
  { f with held := false }

/-- A wait ends when the flag is raised, or when nobody is left to raise it. -/
def isCancelled (f : CancelFlag) : Bool :=
  f.raised || !f.held

end CancelFlag

/-- The messages that wait, in the order of arrival. -/
structure Mailboxes (M : Type) where
  /-- How many messages of one tag may wait; a mailbox holds at least one. -/
  capacity : Nat
  /-- The registered tags. -/
  types : List MessageType
  waiting : List M

namespace Mailboxes

variable {M : Type} [Tagged M]

/-- Empty mailboxes for some tags. -/
def create (capacity : Nat) (types : List MessageType) : Mailboxes M :=
  ⟨max 1 capacity, types, []⟩

/-- The mailbox of a tag, oldest message first. -/
def box (q : Mailboxes M) (tag : MessageType) : List M :=
  q.waiting.filter (Tagged.tag · == tag)

/-- The refusal of a message or a request whose tag is not registered. -/
def unknownType (tag : MessageType) : Error :=
  .queueRejected s!"unknown message type {tag}"

/-- The refusal of a message for which there is no room. -/
def boxFull (tag : MessageType) : Error :=
  .queueRejected s!"mailbox for type {tag} is full"

/-- Puts a message into the mailbox of its tag. -/
def push (q : Mailboxes M) (m : M) : Except Error (Mailboxes M) :=
  let tag := Tagged.tag m
  if tag ∉ q.types then .error (unknownType tag)
  else if q.capacity ≤ (q.box tag).length then .error (boxFull tag)
  else .ok { q with waiting := q.waiting ++ [m] }

/-- Asks for the oldest message of a tag. A cancelled request takes nothing, even if a message
waits. -/
def pop (q : Mailboxes M) (tag : MessageType) (cancelled : Bool) :
    Outcome (M × Mailboxes M) :=
  if tag ∉ q.types then .settled (.error (unknownType tag))
  -- Cancellation comes before the messages that wait.
  else if cancelled then .settled (.error .cancelled)
  else
    match q.waiting.find? (Tagged.tag · == tag) with
    | none => .pending
    | some m =>
      .settled (.ok (m, { q with waiting := q.waiting.eraseP (Tagged.tag · == tag) }))

/-- The number of messages that wait. -/
def size (q : Mailboxes M) : Nat :=
  q.waiting.length

theorem box_push_self {q q' : Mailboxes M} {m : M} (h : q.push m = .ok q') :
    q'.box (Tagged.tag m) = q.box (Tagged.tag m) ++ [m] := by
  simp only [push] at h
  split at h
  · cases h
  · split at h
    · cases h
    · cases h
      simp [box]

theorem box_push_of_ne {q q' : Mailboxes M} {m : M} {tag : MessageType} (h : q.push m = .ok q')
    (ne : Tagged.tag m ≠ tag) : q'.box tag = q.box tag := by
  simp only [push] at h
  split at h
  · cases h
  · split at h
    · cases h
    · cases h
      simp [box, ne]

end Mailboxes

end RankedKeys
