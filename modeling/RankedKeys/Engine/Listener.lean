import RankedKeys.Error

/-!
# Waiting for the end of a run

A listener is told of the changes of a run's state and keeps the last terminal one for all who
wait, early or late.

## Main definitions

* `Listener`, with `notify`, `wait` and `ended`
-/

namespace RankedKeys

/-- The last terminal state that has been announced. -/
structure Listener where
  latest : Option RunState
  deriving DecidableEq

namespace Listener

/-- Nothing has been announced. -/
def initial : Listener := ⟨none⟩

/-- Announces a change of state. Only terminal states are kept. -/
def notify (l : Listener) (_old new : RunState) : Listener :=
  if new.isTerminal then ⟨some new⟩ else l

/-- Waits for a terminal state. -/
def wait (l : Listener) : Outcome RunState :=
  match l.latest with
  | none => .pending
  | some state => .settled (.ok state)

/-- Waits for the run to succeed. -/
def ended (l : Listener) : Outcome Unit :=
  match l.latest with
  | none => .pending
  | some .done => .settled (.ok ())
  | some state => .settled (.error (.internal s!"run ended in state {state.name}"))

/-- A listener that has heard some announcements. -/
def ofCalls (calls : List (RunState × RunState)) : Listener :=
  calls.foldl (fun l (old, new) => l.notify old new) initial

end Listener

end RankedKeys
