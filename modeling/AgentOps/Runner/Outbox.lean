import AgentOps.Link.Frames
import Mathlib

/-!
# The runner's outbox

`runner/outbox.go`: the events that the runner emitted and the manager has not acked. A
caller that has to wait on the condition variable is a step that is not enabled.
-/

namespace AgentOps.Runner

open AgentOps.Link

/-- `outboxMax`. -/
def outboxMax : ℕ := 8 * 2 ^ 20

/-- `outbox`. -/
structure Outbox where
  events : List AgentEvent := []
  size : ℕ := 0
  max : ℕ := outboxMax
  last : ℕ := 0
  acked : ℕ := 0
  opened : Bool := false
deriving DecidableEq, Repr

/-- The errors of `outbox.checkLocked`. -/
inductive ReplayError
  | gone (cursor acked : ℕ)
  | pastLast (cursor last : ℕ)
deriving DecidableEq, Repr

namespace Outbox

/-- `outbox.append`; `none` while the outbox is full. -/
def append (o : Outbox) (turnId : String) (payload : AgentPayload) (size : ℕ) (urgent : Bool) :
    Option Outbox :=
  if !urgent && !o.opened && o.max ≤ o.size then none
  else some { o with
    last := o.last + 1
    events := o.events ++ [⟨o.last + 1, turnId, payload, size⟩]
    size := o.size + size }

/-- `outbox.release`. -/
def release (o : Outbox) : Outbox := { o with opened := true }

/-- `outbox.ack`. -/
def ack (o : Outbox) (n : ℕ) : Outbox :=
  if n ≤ o.acked ∨ o.last < n then o
  else
    let drop := n - o.acked
    { o with
      size := o.size - ((o.events.take drop).map AgentEvent.size).sum
      events := o.events.drop drop
      acked := n }

/-- `outbox.checkLocked`. -/
def check (o : Outbox) (cursor : ℕ) : Except ReplayError Unit :=
  if cursor < o.acked then .error (.gone cursor o.acked)
  else if o.last < cursor then .error (.pastLast cursor o.last)
  else .ok ()

/-- `outbox.after`; `none` while there is nothing after the cursor. -/
def after (o : Outbox) (cursor : ℕ) : Option (Except ReplayError (List AgentEvent)) :=
  match o.check cursor with
  | .error e => some (.error e)
  | .ok () => if cursor < o.last then some (.ok (o.events.drop (cursor - o.acked))) else none

end Outbox

end AgentOps.Runner
