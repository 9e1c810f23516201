import AgentOps.Service.Memory

/-!
# The session store

`sessionstore/sqlite`: the statements on the rows of one session. A call that fails has no
effect, so a function here is a call that succeeds; the operations of the service say when
one fails.
-/

namespace AgentOps.Service

open AgentOps.Api AgentOps.Link

/-- `turn_completed` or `turn_failed`. -/
def isTurnEnd : Payload → Bool
  | .turnCompleted _ | .turnFailed _ => true
  | _ => false

/-- `status IN ('ended', 'interrupted')`. -/
def isFinal (s : SessionState) : Bool := s = .ended || s = .interrupted

/-- The results of `FinishSession`. -/
inductive Finished
  | done
  | conflict
  | failed
deriving DecidableEq, Repr

namespace Row

/-- `UpdateSessionSandbox`. -/
def updateSandbox (r : Row) (now : ℕ) (claimName sandboxName : String) (status : SessionState) :
    Row :=
  { r with sandboxClaimName := claimName, sandboxName, status, updatedAt := now }

/-- `UpdateSessionACP`. -/
def updateACP (r : Row) (now : ℕ) (acpSessionId : String) (status : SessionState) : Row :=
  { r with acpSessionId, status, updatedAt := now }

/-- `UpdateSessionApprover`. -/
def updateApprover (r : Row) (now : ℕ) (approverSubject : String) : Row :=
  { r with approverSubject, updatedAt := now }

/-- `UpdateSessionSuspended`. -/
def updateSuspended (r : Row) (now : ℕ) (status : SessionState) (suspendedAt : ℕ) : Row :=
  { r with status, suspendedAt, updatedAt := now }

/-- `UpdateSessionLaunched`. -/
def updateLaunched (r : Row) (now : ℕ) (status : SessionState) : Row :=
  { r with status, launchedAt := now, updatedAt := now }

/-- `UpdateSessionRun`. -/
def updateRun (r : Row) (now : ℕ) (runId : String) (status : SessionState) : Row :=
  { r with runId, status, updatedAt := now }

/-- `UpdateSessionLink`. -/
def updateLink (r : Row) (now : ℕ) (streamId podSeq : ℕ) : Row :=
  { r with
    streamId := some streamId
    podSeq := if r.streamId = some streamId then max r.podSeq podSeq else podSeq
    updatedAt := now }

/-- `AdvancePodSeq`. -/
def advancePodSeq (r : Row) (podSeq : ℕ) : Row := { r with podSeq := max r.podSeq podSeq }

end Row

namespace Db

/-- The session is over, as `api.Terminal` of its status says. -/
def terminal (d : Db) : Bool := d.row.any fun r => r.status.terminal

def update (d : Db) (f : Row → Row) : Db := { d with row := d.row.map f }

/-- `NextTurnSeq`. -/
def nextTurnSeq (d : Db) : Option ℕ × Db :=
  match d.row with
  | none => (none, d)
  | some r => (some (r.turnSeq + 1), { d with row := some { r with turnSeq := r.turnSeq + 1 } })

/-- `DeletePodCommandsForTurn`. -/
def deleteCommandsForTurn (d : Db) (turnId : String) : Db :=
  { d with cmds := d.cmds.filter fun c => c.turnId ≠ turnId }

/-- `durableLog.append`, with the position of the event in its pod, or `0`. -/
def append (d : Db) (turnId : String) (p : Payload) (podSeq : ℕ) : Db :=
  let d := { d with log := d.log.insert (turnId, p) }
  let d := if 0 < podSeq ∧ turnId ≠ "" ∧ isTurnEnd p then d.deleteCommandsForTurn turnId else d
  if 0 < podSeq then d.update fun r => r.advancePodSeq podSeq else d

/-- `recordEvent` under the event lock: the read of the session succeeds or fails, and so does
the append. -/
def recordEvent (d : Db) (turnId : String) (p : Payload) (podSeq : ℕ) (readOk ok : Bool) :
    Bool × Db :=
  if readOk && d.terminal then (true, d)
  else if ok && d.row.isSome then (true, d.append turnId p podSeq)
  else (false, d)

/-- `recordedDeadlines` of one request: the deadline of its last recorded event. -/
def recordedDeadline (d : Db) (requestId : String) : Option ℕ :=
  (d.log.rows.filterMap fun ev => match ev.payload with
    | .permissionRequest id _ _ deadline _ => if id = requestId then some deadline else none
    | _ => none).getLast?

/-- `FinishSession`. -/
def finishSession (d : Db) (now : ℕ) (status : SessionState) (events : List (String × Payload)) :
    Finished × Db :=
  match d.row with
  | none => (.failed, d)
  | some r =>
    if isFinal r.status then (.conflict, d)
    else (.done, {
      row := some { r with status, updatedAt := now }
      cmds := []
      log := d.log.insertAll events })

/-- `PutPodCommand`. -/
def putCommand (d : Db) (c : PodCommand) : Db :=
  if d.cmds.any c.sameKey then
    { d with cmds := d.cmds.map fun x => if c.sameKey x then c else x }
  else { d with cmds := d.cmds ++ [c] }

/-- `DeletePodCommand`. -/
def deleteCommand (d : Db) (c : PodCommand) : Db :=
  { d with cmds := d.cmds.filter fun x => !c.sameKey x }

/-- `DeletePodCommands`. -/
def deleteCommands (d : Db) : Db := { d with cmds := [] }

end Db

end AgentOps.Service
