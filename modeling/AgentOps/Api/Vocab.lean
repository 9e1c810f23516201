import Mathlib.Logic.Basic

/-!
# The vocabulary of the harness API

The enumerations of `harness/api/vocab.go` and the payloads of a session's event log,
with the proto's zero values kept as constructors (`unspecified`), since the code tests
for them.
-/

namespace AgentOps.Api

/-- `api.SessionState`. -/
inductive SessionState
  | unspecified | pending | launching | awaitingApproval | running | suspended
  | ended | interrupted
deriving DecidableEq, Repr

/-- `api.Live`. -/
def SessionState.live : SessionState → Bool
  | .pending | .launching | .awaitingApproval | .running | .suspended => true
  | _ => false

/-- `api.Terminal`. -/
def SessionState.terminal (s : SessionState) : Bool := !s.live

/-- `api.Reason`, why a session changed state. -/
inductive Reason
  | unspecified | launch | revive | idle | reviveFailed | resumeUnavailable
deriving DecidableEq, Repr

/-- `api.EndReason`, why a session ended. -/
inductive EndReason
  | unspecified | revoked | expired | neverApproved | agentExit | tunnelLost | ended
  | interrupted | prepareFailed | runCreateFailed | attachTimeout | launchFailed | idle
deriving DecidableEq, Repr

/-- `api.ToolCallStatus`. -/
inductive ToolCallStatus
  | unspecified | pending | inProgress | completed | failed
deriving DecidableEq, Repr

/-- `api.NormalizeToolCallStatus`. -/
def normalizeToolCallStatus (s : String) : ToolCallStatus :=
  if s = "in_progress" ∨ s = "running" then .inProgress
  else if s = "completed" ∨ s = "success" then .completed
  else if s = "failed" ∨ s = "error" then .failed
  else .pending

end AgentOps.Api
