import AgentOps.Api.Vocab
import Mathlib.Data.Int.Init

/-!
# Events of a session log

The payloads of `pb.Event` with the fields the harness writes. Times and durations are
seconds; a tool input is kept as the JSON text it was decoded from.
-/

namespace AgentOps.Api

/-- `pb.Resolution`. -/
inductive Resolution
  | unspecified | expired | superseded
deriving DecidableEq, Repr

/-- `pb.PermissionOption`. -/
structure PermissionOption where
  id : String
  name : String
  kind : String
deriving DecidableEq, Repr

/-- `pb.Usage`; the cost is the bit pattern of the double. -/
structure Usage where
  inputTokens : ℤ := 0
  outputTokens : ℤ := 0
  cachedInputTokens : ℤ := 0
  cacheCreationTokens : ℤ := 0
  thoughtTokens : ℤ := 0
  totalTokens : ℤ := 0
  costUsd : UInt64 := 0
  contextWindow : ℤ := 0
  contextUsed : ℤ := 0
deriving DecidableEq, Repr

/-- The `oneof payload` of `pb.Event`. -/
inductive Payload
  | stateChanged (old new : SessionState) (reason : Reason)
  | approvalRequired (approvalUrl : String) (expiresAt : ℕ)
  | approved (approverSubject : String)
  | launchStalled (waited : ℕ)
  | agentMessage (partId text : String) (final : Bool)
  | agentThought (text : String)
  | toolCall (id title kind : String) (status : ToolCallStatus) (toolInput : Option (List UInt8))
      (update : Bool)
  | permissionRequest (requestId summary : String) (options : List PermissionOption)
      (deadline : ℕ) (toolCallId : String)
  | permissionResolved (requestId : String) (resolution : String ⊕ Resolution)
  | turnCompleted (stopReason : String)
  | turnFailed (reason : String)
  | usage (u : Usage)
  | idleWarning (lead : ℕ)
  | suspended (reason : Reason) (retainedFor : ℕ)
  | revived
  | released (retainedFor : ℕ)
  | sessionEnded (reason : EndReason) (detail : String)
deriving DecidableEq, Repr

/-- `ev.GetSessionEnded() != nil`. -/
def Payload.isSessionEnded : Payload → Bool
  | .sessionEnded .. => true
  | _ => false

/-- `turnName`, the id of a turn. -/
def turnName (n : ℕ) : String := "t" ++ toString n

/-- An event of a session log: its position, its turn (empty for the session's own
events) and what occurred. -/
structure Event where
  seq : ℤ
  turnId : String
  payload : Payload
deriving DecidableEq, Repr

end AgentOps.Api
