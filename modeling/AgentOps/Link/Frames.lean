import AgentOps.Api.Events

/-!
# Messages of the agent link

The frames of `agentlinkpb` that the manager, the sidecar and the runner exchange over an
AgentIO stream, with the fields that the code reads.
-/

namespace AgentOps.Link

open AgentOps.Api (PermissionOption Usage)

/-- `agentlinkpb.Prompt`. -/
structure Prompt where
  turnId : String
  turnSeq : ℕ
  text : String
deriving DecidableEq, Repr

/-- `agentlinkpb.PermissionRequest`. -/
structure PermissionRequest where
  requestId : String
  toolCallId : String
  turnId : String
  summary : String
  options : List PermissionOption
deriving DecidableEq, Repr

/-- `agentlinkpb.PermissionDecision`. -/
structure PermissionDecision where
  requestId : String
  optionId : String
  cancelled : Bool
deriving DecidableEq, Repr

/-- The raw JSON input of a tool call, and whether `json.Unmarshal` and
`structpb.NewValue` accept it. -/
structure RawInput where
  bytes : List UInt8
  decodes : Bool
deriving DecidableEq, Repr

/-- The `oneof payload` of `agentlinkpb.AgentEvent`. -/
inductive AgentPayload
  | sessionReady (acpSessionId : String) (resumable : Bool)
  | sessionFailed (reason : String) (resumeUnavailable : Bool)
  | message (partId text : String) (final : Bool)
  | thought (text : String)
  | toolCall (id title kind status : String) (rawInput : RawInput) (update : Bool)
  | usage (u : Usage)
  | permissionRequest (req : PermissionRequest)
  | turnFinished (stopReason error : String)
  | exited (exitCode : ℤ)
deriving DecidableEq, Repr

/-- `agentlinkpb.AgentEvent`; `size` is its `proto.Size`. -/
structure AgentEvent where
  seq : ℕ
  turnId : String
  payload : AgentPayload
  size : ℕ := 1
deriving DecidableEq, Repr

/-- `ev.GetTurnFinished() != nil`. -/
def AgentPayload.isTurnFinished : AgentPayload → Bool
  | .turnFinished .. => true
  | _ => false

/-- `agentlinkpb.AgentState`. -/
structure AgentState where
  lastTurnSeq : ℕ := 0
  outstandingTurnIds : List String := []
  pendingPermissions : List PermissionRequest := []
deriving DecidableEq, Repr

/-- What the manager sends on an AgentIO stream after its Open. -/
inductive Command
  | prompt (p : Prompt)
  | permission (d : PermissionDecision)
deriving DecidableEq, Repr

/-- What the manager receives on an AgentIO stream after the Open. -/
inductive Frame
  | state (st : AgentState)
  | event (ev : AgentEvent)
deriving DecidableEq, Repr

end AgentOps.Link
