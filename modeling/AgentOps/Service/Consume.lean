import AgentOps.Service.Lifecycle

/-!
# The consumer of a pod

`harnessapi/consume.go`: the goroutine that reads the frames of a binding's pod, and the
permission requests that its events open.
-/

namespace AgentOps.Service

open AgentOps.Api AgentOps.Link AgentOps.Lib

/-- `agentErrorReason`: the first line. -/
def agentErrorReason (msg : String) : String := String.ofList (msg.toList.takeWhile (· ≠ '\n'))

/-- `toolInput`. -/
def toolInput (raw : RawInput) : Option (List UInt8) :=
  if raw.bytes = [] then none else if raw.decodes then some raw.bytes else none

/-- The event that `handleEvent` records for an agent event, if it records one. -/
def logPayload (deadline : ℕ) : AgentPayload → Option Payload
  | .message partId text final => some (.agentMessage partId text final)
  | .thought text => some (.agentThought text)
  | .toolCall id title kind status rawInput update =>
    some (.toolCall id title kind (normalizeToolCallStatus status) (toolInput rawInput) update)
  | .usage u => some (.usage u)
  | .permissionRequest req =>
    some (.permissionRequest req.requestId req.summary req.options deadline req.toolCallId)
  | .turnFinished stopReason error =>
    if error ≠ "" then some (.turnFailed (agentErrorReason error))
    else some (.turnCompleted stopReason)
  | .sessionReady .. | .sessionFailed .. | .exited .. => none

/-- The stop after the agent exited. -/
def agentExitStop (code : ℤ) : StopSpec where
  ends := .agentExit
  detail := "the agent exited with code " ++ toString code

variable (cfg : Settings)

/-- `handleEvent` of a permission request. -/
def handlePermission (b : ℕ) (ev : AgentEvent) (req : PermissionRequest) : P Bool := do
  let fresh ← onBinding b (.register req)
  let now ← ext .now
  let deadline ← onBinding b (.stamp req.requestId fresh (unixOf (now + cfg.permissionTimeout)))
  match logPayload deadline ev.payload with
  | none => pure true
  | some p =>
    if ← onBinding b (.recordPod ev.turnId p ev.seq) then pure true
    else do
      .when (fresh = true) (onBinding b (.drop req.requestId))
      pure false

/-- `handleEvent`. -/
def handleEvent (b : ℕ) (ev : AgentEvent) : P Bool := do
  match ev.payload with
  | .exited code =>
    if ← onBinding b (.advancePod ev.seq) then
      Prog.spawn (.stop b (agentExitStop code)) (pure true)
    else pure false
  | .permissionRequest req => handlePermission cfg b ev req
  | payload =>
    match logPayload 0 payload with
    | none => onBinding b (.advancePod ev.seq)
    | some p =>
      if ← onBinding b (.recordPod ev.turnId p ev.seq) then do
        .when (payload.isTurnFinished = true) (onBinding b (.leave ev.turnId))
        pure true
      else pure false

/-- The end of a request that the agent dropped is recorded, and its decision removed. -/
def supersede (b : ℕ) (w : Waiter) : P Unit := do
  let id := w.req.requestId
  if ← onBinding b (.record w.req.turnId (.permissionResolved id (.inr .superseded))) then
    let _ ← onBinding b (.clearDecision id)
  else onBinding b (.restore w)

def supersedeDropped (b : ℕ) : List String → P Unit
  | [] => pure ()
  | id :: ids => do
    match ← onBinding b (.take id) with
    | none => supersedeDropped b ids
    | some w => do
      supersede b w
      supersedeDropped b ids

/-- `reconcileState`. -/
def reconcileState (b : ℕ) (st : AgentState) : P Unit := do
  onBinding b .sync
  match ← onBinding b .listCommands with
  | none => pure ()
  | some cmds => do
    onBinding b (.reconcile st cmds)
    let undecided := st.pendingPermissions.filter fun r => !cmds.any fun c =>
      c.key = r.requestId && match c.payload with
        | .permission _ => true
        | .prompt _ => false
    let now ← ext .now
    onBinding b (.awaitMissing undecided (unixOf (now + cfg.permissionTimeout)))
    let waiting ← onBinding b .waiting
    supersedeDropped b (waiting.filter fun id =>
      !st.pendingPermissions.any fun r => r.requestId = id)
    onBinding b .unlockPerm

/-- `consume`. -/
def consume (b : ℕ) : P Unit := do
  match ← onBinding b .receive with
  | none => onBinding b .closeConsumed
  | some (.state st) => do
    reconcileState cfg b st
    Prog.jump (.consume b)
  | some (.event ev) =>
    if ← handleEvent cfg b ev then Prog.jump (.consume b)
    else onBinding b .closeConsumed

/-- A decision is saved, recorded and sent; a request whose decision cannot be saved waits
again. -/
def resolvePermission (b : ℕ) (w : Waiter) (d : PermissionDecision)
    (resolution : String ⊕ Resolution) : P Bool := do
  if ← store (.putCommand ⟨d.requestId, w.req.turnId, .permission d⟩) then do
    emit w.req.turnId (.permissionResolved d.requestId resolution)
    onBinding b (.decide d)
    pure true
  else do
    onBinding b (.restore w)
    pure false

/-- `expirePermission` under `permMu`. -/
def expireLocked (b : ℕ) (requestId : String) : P Unit := do
  if ← onBinding b .isDone then pure ()
  else
    match ← onBinding b (.take requestId) with
    | none => pure ()
    | some w =>
      let _ ← resolvePermission b w ⟨requestId, "", true⟩ (.inr .expired)

/-- `expirePermission`. -/
def expirePermission (b : ℕ) (requestId : String) : P Unit := do
  onBinding b .lockPerm
  expireLocked b requestId
  onBinding b .unlockPerm

/-- `RespondPermission` under `permMu`; whether it takes the answer. -/
def answerLocked (b : ℕ) (requestId optionId : String) : P Bool := do
  if ← onBinding b (.validate requestId optionId) then
    match ← onBinding b (.take requestId) with
    | none => pure false
    | some w =>
      if ← resolvePermission b w ⟨requestId, optionId, false⟩ (.inl optionId) then do
        ext (.recordResolved requestId)
        pure true
      else pure false
  else pure false

/-- `RespondPermission` on the live binding. -/
def answerPermission (b : ℕ) (requestId optionId : String) : P Unit := do
  onBinding b .lockPerm
  let taken ← answerLocked b requestId optionId
  onBinding b .unlockPerm
  .when (taken = true) (note (.answered requestId optionId))

end AgentOps.Service
