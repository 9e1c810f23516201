import AgentOps.Service.Lifecycle

/-!
# Launches and revives

`harnessapi/launch.go`. A launch runs in the thread of the call that claimed the session:
the call has answered by then.
-/

namespace AgentOps.Service

open AgentOps.Api AgentOps.Link AgentOps.Lib

def unrecorded : String := "the session's state could not be recorded"

/-- `launchReason`. -/
def launchReason (revive : Bool) : Reason := if revive then .revive else .launch

/-- `expectedSubject`. -/
def expectedSubject (sess : Row) (revive : Bool) : String :=
  if revive then sess.approverSubject else ""

/-- `storedTemplate` reads the snapshot. -/
def storedTemplate (sess : Row) : Bool :=
  match sess.templateSpec with
  | .snapshot _ _ => true
  | .empty | .unreadable => false

/-- `mcpServerURLs`: the URLs that are not empty, each of them once. -/
def mcpServerURLs (urls : List String) : List String :=
  urls.foldl (fun servers url => if url = "" ∨ url ∈ servers then servers else servers ++ [url]) []

/-- `mcpServerURLs` of the template that `storedTemplate` reads. -/
def TemplateSpec.mcpServers : TemplateSpec → List String
  | .snapshot _ requiredMCPServers => mcpServerURLs requiredMCPServers
  | .empty | .unreadable => []

/-- `suspendedAtOf`. -/
def suspendedAtOf (sess : Row) : P ℕ := do
  if sess.suspendedAt = 0 then do pure (unixOf (← ext .now)) else pure sess.suspendedAt

/-- The turn of a launch that will not run. -/
def failTurn (opts : LaunchOpts) (reason : String) : P Unit :=
  .when (opts.turnId ≠ "") (emit opts.turnId (.turnFailed reason))

/-- `failRevive`. -/
def failRevive (sess : Row) (opts : LaunchOpts) (reason : Reason) (detail : String) : P Unit := do
  .when (sess.sandboxClaimName ≠ "") do
    let _ ← suspendSandbox sess.sandboxClaimName
  failTurn opts detail
  let old ← storedState .launching
  let suspendedAt ← suspendedAtOf sess
  let written ← write (store (.update (.suspended suspendedAt)))
  .when (written = true) (emit "" (.stateChanged old .suspended reason))

/-- `failLaunch` once it knows that the session ends. -/
def endLaunch (claimName : String) (reason : EndReason) (detail : String) : P Unit := do
  let finish : P Unit := do
    let old ← storedState .launching
    let _ ← endSession old reason detail
  if claimName ≠ "" then
    if ← teardown claimName then finish
    else if ← recordsClaim claimName then pure ()
    else finish
  else finish

/-- `failLaunch`. -/
def failLaunch (sess : Row) (opts : LaunchOpts) (claimName : String) (reason : EndReason)
    (detail : String) : P Unit := do
  match ← slot .takeStop with
  | some spec => do
    failTurn opts "the session ended"
    endLaunch (if claimName = "" then sess.sandboxClaimName else claimName) spec.ends spec.detail
  | none =>
    if opts.revive then failRevive sess opts .reviveFailed detail
    else endLaunch claimName reason detail

/-- `sendPrompt`. -/
def sendPrompt (b : ℕ) (p : Prompt) : P Bool := do
  if ← store (.putCommand ⟨p.turnId, p.turnId, .prompt p⟩) then do
    onBinding b (.hold p)
    pure true
  else pure false

/-- `recordApproverFromRun`. -/
def recordApproverFromRun : P Unit := do
  match ← ext .getRun with
  | none => pure ()
  | some st =>
    if st.approverSubject = "" then pure ()
    else do
      let _ ← store (.update (.approver st.approverSubject))
      emit "" (.approved st.approverSubject)

/-- The state writes of `activateAndRun`. -/
def recordLink (t : ℕ) (claimName sandboxName acpSessionId : String) (readySeq : ℕ) : P Bool :=
  write do
    if ← store (.update (.sandbox claimName sandboxName .awaitingApproval)) then
      if ← store (.update (.link t readySeq)) then
        store (.update (.acp acpSessionId .running))
      else pure false
    else pure false

/-- `activateAndRun` with the opening turn: it is saved, and held until the session runs. -/
def saveOpening (t : ℕ) (opts : LaunchOpts) : P Bool := do
  if opts.agentPrompt ≠ "" then do
    onBinding t (.gate true)
    if ← sendPrompt t ⟨opts.turnId, opts.turnSeq, opts.agentPrompt⟩ then do
      let _ ← onBinding t (.enter opts.turnId)
      pure true
    else do
      emit opts.turnId (.turnFailed "the turn could not be saved")
      onBinding t (.gate false)
      pure false
  else pure false

/-- The stop of a session whose link could not be recorded. -/
def unlinkedStop (revive : Bool) : StopSpec where
  ends := .launchFailed
  detail := unrecorded
  suspend := if revive then .reviveFailed else .unspecified

/-- `activateAndRun` after the link was recorded. -/
def runLinked (t : ℕ) (opts : LaunchOpts) (opening : Bool) : P Unit := do
  recordApproverFromRun
  emit "" (.stateChanged .awaitingApproval .running (launchReason opts.revive))
  .when (opts.revive = true) (emit "" .revived)
  .when (opening = true) (onBinding t .ungate)

/-- `activateAndRun` after the link could not be recorded. -/
def stopUnlinked (t : ℕ) (opts : LaunchOpts) (opening : Bool) : P Unit := do
  .when (opening = true) do
    emit opts.turnId (.turnFailed unrecorded)
    onBinding t (.leave opts.turnId)
  .spawn (.stop t (unlinkedStop opts.revive)) (pure ())

/-- `activateAndRun` after the session is registered. -/
def runRegistered (t : ℕ) (opts : LaunchOpts) (opening : Bool) (claimName sandboxName : String)
    (ready : String × ℕ) : P Unit := do
  let linked ← recordLink t claimName sandboxName ready.1 ready.2
  .spawn (.consume t) (pure ())
  let _ ← (if linked then runLinked t opts opening else stopUnlinked t opts opening : P Unit)
  onBinding t .closeReady

/-- `activateAndRun` with a session that opened. It tells whether it registered. -/
def bindSession (t : ℕ) (sess : Row) (opts : LaunchOpts) (claimName sandboxName : String)
    (ready : String × ℕ) : P Bool := do
  onBinding t (.create claimName t false [])
  let opening ← saveOpening t opts
  if ← slot .register then do
    runRegistered t opts opening claimName sandboxName ready
    pure true
  else do
    onBinding t .closeConsumed
    onBinding t .closeSession
    failLaunch sess opts claimName .launchFailed ""
    onBinding t .closeReady
    pure false

/-- The reason and the detail with which a failed `Activate` ends a launch. -/
def activateFailure (err : ActivateError) (outcome : EndReason) : EndReason × String :=
  match outcome with
  | .neverApproved => (.neverApproved, "nobody approved this session before its run lapsed")
  | .revoked => (.revoked, "this session's run was revoked")
  | _ =>
    if err = .attachTimeout then
      (.attachTimeout, "the workspace started but never connected back")
    else (.launchFailed, "the workspace could not be activated")

/-- `activateAndRun` with a session that did not open. -/
def activateFailed (sess : Row) (opts : LaunchOpts) (claimName : String) (err : ActivateError) :
    P Unit := do
  let fail : P Unit := do
    let failure := activateFailure err (← ext .outcome)
    failLaunch sess opts claimName failure.1 failure.2
  if err = .resumeUnavailable ∧ opts.revive then
    if ← slot .stopped then fail
    else failRevive sess opts .resumeUnavailable "the conversation could not be continued"
  else fail

/-- `activateAndRun`. -/
def activateAndRun (sess : Row) (opts : LaunchOpts) (claimName sandboxName : String) : P Bool := do
  let t ← ext .self
  if ← ext .spawnAgent then
    match ← ext .awaitReady with
    | .ok ready => bindSession t sess opts claimName sandboxName ready
    | .error err => do
      activateFailed sess opts claimName err
      pure false
  else do
    activateFailed sess opts claimName .other
    pure false

/-- `launch` from the created run on. -/
def launchRun (sess : Row) (opts : LaunchOpts) (claimName sandboxName : String) : P Bool := do
  match ← ext (.createRun opts.approvalPrompt (expectedSubject sess opts.revive)
      sess.templateSpec.mcpServers) with
  | none => do
    failLaunch sess opts claimName .runCreateFailed "a run could not be created for this session"
    pure false
  | some res =>
    if ← ext .expect then
      if ← write (store (.update (.run res.runId))) then do
        emit "" (.stateChanged .launching .awaitingApproval (launchReason opts.revive))
        emit "" (.approvalRequired res.approvalUrl res.expiresAt)
        activateAndRun sess opts claimName sandboxName
      else do
        failLaunch sess opts claimName .launchFailed unrecorded
        pure false
    else do
      failLaunch sess opts claimName .launchFailed
        "this session could not be registered with the agent link"
      pure false

/-- The workspace of a launch: prepared, or brought up again. -/
def workspace (sess : Row) (opts : LaunchOpts) : P (Option (String × String)) := do
  if opts.revive then
    match ← ext (.revive sess.sandboxClaimName) with
    | none => pure none
    | some sandboxName => pure (some (sess.sandboxClaimName, sandboxName))
  else ext .prepare

/-- `beginLaunch`. -/
def beginLaunch (old : SessionState) (reason : Reason) : P Bool := do
  if ← write (store (.update .launched)) then do
    emit "" (.stateChanged old .launching reason)
    pure true
  else pure false

/-- `launch` once the session was read and its turn is known. -/
def launchSession (sess : Row) (opts : LaunchOpts) : P Bool := do
  if storedTemplate sess then
    if ← beginLaunch sess.status (launchReason opts.revive) then
      match ← workspace sess opts with
      | none => do
        failLaunch sess opts "" .prepareFailed "the workspace could not be prepared"
        pure false
      | some (claimName, sandboxName) =>
        if ← write (store (.update (.sandbox claimName sandboxName .launching))) then
          launchRun sess opts claimName sandboxName
        else do
          failLaunch sess opts claimName .launchFailed unrecorded
          pure false
    else do
      failLaunch sess opts "" .launchFailed unrecorded
      pure false
  else do
    let _ ← endSession sess.status .launchFailed
      "the session's agent template snapshot could not be read"
    pure false

/-- `launch` up to its deferred `settle`. It tells whether it registered. -/
def launchBody (opts : LaunchOpts) : P Bool := do
  match ← getSession with
  | none => do
    failTurn opts "the session could not be read to continue it"
    pure false
  | some sess =>
    if ← slot .stopped then do
      failLaunch sess opts "" .launchFailed ""
      pure false
    else if opts.agentPrompt ≠ "" ∧ opts.turnId = "" then
      match ← nextTurn with
      | none => do
        failLaunch sess opts "" .launchFailed "the opening turn could not be allocated"
        pure false
      | some (turnId, turnSeq) => do
        note (.accepted turnId)
        launchSession sess { opts with turnId, turnSeq }
    else launchSession sess opts

/-- `launch`. -/
def launch (opts : LaunchOpts) : P Unit := do
  if ← launchBody opts then do
    let t ← ext .self
    .spawn (.watchRun t) (pure ())
  else .jump (.settle .nothing)

end AgentOps.Service
