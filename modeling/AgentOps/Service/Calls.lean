import AgentOps.Service.Consume
import AgentOps.Service.Launch

/-!
# API calls, watchers, sweeps and the startup reconcile

`harnessapi/service.go` and the rest of `lifecycle.go` and `launch.go`, for one session. The
checks of a call that no session state takes part in (the client, its quotas, the request's
fields) are made before the programs here start.
-/

namespace AgentOps.Service

open AgentOps.Api AgentOps.Link AgentOps.Lib

variable (cfg : Settings)

/-- `CreateSession`. The result of its `claim` is not looked at. -/
def createSession (templateSpec : TemplateSpec) (approvalPrompt initialPrompt : String) :
    P Unit := do
  if ← store (.createSession templateSpec) then do
    let _ ← slot (.claim true)
    emit "" (.stateChanged .unspecified .pending .unspecified)
    launch { approvalPrompt, agentPrompt := initialPrompt }
  else pure ()

/-- `startTurn` of a running session. -/
def promptRunning (b : ℕ) (content : String) : P Unit := do
  onBinding b .lockSend
  match ← nextTurn with
  | none => onBinding b .unlockSend
  | some (turnId, n) =>
    if ← onBinding b (.enter turnId) then
      if ← sendPrompt b ⟨turnId, n, content⟩ then do
        onBinding b .unlockSend
        note (.accepted turnId)
      else do
        onBinding b .unlockSend
        onBinding b (.leave turnId)
    else onBinding b .unlockSend

/-- `revivable`. -/
def revivable (sess : Row) : Bool :=
  sess.acpSessionId ≠ "" && sess.sandboxClaimName ≠ "" && sess.approverSubject ≠ "" &&
    sess.templateSpec ≠ .empty

def continuationClause : String :=
  "\n\n(Continuing an earlier conversation, with its workspace and transcript.)"

/-- `startTurn` of a suspended session: `claimRevive`, the turn, and the launch. -/
def promptSuspended (content : String) : P Unit := do
  if ← slot (.claim true) then
    match ← getSession with
    | none => .jump (.settle .nothing)
    | some current =>
      if current.status ≠ .suspended then .jump (.settle .nothing)
      else match ← nextTurn with
        | none => .jump (.settle .nothing)
        | some (turnId, turnSeq) => do
          note (.accepted turnId)
          launch { revive := true, approvalPrompt := content ++ continuationClause,
                   agentPrompt := content, turnId, turnSeq }
  else pure ()

/-- `Prompt`. -/
def prompt (content : String) : P Unit := do
  match ← getSession with
  | none => pure ()
  | some sess =>
    if sess.status = .running then
      match ← slot .lookup with
      | none => pure ()
      | some b => promptRunning b content
    else if sess.status = .suspended ∧ revivable sess then promptSuspended content
    else pure ()

/-- `EndSession`, after it waited for the stop of another. -/
def answerIfEnded : P Unit := do
  match ← getSession with
  | none => pure ()
  | some current => .when (current.status.terminal = true) (note .endOk)

/-- `EndSession`. -/
def callEndSession (reason : EndReason) : P Unit := do
  match ← getSession with
  | none => pure ()
  | some sess =>
    if sess.status.terminal then note .endOk
    else
      match ← stopOwned cfg none { ends := reason } true with
      | none => note .endOk
      | some o => do
        slot (.await o)
        answerIfEnded

/-- `RespondPermission`. -/
def respondPermission (requestId optionId : String) : P Unit := do
  match ← getSession with
  | none => pure ()
  | some _ =>
    if requestId = "" then pure ()
    else if ← ext (.seenResolved requestId) then note (.answered requestId optionId)
    else
      match ← slot .lookup with
      | none => pure ()
      | some b => answerPermission b requestId optionId

/-- A stop whose result nobody looks at. -/
def stop (want : Option ℕ) (spec : StopSpec) : P Unit := do
  let _ ← stopOwned cfg want spec false

/-- `watchRun`; an error that can be retried reads as a run without news. -/
def watchRun (b : ℕ) : P Unit := do
  if ← onBinding b .isDone then pure ()
  else
    match ← ext .getRun with
    | none =>
      stop cfg (some b) { ends := .revoked, detail := "this session's run could not be read" }
    | some st =>
      if st.revoked then stop cfg (some b) { ends := .revoked }
      else if st.expired then stop cfg (some b) { ends := .expired }
      else .jump (.watchRun b)

/-- `sweepIdle`. -/
def sweepIdle : P Unit := do
  if cfg.sessionIdleTTL = 0 then pure ()
  else
    match ← slot .lookup with
    | none => pure ()
    | some b => do
      let idle ← onBinding b .idleFor
      if cfg.sessionIdleTTL ≤ idle then
        stop cfg (some b) { suspend := .idle, ends := .idle, ifIdleFor := cfg.sessionIdleTTL }
      else if 0 < cfg.idleWarnLead ∧ cfg.idleWarnLead < cfg.sessionIdleTTL then do
        if ← onBinding b (.warn (cfg.sessionIdleTTL - cfg.idleWarnLead)) then
          emit "" (.idleWarning cfg.idleWarnLead)
        else pure ()
      else pure ()

/-- `suspendedFor`. -/
def suspendedFor (sess : Row) (now : ℕ) : ℕ :=
  now - (if sess.suspendedAt = 0 then sess.updatedAt else sess.suspendedAt) * 10 ^ 9

/-- The end of a session whose retention lapsed. -/
def releaseEnd : P Unit := do
  let _ ← endSession .suspended .expired "the workspace retention window lapsed"
    [("", .released cfg.suspendedTTL)]

/-- `releaseSuspended` under its claim. -/
def releaseClaimed : P Unit := do
  match ← getSession with
  | none => pure ()
  | some sess => do
    let now ← ext .now
    if sess.status ≠ .suspended ∨ suspendedFor sess now < cfg.suspendedTTL then pure ()
    else if sess.sandboxClaimName ≠ "" then do
      if ← teardown sess.sandboxClaimName then releaseEnd cfg else pure ()
    else releaseEnd cfg

/-- `releaseSuspended`. -/
def releaseSuspended : P Unit := do
  if ← slot (.claim false) then do
    releaseClaimed cfg
    .jump (.settle .nothing)
  else pure ()

/-- `sweepSuspended`. -/
def sweepSuspended : P Unit := do
  if cfg.suspendedTTL = 0 then pure ()
  else
    match ← getSession with
    | none => pure ()
    | some sess => do
      let now ← ext .now
      if sess.status = .suspended ∧ cfg.suspendedTTL ≤ suspendedFor sess now then
        releaseSuspended cfg
      else pure ()

/-- `sweepAbsolute`. -/
def sweepAbsolute : P Unit := do
  if cfg.sessionTTL = 0 then pure ()
  else
    match ← getSession with
    | none => pure ()
    | some sess => do
      let now ← ext .now
      if sess.status.terminal ∨ sess.status = .suspended ∨
          now - sess.launchedAt * 10 ^ 9 < cfg.sessionTTL then pure ()
      else stop cfg none { ends := .expired, detail := "the session reached its maximum lifetime" }

/-- `savedTurns`. -/
def savedTurns (cmds : List PodCommand) : List String :=
  let prompts := cmds.filterMap fun c => match c.payload with
    | .prompt p => some p
    | .permission _ => none
  (prompts.mergeSort fun x y => x.turnSeq ≤ y.turnSeq).map Prompt.turnId

/-- `adopt` with a link to the pod. -/
def adoptPod (sess : Row) (pod : ℕ) (turns : List String) : P Bool := do
  let t ← ext .self
  onBinding t (.create sess.sandboxClaimName pod true turns)
  onBinding t .closeReady
  if ← slot .register then
    .spawn (.consume t) (.spawn (.watchRun t) (pure true))
  else do
    onBinding t .closeConsumed
    onBinding t .closeSession
    pure false

/-- `adopt`. -/
def adopt (sess : Row) : P Bool := do
  match sess.streamId with
  | none => pure false
  | some pod =>
    if sess.runId = "" ∨ sess.sandboxClaimName = "" ∨ sess.sandboxName = "" ∨
        sess.acpSessionId = "" ∨ storedTemplate sess = false then pure false
    else
      match ← store .listCommands with
      | none => pure false
      | some cmds => do
        if ← ext (.adopt pod sess.podSeq) then adoptPod sess pod (savedTurns cmds)
        else pure false

/-- `interrupt`. -/
def interrupt (sess : Row) : P Bool := do
  let finish := endSession sess.status .interrupted
    "the harness restarted while this session was live"
  if sess.sandboxClaimName ≠ "" then do
    if ← teardown sess.sandboxClaimName then finish else pure false
  else finish

/-- `reconcile` of a session that it claimed. -/
def reconcileClaimed (sess : Row) : P Unit := do
  let adopted ← (if sess.status = .running then adopt sess else pure false : P Bool)
  if adopted then note .up
  else do
    let _ ← interrupt sess
    .jump (.settle .up)

/-- `ReconcileOnStartup`. -/
def reconcile : P Unit := do
  note .reconciling
  match ← getSession with
  | none => note .up
  | some sess =>
    if sess.status.terminal ∨ sess.status = .suspended then note .up
    else if ← slot (.claim false) then reconcileClaimed sess
    else note .up

/-! ## The system -/

/-- The program of a thread. -/
def code : Entry → P Unit
  | .createSession templateSpec approvalPrompt initialPrompt =>
    createSession templateSpec approvalPrompt initialPrompt
  | .prompt content => prompt content
  | .endSession reason => callEndSession cfg reason
  | .respondPermission requestId optionId => respondPermission requestId optionId
  | .expirePermission b requestId => expirePermission b requestId
  | .supervise o cause => stop cfg (some o) { ends := .tunnelLost, detail := cause }
  | .stop o spec => stop cfg (some o) spec
  | .settle after => settle after
  | .consume b => consume cfg b
  | .watchRun b => watchRun cfg b
  | .reportStall waited => emit "" (.launchStalled waited)
  | .sweepIdle => sweepIdle cfg
  | .sweepSuspended => sweepSuspended cfg
  | .sweepAbsolute => sweepAbsolute cfg
  | .reconcile => reconcile

/-- The programs that a call, a timer or the start of the process can start. -/
def opens (m : Mem) : Entry → Bool
  | .createSession _ _ _ | .prompt _ | .endSession _ | .respondPermission _ _ | .sweepIdle
  | .sweepSuspended | .sweepAbsolute => m.boot = .up
  | .expirePermission _ _ | .supervise _ _ | .reportStall _ => m.boot ≠ .down
  | .reconcile => m.boot = .down
  | .stop _ _ | .settle _ | .consume _ | .watchRun _ => false

/-- The clock, the agent in a pod, and the link between a pod and the service. -/
inductive EnvStep
  | tick (nanoseconds : ℕ)
  | agent (pod : ℕ) (l : Runner.Session.Label)
  /-- A command arrives at the runner, or is lost with its stream. -/
  | deliver (pod i : ℕ)
  | lose (pod i : ℕ)
  /-- A stream opens: the runner takes its State, which the service gets before the events. -/
  | openStream (pod : ℕ)
  | pushState (pod : ℕ)
  | pushEvent (pod : ℕ)
deriving DecidableEq, Repr

def env (m : Mem) : EnvStep → Option Mem
  | .tick n => some { m with now := m.now + n }
  | .agent p l => ((m.pods p).runner.step l).map fun r => m.setPod p fun x => { x with runner := r }
  | .deliver p i => (m.pods p).commands[i]?.map fun c => m.setPod p fun x =>
      { x with runner := x.runner.command c, commands := x.commands.eraseIdx i }
  | .lose p i => some (m.setPod p fun x => { x with commands := x.commands.eraseIdx i })
  | .openStream p => some (m.setPod p fun x => { x with opening := some x.runner.state })
  | .pushState p => (m.pods p).opening.map fun st => m.setPod p fun x =>
      { x with opening := none, inbox := x.inbox ++ [.state st] }
  | .pushEvent p =>
    if (m.pods p).opening = none then
      (m.pods p).runner.emitted[(m.pods p).delivered]?.map fun ev => m.setPod p fun x =>
        { x with delivered := x.delivered + 1, inbox := x.inbox ++ [.event ev] }
    else none

/-- The process dies: what is in the store and in the pods stays. -/
def crash (m : Mem) : Mem where
  now := m.now
  boot := .down
  db := m.db
  pods := fun p => { runner := (m.pods p).runner }
  faulty := true
  late := m.late
  accepted := m.accepted

/-- The service of one session. -/
def system : System sig Mem Choice EnvStep where
  perform := perform
  env := env
  opens := opens
  crash := crash
  code := code cfg

/-- The service before a session is created. -/
def init : Config sig Mem where
  mem := {}

/-- Settings that only limit how long a session may be idle. -/
def idleLimit : Settings := ⟨1, 0, 0, 0, 0⟩

/-- Thread `t` makes `n` steps. -/
def steps (t n : ℕ) (c : Choice := {}) : List (ThreadLabel sig Choice EnvStep) :=
  List.replicate n (.run t c)

end AgentOps.Service
