import AgentOps.Service.Ops

/-!
# Stops and ends

`harnessapi/lifecycle.go` and the parts of `service.go` that every program uses: events,
state writes, and the programs that stop a session.
-/

namespace AgentOps.Service

open AgentOps.Api AgentOps.Link AgentOps.Lib

/-- The settings that a program reads; durations are nanoseconds. -/
structure Settings where
  sessionIdleTTL : ℕ
  idleWarnLead : ℕ
  suspendedTTL : ℕ
  sessionTTL : ℕ
  permissionTimeout : ℕ

/-- `launchOpts`. -/
structure LaunchOpts where
  revive : Bool := false
  approvalPrompt : String := ""
  agentPrompt : String := ""
  turnId : String := ""
  turnSeq : ℕ := 0
deriving DecidableEq, Repr

/-- What follows the loop of `settle`: nothing, the answer of `EndSession`, or the end of the
startup reconcile. -/
inductive After
  | nothing
  | answer (stopped : Bool)
  | up
deriving DecidableEq, Repr

/-- The programs that a thread can run: the API calls, the goroutines that the service starts,
and the loops. -/
inductive Entry
  | createSession (templateSpec : TemplateSpec) (approvalPrompt initialPrompt : String)
  | prompt (content : String)
  | endSession (reason : EndReason)
  | respondPermission (requestId optionId : String)
  | expirePermission (b : ℕ) (requestId : String)
  /-- `superviseLaunch`'s callback of owner `o`. -/
  | supervise (o : ℕ) (cause : String)
  /-- `go s.stopOwned(...)`. -/
  | stop (o : ℕ) (spec : StopSpec)
  /-- The loop of `settle`. -/
  | settle (after : After)
  | consume (b : ℕ)
  | watchRun (b : ℕ)
  /-- `reportStall`, of a launch that waits. -/
  | reportStall (waited : ℕ)
  | sweepIdle
  | sweepSuspended
  | sweepAbsolute
  | reconcile
deriving DecidableEq, Repr

abbrev sig : Sig := ⟨Op, Op.Res, Entry⟩

/-- A program of the service. -/
abbrev P := Prog sig

def slot (op : SlotOp) : P op.Res := Prog.perform (S := sig) (.slot op)
def store (op : StoreOp) : P op.Res := Prog.perform (S := sig) (.store op)
def ext (op : ExtOp) : P op.Res := Prog.perform (S := sig) (.ext op)
def onBinding (b : ℕ) (op : BindOp) : P op.Res := Prog.perform (S := sig) (.bind b op)
def note (op : NoteOp) : P Unit := Prog.perform (S := sig) (.note op)

def getSession : P (Option Row) := store .getSession

/-- `launcher.Teardown`. -/
def teardown (claimName : String) : P Bool := ext (.teardown claimName)

/-- `launcher.Suspend`. -/
def suspendSandbox (claimName : String) : P Bool := ext (.suspend claimName)

/-- `t.Unix()`. -/
def unixOf (now : ℕ) : ℕ := now / 10 ^ 9

/-- `emit`; a failure is only logged. -/
def emit (turnId : String) (p : Payload) : P Unit := do
  let _ ← store (.recordEvent turnId p)

/-- `write`, of one update or of several. -/
def write (update : P Bool) : P Bool := do
  match ← getSession with
  | none => pure false
  | some current => if current.status.terminal then pure false else update

/-- `storedState`. -/
def storedState (fallback : SessionState) : P SessionState := do
  match ← getSession with
  | none => pure fallback
  | some current => pure current.status

/-- `recordsClaim`. -/
def recordsClaim (claimName : String) : P Bool := do
  match ← getSession with
  | none => pure false
  | some current => pure (current.sandboxClaimName = claimName)

/-- `nextTurn`. -/
def nextTurn : P (Option (String × ℕ)) := do
  match ← store .nextTurnSeq with
  | none => pure none
  | some n => pure (some (turnName n, n))

/-- The end reason that `endSession` records. -/
def endReason (reason : EndReason) : EndReason := if reason = .unspecified then .ended else reason

/-- The status that `endSession` records. -/
def endState (reason : EndReason) : SessionState :=
  if endReason reason = .interrupted then .interrupted else .ended

/-- `endSession`. -/
def endSession (old : SessionState) (reason : EndReason) (detail : String)
    (preface : List (String × Payload) := []) : P Bool := do
  let events := preface ++
    [("", .stateChanged old (endState reason) .unspecified),
     ("", .sessionEnded (endReason reason) detail)]
  match ← store (.finishSession (endState reason) events) with
  | .conflict => pure true
  | .failed => pure false
  | .done => pure true

/-- `stopDetached`. -/
def stopDetached (spec : StopSpec) : P Bool := do
  match ← getSession with
  | none => pure false
  | some sess =>
    if sess.status.terminal then pure true
    else if sess.sandboxClaimName ≠ "" then
      if ← teardown sess.sandboxClaimName then
        endSession sess.status spec.ends spec.detail
      else pure false
    else endSession sess.status spec.ends spec.detail

/-- `logSink.supersedeAll`, over the requests that were pending. -/
def supersedeAll (b : ℕ) : List String → P Unit
  | [] => pure ()
  | id :: ids => do
    match ← onBinding b (.take id) with
    | none => supersedeAll b ids
    | some w => do
      emit w.req.turnId (.permissionResolved id (.inr .superseded))
      supersedeAll b ids

/-- The turns that are outstanding when the session stops. -/
def failTurns (b : ℕ) : List String → P Unit
  | [] => pure ()
  | turnId :: rest => do
    emit turnId (.turnFailed "the session stopped before this turn finished")
    onBinding b (.leave turnId)
    failTurns b rest

/-- `stopLive` up to the release of its locks. -/
def drainBinding (b : ℕ) : P Unit := do
  onBinding b .awaitReady
  onBinding b .awaitConsumed
  onBinding b .lockPerm
  onBinding b .lockSend
  onBinding b .closeSession
  supersedeAll b (← onBinding b .waiting)
  failTurns b (← onBinding b .outstanding)
  let _ ← store .deleteCommands
  onBinding b .unlockSend
  onBinding b .unlockPerm

variable (cfg : Settings)

/-- `stopLive` after the workspace was suspended. -/
def recordSuspended (reason : Reason) : P Bool := do
  let old ← storedState .running
  let now ← ext .now
  if ← write (store (.update (.suspended (unixOf now)))) then do
    emit "" (.stateChanged old .suspended reason)
    emit "" (.suspended reason cfg.suspendedTTL)
    pure true
  else pure false

/-- `stopLive` without a suspended workspace. -/
def tearDownAndEnd (claimName : String) (spec : StopSpec) : P Bool := do
  if ← teardown claimName then do
    let old ← storedState .running
    endSession old spec.ends spec.detail
  else pure false

/-- `stopLive`. -/
def stopLive (b : ℕ) (spec : StopSpec) : P Bool := do
  drainBinding b
  let claimName ← onBinding b .claim
  if spec.suspend ≠ .unspecified then
    if ← suspendSandbox claimName then recordSuspended cfg spec.suspend
    else tearDownAndEnd claimName spec
  else tearDownAndEnd claimName spec

/-- What follows the loop of `settle`. -/
def afterSettle : After → P Unit
  | .nothing => pure ()
  | .answer stopped => .when (stopped = true) (note .endOk)
  | .up => note .up

/-- `settle`. -/
def settle (after : After) : P Unit := do
  match ← slot .finish with
  | none => afterSettle after
  | some spec => do
    let _ ← stopDetached spec
    slot .ran
    .jump (.settle after)

/-- `stopOwned`. A thread that took the session settles it and ends there; otherwise the
channel to wait on is returned. -/
def stopOwned (want : Option ℕ) (spec : StopSpec) (answers : Bool) : P (Option ℕ) := do
  match ← slot (.detach want spec) with
  | .nothing => pure none
  | .waits o => pure (some o)
  | .held victim => do
    let stopped ← (match victim with
      | some b => stopLive cfg b spec
      | none => stopDetached spec : P Bool)
    .jump (.settle (if answers then .answer stopped else .nothing))

end AgentOps.Service
