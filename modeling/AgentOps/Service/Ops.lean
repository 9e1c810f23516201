import AgentOps.Lib.Threads
import AgentOps.Service.Owner
import AgentOps.Service.Store

/-!
# The atomic steps of the service

An operation is a call of the store or the launcher, a function of the owner map, or a
section of a binding under its lock. What a call answers is the choice of the step: any
store call and any call of the launcher or the run client may fail, and a failed store call
has no effect.
-/

namespace AgentOps.Service

open AgentOps.Api AgentOps.Link AgentOps.Lib

/-! ## Operations -/

/-- The functions of the owner map, and the wait on a `settled` channel. -/
inductive SlotOp
  | claim (cancel : Bool)
  | lookup
  | register
  | stopped
  | takeStop
  | detach (want : Option ℕ) (spec : StopSpec)
  | finish
  | ran
  | await (o : ℕ)
deriving DecidableEq, Repr

abbrev SlotOp.Res : SlotOp → Type
  | .claim _ | .register | .stopped => Bool
  | .lookup => Option ℕ
  | .takeStop | .finish => Option StopSpec
  | .detach _ _ => Detached
  | .ran | .await _ => Unit

/-- The updates of a session row. -/
inductive Update
  | sandbox (claimName sandboxName : String) (status : SessionState)
  | acp (acpSessionId : String) (status : SessionState)
  | approver (subject : String)
  | suspended (suspendedAt : ℕ)
  | launched
  | run (runId : String)
  | link (streamId podSeq : ℕ)
deriving DecidableEq, Repr

def Update.apply (now : ℕ) : Update → Row → Row
  | .sandbox claimName sandboxName status, r => r.updateSandbox now claimName sandboxName status
  | .acp acpSessionId status, r => r.updateACP now acpSessionId status
  | .approver subject, r => r.updateApprover now subject
  | .suspended suspendedAt, r => r.updateSuspended now .suspended suspendedAt
  | .launched, r => r.updateLaunched now .launching
  | .run runId, r => r.updateRun now runId .awaitingApproval
  | .link streamId podSeq, r => r.updateLink now streamId podSeq

/-- The calls of the store. -/
inductive StoreOp
  | createSession (templateSpec : TemplateSpec)
  | getSession
  | update (u : Update)
  | finishSession (status : SessionState) (events : List (String × Payload))
  | nextTurnSeq
  | recordEvent (turnId : String) (p : Payload)
  | putCommand (c : PodCommand)
  | deleteCommands
  | listCommands
deriving DecidableEq, Repr

abbrev StoreOp.Res : StoreOp → Type
  | .createSession _ | .update _ | .recordEvent _ _ | .putCommand _ | .deleteCommands => Bool
  | .getSession => Option Row
  | .finishSession _ _ => Finished
  | .nextTurnSeq => Option ℕ
  | .listCommands => Option (List PodCommand)

/-- What can go wrong in `Activate`. -/
inductive ActivateError
  | resumeUnavailable
  | attachTimeout
  | other
deriving DecidableEq, Repr

/-- `agenticrun.RunStatus`, as far as a watcher of the run acts on it. -/
structure RunStatus where
  approverSubject : String := ""
  revoked : Bool := false
  expired : Bool := false
deriving DecidableEq, Repr

/-- `agenticrun.CreateRunResponse`. -/
structure CreatedRun where
  runId : String := ""
  approvalUrl : String := ""
  expiresAt : ℕ := 0
deriving DecidableEq, Repr

/-- The clock, the memo of answered requests, and the calls of the launcher and the run client. -/
inductive ExtOp
  /-- The number of the thread, by which its owner, binding and pod are known. -/
  | self
  | now
  | prepare
  | revive (claimName : String)
  | createRun (prompt expectedSubject : String) (mcpServers : List String)
  | expect
  /-- `Activate` up to the spawn of the agent, and its wait for the session. -/
  | spawnAgent
  | awaitReady
  /-- `outcome.get()`. -/
  | outcome
  | suspend (claimName : String)
  | teardown (claimName : String)
  | getRun
  | adopt (pod podSeq : ℕ)
  /-- `resolvedRequests.seen` and `record`. -/
  | seenResolved (requestId : String)
  | recordResolved (requestId : String)
deriving DecidableEq, Repr

abbrev ExtOp.Res : ExtOp → Type
  | .self | .now => ℕ
  | .prepare => Option (String × String)
  | .revive _ => Option String
  | .createRun _ _ _ => Option CreatedRun
  | .expect | .spawnAgent | .suspend _ | .teardown _ | .adopt _ _ | .seenResolved _ => Bool
  | .recordResolved _ => Unit
  | .awaitReady => Except ActivateError (String × ℕ)
  | .outcome => EndReason
  | .getRun => Option RunStatus

/-- The steps on a binding. -/
inductive BindOp
  /-- `newBinding`, with the fields that its maker sets. -/
  | create (claimName : String) (pod : ℕ) (syncing : Bool) (turns : List String)
  | claim
  | gate (gated : Bool)
  | enter (turnId : String)
  | leave (turnId : String)
  | outstanding
  | lockSend
  | unlockSend
  | lockPerm
  | unlockPerm
  /-- `sendPrompt` after its save: the prompt is held, and `release`. -/
  | hold (p : Prompt)
  | ungate
  | closeReady
  | awaitReady
  | closeConsumed
  | awaitConsumed
  /-- `session.Close()`. -/
  | closeSession
  | isDone
  | decide (d : PermissionDecision)
  /-- The select of `consume`: a frame, or nothing when the binding or the link is done. -/
  | receive
  /-- `recordPod`: the record is tried again while the binding lives. -/
  | recordPod (turnId : String) (p : Payload) (seq : ℕ)
  | advancePod (seq : ℕ)
  | record (turnId : String) (p : Payload)
  /-- `reconcileState`: `syncing` is set; the saved commands are listed, and `permMu` is
  locked; the section under `sendMu`. -/
  | sync
  | listCommands
  | reconcile (st : AgentState) (cmds : List PodCommand)
  | clearDecision (requestId : String)
  /-- `logSink.register`, `stamp`, `drop`, `validate`, `take`, `restore` and `pending`, and
  `await` for the requests whose deadline is recorded. -/
  | register (req : PermissionRequest)
  | stamp (requestId : String) (fresh : Bool) (deadline : ℕ)
  | drop (requestId : String)
  | validate (requestId optionId : String)
  | take (requestId : String)
  | restore (w : Waiter)
  | awaitMissing (reqs : List PermissionRequest) (deadline : ℕ)
  | waiting
  /-- `sweepIdle` under `Service.mu`: the idle time of the live binding, and the claim of the
  warning. -/
  | idleFor
  | warn (after : ℕ)
deriving DecidableEq, Repr

abbrev BindOp.Res : BindOp → Type
  | .create _ _ _ _ | .gate _ | .leave _ | .lockSend | .unlockSend | .lockPerm | .unlockPerm
  | .hold _ | .ungate | .closeReady | .awaitReady | .closeConsumed | .awaitConsumed
  | .closeSession | .decide _ | .sync | .reconcile _ _ | .drop _ | .restore _
  | .awaitMissing _ _ => Unit
  | .enter _ | .isDone | .recordPod _ _ _ | .advancePod _ | .record _ _ | .clearDecision _
  | .register _ | .validate _ _ | .warn _ => Bool
  | .outstanding | .waiting => List String
  | .receive => Option Frame
  | .listCommands => Option (List PodCommand)
  | .take _ => Option Waiter
  | .stamp _ _ _ | .idleFor => ℕ
  | .claim => String

/-- The start of the process, and what is written down of the answers of API calls. -/
inductive NoteOp
  | reconciling
  | up
  /-- `Prompt` returned the turn, or an opening turn was allocated. -/
  | accepted (turnId : String)
  /-- `EndSession` returned OK. -/
  | endOk
  /-- `RespondPermission` returned OK. -/
  | answered (requestId optionId : String)
deriving DecidableEq, Repr

inductive Op
  | slot (op : SlotOp)
  | store (op : StoreOp)
  | ext (op : ExtOp)
  | bind (b : ℕ) (op : BindOp)
  | note (op : NoteOp)
deriving DecidableEq, Repr

abbrev Op.Res : Op → Type
  | .slot op => op.Res
  | .store op => op.Res
  | .ext op => op.Res
  | .bind _ op => op.Res
  | .note _ => Unit

/-! ## Their meaning -/

/-- What the store, the launcher or the run client answers to a call. -/
structure Choice where
  /-- The call succeeds. -/
  ok : Bool := true
  /-- The read inside `recordEvent` succeeds. -/
  readOk : Bool := true
  /-- What a successful call returns. -/
  claimName : String := ""
  sandboxName : String := ""
  created : CreatedRun := {}
  error : ActivateError := .other
  outcome : EndReason := .unspecified
  run : RunStatus := {}
  /-- The keys of the saved commands whose removal fails. -/
  keep : List String := []
deriving DecidableEq, Repr

/-- `resolvedTTL`, in nanoseconds. -/
def resolvedTTL : ℕ := 10 * 60 * 10 ^ 9

namespace Mem

def setBind (m : Mem) (b : ℕ) (f : Binding → Binding) : Mem :=
  { m with binds := Function.update m.binds b (f (m.binds b)) }

def setPod (m : Mem) (p : ℕ) (f : Pod → Pod) : Mem :=
  { m with pods := Function.update m.pods p (f (m.pods p)) }

/-- `session.Prompt` and `session.Decide`: the link has the command to send. -/
def send (m : Mem) (b : ℕ) (cs : List Command) : Mem :=
  m.setPod (m.binds b).pod fun p => { p with commands := p.commands ++ cs }

/-- `binding.release`. -/
def release (m : Mem) (b : ℕ) : Mem :=
  let r := (m.binds b).release
  (m.setBind b fun _ => r.1).send b (r.2.map .prompt)

/-- The binding, or its link, is done. -/
def unbound (m : Mem) (b : ℕ) : Bool := (m.binds b).closed || (m.binds b).sessionDone

/-- `recordEvent`, which notes a failure. -/
def recordEvent (m : Mem) (turnId : String) (p : Payload) (podSeq : ℕ) (readOk ok : Bool) :
    Bool × Mem :=
  let r := m.db.recordEvent turnId p podSeq readOk ok
  (r.1, { m with
    db := r.2
    faulty := m.faulty || !readOk || !ok
    late := m.late || !readOk && m.db.terminal })

/-- `awaitReady`: the first event that the pod sent decides. -/
def awaitReady (m : Mem) (t : ℕ) : Option (Except ActivateError (String × ℕ) × Mem) :=
  match (m.pods t).inbox.dropWhile fun | .state _ => true | .event _ => false with
  | .event ev :: rest =>
    let m := m.setPod t fun p => { p with inbox := rest }
    match ev.payload with
    | .sessionReady acpSessionId _ => some (.ok (acpSessionId, ev.seq), m)
    | .sessionFailed _ resumeUnavailable =>
      some (.error (if resumeUnavailable then .resumeUnavailable else .other), m)
    | _ => some (.error .other, m)
  | _ => none

/-- `resolvedRequests.seen`. The memo is shared by the sessions and is pruned at most once in
`resolvedTTL`: an entry that is older may be there still, one of twice that age is not. -/
def seenResolved (m : Mem) (requestId : String) (pruned : Bool) : Bool :=
  m.resolved.any fun entry => entry.1 = requestId &&
    (m.now - entry.2 ≤ resolvedTTL || (!pruned && m.now - entry.2 ≤ 2 * resolvedTTL))

/-- The section of `reconcileState` under `sendMu`, with the saved commands that it listed and
those it could not remove. -/
def reconcile (m : Mem) (b : ℕ) (st : AgentState) (cmds : List PodCommand) (keep : List String) :
    Mem :=
  let isPending := fun c : PodCommand => st.pendingPermissions.any fun r => r.requestId = c.key
  let resend := cmds.filterMap fun c => match c.payload with
    | .prompt p => if st.lastTurnSeq < p.turnSeq then some p else none
    | .permission _ => none
  let stale := cmds.filter fun c => match c.payload with
    | .prompt p => p.turnSeq ≤ st.lastTurnSeq ∧ p.turnId ∉ st.outstandingTurnIds
    | .permission _ => !isPending c
  let decisions := cmds.filterMap fun c => match c.payload with
    | .permission d => if isPending c then some (.permission d) else none
    | .prompt _ => none
  let outstanding := st.outstandingTurnIds ++ resend.map Prompt.turnId
  let held := (m.binds b).held
  let outstanding := outstanding ++
    (held.map Prompt.turnId).filter fun id => id ∉ outstanding
  let drops := stale.filter fun c => c.key ∉ keep
  let m := { m with db := drops.foldl Db.deleteCommand m.db }
  let m := m.send b decisions
  let m := m.setBind b fun x => { x with
    turns := outstanding
    held := held ++ resend.filter fun p => p.turnId ∉ held.map Prompt.turnId
    syncing := false }
  m.release b

end Mem

/-- The functions of the owner map. -/
def SlotOp.perform (t : ℕ) (m : Mem) : (op : SlotOp) → Option (op.Res × Mem)
  | .claim cancel =>
    let r := m.slot.claim t cancel
    some (r.1, { m with
      slot := r.2, creator := if m.creator = some t then none else m.creator })
  | .lookup => some (m.slot.lookup, m)
  | .register => let r := m.slot.register t; some (r.1, { m with slot := r.2 })
  | .stopped => some (m.slot.stopped t, m)
  | .takeStop => let r := m.slot.takeStop t; some (r.1, { m with slot := r.2 })
  | .detach want spec => some (m.detach t want spec)
  | .finish => let r := m.slot.finish t; some (r.1, { m with slot := r.2 })
  | .ran => some ((), { m with slot := m.slot.ran t })
  | .await o => if (m.slot.hist o).closed then some ((), m) else none

/-- The calls of the store. -/
def StoreOp.perform (t : ℕ) (m : Mem) (c : Choice) : (op : StoreOp) → Option (op.Res × Mem)
  | .createSession templateSpec =>
    if c.ok && m.db.row.isNone then
      some (true, { m with
        db := { m.db with
          row := some { templateSpec, launchedAt := m.unix, updatedAt := m.unix } }
        creator := some t })
    else some (false, m)
  | .getSession =>
    if c.ok then some (m.db.row, m) else some (none, { m with faulty := true })
  | .update u =>
    if c.ok then some (true, { m with db := m.db.update (u.apply m.unix) }) else some (false, m)
  | .finishSession status events =>
    if c.ok then
      let r := m.db.finishSession m.unix status events
      some (r.1, { m with db := r.2 })
    else some (.failed, m)
  | .nextTurnSeq =>
    if c.ok then let r := m.db.nextTurnSeq; some (r.1, { m with db := r.2 }) else some (none, m)
  | .recordEvent turnId p => some (m.recordEvent turnId p 0 c.readOk c.ok)
  | .putCommand cmd =>
    if c.ok then some (true, { m with db := m.db.putCommand cmd }) else some (false, m)
  | .deleteCommands =>
    if c.ok then some (true, { m with db := m.db.deleteCommands }) else some (false, m)
  | .listCommands => some (if c.ok then some m.db.cmds else none, m)

/-- The clock, the memo of answered requests, and the calls of the launcher and the run client. -/
def ExtOp.perform (t : ℕ) (m : Mem) (c : Choice) : (op : ExtOp) → Option (op.Res × Mem)
  | .self => some (t, m)
  | .now => some (m.now, m)
  | .prepare => some (if c.ok then some (c.claimName, c.sandboxName) else none, m)
  | .revive _ => some (if c.ok then some c.sandboxName else none, m)
  | .createRun _ _ _ => some (if c.ok then some c.created else none, m)
  | .expect => some (c.ok, m)
  | .spawnAgent =>
    if c.ok then some (true, m.setPod t fun _ => {}) else some (false, m)
  | .awaitReady => if c.ok then m.awaitReady t else some (.error c.error, m)
  | .outcome => some (c.outcome, m)
  | .suspend _ => some (c.ok, m)
  | .teardown _ => some (c.ok, m)
  | .getRun => some (if c.ok then some c.run else none, m)
  | .adopt pod podSeq =>
    if c.ok then some (true, m.setPod pod fun p =>
      { p with delivered := podSeq, inbox := [], commands := [], opening := none })
    else some (false, m)
  | .seenResolved requestId =>
    if m.seenResolved requestId !c.ok then some (true, m)
    else some (false, { m with resolved := m.resolved.filter fun entry => entry.1 ≠ requestId })
  | .recordResolved requestId => some ((), { m with
      resolved := (m.resolved.filter fun entry => entry.1 ≠ requestId) ++ [(requestId, m.now)] })

/-- The steps on a binding. -/
def BindOp.perform (t : ℕ) (m : Mem) (c : Choice) (b : ℕ) : (op : BindOp) → Option (op.Res × Mem)
  | .create claimName pod syncing turns =>
    some ((), m.setBind b fun _ => { claimName, pod, syncing, turns, lastActivity := m.now })
  | .claim => some ((m.binds b).claimName, m)
  | .gate gated => some ((), m.setBind b fun x => { x with gated })
  | .enter turnId =>
    let r := (m.binds b).enter turnId m.now
    some (r.1, m.setBind b fun _ => r.2)
  | .leave turnId => some ((), m.setBind b fun x => x.leave turnId m.now)
  | .outstanding => some ((m.binds b).turns, m)
  | .lockSend =>
    if (m.binds b).sendMu = none then some ((), m.setBind b fun x => { x with sendMu := some t })
    else none
  | .unlockSend => some ((), m.setBind b fun x => { x with sendMu := none })
  | .lockPerm =>
    if (m.binds b).permMu = none then some ((), m.setBind b fun x => { x with permMu := some t })
    else none
  | .unlockPerm => some ((), m.setBind b fun x => { x with permMu := none })
  | .hold p => some ((), (m.setBind b fun x => { x with held := x.held ++ [p] }).release b)
  | .ungate =>
    if (m.binds b).sendMu = none then
      some ((), (m.setBind b fun x => { x with gated := false }).release b)
    else none
  | .closeReady => some ((), m.setBind b fun x => { x with ready := true })
  | .awaitReady => if (m.binds b).ready then some ((), m) else none
  | .closeConsumed => some ((), m.setBind b fun x => { x with consumed := true })
  | .awaitConsumed => if (m.binds b).consumed then some ((), m) else none
  | .closeSession => some ((), m.setBind b fun x => { x with sessionDone := true })
  | .isDone => some ((m.binds b).closed, m)
  | .decide d => some ((), m.send b [.permission d])
  | .receive =>
    if c.ok then
      match (m.pods (m.binds b).pod).inbox with
      | f :: rest => some (some f, m.setPod (m.binds b).pod fun p => { p with inbox := rest })
      | [] => none
    else if m.unbound b then some (none, m) else none
  | .recordPod turnId p seq =>
    if c.ok then some (m.recordEvent turnId p seq c.readOk true)
    else if m.unbound b then some (false, m) else none
  | .advancePod seq =>
    if c.ok then some (true, { m with db := m.db.update fun r => r.advancePodSeq seq })
    else if m.unbound b then some (false, m) else none
  | .record turnId p =>
    if c.ok then some (m.recordEvent turnId p 0 c.readOk true)
    else if m.unbound b then some (false, m) else none
  | .sync =>
    if (m.binds b).sendMu = none then some ((), m.setBind b fun x => { x with syncing := true })
    else none
  | .listCommands =>
    if c.ok then
      if (m.binds b).permMu = none then
        some (some m.db.cmds, m.setBind b fun x => { x with permMu := some t })
      else none
    else if m.unbound b then some (none, m) else none
  | .reconcile st cmds =>
    if (m.binds b).sendMu = none then some ((), m.reconcile b st cmds c.keep) else none
  | .clearDecision requestId =>
    if c.ok then
      let cmd : PodCommand := ⟨requestId, "", .permission ⟨requestId, "", false⟩⟩
      some (true, { m with db := m.db.deleteCommand cmd })
    else if m.unbound b then some (false, m) else none
  | .register req =>
    if (m.binds b).waiters.any fun w => w.req.requestId = req.requestId then some (false, m)
    else some (true, m.setBind b fun x => { x with waiters := x.waiters ++ [⟨req, 0⟩] })
  | .stamp requestId fresh deadline =>
    match (m.binds b).waiters.find? fun w => w.req.requestId = requestId with
    | none => some (deadline, m)
    | some w =>
      if fresh then some (deadline, m.setBind b fun x => { x with
        waiters := x.waiters.map fun w =>
          if w.req.requestId = requestId then { w with deadline } else w })
      else some (w.deadline, m)
  | .drop requestId => some ((), m.setBind b fun x =>
      { x with waiters := x.waiters.filter fun w => w.req.requestId ≠ requestId })
  | .validate requestId optionId => some ((m.binds b).waiters.any fun w =>
      w.req.requestId = requestId && w.req.options.any fun o => o.id = optionId, m)
  | .take requestId => some ((m.binds b).waiters.find? fun w => w.req.requestId = requestId,
      m.setBind b fun x =>
        { x with waiters := x.waiters.filter fun w => w.req.requestId ≠ requestId })
  | .restore w => some ((), m.setBind b fun x =>
      if x.waiters.any fun v => v.req.requestId = w.req.requestId then x
      else { x with waiters := x.waiters ++ [w] })
  | .awaitMissing reqs deadline =>
    some ((), m.setBind b fun x => { x with
      waiters := x.waiters ++ (reqs.filterMap fun r =>
        if x.waiters.any fun w => w.req.requestId = r.requestId then none
        else if c.ok then (m.db.recordedDeadline r.requestId).map fun at_ => ⟨r, at_⟩
        else some ⟨r, deadline⟩) })
  | .waiting => some ((m.binds b).waiters.map fun w => w.req.requestId, m)
  | .idleFor => some ((m.binds b).idleFor m.now, m)
  | .warn after =>
    if after ≤ (m.binds b).idleFor m.now ∧ (m.binds b).idleWarned = false then
      some (true, m.setBind b fun x => { x with idleWarned := true })
    else some (false, m)

def NoteOp.perform (m : Mem) : NoteOp → Option Mem
  | .reconciling => if m.boot = .down then some { m with boot := .reconciling } else none
  | .up => some { m with boot := .up }
  | .accepted turnId => some { m with accepted := m.accepted ++ [turnId] }
  | .endOk => some { m with endOks := m.endOks ++ [m.slot.entry] }
  | .answered _ _ => some m

/-- What thread `t` does with an operation. -/
def perform (t : ℕ) (op : Op) (m : Mem) (c : Choice) : Option (op.Res × Mem) :=
  match op with
  | .slot op => op.perform t m
  | .store op => op.perform t m c
  | .ext op => op.perform t m c
  | .bind b op => op.perform t m c b
  | .note op => (op.perform m).map fun m => ((), m)

end AgentOps.Service
