import AgentOps.Service.Calls

/-!
# Footprints

Which kinds of operations a program can perform, and which programs it can start or continue
as. A proof about the approver, a workspace or a permission request passes over every program
whose footprint has none of the operations that matter to it, so each program's footprint is
found once, here.
-/

namespace AgentOps.Service

open AgentOps.Api AgentOps.Link AgentOps.Lib

/-- The kinds of operations, and of programs that a program starts or continues as. -/
inductive Kind
  -- the owner map
  | claim | lookup | register | stopped | takeStop | detach | finish | ran | await
  -- the row
  | create | read | sandbox | acp | approver | suspended | launched | run | link
  | finishSession | finishOther | turnSeq
  -- events of the service, and of the pod
  | turnEnd | asked | resolved | changed | ended | event
  | podTurnEnd | podAsked | podResolved | podChanged | podEnded | podEvent
  | dropResolved | dropEvent
  -- saved commands
  | savePrompt | saveDecision | deleteCommands | listCommands
  -- the launcher and the run client
  | self | now | prepare | revive | createRun | expect | spawnAgent | awaitReady | outcome
  | suspend | teardown | getRun | adopt | seenResolved | recordResolved
  -- bindings
  | bind | claimOf | gate | enter | leave | outstanding | lock | hold | ungate | closeReady
  | ready | closeConsumed | consumed | closeSession | isDone | decide | receive | advance | sync
  | savedCommands | reconcile | clearDecision | ask | stamp | drop | validate | take | restore
  | awaitMissing | waiting | idle | warn
  -- the start of the process and the answers of calls
  | reconciling | up | accepted | endOk | answered
  -- programs
  | settle | consume | watchRun | stop | call
deriving DecidableEq, Repr

/-- The kind of an event that the service records. -/
def eventKind : Payload → Kind
  | .turnCompleted _ | .turnFailed _ => .turnEnd
  | .permissionRequest .. => .asked
  | .permissionResolved .. => .resolved
  | .stateChanged .. => .changed
  | .sessionEnded .. => .ended
  | _ => .event

/-- The kind of an event of a pod. -/
def podKind : Payload → Kind
  | .turnCompleted _ | .turnFailed _ => .podTurnEnd
  | .permissionRequest .. => .podAsked
  | .permissionResolved .. => .podResolved
  | .stateChanged .. => .podChanged
  | .sessionEnded .. => .podEnded
  | _ => .podEvent

/-- Events about the session as a whole, such as `endSession` records. -/
def generalEvents (events : List (String × Payload)) : Bool :=
  events.all fun ev => [Kind.changed, .ended, .event].elem (eventKind ev.2)

def SlotOp.kind : SlotOp → Kind
  | .claim _ => .claim
  | .lookup => .lookup
  | .register => .register
  | .stopped => .stopped
  | .takeStop => .takeStop
  | .detach _ _ => .detach
  | .finish => .finish
  | .ran => .ran
  | .await _ => .await

def Update.kind : Update → Kind
  | .sandbox .. => .sandbox
  | .acp .. => .acp
  | .approver _ => .approver
  | .suspended _ => .suspended
  | .launched => .launched
  | .run _ => .run
  | .link .. => .link

def StoreOp.kind : StoreOp → Kind
  | .createSession _ => .create
  | .getSession => .read
  | .update u => u.kind
  | .finishSession _ events => if generalEvents events then .finishSession else .finishOther
  | .nextTurnSeq => .turnSeq
  | .recordEvent _ p => eventKind p
  | .putCommand c => match c.payload with
    | .prompt _ => .savePrompt
    | .permission _ => .saveDecision
  | .deleteCommands => .deleteCommands
  | .listCommands => .listCommands

def ExtOp.kind : ExtOp → Kind
  | .self => .self
  | .now => .now
  | .prepare => .prepare
  | .revive _ => .revive
  | .createRun .. => .createRun
  | .expect => .expect
  | .spawnAgent => .spawnAgent
  | .awaitReady => .awaitReady
  | .outcome => .outcome
  | .suspend _ => .suspend
  | .teardown _ => .teardown
  | .getRun => .getRun
  | .adopt .. => .adopt
  | .seenResolved _ => .seenResolved
  | .recordResolved _ => .recordResolved

def BindOp.kind : BindOp → Kind
  | .create .. => .bind
  | .claim => .claimOf
  | .gate _ => .gate
  | .enter _ => .enter
  | .leave _ => .leave
  | .outstanding => .outstanding
  | .lockSend | .unlockSend | .lockPerm | .unlockPerm => .lock
  | .hold _ => .hold
  | .ungate => .ungate
  | .closeReady => .closeReady
  | .awaitReady => .ready
  | .closeConsumed => .closeConsumed
  | .awaitConsumed => .consumed
  | .closeSession => .closeSession
  | .isDone => .isDone
  | .decide _ => .decide
  | .receive => .receive
  | .recordPod _ p _ => podKind p
  | .advancePod _ => .advance
  | .record _ p => match p with
    | .permissionResolved .. => .dropResolved
    | _ => .dropEvent
  | .sync => .sync
  | .listCommands => .savedCommands
  | .reconcile .. => .reconcile
  | .clearDecision _ => .clearDecision
  | .register _ => .ask
  | .stamp .. => .stamp
  | .drop _ => .drop
  | .validate .. => .validate
  | .take _ => .take
  | .restore _ => .restore
  | .awaitMissing .. => .awaitMissing
  | .waiting => .waiting
  | .idleFor => .idle
  | .warn _ => .warn

def Op.kind : Op → Kind
  | .slot op => op.kind
  | .store op => op.kind
  | .ext op => op.kind
  | .bind _ op => op.kind
  | .note .reconciling => .reconciling
  | .note .up => .up
  | .note (.accepted _) => .accepted
  | .note .endOk => .endOk
  | .note (.answered ..) => .answered

def Entry.kind : Entry → Kind
  | .settle _ => .settle
  | .consume _ => .consume
  | .watchRun _ => .watchRun
  | .stop .. => .stop
  | _ => .call

theorem finishSession_kind {kinds : List Kind} (h : kinds.elem .finishSession = true)
    (h' : kinds.elem .finishOther = true) (status : SessionState)
    (events : List (String × Payload)) :
    (Op.store (.finishSession status events)).kind ∈ kinds := by
  simp only [Op.kind, StoreOp.kind]
  split
  · exact List.elem_iff.mp h
  · exact List.elem_iff.mp h'

/-- The program performs operations of these kinds only. -/
def Uses (kinds : List Kind) {α : Type} (p : P α) : Prop :=
  p.Bounded (fun op : Op => op.kind ∈ kinds) (fun e : Entry => e.kind ∈ kinds)
    fun e : Entry => e.kind ∈ kinds

section

variable {α β : Type} {kinds kinds' : List Kind}

theorem Uses.pure (a : α) : Uses kinds (pure a : P α) := trivial

theorem Uses.bind {p : P α} {f : α → P β} (hp : Uses kinds p) (hf : ∀ a, Uses kinds (f a)) :
    Uses kinds (p >>= f) :=
  Prog.Bounded.bind hp hf

theorem Uses.when {c : Prop} [Decidable c] {p : P Unit} (h : Uses kinds p) :
    Uses kinds (.when c p) :=
  Prog.Bounded.when h

/-- One operation, of a kind that its constructor tells. -/
theorem Uses.act (op : Op) (h : kinds.elem op.kind = true) :
    Uses kinds (Prog.perform (S := sig) op) :=
  .perform (List.elem_iff.mp h)

theorem Uses.jump (e : Entry) (h : kinds.elem e.kind = true) :
    Uses kinds (.jump e : P α) :=
  List.elem_iff.mp h

theorem Uses.spawn (e : Entry) {p : P α} (h : kinds.elem e.kind = true) (hp : Uses kinds p) :
    Uses kinds (.spawn e p) :=
  ⟨List.elem_iff.mp h, hp⟩

theorem Uses.mono {p : P α} (hp : Uses kinds p)
    (h : (kinds.all fun ρ => kinds'.elem ρ) = true) : Uses kinds' p := by
  have hsub : ∀ ρ ∈ kinds, ρ ∈ kinds' := by
    intro ρ hρ
    exact List.elem_iff.mp (List.all_eq_true.mp h ρ hρ)
  exact Prog.Bounded.mono (fun _ ho => hsub _ ho) (fun _ he => hsub _ he) (fun _ he => hsub _ he) hp

/-- A program stays within every set of operations and programs that has its kinds. -/
theorem Uses.within {p : P α} (hp : Uses kinds p) {N : Op → Prop} {E : Entry → Prop}
    (hN : ∀ op, op.kind ∈ kinds → N op) (hE : ∀ e, e.kind ∈ kinds → E e) : p.Within N E :=
  Prog.Bounded.mono hN hE hE hp

end

/-! ## Stops -/

section

variable (cfg : Settings)

theorem uses_emit (turnId : String) (p : Payload) : Uses [eventKind p] (emit turnId p) :=
  Uses.bind (.perform List.mem_cons_self) fun _ => .pure _

theorem uses_getSession : Uses [.read] getSession := .act _ rfl

theorem uses_write {kinds : List Kind} {update : P Bool} (hread : kinds.elem .read = true)
    (h : Uses kinds update) : Uses kinds (write update) := by
  refine Uses.bind (.act (.store .getSession) hread) fun r => ?_
  split
  · exact .pure _
  · split
    · exact .pure _
    · exact h

theorem uses_storedState (fallback : SessionState) : Uses [.read] (storedState fallback) := by
  refine uses_getSession.bind fun r => ?_
  split <;> exact .pure _

theorem uses_recordsClaim (claimName : String) : Uses [.read] (recordsClaim claimName) := by
  refine uses_getSession.bind fun r => ?_
  split <;> exact .pure _

theorem uses_nextTurn : Uses [.turnSeq] nextTurn := by
  refine Uses.bind (.act (.store .nextTurnSeq) rfl) fun r => ?_
  split <;> exact .pure _

theorem uses_endSession (old : SessionState) (reason : EndReason) (detail : String)
    (preface : List (String × Payload)) (hpreface : generalEvents preface = true := by rfl) :
    Uses [.finishSession] (endSession old reason detail preface) := by
  have hall : generalEvents (preface ++ [("", .stateChanged old (endState reason) .unspecified),
      ("", .sessionEnded (endReason reason) detail)]) = true := by
    unfold generalEvents at hpreface ⊢
    rw [List.all_append, hpreface]
    rfl
  refine Uses.bind (.act (.store (.finishSession _ _)) ?_) fun r => ?_
  · simp only [Op.kind, StoreOp.kind, hall, if_true]
    rfl
  · split <;> exact .pure _

theorem uses_stopDetached (spec : StopSpec) :
    Uses [.read, .teardown, .finishSession] (stopDetached spec) := by
  refine (uses_getSession.mono rfl).bind fun r => ?_
  split
  · exact .pure _
  · split
    · exact .pure _
    · split
      · refine Uses.bind (.act (.ext (.teardown _)) rfl) fun ok => ?_
        split
        · exact (uses_endSession ..).mono rfl
        · exact .pure _
      · exact (uses_endSession ..).mono rfl

theorem uses_supersedeAll (b : ℕ) (ids : List String) :
    Uses [.take, .resolved] (supersedeAll b ids) := by
  induction ids with
  | nil => exact .pure _
  | cons id ids ih =>
    refine Uses.bind (.act (.bind b (.take id)) rfl) fun r => ?_
    split
    · exact ih
    · exact ((uses_emit _ (.permissionResolved ..)).mono rfl).bind fun _ => ih

theorem uses_failTurns (b : ℕ) (turns : List String) :
    Uses [.turnEnd, .leave] (failTurns b turns) := by
  induction turns with
  | nil => exact .pure _
  | cons turn turns ih =>
    refine ((uses_emit _ (.turnFailed _)).mono rfl).bind fun _ => ?_
    exact Uses.bind (.act (.bind b (.leave turn)) rfl) fun _ => ih

/-- The kinds of `drainBinding`. -/
def drainKinds : List Kind :=
  [.ready, .consumed, .lock, .closeSession, .waiting, .take, .resolved, .outstanding, .turnEnd,
   .leave, .deleteCommands]

theorem uses_drainBinding (b : ℕ) : Uses drainKinds (drainBinding b) := by
  refine Uses.bind (.act (.bind b .awaitReady) rfl) fun _ => ?_
  refine Uses.bind (.act (.bind b .awaitConsumed) rfl) fun _ => ?_
  refine Uses.bind (.act (.bind b .lockPerm) rfl) fun _ => ?_
  refine Uses.bind (.act (.bind b .lockSend) rfl) fun _ => ?_
  refine Uses.bind (.act (.bind b .closeSession) rfl) fun _ => ?_
  refine Uses.bind (.act (.bind b .waiting) rfl) fun ids => ?_
  refine ((uses_supersedeAll b ids).mono rfl).bind fun _ => ?_
  refine Uses.bind (.act (.bind b .outstanding) rfl) fun turns => ?_
  refine ((uses_failTurns b turns).mono rfl).bind fun _ => ?_
  refine Uses.bind (.act (.store .deleteCommands) rfl) fun _ => ?_
  refine Uses.bind (.act (.bind b .unlockSend) rfl) fun _ => ?_
  exact .act (.bind b .unlockPerm) rfl

theorem uses_recordSuspended (reason : Reason) :
    Uses [.read, .now, .suspended, .changed, .event] (recordSuspended cfg reason) := by
  refine ((uses_storedState _).mono rfl).bind fun old => ?_
  refine Uses.bind (.act (.ext .now) rfl) fun now => ?_
  refine (uses_write rfl (.act (.store (.update (.suspended _))) rfl)).bind fun ok => ?_
  split
  · refine ((uses_emit _ (.stateChanged ..)).mono rfl).bind fun _ => ?_
    exact ((uses_emit _ (.suspended ..)).mono rfl).bind fun _ => .pure _
  · exact .pure _

theorem uses_tearDownAndEnd (claimName : String) (spec : StopSpec) :
    Uses [.teardown, .read, .finishSession] (tearDownAndEnd claimName spec) := by
  refine Uses.bind (.act (.ext (.teardown _)) rfl) fun ok => ?_
  split
  · exact ((uses_storedState _).mono rfl).bind fun old => (uses_endSession ..).mono rfl
  · exact .pure _

/-- The kinds of `stopLive`. -/
def stopLiveKinds : List Kind :=
  drainKinds ++ ([.claimOf, .suspend, .read, .now, .suspended, .changed, .event, .teardown,
    .finishSession] : List Kind)

theorem uses_stopLive (b : ℕ) (spec : StopSpec) : Uses stopLiveKinds (stopLive cfg b spec) := by
  refine ((uses_drainBinding b).mono rfl).bind fun _ => ?_
  refine Uses.bind (.act (.bind b .claim) rfl) fun claimName => ?_
  split
  · refine Uses.bind (.act (.ext (.suspend _)) rfl) fun ok => ?_
    split
    · exact (uses_recordSuspended cfg _).mono rfl
    · exact (uses_tearDownAndEnd ..).mono rfl
  · exact (uses_tearDownAndEnd ..).mono rfl

/-- The kinds of `settle`. -/
def settleKinds : List Kind :=
  [.finish, .ran, .read, .teardown, .finishSession, .endOk, .up, .settle]

theorem uses_settle (after : After) : Uses settleKinds (settle after) := by
  refine Uses.bind (.act (.slot .finish) rfl) fun r => ?_
  split
  · cases after with
    | nothing => exact .pure _
    | answer stopped => exact .when (.act (.note .endOk) rfl)
    | up => exact .act (.note .up) rfl
  · refine ((uses_stopDetached _).mono rfl).bind fun _ => ?_
    refine Uses.bind (.act (.slot .ran) rfl) fun _ => ?_
    exact .jump _ rfl

/-- The kinds of `stopOwned`. -/
def stopKinds : List Kind := stopLiveKinds ++ ([.detach, .settle] : List Kind)

theorem uses_stopOwned (want : Option ℕ) (spec : StopSpec) (answers : Bool) :
    Uses stopKinds (stopOwned cfg want spec answers) := by
  refine Uses.bind (.act (.slot (.detach want spec)) rfl) fun r => ?_
  split
  · exact .pure _
  · exact .pure _
  · rename_i victim
    cases victim with
    | some b => exact ((uses_stopLive ..).mono rfl).bind fun _ => .jump _ rfl
    | none => exact ((uses_stopDetached _).mono rfl).bind fun _ => .jump _ rfl

end

/-! ## Launches -/

theorem uses_suspendedAtOf (sess : Row) : Uses [.now] (suspendedAtOf sess) := by
  unfold suspendedAtOf
  split
  · exact Uses.bind (.act (.ext .now) rfl) fun _ => .pure _
  · exact .pure _

theorem uses_failTurn (opts : LaunchOpts) (reason : String) :
    Uses [.turnEnd] (failTurn opts reason) :=
  .when (uses_emit _ (.turnFailed _))

theorem uses_failRevive (sess : Row) (opts : LaunchOpts) (reason : Reason) (detail : String) :
    Uses [.suspend, .turnEnd, .read, .now, .suspended, .changed]
      (failRevive sess opts reason detail) := by
  refine Uses.bind (.when (Uses.bind (.act (.ext (.suspend _)) rfl) fun _ => .pure _)) fun _ => ?_
  refine ((uses_failTurn opts detail).mono rfl).bind fun _ => ?_
  refine ((uses_storedState _).mono rfl).bind fun _ => ?_
  refine ((uses_suspendedAtOf sess).mono rfl).bind fun _ => ?_
  refine (uses_write rfl (.act (.store (.update (.suspended _))) rfl)).bind fun _ => ?_
  exact .when ((uses_emit _ (.stateChanged ..)).mono rfl)

theorem uses_endLaunch (claimName : String) (reason : EndReason) (detail : String) :
    Uses [.read, .teardown, .finishSession] (endLaunch claimName reason detail) := by
  have hfinish : Uses [.read, .teardown, .finishSession] (do
      let old ← storedState .launching
      let _ ← endSession old reason detail : P Unit) :=
    ((uses_storedState _).mono rfl).bind fun old =>
      ((uses_endSession ..).mono rfl).bind fun _ => .pure _
  unfold endLaunch
  dsimp only
  split
  · refine Uses.bind (.act (.ext (.teardown _)) rfl) fun ok => ?_
    split
    · exact hfinish
    · refine ((uses_recordsClaim _).mono rfl).bind fun ok => ?_
      split
      · exact .pure _
      · exact hfinish
  · exact hfinish

/-- The kinds of `failLaunch`. -/
def failKinds : List Kind :=
  [.takeStop, .turnEnd, .read, .teardown, .finishSession, .suspend, .now, .suspended, .changed]

theorem uses_failLaunch (sess : Row) (opts : LaunchOpts) (claimName : String) (reason : EndReason)
    (detail : String) : Uses failKinds (failLaunch sess opts claimName reason detail) := by
  refine Uses.bind (.act (.slot .takeStop) rfl) fun r => ?_
  split
  · refine ((uses_failTurn ..).mono rfl).bind fun _ => ?_
    exact (uses_endLaunch ..).mono rfl
  · split
    · exact (uses_failRevive ..).mono rfl
    · exact (uses_endLaunch ..).mono rfl

theorem uses_sendPrompt (b : ℕ) (p : Prompt) : Uses [.savePrompt, .hold] (sendPrompt b p) := by
  refine Uses.bind (.act (.store (.putCommand ⟨_, _, .prompt p⟩)) rfl) fun ok => ?_
  split
  · exact Uses.bind (.act (.bind b (.hold p)) rfl) fun _ => .pure _
  · exact .pure _

theorem uses_recordApproverFromRun :
    Uses [.getRun, .approver, .event] recordApproverFromRun := by
  refine Uses.bind (.act (.ext .getRun) rfl) fun r => ?_
  split
  · exact .pure _
  · split
    · exact .pure _
    · refine Uses.bind (.act (.store (.update (.approver _))) rfl) fun _ => ?_
      exact (uses_emit _ (.approved _)).mono rfl

theorem uses_recordLink (t : ℕ) (claimName sandboxName acpSessionId : String) (readySeq : ℕ) :
    Uses [.read, .sandbox, .link, .acp]
      (recordLink t claimName sandboxName acpSessionId readySeq) := by
  refine uses_write rfl (Uses.bind (.act (.store (.update (.sandbox ..))) rfl) fun ok => ?_)
  split
  · refine Uses.bind (.act (.store (.update (.link ..))) rfl) fun ok => ?_
    split
    · exact .act (.store (.update (.acp ..))) rfl
    · exact .pure _
  · exact .pure _

theorem uses_saveOpening (t : ℕ) (opts : LaunchOpts) :
    Uses [.gate, .savePrompt, .hold, .enter, .turnEnd] (saveOpening t opts) := by
  unfold saveOpening
  split
  · refine Uses.bind (.act (.bind t (.gate true)) rfl) fun _ => ?_
    refine ((uses_sendPrompt ..).mono rfl).bind fun ok => ?_
    split
    · exact Uses.bind (.act (.bind t (.enter _)) rfl) fun _ => .pure _
    · refine ((uses_emit _ (.turnFailed _)).mono rfl).bind fun _ => ?_
      exact Uses.bind (.act (.bind t (.gate false)) rfl) fun _ => .pure _
  · exact .pure _

theorem uses_stopUnlinked (t : ℕ) (opts : LaunchOpts) (opening : Bool) :
    Uses [.turnEnd, .leave, .stop] (stopUnlinked t opts opening) := by
  refine Uses.bind (.when ?_) fun _ => .spawn _ rfl (.pure _)
  refine ((uses_emit _ (.turnFailed _)).mono rfl).bind fun _ => ?_
  exact .act (.bind t (.leave _)) rfl

theorem uses_runLinked (t : ℕ) (opts : LaunchOpts) (opening : Bool) :
    Uses [.getRun, .approver, .event, .changed, .ungate] (runLinked t opts opening) := by
  refine (uses_recordApproverFromRun.mono rfl).bind fun _ => ?_
  refine ((uses_emit _ (.stateChanged ..)).mono rfl).bind fun _ => ?_
  refine Uses.bind (.when ((uses_emit _ .revived).mono rfl)) fun _ => ?_
  exact .when (.act (.bind t .ungate) rfl)

theorem uses_workspace (sess : Row) (opts : LaunchOpts) :
    Uses [.revive, .prepare] (workspace sess opts) := by
  unfold workspace
  split
  · refine Uses.bind (.act (.ext (.revive _)) rfl) fun r => ?_
    split <;> exact .pure _
  · exact .act (.ext .prepare) rfl

theorem uses_beginLaunch (old : SessionState) (reason : Reason) :
    Uses [.read, .launched, .changed] (beginLaunch old reason) := by
  refine (uses_write rfl (.act (.store (.update .launched)) rfl)).bind fun ok => ?_
  split
  · exact ((uses_emit _ (.stateChanged ..)).mono rfl).bind fun _ => .pure _
  · exact .pure _

theorem uses_activateFailed (sess : Row) (opts : LaunchOpts) (claimName : String)
    (err : ActivateError) :
    Uses (.outcome :: .stopped :: failKinds) (activateFailed sess opts claimName err) := by
  have hfail : Uses (.outcome :: .stopped :: failKinds) (do
      let failure := activateFailure err (← ext .outcome)
      failLaunch sess opts claimName failure.1 failure.2) :=
    Uses.bind (.act (.ext .outcome) rfl) fun _ => (uses_failLaunch ..).mono rfl
  unfold activateFailed
  dsimp only
  split
  · refine Uses.bind (.act (.slot .stopped) rfl) fun r => ?_
    split
    · exact hfail
    · exact (uses_failRevive ..).mono rfl
  · exact hfail

/-- The kinds of a launch and of the call that starts it, but for the insert of the row and
`CreateRun`. -/
def launchKinds : List Kind :=
  failKinds ++ ([.claim, .lookup, .lock, .read, .stopped, .turnSeq, .accepted, .launched, .changed,
    .revive, .prepare, .sandbox, .expect, .run, .event, .self, .spawnAgent, .awaitReady, .outcome,
    .bind, .gate, .savePrompt, .hold, .enter, .register, .link, .acp, .getRun, .approver, .ungate,
    .leave, .closeReady, .closeConsumed, .closeSession, .consume, .watchRun, .stop, .settle] :
      List Kind)

theorem uses_runRegistered (t : ℕ) (opts : LaunchOpts) (opening : Bool)
    (claimName sandboxName : String) (ready : String × ℕ) :
    Uses launchKinds (runRegistered t opts opening claimName sandboxName ready) := by
  refine ((uses_recordLink ..).mono rfl).bind fun linked => ?_
  have hrun : Uses launchKinds
      (if linked then runLinked t opts opening else stopUnlinked t opts opening : P Unit) := by
    split
    · exact (uses_runLinked ..).mono rfl
    · exact (uses_stopUnlinked ..).mono rfl
  exact .spawn _ rfl (hrun.bind fun _ => .act (.bind t .closeReady) rfl)

theorem uses_bindSession (t : ℕ) (sess : Row) (opts : LaunchOpts) (claimName sandboxName : String)
    (ready : String × ℕ) :
    Uses launchKinds (bindSession t sess opts claimName sandboxName ready) := by
  refine Uses.bind (.act (.bind t (.create ..)) rfl) fun _ => ?_
  refine ((uses_saveOpening ..).mono rfl).bind fun opening => ?_
  refine Uses.bind (.act (.slot .register) rfl) fun ok => ?_
  split
  · exact (uses_runRegistered ..).bind fun _ => .pure _
  · refine Uses.bind (.act (.bind t .closeConsumed) rfl) fun _ => ?_
    refine Uses.bind (.act (.bind t .closeSession) rfl) fun _ => ?_
    refine ((uses_failLaunch ..).mono rfl).bind fun _ => ?_
    exact Uses.bind (.act (.bind t .closeReady) rfl) fun _ => .pure _

theorem uses_activateAndRun (sess : Row) (opts : LaunchOpts) (claimName sandboxName : String) :
    Uses launchKinds (activateAndRun sess opts claimName sandboxName) := by
  have hfail (err : ActivateError) : Uses launchKinds
      (activateFailed sess opts claimName err >>= fun _ => pure false) :=
    ((uses_activateFailed ..).mono rfl).bind fun _ => .pure _
  refine Uses.bind (.act (.ext .self) rfl) fun t => ?_
  refine Uses.bind (.act (.ext .spawnAgent) rfl) fun ok => ?_
  split
  · refine Uses.bind (.act (.ext .awaitReady) rfl) fun r => ?_
    split
    · exact uses_bindSession ..
    · exact hfail _
  · exact hfail _

section

variable {N : Op → Prop} {E : Entry → Prop} {approvalPrompt : String} {revive : Bool}

/-- Room for a launch with this approval prompt. -/
structure LaunchWithin (N : Op → Prop) (E : Entry → Prop) (approvalPrompt : String)
    (revive : Bool) : Prop where
  ops : ∀ op : Op, op.kind ∈ launchKinds → N op
  entries : ∀ e : Entry, e.kind ∈ launchKinds → E e
  createRun : ∀ sess : Row, N (.ext (.createRun approvalPrompt (expectedSubject sess revive)
    sess.templateSpec.mcpServers))

namespace LaunchWithin

variable (h : LaunchWithin N E approvalPrompt revive)

include h

theorem part {α : Type} {kinds : List Kind} {p : P α} (hp : Uses kinds p)
    (hsub : (kinds.all fun ρ => launchKinds.elem ρ) = true) : p.Within N E :=
  (hp.mono hsub).within h.ops h.entries

theorem act (op : Op) (hop : launchKinds.elem op.kind = true) :
    (Prog.perform (S := sig) op).Within N E :=
  .perform (h.ops op (List.elem_iff.mp hop))

theorem failLaunch (sess : Row) (opts : LaunchOpts) (claimName : String) (reason : EndReason)
    (detail : String) :
    (failLaunch sess opts claimName reason detail >>= fun _ => pure false : P Bool).Within N E :=
  (h.part (uses_failLaunch ..) rfl).bind fun _ => trivial

theorem launchRun (sess : Row) (opts : LaunchOpts) (hprompt : opts.approvalPrompt = approvalPrompt)
    (hrevive : opts.revive = revive) (claimName sandboxName : String) :
    (launchRun sess opts claimName sandboxName).Within N E := by
  have hrun : (ext (.createRun opts.approvalPrompt (expectedSubject sess opts.revive)
      sess.templateSpec.mcpServers)).Within N E := by
    rw [hprompt, hrevive]
    exact .perform (h.createRun sess)
  refine hrun.bind fun r => ?_
  split
  · exact h.failLaunch ..
  · refine Prog.Bounded.bind (h.act (.ext .expect) rfl) fun ok => ?_
    split
    · have hwrite (runId : String) : Uses [.read, .run] (write (store (.update (.run runId)))) :=
        uses_write rfl (.act (.store (.update (.run _))) rfl)
      refine (h.part (hwrite _) rfl).bind fun ok => ?_
      split
      · refine (h.part (uses_emit _ (.stateChanged ..)) rfl).bind fun _ => ?_
        refine (h.part (uses_emit _ (.approvalRequired ..)) rfl).bind fun _ => ?_
        exact h.part (uses_activateAndRun ..) rfl
      · exact h.failLaunch ..
    · exact h.failLaunch ..

theorem launchSession (sess : Row) (opts : LaunchOpts)
    (hprompt : opts.approvalPrompt = approvalPrompt) (hrevive : opts.revive = revive) :
    (launchSession sess opts).Within N E := by
  unfold Service.launchSession
  split
  · refine (h.part (uses_beginLaunch ..) rfl).bind fun ok => ?_
    split
    · refine (h.part (uses_workspace ..) rfl).bind fun r => ?_
      split
      · exact h.failLaunch ..
      · have hwrite (claimName sandboxName : String) : Uses [.read, .sandbox]
            (write (store (.update (.sandbox claimName sandboxName .launching)))) :=
          uses_write rfl (.act (.store (.update (.sandbox ..))) rfl)
        refine (h.part (hwrite ..) rfl).bind fun ok => ?_
        split
        · exact h.launchRun _ _ hprompt hrevive ..
        · exact h.failLaunch ..
    · exact h.failLaunch ..
  · exact (h.part (uses_endSession ..) rfl).bind fun _ => trivial

theorem launch (opts : LaunchOpts) (hprompt : opts.approvalPrompt = approvalPrompt)
    (hrevive : opts.revive = revive) : (launch opts).Within N E := by
  have hbody : (launchBody opts).Within N E := by
    refine (h.part uses_getSession rfl).bind fun r => ?_
    split
    · exact (h.part (uses_failTurn ..) rfl).bind fun _ => trivial
    · refine Prog.Bounded.bind (h.act (.slot .stopped) rfl) fun r => ?_
      split
      · exact h.failLaunch ..
      · split
        · refine (h.part uses_nextTurn rfl).bind fun r => ?_
          split
          · exact h.failLaunch ..
          · refine Prog.Bounded.bind (h.act (.note (.accepted _)) rfl) fun _ => ?_
            exact h.launchSession _ _ hprompt hrevive
        · exact h.launchSession _ _ hprompt hrevive
  refine hbody.bind fun r => ?_
  split
  · refine Prog.Bounded.bind (h.act (.ext .self) rfl) fun t => ?_
    exact ⟨h.entries (.watchRun t) (List.elem_iff.mp rfl), trivial⟩
  · exact h.entries (.settle .nothing) (List.elem_iff.mp rfl)

end LaunchWithin

end

/-! ## The consumer and permissions -/

section

variable (cfg : Settings)

/-- The kinds that `logPayload` gives. -/
def podKinds : List Kind := [.podTurnEnd, .podAsked, .podEvent]

theorem logPayload_kind {deadline : ℕ} {payload : AgentPayload} {p : Payload}
    (h : logPayload deadline payload = some p) : podKinds.elem (podKind p) = true := by
  cases payload <;> simp only [logPayload] at h <;> (try split at h) <;> cases h <;> rfl

/-- The kinds of `handlePermission`. -/
def permissionKinds : List Kind := podKinds ++ ([.ask, .now, .stamp, .drop] : List Kind)

theorem uses_handlePermission (b : ℕ) (ev : AgentEvent) (req : PermissionRequest) :
    Uses permissionKinds (handlePermission cfg b ev req) := by
  refine Uses.bind (.act (.bind b (.register req)) rfl) fun fresh => ?_
  refine Uses.bind (.act (.ext .now) rfl) fun now => ?_
  refine Uses.bind (.act (.bind b (.stamp ..)) rfl) fun deadline => ?_
  split
  · exact .pure _
  · rename_i p hp
    have hrec : Uses permissionKinds (onBinding b (.recordPod ev.turnId p ev.seq)) :=
      .perform (List.mem_append_left _ (List.elem_iff.mp (logPayload_kind hp)))
    refine hrec.bind fun ok => ?_
    split
    · exact .pure _
    · exact Uses.bind (.when (.act (.bind b (.drop _)) rfl)) fun _ => .pure _

/-- The kinds of `handleEvent`. -/
def eventKinds : List Kind := permissionKinds ++ ([.advance, .stop, .leave] : List Kind)

theorem uses_handleEvent (b : ℕ) (ev : AgentEvent) : Uses eventKinds (handleEvent cfg b ev) := by
  unfold handleEvent
  split
  · refine Uses.bind (.act (.bind b (.advancePod _)) rfl) fun ok => ?_
    split
    · exact .spawn _ rfl (.pure _)
    · exact .pure _
  · exact (uses_handlePermission ..).mono rfl
  · split
    · exact .act (.bind b (.advancePod _)) rfl
    · rename_i p hp
      have hrec : Uses eventKinds (onBinding b (.recordPod ev.turnId p ev.seq)) :=
        .perform (List.mem_append_left _ (List.mem_append_left _
          (List.elem_iff.mp (logPayload_kind hp))))
      refine hrec.bind fun ok => ?_
      split
      · exact Uses.bind (.when (.act (.bind b (.leave _)) rfl)) fun _ => .pure _
      · exact .pure _

theorem uses_supersede (b : ℕ) (w : Waiter) :
    Uses [.dropResolved, .clearDecision, .restore] (supersede b w) := by
  refine Uses.bind (.act (.bind b (.record _ (.permissionResolved ..))) rfl) fun ok => ?_
  split
  · exact Uses.bind (.act (.bind b (.clearDecision _)) rfl) fun _ => .pure _
  · exact .act (.bind b (.restore _)) rfl

theorem uses_supersedeDropped (b : ℕ) (ids : List String) :
    Uses [.take, .dropResolved, .clearDecision, .restore] (supersedeDropped b ids) := by
  induction ids with
  | nil => exact .pure _
  | cons id ids ih =>
    refine Uses.bind (.act (.bind b (.take id)) rfl) fun r => ?_
    split
    · exact ih
    · exact ((uses_supersede ..).mono rfl).bind fun _ => ih

/-- The kinds of `reconcileState`. -/
def reconcileKinds : List Kind :=
  [.sync, .savedCommands, .reconcile, .now, .awaitMissing, .waiting, .take, .dropResolved,
   .clearDecision, .restore, .lock]

theorem uses_reconcileState (b : ℕ) (st : AgentState) :
    Uses reconcileKinds (reconcileState cfg b st) := by
  refine Uses.bind (.act (.bind b .sync) rfl) fun _ => ?_
  refine Uses.bind (.act (.bind b .listCommands) rfl) fun r => ?_
  split
  · exact .pure _
  · rename_i cmds
    refine Uses.bind (.act (.bind b (.reconcile st cmds)) rfl) fun _ => ?_
    refine Uses.bind (.act (.ext .now) rfl) fun now => ?_
    refine Uses.bind (.act (.bind b (.awaitMissing ..)) rfl) fun _ => ?_
    refine Uses.bind (.act (.bind b .waiting) rfl) fun waiting => ?_
    refine ((uses_supersedeDropped ..).mono rfl).bind fun _ => ?_
    exact .act (.bind b .unlockPerm) rfl

/-- The kinds of `consume`. -/
def consumeKinds : List Kind :=
  reconcileKinds ++ eventKinds ++ ([.receive, .closeConsumed, .consume] : List Kind)

theorem uses_consume (b : ℕ) : Uses consumeKinds (consume cfg b) := by
  refine Uses.bind (.act (.bind b .receive) rfl) fun r => ?_
  split
  · exact .act (.bind b .closeConsumed) rfl
  · exact ((uses_reconcileState ..).mono rfl).bind fun _ => .jump _ rfl
  · refine ((uses_handleEvent ..).mono rfl).bind fun ok => ?_
    split
    · exact .jump _ rfl
    · exact .act (.bind b .closeConsumed) rfl

/-- The kinds of the answer to a request. -/
def answerKinds : List Kind :=
  [.lock, .isDone, .validate, .take, .saveDecision, .resolved, .decide, .restore, .recordResolved,
   .answered]

theorem uses_resolvePermission (b : ℕ) (w : Waiter) (d : PermissionDecision)
    (resolution : String ⊕ Resolution) :
    Uses answerKinds (resolvePermission b w d resolution) := by
  refine Uses.bind (.act (.store (.putCommand ⟨_, _, .permission d⟩)) rfl) fun ok => ?_
  split
  · refine ((uses_emit _ (.permissionResolved ..)).mono rfl).bind fun _ => ?_
    exact Uses.bind (.act (.bind b (.decide d)) rfl) fun _ => .pure _
  · exact Uses.bind (.act (.bind b (.restore w)) rfl) fun _ => .pure _

theorem uses_expirePermission (b : ℕ) (requestId : String) :
    Uses answerKinds (expirePermission b requestId) := by
  refine Uses.bind (.act (.bind b .lockPerm) rfl) fun _ => ?_
  refine Uses.bind ?_ fun _ => .act (.bind b .unlockPerm) rfl
  refine Uses.bind (.act (.bind b .isDone) rfl) fun done => ?_
  split
  · exact .pure _
  · refine Uses.bind (.act (.bind b (.take requestId)) rfl) fun r => ?_
    split
    · exact .pure _
    · exact (uses_resolvePermission ..).bind fun _ => .pure _

theorem uses_answerLocked (b : ℕ) (requestId optionId : String) :
    Uses answerKinds (answerLocked b requestId optionId) := by
  refine Uses.bind (.act (.bind b (.validate ..)) rfl) fun ok => ?_
  split
  · refine Uses.bind (.act (.bind b (.take requestId)) rfl) fun r => ?_
    split
    · exact .pure _
    · refine (uses_resolvePermission ..).bind fun saved => ?_
      split
      · exact Uses.bind (.act (.ext (.recordResolved _)) rfl) fun _ => .pure _
      · exact .pure _
  · exact .pure _

theorem uses_answerPermission (b : ℕ) (requestId optionId : String) :
    Uses answerKinds (answerPermission b requestId optionId) := by
  refine Uses.bind (.act (.bind b .lockPerm) rfl) fun _ => ?_
  refine (uses_answerLocked ..).bind fun _ => ?_
  refine Uses.bind (.act (.bind b .unlockPerm) rfl) fun _ => ?_
  exact .when (.act (.note (.answered ..)) rfl)

/-! ## Calls, watchers and sweeps -/

theorem uses_promptRunning (b : ℕ) (content : String) :
    Uses [.lock, .turnSeq, .enter, .savePrompt, .hold, .accepted, .leave]
      (promptRunning b content) := by
  refine Uses.bind (.act (.bind b .lockSend) rfl) fun _ => ?_
  refine (uses_nextTurn.mono rfl).bind fun r => ?_
  split
  · exact .act (.bind b .unlockSend) rfl
  · refine Uses.bind (.act (.bind b (.enter _)) rfl) fun ok => ?_
    split
    · refine ((uses_sendPrompt ..).mono rfl).bind fun ok => ?_
      split
      · exact Uses.bind (.act (.bind b .unlockSend) rfl) fun _ => .act (.note (.accepted _)) rfl
      · exact Uses.bind (.act (.bind b .unlockSend) rfl) fun _ => .act (.bind b (.leave _)) rfl
    · exact .act (.bind b .unlockSend) rfl

theorem uses_respondPermission (requestId optionId : String) :
    Uses (answerKinds ++ ([.read, .seenResolved, .lookup] : List Kind))
      (respondPermission requestId optionId) := by
  refine (uses_getSession.mono rfl).bind fun r => ?_
  split
  · exact .pure _
  · split
    · exact .pure _
    · refine Uses.bind (.act (.ext (.seenResolved _)) rfl) fun seen => ?_
      split
      · exact .act (.note (.answered ..)) rfl
      · refine Uses.bind (.act (.slot .lookup) rfl) fun r => ?_
        split
        · exact .pure _
        · exact (uses_answerPermission ..).mono rfl

theorem uses_stop (want : Option ℕ) (spec : StopSpec) : Uses stopKinds (stop cfg want spec) :=
  (uses_stopOwned ..).bind fun _ => .pure _

theorem uses_callEndSession (reason : EndReason) :
    Uses (stopKinds ++ ([.endOk, .await] : List Kind)) (callEndSession cfg reason) := by
  refine (uses_getSession.mono rfl).bind fun r => ?_
  split
  · exact .pure _
  · split
    · exact .act (.note .endOk) rfl
    · refine ((uses_stopOwned ..).mono rfl).bind fun r => ?_
      split
      · exact .act (.note .endOk) rfl
      · refine Uses.bind (.act (.slot (.await _)) rfl) fun _ => ?_
        refine (uses_getSession.mono rfl).bind fun r => ?_
        split
        · exact .pure _
        · exact .when (.act (.note .endOk) rfl)

theorem uses_watchRun (b : ℕ) :
    Uses (stopKinds ++ ([.isDone, .getRun, .watchRun] : List Kind)) (watchRun cfg b) := by
  have hstop (spec : StopSpec) : Uses (stopKinds ++ ([.isDone, .getRun, .watchRun] : List Kind))
      (stop cfg (some b) spec) := (uses_stop ..).mono rfl
  refine Uses.bind (.act (.bind b .isDone) rfl) fun done => ?_
  split
  · exact .pure _
  · refine Uses.bind (.act (.ext .getRun) rfl) fun r => ?_
    split
    · exact hstop _
    · split
      · exact hstop _
      · split
        · exact hstop _
        · exact .jump _ rfl

theorem uses_sweepIdle :
    Uses (stopKinds ++ ([.lookup, .idle, .warn] : List Kind)) (sweepIdle cfg) := by
  unfold sweepIdle
  split
  · exact .pure _
  · refine Uses.bind (.act (.slot .lookup) rfl) fun r => ?_
    split
    · exact .pure _
    · rename_i b
      refine Uses.bind (.act (.bind b .idleFor) rfl) fun idle => ?_
      split
      · exact (uses_stop ..).mono rfl
      · split
        · refine Uses.bind (.act (.bind b (.warn _)) rfl) fun ok => ?_
          split
          · exact (uses_emit _ (.idleWarning _)).mono rfl
          · exact .pure _
        · exact .pure _

theorem uses_releaseEnd : Uses [.finishSession] (releaseEnd cfg) :=
  (uses_endSession ..).bind fun _ => .pure _

theorem uses_releaseClaimed :
    Uses [.read, .now, .teardown, .finishSession] (releaseClaimed cfg) := by
  refine (uses_getSession.mono rfl).bind fun r => ?_
  split
  · exact .pure _
  · refine Uses.bind (.act (.ext .now) rfl) fun now => ?_
    split
    · exact .pure _
    · split
      · refine Uses.bind (.act (.ext (.teardown _)) rfl) fun ok => ?_
        split
        · exact (uses_releaseEnd cfg).mono rfl
        · exact .pure _
      · exact (uses_releaseEnd cfg).mono rfl

/-- The kinds of `sweepSuspended`. -/
def releaseKinds : List Kind := [.read, .now, .claim, .teardown, .finishSession, .settle]

theorem uses_sweepSuspended : Uses releaseKinds (sweepSuspended cfg) := by
  unfold sweepSuspended
  split
  · exact .pure _
  · refine (uses_getSession.mono rfl).bind fun r => ?_
    split
    · exact .pure _
    · refine Uses.bind (.act (.ext .now) rfl) fun now => ?_
      split
      · refine Uses.bind (.act (.slot (.claim false)) rfl) fun ok => ?_
        split
        · exact ((uses_releaseClaimed cfg).mono rfl).bind fun _ => .jump _ rfl
        · exact .pure _
      · exact .pure _

theorem uses_sweepAbsolute : Uses stopKinds (sweepAbsolute cfg) := by
  unfold sweepAbsolute
  split
  · exact .pure _
  · refine (uses_getSession.mono rfl).bind fun r => ?_
    split
    · exact .pure _
    · refine Uses.bind (.act (.ext .now) rfl) fun now => ?_
      split
      · exact .pure _
      · exact uses_stop ..

/-- The kinds of `ReconcileOnStartup`. -/
def startupKinds : List Kind :=
  [.reconciling, .read, .claim, .up, .listCommands, .adopt, .self, .bind, .closeReady, .register,
   .consume, .watchRun, .closeConsumed, .closeSession, .teardown, .finishSession, .settle]

theorem uses_adoptPod (sess : Row) (pod : ℕ) (turns : List String) :
    Uses startupKinds (adoptPod sess pod turns) := by
  refine Uses.bind (.act (.ext .self) rfl) fun t => ?_
  refine Uses.bind (.act (.bind t (.create ..)) rfl) fun _ => ?_
  refine Uses.bind (.act (.bind t .closeReady) rfl) fun _ => ?_
  refine Uses.bind (.act (.slot .register) rfl) fun ok => ?_
  split
  · exact .spawn _ rfl (.spawn _ rfl (.pure _))
  · refine Uses.bind (.act (.bind t .closeConsumed) rfl) fun _ => ?_
    exact Uses.bind (.act (.bind t .closeSession) rfl) fun _ => .pure _

theorem uses_adopt (sess : Row) : Uses startupKinds (adopt sess) := by
  unfold adopt
  split
  · exact .pure _
  · split
    · exact .pure _
    · refine Uses.bind (.act (.store .listCommands) rfl) fun r => ?_
      split
      · exact .pure _
      · refine Uses.bind (.act (.ext (.adopt ..)) rfl) fun ok => ?_
        split
        · exact uses_adoptPod ..
        · exact .pure _

theorem uses_interrupt (sess : Row) : Uses [.teardown, .finishSession] (interrupt sess) := by
  unfold interrupt
  dsimp only
  split
  · refine Uses.bind (.act (.ext (.teardown _)) rfl) fun ok => ?_
    split
    · exact (uses_endSession ..).mono rfl
    · exact .pure _
  · exact (uses_endSession ..).mono rfl

theorem uses_reconcile : Uses startupKinds reconcile := by
  refine Uses.bind (.act (.note .reconciling) rfl) fun _ => ?_
  refine (uses_getSession.mono rfl).bind fun r => ?_
  split
  · exact .act (.note .up) rfl
  · rename_i sess
    split
    · exact .act (.note .up) rfl
    · refine Uses.bind (.act (.slot (.claim false)) rfl) fun ok => ?_
      split
      · have hadopt : Uses startupKinds
            (if sess.status = .running then adopt sess else pure false : P Bool) := by
          split
          · exact uses_adopt sess
          · exact .pure _
        refine hadopt.bind fun adopted => ?_
        split
        · exact .act (.note .up) rfl
        · exact ((uses_interrupt sess).mono rfl).bind fun _ => .jump _ rfl
      · exact .act (.note .up) rfl

/-- Room for a call that may launch, with the prompt of its launch. -/
theorem LaunchWithin.createSession {N : Op → Prop} {E : Entry → Prop} {approvalPrompt : String}
    (h : LaunchWithin N E approvalPrompt false) (templateSpec : TemplateSpec)
    (initialPrompt : String) (hcreate : N (.store (.createSession templateSpec))) :
    (createSession templateSpec approvalPrompt initialPrompt).Within N E := by
  refine Prog.Bounded.bind (.perform hcreate) fun ok => ?_
  split
  · refine Prog.Bounded.bind (h.act (.slot (.claim true)) rfl) fun _ => ?_
    refine (h.part (uses_emit _ (.stateChanged ..)) rfl).bind fun _ => ?_
    exact h.launch _ rfl rfl
  · trivial

theorem LaunchWithin.prompt {N : Op → Prop} {E : Entry → Prop} {content : String}
    (h : LaunchWithin N E (content ++ continuationClause) true) :
    (prompt content).Within N E := by
  have hsettle : (.jump (.settle .nothing) : P Unit).Within N E :=
    h.entries (.settle .nothing) (List.elem_iff.mp rfl)
  refine (h.part uses_getSession rfl).bind fun r => ?_
  split
  · trivial
  · split
    · refine Prog.Bounded.bind (h.act (.slot .lookup) rfl) fun r => ?_
      split
      · trivial
      · exact h.part (uses_promptRunning ..) rfl
    · split
      · refine Prog.Bounded.bind (h.act (.slot (.claim true)) rfl) fun ok => ?_
        split
        · refine (h.part uses_getSession rfl).bind fun r => ?_
          split
          · exact hsettle
          · split
            · exact hsettle
            · refine (h.part uses_nextTurn rfl).bind fun r => ?_
              split
              · exact hsettle
              · refine Prog.Bounded.bind (h.act (.note (.accepted _)) rfl) fun _ => ?_
                exact h.launch _ rfl rfl
        · trivial
      · trivial

/-- The kinds of the programs that launch nothing. -/
def unlaunchedKinds : List Kind :=
  stopKinds ++ settleKinds ++ consumeKinds ++ answerKinds ++ releaseKinds ++ startupKinds ++
    ([.lookup, .await, .getRun, .watchRun, .idle, .warn, .seenResolved] : List Kind)

/-- A program other than `CreateSession` and `Prompt` launches nothing. -/
theorem uses_code {e : Entry}
    (hcreate : ∀ templateSpec approvalPrompt initialPrompt,
      e ≠ .createSession templateSpec approvalPrompt initialPrompt)
    (hprompt : ∀ content, e ≠ .prompt content) : Uses unlaunchedKinds (code cfg e) := by
  cases e with
  | createSession templateSpec approvalPrompt initialPrompt => exact absurd rfl (hcreate _ _ _)
  | prompt content => exact absurd rfl (hprompt content)
  | endSession reason => exact (uses_callEndSession ..).mono rfl
  | respondPermission requestId optionId => exact (uses_respondPermission ..).mono rfl
  | expirePermission b requestId => exact (uses_expirePermission ..).mono rfl
  | supervise o cause => exact (uses_stop ..).mono rfl
  | stop o spec => exact (uses_stop ..).mono rfl
  | settle after => exact (uses_settle after).mono rfl
  | consume b => exact (uses_consume cfg b).mono rfl
  | watchRun b => exact (uses_watchRun cfg b).mono rfl
  | reportStall waited => exact (uses_emit _ (.launchStalled _)).mono rfl
  | sweepIdle => exact (uses_sweepIdle cfg).mono rfl
  | sweepSuspended => exact (uses_sweepSuspended cfg).mono rfl
  | sweepAbsolute => exact (uses_sweepAbsolute cfg).mono rfl
  | reconcile => exact uses_reconcile.mono rfl

end

end AgentOps.Service
