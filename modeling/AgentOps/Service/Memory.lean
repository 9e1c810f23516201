import AgentOps.EventLog.Pump
import AgentOps.Runner.Session
import Mathlib

/-!
# What the service keeps for a session

`harnessapi`: the row, the log and the saved commands of one session in the store, its entry
in the owner map, its bindings, and the pods that its launches started. Sessions share none
of this, so a system of many sessions is a family of such memories.

An owner, a binding and a pod carry the number of the thread that made them: a launch, a
stop and a startup adoption each make one of each at most.
-/

namespace AgentOps.Service

open AgentOps.Api AgentOps.Link

/-- `stopSpec`. -/
structure StopSpec where
  suspend : Reason := .unspecified
  ends : EndReason := .unspecified
  detail : String := ""
  /-- In nanoseconds. -/
  ifIdleFor : ℕ := 0
deriving DecidableEq, Repr

/-! ## The store -/

/-- The `template_spec` column: empty, not readable as a snapshot, or a snapshot, with the URLs
of its `RequiredMCPServers`. -/
inductive TemplateSpec
  | empty
  | unreadable
  | snapshot (name : String) (requiredMCPServers : List String := [])
deriving DecidableEq, Repr

/-- The columns of a session row that the service reads; times are Unix seconds and `0` is
the zero time. -/
structure Row where
  status : SessionState := .pending
  templateSpec : TemplateSpec := .empty
  sandboxClaimName : String := ""
  sandboxName : String := ""
  runId : String := ""
  acpSessionId : String := ""
  approverSubject : String := ""
  suspendedAt : ℕ := 0
  launchedAt : ℕ := 0
  updatedAt : ℕ := 0
  turnSeq : ℕ := 0
  streamId : Option ℕ := none
  podSeq : ℕ := 0
deriving DecidableEq, Repr

/-- `sessionstore.PodCommand`; the kind is that of the saved message. -/
structure PodCommand where
  key : String
  turnId : String
  payload : Command
deriving DecidableEq, Repr

/-- Two commands have the same `kind` and `key`. -/
def PodCommand.sameKey (c d : PodCommand) : Bool :=
  c.key = d.key && match c.payload, d.payload with
    | .prompt _, .prompt _ | .permission _, .permission _ => true
    | _, _ => false

/-- The rows of one session. -/
structure Db where
  row : Option Row := none
  log : EventLog.Rows := {}
  cmds : List PodCommand := []

/-! ## The owner map -/

/-- `owner`; a launch has a `cancel`, and its binding has the owner's number. -/
structure Owner where
  cancel : Bool := false
  live : Bool := false
  stop : Option StopSpec := none
  /-- `settled` was made and is not closed yet. -/
  settled : Bool := false
deriving DecidableEq, Repr

/-- What happened to an owner. No program reads it. -/
structure History where
  /-- Its thread took the session and has not given it up. -/
  taken : Bool := false
  /-- The stops that `detach` stored on it, and those that were taken by its launch or run. -/
  stored : List StopSpec := []
  served : List StopSpec := []
  /-- The stop that `finish` gave its thread and that has not run yet. -/
  inHand : Option StopSpec := none
  /-- The binding that `detach` gave its thread. -/
  victim : Option ℕ := none
  /-- A `settled` channel was handed out, and was closed. -/
  handed : Bool := false
  closed : Bool := false
deriving DecidableEq, Repr

/-- The entry of the session in `Service.owners`, and the owners. -/
structure Slot where
  entry : Option ℕ := none
  owners : ℕ → Owner := fun _ => {}
  hist : ℕ → History := fun _ => {}

/-- `detach`'s three results: nothing, a channel to wait on, or the held owner, with the
binding that was live. -/
inductive Detached
  | nothing
  | waits (o : ℕ)
  | held (b : Option ℕ)
deriving DecidableEq, Repr

/-! ## Bindings and pods -/

/-- `permissionWaiter`; the deadline is Unix seconds. -/
structure Waiter where
  req : PermissionRequest
  deadline : ℕ := 0
deriving DecidableEq, Repr

/-- `binding`, with the waiting requests of its `logSink`. A channel is the flag that it is
closed, a lock the thread that holds it. -/
structure Binding where
  claimName : String := ""
  pod : ℕ := 0
  ready : Bool := false
  /-- `closed`, and `done`. -/
  closed : Bool := false
  consumed : Bool := false
  turns : List String := []
  permMu : Option ℕ := none
  sendMu : Option ℕ := none
  gated : Bool := false
  syncing : Bool := false
  held : List Prompt := []
  lastActivity : ℕ := 0
  idleWarned : Bool := false
  /-- `session.Done()`. -/
  sessionDone : Bool := false
  waiters : List Waiter := []
deriving DecidableEq, Repr

namespace Binding

/-- `binding.touch`. -/
def touch (b : Binding) (now : ℕ) : Binding := { b with lastActivity := now, idleWarned := false }

/-- `binding.idleFor`. -/
def idleFor (b : Binding) (now : ℕ) : ℕ := if b.turns ≠ [] then 0 else now - b.lastActivity

/-- `binding.enter`. -/
def enter (b : Binding) (turnId : String) (now : ℕ) : Bool × Binding :=
  if b.closed then (false, b)
  else
    let b := if turnId ∈ b.turns then b else { b with turns := b.turns ++ [turnId] }
    (true, b.touch now)

/-- `binding.leave`. -/
def leave (b : Binding) (turnId : String) (now : ℕ) : Binding :=
  ({ b with turns := b.turns.erase turnId }).touch now

/-- `binding.close`; `none` if it refuses. -/
def close (b : Binding) (ifIdleFor now : ℕ) : Option Binding :=
  if b.closed then none
  else if 0 < ifIdleFor ∧ (b.turns ≠ [] ∨ now - b.lastActivity < ifIdleFor) then none
  else some { b with closed := true }

/-- `binding.release`: the binding without its held prompts, and the prompts that go to the
session, in the order of their turns. -/
def release (b : Binding) : Binding × List Prompt :=
  if b.gated || b.syncing then (b, [])
  else ({ b with held := [] }, b.held.mergeSort fun x y => x.turnSeq ≤ y.turnSeq)

end Binding

/-- A pod that a launch started: its runner, and what is under way on its link. `commands`
are the manager's commands that the runner has not seen; `opening` is the State of a stream
that is being opened, which goes before the events of that stream. -/
structure Pod where
  runner : Runner.Session := {}
  commands : List Command := []
  opening : Option AgentState := none
  delivered : ℕ := 0
  inbox : List Frame := []
deriving DecidableEq, Repr

/-- Whether the process serves: it does once the startup reconcile is done. -/
inductive Boot
  | down
  | reconciling
  | up
deriving DecidableEq, Repr

/-- What the service keeps for one session. -/
structure Mem where
  /-- Nanoseconds. -/
  now : ℕ := 0
  boot : Boot := .up
  db : Db := {}
  slot : Slot := {}
  binds : ℕ → Binding := fun _ => {}
  pods : ℕ → Pod := fun _ => {}
  /-- The entries of `Service.resolved` for the session, each with its time. -/
  resolved : List (String × ℕ) := []
  /-- The thread that inserted the row and has not claimed the session yet. No program reads
  this field or one of the following. -/
  creator : Option ℕ := none
  /-- A read of the session or the append of an event has failed, or the process has died. -/
  faulty : Bool := false
  /-- The read before an event of a session that was over has failed. -/
  late : Bool := false
  /-- The turns that were accepted. -/
  accepted : List String := []
  /-- The entry of the owner map at each return of `EndSession` with OK, since the process
  started. -/
  endOks : List (Option ℕ) := []

/-- `time.Now().Unix()`. -/
def Mem.unix (m : Mem) : ℕ := m.now / 10 ^ 9

end AgentOps.Service
