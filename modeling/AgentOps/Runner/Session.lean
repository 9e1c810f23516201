import AgentOps.Runner.Outbox

/-!
# The runner's session

`runner/session.go`: one ACP session of the agent. The goroutine of `run` goes through the
places of `Place`; prompts, decisions and the state are served by other goroutines under
the session's lock, so each of them is one step.
-/

namespace AgentOps.Runner

open AgentOps.Link

/-- Where the goroutine of `session.run` stands. -/
inductive Place
  /-- In `openSession`. -/
  | opening
  /-- In `nextTurn`. -/
  | waiting
  /-- In `runTurn`, before `agg.Begin`. -/
  | starting (p : Prompt)
  /-- In `runTurn`, in the ACP call. -/
  | turn (p : Prompt)
  /-- In `runTurn`, after `agg.End`. -/
  | returned (p : Prompt)
  /-- In `runTurn`, with `TurnFinished` emitted and `running` still set. -/
  | closing (p : Prompt)
  /-- In `finish`, before it takes the queue. -/
  | finish
  /-- In `finish`, with the turns it still has to close. -/
  | drain (queued : List Prompt)
  | done
deriving DecidableEq, Repr

/-- `session`; `emitted` is every event that was ever put in the outbox. -/
structure Session where
  out : Outbox := {}
  lastTurnSeq : ℕ := 0
  queue : List Prompt := []
  running : Option Prompt := none
  perms : List PermissionRequest := []
  finished : Bool := false
  /-- `proc.exited()`. -/
  exited : Bool := false
  place : Place := .opening
  /-- `agg.Current()`. -/
  current : String := ""
  /-- The requests that `RequestPermission` built and did not yet add to `perms`. -/
  asking : List PermissionRequest := []
  /-- The requests in `perms` whose event `RequestPermission` did not yet append. -/
  unsent : List PermissionRequest := []
  /-- The ACP connection has handled the last message of the agent. -/
  drained : Bool := false
  emitted : List AgentEvent := []
deriving DecidableEq, Repr

namespace Session

/-- `session.emit`. -/
def emit (s : Session) (turnId : String) (payload : AgentPayload) (urgent : Bool) (size : ℕ := 1) :
    Option Session :=
  (s.out.append turnId payload size urgent).map fun out =>
    { s with out, emitted := s.emitted ++ [⟨s.out.last + 1, turnId, payload, size⟩] }

/-- `session.prompt`. -/
def prompt (s : Session) (p : Prompt) : Session :=
  if s.finished then s
  else if p.turnSeq ≤ s.lastTurnSeq then s
  else { s with lastTurnSeq := p.turnSeq, queue := s.queue ++ [p] }

/-- `session.decide`: the first request with that id stops waiting. -/
def decide (s : Session) (d : PermissionDecision) : Session :=
  { s with perms := s.perms.eraseP fun r => r.requestId = d.requestId }

/-- A command of the manager arrives. -/
def command (s : Session) : Command → Session
  | .prompt p => s.prompt p
  | .permission d => s.decide d

/-- `session.state`. -/
def state (s : Session) : AgentState where
  lastTurnSeq := s.lastTurnSeq
  outstandingTurnIds := s.running.toList.map Prompt.turnId ++ s.queue.map Prompt.turnId
  pendingPermissions := s.perms

/-- A step of the runner that no frame causes. -/
inductive Label
  /-- `openSession` returns. -/
  | opened (acpSessionId : String) (resumable : Bool)
  | openFailed (reason : String) (resumeUnavailable : Bool)
  /-- The agent process exits, and `watchExit` opens the outbox. -/
  | exit
  /-- `nextTurn` takes a prompt, or finds that the process exited. -/
  | nextTurn
  | begin
  /-- The aggregator emits a message, a thought, a tool call or the usage. -/
  | update (payload : AgentPayload) (size : ℕ)
  /-- `RequestPermission` reads the current turn, adds its request, emits it, or drops it when
  its context ends. -/
  | ask (req : PermissionRequest)
  | addPermission (req : PermissionRequest)
  | emitPermission (req : PermissionRequest)
  | dropPermission (req : PermissionRequest)
  /-- The ACP call returns. -/
  | returned
  | usage (u : AgentOps.Api.Usage)
  | turnFinished (stopReason error : String)
  /-- `runTurn` clears `running`. -/
  | clear
  /-- `finish` takes the queue, closes a turn, or emits the exit. -/
  | finish
  | drain
  | exitEvent (code : ℤ)
  /-- The ACP connection ends. -/
  | drained
deriving DecidableEq, Repr

/-- The kinds of event that the aggregator emits. -/
def isUpdate : AgentPayload → Bool
  | .message .. | .thought .. | .toolCall .. | .usage .. => true
  | _ => false

/-- One step of the runner. -/
def step (s : Session) : Label → Option Session
  | .opened acpSessionId resumable =>
    match s.place with
    | .opening => ({ s with place := .waiting }).emit "" (.sessionReady acpSessionId resumable) true
    | _ => none
  | .openFailed reason resumeUnavailable =>
    match s.place with
    | .opening =>
      ({ s with place := .finish }).emit "" (.sessionFailed reason resumeUnavailable) true
    | _ => none
  | .exit => some { s with exited := true, out := s.out.release }
  | .nextTurn =>
    match s.place with
    | .waiting =>
      if s.exited then some { s with place := .finish }
      else match s.queue with
        | p :: rest => some { s with queue := rest, running := some p, place := .starting p }
        | [] => none
    | _ => none
  | .begin =>
    match s.place with
    | .starting p => some { s with place := .turn p, current := p.turnId }
    | _ => none
  | .update payload size =>
    if isUpdate payload && !s.drained then s.emit s.current payload false size else none
  | .ask req =>
    if req.turnId = s.current && !s.drained then some { s with asking := s.asking ++ [req] }
    else none
  | .addPermission req =>
    if req ∈ s.asking then some { s with
      asking := s.asking.erase req
      perms := s.perms ++ [req]
      unsent := s.unsent ++ [req] }
    else none
  | .emitPermission req =>
    if req ∈ s.unsent then
      ({ s with unsent := s.unsent.erase req }).emit req.turnId (.permissionRequest req) false
    else none
  | .dropPermission req => some { s with perms := s.perms.erase req }
  | .returned =>
    match s.place with
    | .turn p => some { s with place := .returned p, current := "" }
    | _ => none
  | .usage u =>
    match s.place with
    | .returned p => s.emit p.turnId (.usage u) false
    | _ => none
  | .turnFinished stopReason error =>
    match s.place with
    | .returned p =>
      ({ s with place := .closing p }).emit p.turnId (.turnFinished stopReason error) true
    | _ => none
  | .clear =>
    match s.place with
    | .closing _ => some { s with running := none, place := .waiting }
    | _ => none
  | .finish =>
    match s.place with
    | .finish =>
      if s.exited then some { s with queue := [], finished := true, place := .drain s.queue }
      else none
    | _ => none
  | .drain =>
    match s.place with
    | .drain (p :: rest) => ({ s with place := .drain rest }).emit p.turnId
        (.turnFinished "" "the agent exited before this turn ran") true
    | _ => none
  | .exitEvent code =>
    match s.place with
    | .drain [] => ({ s with place := .done }).emit "" (.exited code) true
    | _ => none
  | .drained => some { s with drained := true }

end Session

end AgentOps.Runner
