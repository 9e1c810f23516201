import AgentOps.Lib.Machine
import AgentOps.Service.Consume

/-!
# The AgentIO link of a pod

The runner of a pod keeps the agent's events until they are acked (`runner/runner.go`, `Run` and
`feed`). The sidecar relays them to the manager over one AgentIO stream after the other
(`harnessclient/client.go`, `agentIO` and `relayCommands`). The manager puts them in the inbox of
the run (`agentlink/agentio_server.go` and `run.go`), from which the service records and acks
them (`sandbox/session.go`, `awaitReady`, and `harnessapi/consume.go`).

A step is one locked section, one send, one receive or one call of the store. A stream may break
at any time: each side of it ends when it notices, and a frame that nobody receives any more is
lost. The sidecar may die and come back with a new runner stream, and the harness may die and
come back with what the store has. Streams of a kind are numbered in the order they were made.

One runner session and one session of the service are modelled; the control stream is left out
but for what it does to AgentIO streams.
-/

namespace AgentOps.Link.AgentIO

open AgentOps.Lib
open AgentOps.Runner (ReplayError)
open AgentOps.Service (logPayload)

/-- `inboxSize`. -/
def inboxSize : ℕ := 256

/-! ## Frames -/

/-- `RunnerClientFrame`, after the first frame of the stream. -/
inductive ClientFrame
  | replay (after : ℕ)
  | ack (consumed : ℕ)
  | command (c : Command)
deriving DecidableEq, Repr

/-- `RunnerServerFrame`, after `Started`. -/
inductive ServerFrame
  | replayStart (st : AgentState)
  | event (ev : AgentEvent)
deriving DecidableEq, Repr

/-- An `AgentIOFrame` of the manager. -/
inductive ManagerFrame
  | opened (streamId : String) (consumed : ℕ)
  | ack (consumed : ℕ)
  | command (c : Command)
deriving DecidableEq, Repr

/-- Why a party gives up. -/
inductive Failure
  /-- `reasonStreamMismatch`. -/
  | streamMismatch
  /-- `errProtocol`: the event after the delivered one is missing. -/
  | gap (seq delivered : ℕ)
  /-- The sidecar got a frame that it does not expect. -/
  | unexpected
  /-- The runner refused a replay point. -/
  | replay (e : ReplayError)
deriving DecidableEq, Repr

/-! ## Runner streams -/

/-- A goroutine of `feed`: `batch` is what `out.after` returned and was not sent. -/
structure Feed where
  cursor : ℕ
  /-- `ReplayStart` was sent. -/
  started : Bool := false
  batch : List AgentEvent := []
  cancelled : Bool := false
deriving DecidableEq, Repr

/-- Where the loop of `Run` is. -/
inductive Loop
  | serving
  /-- In `stopFeed`, with the replay point that it got. -/
  | stopping (after : ℕ)
  | ended
deriving DecidableEq, Repr

/-- A stream of `Run`, with the `AgentSession` that the sidecar has for it. -/
structure RunStream where
  toRunner : List ClientFrame := []
  toSidecar : List ServerFrame := []
  loop : Loop := .serving
  feed : Option Feed := none
  replays : ℕ := 0
  replayStarts : ℕ := 0
deriving DecidableEq, Repr

/-! ## AgentIO streams -/

/-- Where the sidecar's `agentIO` is. -/
inductive SideAt
  /-- It sent its Open and waits for the manager's. -/
  | opening
  | serving (replaying : Bool)
  | ended
deriving DecidableEq, Repr

/-- Where the manager's `AgentIO` is. -/
inductive HandlerAt
  /-- Before it compares the stream ids. -/
  | fresh
  /-- Before `claimIO`. -/
  | named
  /-- It took `ioStream`, and has the claim that stood there to close. -/
  | claimed (prev : Option ℕ)
  /-- It waits for `ioTurn`. -/
  | waiting
  /-- It has `ioTurn`, and did not look whether its claim is closed. -/
  | turn
  | held
  /-- It read the delivered number. -/
  | resuming (resume : ℕ)
  /-- In `serveIO`. -/
  | serving (pending : Option Frame)
  /-- In `serveIO`, before `setDelivered`. -/
  | delivering (seq : ℕ)
  /-- In `releaseIO`. -/
  | ending
  | dropped
  | gone
deriving DecidableEq, Repr

/-- Where `sendCommands` is. -/
inductive SenderAt
  | off
  | idle
  /-- It has a command to send, and its context was not done when it looked. -/
  | sending (id : ℕ) (c : Command)
  | committing (id : ℕ)
  | acking (consumed : ℕ)
deriving DecidableEq, Repr

/-- The goroutine of `sendCommands`. -/
structure Sender where
  place : SenderAt := .off
  sent : ℕ := 0
  lastAck : ℕ := 0
deriving DecidableEq, Repr

/-- An AgentIO stream: the sidecar's goroutines, the frames, and the manager's goroutines. -/
structure IOStream where
  /-- The runner stream of the sidecar's session. -/
  run : ℕ := 0
  side : SideAt := .ended
  /-- `relayCommands` runs, and the frame that it has to pass on. -/
  relay : Bool := false
  hand : Option ClientFrame := none
  /-- What the sidecar sent after its Open, and how many of these frames the manager received. -/
  up : List Frame := []
  received : ℕ := 0
  /-- The frames of the manager that the sidecar did not receive. -/
  down : List ManagerFrame := []
  handler : HandlerAt := .gone
  /-- `claim.closed`. -/
  closed : Bool := false
  sender : Sender := {}
  /-- The number that the manager opened it with. Nothing reads it. -/
  openedAt : Option ℕ := none
deriving DecidableEq, Repr

/-- `serveIO` runs. -/
def HandlerAt.serves : HandlerAt → Bool
  | .serving _ | .delivering _ => true
  | _ => false

/-! ## The manager -/

/-- Where the goroutine is that reads the inbox. -/
inductive ConsumerAt
  /-- In `awaitReady`. -/
  | opening
  /-- `awaitReady` failed with an event that it has to ack. -/
  | failed (seq : ℕ)
  /-- Before `UpdateSessionLink`. -/
  | linking (seq : ℕ)
  | idle
  /-- In `recordPod` or `advancePod`. -/
  | recording (ev : AgentEvent)
  | acking (seq : ℕ)
  | stopped
deriving DecidableEq, Repr

/-- `attachedRun`, with its consumer. -/
structure Run where
  streamId : String
  ioStream : Option ℕ := none
  /-- Who holds `ioTurn`. -/
  ioTurn : Option ℕ := none
  delivered : ℕ := 0
  acked : ℕ := 0
  commands : List (ℕ × Command) := []
  commandId : ℕ := 0
  inbox : List Frame := []
  finished : Bool := false
  /-- The claims that a control stream, `DropStreams` or `finish` took and did not close. -/
  closing : List ℕ := []
  consumer : ConsumerAt := .opening
  /-- The ack of `SessionReady` that the launch has to send. -/
  readyAck : Option ℕ := none
  /-- The last event that was taken from the inbox. Nothing reads it. -/
  taken : ℕ := 0
deriving DecidableEq, Repr

/-- The columns of the session that the link uses, and the pod's events that were recorded. -/
structure Store where
  streamId : String := ""
  podSeq : ℕ := 0
  /-- The status is running. -/
  running : Bool := false
  /-- The status is terminal. -/
  ended : Bool := false
  logged : List AgentEvent := []
deriving DecidableEq, Repr

/-- Whether an event of the pod becomes an event of the session's log. -/
def recorded (ev : AgentEvent) : Bool := (logPayload 0 ev.payload).isSome

namespace Store

/-- `AdvancePodSeq`. -/
def advance (d : Store) (seq : ℕ) : Store := { d with podSeq := max d.podSeq seq }

/-- `emitPod` or `AdvancePodSeq` of an event. -/
def record (d : Store) (ev : AgentEvent) : Store :=
  if recorded ev then
    if d.ended then d else { d.advance ev.seq with logged := d.logged ++ [ev] }
  else d.advance ev.seq

/-- `UpdateSessionLink`. -/
def link (d : Store) (streamId : String) (seq : ℕ) : Store :=
  { d with
    streamId
    podSeq := if d.streamId = streamId then max d.podSeq seq else seq }

/-- `UpdateSessionACP` with the status running. -/
def start (d : Store) : Store := { d with running := true, ended := false }

end Store

/-! ## The system -/

/-- A pod, its sidecar, and the harness that runs its session. -/
structure State where
  runner : Runner.Session := {}
  /-- The stream id of the runner's session. -/
  streamId : String
  runs : ℕ → RunStream := fun _ => {}
  /-- The newest runner stream: the runner has cancelled the others. -/
  client : ℕ := 0
  /-- The sidecar process lives. -/
  alive : Bool := true
  ios : ℕ → IOStream := fun _ => {}
  nextIO : ℕ := 0
  /-- `ioSlot`. -/
  slot : Option ℕ := none
  /-- `none` while the harness is down. -/
  run : Option Run
  store : Store := {}
  failures : List Failure := []
  /-- The highest number that the service acked. Nothing reads it. -/
  top : ℕ := 0

/-- The state after the agent was spawned: the row may be that of a session that had a pod
before. -/
def init (streamId old : String) (podSeq : ℕ) : State where
  streamId
  run := some { streamId }
  store := { streamId := old, podSeq }

namespace State

def setRun (s : State) (r : ℕ) (f : RunStream → RunStream) : State :=
  { s with runs := Function.update s.runs r (f (s.runs r)) }

def setStream (s : State) (j : ℕ) (f : IOStream → IOStream) : State :=
  { s with ios := Function.update s.ios j (f (s.ios j)) }

def fail (s : State) (e : Failure) : State := { s with failures := s.failures ++ [e] }

end State

/-! ### The runner -/

inductive RunnerLabel
  | agent (l : Runner.Session.Label)
  /-- The loop of `Run` takes a frame. -/
  | receive (r : ℕ)
  /-- `stopFeed` returned. -/
  | replay (r : ℕ)
  /-- `stopFeed` returned since the stream was replaced. -/
  | skip (r : ℕ)
  /-- The feed sends `ReplayStart`, calls `out.after`, or sends an event. -/
  | start (r : ℕ)
  | read (r : ℕ)
  | send (r : ℕ)
  /-- `Run` returns. -/
  | leave (r : ℕ)
deriving DecidableEq, Repr

/-- `Run` returns with an error of the replay point, which a stream that was replaced does not
report. -/
def State.refuse (s : State) (r : ℕ) (e : ReplayError) : State :=
  let s' := s.setRun r fun x => { x with loop := .ended, feed := none }
  if r = s.client then s'.fail (.replay e) else s'

def runnerStep (s : State) : RunnerLabel → Option State
  | .agent l => (s.runner.step l).map fun x => { s with runner := x }
  | .receive r =>
    match (s.runs r).loop, (s.runs r).toRunner with
    | .serving, .replay after :: rest => some (s.setRun r fun x => { x with
        toRunner := rest
        loop := .stopping after
        feed := x.feed.map fun f => { f with cancelled := true } })
    | .serving, .ack n :: rest => some { s.setRun r (fun x => { x with toRunner := rest }) with
        runner := { s.runner with out := s.runner.out.ack n } }
    | .serving, .command c :: rest => some { s.setRun r (fun x => { x with toRunner := rest }) with
        runner := s.runner.command c }
    | _, _ => none
  | .replay r =>
    match (s.runs r).loop, (s.runs r).feed with
    | .stopping after, none =>
      match s.runner.out.check after with
      | .ok () =>
        some (s.setRun r fun x => { x with loop := .serving, feed := some { cursor := after } })
      | .error e => some (s.refuse r e)
    | _, _ => none
  | .skip r =>
    match (s.runs r).loop with
    | .stopping _ =>
      if r ≠ s.client then some (s.setRun r fun x => { x with loop := .serving }) else none
    | _ => none
  | .start r =>
    match (s.runs r).feed with
    | some f =>
      if f.started then none
      else some (s.setRun r fun x => { x with
        toSidecar := x.toSidecar ++ [.replayStart s.runner.state]
        feed := some { f with started := true } })
    | none => none
  | .read r =>
    match (s.runs r).feed with
    | some f =>
      if f.started = true ∧ f.batch = [] then
        match s.runner.out.after f.cursor with
        | none => if f.cancelled then some (s.setRun r fun x => { x with feed := none }) else none
        | some (.error e) =>
          if f.cancelled then some (s.setRun r fun x => { x with feed := none })
          else some (s.refuse r e)
        | some (.ok events) =>
          some (s.setRun r fun x => { x with feed := some { f with batch := events } })
      else none
    | none => none
  | .send r =>
    match (s.runs r).feed with
    | some f =>
      match f.batch with
      | ev :: rest => some (s.setRun r fun x => { x with
          toSidecar := x.toSidecar ++ [.event ev]
          feed := some { f with batch := rest, cursor := ev.seq } })
      | [] => none
    | none => none
  | .leave r =>
    if r ≤ s.client then some (s.setRun r fun x => { x with loop := .ended, feed := none })
    else none

/-! ### The sidecar -/

inductive SidecarLabel
  /-- `agentIO` opens a stream and sends its Open. -/
  | connect
  /-- `agentIO` gets the manager's first frame. -/
  | opened (j : ℕ)
  /-- `agentIO` takes a frame of the runner. -/
  | forward (j : ℕ)
  | close (j : ℕ)
  /-- `relayCommands` receives a frame, passes it on, or ends. -/
  | relayReceive (j : ℕ)
  | relaySend (j : ℕ)
  | relayEnd (j : ℕ)
  /-- The process dies; the next one joins the agent. -/
  | die
  | join
deriving DecidableEq, Repr

def sidecarStep (s : State) : SidecarLabel → Option State
  | .connect =>
    if s.alive = true ∧ s.slot = none ∧ s.run.isSome = true then
      some { s with
        ios :=
          Function.update s.ios s.nextIO { run := s.client, side := .opening, handler := .fresh }
        nextIO := s.nextIO + 1
        slot := some s.nextIO }
    else none
  | .opened j =>
    match (s.ios j).side, (s.ios j).down with
    | .opening, .opened streamId consumed :: rest =>
      if streamId = s.streamId then
        some ((s.setStream j fun x =>
            { x with down := rest, side := .serving true, relay := true }).setRun (s.ios j).run
          fun x => { x with
            toRunner := x.toRunner ++ [.replay consumed], replays := x.replays + 1 })
      else some { (s.setStream j fun x => { x with down := rest, side := .ended }).fail
        .streamMismatch with slot := none }
    | .opening, _ :: rest =>
      some { (s.setStream j fun x => { x with down := rest, side := .ended }).fail
        .unexpected with slot := none }
    | _, _ => none
  | .forward j =>
    let r := (s.ios j).run
    match (s.ios j).side, (s.runs r).toSidecar with
    | .serving _, .replayStart st :: rest =>
      let s' := s.setRun r fun x => { x with toSidecar := rest, replayStarts := x.replayStarts + 1 }
      if (s.runs r).replayStarts + 1 < (s.runs r).replays then some s'
      else some (s'.setStream j fun x =>
        { x with side := .serving false, up := x.up ++ [.state st] })
    | .serving replaying, .event ev :: rest =>
      let s' := s.setRun r fun x => { x with toSidecar := rest }
      if replaying then some s'
      else some (s'.setStream j fun x => { x with up := x.up ++ [.event ev] })
    | _, _ => none
  | .close j =>
    if (s.ios j).side = .ended then none
    else some { s.setStream j (fun x => { x with side := .ended }) with slot := none }
  | .relayReceive j =>
    if (s.ios j).relay = true ∧ (s.ios j).hand = none then
      match (s.ios j).down with
      | .ack n :: rest =>
        some (s.setStream j fun x => { x with down := rest, hand := some (.ack n) })
      | .command c :: rest =>
        some (s.setStream j fun x => { x with down := rest, hand := some (.command c) })
      | .opened .. :: rest =>
        some ((s.setStream j fun x => { x with down := rest, relay := false }).fail .unexpected)
      | [] => none
    else none
  | .relaySend j =>
    match (s.ios j).hand with
    | some f => some ((s.setStream j fun x => { x with hand := none }).setRun (s.ios j).run fun x =>
        { x with toRunner := x.toRunner ++ [f] })
    | none => none
  | .relayEnd j => some (s.setStream j fun x => { x with relay := false, hand := none })
  | .die => some { s with
      alive := false
      slot := none
      ios := fun j => { s.ios j with side := .ended, relay := false, hand := none } }
  | .join => if s.alive then none else some { s with alive := true, client := s.client + 1 }

/-! ### The manager -/

inductive ManagerLabel
  | first (j : ℕ)
  | claim (j : ℕ)
  | closePrev (j : ℕ)
  | turn (j : ℕ)
  /-- The context ends before the turn comes. -/
  | giveUp (j : ℕ)
  | look (j : ℕ)
  | resume (j : ℕ)
  | openStream (j : ℕ)
  | receive (j : ℕ)
  | push (j : ℕ)
  | setDelivered (j : ℕ)
  /-- `serveIO` returns, or a send before it fails. -/
  | leave (j : ℕ)
  | drop (j : ℕ)
  | release (j : ℕ)
  /-- A control stream or `DropStreams` takes the stream's claim, and closes it. -/
  | takeClaim (clear : Bool)
  | closeClaim (j : ℕ)
  /-- The steps of `sendCommands`. -/
  | takeCommand (j : ℕ)
  | sendCommand (j : ℕ)
  | commit (j : ℕ)
  | takeAck (j : ℕ)
  | sendAck (j : ℕ)
  | stopSender (j : ℕ)
deriving DecidableEq, Repr

namespace State

variable (s : State) (m : Run)

def setHandler (j : ℕ) (h : HandlerAt) : State := s.setStream j fun x => { x with handler := h }

def closeIO (j : Option ℕ) : State := match j with
  | some j => s.setStream j fun x => { x with closed := true }
  | none => s

def setSender (j : ℕ) (p : SenderAt) : State :=
  s.setStream j fun x => { x with sender := { x.sender with place := p } }

/-- `dropIO`. -/
def dropIO (j : ℕ) (h : HandlerAt) : State :=
  { s.setStream j fun x => { x with closed := true, handler := h } with
    run := some { m with ioStream := if m.ioStream = some j then none else m.ioStream } }

end State

/-- `serveIO` gets a frame. -/
def receiveFrame (s : State) (m : Run) (j : ℕ) (f : Frame) : State :=
  let s' := s.setStream j fun x => { x with received := x.received + 1 }
  match f with
  | .state _ => s'.setHandler j (.serving (some f))
  | .event ev =>
    if ev.seq ≤ m.delivered then s'
    else if ev.seq ≠ m.delivered + 1 then
      (s'.setHandler j .ending).fail (.gap ev.seq m.delivered)
    else s'.setHandler j (.serving (some f))

/-- Where `serveIO` is after it put a frame in the inbox. -/
def pushed : Frame → HandlerAt
  | .state _ => .serving none
  | .event ev => .delivering ev.seq

/-- `attachedRun.nextCommand`. -/
def Run.nextCommand (m : Run) (after : ℕ) : Option (ℕ × Command) :=
  m.commands.find? fun c => after < c.1

def managerStep (s : State) (m : Run) : ManagerLabel → Option State
  | .first j =>
    match (s.ios j).handler with
    | .fresh =>
      if s.streamId = m.streamId then some (s.setHandler j .named)
      else some ((s.setHandler j .gone).fail .streamMismatch)
    | _ => none
  | .claim j =>
    match (s.ios j).handler with
    | .named =>
      if m.finished then some (s.setHandler j .gone)
      else some { s.setHandler j (.claimed m.ioStream) with
        run := some { m with ioStream := some j } }
    | _ => none
  | .closePrev j =>
    match (s.ios j).handler with
    | .claimed prev => some ((s.closeIO prev).setHandler j .waiting)
    | _ => none
  | .turn j =>
    if (s.ios j).handler = .waiting ∧ m.ioTurn = none then
      some { s.setHandler j .turn with run := some { m with ioTurn := some j } }
    else none
  | .giveUp j =>
    match (s.ios j).handler with
    | .waiting => some (s.dropIO m j .gone)
    | _ => none
  | .look j =>
    match (s.ios j).handler with
    | .turn => some (s.setHandler j (if (s.ios j).closed then .ending else .held))
    | _ => none
  | .resume j =>
    match (s.ios j).handler with
    | .held => some (s.setHandler j (.resuming m.delivered))
    | _ => none
  | .openStream j =>
    match (s.ios j).handler with
    | .resuming n => some (s.setStream j fun x => { x with
        down := x.down ++ [.opened m.streamId n]
        openedAt := some n
        handler := .serving none
        sender := { place := .idle } })
    | _ => none
  | .receive j =>
    match (s.ios j).handler with
    | .serving none => (s.ios j).up[(s.ios j).received]?.map (receiveFrame s m j)
    | _ => none
  | .push j =>
    match (s.ios j).handler with
    | .serving (some f) =>
      if m.inbox.length < inboxSize then
        some { s.setHandler j (pushed f) with run := some { m with inbox := m.inbox ++ [f] } }
      else none
    | _ => none
  | .setDelivered j =>
    match (s.ios j).handler with
    | .delivering seq => some { s.setHandler j (.serving none) with
        run := some { m with delivered := max m.delivered seq } }
    | _ => none
  | .leave j =>
    match (s.ios j).handler with
    | .held | .resuming _ | .serving _ => some (s.setHandler j .ending)
    | _ => none
  | .drop j =>
    match (s.ios j).handler with
    | .ending => some (s.dropIO m j .dropped)
    | _ => none
  | .release j =>
    match (s.ios j).handler with
    | .dropped => some { s.setHandler j .gone with run := some { m with ioTurn := none } }
    | _ => none
  | .takeClaim clear => some { s with run := some { m with
      ioStream := if clear then none else m.ioStream
      closing := m.closing ++ m.ioStream.toList } }
  | .closeClaim j =>
    if j ∈ m.closing then
      some { s.closeIO (some j) with run := some { m with closing := m.closing.erase j } }
    else none
  | .takeCommand j =>
    let d := (s.ios j).sender
    if d.place = .idle ∧ (s.ios j).handler.serves = true then
      (m.nextCommand d.sent).map fun c => s.setSender j (.sending c.1 c.2)
    else none
  | .sendCommand j =>
    match (s.ios j).sender.place with
    | .sending id c =>
      if (s.ios j).handler = .gone then none
      else some ((s.setStream j fun x => { x with down := x.down ++ [.command c] }).setSender j
        (.committing id))
    | _ => none
  | .commit j =>
    match (s.ios j).sender.place with
    | .committing id => some { s.setStream j fun x => { x with
          sender := { x.sender with place := .idle, sent := id } } with
        run := some { m with commands := m.commands.filter fun c => c.1 ≠ id } }
    | _ => none
  | .takeAck j =>
    let d := (s.ios j).sender
    if d.place = .idle ∧ (s.ios j).handler.serves = true ∧ m.nextCommand d.sent = none ∧
        d.lastAck < m.acked then
      some (s.setSender j (.acking m.acked))
    else none
  | .sendAck j =>
    match (s.ios j).sender.place with
    | .acking n =>
      if (s.ios j).handler = .gone then none
      else some (s.setStream j fun x => { x with
        down := x.down ++ [.ack n]
        sender := { x.sender with place := .idle, lastAck := n } })
    | _ => none
  | .stopSender j => some (s.setSender j .off)

/-! ### The service -/

inductive ServiceLabel
  /-- `RunHandle.Send`. -/
  | queue (c : Command)
  /-- A frame is taken from the inbox. -/
  | receive
  /-- The store call for an event succeeds. -/
  | record
  | ack
  /-- The writes of a launch; the first that fails ends them. -/
  | link (linked started : Bool)
  | ackReady
  /-- The consumer gives up. -/
  | stop
  | forget
  /-- The session stops running. -/
  | leave (terminal : Bool)
deriving DecidableEq, Repr

/-- `RunHandle.Ack`. -/
def Run.ack (m : Run) (seq : ℕ) : Run := { m with acked := max m.acked seq }

/-- What `awaitReady` does with the first event. -/
def awaitReady (ev : AgentEvent) : ConsumerAt :=
  match ev.payload with
  | .sessionReady .. => .linking ev.seq
  | .sessionFailed .. => .failed ev.seq
  | _ => .stopped

def serviceStep (s : State) (m : Run) : ServiceLabel → Option State
  | .queue c => some { s with run := some { m with
      commandId := m.commandId + 1, commands := m.commands ++ [(m.commandId + 1, c)] } }
  | .receive =>
    match m.consumer, m.inbox with
    | .opening, .state _ :: rest | .idle, .state _ :: rest =>
      some { s with run := some { m with inbox := rest } }
    | .opening, .event ev :: rest =>
      some { s with run := some { m with
        inbox := rest, consumer := awaitReady ev, taken := ev.seq } }
    | .idle, .event ev :: rest =>
      some { s with run := some { m with
        inbox := rest, consumer := .recording ev, taken := ev.seq } }
    | _, _ => none
  | .record =>
    match m.consumer with
    | .recording ev => some { s with
        store := s.store.record ev, run := some { m with consumer := .acking ev.seq } }
    | _ => none
  | .ack =>
    match m.consumer with
    | .acking seq => some { s with
        run := some { m.ack seq with consumer := .idle }, top := max s.top seq }
    | .failed seq => some { s with
        run := some { m.ack seq with consumer := .stopped }, top := max s.top seq }
    | _ => none
  | .link linked started =>
    match m.consumer, linked, started with
    | .linking _, false, _ => some { s with run := some { m with consumer := .idle } }
    | .linking seq, true, false => some { s with
        store := s.store.link m.streamId seq
        run := some { m with consumer := .idle } }
    | .linking seq, true, true => some { s with
        store := (s.store.link m.streamId seq).start
        run := some { m with consumer := .idle, readyAck := some seq } }
    | _, _, _ => none
  | .ackReady => m.readyAck.map fun seq => { s with
      run := some { m.ack seq with readyAck := none }, top := max s.top seq }
  | .stop => some { s with run := some { m with consumer := .stopped } }
  | .forget => some { s with run := some { m with
      finished := true, ioStream := none, closing := m.closing ++ m.ioStream.toList } }
  | .leave terminal =>
    some { s with store := { s.store with running := false, ended := s.store.ended || terminal } }

/-! ### Steps -/

inductive Label
  | runner (l : RunnerLabel)
  | sidecar (l : SidecarLabel)
  | manager (l : ManagerLabel)
  | service (l : ServiceLabel)
  /-- The harness dies. -/
  | crash
  /-- The harness takes a running session up again. -/
  | adopt
deriving DecidableEq, Repr

/-- The goroutines of the manager die with it. -/
def IOStream.orphan (x : IOStream) : IOStream := { x with handler := .gone, sender := {} }

def step (s : State) : Label → Option State
  | .runner l => runnerStep s l
  | .sidecar l => sidecarStep s l
  | .manager l => s.run.bind fun m => managerStep s m l
  | .service l => s.run.bind fun m => serviceStep s m l
  | .crash => some { s with run := none, ios := fun j => (s.ios j).orphan }
  | .adopt =>
    if s.run = none ∧ s.store.running = true then
      some { s with
        run := some {
          streamId := s.store.streamId
          delivered := s.store.podSeq
          acked := s.store.podSeq
          consumer := .idle
          taken := s.store.podSeq }
        top := max s.top s.store.podSeq }
    else none

end AgentOps.Link.AgentIO
