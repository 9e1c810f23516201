import AgentOps.Lib.Machine
import Mathlib.Data.List.Basic

/-!
# The agent of a pod

A pod has a runner, which starts the agent (`open` of `harness/internal/runner/runner.go`), and
a sidecar, whose client spawns the agent or joins one that runs, and stops it
(`joinRunningAgent`, `startSpawn`, `runSpawn`, `adopt` and `stopAgent` of
`harness/internal/sidecar/harnessclient/client.go`).

The client has the goroutine of `Run`, one goroutine for each spawn it started, and whoever
calls `Close`. A step is one locked section, one reply of the runner or one `stop`. A reply may
come at any time and be an error, also after the spawn was cancelled.
-/

namespace AgentOps.Sidecar

open AgentOps.Lib

/-! ## The runner -/

/-- The first frame of a runner stream. -/
inductive First
  | spawn (streamId : String)
  | join
  | other
deriving DecidableEq, Repr

/-- The codes with which `open` refuses a stream. -/
inductive Refusal
  | alreadyExists
  | unavailable
  | internal
  | notFound
  | invalidArgument
deriving DecidableEq, Repr

/-- `Service` of the runner, with the number of processes that it has started. A session is
given by its stream id. -/
structure Runner where
  sess : Option String := none
  closed : Bool := false
  started : ℕ := 0
deriving DecidableEq, Repr

/-- `open`; `starts` tells whether the process starts, if one has to. -/
def Runner.open_ (r : Runner) (first : First) (starts : Bool) : Runner × Except Refusal String :=
  match first with
  | .spawn streamId =>
    match r.sess with
    | some running => (r, if running ≠ streamId then .error .alreadyExists else .ok running)
    | none =>
      if r.closed then (r, .error .unavailable)
      else if starts then
        ({ r with sess := some streamId, started := r.started + 1 }, .ok streamId)
      else (r, .error .internal)
  | .join =>
    match r.sess with
    | some running => (r, .ok running)
    | none => (r, .error .notFound)
  | .other => (r, .error .invalidArgument)

/-- `Close`. -/
def Runner.close (r : Runner) : Runner := { r with closed := true }

/-! ## The client -/

/-- An `AgentSession` that the client obtained; a session is named by its place in the list of
all of them. -/
structure Session where
  stopSent : Bool := false
  closed : Bool := false
deriving DecidableEq, Repr

/-- Where the goroutine of `Run` is. -/
inductive RunAt
  /-- Before `joinRunningAgent` looks at `joined`. -/
  | join
  /-- In `Runner.Join`. -/
  | joining
  /-- Before the session from a join is adopted. -/
  | got (k : ℕ)
  /-- Before the session from a join is closed, since the client is stopped. -/
  | refused (k : ℕ)
  /-- Before `joinRunningAgent` sets `joined`. -/
  | mark
  /-- In `session`, where the manager's directives arrive. -/
  | attached
  | done
deriving DecidableEq, Repr

/-- Where a goroutine of `runSpawn` is. -/
inductive SpawnAt
  /-- In `Runner.Spawn`. -/
  | calling
  /-- Before the session is adopted. -/
  | got (k : ℕ)
  /-- Before the session is stopped, since the client is. -/
  | refused (k : ℕ)
  | finished
deriving DecidableEq, Repr

/-- `Run` has found that the client has not joined and has not set `joined` yet. -/
def RunAt.early : RunAt → Bool
  | .joining | .got _ | .refused _ | .mark => true
  | _ => false

/-- The goroutine has obtained session `k` and neither adopted nor stopped it. -/
def SpawnAt.has (k : ℕ) : SpawnAt → Bool
  | .got j | .refused j => j == k
  | _ => false

/-- `Client`, with its goroutines, the sessions it has obtained and those that a `stopAgent` has
taken and not stopped yet. -/
structure Client where
  run : RunAt := .join
  joined : Bool := false
  agent : Option ℕ := none
  spawn : Option ℕ := none
  stopped : Bool := false
  spawns : List SpawnAt := []
  sessions : List Session := []
  stopping : List ℕ := []
deriving DecidableEq, Repr

/-- The answer to `Runner.Join`. -/
inductive JoinReply
  | session
  | noAgent
  | error
deriving DecidableEq, Repr

/-- A step of one of the client's goroutines, or of a caller of `Close`. -/
inductive Label
  | look
  | joinReply (r : JoinReply)
  | adoptJoined
  | closeRefused
  | mark
  | spawnDirective
  | shutdown
  | reattach
  | ends
  | spawnReply (i : ℕ) (ok : Bool)
  | adoptSpawned (i : ℕ)
  | stopRefused (i : ℕ)
  | close
  | sendStop (k : ℕ)
deriving DecidableEq, Repr

namespace Client

/-- A session arrives; it gets the next name. -/
def obtain_ (c : Client) : Client := { c with sessions := c.sessions ++ [{}] }

/-- `stop`: the Stop is sent and the session closed. -/
def stop (c : Client) (k : ℕ) : Client :=
  { c with sessions := c.sessions.modify k fun _ => { stopSent := true, closed := true } }

/-- `adopt`, when the client is not stopped. -/
def adopt (c : Client) (k : ℕ) : Client := { c with agent := some k, spawn := none }

/-- `startSpawn`. -/
def startSpawn (c : Client) : Client :=
  if c.agent.isSome ∨ c.stopped = true then c
  else if c.spawn.isNone then
    { c with spawn := some c.spawns.length, spawns := c.spawns ++ [.calling] }
  else c

/-- The locked part of `stopAgent`. -/
def stopAgent (c : Client) : Client :=
  { c with agent := none, stopped := true, stopping := c.stopping ++ c.agent.toList }

def step (c : Client) : Label → Option Client
  | .look =>
    match c.run with
    | .join => some { c with run := if c.joined then .attached else .joining }
    | _ => none
  | .joinReply r =>
    match c.run with
    | .joining =>
      match r with
      | .session => some { c.obtain_ with run := .got c.sessions.length }
      | .noAgent => some { c with run := .mark }
      | .error => some { c with run := .join }
    | _ => none
  | .adoptJoined =>
    match c.run with
    | .got k =>
      if c.stopped then some { c with run := .refused k } else some { c.adopt k with run := .mark }
    | _ => none
  | .closeRefused =>
    match c.run with
    | .refused k =>
      -- joinRunningAgent closes the session and sends no Stop
      some { c with
        run := .mark
        sessions := c.sessions.modify k fun s => { s with closed := true } }
    | _ => none
  | .mark =>
    match c.run with
    | .mark => some { c with joined := true, run := .attached }
    | _ => none
  | .spawnDirective =>
    match c.run with
    | .attached => some c.startSpawn
    | _ => none
  | .shutdown =>
    match c.run with
    | .attached => some { c.stopAgent with run := .done }
    | _ => none
  | .reattach =>
    match c.run with
    | .attached => some { c with run := .join }
    | _ => none
  | .ends =>
    match c.run with
    | .join | .attached => some { c with run := .done }
    | _ => none
  | .spawnReply i ok =>
    match c.spawns[i]? with
    | some .calling =>
      if ok then some { c.obtain_ with spawns := c.spawns.set i (.got c.sessions.length) }
      else some { c with spawns := c.spawns.set i .finished }
    | _ => none
  | .adoptSpawned i =>
    match c.spawns[i]? with
    | some (.got k) =>
      if c.stopped then some { c with spawns := c.spawns.set i (.refused k) }
      else some { c.adopt k with spawns := c.spawns.set i .finished }
    | _ => none
  | .stopRefused i =>
    match c.spawns[i]? with
    | some (.refused k) => some { c.stop k with spawns := c.spawns.set i .finished }
    | _ => none
  | .close => some c.stopAgent
  | .sendStop k =>
    if k ∈ c.stopping then some { c.stop k with stopping := c.stopping.erase k } else none

end Client

/-! ## The pod -/

structure Pod where
  runner : Runner := {}
  client : Client := {}
deriving DecidableEq, Repr

/-- A stream that reaches the runner, from this sidecar or from another, the runner's `Close`,
or a step of the client. -/
inductive PodLabel
  | open_ (first : First) (starts : Bool)
  | closeRunner
  | client (l : Label)
deriving DecidableEq, Repr

/-- A session comes only from a runner that has one. -/
def Label.obtains : Label → Bool
  | .joinReply .session | .spawnReply _ true => true
  | _ => false

def Pod.step (p : Pod) : PodLabel → Option Pod
  | .open_ first starts => some { p with runner := (p.runner.open_ first starts).1 }
  | .closeRunner => some { p with runner := p.runner.close }
  | .client l =>
    if l.obtains && p.runner.sess.isNone then none
    else (p.client.step l).map fun client => { p with client }

/-! ## One process -/

/-- The runner has started the process of its session and no other. -/
def Runner.One (r : Runner) : Prop := r.started = if r.sess.isSome then 1 else 0

theorem Runner.One.open_ {r : Runner} (h : r.One) (first : First) (starts : Bool) :
    (r.open_ first starts).1.One := by
  unfold Runner.open_
  cases first with
  | other => exact h
  | join =>
    dsimp only
    split <;> exact h
  | spawn streamId =>
    dsimp only
    split
    · exact h
    · rename_i hnone
      have hzero : r.started = 0 := by rw [h, hnone]; rfl
      split
      · exact h
      · split
        · show r.started + 1 = 1
          omega
        · exact h

theorem Runner.One.started_le {r : Runner} (h : r.One) : r.started ≤ 1 := by
  rw [h]
  split <;> omega

/-! ## What a step of the client does -/

namespace Client

/-- The steps of the client, each with what it finds. -/
inductive Move (c : Client) : Label → Client → Prop
  | look (hrun : c.run = .join) :
    Move c .look { c with run := if c.joined then .attached else .joining }
  | joinSession (hrun : c.run = .joining) :
    Move c (.joinReply .session) { c.obtain_ with run := .got c.sessions.length }
  | joinNoAgent (hrun : c.run = .joining) :
    Move c (.joinReply .noAgent) { c with run := .mark }
  | joinError (hrun : c.run = .joining) :
    Move c (.joinReply .error) { c with run := .join }
  | adoptJoined {k : ℕ} (hrun : c.run = .got k) (hs : c.stopped = false) :
    Move c .adoptJoined { c.adopt k with run := .mark }
  | refuseJoined {k : ℕ} (hrun : c.run = .got k) (hs : c.stopped = true) :
    Move c .adoptJoined { c with run := .refused k }
  | closeRefused {k : ℕ} (hrun : c.run = .refused k) :
    Move c .closeRefused { c with
      run := .mark
      sessions := c.sessions.modify k fun s => { s with closed := true } }
  | mark (hrun : c.run = .mark) : Move c .mark { c with joined := true, run := .attached }
  | spawnNothing (hrun : c.run = .attached) : Move c .spawnDirective c
  | spawnStart (hrun : c.run = .attached) (ha : c.agent = none) (hp : c.spawn = none)
      (hs : c.stopped = false) :
    Move c .spawnDirective
      { c with spawn := some c.spawns.length, spawns := c.spawns ++ [.calling] }
  | shutdown (hrun : c.run = .attached) : Move c .shutdown { c.stopAgent with run := .done }
  | reattach (hrun : c.run = .attached) : Move c .reattach { c with run := .join }
  | ends (hrun : c.run = .join ∨ c.run = .attached) : Move c .ends { c with run := .done }
  | spawnOk {i : ℕ} (hw : c.spawns[i]? = some .calling) :
    Move c (.spawnReply i true) { c.obtain_ with spawns := c.spawns.set i (.got c.sessions.length) }
  | spawnFail {i : ℕ} (hw : c.spawns[i]? = some .calling) :
    Move c (.spawnReply i false) { c with spawns := c.spawns.set i .finished }
  | adoptSpawned {i k : ℕ} (hw : c.spawns[i]? = some (.got k)) (hs : c.stopped = false) :
    Move c (.adoptSpawned i) { c.adopt k with spawns := c.spawns.set i .finished }
  | refuseSpawned {i k : ℕ} (hw : c.spawns[i]? = some (.got k)) (hs : c.stopped = true) :
    Move c (.adoptSpawned i) { c with spawns := c.spawns.set i (.refused k) }
  | stopRefused {i k : ℕ} (hw : c.spawns[i]? = some (.refused k)) :
    Move c (.stopRefused i) { c.stop k with spawns := c.spawns.set i .finished }
  | close : Move c .close c.stopAgent
  | sendStop {k : ℕ} (hk : k ∈ c.stopping) :
    Move c (.sendStop k) { c.stop k with stopping := c.stopping.erase k }

theorem move_startSpawn {c : Client} (hrun : c.run = .attached) :
    Move c .spawnDirective c.startSpawn := by
  unfold startSpawn
  split
  · exact .spawnNothing hrun
  · rename_i hfree
    rw [not_or] at hfree
    split
    · rename_i hp
      exact .spawnStart hrun (by simpa using hfree.1) (by simpa using hp) (by simpa using hfree.2)
    · exact .spawnNothing hrun

theorem move_of_step {c d : Client} {l : Label} (h : c.step l = some d) : Move c l d := by
  cases l with
  | look =>
    simp only [step] at h
    split at h <;> simp only [Option.some.injEq, reduceCtorEq] at h
    rename_i hrun
    exact h ▸ .look hrun
  | joinReply r =>
    simp only [step] at h
    split at h <;> try contradiction
    rename_i hrun
    cases r <;> simp only [Option.some.injEq] at h <;> subst h
    · exact .joinSession hrun
    · exact .joinNoAgent hrun
    · exact .joinError hrun
  | adoptJoined =>
    simp only [step] at h
    split at h <;> try contradiction
    rename_i k hrun
    split at h <;> simp only [Option.some.injEq] at h <;> subst h
    · exact .refuseJoined hrun ‹_›
    · exact .adoptJoined hrun (eq_false_of_ne_true ‹_›)
  | closeRefused =>
    simp only [step] at h
    split at h <;> simp only [Option.some.injEq, reduceCtorEq] at h
    rename_i hrun
    exact h ▸ .closeRefused hrun
  | mark =>
    simp only [step] at h
    split at h <;> simp only [Option.some.injEq, reduceCtorEq] at h
    rename_i hrun
    exact h ▸ .mark hrun
  | spawnDirective =>
    simp only [step] at h
    split at h <;> simp only [Option.some.injEq, reduceCtorEq] at h
    rename_i hrun
    exact h ▸ move_startSpawn hrun
  | shutdown =>
    simp only [step] at h
    split at h <;> simp only [Option.some.injEq, reduceCtorEq] at h
    rename_i hrun
    exact h ▸ .shutdown hrun
  | reattach =>
    simp only [step] at h
    split at h <;> simp only [Option.some.injEq, reduceCtorEq] at h
    rename_i hrun
    exact h ▸ .reattach hrun
  | ends =>
    simp only [step] at h
    split at h <;> simp only [Option.some.injEq, reduceCtorEq] at h <;> rename_i hrun
    · exact h ▸ .ends (.inl hrun)
    · exact h ▸ .ends (.inr hrun)
  | spawnReply i ok =>
    simp only [step] at h
    split at h <;> try contradiction
    rename_i hw
    cases ok <;> simp only [Bool.false_eq_true, if_true, if_false, Option.some.injEq] at h <;>
      subst h
    · exact .spawnFail hw
    · exact .spawnOk hw
  | adoptSpawned i =>
    simp only [step] at h
    split at h <;> try contradiction
    rename_i k hw
    split at h <;> simp only [Option.some.injEq] at h <;> subst h
    · exact .refuseSpawned hw ‹_›
    · exact .adoptSpawned hw (eq_false_of_ne_true ‹_›)
  | stopRefused i =>
    simp only [step] at h
    split at h <;> simp only [Option.some.injEq, reduceCtorEq] at h
    rename_i hw
    exact h ▸ .stopRefused hw
  | close =>
    simp only [step, Option.some.injEq] at h
    exact h ▸ .close
  | sendStop k =>
    simp only [step] at h
    split at h <;> simp only [Option.some.injEq, reduceCtorEq] at h
    rename_i hk
    exact h ▸ .sendStop hk

end Client

end AgentOps.Sidecar
