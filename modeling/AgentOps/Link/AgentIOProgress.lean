import AgentOps.Link.AgentIOTheorems

/-!
# The AgentIO link catches up

From every state that a running session can be in, the link can be made again, and what the
service did not record then comes over it. The run is given step by step: the harness and the
sidecar start anew, a stream is opened on a new runner stream, and the events of the outbox go
one by one through the sidecar, the manager and the inbox to the store. The agent takes no step.
-/

namespace AgentOps.Link.AgentIO

open AgentOps.Lib AgentOps.Runner

variable {top k : ℕ} {d : Store}

/-- What a link is made of: a runner stream, an AgentIO stream, and what the harness has. -/
structure Scene where
  stream : RunStream
  io : IOStream
  run : Run
  store : Store
  top : ℕ

/-- The link is over the newest runner stream and stream `j`. -/
def Scene.on (c : Scene) (s : State) (j : ℕ) : State :=
  { s with
    runs := Function.update s.runs s.client c.stream
    ios := Function.update s.ios j c.io
    run := some c.run
    store := c.store
    top := c.top }

section Link

variable {s : State} {j n : ℕ}

/-- What the harness has when stream `j` has the turn and everything up to `n` was delivered. -/
def served (s : State) (j n : ℕ) : Run where
  streamId := s.streamId
  ioStream := some j
  ioTurn := some j
  delivered := n
  acked := n
  consumer := .idle
  taken := n

/-- The link before its first frame. -/
def fresh (s : State) (n top : ℕ) (d : Store) : Scene where
  stream := {}
  io := { run := s.client, side := .opening, handler := .fresh }
  run := { streamId := s.streamId, delivered := n, acked := n, consumer := .idle, taken := n }
  store := d
  top

/-- The link when everything up to `n` was recorded and the feed has `batch` to send. -/
def level (s : State) (j k n top : ℕ) (batch : List AgentEvent) (up : List Frame) (d : Store) :
    Scene where
  stream := {
    feed := some { cursor := n, started := true, batch }
    replays := 1
    replayStarts := 1 }
  io := {
    run := s.client
    side := .serving false
    relay := true
    up
    received := up.length
    handler := .serving none
    sender := { place := .idle }
    openedAt := some k }
  run := served s j n
  store := d
  top

/-- The link when the manager has opened its stream. -/
def opened (s : State) (j n top : ℕ) (d : Store) : Scene where
  stream := {}
  io := {
    run := s.client
    side := .opening
    down := [.opened s.streamId n]
    handler := .serving none
    sender := { place := .idle }
    openedAt := some n }
  run := served s j n
  store := d
  top

theorem exec_greet :
    exec step ((fresh s n top d).on s j) [
      .manager (.first j), .manager (.claim j), .manager (.closePrev j), .manager (.turn j),
      .manager (.look j), .manager (.resume j), .manager (.openStream j)] =
      some ((opened s j n top d).on s j) := by
  simp only [exec, step, Scene.on, fresh, opened, served, managerStep, State.setHandler,
    State.setStream, State.closeIO, Function.update_self, Function.update_idem,
    Option.bind_some, if_true, Bool.false_eq_true, if_false, and_self, List.nil_append]

/-- The sidecar asks for a replay, which starts. -/
theorem exec_ask (hcheck : s.runner.out.check n = .ok ()) :
    exec step ((opened s j n top d).on s j) [
      .sidecar (.opened j), .runner (.receive s.client), .runner (.replay s.client),
      .runner (.start s.client), .sidecar (.forward j), .manager (.receive j), .manager (.push j),
      .service .receive] =
      some ((level s j n n top [] [.state s.runner.state] d).on s j) := by
  have hfirst : ([.state s.runner.state] : List Frame)[0]? = some (.state s.runner.state) := rfl
  simp only [exec, step, Scene.on, opened, level, served, managerStep, sidecarStep, runnerStep,
    serviceStep, receiveFrame, pushed, hcheck, hfirst, State.setStream, State.setRun,
    State.setHandler, inboxSize, Function.update_self, Function.update_idem, Option.bind_some,
    Option.map_some, Option.map_none, if_true, Bool.false_eq_true, if_false, List.nil_append,
    Nat.zero_add, Nat.lt_irrefl, List.length_nil, List.length_cons, Nat.ofNat_pos]

/-- The feed reads the outbox. -/
theorem exec_read {up : List Frame} {events : List AgentEvent}
    (hafter : s.runner.out.after n = some (.ok events)) :
    exec step ((level s j k n top [] up d).on s j) [.runner (.read s.client)] =
      some ((level s j k n top events up d).on s j) := by
  simp only [exec, step, Scene.on, level, served, runnerStep, hafter, State.setRun,
    Function.update_self, Function.update_idem, Option.bind_some, and_self, if_true]

/-- An event goes through the link. -/
theorem exec_event {up : List Frame} {ev : AgentEvent} {rest : List AgentEvent}
    (hseq : ev.seq = n + 1) :
    exec step ((level s j k n top (ev :: rest) up d).on s j) [
      .runner (.send s.client), .sidecar (.forward j), .manager (.receive j), .manager (.push j),
      .manager (.setDelivered j), .service .receive, .service .record, .service .ack] =
      some ((level s j k (n + 1) (max top (n + 1)) rest (up ++ [.event ev]) (d.record ev)).on
        s j) := by
  have hnext : (up ++ [Frame.event ev])[up.length]? = some (.event ev) :=
    List.getElem?_concat_length
  have hnew : ¬ n + 1 ≤ n := by omega
  have hmax : max n (n + 1) = n + 1 := by omega
  simp only [exec, step, Scene.on, level, served, managerStep, sidecarStep, runnerStep, serviceStep,
    receiveFrame, pushed, hseq, hnext, hnew, hmax, Run.ack, State.setStream, State.setRun,
    State.setHandler, inboxSize, Function.update_self, Function.update_idem, Option.bind_some,
    Option.map_some, if_true, Bool.false_eq_true, if_false, ne_eq, not_true_eq_false,
    List.nil_append, List.length_nil, List.length_append, List.length_cons, Nat.zero_add,
    Nat.ofNat_pos]

/-- All that the feed has read goes through the link. -/
theorem deliver (batch : List AgentEvent) (top : ℕ) (up : List Frame) (d : Store)
    (hseq : ∀ i ev, batch[i]? = some ev → ev.seq = n + i + 1) :
    ∃ top' up', Reach step (fun _ _ => True) ((level s j k n top batch up d).on s j)
      ((level s j k (n + batch.length) top' [] up' (batch.foldl Store.record d)).on s j) := by
  induction batch generalizing n top up d with
  | nil => exact ⟨top, up, .refl⟩
  | cons ev rest ih =>
    obtain ⟨top', up', hrest⟩ := ih (n := n + 1) (max top (n + 1)) (up ++ [.event ev]) (d.record ev)
      fun i ev' hi => by rw [hseq (i + 1) ev' hi]; omega
    refine ⟨top', up', (Reach.of_exec (exec_event (hseq 0 ev rfl))).trans ?_⟩
    rw [Nat.add_assoc, Nat.add_comm 1] at hrest
    exact hrest

/-- The harness and the sidecar have started anew, and the sidecar has opened a stream. -/
def restarted (s : State) : State :=
  { s with
    alive := true
    client := s.client + 1
    nextIO := s.nextIO + 1
    slot := some s.nextIO
    ios := fun j => { (s.ios j).orphan with side := .ended, relay := false, hand := none } }

theorem exec_restart (hid : s.store.streamId = s.streamId) (hnew : s.runs (s.client + 1) = {})
    (hrun : s.store.running = true) :
    exec step s [.crash, .sidecar .die, .sidecar .join, .adopt, .sidecar .connect] =
      some ((fresh (restarted s) s.store.podSeq (max s.top s.store.podSeq) s.store).on (restarted s)
        s.nextIO) := by
  have hsame : Function.update s.runs (s.client + 1) {} = s.runs := by
    rw [← hnew, Function.update_eq_self]
  simp only [exec, step, sidecarStep, Scene.on, fresh, restarted, hid, hrun, hsame, IOStream.orphan,
    Option.bind_some, Option.isSome_some, and_self, if_true, Bool.false_eq_true, if_false]

end Link

theorem Store.foldl_record_running (events : List AgentEvent) (d : Store) :
    (events.foldl Store.record d).running = d.running := by
  induction events generalizing d with
  | nil => rfl
  | cons ev rest ih => rw [List.foldl_cons, ih, Store.record_running]

/-- From every state of a running session there is a run, in which the agent takes no step, that
brings all that the agent has emitted to the log of the session: the harness and the sidecar are
started again, and the new stream is replayed. -/
theorem link_catches_up {streamId old : String} {podSeq : ℕ} {s : State} (hne : old ≠ streamId)
    (h : Reach step (fun _ _ => True) (init streamId old podSeq) s)
    (hrun : s.store.running = true) :
    ∃ t, Reach step (fun _ _ => True) s t ∧ t.runner = s.runner ∧ t.store.running = true ∧
      t.store.logged = s.runner.emitted.filter recorded := by
  have hinv := Inv.of_reach hne h
  have hd := hinv.store hrun
  have hacked := hinv.acked.trans hd.top_le
  generalize hn : s.store.podSeq = n at hacked
  have hle : n ≤ s.runner.emitted.length := hn ▸ hd.le
  have hstart := Reach.of_exec (exec_restart hd.id (hinv.unborn _ (Nat.lt_succ_self _)) hrun)
  rw [hn] at hstart
  have hlevel := (hstart.trans (Reach.of_exec exec_greet)).trans
    (Reach.of_exec (exec_ask (hinv.kept.check hacked hle)))
  -- the feed reads what is left, if anything is
  obtain ⟨batch, hbatch, hlen, hread⟩ : ∃ batch : List AgentEvent,
      (∀ i ev, batch[i]? = some ev → ev.seq = n + i + 1) ∧
      n + batch.length = s.runner.emitted.length ∧
      Reach step (fun _ _ => True) s ((level (restarted s) s.nextIO n n (max s.top n) batch
        [.state s.runner.state] s.store).on (restarted s) s.nextIO) := by
    by_cases hlt : n < s.runner.emitted.length
    · have hafter := hinv.kept.after hacked hle
      rw [if_pos hlt] at hafter
      refine ⟨_, fun i ev hi => ?_, ?_, hlevel.trans (Reach.of_exec (exec_read hafter))⟩
      · unfold slice at hi
        rw [List.take_length, List.getElem?_drop] at hi
        exact hinv.kept.numbered _ _ hi
      · rw [length_slice (Nat.le_refl _)]
        omega
    · refine ⟨[], fun i ev hi => ?_, ?_, hlevel⟩
      · cases hi
      · show n = _
        omega
  obtain ⟨top, up, hdone⟩ := deliver (s := restarted s) (j := s.nextIO) (k := n) batch
    (max s.top n) [.state s.runner.state] s.store hbatch
  have hreach := hread.trans hdone
  have hfinal := Inv.of_reach hne (h.trans hreach)
  have hruns : (batch.foldl Store.record s.store).running = true := by
    rw [Store.foldl_record_running, hrun]
  have hpod : (batch.foldl Store.record s.store).podSeq = n + batch.length := by
    have hplace := (hfinal.run _ rfl).place
    exact hplace.idle_podSeq hruns
  refine ⟨_, hreach, rfl, hruns, ?_⟩
  have hlogged := (hfinal.store hruns).logged
  change (batch.foldl Store.record s.store).logged =
    (s.runner.emitted.take (batch.foldl Store.record s.store).podSeq).filter recorded at hlogged
  rw [hpod, hlen, List.take_length] at hlogged
  exact hlogged

theorem link_catches_up_launched :
    launched.store.running = true ∧
      ∃ t, Reach step (fun _ _ => True) launched t ∧ t.runner = launched.runner ∧
        t.store.running = true ∧ t.store.logged = launched.runner.emitted.filter recorded := by
  have hrun : launched.store.running = true := by decide +kernel
  exact ⟨hrun, link_catches_up (by decide) reach_launched hrun⟩

end AgentOps.Link.AgentIO
