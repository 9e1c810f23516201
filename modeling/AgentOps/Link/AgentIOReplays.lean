import AgentOps.Lib.Slice
import AgentOps.Link.AgentIO
import AgentOps.Runner.Stream

/-!
# The replays of a runner stream

A sidecar asks the runner for a replay each time that the manager opens an AgentIO stream. What
was under way from earlier replays comes out of the runner stream first, and the sidecar skips it
by counting `ReplayStart` frames. A runner stream is described by what the sidecar will take from
it, events and starts of replays, and by where the feed and the replays to come start. Most steps
of the runner move neither; what the sidecar passes on is a slice of the runner's events.
-/

namespace AgentOps.Link.AgentIO

open AgentOps.Lib AgentOps.Runner

variable {after : ℕ} {ev : AgentEvent} {st : AgentState}

/-- The replay point that a frame asks for. -/
def ClientFrame.point : ClientFrame → Option ℕ
  | .replay after => some after
  | _ => none

/-- The replay point that a loop has in hand. -/
def Loop.points : Loop → List ℕ
  | .stopping after => [after]
  | _ => []

def ServerFrame.event? : ServerFrame → Option AgentEvent
  | .event ev => some ev
  | .replayStart _ => none

variable {rest : List ServerFrame}

namespace RunStream

/-- The replay points that the runner has still to serve, in their order. -/
def points (x : RunStream) : List ℕ := x.loop.points ++ x.toRunner.filterMap ClientFrame.point

/-- Where the feed is, and the points of the replays after it. -/
def sources (x : RunStream) : List ℕ := (x.feed.map Feed.cursor).toList ++ x.points

/-- The feed has not sent its `ReplayStart`. -/
def unstarted (x : RunStream) : ℕ := (x.feed.map fun f => (!f.started).toNat).getD 0

/-- What the sidecar takes from the stream if the feed sends no event: `none` is a start. -/
def tokens (x : RunStream) : List (Option AgentEvent) :=
  x.toSidecar.map ServerFrame.event? ++ List.replicate (x.unstarted + x.points.length) none

/-- The replays whose start the sidecar has still to see. -/
def due (x : RunStream) : ℕ := x.tokens.countP Option.isNone

end RunStream

/-- What a feed has of the log: it goes on where its cursor is. -/
structure Feed.Ok (f : Feed) (log : List AgentEvent) : Prop where
  batch : f.batch = slice log f.cursor (f.cursor + f.batch.length)
  le : f.cursor + f.batch.length ≤ log.length
  unstarted : f.started = false → f.batch = []

/-- What holds of the newest runner stream; nothing before `floor` is asked for. -/
structure RunStream.Ok (x : RunStream) (log : List AgentEvent) (floor : ℕ) : Prop where
  sources : ∀ n ∈ x.sources, floor ≤ n ∧ n ≤ log.length
  feed : ∀ f, x.feed = some f → f.Ok log
  due : x.replayStarts + x.due ≤ x.replays

/-- After `pre` come the events from `k` on, and the stream goes on where they end. -/
def Ends (log : List AgentEvent) (x : RunStream) (pre : List (Option AgentEvent)) (k : ℕ) : Prop :=
  ∃ m, k ≤ m ∧ m ≤ log.length ∧ x.tokens = pre ++ (slice log k m).map some ∧
    ∀ n, x.sources.getLast? = some n → n = m

/-- What the sidecar has sent on a stream that was opened with `c`, and what comes next. -/
inductive Live (log : List AgentEvent) (x : RunStream) (c : ℕ) : Bool → List Frame → Prop
  /-- The replay from `c` was asked for last, and the sidecar has not seen its start. -/
  | replaying (pre : List (Option AgentEvent)) (h : Ends log x (pre ++ [none]) c) :
      Live log x c true []
  /-- A replay was lost with the feed, and the sidecar waits in vain. -/
  | lost (h : x.replayStarts + x.due < x.replays) : Live log x c true []
  | serving (st : AgentState) (k : ℕ) (hck : c ≤ k) (h : Ends log x [] k) :
      Live log x c false (.state st :: (slice log c k).map .event)

section Replays

variable {log more : List AgentEvent} {x y : RunStream} {f : Feed} {c floor : ℕ} {b : Bool}
  {up : List Frame} {pre : List (Option AgentEvent)} {k : ℕ}

/-! ### The log grows and the floor moves -/

theorem Feed.Ok.grow (h : f.Ok log) : f.Ok (log ++ more) where
  batch := by rw [slice_append_right h.le]; exact h.batch
  le := by rw [List.length_append]; have := h.le; omega
  unstarted := h.unstarted

theorem RunStream.Ok.grow (h : x.Ok log floor) : x.Ok (log ++ more) floor where
  sources n hn := ⟨(h.sources n hn).1, by
    rw [List.length_append]; have := (h.sources n hn).2; omega⟩
  feed f hf := (h.feed f hf).grow
  due := h.due

theorem Ends.grow (h : Ends log x pre k) : Ends (log ++ more) x pre k := by
  obtain ⟨m, hkm, hlen, htokens, hgoal⟩ := h
  refine ⟨m, hkm, by rw [List.length_append]; omega, ?_, hgoal⟩
  rw [slice_append_right hlen]
  exact htokens

theorem Ends.le (h : Ends log x pre k) : k ≤ log.length := by
  obtain ⟨m, hkm, hlen, -⟩ := h
  exact hkm.trans hlen

theorem Live.grow (h : Live log x c b up) : Live (log ++ more) x c b up := by
  cases h with
  | replaying pre h => exact .replaying pre h.grow
  | lost h => exact .lost h
  | serving st k hck h =>
    have hslice : slice (log ++ more) c k = slice log c k := slice_append_right h.le
    rw [← hslice]
    exact .serving st k hck h.grow

/-- The floor moves below all that is asked for. -/
theorem RunStream.Ok.move (h : x.Ok log floor) {floor' : ℕ}
    (hle : ∀ n ∈ x.sources, floor' ≤ n) : x.Ok log floor' :=
  { h with sources := fun n hn => ⟨hle n hn, (h.sources n hn).2⟩ }

/-- A stream that was just opened. -/
theorem RunStream.Ok.new (log : List AgentEvent) (floor : ℕ) : RunStream.Ok {} log floor where
  sources n hn := absurd hn List.not_mem_nil
  feed f hf := absurd hf (by simp)
  due := Nat.le_refl 0

/-! ### Steps that the sidecar does not see -/

/-- The sidecar takes the same from both streams, and a feed may have ended. -/
structure Keeps (x y : RunStream) : Prop where
  tokens : y.tokens = x.tokens
  sources : y.sources <:+ x.sources
  replays : y.replays = x.replays := by rfl
  replayStarts : y.replayStarts = x.replayStarts := by rfl

theorem RunStream.Ok.keeps (h : x.Ok log floor) (hk : Keeps x y)
    (hfeed : ∀ f, y.feed = some f → f.Ok log) : y.Ok log floor where
  sources n hn := h.sources n (hk.sources.subset hn)
  feed := hfeed
  due := by
    unfold RunStream.due
    rw [hk.tokens, hk.replays, hk.replayStarts]
    exact h.due

theorem Ends.keeps (h : Ends log x pre k) (hk : Keeps x y) : Ends log y pre k := by
  obtain ⟨m, hkm, hlen, htokens, hgoal⟩ := h
  refine ⟨m, hkm, hlen, hk.tokens.trans htokens, fun n hn => hgoal n ?_⟩
  obtain ⟨more, hmore⟩ := hk.sources
  rw [← hmore, List.getLast?_append, hn]
  rfl

theorem Live.keeps (h : Live log x c b up) (hk : Keeps x y) : Live log y c b up := by
  cases h with
  | replaying pre h => exact .replaying pre (h.keeps hk)
  | lost h =>
    apply Live.lost
    unfold RunStream.due
    rw [hk.tokens, hk.replays, hk.replayStarts]
    exact h
  | serving st k hck h => exact .serving st k hck (h.keeps hk)

/-- The loop of `Run` takes a replay point and cancels the feed. -/
theorem keeps_stopping {rest : List ClientFrame} (hloop : x.loop = .serving)
    (hqueue : x.toRunner = .replay after :: rest) :
    Keeps x { x with
      toRunner := rest
      loop := .stopping after
      feed := x.feed.map fun f => { f with cancelled := true } } where
  tokens := by
    simp [RunStream.tokens, RunStream.unstarted, RunStream.points, Loop.points, ClientFrame.point,
      hloop, hqueue, Function.comp_def]
  sources := by
    simp [RunStream.sources, RunStream.points, Loop.points, ClientFrame.point, hloop, hqueue,
      Function.comp_def]

/-- The loop of `Run` takes a frame that asks for no replay. -/
theorem keeps_taken {frame : ClientFrame} {rest : List ClientFrame} (hframe : frame.point = none)
    (hqueue : x.toRunner = frame :: rest) : Keeps x { x with toRunner := rest } := by
  have hpoints : RunStream.points { x with toRunner := rest } = x.points := by
    simp only [RunStream.points, hqueue, List.filterMap_cons, hframe]
  constructor <;> simp only [RunStream.tokens, RunStream.sources, RunStream.unstarted, hpoints,
    List.suffix_refl]

/-- A frame comes that asks for no replay. -/
theorem keeps_sent {frame : ClientFrame} (hframe : frame.point = none) :
    Keeps x { x with toRunner := x.toRunner ++ [frame] } := by
  have hpoints : RunStream.points { x with toRunner := x.toRunner ++ [frame] } = x.points := by
    simp only [RunStream.points, List.filterMap_append, List.filterMap_cons, hframe,
      List.filterMap_nil, List.append_nil]
  constructor <;> simp only [RunStream.tokens, RunStream.sources, RunStream.unstarted, hpoints,
    List.suffix_refl]

/-- `stopFeed` returned, and the next feed starts at the point. -/
theorem keeps_fed (hloop : x.loop = .stopping after) (hfeed : x.feed = none) :
    Keeps x { x with loop := .serving, feed := some { cursor := after } } where
  tokens := by
    simp [RunStream.tokens, RunStream.unstarted, RunStream.points, Loop.points, hloop, hfeed,
      Nat.add_comm]
  sources := by simp [RunStream.sources, RunStream.points, Loop.points, hloop, hfeed]

/-- The feed sends its `ReplayStart`. -/
theorem keeps_start (hfeed : x.feed = some f) (hstart : f.started = false) (st : AgentState) :
    Keeps x { x with
      toSidecar := x.toSidecar ++ [.replayStart st]
      feed := some { f with started := true } } where
  tokens := by
    simp [RunStream.tokens, RunStream.unstarted, RunStream.points, ServerFrame.event?, hfeed,
      hstart, Nat.add_comm 1, List.replicate_succ]
  sources := by simp [RunStream.sources, RunStream.points, hfeed]

/-- `out.after` returned. -/
theorem keeps_read (hfeed : x.feed = some f) (batch : List AgentEvent) :
    Keeps x { x with feed := some { f with batch } } where
  tokens := by simp [RunStream.tokens, RunStream.unstarted, RunStream.points, hfeed]
  sources := by simp [RunStream.sources, RunStream.points, hfeed]

/-- The feed ends after its `ReplayStart`. -/
theorem keeps_feedEnd (hfeed : x.feed = some f) (hstart : f.started = true) :
    Keeps x { x with feed := none } where
  tokens := by simp [RunStream.tokens, RunStream.unstarted, RunStream.points, hfeed, hstart]
  sources := by
    rw [show x.sources = f.cursor :: x.points by simp [RunStream.sources, hfeed]]
    exact List.suffix_cons _ _

/-- What `out.after` returns. -/
theorem Feed.Ok.read (h : f.Ok log) (hstart : f.started = true) :
    Feed.Ok { f with batch := slice log f.cursor log.length } log := by
  have hle := h.le
  have hlen : f.cursor + (slice log f.cursor log.length).length = log.length := by
    rw [length_slice (Nat.le_refl _)]
    omega
  refine ⟨?_, hlen.le, fun hn => ?_⟩
  · show slice log f.cursor log.length = slice log f.cursor _
    rw [hlen]
  · rw [show f.started = false from hn] at hstart
    cases hstart

/-! ### The feed sends an event -/

/-- The feed sends the first event of its batch. -/
def RunStream.send (x : RunStream) (f : Feed) (ev : AgentEvent) (rest : List AgentEvent) :
    RunStream :=
  { x with
    toSidecar := x.toSidecar ++ [.event ev]
    feed := some { f with batch := rest, cursor := ev.seq } }

/-- The event at the head of a batch is the one after the cursor. -/
theorem Feed.Ok.head (h : f.Ok log) {rest : List AgentEvent} (hbatch : f.batch = ev :: rest) :
    log[f.cursor]? = some ev ∧ rest = slice log (f.cursor + 1) (f.cursor + 1 + rest.length) ∧
      f.cursor + 1 + rest.length ≤ log.length := by
  have hlen : f.cursor + f.batch.length = f.cursor + 1 + rest.length := by
    rw [hbatch, List.length_cons]
    omega
  have hslice := h.batch
  rw [hlen, hbatch] at hslice
  obtain ⟨-, hget, hrest⟩ := slice_eq_cons hslice.symm
  exact ⟨hget, hrest, hlen ▸ h.le⟩

theorem tokens_started (hfeed : x.feed = some f) (hstart : f.started = true) :
    x.tokens = x.toSidecar.map ServerFrame.event? ++ List.replicate x.points.length none := by
  simp [RunStream.tokens, RunStream.unstarted, hfeed, hstart]

theorem Feed.Ok.started (h : f.Ok log) {rest : List AgentEvent} (hbatch : f.batch = ev :: rest) :
    f.started = true := by
  cases hstart : f.started with
  | true => rfl
  | false =>
    rw [h.unstarted hstart] at hbatch
    cases hbatch

theorem RunStream.Ok.send (h : x.Ok log floor) (hfeed : x.feed = some f) {rest : List AgentEvent}
    (hbatch : f.batch = ev :: rest) (hseq : ev.seq = f.cursor + 1) :
    (x.send f ev rest).Ok log floor := by
  have hf := h.feed f hfeed
  obtain ⟨-, hrest, hle⟩ := hf.head hbatch
  have hstart := hf.started hbatch
  have hcursor := h.sources f.cursor (by simp [RunStream.sources, hfeed])
  refine ⟨fun n hn => ?_, fun g hg => ?_, ?_⟩
  · rcases List.mem_cons.mp (show n ∈ ev.seq :: x.points from hn) with rfl | hn
    · omega
    · exact h.sources n (List.mem_append_right _ hn)
  · obtain rfl := Option.some.inj hg
    refine ⟨?_, by show ev.seq + rest.length ≤ _; omega, fun hn => ?_⟩
    · show rest = slice log ev.seq (ev.seq + rest.length)
      rw [hseq]
      exact hrest
    · rw [show f.started = false from hn] at hstart
      cases hstart
  · have hdue := h.due
    unfold RunStream.due at hdue ⊢
    rw [tokens_started hfeed hstart] at hdue
    rw [tokens_started (x := x.send f ev rest) rfl hstart]
    simpa [RunStream.send, RunStream.points, ServerFrame.event?] using hdue

/-- A start at the end is the last one. -/
theorem concat_none {ts : List (Option AgentEvent)} {es : List AgentEvent}
    (h : ts ++ [none] = pre ++ es.map some) : es = [] := by
  rcases List.eq_nil_or_concat es with rfl | ⟨es', e, rfl⟩
  · rfl
  · rw [List.concat_eq_append, List.map_append, ← List.append_assoc] at h
    cases (List.append_inj' h rfl).2

/-- A stream that goes on comes to no start. -/
theorem Ends.not_none (h : Ends log x [] k) : none ∉ x.tokens := by
  obtain ⟨m, -, -, htokens, -⟩ := h
  rw [htokens]
  simp

theorem Ends.points (h : Ends log x [] k) : x.points = [] := by
  by_contra hp
  have hpos := List.length_pos_iff.mpr hp
  exact h.not_none (List.mem_append_right _ (List.mem_replicate.mpr ⟨by omega, rfl⟩))

/-- Without points the event comes last, and the slice takes it up. -/
theorem Ends.send (h : Ends log x pre k) (hx : x.Ok log floor) (hfeed : x.feed = some f)
    {rest : List AgentEvent} (hbatch : f.batch = ev :: rest) (hseq : ev.seq = f.cursor + 1)
    (hp : x.points = []) : Ends log (x.send f ev rest) pre k := by
  have hf := hx.feed f hfeed
  obtain ⟨hget, -, hle⟩ := hf.head hbatch
  have hstart := hf.started hbatch
  obtain ⟨m, hkm, hlen, htokens, hgoal⟩ := h
  obtain rfl : f.cursor = m := hgoal _ (by simp [RunStream.sources, hfeed, hp])
  have htok : (x.send f ev rest).tokens = x.tokens ++ [some ev] := by
    rw [tokens_started hfeed hstart, tokens_started (x := x.send f ev rest) rfl hstart,
      show (x.send f ev rest).points = x.points from rfl, hp]
    simp [RunStream.send, ServerFrame.event?]
  refine ⟨f.cursor + 1, by omega, by omega, ?_, fun n hn => ?_⟩
  · rw [htok, htokens, slice_concat hkm hget, List.map_append, List.append_assoc]
    rfl
  · change (ev.seq :: x.points).getLast? = some n at hn
    rw [hp] at hn
    rw [← Option.some.inj hn]
    exact hseq

theorem Live.send (h : Live log x c b up) (hx : x.Ok log floor) (hfeed : x.feed = some f)
    {rest : List AgentEvent} (hbatch : f.batch = ev :: rest) (hseq : ev.seq = f.cursor + 1) :
    Live log (x.send f ev rest) c b up := by
  have hstart := (hx.feed f hfeed).started hbatch
  have htok := tokens_started hfeed hstart
  have htok' : (x.send f ev rest).tokens = x.toSidecar.map ServerFrame.event? ++ [some ev] ++
      List.replicate x.points.length none := by
    rw [tokens_started (x := x.send f ev rest) rfl hstart]
    simp [RunStream.send, RunStream.points, ServerFrame.event?]
  cases h with
  | replaying pre h =>
    rcases List.eq_nil_or_concat x.points with hp | ⟨ps, p, hp⟩
    · exact .replaying pre (h.send hx hfeed hbatch hseq hp)
    · -- the event stands before the starts of the points
      obtain ⟨m, hcm, hlen, htokens, hgoal⟩ := h
      rw [List.concat_eq_append] at hp
      rw [htok, hp, List.length_append, List.length_singleton, List.replicate_succ',
        ← List.append_assoc] at htokens
      refine .replaying (x.toSidecar.map ServerFrame.event? ++ [some ev] ++
        List.replicate ps.length none) ⟨m, hcm, hlen, ?_, fun n hn => hgoal n ?_⟩
      · rw [htok', hp, concat_none htokens, List.length_append, List.length_singleton,
          List.replicate_succ', ← List.append_assoc]
        exact (List.append_nil _).symm
      · change (ev.seq :: x.points).getLast? = some n at hn
        rw [hp, ← List.cons_append, List.getLast?_concat] at hn
        rw [RunStream.sources, hp, ← List.append_assoc, List.getLast?_concat, hn]
  | lost h =>
    apply Live.lost
    unfold RunStream.due at h ⊢
    rw [htok] at h
    rw [htok']
    simpa [RunStream.send] using h
  | serving st k hck h => exact .serving st k hck (h.send hx hfeed hbatch hseq h.points)

/-! ### A stream ends -/

/-- `Run` returns. -/
def RunStream.leave (x : RunStream) : RunStream := { x with loop := .ended, feed := none }

theorem sources_leave (x : RunStream) : x.leave.sources <:+ x.sources :=
  ⟨(x.feed.map Feed.cursor).toList ++ x.loop.points, by
    simp [RunStream.sources, RunStream.points, RunStream.leave, Loop.points]⟩

/-- What is lost are starts. -/
theorem tokens_leave (x : RunStream) :
    x.tokens = x.leave.tokens ++ List.replicate (x.unstarted + x.loop.points.length) none := by
  have hcount : x.unstarted + x.points.length =
      x.leave.points.length + (x.unstarted + x.loop.points.length) := by
    simp only [RunStream.points, RunStream.leave, Loop.points, List.length_append, List.nil_append]
    omega
  have hleave : x.leave.tokens = x.toSidecar.map ServerFrame.event? ++
      List.replicate x.leave.points.length none := by
    simp [RunStream.tokens, RunStream.unstarted, RunStream.leave]
  unfold RunStream.tokens at hleave ⊢
  rw [hleave, hcount, List.replicate_add, List.append_assoc]

theorem due_leave (x : RunStream) :
    x.due = x.leave.due + (x.unstarted + x.loop.points.length) := by
  unfold RunStream.due
  rw [tokens_leave, List.countP_append]
  simp [List.countP_replicate]

theorem RunStream.Ok.leave (h : x.Ok log floor) : x.leave.Ok log floor where
  sources n hn := h.sources n ((sources_leave x).subset hn)
  feed g hg := by cases hg
  due := by
    have hdue := h.due
    have hleave := due_leave x
    show x.replayStarts + x.leave.due ≤ x.replays
    omega

theorem Live.leave (h : Live log x c b up) (hx : x.Ok log floor) : Live log x.leave c b up := by
  have htokens := tokens_leave x
  have hleave := due_leave x
  by_cases hnone : x.unstarted + x.loop.points.length = 0
  · rw [hnone, List.replicate_zero, List.append_nil] at htokens
    exact h.keeps ⟨htokens.symm, sources_leave x, rfl, rfl⟩
  · have hdue := hx.due
    cases h with
    | replaying | lost => exact .lost (by show x.replayStarts + x.leave.due < x.replays; omega)
    | serving st k hck h =>
      refine absurd ?_ h.not_none
      rw [htokens]
      exact List.mem_append_right _ (List.mem_replicate.mpr ⟨hnone, rfl⟩)

/-! ### The steps of the sidecar -/

/-- The sidecar asks for a replay. -/
def RunStream.ask (x : RunStream) (after : ℕ) : RunStream :=
  { x with toRunner := x.toRunner ++ [.replay after], replays := x.replays + 1 }

theorem sources_ask (x : RunStream) (after : ℕ) : (x.ask after).sources = x.sources ++ [after] := by
  simp [RunStream.sources, RunStream.points, RunStream.ask, ClientFrame.point]

theorem tokens_ask (x : RunStream) (after : ℕ) : (x.ask after).tokens = x.tokens ++ [none] := by
  have hpoints : (x.ask after).points.length = x.points.length + 1 := by
    simp [RunStream.points, RunStream.ask, ClientFrame.point]
    omega
  simp only [RunStream.tokens, RunStream.unstarted, hpoints, ← Nat.add_assoc,
    List.replicate_succ', List.append_assoc]
  rfl

theorem RunStream.Ok.ask (h : x.Ok log floor) (hfloor : floor ≤ after) (hlen : after ≤ log.length) :
    (x.ask after).Ok log floor where
  sources n hn := by
    rw [sources_ask] at hn
    rcases List.mem_append.mp hn with hn | hn
    · exact h.sources n hn
    · rw [List.mem_singleton.mp hn]
      exact ⟨hfloor, hlen⟩
  feed := h.feed
  due := by
    have hdue := h.due
    unfold RunStream.due at hdue ⊢
    rw [tokens_ask, List.countP_append]
    exact Nat.succ_le_succ hdue

theorem Live.ask (x : RunStream) (hlen : after ≤ log.length) :
    Live log (x.ask after) after true [] := by
  refine .replaying x.tokens ⟨after, Nat.le_refl _, hlen, ?_, fun n hn => ?_⟩
  · rw [tokens_ask, slice_self]
    exact (List.append_nil _).symm
  · rw [sources_ask, List.getLast?_concat] at hn
    exact (Option.some.inj hn).symm

/-- The sidecar takes a `ReplayStart`. -/
def RunStream.popStart (x : RunStream) (rest : List ServerFrame) : RunStream :=
  { x with toSidecar := rest, replayStarts := x.replayStarts + 1 }

/-- The sidecar takes an event. -/
def RunStream.popEvent (x : RunStream) (rest : List ServerFrame) : RunStream :=
  { x with toSidecar := rest }

theorem tokens_popStart (hqueue : x.toSidecar = .replayStart st :: rest) :
    x.tokens = none :: (x.popStart rest).tokens := by
  simp [RunStream.tokens, hqueue, ServerFrame.event?, RunStream.popStart, RunStream.unstarted,
    RunStream.points]

theorem tokens_popEvent (hqueue : x.toSidecar = .event ev :: rest) :
    x.tokens = some ev :: (x.popEvent rest).tokens := by
  simp [RunStream.tokens, hqueue, ServerFrame.event?, RunStream.popEvent, RunStream.unstarted,
    RunStream.points]

theorem due_popStart (hqueue : x.toSidecar = .replayStart st :: rest) :
    x.due = (x.popStart rest).due + 1 := by
  unfold RunStream.due
  rw [tokens_popStart hqueue, List.countP_cons_of_pos rfl]

theorem due_popEvent (hqueue : x.toSidecar = .event ev :: rest) :
    x.due = (x.popEvent rest).due := by
  unfold RunStream.due
  rw [tokens_popEvent hqueue, List.countP_cons_of_neg (by exact Bool.false_ne_true)]

theorem RunStream.Ok.popStart (h : x.Ok log floor)
    (hqueue : x.toSidecar = .replayStart st :: rest) : (x.popStart rest).Ok log floor :=
  { h with
    due := by
      have hdue := h.due
      rw [due_popStart hqueue] at hdue
      show x.replayStarts + 1 + (x.popStart rest).due ≤ x.replays
      omega }

theorem RunStream.Ok.popEvent (h : x.Ok log floor) (hqueue : x.toSidecar = .event ev :: rest) :
    (x.popEvent rest).Ok log floor :=
  { h with due := by rw [← due_popEvent hqueue]; exact h.due }

/-- The sidecar takes the first token. -/
theorem Ends.pop {t t' : Option AgentEvent} (h : Ends log x (t' :: pre) k)
    (htokens : x.tokens = t :: y.tokens) (hsources : y.sources = x.sources) :
    t = t' ∧ Ends log y pre k := by
  obtain ⟨m, hkm, hlen, heq, hgoal⟩ := h
  rw [htokens] at heq
  obtain ⟨ht, heq⟩ := List.cons.inj heq
  exact ⟨ht, m, hkm, hlen, heq, hsources ▸ hgoal⟩

/-- A `ReplayStart` of an earlier replay is skipped. -/
theorem Live.skipStart (h : Live log x c b up) (hqueue : x.toSidecar = .replayStart st :: rest)
    (hlt : x.replayStarts + 1 < x.replays) : Live log (x.popStart rest) c b up := by
  have hpop := due_popStart hqueue
  have htok := tokens_popStart hqueue
  cases h with
  | replaying pre h =>
    cases pre with
    | nil =>
      -- the last replay is skipped as well if the sidecar counts one that will not start
      have hnone : (x.popStart rest).due = 0 :=
        List.countP_eq_zero.mpr fun t ht hn => (h.pop htok rfl).2.not_none
          (Option.isNone_iff_eq_none.mp hn ▸ ht)
      exact .lost (by rw [hnone]; exact hlt)
    | cons t pre => exact .replaying pre (h.pop htok rfl).2
  | lost h =>
    apply Live.lost
    show x.replayStarts + 1 + (x.popStart rest).due < x.replays
    omega
  | serving st' k hck h => exact absurd (htok ▸ List.mem_cons_self) h.not_none

/-- The `ReplayStart` of the last replay becomes the State of the stream. -/
theorem Live.forwardStart (h : Live log x c b up) (hx : x.Ok log floor)
    (hqueue : x.toSidecar = .replayStart st :: rest) (hge : ¬ x.replayStarts + 1 < x.replays) :
    Live log (x.popStart rest) c false (up ++ [.state st]) := by
  have hdue := hx.due
  have hpop := due_popStart hqueue
  have htok := tokens_popStart hqueue
  cases h with
  | replaying pre h =>
    cases pre with
    | nil =>
      have hlive := Live.serving (c := c) st c (Nat.le_refl c) (h.pop htok rfl).2
      rw [slice_self] at hlive
      exact hlive
    | cons t pre =>
      obtain ⟨m, -, -, hrest, -⟩ := (h.pop htok rfl).2
      have hmore : 0 < (x.popStart rest).due :=
        List.countP_pos_iff.mpr ⟨none, by rw [hrest]; simp, rfl⟩
      omega
  | lost h => omega
  | serving st' k hck h => exact absurd (htok ▸ List.mem_cons_self) h.not_none

/-- An event of an earlier replay is skipped. -/
theorem Live.skipEvent (h : Live log x c true up) (hqueue : x.toSidecar = .event ev :: rest) :
    Live log (x.popEvent rest) c true up := by
  have htok := tokens_popEvent hqueue
  cases h with
  | replaying pre h =>
    cases pre with
    | nil => cases (h.pop htok rfl).1
    | cons t pre => exact .replaying pre (h.pop htok rfl).2
  | lost h => exact .lost (by rw [← due_popEvent hqueue]; exact h)

/-- The next event goes on the stream; nothing at or before it is asked for. -/
theorem Live.forwardEvent (h : Live log x c false up) (hqueue : x.toSidecar = .event ev :: rest) :
    Live log (x.popEvent rest) c false (up ++ [.event ev]) ∧
      ∃ k, log[k]? = some ev ∧ ∀ n ∈ x.sources, k < n := by
  cases h with
  | serving st k hck h =>
    have hp := h.points
    obtain ⟨m, hkm, hlen, htokens, hgoal⟩ := h
    have htok := tokens_popEvent hqueue
    rw [htokens] at htok
    obtain ⟨e, es, hslice, he, hes⟩ := List.map_eq_cons_iff.mp htok
    obtain rfl := Option.some.inj he
    obtain ⟨hlt, hget, hnext⟩ := slice_eq_cons hslice
    have hlive : Live log (x.popEvent rest) c false
        (.state st :: (slice log c (k + 1)).map .event) :=
      .serving st (k + 1) (by omega) ⟨m, by omega, hlen, by rw [← hnext]; exact hes.symm, hgoal⟩
    rw [slice_concat hck hget, List.map_append] at hlive
    refine ⟨hlive, k, hget, fun n hn => ?_⟩
    -- the feed is the only source
    cases hf : x.feed with
    | none => simp [RunStream.sources, hp, hf] at hn
    | some f =>
      have hsrc : x.sources = [f.cursor] := by simp [RunStream.sources, hp, hf]
      rw [hsrc] at hn
      rw [List.mem_singleton.mp hn, hgoal f.cursor (by rw [hsrc]; rfl)]
      exact hlt

end Replays

end AgentOps.Link.AgentIO
