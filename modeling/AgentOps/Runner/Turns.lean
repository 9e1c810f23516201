import AgentOps.Lib.Machine
import AgentOps.Runner.Session
import Mathlib.Data.List.Nodup

/-!
# The turns of a runner

A runner with everything that can reach it: the steps of its own goroutines, the commands of
the manager in any order and as often as they come, and acks. Beside the session stand the
prompts that it accepted and those whose turn it started.

`TurnsClosed` is what the proto says of turns: they are started in order, each of them is
finished once, `TurnFinished` is the last event of its turn and `AgentExited` the last event
of all. The last two need that no handler of `RequestPermission` is overtaken, since
`RequestPermission` reads the turn before it appends and `finish` only waits for the process.
-/

namespace AgentOps.Runner

open AgentOps.Link AgentOps.Lib
open AgentOps.Api (turnName)

variable {p : Prompt} {l : Session.Label}

/-- The turns that `run` still has to finish, without the queue. -/
def Place.openTurns : Place → List Prompt
  | .starting p | .turn p | .returned p => [p]
  | .drain queued => queued
  | _ => []

/-- The turn that `runTurn` has begun and not finished. -/
def Place.begun : Place → Option Prompt
  | .turn p | .returned p => some p
  | _ => none

/-- The turn that `nextTurn` took and `runTurn` has not begun. -/
def Place.taken : Place → List Prompt
  | .starting p => [p]
  | _ => []

/-- `finish` has taken the queue. -/
def Place.finished : Place → Bool
  | .drain _ | .done => true
  | _ => false

/-- `ev.GetExited() != nil`. -/
def isExited (ev : AgentEvent) : Bool :=
  match ev.payload with
  | .exited _ => true
  | _ => false

/-- The turns that a `TurnFinished` closes, in order. -/
def finishedIds (evs : List AgentEvent) : List String :=
  (evs.filter fun ev => ev.payload.isTurnFinished).map AgentEvent.turnId

namespace Session

/-- The accepted turns without a `TurnFinished`. -/
def openTurns (s : Session) : List Prompt := s.place.openTurns ++ s.queue

/-- `prompt` takes the frame. -/
def accepts (s : Session) (p : Prompt) : Bool := !s.finished && s.lastTurnSeq < p.turnSeq

/-- The handlers of `RequestPermission` that have read the turn and not appended their event. -/
def handlers (s : Session) : List PermissionRequest := s.asking ++ s.unsent

end Session

/-- What reaches a runner. -/
inductive Input
  | own (l : Session.Label)
  | command (c : Command)
  | ack (n : ℕ)
deriving DecidableEq, Repr

/-- A session, the prompts that it accepted and those whose turn `runTurn` began. -/
structure Turns where
  session : Session := {}
  accepted : List Prompt := []
  started : List Prompt := []
deriving DecidableEq, Repr

namespace Turns

/-- A new session with an outbox of `max` bytes. -/
def init (max : ℕ) : Turns := { session := { out := { max } } }

/-- The turn that a step of the runner starts. -/
def starts (s : Session) : Session.Label → List Prompt
  | .begin => s.place.taken
  | _ => []

/-- The prompt that a command adds. -/
def accepts (s : Session) : Command → List Prompt
  | .prompt p => if s.accepts p then [p] else []
  | .permission _ => []

def step (x : Turns) : Input → Option Turns
  | .own l => (x.session.step l).map fun s =>
      { x with session := s, started := x.started ++ starts x.session l }
  | .command c => some { x with
      session := x.session.command c, accepted := x.accepted ++ accepts x.session c }
  | .ack n => some { x with session := { x.session with out := x.session.out.ack n } }

end Turns

/-- The turn id of a prompt frame is the name of its turn. -/
def named (name : ℕ → String) (_ : Turns) : Input → Prop
  | .command (.prompt p) => p.turnId = name p.turnSeq
  | _ => True

instance (name : ℕ → String) (x : Turns) (i : Input) : Decidable (named name x i) := by
  unfold named
  split <;> infer_instance

/-- No handler of `RequestPermission` that read the turn is left when `TurnFinished` is
appended, and none at all when `AgentExited` is, nor output of the agent. -/
def settled (s : Session) : Session.Label → Prop
  | .turnFinished .. => ∀ p ∈ s.place.begun.toList, ∀ req ∈ s.handlers, req.turnId ≠ p.turnId
  | .exitEvent _ => s.drained = true ∧ s.handlers = []
  | _ => True

instance (s : Session) (l : Session.Label) : Decidable (settled s l) := by
  unfold settled
  split <;> infer_instance

/-- Prompts are named, and the events that end a turn or the session wait for the handlers. -/
def orderly (name : ℕ → String) (x : Turns) : Input → Prop
  | .own l => settled x.session l
  | i => named name x i

instance (name : ℕ → String) (x : Turns) (i : Input) : Decidable (orderly name x i) := by
  unfold orderly
  split <;> infer_instance

/-- What the proto says of the turns and of the end. -/
structure TurnsClosed (x : Turns) : Prop where
  /-- Turns are started in the order of their numbers. -/
  increasing : x.started.Pairwise fun p q => p.turnSeq < q.turnSeq
  /-- No turn id is started twice. -/
  once : (x.started.map Prompt.turnId).Nodup
  /-- Only accepted turns are started. -/
  accepted : x.started ⊆ x.accepted
  /-- No turn is finished twice. -/
  finishedOnce : (finishedIds x.session.emitted).Nodup
  /-- Once the exit is emitted, exactly the accepted turns are finished. -/
  finished : x.session.place = .done →
    finishedIds x.session.emitted = x.accepted.map Prompt.turnId
  /-- No event of a turn follows its `TurnFinished`. -/
  finishedLast : x.session.emitted.Pairwise fun e f =>
    e.payload.isTurnFinished = true → f.turnId ≠ e.turnId
  /-- No event follows `AgentExited`. -/
  exitedLast : x.session.emitted.Pairwise fun e _ => isExited e = false
  /-- The end of `run` emitted `AgentExited`. -/
  exited : x.session.place = .done → ∃ e ∈ x.session.emitted, isExited e = true

/-! ## Lists of events -/

@[simp] theorem finishedIds_snoc (evs : List AgentEvent) (ev : AgentEvent) :
    finishedIds (evs ++ [ev]) =
      finishedIds evs ++ if ev.payload.isTurnFinished then [ev.turnId] else [] := by
  unfold finishedIds
  rw [List.filter_append, List.map_append]
  cases h : ev.payload.isTurnFinished <;> simp [h]

theorem mem_finishedIds {evs : List AgentEvent} {e : AgentEvent} (h : e ∈ evs)
    (hf : e.payload.isTurnFinished = true) : e.turnId ∈ finishedIds evs := by
  unfold finishedIds
  exact List.mem_map_of_mem (List.mem_filter.mpr ⟨h, hf⟩)

/-- `TurnFinished` is the last event of its turn and `AgentExited` the last of all. -/
structure EndsLast (evs : List AgentEvent) : Prop where
  finished : evs.Pairwise fun e f => e.payload.isTurnFinished = true → f.turnId ≠ e.turnId
  exited : evs.Pairwise fun e _ => isExited e = false

/-- An event can follow when its turn is not finished and the exit is not emitted. -/
theorem EndsLast.snoc {evs : List AgentEvent} (h : EndsLast evs) {ev : AgentEvent}
    (hturn : ev.turnId ∉ finishedIds evs) (hexit : ∀ e ∈ evs, isExited e = false) :
    EndsLast (evs ++ [ev]) := by
  constructor
  · rw [List.pairwise_append]
    refine ⟨h.finished, List.pairwise_singleton _ _, ?_⟩
    intro e he f hf hfin heq
    obtain rfl := List.mem_singleton.mp hf
    apply hturn
    rw [heq]
    exact mem_finishedIds he hfin
  · rw [List.pairwise_append]
    exact ⟨h.exited, List.pairwise_singleton _ _, fun e he _ _ => hexit e he⟩

/-! ## The invariant -/

/-- Which turns are accepted, started and finished. -/
structure Ordered (name : ℕ → String) (x : Turns) : Prop where
  named : ∀ p ∈ x.accepted, p.turnId = name p.turnSeq
  increasing : x.accepted.Pairwise fun p q => p.turnSeq < q.turnSeq
  bounded : ∀ p ∈ x.accepted, p.turnSeq ≤ x.session.lastTurnSeq
  closed : finishedIds x.session.emitted ++ x.session.openTurns.map Prompt.turnId =
    x.accepted.map Prompt.turnId
  begun : x.session.finished = false →
    x.accepted = x.started ++ x.session.place.taken ++ x.session.queue
  started : x.started <+: x.accepted
  finished : x.session.finished = x.session.place.finished
  queue : x.session.finished = true → x.session.queue = []

/-- Which turn an event can carry, and what was emitted last. -/
structure Tidy (s : Session) : Prop where
  current : s.current = "" ∨ ∃ p, s.place = .turn p ∧ s.current = p.turnId
  handlers : ∀ req ∈ s.handlers,
    req.turnId = "" ∨ ∃ p, s.place.begun = some p ∧ req.turnId = p.turnId
  last : EndsLast s.emitted
  exited : (∃ e ∈ s.emitted, isExited e = true) ↔ s.place = .done
  quiet : s.place = .done → s.drained = true ∧ s.handlers = []

theorem Tidy.not_exited {s : Session} (h : Tidy s) (hp : s.place ≠ .done) :
    ∀ e ∈ s.emitted, isExited e = false := by
  intro e he
  by_contra hx
  exact hp (h.exited.mp ⟨e, he, by simpa using hx⟩)

section

variable {name : ℕ → String} {x : Turns}

/-- The ids of the accepted turns differ. -/
theorem Ordered.nodup (h : Ordered name x) (hname : Function.Injective name) :
    (x.accepted.map Prompt.turnId).Nodup := by
  rw [List.Nodup, List.pairwise_map]
  refine h.increasing.imp_of_mem ?_
  intro p q hp hq hlt heq
  rw [h.named p hp, h.named q hq] at heq
  have := hname heq
  omega

/-- A turn without a `TurnFinished` can still carry events. -/
theorem Ordered.open_fresh (h : Ordered name x) (hname : Function.Injective name)
    (hp : p ∈ x.session.openTurns) : p.turnId ∉ finishedIds x.session.emitted := by
  have hnodup := h.nodup hname
  rw [← h.closed, List.nodup_append] at hnodup
  intro hmem
  exact hnodup.2.2 _ hmem _ (List.mem_map_of_mem hp) rfl

/-- Events of no turn are never excluded. -/
theorem Ordered.empty_fresh (h : Ordered name x) (hne : ∀ n, name n ≠ "") :
    "" ∉ finishedIds x.session.emitted := by
  intro hmem
  have : "" ∈ x.accepted.map Prompt.turnId := by
    rw [← h.closed]
    exact List.mem_append_left _ hmem
  obtain ⟨p, hp, heq⟩ := List.mem_map.mp this
  rw [h.named p hp] at heq
  exact hne _ heq

theorem mem_openTurns {s : Session} (h : s.place.begun = some p) : p ∈ s.openTurns := by
  unfold Session.openTurns
  cases hp : s.place <;> rw [hp] at h <;> simp_all [Place.begun, Place.openTurns]

end

/-! ## One step -/

/-- What `emit` changes. -/
theorem emit_eq {s t : Session} {turnId : String} {payload : AgentPayload}
    {urgent : Bool} {size : ℕ} (h : s.emit turnId payload urgent size = some t) :
    ∃ out,
      t = { s with out, emitted := s.emitted ++ [⟨s.out.last + 1, turnId, payload, size⟩] } := by
  unfold Session.emit at h
  rw [Option.map_eq_some_iff] at h
  obtain ⟨out, -, rfl⟩ := h
  exact ⟨out, rfl⟩

/-- A step that moves no turn. -/
structure Idle (s t : Session) : Prop where
  lastTurnSeq : t.lastTurnSeq = s.lastTurnSeq
  queue : t.queue = s.queue
  finished : t.finished = s.finished
  openTurns : t.place.openTurns = s.place.openTurns
  taken : t.place.taken = s.place.taken
  placeFinished : t.place.finished = s.place.finished
  finishedIds : finishedIds t.emitted = finishedIds s.emitted

/-- What a step of the runner does to its turns. -/
theorem step_turns {s t : Session} (h : s.step l = some t) :
    (Idle s t ∧ Turns.starts s l = []) ∨
    (∃ p rest, l = .nextTurn ∧ s.place = .waiting ∧ s.queue = p :: rest ∧
      t = { s with queue := rest, running := some p, place := .starting p }) ∨
    (∃ p, l = .begin ∧ s.place = .starting p ∧
      t = { s with place := .turn p, current := p.turnId }) ∨
    (∃ p stop err out, l = .turnFinished stop err ∧ s.place = .returned p ∧
      t = { s with
        place := .closing p, out
        emitted := s.emitted ++ [⟨s.out.last + 1, p.turnId, .turnFinished stop err, 1⟩] }) ∨
    (l = .finish ∧ s.place = .finish ∧
      t = { s with queue := [], finished := true, place := .drain s.queue }) ∨
    (∃ p rest out, l = .drain ∧ s.place = .drain (p :: rest) ∧
      t = { s with
        place := .drain rest, out
        emitted := s.emitted ++ [⟨s.out.last + 1, p.turnId,
          .turnFinished "" "the agent exited before this turn ran", 1⟩] }) := by
  cases l with
  | nextTurn =>
    simp only [Session.step] at h
    split at h
    next hp =>
      split at h
      · obtain rfl := Option.some.inj h
        exact .inl ⟨⟨rfl, rfl, rfl, by rw [hp]; rfl, by rw [hp]; rfl, by rw [hp]; rfl, rfl⟩, rfl⟩
      · split at h
        next p rest hq =>
          obtain rfl := Option.some.inj h
          exact .inr (.inl ⟨p, rest, rfl, hp, hq, rfl⟩)
        next => cases h
    next => cases h
  | begin =>
    simp only [Session.step] at h
    split at h
    next p hp =>
      obtain rfl := Option.some.inj h
      exact .inr (.inr (.inl ⟨p, rfl, hp, rfl⟩))
    next => cases h
  | turnFinished stop err =>
    simp only [Session.step] at h
    split at h
    next p hp =>
      obtain ⟨out, rfl⟩ := emit_eq h
      exact .inr (.inr (.inr (.inl ⟨p, stop, err, out, rfl, hp, rfl⟩)))
    next => cases h
  | finish =>
    simp only [Session.step] at h
    split at h
    next hp =>
      split at h
      · obtain rfl := Option.some.inj h
        exact .inr (.inr (.inr (.inr (.inl ⟨rfl, hp, rfl⟩))))
      · cases h
    next => cases h
  | drain =>
    simp only [Session.step] at h
    split at h
    next p rest hp =>
      obtain ⟨out, rfl⟩ := emit_eq h
      exact .inr (.inr (.inr (.inr (.inr ⟨p, rest, out, rfl, hp, rfl⟩))))
    next => cases h
  | opened | openFailed | usage | exitEvent | returned | clear =>
    -- These stand at one place and go on to another that has the same turns.
    left
    simp only [Session.step] at h
    split at h
    next hp =>
      first
        | obtain ⟨out, rfl⟩ := emit_eq h
        | obtain rfl := Option.some.inj h
      constructor
      · constructor <;> simp [hp, Place.openTurns, Place.taken, Place.finished,
          AgentPayload.isTurnFinished]
      · rfl
    next => cases h
  | exit | drained | dropPermission =>
    obtain rfl := Option.some.inj h
    exact .inl ⟨⟨rfl, rfl, rfl, rfl, rfl, rfl, rfl⟩, rfl⟩
  | update payload size =>
    left
    simp only [Session.step] at h
    split at h
    next hup =>
      obtain ⟨out, rfl⟩ := emit_eq h
      have hnot : payload.isTurnFinished = false := by
        cases payload <;> first | rfl | simp [Session.isUpdate] at hup
      refine ⟨⟨rfl, rfl, rfl, rfl, rfl, rfl, ?_⟩, rfl⟩
      simp [hnot]
    next => cases h
  | ask req | addPermission req =>
    simp only [Session.step] at h
    split at h
    · obtain rfl := Option.some.inj h
      exact .inl ⟨⟨rfl, rfl, rfl, rfl, rfl, rfl, rfl⟩, rfl⟩
    · cases h
  | emitPermission req =>
    simp only [Session.step] at h
    split at h
    · obtain ⟨out, rfl⟩ := emit_eq h
      refine .inl ⟨⟨rfl, rfl, rfl, rfl, rfl, rfl, ?_⟩, rfl⟩
      simp [AgentPayload.isTurnFinished]
    · cases h

section

variable {name : ℕ → String} {x : Turns}

theorem Ordered.idle (h : Ordered name x) {t : Session} (hi : Idle x.session t) :
    Ordered name { x with session := t } where
  named := h.named
  increasing := h.increasing
  bounded p hp := by
    show p.turnSeq ≤ t.lastTurnSeq
    rw [hi.lastTurnSeq]
    exact h.bounded p hp
  closed := by
    show finishedIds t.emitted ++ (t.place.openTurns ++ t.queue).map Prompt.turnId = _
    rw [hi.finishedIds, hi.openTurns, hi.queue]
    exact h.closed
  begun hf := by
    show x.accepted = x.started ++ t.place.taken ++ t.queue
    rw [hi.taken, hi.queue]
    exact h.begun (hi.finished ▸ hf)
  started := h.started
  finished := by
    show t.finished = t.place.finished
    rw [hi.finished, hi.placeFinished]
    exact h.finished
  queue hf := by
    show t.queue = []
    rw [hi.queue]
    exact h.queue (hi.finished ▸ hf)

theorem Ordered.unfinished (h : Ordered name x) {q : Place} (hp : x.session.place = q)
    (hq : q.finished = false) : x.session.finished = false := by
  rw [h.finished, hp, hq]

theorem Ordered.own (h : Ordered name x) {t : Session} (hs : x.session.step l = some t) :
    Ordered name { x with session := t, started := x.started ++ Turns.starts x.session l } := by
  obtain ⟨hi, hst⟩ | ⟨p, rest, rfl, hp, hq, rfl⟩ | ⟨p, rfl, hp, rfl⟩ |
    ⟨p, stop, err, out, rfl, hp, rfl⟩ | ⟨rfl, hp, rfl⟩ | ⟨p, rest, out, rfl, hp, rfl⟩ :=
    step_turns hs
  · rw [hst, List.append_nil]
    exact h.idle hi
  · -- `nextTurn` moves the head of the queue to the place.
    have hf := h.unfinished hp rfl
    have hc := h.closed
    have hb := h.begun hf
    simp only [Session.openTurns, hp, hq, Place.openTurns, Place.taken, List.nil_append,
      List.append_nil] at hc hb
    refine ⟨h.named, h.increasing, h.bounded,
      by simpa [Session.openTurns, Place.openTurns] using hc,
      fun _ => by simpa [Turns.starts, Place.taken] using hb,
      by simpa [Turns.starts] using h.started, hf, fun hf' => ?_⟩
    rw [hf] at hf'
    cases hf'
  · -- `runTurn` begins the turn it was given.
    have hf := h.unfinished hp rfl
    have hc := h.closed
    have hb := h.begun hf
    simp only [Session.openTurns, hp, Place.openTurns, Place.taken] at hc hb
    refine ⟨h.named, h.increasing, h.bounded, hc, fun _ => ?_, ?_, hf, h.queue⟩
    · simpa [Turns.starts, hp, Place.taken] using hb
    · show x.started ++ Turns.starts x.session .begin <+: x.accepted
      rw [hb, Turns.starts, hp]
      exact List.prefix_append _ _
  · -- The open turn becomes the last finished one.
    have hf := h.unfinished hp rfl
    have hc := h.closed
    have hb := h.begun hf
    simp only [Session.openTurns, hp, Place.openTurns, Place.taken] at hc hb
    refine ⟨h.named, h.increasing, h.bounded, ?_,
      fun _ => by simpa [Turns.starts, Place.taken] using hb,
      by simpa [Turns.starts] using h.started, hf, h.queue⟩
    simpa [Session.openTurns, Place.openTurns, AgentPayload.isTurnFinished] using hc
  · -- `finish` takes the queue; from here on no prompt is accepted.
    have hc := h.closed
    simp only [Session.openTurns, hp, Place.openTurns] at hc
    refine ⟨h.named, h.increasing, h.bounded, ?_, nofun, by simpa [Turns.starts] using h.started,
      rfl, fun _ => rfl⟩
    simpa [Session.openTurns, Place.openTurns] using hc
  · have hf : x.session.finished = true := by rw [h.finished, hp]; rfl
    have hc := h.closed
    have hq := h.queue hf
    simp only [Session.openTurns, hp, hq, Place.openTurns] at hc
    refine ⟨h.named, h.increasing, h.bounded, ?_,
      fun hf' => ?_, by simpa [Turns.starts] using h.started, hf, h.queue⟩
    · simpa [Session.openTurns, hq, Place.openTurns, AgentPayload.isTurnFinished] using hc
    · rw [hf] at hf'
      cases hf'

theorem Ordered.command (h : Ordered name x) {c : Command}
    (hc : Runner.named name x (.command c)) :
    Ordered name { x with
      session := x.session.command c, accepted := x.accepted ++ Turns.accepts x.session c } := by
  cases c with
  | permission d =>
    show Ordered name { x with session := x.session.decide d, accepted := x.accepted ++ [] }
    rw [List.append_nil]
    exact h.idle ⟨rfl, rfl, rfl, rfl, rfl, rfl, rfl⟩
  | prompt p =>
    by_cases hacc : x.session.accepts p = true
    · have ⟨hf, hlt⟩ : x.session.finished = false ∧ x.session.lastTurnSeq < p.turnSeq := by
        simpa [Session.accepts] using hacc
      have hsess : x.session.command (.prompt p) =
          { x.session with lastTurnSeq := p.turnSeq, queue := x.session.queue ++ [p] } := by
        simp [Session.command, Session.prompt, hf, Nat.not_le.mpr hlt]
      have hadd : Turns.accepts x.session (.prompt p) = [p] := by simp [Turns.accepts, hacc]
      rw [hsess, hadd]
      have hold : ∀ q ∈ x.accepted, q.turnSeq < p.turnSeq := by
        intro q hq
        have := h.bounded q hq
        omega
      refine ⟨?_, ?_, ?_, ?_, fun _ => ?_, ?_, h.finished, fun hf' => ?_⟩
      · intro q hq
        obtain hq | hq := List.mem_append.mp hq
        · exact h.named q hq
        · obtain rfl := List.mem_singleton.mp hq
          exact hc
      · rw [List.pairwise_append]
        refine ⟨h.increasing, List.pairwise_singleton _ _, ?_⟩
        intro q hq r hr
        obtain rfl := List.mem_singleton.mp hr
        exact hold q hq
      · intro q hq
        obtain hq | hq := List.mem_append.mp hq
        · exact Nat.le_of_lt (hold q hq)
        · obtain rfl := List.mem_singleton.mp hq
          exact Nat.le_refl _
      · have hcl := h.closed
        simp only [Session.openTurns, List.map_append] at hcl
        show finishedIds x.session.emitted ++
          (x.session.place.openTurns ++ (x.session.queue ++ [p])).map Prompt.turnId = _
        simp only [List.map_append, ← hcl, List.append_assoc]
      · show x.accepted ++ [p] = x.started ++ x.session.place.taken ++ (x.session.queue ++ [p])
        rw [h.begun hf, List.append_assoc _ x.session.queue]
      · exact h.started.trans (List.prefix_append _ _)
      · rw [hf] at hf'
        cases hf'
    · have hsess : x.session.command (.prompt p) = x.session := by
        show x.session.prompt p = _
        unfold Session.prompt
        split
        · rfl
        · rename_i hf
          rw [if_pos]
          by_contra hlt
          apply hacc
          simp only [Session.accepts, Bool.and_eq_true, Bool.not_eq_true', decide_eq_true_eq]
          exact ⟨by simpa using hf, by omega⟩
      have hadd : Turns.accepts x.session (.prompt p) = [] := by simp [Turns.accepts, hacc]
      rw [hsess, hadd, List.append_nil]
      exact h

end

/-! ## What events carry -/

theorem Tidy.same {s t : Session} (h : Tidy s) (hcur : t.current = s.current)
    (hplace : t.place = s.place) (hhand : t.handlers ⊆ s.handlers) (hem : t.emitted = s.emitted)
    (hdr : s.drained = true → t.drained = true) : Tidy t where
  current := by
    rw [hcur, hplace]
    exact h.current
  handlers req hreq := by
    rw [hplace]
    exact h.handlers req (hhand hreq)
  last := by
    rw [hem]
    exact h.last
  exited := by
    rw [hem, hplace]
    exact h.exited
  quiet hd := by
    have hq := h.quiet (hplace ▸ hd)
    refine ⟨hdr hq.1, List.eq_nil_of_subset_nil ?_⟩
    rw [← hq.2]
    exact hhand

/-- An event of a turn that is not finished, before the exit. -/
theorem Tidy.append {s t : Session} (h : Tidy s) {ev : AgentEvent}
    (hem : t.emitted = s.emitted ++ [ev]) (hnot : isExited ev = false)
    (hturn : ev.turnId ∉ finishedIds s.emitted) (hs : s.place ≠ .done) (ht : t.place ≠ .done)
    (hcur : t.current = "" ∨ ∃ p, t.place = .turn p ∧ t.current = p.turnId)
    (hhand : ∀ req ∈ t.handlers,
      req.turnId = "" ∨ ∃ p, t.place.begun = some p ∧ req.turnId = p.turnId) : Tidy t where
  current := hcur
  handlers := hhand
  last := by
    rw [hem]
    exact h.last.snoc hturn (h.not_exited hs)
  exited := by
    rw [hem]
    refine ⟨fun ⟨e, he, hx⟩ => ?_, fun hd => (ht hd).elim⟩
    obtain he | he := List.mem_append.mp he
    · rw [h.not_exited hs e he] at hx
      cases hx
    · obtain rfl := List.mem_singleton.mp he
      rw [hnot] at hx
      cases hx
  quiet hd := (ht hd).elim

section

variable {name : ℕ → String} {x : Turns}

/-- The turn of `agg.Current()` is none or is not finished. -/
theorem Ordered.current_fresh (ho : Ordered name x) (h : Tidy x.session)
    (hname : Function.Injective name) (hne : ∀ n, name n ≠ "") :
    x.session.current ∉ finishedIds x.session.emitted := by
  obtain hc | ⟨p, hp, hc⟩ := h.current
  · rw [hc]
    exact ho.empty_fresh hne
  · rw [hc]
    exact ho.open_fresh hname (mem_openTurns (by rw [hp]; rfl))

/-- So is the turn that a handler of `RequestPermission` has read. -/
theorem Ordered.handler_fresh (ho : Ordered name x) (h : Tidy x.session)
    (hname : Function.Injective name) (hne : ∀ n, name n ≠ "") {req : PermissionRequest}
    (hreq : req ∈ x.session.handlers) : req.turnId ∉ finishedIds x.session.emitted := by
  obtain hc | ⟨p, hp, hc⟩ := h.handlers req hreq
  · rw [hc]
    exact ho.empty_fresh hne
  · rw [hc]
    exact ho.open_fresh hname (mem_openTurns hp)

/-- Outside of a turn that was begun, what is read is no turn. -/
theorem Tidy.idle_current {s : Session} (h : Tidy s) (hp : s.place.begun = none) :
    s.current = "" := by
  obtain hc | ⟨p, hp', -⟩ := h.current
  · exact hc
  · rw [hp'] at hp
    cases hp

theorem Tidy.idle_handlers {s : Session} (h : Tidy s) (hp : s.place.begun = none) :
    ∀ req ∈ s.handlers, req.turnId = "" := by
  intro req hreq
  obtain hc | ⟨p, hp', -⟩ := h.handlers req hreq
  · exact hc
  · rw [hp] at hp'
    cases hp'

/-- `run` goes on between two turns, without an event. -/
theorem Tidy.move {s t : Session} (h : Tidy s) (hcur : t.current = s.current)
    (hhand : t.handlers = s.handlers) (hem : t.emitted = s.emitted) (hb : s.place.begun = none)
    (hs : s.place ≠ .done) (ht : t.place ≠ .done) : Tidy t where
  current := .inl (hcur ▸ h.idle_current hb)
  handlers req hreq := .inl (h.idle_handlers hb req (hhand ▸ hreq))
  last := by
    rw [hem]
    exact h.last
  exited := by
    rw [hem, h.exited]
    exact ⟨fun hd => (hs hd).elim, fun hd => (ht hd).elim⟩
  quiet hd := (ht hd).elim

theorem Tidy.own (h : Tidy x.session) (ho : Ordered name x) (hname : Function.Injective name)
    (hne : ∀ n, name n ≠ "") {t : Session} (hok : settled x.session l)
    (hs : x.session.step l = some t) : Tidy t := by
  cases l with
  | opened | openFailed =>
    simp only [Session.step] at hs
    split at hs
    next hp =>
      have hb : x.session.place.begun = none := by rw [hp]; rfl
      obtain ⟨out, rfl⟩ := emit_eq hs
      refine h.append rfl rfl (ho.empty_fresh hne) (by rw [hp]; nofun) nofun
        (.inl (h.idle_current hb)) fun req hreq => .inl (h.idle_handlers hb req hreq)
    next => cases hs
  | exit | drained =>
    obtain rfl := Option.some.inj hs
    exact h.same rfl rfl (List.Subset.refl _) rfl (by simp)
  | dropPermission =>
    obtain rfl := Option.some.inj hs
    exact h.same rfl rfl (List.Subset.refl _) rfl id
  | nextTurn =>
    simp only [Session.step] at hs
    split at hs
    next hp =>
      have hb : x.session.place.begun = none := by rw [hp]; rfl
      have hdone : x.session.place ≠ .done := by rw [hp]; nofun
      split at hs
      · obtain rfl := Option.some.inj hs
        exact h.move rfl rfl rfl hb hdone nofun
      · split at hs
        · obtain rfl := Option.some.inj hs
          exact h.move rfl rfl rfl hb hdone nofun
        · cases hs
    next => cases hs
  | begin =>
    simp only [Session.step] at hs
    split at hs
    next p hp =>
      have hhand := h.idle_handlers (by rw [hp]; rfl)
      have hx := h.exited
      rw [hp] at hx
      obtain rfl := Option.some.inj hs
      exact ⟨.inr ⟨p, rfl, rfl⟩, fun req hreq => .inl (hhand req hreq), h.last, by simpa using hx,
        nofun⟩
    next => cases hs
  | update payload size =>
    simp only [Session.step] at hs
    split at hs
    next hup =>
      simp only [Bool.and_eq_true, Bool.not_eq_true'] at hup
      have hdone : x.session.place ≠ .done := by
        intro hd
        have := (h.quiet hd).1
        rw [hup.2] at this
        cases this
      have hnot : ∀ n, isExited ⟨n, x.session.current, payload, size⟩ = false := by
        intro n
        cases payload <;> first | rfl | simp [Session.isUpdate] at hup
      obtain ⟨out, rfl⟩ := emit_eq hs
      exact h.append rfl (hnot _) (ho.current_fresh h hname hne) hdone hdone h.current h.handlers
    next => cases hs
  | ask req =>
    simp only [Session.step] at hs
    split at hs
    next hcond =>
      simp only [Bool.and_eq_true, decide_eq_true_eq, Bool.not_eq_true'] at hcond
      obtain rfl := Option.some.inj hs
      refine ⟨h.current, fun r hr => ?_, h.last, h.exited, fun hd => ?_⟩
      · simp only [Session.handlers, List.append_assoc, List.mem_append, List.mem_singleton] at hr
        obtain hr | rfl | hr := hr
        · exact h.handlers r (List.mem_append_left _ hr)
        · rw [hcond.1]
          obtain hc | ⟨p, hp, hc⟩ := h.current
          · exact .inl hc
          · exact .inr ⟨p, by rw [hp]; rfl, hc⟩
        · exact h.handlers r (List.mem_append_right _ hr)
      · have := (h.quiet hd).1
        rw [hcond.2] at this
        cases this
    next => cases hs
  | addPermission req =>
    simp only [Session.step] at hs
    split at hs
    next hmem =>
      obtain rfl := Option.some.inj hs
      refine h.same rfl rfl ?_ rfl id
      -- The request only moves from one list of handlers to the other.
      intro r hr
      simp only [Session.handlers, List.mem_append, List.mem_singleton] at hr ⊢
      obtain hr | hr | rfl := hr
      · exact .inl (List.mem_of_mem_erase hr)
      · exact .inr hr
      · exact .inl hmem
    next => cases hs
  | emitPermission req =>
    simp only [Session.step] at hs
    split at hs
    next hmem =>
      have hreq : req ∈ x.session.handlers := List.mem_append_right _ hmem
      have hdone : x.session.place ≠ .done := by
        intro hd
        rw [(h.quiet hd).2] at hreq
        cases hreq
      obtain ⟨out, rfl⟩ := emit_eq hs
      refine h.append rfl rfl (ho.handler_fresh h hname hne hreq) hdone hdone h.current
        fun r hr => h.handlers r ?_
      obtain hr | hr := List.mem_append.mp hr
      · exact List.mem_append_left _ hr
      · exact List.mem_append_right _ (List.mem_of_mem_erase hr)
    next => cases hs
  | returned =>
    simp only [Session.step] at hs
    split at hs
    next p hp =>
      have hhand := h.handlers
      have hx := h.exited
      rw [hp] at hhand hx
      obtain rfl := Option.some.inj hs
      exact ⟨.inl rfl, hhand, h.last, by simpa using hx, nofun⟩
    next => cases hs
  | usage u =>
    simp only [Session.step] at hs
    split at hs
    next p hp =>
      have hdone : x.session.place ≠ .done := by rw [hp]; nofun
      have hopen := ho.open_fresh hname (mem_openTurns (s := x.session) (p := p) (by rw [hp]; rfl))
      obtain ⟨out, rfl⟩ := emit_eq hs
      exact h.append rfl rfl hopen hdone hdone h.current h.handlers
    next => cases hs
  | turnFinished stop err =>
    simp only [Session.step] at hs
    split at hs
    next p hp =>
      have hopen := ho.open_fresh hname (mem_openTurns (s := x.session) (p := p) (by rw [hp]; rfl))
      have hcur : x.session.current = "" := by
        obtain hc | ⟨q, hq, -⟩ := h.current
        · exact hc
        · rw [hp] at hq
          cases hq
      obtain ⟨out, rfl⟩ := emit_eq hs
      refine h.append rfl rfl hopen (by rw [hp]; nofun) nofun (.inl hcur) fun req hreq => .inl ?_
      -- The handlers that read this turn have appended their events.
      obtain hc | ⟨q, hq, hc⟩ := h.handlers req hreq
      · exact hc
      · exact (hok q (by simp [hq]) req hreq hc).elim
    next => cases hs
  | clear =>
    simp only [Session.step] at hs
    split at hs
    next p hp =>
      have hb : x.session.place.begun = none := by rw [hp]; rfl
      have hdone : x.session.place ≠ .done := by rw [hp]; nofun
      obtain rfl := Option.some.inj hs
      exact h.move rfl rfl rfl hb hdone nofun
    next => cases hs
  | finish =>
    simp only [Session.step] at hs
    split at hs
    next hp =>
      have hb : x.session.place.begun = none := by rw [hp]; rfl
      have hdone : x.session.place ≠ .done := by rw [hp]; nofun
      split at hs
      · obtain rfl := Option.some.inj hs
        exact h.move rfl rfl rfl hb hdone nofun
      · cases hs
    next => cases hs
  | drain =>
    simp only [Session.step] at hs
    split at hs
    next p rest hp =>
      have hb : x.session.place.begun = none := by rw [hp]; rfl
      have hopen := ho.open_fresh hname (p := p)
        (List.mem_append_left _ (by rw [hp]; exact List.mem_cons_self))
      obtain ⟨out, rfl⟩ := emit_eq hs
      exact h.append rfl rfl hopen (by rw [hp]; nofun) nofun (.inl (h.idle_current hb))
        fun req hreq => .inl (h.idle_handlers hb req hreq)
    next => cases hs
  | exitEvent code =>
    simp only [Session.step] at hs
    split at hs
    next hp =>
      have hb : x.session.place.begun = none := by rw [hp]; rfl
      have hnot := h.not_exited (by rw [hp]; nofun)
      obtain ⟨out, rfl⟩ := emit_eq hs
      refine ⟨.inl (h.idle_current hb), fun req hreq => .inl (h.idle_handlers hb req hreq),
        h.last.snoc (ho.empty_fresh hne) hnot, ⟨fun _ => rfl, fun _ => ?_⟩, fun _ => hok⟩
      exact ⟨_, List.mem_append_right _ (List.mem_singleton_self _), rfl⟩
    next => cases hs

end

/-! ## The outbox is open once the process exited -/

/-- `watchExit` releases the outbox, and nothing closes it again. -/
def Released (s : Session) : Prop := s.exited = true → s.out.opened = true

theorem emit_released {s t : Session} {turnId : String} {payload : AgentPayload} {urgent : Bool}
    {size : ℕ} (h : Released s) (he : s.emit turnId payload urgent size = some t) : Released t := by
  unfold Session.emit Outbox.append at he
  split at he
  · cases he
  · obtain rfl := Option.some.inj he
    exact h

theorem Released.own {s t : Session} (h : Released s) (hs : s.step l = some t) : Released t := by
  cases l <;> simp only [Session.step] at hs <;> (repeat' split at hs) <;>
    first
    | exact emit_released (by exact h) hs
    | (obtain rfl := Option.some.inj hs; first | exact h | exact fun _ => rfl)
    | cases hs

theorem ack_opened (o : Outbox) (n : ℕ) : (o.ack n).opened = o.opened := by
  unfold Outbox.ack
  split <;> rfl

theorem Released.command {s : Session} (h : Released s) (c : Command) :
    Released (s.command c) := by
  cases c with
  | permission d => exact h
  | prompt p =>
    show Released (s.prompt p)
    unfold Session.prompt
    split
    · exact h
    · split <;> exact h

/-! ## Runs -/

/-- What holds in every state that is reached. -/
structure Kept (name : ℕ → String) (x : Turns) : Prop where
  ordered : Ordered name x
  tidy : Tidy x.session
  released : Released x.session

theorem Kept.init (name : ℕ → String) (max : ℕ) : Kept name (.init max) where
  ordered := ⟨nofun, .nil, nofun, rfl, fun _ => rfl, List.prefix_rfl, rfl, nofun⟩
  tidy := ⟨.inl rfl, nofun, ⟨.nil, .nil⟩, ⟨nofun, nofun⟩, nofun⟩
  released := nofun

section

variable {name : ℕ → String} {x y : Turns}

theorem Kept.step (h : Kept name x) (hname : Function.Injective name) (hne : ∀ n, name n ≠ "")
    {i : Input} (hok : orderly name x i) (hs : x.step i = some y) : Kept name y := by
  cases i with
  | own l =>
    simp only [Turns.step, Option.map_eq_some_iff] at hs
    obtain ⟨t, ht, rfl⟩ := hs
    exact ⟨h.ordered.own ht, h.tidy.own h.ordered hname hne hok ht, h.released.own ht⟩
  | command c =>
    obtain rfl := Option.some.inj hs
    refine ⟨h.ordered.command hok, ?_, h.released.command c⟩
    cases c with
    | permission d => exact h.tidy.same rfl rfl (List.Subset.refl _) rfl id
    | prompt p =>
      show Tidy (x.session.prompt p)
      unfold Session.prompt
      split
      · exact h.tidy
      · split
        · exact h.tidy
        · exact h.tidy.same rfl rfl (List.Subset.refl _) rfl id
  | ack n =>
    obtain rfl := Option.some.inj hs
    refine ⟨h.ordered.idle ⟨rfl, rfl, rfl, rfl, rfl, rfl, rfl⟩,
      h.tidy.same rfl rfl (List.Subset.refl _) rfl id, fun hx => ?_⟩
    show (x.session.out.ack n).opened = true
    rw [ack_opened]
    exact h.released hx

theorem kept_of_reach {max : ℕ} (hname : Function.Injective name) (hne : ∀ n, name n ≠ "")
    (h : Reach Turns.step (orderly name) (.init max) x) : Kept name x :=
  h.invariant (Kept name) (Kept.init name max) fun hk hok hs => hk.step hname hne hok hs

theorem Kept.turnsClosed (h : Kept name x) (hname : Function.Injective name) : TurnsClosed x where
  increasing := h.ordered.increasing.sublist h.ordered.started.sublist
  once := (h.ordered.nodup hname).sublist (h.ordered.started.sublist.map _)
  accepted := h.ordered.started.subset
  finishedOnce := by
    have hnodup := h.ordered.nodup hname
    rw [← h.ordered.closed] at hnodup
    exact hnodup.of_append_left
  finished hd := by
    have hf : x.session.finished = true := by
      rw [h.ordered.finished, hd]
      rfl
    have hc := h.ordered.closed
    unfold Session.openTurns at hc
    rw [hd, h.ordered.queue hf] at hc
    simpa [Place.openTurns] using hc
  finishedLast := h.tidy.last.finished
  exitedLast := h.tidy.last.exited
  exited := h.tidy.exited.mpr

end

/-! ## The end is reached -/

/-- The process exited, its output is drained and no handler is left to append. -/
structure Spent (s : Session) : Prop where
  exited : s.exited = true
  drained : s.drained = true
  handlers : s.handlers = []

/-- `run` can come to its end from here. -/
def Ends (s : Session) : Prop := ∃ t, Reach Session.step settled s t ∧ t.place = .done

section

variable {s t : Session}

theorem Ends.head (hs : s.step l = some t) (hok : settled s l) (h : Ends t) : Ends s := by
  obtain ⟨u, hu, hd⟩ := h
  exact ⟨u, Reach.head hok hs hu, hd⟩

/-- An urgent event is never held back. -/
theorem Spent.emit (h : Spent s) (turnId : String) (payload : AgentPayload) :
    ∃ t, s.emit turnId payload true = some t ∧ Spent t ∧ t.place = s.place := by
  unfold Session.emit Outbox.append
  exact ⟨_, rfl, ⟨h.exited, h.drained, h.handlers⟩, rfl⟩

theorem ends_drain (queued : List Prompt) :
    ∀ s, Spent s → s.place = .drain queued → Ends s := by
  induction queued with
  | nil =>
    intro s h hp
    have hdone : Spent { s with place := .done } := ⟨h.exited, h.drained, h.handlers⟩
    obtain ⟨t, ht, -, hpl⟩ := hdone.emit "" (.exited 0)
    have hs : s.step (.exitEvent 0) = some t := by
      simp only [Session.step, hp]
      exact ht
    exact Ends.head hs ⟨h.drained, h.handlers⟩ ⟨t, .refl, hpl⟩
  | cons p rest ih =>
    intro s h hp
    have hrest : Spent { s with place := .drain rest } := ⟨h.exited, h.drained, h.handlers⟩
    obtain ⟨t, ht, hsp, hpl⟩ := hrest.emit p.turnId
      (.turnFinished "" "the agent exited before this turn ran")
    have hs : s.step .drain = some t := by
      simp only [Session.step, hp]
      exact ht
    exact Ends.head hs trivial (ih t hsp hpl)

theorem ends_finish (h : Spent s) (hp : s.place = .finish) : Ends s := by
  have hs : s.step .finish = some { s with
      queue := [], finished := true, place := .drain s.queue } := by
    simp only [Session.step, hp, h.exited, if_true]
  exact Ends.head hs trivial (ends_drain s.queue _ ⟨h.exited, h.drained, h.handlers⟩ rfl)

/-- `nextTurn` sees the exit before it looks at the queue. -/
theorem ends_waiting (h : Spent s) (hp : s.place = .waiting) : Ends s := by
  have hs : s.step .nextTurn = some { s with place := .finish } := by
    simp only [Session.step, hp, h.exited, if_true]
  exact Ends.head hs trivial (ends_finish ⟨h.exited, h.drained, h.handlers⟩ rfl)

theorem ends_opening (h : Spent s) (hp : s.place = .opening) : Ends s := by
  have hf : Spent { s with place := .finish } := ⟨h.exited, h.drained, h.handlers⟩
  obtain ⟨t, ht, hsp, hpl⟩ := hf.emit "" (.sessionFailed "" false)
  have hs : s.step (.openFailed "" false) = some t := by
    simp only [Session.step, hp]
    exact ht
  exact Ends.head hs trivial (ends_finish hsp hpl)

theorem ends_closing (h : Spent s) (hp : s.place = .closing p) : Ends s := by
  have hs : s.step .clear = some { s with running := none, place := .waiting } := by
    simp only [Session.step, hp]
  exact Ends.head hs trivial (ends_waiting ⟨h.exited, h.drained, h.handlers⟩ rfl)

theorem ends_returned (h : Spent s) (hp : s.place = .returned p) : Ends s := by
  have hf : Spent { s with place := .closing p } := ⟨h.exited, h.drained, h.handlers⟩
  obtain ⟨t, ht, hsp, hpl⟩ := hf.emit p.turnId (.turnFinished "" "")
  have hs : s.step (.turnFinished "" "") = some t := by
    simp only [Session.step, hp]
    exact ht
  have hok : settled s (.turnFinished "" "") := by
    intro q _ req hreq
    rw [h.handlers] at hreq
    cases hreq
  exact Ends.head hs hok (ends_closing hsp hpl)

theorem ends_turn (h : Spent s) (hp : s.place = .turn p) : Ends s := by
  have hs : s.step .returned = some { s with place := .returned p, current := "" } := by
    simp only [Session.step, hp]
  exact Ends.head hs trivial (ends_returned ⟨h.exited, h.drained, h.handlers⟩ rfl)

theorem ends_starting (h : Spent s) (hp : s.place = .starting p) : Ends s := by
  have hs : s.step .begin = some { s with place := .turn p, current := p.turnId } := by
    simp only [Session.step, hp]
  exact Ends.head hs trivial (ends_turn ⟨h.exited, h.drained, h.handlers⟩ rfl)

theorem Spent.ends (h : Spent s) : Ends s := by
  cases hp : s.place with
  | opening => exact ends_opening h hp
  | waiting => exact ends_waiting h hp
  | starting p => exact ends_starting h hp
  | turn p => exact ends_turn h hp
  | returned p => exact ends_returned h hp
  | closing p => exact ends_closing h hp
  | finish => exact ends_finish h hp
  | drain queued => exact ends_drain queued s h hp
  | done => exact ⟨s, .refl, hp⟩

/-- The handlers that have added their request append their events. -/
theorem ends_unsent (unsent : List PermissionRequest) :
    ∀ s : Session, s.exited = true → s.out.opened = true → s.drained = true → s.asking = [] →
      s.unsent = unsent → Ends s := by
  induction unsent with
  | nil =>
    intro s hx _ hd ha hu
    exact Spent.ends ⟨hx, hd, by simp [Session.handlers, ha, hu]⟩
  | cons req rest ih =>
    intro s hx ho hd ha hu
    have hs : ∃ t, s.step (.emitPermission req) = some t ∧ t.exited = true ∧ t.out.opened = true ∧
        t.drained = true ∧ t.asking = [] ∧ t.unsent = rest := by
      simp only [Session.step, hu, List.mem_cons_self, if_true, List.erase_cons_head, Session.emit,
        Outbox.append, ho, Bool.not_true, Bool.and_false, Bool.false_and]
      exact ⟨_, rfl, hx, rfl, hd, ha, rfl⟩
    obtain ⟨t, ht, hx', ho', hd', ha', hu'⟩ := hs
    exact Ends.head ht trivial (ih t hx' ho' hd' ha' hu')

/-- And so do those that have only read the turn. -/
theorem ends_asking (asking : List PermissionRequest) :
    ∀ s : Session, s.exited = true → s.out.opened = true → s.drained = true →
      s.asking = asking → Ends s := by
  induction asking with
  | nil =>
    intro s hx ho hd ha
    exact ends_unsent s.unsent s hx ho hd ha rfl
  | cons req rest ih =>
    intro s hx ho hd ha
    have hs : s.step (.addPermission req) = some { s with
        asking := rest, perms := s.perms ++ [req], unsent := s.unsent ++ [req] } := by
      simp only [Session.step, ha, List.mem_cons_self, if_true, List.erase_cons_head]
    exact Ends.head hs trivial (ih _ hx ho hd rfl)

theorem ends_of_exited (h : Released s) (hx : s.exited = true) : Ends s := by
  have hs : s.step .drained = some { s with drained := true } := rfl
  exact Ends.head hs trivial (ends_asking s.asking _ hx (h hx) rfl rfl)

end

/-- The steps of the session are steps of the whole. -/
theorem reach_of_session (name : ℕ → String) {x : Turns} {t : Session}
    (h : Reach Session.step settled x.session t) :
    ∃ y, Reach Turns.step (orderly name) x y ∧ y.session = t := by
  induction h with
  | refl => exact ⟨x, .refl, rfl⟩
  | @tail t u l _ hok hs ih =>
    obtain ⟨y, hy, rfl⟩ := ih
    have hy' : y.step (.own l) =
        some { y with session := u, started := y.started ++ Turns.starts y.session l } := by
      simp only [Turns.step, hs, Option.map_some]
    exact ⟨_, Reach.tail (l := .own l) hy hok hy', rfl⟩

/-- In every run in which the events that end a turn or the session wait for the handlers, the
turns are run one at a time and closed, and once the process exited the end is reached. -/
theorem turns_closed (name : ℕ → String) (hname : Function.Injective name)
    (hne : ∀ n, name n ≠ "") (max : ℕ) (x : Turns)
    (h : Reach Turns.step (orderly name) (.init max) x) :
    TurnsClosed x ∧ (x.session.exited = true →
      ∃ y, Reach Turns.step (orderly name) x y ∧ y.session.place = .done) := by
  have hk := kept_of_reach hname hne h
  refine ⟨hk.turnsClosed hname, fun hx => ?_⟩
  obtain ⟨t, ht, hd⟩ := ends_of_exited hk.released hx
  obtain ⟨y, hy, rfl⟩ := reach_of_session name ht
  exact ⟨y, hy, hd⟩

/-! ## Runs with handlers that are overtaken -/

theorem turnName_injective : Function.Injective turnName := by
  intro m n h
  have hrepr : m.repr = n.repr := (String.append_right_inj _).mp h
  rw [Nat.repr_eq_ofList_toDigits, Nat.repr_eq_ofList_toDigits, String.ofList_inj] at hrepr
  rw [← Nat.ofDigitChars_ten_toDigits (n := m), hrepr, Nat.ofDigitChars_ten_toDigits]

theorem turnName_ne_empty (n : ℕ) : turnName n ≠ "" := by
  intro h
  have := congrArg String.length h
  simp [turnName, String.length_append] at this

/-- The first turn asks for a permission. -/
def request : PermissionRequest := ⟨"call-1", "call-1", "t1", "Write a file", []⟩

/-- The first turn begins and `RequestPermission` has read it. -/
def asked : List Input :=
  [.own (.opened "acp" true), .command (.prompt ⟨"t1", 1, "hello"⟩), .own .nextTurn, .own .begin,
   .own (.ask request), .own (.addPermission request)]

/-- The ACP call fails before the request is appended. -/
def overtaken : List Input :=
  asked ++ ([.own .returned, .own (.turnFinished "" "acp prompt: connection closed"),
    .own (.emitPermission request)] : List Input)

/-- The process exits, and its last message is read from the pipe after `finish`. -/
def drainedLate : List Input :=
  [.own (.opened "acp" true), .own .exit, .own .nextTurn, .own .finish, .own (.exitEvent 0),
   .own (.update (.message "m1" "bye" true) 1)]

/-- The same turn with its request appended in time, up to the exit. -/
def inTime : List Input :=
  asked ++ ([.own (.emitPermission request), .command (.prompt ⟨"t2", 2, "more"⟩),
    .command (.prompt ⟨"t1", 1, "hello"⟩), .own .returned,
    .own (.turnFinished "end_turn" ""), .own .clear, .own .exit, .own .nextTurn, .own .finish,
    .own .drain, .own .drained, .own (.exitEvent 0)] : List Input)

/-- The state that a list of inputs reaches. -/
def turnsAfter (is : List Input) : Turns :=
  (exec Turns.step (.init outboxMax) is).getD (.init outboxMax)

/-- A request for permission can follow the `TurnFinished` of its turn, and output of the agent
can follow `AgentExited`. -/
theorem turns_not_closed :
    (∃ x, Reach Turns.step (named turnName) (.init outboxMax) x ∧
      ¬ x.session.emitted.Pairwise
        (fun e f => e.payload.isTurnFinished = true → f.turnId ≠ e.turnId) ∧
      ¬ TurnsClosed x) ∧
    ∃ x, Reach Turns.step (named turnName) (.init outboxMax) x ∧
      ¬ x.session.emitted.Pairwise (fun e _ => isExited e = false) ∧ ¬ TurnsClosed x := by
  refine ⟨⟨turnsAfter overtaken, Reach.of_exec_guarded _ (by decide), ?_⟩,
    ⟨turnsAfter drainedLate, Reach.of_exec_guarded _ (by decide), ?_⟩⟩
  · have h : ¬ (turnsAfter overtaken).session.emitted.Pairwise
        (fun e f => e.payload.isTurnFinished = true → f.turnId ≠ e.turnId) := by decide
    exact ⟨h, fun hx => h hx.finishedLast⟩
  · have h : ¬ (turnsAfter drainedLate).session.emitted.Pairwise
        (fun e _ => isExited e = false) := by decide
    exact ⟨h, fun hx => h hx.exitedLast⟩

theorem turns_closed_inTime :
    TurnsClosed (turnsAfter inTime) ∧ (turnsAfter inTime).session.place = .done ∧
      (turnsAfter inTime).session.exited = true :=
  ⟨(turns_closed turnName turnName_injective turnName_ne_empty outboxMax (turnsAfter inTime)
      (Reach.of_exec_guarded _ (by decide))).1, by decide, by decide⟩

end AgentOps.Runner
