import AgentOps.Link.AgentIOReplays

/-!
# The invariant of the AgentIO link

The manager serves one stream at a time, and the events it has put in the inbox are those up to a
number, `front`, which bounds every ack. No replay point and no feed of the newest runner stream is
before that number, since it moves only while no replay is asked for.

The steps of the manager keep the invariant; those of the other parties are in `AgentIOTheorems`.
-/

namespace AgentOps.Link.AgentIO

open AgentOps.Lib AgentOps.Runner

/-! ## The streams -/

/-- What the sidecar sends on a stream that was opened with `c`: a State, and then the events
from there on. -/
def Shape (log : List AgentEvent) (c : ℕ) (up : List Frame) : Prop :=
  up = [] ∨ ∃ st k, c ≤ k ∧ k ≤ log.length ∧ up = .state st :: (slice log c k).map .event

section Shape

variable {log more : List AgentEvent} {c : ℕ} {up : List Frame} {f : Frame}

theorem Live.shape {x : RunStream} {b : Bool} (h : Live log x c b up) : Shape log c up := by
  cases h with
  | replaying | lost => exact .inl rfl
  | serving st k hck h => exact .inr ⟨st, k, hck, h.le, rfl⟩

theorem Shape.grow (h : Shape log c up) : Shape (log ++ more) c up := by
  rcases h with h | ⟨st, k, hck, hlen, h⟩
  · exact .inl h
  · refine .inr ⟨st, k, hck, by rw [List.length_append]; omega, ?_⟩
    rw [slice_append_right hlen]
    exact h

/-- The first frame of a stream is its State. -/
theorem Shape.first (h : Shape log c up) (hf : up[0]? = some f) : ∃ st, f = .state st := by
  rcases h with rfl | ⟨st, k, -, -, rfl⟩
  · cases hf
  · exact ⟨st, (Option.some.inj hf).symm⟩

/-- The others are the events from the number on that it was opened with. -/
theorem Shape.next {n : ℕ} (h : Shape log c up) (hf : up[n + 1]? = some f) :
    ∃ ev, f = .event ev ∧ log[c + n]? = some ev := by
  rcases h with rfl | ⟨st, k, hck, hlen, rfl⟩
  · cases hf
  · rw [List.getElem?_cons_succ, List.getElem?_map, Option.map_eq_some_iff] at hf
    obtain ⟨ev, hev, rfl⟩ := hf
    refine ⟨ev, rfl, ?_⟩
    unfold slice at hev
    rw [List.getElem?_drop] at hev
    have hlt := (List.getElem?_eq_some_iff.mp hev).1
    rw [List.length_take] at hlt
    rwa [List.getElem?_take_of_lt (by omega)] at hev

end Shape

/-- An `Open` frame. -/
def ManagerFrame.isOpened : ManagerFrame → Bool
  | .opened .. => true
  | _ => false

/-- A frame acks nothing after `top`. -/
def ManagerFrame.UpTo (top : ℕ) : ManagerFrame → Prop
  | .ack n => n ≤ top
  | _ => True

def ClientFrame.UpTo (top : ℕ) : ClientFrame → Prop
  | .ack n => n ≤ top
  | _ => True

def SenderAt.UpTo (top : ℕ) : SenderAt → Prop
  | .acking n => n ≤ top
  | _ => True

namespace HandlerAt

/-- The stream is not opened yet. -/
def before : HandlerAt → Bool
  | .fresh | .named | .claimed _ | .waiting | .turn | .held | .resuming _ => true
  | _ => false

/-- The goroutine has `ioTurn` and is neither in `serveIO` nor before its Open. -/
def rests : HandlerAt → Bool
  | .turn | .held | .ending | .dropped => true
  | _ => false

/-- The goroutine has `ioTurn`. -/
def holds : HandlerAt → Bool
  | .resuming _ | .serving _ | .delivering _ => true
  | h => h.rests

/-- An event is in the inbox that the run does not count as delivered. -/
def lags : HandlerAt → Bool
  | .delivering _ => true
  | _ => false

def lives : HandlerAt → Bool
  | .gone => false
  | _ => true

theorem holds_of_serves {h : HandlerAt} (hs : h.serves = true) : h.holds = true := by
  cases h <;> first | rfl | cases hs

theorem lives_of_holds {h : HandlerAt} (hs : h.holds = true) : h.lives = true := by
  cases h <;> first | rfl | cases hs

end HandlerAt

/-! ### The inbox -/

def Frame.event? : Frame → Option AgentEvent
  | .event ev => some ev
  | .state _ => none

/-- The number of the last event that was put in the inbox. -/
def Run.front (m : Run) : ℕ := m.taken + (m.inbox.filterMap Frame.event?).length

theorem Run.taken_le_front (m : Run) : m.taken ≤ m.front := Nat.le_add_right ..

/-- What the manager's goroutines share. -/
structure Desk where
  ioTurn : Option ℕ
  delivered : ℕ
  front : ℕ

def Run.desk (m : Run) : Desk := ⟨m.ioTurn, m.delivered, m.front⟩

/-- How far a goroutine with the turn is: the stream was opened with `c`, and some of its frames
were received. -/
inductive Stage (d : Desk) (openedAt : Option ℕ) (up : List Frame) : HandlerAt → ℕ → Prop
  | resuming {n : ℕ} (hfront : d.front = d.delivered) :
      Stage d openedAt up (.resuming d.delivered) n
  | first (hc : openedAt = some d.delivered) (hfront : d.front = d.delivered) :
      Stage d openedAt up (.serving none) 0
  | state (st : AgentState) (hc : openedAt = some d.delivered) (hfront : d.front = d.delivered) :
      Stage d openedAt up (.serving (some (.state st))) 1
  | idle (c n : ℕ) (hc : openedAt = some c) (hd : d.delivered = c + n)
      (hfront : d.front = d.delivered) : Stage d openedAt up (.serving none) (n + 1)
  | event (ev : AgentEvent) (c n : ℕ) (hc : openedAt = some c) (hd : d.delivered = c + n)
      (hfront : d.front = d.delivered) (hev : up[n + 1]? = some (.event ev)) :
      Stage d openedAt up (.serving (some (.event ev))) (n + 2)
  | delivering (c n : ℕ) (hc : openedAt = some c) (hd : d.delivered = c + n)
      (hfront : d.front = d.delivered + 1) : Stage d openedAt up (.delivering (c + n + 1)) (n + 2)
  | rest {p : HandlerAt} {n : ℕ} (h : p.rests = true) (hfront : d.front = d.delivered) :
      Stage d openedAt up p n

section Stage

variable {d : Desk} {openedAt : Option ℕ} {up : List Frame} {p : HandlerAt} {n : ℕ}

theorem Stage.level (h : Stage d openedAt up p n) (hlags : p.lags = false) :
    d.front = d.delivered := by
  cases h with
  | rest _ h | resuming h | first _ h | state _ _ h | idle _ _ _ _ h | event _ _ _ _ _ h _ =>
    exact h
  | delivering => cases hlags

theorem Stage.opened (h : Stage d openedAt up p n) (hserves : p.serves = true) :
    openedAt ≠ none := by
  cases h with
  | rest hrests _ => cases p <;> simp [HandlerAt.serves, HandlerAt.rests] at hserves hrests
  | resuming _ => cases hserves
  | first hc | state _ hc | idle _ _ hc | event _ _ _ hc | delivering _ _ hc =>
    rw [hc]
    exact Option.some_ne_none _

theorem Stage.sent (h : Stage d openedAt up p n) (more : List Frame) :
    Stage d openedAt (up ++ more) p n := by
  cases h with
  | event ev c n hc hd hf hev =>
    refine .event ev c n hc hd hf ?_
    rw [List.getElem?_append_left (List.getElem?_eq_some_iff.mp hev).1]
    exact hev
  | _ => constructor <;> assumption

end Stage

/-! ### What holds of a stream -/

/-- What a stream is seen against. -/
structure View where
  log : List AgentEvent
  streamId : String
  top : ℕ
  client : ℕ
  nextIO : ℕ
  slot : Option ℕ
  /-- The manager has opened the stream of the slot. -/
  slotOpened : Bool
  /-- Of the newest runner stream. -/
  sources : List ℕ
  desk : Option Desk

def State.view (s : State) : View where
  log := s.runner.emitted
  streamId := s.streamId
  top := s.top
  client := s.client
  nextIO := s.nextIO
  slot := s.slot
  slotOpened := s.slot.any fun j => (s.ios j).openedAt.isSome
  sources := (s.runs s.client).sources
  desk := s.run.map Run.desk

/-- What holds of stream `j`. -/
structure Good (v : View) (j : ℕ) (x : IOStream) : Prop where
  unopened : x.openedAt = none →
    x.down = [] ∧ x.up = [] ∧ x.relay = false ∧ x.sender.place = .off ∧ x.received = 0
  /-- The manager's first frame is its Open. -/
  opening : x.side = .opening → x.up = [] ∧ x.relay = false ∧ ∀ n, x.openedAt = some n →
    ∃ rest, x.down = .opened v.streamId n :: rest ∧ ∀ f ∈ rest, f.isOpened = false
  relayed : x.relay = true → ∀ f ∈ x.down, f.isOpened = false
  down : ∀ f ∈ x.down, f.UpTo v.top
  hand : ∀ f, x.hand = some f → f.point = none ∧ f.UpTo v.top
  sender : x.sender.place.UpTo v.top
  shape : ∀ c, x.openedAt = some c → Shape v.log c x.up
  slotted : x.side ≠ .ended → v.slot = some j
  run_le : x.run ≤ v.client
  run_eq : v.slot = some j → x.run = v.client
  served : ∀ b, x.side = .serving b → x.openedAt ≠ none
  born : x.handler.lives = true → j < v.nextIO
  before : x.handler.before = true → x.openedAt = none
  turn : x.handler.holds = true →
    ∃ d, v.desk = some d ∧ d.ioTurn = some j ∧ Stage d x.openedAt x.up x.handler x.received
  /-- The manager has nothing to read of a stream that it opened after that of the slot. -/
  others : x.handler.serves = true → v.slotOpened = true → v.slot ≠ some j → x.up = []
  /-- What the manager has to read is not asked for again. -/
  ahead : x.handler.serves = true → ∀ n ∈ v.sources, ∀ ev, .event ev ∈ x.up → ev.seq ≤ n

section UpTo

variable {top top' : ℕ} (hle : top ≤ top')

include hle

theorem ManagerFrame.UpTo.mono {f : ManagerFrame} (h : f.UpTo top) : f.UpTo top' := by
  cases f with
  | ack n => exact Nat.le_trans h hle
  | opened | command => trivial

theorem ClientFrame.UpTo.mono {f : ClientFrame} (h : f.UpTo top) : f.UpTo top' := by
  cases f with
  | ack n => exact Nat.le_trans h hle
  | replay | command => trivial

theorem SenderAt.UpTo.mono {p : SenderAt} (h : p.UpTo top) : p.UpTo top' := by
  cases p with
  | acking n => exact Nat.le_trans h hle
  | off | idle | sending | committing => trivial

end UpTo

namespace Good

variable {v w : View} {j k : ℕ} {x y : IOStream} {was p : HandlerAt}

/-- The handler goes on without the turn. -/
theorem rest (g : Good v j x) (hwas : x.handler = was) (hlives : was.lives = true)
    (hbefore : p.before = true → was.before = true) (hholds : p.holds = false) :
    Good v j { x with handler := p } := by
  subst hwas
  have hno {q : Prop} (hs : p.serves = true) : q := by
    rw [HandlerAt.holds_of_serves hs] at hholds
    cases hholds
  exact { g with
    born := fun _ => g.born hlives
    before := fun hb => g.before (hbefore hb)
    turn := fun hh => by rw [show p.holds = false from hholds] at hh; cases hh
    others := hno
    ahead := hno }

/-- The handler goes on with the turn. -/
theorem go (g : Good v j x) (hwas : x.handler = was) (hlives : was.lives = true)
    (hbefore : p.before = true → was.before = true) (hserves : p.serves = true → was.serves = true)
    (hunread : x.openedAt = none → k = 0) {d : Desk} (hturn : d.ioTurn = some j)
    (hstage : Stage d x.openedAt x.up p k) :
    Good { v with desk := some d } j { x with received := k, handler := p } := by
  subst hwas
  exact { g with
    unopened := fun hn => by
      obtain ⟨hdown, hup, hrelay, hoff, -⟩ := g.unopened hn
      exact ⟨hdown, hup, hrelay, hoff, hunread hn⟩
    born := fun _ => g.born hlives
    before := fun hb => g.before (hbefore hb)
    turn := fun _ => ⟨d, rfl, hturn, hstage⟩
    others := fun hs => g.others (hserves hs)
    ahead := fun hs => g.ahead (hserves hs) }

theorem unread (g : Good v j x) (hn : x.openedAt = none) : x.received = 0 :=
  (g.unopened hn).2.2.2.2

theorem sender_off (g : Good v j x) (hn : x.openedAt = none) : x.sender.place = .off :=
  (g.unopened hn).2.2.2.1

/-- `sendCommands` goes on, and has sent frames. -/
theorem sends (g : Good v j x) (d : Sender) (fs : List ManagerFrame)
    (hopen : x.openedAt = none → d.place = .off ∧ fs = [])
    (hfs : ∀ f ∈ fs, f.isOpened = false ∧ f.UpTo v.top) (hplace : d.place.UpTo v.top) :
    Good v j { x with down := x.down ++ fs, sender := d } :=
  { g with
    unopened := fun hn => by
      obtain ⟨hdown, hup, hrelay, -, hreceived⟩ := g.unopened hn
      obtain ⟨hoff, hnil⟩ := hopen hn
      exact ⟨by rw [hnil, List.append_nil]; exact hdown, hup, hrelay, hoff, hreceived⟩
    opening := fun hs => by
      obtain ⟨hup, hrelay, hfirst⟩ := g.opening hs
      refine ⟨hup, hrelay, fun n hn => ?_⟩
      obtain ⟨rest, hrest, hno⟩ := hfirst n hn
      refine ⟨rest ++ fs, ?_, fun f hf => ?_⟩
      · show x.down ++ fs = _
        rw [hrest]
        rfl
      · exact (List.mem_append.mp hf).elim (hno f) fun hf => (hfs f hf).1
    relayed := fun hr f hf => (List.mem_append.mp hf).elim (g.relayed hr f) fun hf => (hfs f hf).1
    down := fun f hf => (List.mem_append.mp hf).elim (g.down f) fun hf => (hfs f hf).2
    sender := hplace }

/-- What is around a stream changes. -/
theorem around (g : Good v j x) (hlog : v.log <+: w.log) (hid : w.streamId = v.streamId)
    (htop : v.top ≤ w.top) (hclient : v.client ≤ w.client) (hnext : v.nextIO ≤ w.nextIO)
    (hslot : x.side ≠ .ended → w.slot = some j) (hrun : w.slot = some j → x.run = w.client)
    (hdesk : x.handler.holds = true → w.desk = v.desk)
    (hothers : x.handler.serves = true → w.slotOpened = true → w.slot ≠ some j → x.up = [])
    (hahead : x.handler.serves = true → ∀ n ∈ w.sources, ∀ ev, .event ev ∈ x.up → ev.seq ≤ n) :
    Good w j x :=
  { g with
    opening := hid ▸ g.opening
    down := fun f hf => (g.down f hf).mono htop
    hand := fun f hf => ⟨(g.hand f hf).1, (g.hand f hf).2.mono htop⟩
    sender := g.sender.mono htop
    shape := fun c hc => by
      obtain ⟨more, hmore⟩ := hlog
      rw [← hmore]
      exact (g.shape c hc).grow
    slotted := hslot
    run_le := g.run_le.trans hclient
    run_eq := hrun
    born := fun hb => (g.born hb).trans_le hnext
    turn := fun hh => by rw [hdesk hh]; exact g.turn hh
    others := hothers
    ahead := hahead }

/-- A stream that was just made. -/
theorem new (v : View) {side : SideAt} {handler : HandlerAt} (hside : ∀ b, side ≠ .serving b)
    (hslot : side ≠ .ended → v.slot = some j) (hborn : handler.lives = true → j < v.nextIO)
    (hholds : handler.holds = false) (hrun : v.slot ≠ some j ∨ k = v.client) (hle : k ≤ v.client) :
    Good v j { run := k, side, handler } := by
  have hno {q : Prop} (hs : handler.serves = true) : q := by
    rw [HandlerAt.holds_of_serves hs] at hholds
    cases hholds
  exact {
    unopened := fun _ => ⟨rfl, rfl, rfl, rfl, rfl⟩
    opening := fun _ => ⟨rfl, rfl, fun n hn => by cases hn⟩
    relayed := fun hr => by cases hr
    down := fun f hf => absurd hf List.not_mem_nil
    hand := fun f hf => by cases hf
    sender := trivial
    shape := fun c hc => by cases hc
    slotted := hslot
    run_le := hle
    run_eq := fun hj => hrun.elim (absurd hj) id
    served := fun b hb => absurd hb (hside b)
    born := hborn
    before := fun _ => rfl
    turn := fun hh => by rw [show handler.holds = false from hholds] at hh; cases hh
    others := hno
    ahead := hno }

/-- A stream of which the manager's goroutine has not the turn. -/
theorem setDesk (g : Good v j x) (hholds : x.handler.holds = false) (d : Option Desk) :
    Good { v with desk := d } j x :=
  { g with turn := fun hh => by rw [hholds] at hh; cases hh }

/-- Only one goroutine has the turn. -/
theorem unique (g : Good v j x) {i : ℕ} (gi : Good v i y) (hx : x.handler.holds = true)
    (hy : y.handler.holds = true) : i = j := by
  obtain ⟨d, hd, hj, -⟩ := g.turn hx
  obtain ⟨e, he, hi, -⟩ := gi.turn hy
  rw [hd] at he
  obtain rfl := Option.some.inj he
  rw [hj] at hi
  exact (Option.some.inj hi).symm

end Good

/-! ## The service -/

/-- Where the consumer is, with the last event that it took. -/
inductive At (log : List AgentEvent) (d : Store) (streamId : String) : ConsumerAt → ℕ → Prop
  | opening (hrun : d.running = false) (hid : d.streamId ≠ streamId) (hlog : d.logged = []) :
      At log d streamId .opening 0
  | failed (n : ℕ) (hrun : d.running = false) : At log d streamId (.failed n) n
  | linking (ev : AgentEvent) (hfirst : log[0]? = some ev) (hready : recorded ev = false)
      (hrun : d.running = false) (hid : d.streamId ≠ streamId) (hlog : d.logged = []) :
      At log d streamId (.linking 1) 1
  | idle (n : ℕ) (h : d.running = true → d.podSeq = n) : At log d streamId .idle n
  | recording (ev : AgentEvent) (n : ℕ) (hev : log[n]? = some ev)
      (h : d.running = true → d.podSeq = n) : At log d streamId (.recording ev) (n + 1)
  | acking (n : ℕ) (h : d.running = true → d.podSeq = n) : At log d streamId (.acking n) n
  | stopped (n : ℕ) (h : d.running = true → d.podSeq ≤ n) : At log d streamId .stopped n

section At

variable {log : List AgentEvent} {d : Store} {streamId : String} {p : ConsumerAt} {n : ℕ}

theorem At.grow {more : List AgentEvent} (h : At log d streamId p n) :
    At (log ++ more) d streamId p n := by
  have hget {i : ℕ} {ev : AgentEvent} (hi : log[i]? = some ev) : (log ++ more)[i]? = some ev := by
    rw [List.getElem?_append_left (List.getElem?_eq_some_iff.mp hi).1]
    exact hi
  cases h with
  | linking ev hfirst hready hrun hid hlog => exact .linking ev (hget hfirst) hready hrun hid hlog
  | recording ev n hev hn => exact .recording ev n (hget hev) hn
  | _ => constructor <;> assumption

/-- The consumer has taken what the store has of a session that runs. -/
theorem At.podSeq_le (h : At log d streamId p n) (hrun : d.running = true) : d.podSeq ≤ n := by
  cases h with
  | opening hno | failed _ hno | linking _ _ _ hno => rw [hno] at hrun; cases hrun
  | idle _ hn | acking _ hn => exact (hn hrun).le
  | recording _ n _ hn => exact (hn hrun).le.trans (Nat.le_succ n)
  | stopped _ hn => exact hn hrun

theorem At.idle_podSeq (h : At log d streamId .idle n) (hrun : d.running = true) :
    d.podSeq = n := by
  cases h with
  | idle _ hn => exact hn hrun

/-- The session stops running. -/
theorem At.leave (h : At log d streamId p n) {d' : Store} (hrun : d'.running = false)
    (hid : d'.streamId = d.streamId) (hlogged : d'.logged = d.logged) : At log d' streamId p n := by
  have hno {q : Prop} (hr : d'.running = true) : q := by
    rw [hrun] at hr
    cases hr
  cases h with
  | opening _ hne hlog => exact .opening hrun (hid ▸ hne) (hlogged.trans hlog)
  | linking ev hfirst hready _ hne hlog =>
    exact .linking ev hfirst hready hrun (hid ▸ hne) (hlogged.trans hlog)
  | recording ev n hev _ => exact .recording ev n hev hno
  | failed n _ => exact .failed n hrun
  | idle n _ => exact .idle n hno
  | acking n _ => exact .acking n hno
  | stopped n _ => exact .stopped n hno

/-- What `awaitReady` makes of the first event. -/
theorem At.ready (h : At log d streamId .opening n) {ev : AgentEvent} (hev : log[n]? = some ev)
    (hseq : ev.seq = n + 1) : At log d streamId (awaitReady ev) (n + 1) := by
  cases h with
  | opening hrun hid hlog =>
    unfold awaitReady
    split
    next hp =>
      rw [hseq]
      exact .linking ev hev (by unfold recorded; rw [hp]; rfl) hrun hid hlog
    next => rw [hseq]; exact .failed 1 hrun
    next => exact .stopped 1 fun hr => by rw [hrun] at hr; cases hr

end At

/-- What the store has while the session runs. -/
structure Store.Ok (d : Store) (log : List AgentEvent) (streamId : String) (top : ℕ) : Prop where
  id : d.streamId = streamId
  live : d.ended = false
  le : d.podSeq ≤ log.length
  logged : d.logged = (log.take d.podSeq).filter recorded
  top_le : top ≤ d.podSeq

structure Run.Ok (m : Run) (log : List AgentEvent) (d : Store) (streamId : String) (top : ℕ) :
    Prop where
  id : m.streamId = streamId
  inbox : m.inbox.filterMap Frame.event? = slice log m.taken m.front
  front_le : m.front ≤ log.length
  place : At log d streamId m.consumer m.taken
  acked : m.acked ≤ top
  ready : ∀ n, m.readyAck = some n → n ≤ m.taken ∧ (d.running = true → n ≤ d.podSeq)
  top_le : top ≤ m.taken
  idle : m.ioTurn = none → m.front = m.delivered

/-- No replay point and no feed of the newest runner stream is before this number. -/
def State.floor (s : State) : ℕ :=
  match s.run with
  | some m => m.front
  | none => if s.store.running then s.store.podSeq else s.top

/-! ## The invariant -/

/-- What holds of the stream of the slot. -/
structure Slotted (log : List AgentEvent) (floor : ℕ) (r : RunStream) (x : IOStream) : Prop where
  opens : ∀ c, x.side = .opening → x.openedAt = some c → floor ≤ c ∧ c ≤ log.length
  live : ∀ b c, x.side = .serving b → x.openedAt = some c → Live log r c b x.up

theorem Slotted.frame {log : List AgentEvent} {floor : ℕ} {r : RunStream} {x y : IOStream}
    (h : Slotted log floor r x) (hside : y.side = x.side) (hopened : y.openedAt = x.openedAt)
    (hup : y.up = x.up) : Slotted log floor r y where
  opens c hs hc := h.opens c (hside ▸ hs) (hopened ▸ hc)
  live b c hs hc := hup ▸ h.live b c (hside ▸ hs) (hopened ▸ hc)

/-- What every reachable state has. -/
structure Inv (s : State) : Prop where
  kept : s.runner.Kept
  ok : s.failures = []
  unborn : ∀ r, s.client < r → s.runs r = {}
  alive : s.alive = false → s.slot = none
  acks : ∀ r, ∀ f ∈ (s.runs r).toRunner, f.UpTo s.top
  acked : s.runner.out.acked ≤ s.top
  top_le : s.top ≤ s.floor
  client : (s.runs s.client).Ok s.runner.emitted s.floor
  good : ∀ j, Good s.view j (s.ios j)
  slot : ∀ j, s.slot = some j →
    Slotted s.runner.emitted s.floor (s.runs s.client) (s.ios j)
  store : s.store.running = true → s.store.Ok s.runner.emitted s.streamId s.top
  run : ∀ m, s.run = some m → m.Ok s.runner.emitted s.store s.streamId s.top

theorem floor_some {s : State} {m : Run} (hm : s.run = some m) : s.floor = m.front := by
  unfold State.floor
  rw [hm]

theorem view_desk {s : State} {m : Run} (hm : s.run = some m) : s.view.desk = some m.desk := by
  show s.run.map Run.desk = _
  rw [hm, Option.map_some]

/-! ### The manager -/

namespace Inv

variable {s t : State} {m m' : Run} {j : ℕ} {x : IOStream}

/-- A property of streams that an update keeps. -/
theorem update_frame {α : Type} {f : IOStream → α} (hf : f x = f (s.ios j)) (i : ℕ) :
    f (Function.update s.ios j x i) = f (s.ios i) := by
  by_cases hi : i = j
  · subst hi
    rw [Function.update_self, hf]
  · rw [Function.update_of_ne hi]

/-- An update of one stream. -/
theorem update_good {w : View} (hx : Good w j x) (hothers : ∀ i, i ≠ j → Good w i (s.ios i))
    (i : ℕ) : Good w i (Function.update s.ios j x i) := by
  by_cases hi : i = j
  · subst hi
    rw [Function.update_self]
    exact hx
  · rw [Function.update_of_ne hi]
    exact hothers i hi

/-- One stream changes and the run may change; no stream is opened, nothing is sent on one, and no
event is put in the inbox. -/
theorem of_io (h : Inv s) {r : Option Run}
    (hgood : Good { s.view with desk := r.map Run.desk } j x)
    (hothers : ∀ i, i ≠ j → Good { s.view with desk := r.map Run.desk } i (s.ios i))
    (hside : x.side = (s.ios j).side) (hup : x.up = (s.ios j).up)
    (hopened : x.openedAt = (s.ios j).openedAt)
    (hfloor : State.floor { s with ios := Function.update s.ios j x, run := r } = s.floor)
    (hok : ∀ m, r = some m → m.Ok s.runner.emitted s.store s.streamId s.top) :
    Inv { s with ios := Function.update s.ios j x, run := r } := by
  have hopens := update_frame (f := IOStream.openedAt) hopened
  have hview : State.view { s with ios := Function.update s.ios j x, run := r } =
      { s.view with desk := r.map Run.desk } := by
    simp only [State.view, hopens]
  exact { h with
    top_le := by rw [hfloor]; exact h.top_le
    client := by rw [hfloor]; exact h.client
    good := by rw [hview]; exact update_good hgood hothers
    slot := fun i hi => by
      rw [hfloor]
      exact (h.slot i hi).frame (update_frame hside i) (hopens i) (update_frame hup i)
    run := hok }

/-- One stream changes, and nothing of the run. -/
theorem of_setStream (h : Inv s) (f : IOStream → IOStream) (hgood : Good s.view j (f (s.ios j)))
    (hside : (f (s.ios j)).side = (s.ios j).side) (hup : (f (s.ios j)).up = (s.ios j).up)
    (hopened : (f (s.ios j)).openedAt = (s.ios j).openedAt) : Inv (s.setStream j f) :=
  h.of_io hgood (fun i _ => h.good i) hside hup hopened rfl h.run

/-- One stream and the run change, and the turn may change hands. -/
theorem of_turn (h : Inv s) (hm : s.run = some m)
    (hok : m'.Ok s.runner.emitted s.store s.streamId s.top)
    (hgood : Good { s.view with desk := some m'.desk } j x)
    (hothers : m'.desk = m.desk ∨ ∀ i, i ≠ j → (s.ios i).handler.holds = false)
    (hfront : m'.front = m.front) (hside : x.side = (s.ios j).side) (hup : x.up = (s.ios j).up)
    (hopened : x.openedAt = (s.ios j).openedAt) :
    Inv { s with ios := Function.update s.ios j x, run := some m' } := by
  refine h.of_io (r := some m') hgood (fun i hi => ?_) hside hup hopened ?_ fun m'' hm'' => ?_
  · rcases hothers with hdesk | hothers
    · rw [show ({ s.view with desk := (some m').map Run.desk } : View) = s.view by
        rw [Option.map_some, hdesk, ← view_desk hm]]
      exact h.good i
    · exact (h.good i).setDesk (hothers i hi) _
  · rw [floor_some hm]
    exact hfront
  · obtain rfl := Option.some.inj hm''
    exact hok

/-- Only the run changes. -/
theorem of_run (h : Inv s) (hm : s.run = some m)
    (hok : m'.Ok s.runner.emitted s.store s.streamId s.top) (hdesk : m'.desk = m.desk) :
    Inv { s with run := some m' } := by
  have hgood : Good { s.view with desk := some m'.desk } 0 (s.ios 0) := by
    rw [hdesk, ← view_desk hm]
    exact h.good 0
  have hinv := h.of_turn hm hok hgood (.inl hdesk) (congrArg Desk.front hdesk) rfl rfl rfl
  rw [Function.update_eq_self] at hinv
  exact hinv

/-- Nobody has the turn. -/
theorem nobody (h : Inv s) (hm : s.run = some m) (hturn : m.ioTurn = none) (i : ℕ) :
    (s.ios i).handler.holds = false := by
  by_contra hne
  obtain ⟨d, hd, hi, -⟩ := (h.good i).turn (Bool.not_eq_false _ ▸ hne)
  rw [view_desk hm] at hd
  obtain rfl := Option.some.inj hd
  rw [show m.desk.ioTurn = none from hturn] at hi
  cases hi

variable {was p : HandlerAt} {k : ℕ}

/-- Nobody else has the turn. -/
theorem alone (h : Inv s) (hwas : (s.ios j).handler = was) (hholds : was.holds = true) (i : ℕ)
    (hi : i ≠ j) : (s.ios i).handler.holds = false := by
  by_contra hne
  exact hi ((h.good j).unique (h.good i) (hwas ▸ hholds) (Bool.not_eq_false _ ▸ hne))

/-- Where the handler is that has the turn. -/
theorem turn (h : Inv s) (hm : s.run = some m) (hwas : (s.ios j).handler = was)
    (hholds : was.holds = true) :
    m.ioTurn = some j ∧
      Stage m.desk (s.ios j).openedAt (s.ios j).up was (s.ios j).received := by
  obtain ⟨d, hd, hturn, hstage⟩ := (h.good j).turn (hwas ▸ hholds)
  rw [view_desk hm] at hd
  obtain rfl := Option.some.inj hd
  exact ⟨hturn, hwas ▸ hstage⟩

/-- A handler that has the turn goes on. -/
theorem of_go (h : Inv s) (hm : s.run = some m) (hwas : (s.ios j).handler = was)
    (hholds : was.holds = true) (hok : m'.Ok s.runner.emitted s.store s.streamId s.top)
    (hturn : m'.ioTurn = some j) (hfront : m'.front = m.front)
    (hbefore : p.before = true → was.before = true) (hserves : p.serves = true → was.serves = true)
    (hunread : (s.ios j).openedAt = none → k = 0)
    (hstage : Stage m'.desk (s.ios j).openedAt (s.ios j).up p k) :
    Inv { s with
      ios := Function.update s.ios j { s.ios j with received := k, handler := p }
      run := some m' } := by
  have hgood := (h.good j).go hwas (HandlerAt.lives_of_holds hholds) hbefore hserves hunread hturn
    hstage
  exact h.of_turn hm hok hgood (.inr (h.alone hwas hholds)) hfront rfl rfl rfl

/-- The same when nothing of the run changes. -/
theorem of_stay (h : Inv s) (hm : s.run = some m) (hwas : (s.ios j).handler = was)
    (hholds : was.holds = true) (hbefore : p.before = true → was.before = true)
    (hserves : p.serves = true → was.serves = true)
    (hunread : (s.ios j).openedAt = none → k = 0)
    (hstage : Stage m.desk (s.ios j).openedAt (s.ios j).up p k) :
    Inv (s.setStream j fun x => { x with received := k, handler := p }) := by
  have hinv := h.of_go hm hwas hholds (h.run m hm) (h.turn hm hwas hholds).1 rfl hbefore hserves
    hunread hstage
  rw [← hm] at hinv
  exact hinv

/-- A handler goes on that has not the turn. -/
theorem of_rest (h : Inv s) (hwas : (s.ios j).handler = was) (hlives : was.lives = true)
    (hbefore : p.before = true → was.before = true) (hholds : p.holds = false) :
    Inv (s.setHandler j p) :=
  h.of_setStream _ ((h.good j).rest hwas hlives hbefore hholds) rfl rfl rfl

theorem of_closeIO (h : Inv s) (i : Option ℕ) : Inv (s.closeIO i) := by
  cases i with
  | none => exact h
  | some i =>
    exact h.of_setStream (fun x => { x with closed := true }) { h.good i with } rfl rfl rfl

theorem closeIO_handler (i : Option ℕ) (j : ℕ) :
    ((s.closeIO i).ios j).handler = (s.ios j).handler := by
  cases i with
  | none => rfl
  | some i => exact update_frame (f := IOStream.handler) (by rfl) j

/-- `dropIO`. -/
theorem of_dropIO (h : Inv s) (hm : s.run = some m)
    (hgood : Good { s.view with desk := some m.desk } j { s.ios j with handler := p }) :
    Inv (s.dropIO m j p) :=
  h.of_turn hm { h.run m hm with } (x := { s.ios j with closed := true, handler := p })
    { hgood with } (.inl rfl) rfl rfl rfl rfl

/-! #### Frames of the sidecar -/

theorem setStream_setStream (j : ℕ) (f g : IOStream → IOStream) :
    (s.setStream j f).setStream j g = s.setStream j fun x => g (f x) := by
  simp only [State.setStream, Function.update_self, Function.update_idem]

theorem of_receive (h : Inv s) (hm : s.run = some m) {f : Frame}
    (hwas : (s.ios j).handler = .serving none) (hf : (s.ios j).up[(s.ios j).received]? = some f) :
    Inv (receiveFrame s m j f) := by
  have hshape := (h.good j).shape
  obtain ⟨-, hstage⟩ := h.turn hm hwas rfl
  -- the frame becomes the pending one
  have hpending (hnext : Stage m.desk (s.ios j).openedAt (s.ios j).up (.serving (some f))
      ((s.ios j).received + 1)) :
      Inv ((s.setStream j fun x => { x with received := x.received + 1 }).setHandler j
        (.serving (some f))) := by
    have hfinal := h.of_stay hm hwas rfl (fun hb => by cases hb) (fun _ => rfl)
      (fun hn => absurd hn (hnext.opened rfl)) hnext
    rw [show (s.setStream j fun x => { x with received := x.received + 1 }).setHandler j
      (.serving (some f)) = _ from setStream_setStream j _ _]
    exact hfinal
  generalize (s.ios j).received = received at hstage hf hpending
  cases hstage with
  | rest hrests => cases hrests
  | first hc hfront =>
    obtain ⟨st, rfl⟩ := (hshape _ hc).first hf
    exact hpending (.state st hc hfront)
  | idle c n hc hd hfront =>
    obtain ⟨ev, rfl, hev⟩ := (hshape _ hc).next hf
    have hseq : ev.seq = m.delivered + 1 := by
      rw [h.kept.numbered _ _ hev]
      exact congrArg (· + 1) hd.symm
    unfold receiveFrame
    dsimp only
    rw [if_neg (by omega), if_neg (by omega)]
    exact hpending (.event ev c n hc hd hfront hf)

theorem of_setDelivered (h : Inv s) (hm : s.run = some m) {seq : ℕ}
    (hwas : (s.ios j).handler = .delivering seq) :
    Inv { s.setHandler j (.serving none) with
      run := some { m with delivered := max m.delivered seq } } := by
  obtain ⟨hturn, hstage⟩ := h.turn hm hwas rfl
  have hrun : Run.Ok { m with delivered := max m.delivered seq } s.runner.emitted s.store
      s.streamId s.top := { h.run m hm with
    idle := fun hn => by rw [show m.ioTurn = none from hn] at hturn; cases hturn }
  refine h.of_go hm hwas rfl hrun hturn rfl (fun hb => by cases hb) (fun _ => rfl)
    (h.good j).unread ?_
  generalize (s.ios j).received = received at hstage ⊢
  cases hstage with
  | rest hrests => cases hrests
  | delivering c n hc hd hfront =>
    have hd' : m.delivered = c + n := hd
    have hfront' : m.front = m.delivered + 1 := hfront
    refine .idle c (n + 1) hc ?_ ?_
    · show max m.delivered (c + n + 1) = _
      omega
    · show m.front = max m.delivered (c + n + 1)
      omega

/-- A frame is put in the inbox that is no event. -/
theorem of_pushState (h : Inv s) (hm : s.run = some m) {st : AgentState}
    (hwas : (s.ios j).handler = .serving (some (.state st))) :
    Inv { s.setHandler j (.serving none) with
      run := some { m with inbox := m.inbox ++ [.state st] } } := by
  obtain ⟨hturn, hstage⟩ := h.turn hm hwas rfl
  have hevents : (m.inbox ++ [Frame.state st]).filterMap Frame.event? =
      m.inbox.filterMap Frame.event? := by
    rw [List.filterMap_append]
    exact List.append_nil _
  have hfront : Run.front { m with inbox := m.inbox ++ [.state st] } = m.front := by
    unfold Run.front
    rw [hevents]
  have hok := h.run m hm
  have hrun : Run.Ok { m with inbox := m.inbox ++ [.state st] } s.runner.emitted s.store s.streamId
      s.top := { hok with
    inbox := by rw [hfront]; exact hevents.trans hok.inbox
    front_le := by rw [hfront]; exact hok.front_le
    idle := fun hn => by rw [hfront]; exact hok.idle hn }
  refine h.of_go hm hwas rfl hrun hturn hfront (fun hb => by cases hb) (fun _ => rfl)
    (h.good j).unread ?_
  generalize (s.ios j).received = received at hstage ⊢
  cases hstage with
  | rest hrests => cases hrests
  | state _ hc hlevel => exact .idle m.delivered 0 hc rfl (hfront.trans hlevel)

/-- While an event is read, no stream is being opened, or there would be nothing to read. -/
theorem not_opening (h : Inv s) (hserves : (s.ios j).handler.serves = true) {f : Frame}
    (hf : f ∈ (s.ios j).up) {i c : ℕ} (hslot : s.slot = some i) (hside : (s.ios i).side = .opening)
    (hc : (s.ios i).openedAt = some c) : False := by
  have hnil : (s.ios j).up = [] := by
    by_cases hij : s.slot = some j
    · rw [hslot] at hij
      obtain rfl := Option.some.inj hij
      exact ((h.good i).opening hside).1
    · refine (h.good j).others hserves ?_ hij
      show s.slot.any _ = true
      rw [hslot, Option.any_some, hc]
      rfl
  rw [hnil] at hf
  cases hf

/-- The next event is put in the inbox, and is not asked for again. -/
theorem of_pushEvent (h : Inv s) (hm : s.run = some m) {ev : AgentEvent}
    (hwas : (s.ios j).handler = .serving (some (.event ev))) :
    Inv { s.setHandler j (.delivering ev.seq) with
      run := some { m with inbox := m.inbox ++ [.event ev] } } := by
  have g := h.good j
  have hserves : (s.ios j).handler.serves = true := by rw [hwas]; rfl
  have hok := h.run m hm
  obtain ⟨hturn, hstage⟩ := h.turn hm hwas rfl
  have hlevel : m.front = m.delivered := hstage.level rfl
  generalize hreceived : (s.ios j).received = received at hstage
  cases hstage with
  | rest hrests => cases hrests
  | event _ c n hc hd hfront hup =>
    have hd' : m.delivered = c + n := hd
    obtain ⟨ev', he, hev⟩ := (g.shape c hc).next hup
    obtain rfl : ev = ev' := by injection he
    have hseq : ev.seq = m.front + 1 := by rw [h.kept.numbered _ _ hev, hlevel, hd']
    have hmem := List.mem_of_getElem? hup
    have hfront' : Run.front { m with inbox := m.inbox ++ [.event ev] } = m.front + 1 := by
      unfold Run.front
      rw [List.filterMap_append, List.length_append]
      rfl
    have hstream : Good { s.view with
        desk := some (Run.desk { m with inbox := m.inbox ++ [.event ev] }) } j
        { s.ios j with handler := .delivering ev.seq } := by
      refine g.go hwas rfl (fun hb => by cases hb) (fun _ => rfl) g.unread hturn ?_
      rw [hreceived, show ev.seq = c + n + 1 by omega]
      exact .delivering c n hc hd (hfront'.trans (congrArg (· + 1) hlevel))
    have hopened (i : ℕ) : (Function.update s.ios j { s.ios j with
        handler := .delivering ev.seq } i).openedAt = (s.ios i).openedAt :=
      update_frame (f := IOStream.openedAt) (by rfl) i
    have hview : State.view { s.setHandler j (.delivering ev.seq) with
        run := some { m with inbox := m.inbox ++ [.event ev] } } = { s.view with
          desk := some (Run.desk { m with inbox := m.inbox ++ [.event ev] }) } := by
      simp only [State.view, State.setHandler, State.setStream, hopened, Option.map_some]
    have hfloor : State.floor { s.setHandler j (.delivering ev.seq) with
        run := some { m with inbox := m.inbox ++ [.event ev] } } = m.front + 1 := hfront'
    exact { h with
      top_le := by
        have htop := h.top_le
        rw [floor_some hm] at htop
        rw [hfloor]
        exact Nat.le_succ_of_le htop
      client := by
        rw [hfloor, ← hseq]
        exact h.client.move fun n hn => g.ahead hserves n hn ev hmem
      good := by
        rw [hview]
        exact update_good hstream fun i hi =>
          (h.good i).setDesk (h.alone hwas rfl i hi) _
      slot := fun i hi => by
        refine Slotted.frame (x := s.ios i) ⟨fun k hs hk => ?_, (h.slot i hi).live⟩
          (update_frame (f := IOStream.side) (by rfl) i) (hopened i)
          (update_frame (f := IOStream.up) (by rfl) i)
        exact (h.not_opening hserves hmem hi hs hk).elim
      run := fun m'' hm'' => by
        obtain rfl := Option.some.inj hm''
        refine { hok with
          inbox := ?_
          front_le := by
            have hlt : c + n < s.runner.emitted.length := (List.getElem?_eq_some_iff.mp hev).1
            rw [hfront']
            show m.front + 1 ≤ s.runner.emitted.length
            omega
          idle := fun hn => by rw [show m.ioTurn = none from hn] at hturn; cases hturn }
        rw [hfront']
        show (m.inbox ++ [Frame.event ev]).filterMap Frame.event? = _
        rw [List.filterMap_append, hok.inbox, slice_concat m.taken_le_front]
        · rfl
        · rw [hlevel, hd']
          exact hev }

/-- The manager opens a stream, with the number of the last event that it delivered. -/
theorem of_openStream (h : Inv s) (hm : s.run = some m) {n : ℕ}
    (hwas : (s.ios j).handler = .resuming n) :
    Inv (s.setStream j fun x => { x with
      down := x.down ++ [.opened m.streamId n]
      openedAt := some n
      handler := .serving none
      sender := { place := .idle } }) := by
  have g := h.good j
  have hok := h.run m hm
  obtain ⟨hturn, hstage⟩ := h.turn hm hwas rfl
  have hlevel : m.front = m.delivered := hstage.level rfl
  have hn : n = m.delivered := by
    generalize (s.ios j).received = received at hstage
    cases hstage with
    | rest hrests => cases hrests
    | resuming _ => rfl
  have hclosed : (s.ios j).openedAt = none := g.before (by rw [hwas]; rfl)
  obtain ⟨hdown, hup, hrelay, -, hreceived⟩ := g.unopened hclosed
  obtain ⟨x, hx⟩ : ∃ x : IOStream, x = { s.ios j with
      down := (s.ios j).down ++ [.opened m.streamId n]
      openedAt := some n
      handler := .serving none
      sender := { place := .idle } } := ⟨_, rfl⟩
  have hgood (i : ℕ) :
      Good (State.view { s with ios := Function.update s.ios j x }) i
        (Function.update s.ios j x i) := by
    refine update_good ?_ (fun i hi => ?_) i
    · rw [hx]
      exact { g with
        unopened := fun hnone => by cases hnone
        opening := fun hs => ⟨hup, hrelay, fun k hk => by
          obtain rfl := Option.some.inj hk
          refine ⟨[], ?_, fun f hf => absurd hf List.not_mem_nil⟩
          show (s.ios j).down ++ _ = _
          rw [hdown, hok.id]
          rfl⟩
        relayed := fun hr => by rw [show (s.ios j).relay = false from hrelay] at hr; cases hr
        down := fun f hf => by
          rw [hdown, List.nil_append] at hf
          rw [List.mem_singleton.mp hf]
          trivial
        sender := trivial
        shape := fun _ _ => .inl hup
        served := fun _ _ hnone => by cases hnone
        born := fun _ => g.born (by rw [hwas]; rfl)
        before := fun hb => by cases hb
        turn := fun _ => ⟨m.desk, view_desk hm, hturn, by
          rw [show (s.ios j).received = 0 from hreceived]
          exact .first (congrArg some hn) hlevel⟩
        others := fun _ _ _ => hup
        ahead := fun _ _ _ ev hev => by
          rw [show (s.ios j).up = [] from hup] at hev
          cases hev }
    · have hi' := h.alone hwas rfl i hi
      have hno {q : Prop} (hs : (s.ios i).handler.serves = true) : q := by
        rw [HandlerAt.holds_of_serves hs] at hi'
        cases hi'
      exact { h.good i with others := hno, ahead := hno }
  have hinv : Inv { s with ios := Function.update s.ios j x } := { h with
    good := hgood
    slot := fun i hi => by
      show Slotted _ _ _ (Function.update s.ios j x i)
      by_cases hij : i = j
      · subst hij
        rw [Function.update_self, hx]
        refine ⟨fun c _ hc => ?_, fun b c hs _ => absurd hclosed (g.served b hs)⟩
        obtain rfl := Option.some.inj hc
        have hfloor : s.floor = n := by rw [floor_some hm, hlevel, hn]
        exact ⟨hfloor.le, by rw [hn, ← hlevel]; exact hok.front_le⟩
      · rw [Function.update_of_ne hij]
        exact h.slot i hi }
  rw [hx] at hinv
  exact hinv

/-! #### Frames of the manager -/

/-- `sendCommands` goes on. -/
theorem of_sender (h : Inv s) (hm : s.run = some m) {d : Sender}
    (hok : m'.Ok s.runner.emitted s.store s.streamId s.top) (hdesk : m'.desk = m.desk)
    (hopen : (s.ios j).sender.place ≠ .off ∨ d.place = .off) (hplace : d.place.UpTo s.top) :
    Inv { s with
      ios := Function.update s.ios j { s.ios j with sender := d }
      run := some m' } := by
  have g :=
    (h.good j).sends d [] (fun hn => ⟨hopen.elim (absurd ((h.good j).sender_off hn)) id, rfl⟩)
    (fun f hf => absurd hf List.not_mem_nil) hplace
  rw [List.append_nil] at g
  refine h.of_turn hm hok ?_ (.inl hdesk) (congrArg Desk.front hdesk) rfl rfl rfl
  rw [hdesk, ← view_desk hm]
  exact g

theorem of_setSender (h : Inv s) (hm : s.run = some m) {place : SenderAt}
    (hopen : (s.ios j).sender.place ≠ .off ∨ place = .off) (hplace : place.UpTo s.top) :
    Inv (s.setSender j place) := by
  have hinv := h.of_sender hm (j := j) (d := { (s.ios j).sender with place }) (h.run m hm) rfl
    hopen hplace
  rw [← hm] at hinv
  exact hinv

/-- `sendCommands` sends a frame. -/
theorem of_send (h : Inv s) {d : Sender} {f : ManagerFrame}
    (hopen : (s.ios j).sender.place ≠ .off) (hf : f.isOpened = false) (htop : f.UpTo s.top)
    (hplace : d.place.UpTo s.top) :
    Inv (s.setStream j fun x => { x with down := x.down ++ [f], sender := d }) :=
  h.of_setStream _ ((h.good j).sends d [f] (fun hn => absurd ((h.good j).sender_off hn) hopen)
    (fun f' hf' => by rw [List.mem_singleton.mp hf']; exact ⟨hf, htop⟩) hplace) rfl rfl rfl

/-- A handler that has the turn goes on, and everything that was delivered is in the inbox. -/
theorem of_level (h : Inv s) (hm : s.run = some m) (hwas : (s.ios j).handler = was)
    (hholds : was.holds = true) (hlags : was.lags = false)
    (hbefore : p.before = true → was.before = true) (hrests : p.rests = true) :
    Inv (s.setHandler j p) :=
  h.of_stay hm hwas hholds hbefore
    (fun hs => by cases p <;> first | cases hs; done | cases hrests)
    (h.good j).unread (.rest hrests ((h.turn hm hwas hholds).2.level hlags))

theorem manager (h : Inv s) (hm : s.run = some m) {l : ManagerLabel}
    (hs : managerStep s m l = some t) : Inv t := by
  have hok := h.run m hm
  revert hs
  fun_cases managerStep s m l <;> intro hs <;> try cases hs
  -- `first`: the ids agree
  next j hwas _ => exact h.of_rest hwas rfl (fun _ => rfl) rfl
  next j hwas hne => exact absurd hok.id.symm hne
  -- `claim`, on a run that is finished or goes on
  next j hwas _ => exact h.of_rest hwas rfl (fun hb => by cases hb) rfl
  next j hwas _ =>
    have hgood := (h.good j).rest (p := .claimed m.ioStream) hwas rfl (fun _ => rfl) rfl
    exact h.of_turn hm { hok with } (hgood.setDesk rfl _) (.inl rfl) rfl rfl rfl rfl
  -- `closePrev`
  next j prev hwas =>
    exact (h.of_closeIO prev).of_rest ((closeIO_handler prev j).trans hwas) rfl (fun _ => rfl) rfl
  -- `turn`: nobody has it
  next j hcond =>
    obtain ⟨hwas, hturn⟩ := hcond
    have hrun : Run.Ok { m with ioTurn := some j } s.runner.emitted s.store s.streamId s.top :=
      { hok with idle := fun hn => by cases hn }
    exact h.of_turn hm hrun ((h.good j).go hwas rfl (fun _ => rfl) (fun hs => by cases hs)
      (h.good j).unread rfl (.rest rfl (hok.idle hturn)))
      (.inr fun i _ => h.nobody hm hturn i) rfl rfl rfl rfl
  -- `giveUp`
  next j hwas =>
    have hgood := (h.good j).rest (p := .gone) hwas rfl (fun hb => by cases hb) rfl
    exact h.of_dropIO hm (hgood.setDesk rfl _)
  -- `look` and `resume`
  next j hwas => exact h.of_level hm hwas rfl rfl (fun _ => rfl) (by split <;> rfl)
  next j hwas =>
    exact h.of_stay hm hwas rfl (fun _ => rfl) (fun hs => by cases hs) (h.good j).unread
      (.resuming ((h.turn hm hwas rfl).2.level rfl))
  -- `openStream`, `receive`, `push` and `setDelivered`
  next j n hwas => exact h.of_openStream hm hwas
  next j hwas =>
    obtain ⟨f, hf, rfl⟩ := Option.map_eq_some_iff.mp hs
    exact h.of_receive hm hwas hf
  next j f hwas _ =>
    cases f with
    | state st => exact h.of_pushState hm hwas
    | event ev => exact h.of_pushEvent hm hwas
  next j seq hwas => exact h.of_setDelivered hm hwas
  -- `leave`, before the Open or after it
  next j hwas => exact h.of_level hm hwas rfl rfl (fun hb => by cases hb) rfl
  next j n hwas => exact h.of_level hm hwas rfl rfl (fun hb => by cases hb) rfl
  next j pending hwas => exact h.of_level hm hwas rfl rfl (fun hb => by cases hb) rfl
  -- `drop`, with the turn
  next j hwas =>
    obtain ⟨hturn, hstage⟩ := h.turn hm hwas rfl
    exact h.of_dropIO hm ((h.good j).go hwas rfl (fun hb => by cases hb) (fun hs => by cases hs)
      (h.good j).unread hturn (.rest rfl (hstage.level rfl)))
  -- `release`: nobody has the turn
  next j hwas =>
    have hrun : Run.Ok { m with ioTurn := none } s.runner.emitted s.store s.streamId s.top :=
      { hok with idle := fun _ => (h.turn hm hwas rfl).2.level rfl }
    have hgood := (h.good j).rest (p := .gone) hwas rfl (fun hb => by cases hb) rfl
    exact h.of_turn hm hrun (hgood.setDesk rfl _) (.inr (h.alone hwas rfl)) rfl rfl rfl rfl
  -- `takeClaim` and `closeClaim`
  next clear => exact h.of_run hm { hok with } rfl
  next j _ => exact (h.of_closeIO (some j)).of_run hm { hok with } rfl
  -- `sendCommands`
  next j d hcond =>
    obtain ⟨c, -, rfl⟩ := Option.map_eq_some_iff.mp hs
    exact h.of_setSender hm (.inl fun hoff => by cases hcond.1.symm.trans hoff) trivial
  next j id c hplace _ =>
    rw [State.setSender, setStream_setStream]
    exact h.of_send (by simp [hplace]) rfl trivial trivial
  next j id hplace =>
    exact h.of_sender hm { hok with } rfl (.inl (by simp [hplace])) trivial
  next j d hcond =>
    exact h.of_setSender hm (.inl fun hoff => by cases hcond.1.symm.trans hoff) hok.acked
  next j n hplace _ =>
    have hn := (h.good j).sender
    rw [hplace] at hn
    exact h.of_send (by simp [hplace]) rfl hn trivial
  next j => exact h.of_setSender hm (.inr rfl) trivial

end Inv

end AgentOps.Link.AgentIO
