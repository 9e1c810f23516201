import AgentOps.Api.Events
import AgentOps.Lib.Machine

/-!
# The event feeds of the client SDKs

`harness/api/client/subscribe.go`, `sdk/ts/src/subscribe.ts` and
`sdk/python/src/agentops_harness/subscribe.py`: a feed opens a stream of the server after a
position of the log, hands the events to its consumer, and opens another one from where it is when
the stream is cut or goes silent. The Go client reads a stream in a goroutine and hands the events
over on a channel; the other two are generators. What a stream sends, how it ends and when a
deadline passes are choices of the steps. A feed that its consumer closes is left out.
-/

namespace AgentOps.Sdk

open AgentOps.Lib AgentOps.Api

/-! ## The streams of the server -/

/-- `Sentinel`, without the one that is not set. -/
inductive Sentinel
  | notFound
  | unknownRequest
  | forbidden
  | conflict
  | invalidState
  | notRevivable
  | invalidArgument
  | unavailable
  | quotaExceeded
deriving DecidableEq, Repr

/-- An error, by the sentinel that it names: `api.FromConnect`, `sentinelOf` and `sentinel_of`. -/
abbrev Fault := Option Sentinel

/-- `final` of an error of the server, `finalSentinels` and `_FINAL`. -/
def Fault.final : Fault → Bool
  | some .notFound | some .forbidden | some .invalidArgument => true
  | _ => false

/-- `SubscribeResponse`. -/
inductive Frame
  | keepalive
  | event (e : Event)
deriving DecidableEq

/-- How a stream ended for the client. -/
inductive Ending
  | clean
  | error (f : Fault)
  /-- The deadline passed. -/
  | silent
deriving DecidableEq

/-- The events of a log after a position. -/
def logAfter (log : List Event) (n : ℤ) : List Event := log.filter fun e => n < e.seq

/-- A stream, with the frame that the client has received and did not look at. -/
structure Wire where
  after : ℤ
  sent : List Event := []
  hand : Option Frame := none
  closed : Option Ending := none
deriving DecidableEq

/-- A stream sends the events of the log after its position, in order and without a gap, and
keepalives. -/
def Wire.send (log : List Event) (w : Wire) (f : Frame) : Option Wire :=
  if w.hand = none ∧ w.closed = none then
    match f with
    | .keepalive => some { w with hand := some f }
    | .event e =>
      if (w.sent ++ [e]).isPrefixOf (logAfter log w.after) then
        some { w with hand := some f, sent := w.sent ++ [e] }
      else none
  else none

/-- The server ends a stream. -/
def Wire.cut (w : Wire) (e : Ending) : Option Wire :=
  if w.closed = none ∧ e ≠ .silent then some { w with closed := some e } else none

/-! ## What the feeds have in common -/

/-- Where a feed is. -/
inductive Place
  /-- A stream was opened, and its first frame is waited for. -/
  | opening (initial : Bool)
  | reading
  /-- The consumer is given an event. -/
  | handing (e : Event)
  /-- Before the next attempt. -/
  | waiting
  | ended
  /-- There is no feed: `subscribe` returned an error. -/
  | failed
deriving DecidableEq

/-- A stream that the client is done with: the frames it looked at, and the end. -/
structure Outcome where
  frames : List Frame
  ending : Ending
deriving DecidableEq

/-- The stream of a feed and the events that its consumer has. The streams before, and what was
looked at of this one, are written down for the proofs only. -/
structure Line where
  wire : Wire
  place : Place := .opening true
  out : List Event := []
  past : List Outcome := []
  seen : List Frame := []
deriving DecidableEq

/-- A stream is open. -/
def Place.open : Place → Bool
  | .opening _ | .reading | .handing _ => true
  | .waiting | .ended | .failed => false

/-- The client looked at a frame. -/
def Line.note (s : Line) (f : Frame) : Line := { s with seen := s.seen ++ [f] }

/-- The client is done with the stream. -/
def Line.done (s : Line) (e : Ending) (p : Place) : Line :=
  { s with place := p, past := s.past ++ [⟨s.seen, e⟩], seen := [] }

/-- The steps of a feed and its server. -/
inductive Label
  | send (f : Frame)
  | cut (e : Ending)
  /-- The client takes a frame. -/
  | take
  /-- The consumer takes an event, or asks for the next one. -/
  | give
  /-- The client sees the end of the stream. -/
  | finish
  | silence
  | retry
deriving DecidableEq

/-- The steps of the server. -/
def Line.serve (log : List Event) (s : Line) : Label → Option Line
  | .send f => if s.place.open then (s.wire.send log f).map fun w => { s with wire := w } else none
  | .cut e => if s.place.open then (s.wire.cut e).map fun w => { s with wire := w } else none
  | _ => none

/-- Opening a stream failed: there is no feed if it was the first one, and after a final error no
other attempt. -/
def refused (initial : Bool) (f : Fault) : Place :=
  if initial then .failed else if f.final then .ended else .waiting

/-! ## The Go client -/

/-- A `Subscription`: `afterSeq` of `run`, and `last` of `drain`. -/
structure GoFeed where
  line : Line
  afterSeq : ℤ
  last : ℤ
deriving DecidableEq

def GoFeed.init (afterSeq : ℤ) : GoFeed where
  line := { wire := { after := afterSeq } }
  afterSeq := afterSeq
  last := afterSeq

/-- `deliver`, up to the send to the consumer. -/
def GoFeed.deliver (s : GoFeed) (f : Frame) : GoFeed :=
  match f with
  | .keepalive => { s with line := { s.line.note f with place := .reading } }
  | .event e =>
    if e.seq ≤ s.last then { s with line := { s.line.note f with place := .reading } }
    else { s with line := { s.line with place := .handing e } }

/-- `run` after `drain` gave a stream up. -/
def GoFeed.dropped (s : GoFeed) (e : Ending) : GoFeed :=
  { s with line := s.line.done e .waiting, afterSeq := max s.afterSeq s.last }

/-- One step of the Go client. -/
def goStep (log : List Event) (s : GoFeed) (l : Label) : Option GoFeed :=
  match l with
  | .send _ | .cut _ => (s.line.serve log l).map fun line => { s with line := line }
  | .take =>
    match s.line.wire.hand with
    | none => none
    | some f =>
      let s := { s with line := { s.line with wire := { s.line.wire with hand := none } } }
      match s.line.place with
      -- `open` returns the first frame, and `drain` delivers it
      | .opening _ => some ({ s with last := s.afterSeq }.deliver f)
      | .reading => some (s.deliver f)
      | _ => none
  | .give =>
    match s.line.place with
    | .handing e =>
      some { s with
        last := e.seq
        line := { s.line.note (.event e) with
          out := s.line.out ++ [e]
          place := if e.payload.isSessionEnded then .ended else .reading } }
    | _ => none
  | .finish =>
    match s.line.wire.hand, s.line.wire.closed with
    | none, some e =>
      match s.line.place, e with
      -- `errLogFinished`
      | .opening _, .clean => some { s with line := s.line.done e .ended }
      | .opening initial, .error f => some { s with line := s.line.done e (refused initial f) }
      | .reading, .clean => some { s with line := s.line.done e .ended }
      | .reading, .error _ => some (s.dropped e)
      | _, _ => none
    | _, _ => none
  | .silence =>
    match s.line.place with
    | .opening initial => some { s with line := s.line.done .silent (refused initial none) }
    | .reading => some (s.dropped .silent)
    | _ => none
  | .retry =>
    if s.line.place = .waiting then
      some { s with line := { s.line with
        wire := { after := s.afterSeq }, place := .opening false } }
    else none

/-! ## The TypeScript and the Python client -/

/-- A feed of the other clients: `last`, and `self._last`. -/
structure GenFeed where
  line : Line
  last : ℤ
deriving DecidableEq

def GenFeed.init (afterSeq : ℤ) : GenFeed where
  line := { wire := { after := afterSeq } }
  last := afterSeq

/-- The body of the loop of `events` and of `_run`, for one frame: the cursor moves before the
event is yielded. -/
def GenFeed.deliver (s : GenFeed) (f : Frame) : GenFeed :=
  match f with
  | .keepalive => { s with line := { s.line.note f with place := .reading } }
  | .event e =>
    if s.last < e.seq then
      { last := e.seq
        line := { s.line.note f with out := s.line.out ++ [e], place := .handing e } }
    else { s with line := { s.line.note f with place := .reading } }

/-- `reopen` of the TypeScript client, which is called with an error of its own: there is a next
attempt after every cut. -/
def tsReopens (_ : Fault) : Bool := true

/-- `_reopen` of the Python client, which is called with the error that cut the stream: the first
attempt raises it, and `retry_if_exception` looks at it. -/
def pyReopens (dropped : Fault) : Bool := !dropped.final

/-- One step of a client with the given way to open a stream again. -/
def genStep (reopens : Fault → Bool) (log : List Event) (s : GenFeed) (l : Label) :
    Option GenFeed :=
  match l with
  | .send _ | .cut _ => (s.line.serve log l).map fun line => { s with line := line }
  | .take =>
    match s.line.wire.hand with
    | none => none
    | some f =>
      let s := { s with line := { s.line with wire := { s.line.wire with hand := none } } }
      match s.line.place with
      | .opening _ | .reading => some (s.deliver f)
      | _ => none
  | .give =>
    match s.line.place with
    | .handing e => some { s with line := { s.line with
        place := if e.payload.isSessionEnded then .ended else .reading } }
    | _ => none
  | .finish =>
    match s.line.wire.hand, s.line.wire.closed with
    | none, some e =>
      match s.line.place, e with
      | .opening _, .clean => some { s with line := s.line.done e .ended }
      | .opening initial, .error f => some { s with line := s.line.done e (refused initial f) }
      | .reading, .clean => some { s with line := s.line.done e .ended }
      | .reading, .error f =>
        some { s with line := s.line.done e (if reopens f then .waiting else .ended) }
      | _, _ => none
    | _, _ => none
  | .silence =>
    match s.line.place with
    | .opening initial => some { s with line := s.line.done .silent (refused initial none) }
    | .reading =>
      some { s with line := s.line.done .silent (if reopens none then .waiting else .ended) }
    | _ => none
  | .retry =>
    if s.line.place = .waiting then
      some { s with line := { s.line with wire := { after := s.last }, place := .opening false } }
    else none

end AgentOps.Sdk
