import AgentOps.Api.Events
import AgentOps.Lib.Machine
import Mathlib.Logic.Function.Basic

/-!
# The event log and its subscriptions

`durableLog` (`harnessapi/eventlog.go`, `finish.go`): writers commit events to the store
and publish them afterwards, one by one, to the subscriptions of the session; each
subscription has a goroutine, `pump`, that reads pages of the stored log and follows the
published events.

A commit and the publishes after it are separate steps, so that another writer, a page
read or a consumer can come in between. The machine is the log of one session with any
number of writers and subscriptions.
-/

namespace AgentOps.EventLog

open AgentOps.Api

/-- `sessionstore.DefaultEventPage`. -/
def defaultEventPage : ℕ := 500

/-- `subscriberBuffer`, the capacity of a subscription's live channel. -/
def subscriberBuffer : ℕ := 32

/-! ## The stored log -/

/-- The event rows of one session and its `event_seq` column. -/
structure Rows where
  eventSeq : ℤ := 0
  rows : List Event := []

/-- `NextSessionEventSeq` and `InsertSessionEvent`. -/
def Rows.insert (r : Rows) (ev : String × Payload) : Rows where
  eventSeq := r.eventSeq + 1
  rows := r.rows ++ [⟨r.eventSeq + 1, ev.1, ev.2⟩]

/-- The events of one transaction, in order. -/
def Rows.insertAll (r : Rows) (evs : List (String × Payload)) : Rows := evs.foldl Rows.insert r

/-- `ListSessionEvents`: `WHERE seq > ? ORDER BY seq LIMIT ?`; rows stand in the order of
their insertion, which is the order of `seq`. -/
def Rows.listSessionEvents (r : Rows) (afterSeq : ℤ) (limit : ℕ) : List Event :=
  (r.rows.filter fun ev => afterSeq < ev.seq).take limit

/-- `durableLog.History` when the store answers. -/
def Rows.history (r : Rows) (afterSeq : ℤ) (limit : ℤ) : List Event :=
  r.listSessionEvents afterSeq
    (if limit ≤ 0 ∨ (defaultEventPage : ℤ) < limit then defaultEventPage else limit.toNat)

/-! ## A subscription -/

/-- Where the goroutine of a subscription stands. -/
inductive Pump
  /-- `Subscribe` registered the subscription and has not read the first page. -/
  | first
  /-- `Subscribe` found the first page empty and asks `endsAt`. -/
  | endsAt
  /-- In the loop over a page: the events still to send, and whether the page was full. -/
  | batch (rest : List Event) (full : Bool)
  /-- In the select of the live loop. -/
  | live
  /-- In the inner select, with an event of the live channel to send. -/
  | offer (ev : Event)
  /-- About to read the next page. -/
  | read
  /-- Returned, or never started. -/
  | done
deriving DecidableEq, Repr

/-- `subscription`, with the events its consumer got. -/
structure Subscription where
  afterSeq : ℤ
  /-- In `durableLog.subs`. -/
  registered : Bool := true
  live : List Event := []
  stale : Bool := false
  /-- The consumer called `Close`. -/
  closed : Bool := false
  pump : Pump := .first
  sent : ℤ
  got : List Event := []
deriving DecidableEq, Repr

namespace Subscription

/-- `publish` for one subscription: the live channel if it has room, else the stale mark. -/
def publish (ev : Event) (s : Subscription) : Subscription :=
  if s.registered then
    if s.live.length < subscriberBuffer then { s with live := s.live ++ [ev] }
    else { s with stale := true }
  else s

/-- The goroutine returns: `close(s.out)` and `unsubscribe`. -/
def finish (s : Subscription) : Subscription := { s with registered := false, pump := .done }

/-- `s.out <- ev` succeeded; the goroutine returns after `SessionEnded`. -/
def send (ev : Event) (next : Pump) (s : Subscription) : Subscription :=
  let s := { s with sent := ev.seq, got := s.got ++ [ev] }
  if ev.payload.isSessionEnded then s.finish else { s with pump := next }

/-- The pump has a page in hand. -/
def withBatch (batch : List Event) (s : Subscription) : Subscription :=
  { s with pump := .batch batch (decide (defaultEventPage ≤ batch.length)) }

/-- A step of a subscription. -/
inductive Label
  /-- `History` in `Subscribe` answers, or fails. -/
  | firstRead (ok : Bool)
  /-- `endsAt` answers, or fails. -/
  | endsAtRead (ok : Bool)
  /-- The loop over a page skips an event it sent already, or ends. -/
  | next
  /-- The consumer receives the event that the goroutine offers. -/
  | receive
  /-- The select takes an event from the live channel. -/
  | takeLive
  /-- The select takes the stale mark. -/
  | takeStale
  /-- `History` in `pump` answers, or fails. -/
  | reread (ok : Bool)
  /-- A select takes `s.done` or `ctx.Done()`. -/
  | cancel
  /-- The consumer calls `Close`. -/
  | close
deriving DecidableEq, Repr

/-- One step of a subscription over the stored log. -/
def step (store : Rows) (s : Subscription) : Label → Option Subscription
  | .firstRead ok =>
    match s.pump with
    | .first =>
      if ok then
        let batch := store.history s.afterSeq defaultEventPage
        if batch.length = 0 ∧ 0 < s.afterSeq then some { s with pump := .endsAt }
        else some (s.withBatch batch)
      else some s.finish
    | _ => none
  | .endsAtRead ok =>
    match s.pump with
    | .endsAt =>
      if ok then
        match store.history (s.afterSeq - 1) 1 with
        | [ev] => if ev.payload.isSessionEnded then some s.finish else some (s.withBatch [])
        | _ => some (s.withBatch [])
      else some s.finish
    | _ => none
  | .next =>
    match s.pump with
    | .batch (ev :: rest) full =>
      if ev.seq ≤ s.sent then some { s with pump := .batch rest full } else none
    | .batch [] full => some { s with pump := if full then .read else .live }
    | _ => none
  | .receive =>
    match s.pump with
    | .batch (ev :: rest) full =>
      if ev.seq ≤ s.sent then none else some (s.send ev (.batch rest full))
    | .offer ev => some (s.send ev .live)
    | _ => none
  | .takeLive =>
    match s.pump, s.live with
    | .live, ev :: rest =>
      let s := { s with live := rest }
      if ev.seq ≤ s.sent then some s
      else if ev.seq ≠ s.sent + 1 then some { s with pump := .read }
      else some { s with pump := .offer ev }
    | _, _ => none
  | .takeStale =>
    match s.pump with
    | .live => if s.stale then some { s with stale := false, pump := .read } else none
    | _ => none
  | .reread ok =>
    match s.pump with
    | .read =>
      if ok then some (s.withBatch (store.history s.sent defaultEventPage)) else some s.finish
    | _ => none
  | .cancel =>
    match s.pump with
    | .batch (_ :: _) _ | .live | .offer _ => some s.finish
    | _ => none
  | .close => some { s with closed := true, registered := false }

/-- The goroutine waits: it stands in the live select, which has nothing to take. -/
def Waits (s : Subscription) : Prop :=
  s.pump = .live ∧ s.live = [] ∧ s.stale = false ∧ s.closed = false

/-- The last seq that was sent, or `afterSeq` if nothing was. -/
def lastSent (s : Subscription) : ℤ := (s.got.getLast?.map Event.seq).getD s.afterSeq

end Subscription

/-! ## The machine -/

/-- The log of one session, its writers and its subscriptions. -/
structure State where
  store : Rows := {}
  /-- What each writer has committed and not published yet, in order. -/
  writers : ℕ → List Event := fun _ => []
  subs : ℕ → Option Subscription := fun _ => none

/-- A step of a writer or of a subscription. -/
inductive Label
  /-- Writer `w` commits: one event of `append`, or the events of `Finish`. -/
  | commit (w : ℕ) (evs : List (String × Payload))
  /-- Writer `w` publishes the next event it committed. -/
  | publish (w : ℕ)
  /-- A consumer subscribes. -/
  | subscribe (i : ℕ) (afterSeq : ℤ)
  /-- Subscription `i` makes a step. -/
  | sub (i : ℕ) (l : Subscription.Label)
deriving DecidableEq, Repr

/-- One step of the machine. -/
def step (s : State) : Label → Option State
  | .commit w evs =>
    if s.writers w = [] then
      let store := s.store.insertAll evs
      some { s with
        store := store
        writers := Function.update s.writers w (store.rows.drop s.store.rows.length) }
    else none
  | .publish w =>
    match s.writers w with
    | ev :: rest =>
      some { s with
        writers := Function.update s.writers w rest
        subs := fun i => (s.subs i).map (Subscription.publish ev) }
    | [] => none
  | .subscribe i afterSeq =>
    match s.subs i with
    | none => some { s with subs := Function.update s.subs i (some { afterSeq, sent := afterSeq }) }
    | some _ => none
  | .sub i l =>
    match s.subs i with
    | some sub => (sub.step s.store l).map fun sub' =>
      { s with subs := Function.update s.subs i (some sub') }
    | none => none

end AgentOps.EventLog
