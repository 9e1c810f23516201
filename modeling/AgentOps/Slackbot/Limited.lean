import AgentOps.Lib.Machine
import Mathlib.Data.List.Basic
import Mathlib.Data.Nat.Notation

/-!
# The rate-limited Slack client

`slackbot/internal/slackclient/limited.go`: updates of a message that is being streamed are
parked in `pending`, one for each message, and sent by a worker when the limits allow it. A final
update or a delete is guaranteed: it cancels what is parked for the message and sends under the
lock of the message, and it is the last word on the message.

A step is a section under `Limited.mu`, the lock of a message, or a call of Slack. What a limiter
allows and what Slack answers is the choice of the step.
-/

namespace AgentOps.Slackbot.Limited

open AgentOps.Lib

/-- A message of Slack. -/
structure Target where
  channel : String
  ts : String
deriving DecidableEq, Repr

/-- `updateKey`. -/
def Target.updateKey (m : Target) : String := m.channel ++ "|" ++ m.ts

/-- `pendingUpdate`; the number tells the updates apart that were submitted. -/
structure PendingUpdate where
  target : Target
  number : ℕ
deriving DecidableEq, Repr

/-- Who can hold the lock of a message. -/
inductive Party
  | worker
  | call (c : ℕ)
deriving DecidableEq, Repr

/-- Where the worker is in `drain`, with the update that `nextSendable` gave it. -/
inductive WorkerPlace
  | idle
  | took (up : PendingUpdate)
  | waits (up : PendingUpdate) (mu : ℕ)
  | holds (up : PendingUpdate) (mu : ℕ)
  | sent (up : PendingUpdate) (mu : ℕ) (ok : Bool)
  | failed (up : PendingUpdate)
deriving DecidableEq, Repr

/-- The update that the worker has in hand. -/
def WorkerPlace.inHand : WorkerPlace → Option PendingUpdate
  | .idle => none
  | .took up | .waits up _ | .holds up _ | .sent up _ _ | .failed up => some up

/-- Where a guaranteed call is. -/
inductive CallPlace
  | started
  | cancelled
  | waits (mu : ℕ)
  | holds (mu : ℕ)
  | sent (mu : ℕ)
  | cleared (mu : ℕ)
  | returned
deriving DecidableEq, Repr

/-- A call of `UpdateMessage` or `DeleteMessage`. -/
structure Call where
  target : Target
  delete : Bool
  place : CallPlace := .started
deriving DecidableEq, Repr

/-- What is written down of a run. -/
inductive Event
  /-- A debounced update was submitted. -/
  | submit (m : Target) (n : ℕ)
  /-- A guaranteed call started, and returned success. -/
  | start (m : Target) (c : ℕ)
  | done (m : Target) (c : ℕ)
  /-- A debounced update was sent. -/
  | send (m : Target) (n : ℕ)
deriving DecidableEq, Repr

/-- `Limited`; a mutex is a number with its holder. -/
structure Client where
  pending : String → Option PendingUpdate := fun _ => none
  order : List String := []
  sendMu : String → Option ℕ := fun _ => none
  mutexes : ℕ := 0
  holder : ℕ → Option Party := fun _ => none
  worker : WorkerPlace := .idle
  calls : ℕ → Option Call := fun _ => none
  submitted : ℕ := 0
  log : List Event := []

namespace Client

/-- `keyMu`. -/
def keyMu (s : Client) (key : String) : ℕ × Client :=
  match s.sendMu key with
  | some mu => (mu, s)
  | none => (s.mutexes, { s with
      sendMu := Function.update s.sendMu key (some s.mutexes), mutexes := s.mutexes + 1 })

/-- `cancelPending`. -/
def cancelPending (s : Client) (key : String) : Client :=
  if s.pending key = none then s
  else { s with pending := Function.update s.pending key none, order := s.order.erase key }

/-- `UpdateMessageDebounced`. -/
def updateMessageDebounced (s : Client) (m : Target) : Client :=
  { s with
    order := if s.pending m.updateKey = none then s.order ++ [m.updateKey] else s.order
    pending := Function.update s.pending m.updateKey (some ⟨m, s.submitted⟩)
    submitted := s.submitted + 1
    log := s.log ++ [.submit m s.submitted] }

/-- `nextSendable`: the loop over the keys that are parked, with what the limiters allow. -/
def nextSendable : ℕ → List Bool → Client → Option PendingUpdate × Client
  | 0, _, s => (none, s)
  | n + 1, allows, s =>
    match s.order with
    | [] => (none, s)
    | key :: order =>
      match s.pending key with
      | none => nextSendable n allows { s with order }
      | some up =>
        if allows.head? = some true then
          (some up, { s with order, pending := Function.update s.pending key none })
        else nextSendable n allows.tail { s with order := order ++ [key] }

/-- The end of `drain` for an update whose send failed. -/
def repark (s : Client) (up : PendingUpdate) : Client :=
  if s.pending up.target.updateKey = none then
    { s with
      pending := Function.update s.pending up.target.updateKey (some up)
      order := s.order ++ [up.target.updateKey]
      worker := .idle }
  else { s with worker := .idle }

def setCall (s : Client) (c : ℕ) (call : Call) (place : CallPlace) : Client :=
  { s with calls := Function.update s.calls c (some { call with place }) }

def setHolder (s : Client) (mu : ℕ) (p : Option Party) : Client :=
  { s with holder := Function.update s.holder mu p }

/-- `delete(l.sendMu, key)` after a delete, unless the key has another mutex by now. -/
def clear (s : Client) (key : String) (mu : ℕ) : Client :=
  if s.sendMu key = some mu then { s with sendMu := Function.update s.sendMu key none } else s

end Client

/-- The steps. -/
inductive Label
  | submit (m : Target)
  | start (c : ℕ) (m : Target) (delete : Bool)
  /-- The steps of a guaranteed call: `cancelPending`, `keyMu`, `Lock`, a send of `guaranteed`
  (which is tried again when it is refused), an error that is returned, `delete(l.sendMu, key)`
  and the return. -/
  | cancel (c : ℕ)
  | callMu (c : ℕ)
  | callLock (c : ℕ)
  | callSend (c : ℕ) (ok : Bool)
  | giveUp (c : ℕ)
  | clear (c : ℕ)
  | ret (c : ℕ)
  /-- The steps of the worker. -/
  | take (allows : List Bool)
  | workerMu
  | workerLock
  | workerSend (ok : Bool)
  | workerUnlock
  | repark
deriving DecidableEq, Repr

/-- A step of the guaranteed call `c`. -/
def callStep (s : Client) (c : ℕ) (call : Call) : Label → Option Client
  | .cancel _ =>
    if call.place = .started then
      some ((s.cancelPending call.target.updateKey).setCall c call .cancelled)
    else none
  | .callMu _ =>
    if call.place = .cancelled then
      let r := s.keyMu call.target.updateKey
      some (r.2.setCall c call (.waits r.1))
    else none
  | .callLock _ =>
    match call.place with
    | .waits mu =>
      if s.holder mu = none then some ((s.setHolder mu (some (.call c))).setCall c call (.holds mu))
      else none
    | _ => none
  | .callSend _ ok =>
    match call.place with
    | .holds mu => some (if ok then s.setCall c call (.sent mu) else s)
    | _ => none
  | .giveUp _ =>
    match call.place with
    | .holds mu => some ((s.setHolder mu none).setCall c call .returned)
    | _ => none
  | .clear _ =>
    match call.place with
    | .sent mu =>
      if call.delete then
        some ((s.clear call.target.updateKey mu).setCall c call (.cleared mu))
      else none
    | _ => none
  | .ret _ =>
    match call.place, call.delete with
    | .sent mu, false | .cleared mu, true =>
      let s := (s.setHolder mu none).setCall c call .returned
      some { s with log := s.log ++ [.done call.target c] }
    | _, _ => none
  | _ => none

/-- A step of the worker. -/
def workerStep (s : Client) : Label → Option Client
  | .take allows =>
    match s.worker with
    | .idle =>
      let r := Client.nextSendable s.order.length allows s
      some { r.2 with worker := match r.1 with
        | some up => .took up
        | none => .idle }
    | _ => none
  | .workerMu =>
    match s.worker with
    | .took up =>
      let r := s.keyMu up.target.updateKey
      some { r.2 with worker := .waits up r.1 }
    | _ => none
  | .workerLock =>
    match s.worker with
    | .waits up mu =>
      if s.holder mu = none then some { s.setHolder mu (some .worker) with worker := .holds up mu }
      else none
    | _ => none
  | .workerSend ok =>
    match s.worker with
    | .holds up mu => some { s with
        worker := .sent up mu ok, log := s.log ++ [.send up.target up.number] }
    | _ => none
  | .workerUnlock =>
    match s.worker with
    | .sent up mu ok => some { s.setHolder mu none with
        worker := if ok then .idle else .failed up }
    | _ => none
  | .repark =>
    match s.worker with
    | .failed up => some (s.repark up)
    | _ => none
  | _ => none

/-- One step. -/
def step (s : Client) (l : Label) : Option Client :=
  match l with
  | .submit m => some (s.updateMessageDebounced m)
  | .start c m delete =>
    if s.calls c = none then
      some { s with
        calls := Function.update s.calls c (some { target := m, delete })
        log := s.log ++ [.start m c] }
    else none
  | .cancel c | .callMu c | .callLock c | .callSend c _ | .giveUp c | .clear c | .ret c =>
    (s.calls c).bind fun call => callStep s c call l
  | .take _ | .workerMu | .workerLock | .workerSend _ | .workerUnlock | .repark => workerStep s l

/-- A debounced update of `m` was submitted, then a guaranteed call for `m` started and returned
success, and then the update was sent. -/
def Overwritten (log : List Event) : Prop :=
  ∃ m n c, List.Sublist [.submit m n, .start m c, .done m c, .send m n] log

/-- When a guaranteed call cancels, the worker has no update of its message in hand. -/
def freeHanded (s : Client) : Label → Prop
  | .cancel c => ∀ call ∈ s.calls c, ∀ up ∈ s.worker.inHand, up.target ≠ call.target
  | _ => True

instance (s : Client) (l : Label) : Decidable (freeHanded s l) := by
  cases l <;> unfold freeHanded <;> infer_instance

end AgentOps.Slackbot.Limited
