import AgentOps.Api.Vocab
import AgentOps.Lib.Bytes
import AgentOps.Lib.Transaction
import Mathlib.Data.Int.Order.Basic
import Mathlib.Data.List.Nodup

/-!
# The session store

`harness/internal/sessionstore/sqlite`: the statements of `query.sql` over the tables of the
migrations, and the operations of `store.go` that change them. A database has the constraints of the
tables as proofs; a statement that would break one fails. A statement outside a transaction is one
of its own. The times that the operations read are their arguments; counters do not overflow.
-/

namespace AgentOps.SessionStore

open AgentOps.Api AgentOps.Lib

/-! ## The tables -/

structure SessionRow where
  id : String
  clientID : String
  conversationRef : String
  templateName : String := ""
  templateSpec : String := ""
  initialPrompt : String := ""
  sandboxClaimName : String := ""
  sandboxName : String := ""
  acpSessionID : String := ""
  status : SessionState := .pending
  runID : String := ""
  approvalURL : String := ""
  runExpiresAt : ℤ := 0
  approverSubject : String := ""
  parentSessionID : String := ""
  eventSeq : ℕ := 0
  turnSeq : ℕ := 0
  suspendedAt : ℤ := 0
  createdAt : ℤ
  updatedAt : ℤ
  executor : String := ""
  streamID : String := ""
  podSeq : ℤ := 0
  launchedAt : ℤ := 0
deriving DecidableEq, Repr

/-- `status NOT IN ('ended', 'interrupted')`. -/
def SessionRow.live (r : SessionRow) : Bool := r.status ≠ .ended ∧ r.status ≠ .interrupted

structure EventRow where
  sessionID : String
  seq : ℕ
  eventType : String
  turnID : String
  time : ℤ
  payload : Bytes
deriving DecidableEq, Repr

structure CommandRow where
  sessionID : String
  kind : String
  key : String
  turnID : String
  payload : Bytes
deriving DecidableEq, Repr

/-- The primary key of `pod_commands`. -/
def CommandRow.primary (c : CommandRow) : String × String × String := (c.sessionID, c.kind, c.key)

/-- The two rows are not both live for one conversation. -/
def SessionRow.Apart (a b : SessionRow) : Prop :=
  a.live = true → b.live = true →
    ¬ (a.clientID = b.clientID ∧ a.conversationRef = b.conversationRef)

instance (a b : SessionRow) : Decidable (a.Apart b) :=
  inferInstanceAs (Decidable (_ → _ → ¬ _))

/-- `idx_sessions_live_conversation`. -/
def LiveConversation (rows : List SessionRow) : Prop := rows.Pairwise SessionRow.Apart

instance (rows : List SessionRow) : Decidable (LiveConversation rows) :=
  inferInstanceAs (Decidable (rows.Pairwise _))

structure Db where
  sessions : List SessionRow := []
  events : List EventRow := []
  commands : List CommandRow := []
  ids : (sessions.map SessionRow.id).Nodup := by decide
  liveConversation : LiveConversation sessions := by decide
  eventKeys : (events.map fun e => (e.sessionID, e.seq)).Nodup := by decide
  commandKeys : (commands.map CommandRow.primary).Nodup := by decide

inductive StoreError
  /-- A statement that did not run. -/
  | failed
  /-- `UNIQUE constraint failed`. -/
  | unique
  /-- `sql.ErrNoRows`. -/
  | noRows
  | notFound
  | conflict
deriving DecidableEq, Repr

def Db.setSessions (db : Db) (rows : List SessionRow) : Except StoreError Db :=
  if h : (rows.map SessionRow.id).Nodup ∧ LiveConversation rows then
    .ok { db with sessions := rows, ids := h.1, liveConversation := h.2 }
  else .error .unique

def Db.setEvents (db : Db) (rows : List EventRow) : Except StoreError Db :=
  if h : (rows.map fun e => (e.sessionID, e.seq)).Nodup then
    .ok { db with events := rows, eventKeys := h }
  else .error .unique

def Db.setCommands (db : Db) (rows : List CommandRow) : Except StoreError Db :=
  if h : (rows.map CommandRow.primary).Nodup then
    .ok { db with commands := rows, commandKeys := h }
  else .error .unique

/-! ## The statements -/

/-- The rows after an `UPDATE` of those that match. -/
def updated (p : SessionRow → Bool) (f : SessionRow → SessionRow) (rows : List SessionRow) :
    List SessionRow :=
  rows.map fun r => if p r then f r else r

abbrev Stmt (α : Type) := Tx Db StoreError α

/-- `UPDATE sessions`, with the number of its rows. -/
def updateWhere (p : SessionRow → Bool) (f : SessionRow → SessionRow) : Stmt ℕ :=
  .stmt .failed fun db =>
    (db.setSessions (updated p f db.sessions)).map fun db' => (db.sessions.countP p, db')

def hasID (id : String) (r : SessionRow) : Bool := r.id = id

def updateByID (id : String) (f : SessionRow → SessionRow) : Stmt ℕ := updateWhere (hasID id) f

/-- `UPDATE sessions … WHERE id = ? RETURNING`. -/
def updateReturning (id : String) (f : SessionRow → SessionRow) (field : SessionRow → ℕ) : Stmt ℕ :=
  .stmt .failed fun db =>
    match db.sessions.find? (hasID id) with
    | none => .error .noRows
    | some r =>
      (db.setSessions (updated (hasID id) f db.sessions)).map fun db' => (field (f r), db')

def insertSession (row : SessionRow) : Stmt Unit :=
  .stmt .failed fun db => (db.setSessions (db.sessions ++ [row])).map fun db' => ((), db')

def getSession (id : String) : Stmt (Option SessionRow) :=
  .stmt .failed fun db => .ok (db.sessions.find? (hasID id), db)

def finishSessionRow (status : SessionState) (now : ℤ) (id : String) : Stmt ℕ :=
  updateWhere (fun r => hasID id r && r.live) fun r => { r with status, updatedAt := now }

def nextSessionEventSeq (id : String) : Stmt ℕ :=
  updateReturning id (fun r => { r with eventSeq := r.eventSeq + 1 }) SessionRow.eventSeq

def nextTurnSeqRow (id : String) : Stmt ℕ :=
  updateReturning id (fun r => { r with turnSeq := r.turnSeq + 1 }) SessionRow.turnSeq

def insertSessionEvent (row : EventRow) : Stmt Unit :=
  .stmt .failed fun db => (db.setEvents (db.events ++ [row])).map fun db' => ((), db')

def updateSessionLinkRow (executor streamID : String) (podSeq now : ℤ) (id : String) : Stmt ℕ :=
  updateByID id fun r => { r with
    executor, streamID
    podSeq := if r.streamID = streamID then max r.podSeq podSeq else podSeq
    updatedAt := now }

def advancePodSeqRow (podSeq : ℤ) (id : String) : Stmt ℕ :=
  updateByID id fun r => { r with podSeq := max r.podSeq podSeq }

/-- `INSERT … ON CONFLICT DO UPDATE`. -/
def putPodCommandRow (row : CommandRow) : Stmt Unit :=
  .stmt .failed fun db =>
    let rows :=
      if ∃ c ∈ db.commands, c.primary = row.primary then
        db.commands.map fun c => if c.primary = row.primary then row else c
      else db.commands ++ [row]
    (db.setCommands rows).map fun db' => ((), db')

/-- `DELETE FROM pod_commands` of the rows that match. -/
def deleteWhere (p : CommandRow → Bool) : Stmt Unit :=
  .stmt .failed fun db =>
    (db.setCommands (db.commands.filter fun c => !p c)).map fun db' => ((), db')

def deletePodCommandRow (sessionID kind key : String) : Stmt Unit :=
  deleteWhere fun c => c.sessionID = sessionID ∧ c.kind = kind ∧ c.key = key

def deletePodCommandsForTurnRows (sessionID turnID : String) : Stmt Unit :=
  deleteWhere fun c => c.sessionID = sessionID ∧ c.turnID = turnID

def deletePodCommandsForSession (sessionID : String) : Stmt Unit :=
  deleteWhere fun c => c.sessionID = sessionID

/-! ## The transactions -/

structure NewSessionEvent where
  eventType : String
  turnID : String := ""
  time : ℤ
  payload : Bytes := []
deriving DecidableEq, Repr

/-- The next number of the session, and the row with it. -/
def pushEvent (sessionID : String) (ev : NewSessionEvent) : Stmt ℕ := do
  let n ← nextSessionEventSeq sessionID
  insertSessionEvent ⟨sessionID, n, ev.eventType, ev.turnID, ev.time, ev.payload⟩
  return n

def StoreError.orNotFound : StoreError → StoreError
  | noRows => notFound
  | e => e

/-- The body of `appendEvent`; no other statement of it returns `sql.ErrNoRows`. -/
def appendEvent (sessionID : String) (ev : NewSessionEvent) (podSeq : ℤ) (endsTurn : Bool) :
    Stmt ℕ := do
  let n ← (pushEvent sessionID ev).mapError StoreError.orNotFound
  Tx.when (endsTurn = true) (deletePodCommandsForTurnRows sessionID ev.turnID)
  Tx.when (podSeq > 0) (advancePodSeqRow podSeq sessionID)
  return n

/-- The loop of `FinishSession`. -/
def pushEvents (sessionID : String) : List NewSessionEvent → Stmt (List ℕ)
  | [] => return []
  | ev :: evs => do
    let n ← pushEvent sessionID ev
    let ns ← pushEvents sessionID evs
    return n :: ns

/-- The body of `FinishSession`. -/
def finishBody (sessionID : String) (status : SessionState) (now : ℤ)
    (events : List NewSessionEvent) : Stmt (List ℕ) := do
  let n ← finishSessionRow status now sessionID
  if n = 0 then
    match ← getSession sessionID with
    | none => .fail .notFound
    | some _ => .fail .conflict
  else
    deletePodCommandsForSession sessionID
    pushEvents sessionID events

/-! ## The operations -/

/-- The operations that change the store. -/
inductive Op
  | createSession (row : SessionRow) (now : ℤ)
  | updateSessionSandbox (id claimName sandboxName : String) (status : SessionState) (now : ℤ)
  | updateSessionACP (id acpSessionID : String) (status : SessionState) (now : ℤ)
  | updateSessionStatus (id : String) (status : SessionState) (now : ℤ)
  | updateSessionApprover (id approverSubject : String) (now : ℤ)
  | updateSessionSuspended (id : String) (status : SessionState) (suspendedAt now : ℤ)
  | updateSessionLaunched (id : String) (status : SessionState) (launchedAt now : ℤ)
  | updateSessionRun (id runID approvalURL : String) (runExpiresAt : ℤ) (status : SessionState)
    (now : ℤ)
  | updateSessionRunExpiry (id : String) (runExpiresAt now : ℤ)
  | updateSessionLink (id executor streamID : String) (podSeq now : ℤ)
  | advancePodSeq (id : String) (podSeq : ℤ)
  | nextTurnSeq (id : String)
  | appendSessionEvent (id : String) (ev : NewSessionEvent)
  | appendPodEvent (id : String) (ev : NewSessionEvent) (podSeq : ℤ)
  | appendPodTurnEnd (id : String) (ev : NewSessionEvent) (podSeq : ℤ)
  | finishSession (id : String) (status : SessionState) (events : List NewSessionEvent) (now : ℤ)
  | putPodCommand (cmd : CommandRow)
  | deletePodCommand (sessionID kind key : String)
  | deletePodCommandsForTurn (sessionID turnID : String)
  | deletePodCommands (sessionID : String)
deriving DecidableEq, Repr

/-- The row that `CreateSession` inserts: the columns that it does not name have their defaults. -/
def newRow (row : SessionRow) (now : ℤ) : SessionRow where
  id := row.id
  clientID := row.clientID
  conversationRef := row.conversationRef
  templateName := row.templateName
  templateSpec := row.templateSpec
  initialPrompt := row.initialPrompt
  status := if row.status = .unspecified then .pending else row.status
  parentSessionID := row.parentSessionID
  createdAt := now
  updatedAt := now
  launchedAt := now

/-- The numbers that an operation returns. -/
abbrev Result := Except StoreError (List ℕ)

def returning {α : Type} (g : α → List ℕ) (r : Except StoreError α × Db) : Result × Db :=
  (r.1.map g, r.2)

/-- An operation that returns nothing but its error. -/
def quietly {α : Type} (r : Except StoreError α × Db) : Result × Db := returning (fun _ => []) r

def numbered (r : Except StoreError ℕ × Db) : Result × Db := returning (fun n => [n]) r

/-- `oneRow`. -/
def oneRow (r : Except StoreError ℕ × Db) : Result × Db :=
  (match r.1 with
    | .ok 0 => .error .notFound
    | .ok _ => .ok []
    | .error e => .error e, r.2)

def StoreError.orConflict : StoreError → StoreError
  | unique => conflict
  | e => e

/-- An operation, with the faults of its statements. -/
def Op.run (op : Op) (faults : List Bool) (db : Db) : Result × Db :=
  match op with
  | createSession row now =>
    quietly (Tx.inTx .failed ((insertSession (newRow row now)).mapError StoreError.orConflict)
      db faults)
  | updateSessionSandbox id claimName sandboxName status now =>
    quietly (Tx.inTx .failed (updateByID id fun r => { r with
      sandboxClaimName := claimName, sandboxName, status, updatedAt := now }) db faults)
  | updateSessionACP id acpSessionID status now =>
    quietly (Tx.inTx .failed (updateByID id fun r => { r with
      acpSessionID, status, updatedAt := now }) db faults)
  | updateSessionStatus id status now =>
    quietly (Tx.inTx .failed (updateByID id fun r => { r with
      status, updatedAt := now }) db faults)
  | updateSessionApprover id approverSubject now =>
    quietly (Tx.inTx .failed (updateByID id fun r => { r with
      approverSubject, updatedAt := now }) db faults)
  | updateSessionSuspended id status suspendedAt now =>
    quietly (Tx.inTx .failed (updateByID id fun r => { r with
      status, suspendedAt, updatedAt := now }) db faults)
  | updateSessionLaunched id status launchedAt now =>
    quietly (Tx.inTx .failed (updateByID id fun r => { r with
      status, launchedAt, updatedAt := now }) db faults)
  | updateSessionRun id runID approvalURL runExpiresAt status now =>
    quietly (Tx.inTx .failed (updateByID id fun r => { r with
      runID, approvalURL, runExpiresAt, status, updatedAt := now }) db faults)
  | updateSessionRunExpiry id runExpiresAt now =>
    quietly (Tx.inTx .failed (updateByID id fun r => { r with
      runExpiresAt, updatedAt := now }) db faults)
  | updateSessionLink id executor streamID podSeq now =>
    oneRow (Tx.inTx .failed (updateSessionLinkRow executor streamID podSeq now id) db faults)
  | advancePodSeq id podSeq => oneRow (Tx.inTx .failed (advancePodSeqRow podSeq id) db faults)
  | nextTurnSeq id =>
    numbered (Tx.inTx .failed ((nextTurnSeqRow id).mapError StoreError.orNotFound) db faults)
  | appendSessionEvent id ev => numbered (Tx.inTx .failed (appendEvent id ev 0 false) db faults)
  | appendPodEvent id ev podSeq =>
    numbered (Tx.inTx .failed (appendEvent id ev podSeq false) db faults)
  | appendPodTurnEnd id ev podSeq =>
    numbered (Tx.inTx .failed (appendEvent id ev podSeq true) db faults)
  | finishSession id status events now =>
    Tx.inTx .failed (finishBody id status now events) db faults
  | putPodCommand cmd => quietly (Tx.inTx .failed (putPodCommandRow cmd) db faults)
  | deletePodCommand sessionID kind key =>
    quietly (Tx.inTx .failed (deletePodCommandRow sessionID kind key) db faults)
  | deletePodCommandsForTurn sessionID turnID =>
    quietly (Tx.inTx .failed (deletePodCommandsForTurnRows sessionID turnID) db faults)
  | deletePodCommands sessionID =>
    quietly (Tx.inTx .failed (deletePodCommandsForSession sessionID) db faults)

/-- The store: an operation is one step, and any of its statements may fail. -/
def step (db : Db) (l : Op × List Bool) : Option Db := some (l.1.run l.2 db).2

end AgentOps.SessionStore
