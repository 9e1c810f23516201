import AgentOps.Service.PendingPrograms

/-!
# The admission of sessions

A call that creates a session or continues a suspended one passes `admit` (`harnessapi/quota.go`)
first. It holds the lock `admission` while `checkQuotas` reads the sessions of the client from the
store and then counts the launches of this process, and while the row is inserted and the session is
claimed. Everything else goes on meanwhile: launches write their statuses and register, stops and
ends take sessions.

The model has all sessions of the service, each with its own threads, and the lock. A thread
performs the insert of a row, and the claim of a launch, only as the holder of the lock that was
accepted. The holder may give up the lock as soon as it has claimed its session; the code gives it
up a read later.
-/

namespace AgentOps.Service.Admission

open AgentOps.Api AgentOps.Link AgentOps.Lib

/-- `Quotas` of a `ClientBinding`. A limit that is not positive is none. -/
structure Quotas where
  createRatePerMinute : ℤ := 0
  maxLiveSessions : ℤ := 0
  maxPendingApprovals : ℤ := 0

section

variable (ι : Type)

/-- Where `admit` is. -/
inductive Phase
  /-- It holds the lock. -/
  | locked
  /-- `checkQuotas` has listed the sessions of the client, with their statuses. -/
  | listed (live : List (ι × SessionState))
  /-- `checkQuotas` returned no error. -/
  | accepted

/-- The holder of the lock. -/
structure Admit where
  session : ι
  thread : ℕ
  newSession : Bool
  phase : Phase ι

/-- The service: the sessions in the store, in the order of their inserts, the threads and the
memory of each, and the holder of `admission`. -/
structure Harness where
  rows : List ι := []
  sessions : ι → Config sig Mem
  admission : Option (Admit ι) := none

end

variable {ι κ : Type}

def Phase.isListed : Phase ι → Bool
  | .listed _ => true
  | _ => false

def Phase.isAccepted : Phase ι → Bool
  | .accepted => true
  | _ => false

/-! ## `checkQuotas` -/

section

variable [DecidableEq κ] (client : ι → κ)

/-- `ListSessionsByClient` of the sessions that are not over. -/
def Harness.listSessionsByClient (s : Harness ι) (k : κ) : List (ι × SessionState) :=
  s.rows.filterMap fun i =>
    if client i = k then
      ((s.sessions i).mem.status.filter fun st => !st.terminal).map fun st => (i, st)
    else none

/-- `launchesOf`. Only a session in the store has an owner. -/
def Harness.launchesOf (s : Harness ι) (k : κ) : List ι :=
  s.rows.filter fun i => decide (client i = k) && launchOwned (s.sessions i).mem.slot

end

/-- `checkQuotas` up to the count of the launches. A refused call has no phase. -/
def checkListed (q : Option Quotas) (newSession rateOk listOk : Bool)
    (live : List (ι × SessionState)) : Option (Phase ι) :=
  match q with
  | none => some .accepted
  | some q =>
    if 0 < q.createRatePerMinute ∧ rateOk = false then none
    else if (q.maxLiveSessions ≤ 0 ∨ newSession = false) ∧ q.maxPendingApprovals ≤ 0 then
      some .accepted
    else if listOk = false then none
    else if newSession = true ∧ 0 < q.maxLiveSessions ∧ q.maxLiveSessions ≤ live.length then none
    else if 0 < q.maxPendingApprovals then some (.listed live)
    else some .accepted

/-- The set `pending` of `checkQuotas`. -/
def pendingOf [DecidableEq ι] (launches : List ι) (live : List (ι × SessionState)) : List ι :=
  (launches ++ (live.filter fun x => pendingStatus x.2).map Prod.fst).dedup

/-- The end of `checkQuotas`. -/
def checkPending (q : Option Quotas) (pending : List ι) : Option (Phase ι) :=
  match q with
  | none => some .accepted
  | some q => if q.maxPendingApprovals ≤ pending.length then none else some .accepted

/-! ## Steps -/

inductive Label (ι : Type)
  /-- A thread of a session enters `admit`. -/
  | lock (i : ι) (t : ℕ)
  /-- `checkQuotas` asks the rate limiter and lists the sessions of the client. -/
  | list (rateOk listOk : Bool)
  /-- `checkQuotas` counts the pending sessions. -/
  | count
  /-- `admit` returns after `accept`. -/
  | unlock
  /-- A step of a session. -/
  | run (i : ι) (l : ThreadLabel sig Choice EnvStep)
  /-- The process starts again. -/
  | crash

section

variable [DecidableEq ι]

/-- What the lock allows: the holder inserts and claims once it is accepted, and nobody else
does. -/
def Harness.allows (s : Harness ι) (i : ι) (l : ThreadLabel sig Choice EnvStep) : Bool :=
  match l with
  | .crash => false
  | .run t _ => (System.pending (s.sessions i) t).all fun op => !spends op ||
      s.admission.any fun a => decide (a.session = i) && decide (a.thread = t) &&
        a.phase.isAccepted && (!inserts op || a.newSession)
  | _ => true

/-- A session moves on, and its row may be inserted. -/
def Harness.move (s : Harness ι) (i : ι) (x : Config sig Mem) : Harness ι :=
  { s with
    rows := if (s.sessions i).mem.status.isNone && x.mem.status.isSome then s.rows ++ [i]
      else s.rows
    sessions := Function.update s.sessions i x }

variable [DecidableEq κ] (cfg : Settings) (client : ι → κ) (binding : κ → Option Quotas)

/-- A call that is refused may be made again. -/
def step (s : Harness ι) : Label ι → Option (Harness ι)
  | .lock i t =>
    match s.admission, System.pending (s.sessions i) t with
    | none, some op =>
      if spends op then some { s with admission := some ⟨i, t, inserts op, .locked⟩ } else none
    | _, _ => none
  | .list rateOk listOk =>
    match s.admission with
    | some ⟨i, t, newSession, .locked⟩ =>
      let live := s.listSessionsByClient client (client i)
      let r := checkListed (binding (client i)) newSession rateOk listOk live
      some { s with admission := r.map fun phase => ⟨i, t, newSession, phase⟩ }
    | _ => none
  | .count =>
    match s.admission with
    | some ⟨i, t, newSession, .listed live⟩ =>
      let r := checkPending (binding (client i))
        (pendingOf (s.launchesOf client (client i)) live)
      some { s with admission := r.map fun phase => ⟨i, t, newSession, phase⟩ }
    | _ => none
  | .unlock =>
    match s.admission with
    | some ⟨i, t, _, .accepted⟩ =>
      if (System.pending (s.sessions i) t).any spends then none
      else some { s with admission := none }
    | _ => none
  | .run i l =>
    if s.allows i l then ((system cfg).step (s.sessions i) l).map (s.move i) else none
  | .crash =>
    some { s with
      sessions := fun i => ((system cfg).step (s.sessions i) .crash).getD (s.sessions i)
      admission := none }

end

end AgentOps.Service.Admission
