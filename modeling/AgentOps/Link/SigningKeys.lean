import AgentOps.Lib.History
import AgentOps.Lib.Machine
import Mathlib.Data.Nat.Notation
import Mathlib.Logic.Function.Basic

/-!
# The cache of signing keys

`key`, `cachedKey`, `refresh` and `fetchJWKS` of `agentlink/assertion.go`, for any number of
lookups. What runs under `v.mu` is one step: the check of a lookup, and the end of a fetch. A fetch
runs in its own goroutine with a context that its caller cannot cancel, and what the server replies
is its choice; a lookup that waits goes on when the channel of its fetch is closed, or returns the
error of its context, which its caller may cancel at any time.

Times are nanoseconds of the clock, and the zero `time.Time`, which the clock does not show, is
`none`. Beside the fields of the verifier a state has the log of what happened.
-/

namespace AgentOps.Link.SigningKeys

open AgentOps.Lib

/-! ## The model -/

def second : ℕ := 1000000000

def jwksRefetchInterval : ℕ := 30 * second

def jwksMaxAge : ℕ := 5 * 60 * second

structure JSONWebKey where
  keyID : String
  key : ℕ
  valid : Bool := true
  isPublic : Bool := true
deriving DecidableEq, Repr

/-- A `map[string]jose.JSONWebKey`. -/
abbrev KeySet := String → Option JSONWebKey

inductive FetchError
  | newRequest
  | fetch
  | status (code : ℕ)
  | decode
  | noUsableKeys
deriving DecidableEq, Repr

/-- What comes of a request. -/
inductive Reply
  | badRequest
  | failed
  | response (status : ℕ) (body : Option (List JSONWebKey))
deriving DecidableEq, Repr

def fetchJWKS : Reply → Except FetchError KeySet
  | .badRequest => .error .newRequest
  | .failed => .error .fetch
  | .response status body =>
    if status ≠ 200 then .error (.status status)
    else
      match body with
      | none => .error .decode
      | some set =>
        let usable := set.filter fun k => k.valid && k.isPublic
        if usable = [] then .error .noUsableKeys
        else .ok (usable.foldl (fun keys k => Function.update keys k.keyID (some k)) fun _ => none)

/-- The errors of `key`. -/
inductive LookupError
  | fetchFailed (err : FetchError)
  | throttled (kid : String)
  | noKey (kid : String)
  | context
deriving DecidableEq, Repr

/-- `errors.Is(err, ErrKeysUnavailable)`, which `verify` answers with the code `Unavailable`; the
other errors are final. -/
def LookupError.keysUnavailable : LookupError → Bool
  | fetchFailed _ | throttled _ => true
  | noKey _ | context => false

/-- What `cachedKey` returns. -/
inductive Verdict
  | key (k : JSONWebKey)
  | refetch
  | error (err : LookupError)
deriving DecidableEq, Repr

inductive Stage
  /-- The lookup is at the top of its loop. -/
  | checking (waited : Bool)
  /-- It is in the `select`, with the channel of a fetch. -/
  | waiting (fetch : ℕ)
  | returned
deriving DecidableEq, Repr

structure Lookup where
  kid : String
  stage : Stage := .checking false
  cancelled : Bool := false
deriving DecidableEq, Repr

inductive Event
  | began (id : ℕ) (kid : String)
  | cancelled (id : ℕ)
  | fetchStarted (id : ℕ) (now : ℕ)
  | fetchEnded (now : ℕ) (result : Except FetchError KeySet)
  | returned (id : ℕ) (now : ℕ) (answer : Except LookupError JSONWebKey)

structure State where
  clock : ℕ := 0
  keys : KeySet := fun _ => none
  fetchedAt : Option ℕ := none
  lastFetch : Option ℕ := none
  fetchErr : Option FetchError := none
  fetching : Option ℕ := none
  /-- The channels that were made, by their numbers, and those that are closed. -/
  made : ℕ := 0
  closed : List ℕ := []
  lookups : ℕ → Option Lookup := fun _ => none
  log : List Event := []

inductive Label
  | tick (d : ℕ)
  | lookup (id : ℕ) (kid : String)
  | check (id : ℕ)
  | fetched (reply : Reply)
  | wake (id : ℕ)
  | cancel (id : ℕ)
  | giveUp (id : ℕ)
deriving DecidableEq, Repr

namespace State

def cachedKey (s : State) (kid : String) (waited : Bool) : Verdict :=
  match s.keys kid with
  | some k => if s.fetchedAt.any fun t => s.clock < t + jwksMaxAge then .key k else stale
  | none => stale
where
  stale : Verdict :=
    if s.lastFetch.all fun t => t + jwksRefetchInterval ≤ s.clock then .refetch
    else
      match s.fetchErr with
      | some err => .error (.fetchFailed err)
      | none => .error (if waited then .noKey kid else .throttled kid)

/-- The lookup is at another place. -/
def move (s : State) (id : ℕ) (l : Lookup) (stage : Stage) : State :=
  { s with lookups := Function.update s.lookups id (some { l with stage }) }

def answer (s : State) (id : ℕ) (l : Lookup) (a : Except LookupError JSONWebKey) : State :=
  { s.move id l .returned with log := s.log ++ [Event.returned id s.clock a] }

/-- The lookup makes a channel and starts a fetch. -/
def start (s : State) (id : ℕ) (l : Lookup) : State :=
  { s.move id l (.waiting s.made) with
    fetching := some s.made
    made := s.made + 1
    log := s.log ++ [Event.fetchStarted id s.clock] }

/-- What `refresh` does when the fetch returned. -/
def refresh (s : State) (done : ℕ) (result : Except FetchError KeySet) : State :=
  let s' := { s with
    lastFetch := some s.clock
    fetching := none
    closed := s.closed ++ [done]
    log := s.log ++ [Event.fetchEnded s.clock result] }
  match result with
  | .ok keys => { s' with fetchErr := none, keys, fetchedAt := some s.clock }
  | .error err => { s' with fetchErr := some err }

def step (s : State) : Label → Option State
  | .tick d => some { s with clock := s.clock + d }
  | .lookup id kid =>
    match s.lookups id with
    | some _ => none
    | none =>
      some { s with
        lookups := Function.update s.lookups id (some { kid })
        log := s.log ++ [Event.began id kid] }
  | .check id =>
    match s.lookups id with
    | some l =>
      match l.stage with
      | .checking waited =>
        match s.fetching with
        | some wait => some (s.move id l (.waiting wait))
        | none =>
          match s.cachedKey l.kid waited with
          | .key k => some (s.answer id l (.ok k))
          | .error err => some (s.answer id l (.error err))
          | .refetch => some (s.start id l)
      | _ => none
    | none => none
  | .fetched reply => s.fetching.map fun done => s.refresh done (fetchJWKS reply)
  | .wake id =>
    match s.lookups id with
    | some l =>
      match l.stage with
      | .waiting wait => if wait ∈ s.closed then some (s.move id l (.checking true)) else none
      | _ => none
    | none => none
  | .cancel id =>
    match s.lookups id with
    | some l =>
      some { s with
        lookups := Function.update s.lookups id (some { l with cancelled := true })
        log := s.log ++ [Event.cancelled id] }
    | none => none
  | .giveUp id =>
    match s.lookups id with
    | some l =>
      match l.stage with
      | .waiting _ => if l.cancelled then some (s.answer id l (.error .context)) else none
      | _ => none
    | none => none

end State

/-! ## What a step does -/

/-- The outcomes of a step. -/
inductive Move (s : State) : State → Prop
  | tick (d : ℕ) : Move s { s with clock := s.clock + d }
  | lookup {id : ℕ} {kid : String} (hnew : s.lookups id = none) :
    Move s { s with
      lookups := Function.update s.lookups id (some { kid })
      log := s.log ++ [Event.began id kid] }
  | wait {id : ℕ} {l : Lookup} {waited : Bool} {wait : ℕ} (hl : s.lookups id = some l)
    (hstage : l.stage = .checking waited) (hwait : s.fetching = some wait) :
    Move s (s.move id l (.waiting wait))
  | key {id : ℕ} {l : Lookup} {waited : Bool} {k : JSONWebKey} (hl : s.lookups id = some l)
    (hstage : l.stage = .checking waited) (hidle : s.fetching = none)
    (hcached : s.cachedKey l.kid waited = .key k) : Move s (s.answer id l (.ok k))
  | error {id : ℕ} {l : Lookup} {waited : Bool} {err : LookupError} (hl : s.lookups id = some l)
    (hstage : l.stage = .checking waited) (hidle : s.fetching = none)
    (hcached : s.cachedKey l.kid waited = .error err) : Move s (s.answer id l (.error err))
  | start {id : ℕ} {l : Lookup} {waited : Bool} (hl : s.lookups id = some l)
    (hstage : l.stage = .checking waited) (hidle : s.fetching = none)
    (hcached : s.cachedKey l.kid waited = .refetch) : Move s (s.start id l)
  | fetched {done : ℕ} {result : Except FetchError KeySet} (hfetching : s.fetching = some done) :
    Move s (s.refresh done result)
  | wake {id : ℕ} {l : Lookup} {wait : ℕ} (hl : s.lookups id = some l)
    (hstage : l.stage = .waiting wait) (hclosed : wait ∈ s.closed) :
    Move s (s.move id l (.checking true))
  | cancel {id : ℕ} {l : Lookup} (hl : s.lookups id = some l) :
    Move s { s with
      lookups := Function.update s.lookups id (some { l with cancelled := true })
      log := s.log ++ [Event.cancelled id] }
  | giveUp {id : ℕ} {l : Lookup} {wait : ℕ} (hl : s.lookups id = some l)
    (hstage : l.stage = .waiting wait) (hcancelled : l.cancelled = true) :
    Move s (s.answer id l (.error .context))

theorem step_move {s t : State} {lab : Label} (h : s.step lab = some t) : Move s t := by
  cases lab with
  | tick d =>
    obtain rfl := Option.some.inj h
    exact .tick d
  | lookup id kid =>
    unfold State.step at h
    dsimp only at h
    split at h
    · nomatch h
    · next hnew =>
      obtain rfl := Option.some.inj h
      exact .lookup hnew
  | check id =>
    unfold State.step at h
    dsimp only at h
    split at h
    · next l hl =>
      split at h
      · next waited hstage =>
        split at h
        · next wait hwait =>
          obtain rfl := Option.some.inj h
          exact .wait hl hstage hwait
        · next hidle =>
          split at h
          · next k hcached =>
            obtain rfl := Option.some.inj h
            exact .key hl hstage hidle hcached
          · next err hcached =>
            obtain rfl := Option.some.inj h
            exact .error hl hstage hidle hcached
          · next hcached =>
            obtain rfl := Option.some.inj h
            exact .start hl hstage hidle hcached
      · nomatch h
    · nomatch h
  | fetched reply =>
    obtain ⟨done, hdone, rfl⟩ := Option.map_eq_some_iff.mp h
    exact .fetched hdone
  | wake id =>
    unfold State.step at h
    dsimp only at h
    split at h
    · next l hl =>
      split at h
      · next wait hstage =>
        split at h
        · next hclosed =>
          obtain rfl := Option.some.inj h
          exact .wake hl hstage hclosed
        · nomatch h
      · nomatch h
    · nomatch h
  | cancel id =>
    unfold State.step at h
    dsimp only at h
    split at h
    · next l hl =>
      obtain rfl := Option.some.inj h
      exact .cancel hl
    · nomatch h
  | giveUp id =>
    unfold State.step at h
    dsimp only at h
    split at h
    · next l hl =>
      split at h
      · next wait hstage =>
        split at h
        · next hcancelled =>
          obtain rfl := Option.some.inj h
          exact .giveUp hl hstage hcancelled
        · nomatch h
      · nomatch h
    · nomatch h

end AgentOps.Link.SigningKeys
