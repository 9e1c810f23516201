import AgentOps.Lib.History
import AgentOps.Lib.Machine
import Mathlib

/-!
# The loop that keeps a token

`Loop.Run` of `harness/internal/sidecar/agentic/loop.go`: it polls for a token, hands a new one to
the sink, and sleeps until the next poll. An iteration is one step. The clock, the poller, the sink,
the backoff and the contexts are its inputs; the clock does not go back.

Times are nanoseconds after the zero `time.Time`, which `heldAt` has while no token is held. The
lifetime of a token is a `time.Duration` of 64 bits, and what is left of it may wrap around.
-/

namespace AgentOps.Sidecar.TokenLoop

open AgentOps.Lib

/-! ## The model -/

def second : ℤ := 1000000000

def reasonRevokedOrExpired : String := "revoked_or_expired"

def reasonASUnreachable : String := "as_unreachable"

def reasonConfigError : String := "config_error"

structure Token where
  bearer : String
  runID : String
  expiresIn : Int64
deriving DecidableEq, Repr

variable {t : Token}

inductive PollResult
  | ok (token : Token)
  | pending
  | retryable
  | terminal (reason : String)
deriving DecidableEq, Repr

/-- What `Run` returns: the error of its context, or a `TerminalError`. -/
inductive LoopError
  | context
  | terminal (reason : String)
deriving DecidableEq, Repr

/-- The durations of `LoopConfig` that the loop reads. -/
structure LoopConfig where
  pendingInterval : ℤ
  rotationInterval : ℤ
deriving DecidableEq, Repr

/-- The defaults of `NewLoop`. -/
def LoopConfig.newLoop (c : LoopConfig) : LoopConfig :=
  { c with pendingInterval := if c.pendingInterval ≤ 0 then 3 * second else c.pendingInterval }

/-- `rotationInterval`; Go's division rounds towards zero. -/
def LoopConfig.rotationOf (c : LoopConfig) (t : Token) : ℤ :=
  let d := if 0 < c.rotationInterval then c.rotationInterval else 600 * second
  let share := t.expiresIn.toInt.tdiv 6
  if 0 < share then min d share else d

/-- What an iteration meets: its readings of the clock before and after the poll, and what the
others answer. -/
structure Tick where
  cancelled : Bool := false
  polledAt : ℕ
  readAt : ℕ
  result : PollResult
  sinkOk : Bool := true
  backoff : ℤ := second
  sleepOk : Bool := true
deriving DecidableEq, Repr

variable {i : Tick}

/-- The clock does not go back, and an interval of the backoff is not negative. -/
def Tick.fits (i : Tick) (clock : ℕ) : Prop :=
  clock ≤ i.polledAt ∧ i.polledAt ≤ i.readAt ∧ 0 ≤ i.backoff

instance (i : Tick) (clock : ℕ) : Decidable (i.fits clock) := inferInstanceAs (Decidable (_ ∧ _))

/-- What is written down of an iteration that polled: whether the sink was called, with its answer,
and how long the loop slept. -/
structure Record where
  polledAt : ℕ
  readAt : ℕ
  result : PollResult
  sink : Option Bool := none
  sleep : Option ℤ := none
deriving DecidableEq, Repr

structure Loop where
  held : Option Token := none
  heldAt : ℕ := 0
  clock : ℕ := 0
  ended : Option LoopError := none
  log : List Record := []
deriving DecidableEq, Repr

variable {s : Loop}

/-- `t.Sub(u)`, which stays at the longest and the shortest duration. -/
def timeSub (t u : ℕ) : Int64 := .ofInt (max (min ((t : ℤ) - u) (2 ^ 63 - 1)) (-2 ^ 63))

namespace Loop

/-- `remaining`. -/
def remaining (s : Loop) (now : ℕ) : Option ℤ :=
  s.held.map fun t => (t.expiresIn - timeSub now s.heldAt).toInt

def fail (s : Loop) (i : Tick) (sink : Option Bool) (reason : String) : Loop :=
  { s with
    ended := some (.terminal reason)
    log := s.log ++ [{ polledAt := i.polledAt, readAt := i.readAt, result := i.result, sink }] }

/-- `sleep`, which fails with the error of the context. -/
def sleep (s : Loop) (i : Tick) (sink : Option Bool) (d : ℤ) : Loop :=
  { s with
    ended := if i.sleepOk then none else some .context
    log := s.log ++ [{
      polledAt := i.polledAt, readAt := i.readAt, result := i.result, sink, sleep := some d }] }

/-- A poll that gave no token: the loop ends if the held token has expired, and else sleeps. -/
def wait (s : Loop) (i : Tick) (d : ℤ) (reason : String) : Loop :=
  match s.remaining i.readAt with
  | none => s.sleep i none d
  | some left => if left ≤ 0 then s.fail i none reason else s.sleep i none (min d left)

/-- A token that was delivered is held, from the time before its poll. -/
def hold (s : Loop) (c : LoopConfig) (i : Tick) (t : Token) (sink : Option Bool) : Loop :=
  let left := (t.expiresIn - timeSub i.readAt i.polledAt).toInt
  { s with held := some t, heldAt := i.polledAt }.sleep i sink (max (min (c.rotationOf t) left) 0)

/-- An iteration of `Run` after its poll. -/
def iterate (s : Loop) (c : LoopConfig) (i : Tick) : Loop :=
  match i.result with
  | .ok t =>
    let first := s.heldAt = 0
    let unchanged := ¬ first ∧ s.held.map Token.bearer = some t.bearer
    if unchanged then s.hold c i t none
    else if i.sinkOk then s.hold c i t (some true)
    else s.fail i (some false) reasonConfigError
  | .pending => s.wait i c.pendingInterval reasonRevokedOrExpired
  | .retryable => s.wait i i.backoff reasonASUnreachable
  | .terminal reason => s.fail i none reason

/-- An iteration of `Run`. -/
def step (c : LoopConfig) (s : Loop) (i : Tick) : Option Loop :=
  if s.ended.isSome then none
  else if i.cancelled then some { s with ended := some .context }
  else if i.fits s.clock then some ({ s with clock := i.readAt }.iterate c.newLoop i)
  else none

end Loop

/-- No poll gives a token with a negative lifetime. -/
def PollResult.lasting : PollResult → Bool
  | .ok t => decide (0 ≤ t.expiresIn.toInt)
  | _ => true

/-- The clock is past the zero time, which `first` takes for no token, and the lifetime of a token
is not negative. -/
def regular (_ : Loop) (i : Tick) : Prop := 0 < i.polledAt ∧ i.result.lasting = true

instance (s : Loop) (i : Tick) : Decidable (regular s i) := inferInstanceAs (Decidable (_ ∧ _))

/-! ## What is expected of a run -/

/-- The token that an iteration took over, with the time before its poll. -/
def Record.taken (r : Record) : Option (Token × ℕ) :=
  match r.result, r.sink with
  | .ok _, some false => none
  | .ok t, _ => some (t, r.polledAt)
  | _, _ => none

/-- The token of the latest poll that succeeded and whose token the sink did not refuse. -/
def latest (log : List Record) : Option (Token × ℕ) :=
  log.foldl (fun found r => r.taken.or found) none

/-- What is left of the lifetime of a token at a time, which counts from before its poll: a whole
number, which no wrap changes. -/
def left (t : Token × ℕ) (now : ℕ) : ℤ := t.1.expiresIn.toInt - ((now : ℤ) - t.2)

/-- An iteration after others sleeps within the lifetime of the token that is held then, and calls
the sink if and only if its token is not the one that was held. -/
structure Sound (before : List Record) (r : Record) : Prop where
  sleep : ∀ d t, r.sleep = some d → latest (before ++ [r]) = some t →
    0 ≤ d ∧ d ≤ max 0 (left t r.readAt)
  sink : r.sink.isSome = true ↔
    ∃ t, r.result = .ok t ∧ (latest before).map (fun held => held.1.bearer) ≠ some t.bearer

/-- The held token has expired when the poll of an iteration returns without a token. -/
def Expired (before : List Record) (r : Record) : Prop :=
  (∀ t, r.result ≠ .ok t) ∧ ∃ t, latest before = some t ∧ left t r.readAt ≤ 0

/-! ## One iteration -/

theorem latest_concat (log : List Record) (r : Record) :
    latest (log ++ [r]) = r.taken.or (latest log) := by
  unfold latest
  rw [List.foldl_append]
  rfl

/-- What is left by the clock of the loop. It stays at the longest duration only when the token has
expired. -/
theorem toInt_left (h : 0 ≤ t.expiresIn.toInt) {heldAt now : ℕ} (hle : heldAt ≤ now) :
    (t.expiresIn - timeSub now heldAt).toInt =
      max (left (t, heldAt) now) (t.expiresIn.toInt - (2 ^ 63 - 1)) := by
  have hlt := t.expiresIn.toInt_lt
  unfold timeSub left
  dsimp only
  rw [Int64.toInt_sub, Int64.toInt_ofInt_of_le (by omega) (by omega),
    Int.bmod_eq_of_le (by omega) (by omega)]
  omega

/-- The state has the token of the latest poll that was taken over. -/
structure Kept (s : Loop) : Prop where
  held : s.held = (latest s.log).map Prod.fst
  heldAt : ∀ t, latest s.log = some t → s.heldAt = t.2 ∧ 0 < t.2
  past : ∀ t, latest s.log = some t → t.2 ≤ s.clock ∧ 0 ≤ t.1.expiresIn.toInt
  zero : latest s.log = none → s.heldAt = 0

theorem Kept.remaining (h : Kept s) {now : ℕ} (hnow : s.clock ≤ now) :
    s.remaining now = (latest s.log).map fun t =>
      max (left t now) (t.1.expiresIn.toInt - (2 ^ 63 - 1)) := by
  unfold Loop.remaining
  rw [h.held]
  cases hl : latest s.log with
  | none => rfl
  | some t =>
    obtain ⟨hpast, hlasts⟩ := h.past t hl
    rw [(h.heldAt t hl).1]
    exact congrArg some (toInt_left hlasts (hpast.trans hnow))

/-- What an iteration does: it writes a record, and ends the loop if the token has expired. -/
structure Iterated (s t : Loop) (r : Record) : Prop where
  log : t.log = s.log ++ [r]
  kept : Kept t
  sound : Sound s.log r
  expired : Expired s.log r → ∃ reason, t.ended = some (.terminal reason)

section

variable {r : Record} {log : List Record}

theorem Record.taken_none (h : ∀ t, r.result ≠ .ok t) : r.taken = none := by
  unfold Record.taken
  split
  · rfl
  · rename_i hok _
    exact absurd hok (h _)
  · rfl

theorem Record.taken_refused (h : r.result = .ok t) (hsink : r.sink = some false) :
    r.taken = none := by
  unfold Record.taken
  rw [h, hsink]

theorem Record.taken_ok (h : r.result = .ok t) (hsink : r.sink ≠ some false) :
    r.taken = some (t, r.polledAt) := by
  unfold Record.taken
  rw [h]
  split
  · rename_i hfalse
    exact absurd hfalse hsink
  · rename_i heq _
    rw [PollResult.ok.inj heq]
  · rename_i hno _
    exact absurd rfl (hno t)

theorem latest_pass (h : r.taken = none) : latest (log ++ [r]) = latest log := by
  rw [latest_concat, h, Option.none_or]

theorem latest_take {taken : Token × ℕ} (h : r.taken = some taken) :
    latest (log ++ [r]) = some taken := by
  rw [latest_concat, h, Option.some_or]

/-- A record without a token leaves the held one. -/
theorem Kept.pass {t : Loop} (h : Kept s) (hlog : t.log = s.log ++ [r]) (hheld : t.held = s.held)
    (hat : t.heldAt = s.heldAt) (hclock : t.clock = s.clock) (hr : r.taken = none) : Kept t := by
  have hlatest : latest t.log = latest s.log := by rw [hlog, latest_pass hr]
  exact ⟨by rw [hheld, h.held, hlatest], by rw [hat, hlatest]; exact h.heldAt,
    by rw [hclock, hlatest]; exact h.past, by rw [hat, hlatest]; exact h.zero⟩

/-- A record with a token is the latest. -/
theorem Kept.take {taken : Token × ℕ} (hlog : s.log = log ++ [r]) (hheld : s.held = some taken.1)
    (hat : s.heldAt = taken.2) (hpos : 0 < taken.2) (hclock : taken.2 ≤ s.clock)
    (hlasts : 0 ≤ taken.1.expiresIn.toInt) (hr : r.taken = some taken) : Kept s := by
  have hlatest : latest s.log = some taken := by rw [hlog, latest_take hr]
  refine ⟨by rw [hheld, hlatest]; rfl, fun u hu => ?_, fun u hu => ?_, fun hnone => ?_⟩
  · obtain rfl := Option.some.inj (hlatest.symm.trans hu)
    exact ⟨hat, hpos⟩
  · obtain rfl := Option.some.inj (hlatest.symm.trans hu)
    exact ⟨hclock, hlasts⟩
  · rw [hlatest] at hnone
    cases hnone

/-- A record without a token is about the one that was held. -/
theorem Sound.pass (hresult : ∀ t, r.result ≠ .ok t) (hsink : r.sink = none)
    (hsleep : ∀ d t, r.sleep = some d → latest log = some t →
      0 ≤ d ∧ d ≤ max 0 (left t r.readAt)) : Sound log r where
  sleep d t hd ht := hsleep d t hd (by rwa [latest_pass (Record.taken_none hresult)] at ht)
  sink := by
    rw [hsink]
    exact iff_of_false Bool.false_ne_true fun ⟨t, ht, _⟩ => hresult t ht

end

/-- An iteration whose poll gave no token ends the loop. -/
theorem fail_iterated (h : Kept s) (i : Tick) (reason : String) (hresult : ∀ t, i.result ≠ .ok t) :
    ∃ r, Iterated s (s.fail i none reason) r :=
  ⟨_, rfl, h.pass rfl rfl rfl rfl (Record.taken_none hresult), .pass hresult rfl nofun,
    fun _ => ⟨reason, rfl⟩⟩

/-- An iteration whose poll gave no token waits. -/
theorem wait_iterated (h : Kept s) (hnow : s.clock ≤ i.readAt) {d : ℤ} (hd : 0 ≤ d)
    (reason : String) (hresult : ∀ t, i.result ≠ .ok t) :
    ∃ r, Iterated s (s.wait i d reason) r := by
  unfold Loop.wait
  rw [h.remaining hnow]
  cases hl : latest s.log with
  | none =>
    refine ⟨_, rfl, h.pass rfl rfl rfl rfl (Record.taken_none hresult), .pass hresult rfl ?_, ?_⟩
    · intro d' t _ ht
      cases hl.symm.trans ht
    · rintro ⟨-, t, ht, -⟩
      cases hl.symm.trans ht
  | some t =>
    -- the clock of the loop and the true time agree on whether the token has expired
    have hlt := t.1.expiresIn.toInt_lt
    show ∃ r, Iterated s (if max (left t i.readAt) _ ≤ 0 then _ else _) r
    split
    · exact fail_iterated h i reason hresult
    · rename_i hleft
      refine ⟨_, rfl, h.pass rfl rfl rfl rfl (Record.taken_none hresult), .pass hresult rfl ?_, ?_⟩
      · intro d' t' hd' ht'
        obtain rfl := Option.some.inj (hl.symm.trans ht')
        rw [← Option.some.inj hd']
        show 0 ≤ min d (max (left t i.readAt) _) ∧
          min d (max (left t i.readAt) _) ≤ max 0 (left t i.readAt)
        omega
      · rintro ⟨-, t', ht', hexpired⟩
        obtain rfl := Option.some.inj (hl.symm.trans ht')
        have hexpired : left t i.readAt ≤ 0 := hexpired
        omega

/-- An iteration whose token is taken over. -/
theorem hold_iterated (c : LoopConfig) {sink : Option Bool} (hresult : i.result = .ok t)
    (hpos : 0 < i.polledAt) (hlasts : 0 ≤ t.expiresIn.toInt) (hpolled : i.polledAt ≤ i.readAt)
    (hnow : s.clock = i.readAt) (hsink : sink ≠ some false)
    (hcalled : sink.isSome = true ↔
      (latest s.log).map (fun held => held.1.bearer) ≠ some t.bearer) :
    ∃ r, Iterated s (s.hold c i t sink) r := by
  unfold Loop.hold Loop.sleep
  dsimp only
  rw [toInt_left hlasts hpolled]
  generalize hd : max (min (c.rotationOf t)
    (max (left (t, i.polledAt) i.readAt) (t.expiresIn.toInt - (2 ^ 63 - 1)))) 0 = d
  let r : Record := ⟨i.polledAt, i.readAt, i.result, sink, some d⟩
  have htaken : r.taken = some (t, i.polledAt) := Record.taken_ok hresult hsink
  refine ⟨r, rfl, .take rfl rfl rfl hpos (hpolled.trans hnow.ge) hlasts htaken, ⟨?_, ?_⟩, ?_⟩
  · intro d' u hd' hu
    obtain rfl := Option.some.inj ((latest_take htaken).symm.trans hu)
    have hlt := t.expiresIn.toInt_lt
    rw [← Option.some.inj hd', ← hd]
    dsimp only [r]
    omega
  · rw [hcalled]
    constructor
    · exact fun hne => ⟨t, hresult, hne⟩
    · rintro ⟨t', ht', hne⟩
      obtain rfl := PollResult.ok.inj (hresult.symm.trans ht')
      exact hne
  · rintro ⟨hno, -⟩
    exact absurd hresult (hno t)

/-- An iteration whose token the sink refuses. -/
theorem refuse_iterated (h : Kept s) (reason : String) (hresult : i.result = .ok t)
    (hnew : (latest s.log).map (fun held => held.1.bearer) ≠ some t.bearer) :
    ∃ r, Iterated s (s.fail i (some false) reason) r :=
  ⟨_, rfl, h.pass rfl rfl rfl rfl (Record.taken_refused hresult rfl),
    ⟨nofun, iff_of_true rfl ⟨t, hresult, hnew⟩⟩, fun _ => ⟨reason, rfl⟩⟩

/-- `heldAt` is the zero time exactly while no token is held. -/
theorem Kept.unchanged (h : Kept s) (t : Token) :
    (¬ s.heldAt = 0 ∧ s.held.map Token.bearer = some t.bearer) ↔
      (latest s.log).map (fun held => held.1.bearer) = some t.bearer := by
  rw [h.held, Option.map_map]
  cases hl : latest s.log with
  | none =>
    constructor
    · exact fun hu => absurd (h.zero hl) hu.1
    · exact fun hu => nomatch hu
  | some held =>
    obtain ⟨hat, hpos⟩ := h.heldAt held hl
    constructor
    · exact fun hu => hu.2
    · exact fun hu => ⟨by omega, hu⟩

theorem newLoop_pending (c : LoopConfig) : 0 < c.newLoop.pendingInterval := by
  unfold LoopConfig.newLoop second
  dsimp only
  split <;> omega

theorem iterate_iterated (h : Kept s) (c : LoopConfig) (hok : regular s i)
    (hpolled : i.polledAt ≤ i.readAt) (hnow : s.clock = i.readAt) (hbackoff : 0 ≤ i.backoff) :
    ∃ r, Iterated s (s.iterate c.newLoop i) r := by
  unfold Loop.iterate
  split
  · rename_i t hresult
    have hlasts : 0 ≤ t.expiresIn.toInt := by
      have hlasting := hok.2
      rw [hresult] at hlasting
      exact of_decide_eq_true hlasting
    dsimp only
    split
    · rename_i hsame
      rw [h.unchanged] at hsame
      refine hold_iterated _ hresult hok.1 hlasts hpolled hnow nofun ?_
      exact iff_of_false Bool.false_ne_true (not_not_intro hsame)
    · rename_i hnew
      rw [h.unchanged] at hnew
      split
      · exact hold_iterated _ hresult hok.1 hlasts hpolled hnow nofun (iff_of_true rfl hnew)
      · exact refuse_iterated h _ hresult hnew
  · rename_i hresult
    exact wait_iterated h hnow.le (Int.le_of_lt (newLoop_pending c)) _
      (by rw [hresult]; exact nofun)
  · rename_i hresult
    exact wait_iterated h hnow.le hbackoff _ (by rw [hresult]; exact nofun)
  · rename_i hresult
    exact fail_iterated h i _ (by rw [hresult]; exact nofun)

/-! ## Whole runs -/

/-- What holds of the records of a run: each of them is sound, and the one after which the token has
expired is the last one, and the loop has ended with a terminal error. -/
def Told (s : Loop) : Prop :=
  ∀ before r rest, s.log = before ++ r :: rest → Sound before r ∧
    (Expired before r → rest = [] ∧ ∃ reason, s.ended = some (.terminal reason))

theorem told_step {c : LoopConfig} {t : Loop} (hk : Kept s) (ht : Told s) (hok : regular s i)
    (hs : s.step c i = some t) : Kept t ∧ Told t := by
  unfold Loop.step at hs
  split at hs
  · nomatch hs
  rename_i hrunning
  have hended : s.ended = none := Option.not_isSome_iff_eq_none.1 hrunning
  have hold {before : List Record} {r : Record} {rest : List Record}
      (hsplit : s.log = before ++ r :: rest) : Sound before r ∧ ¬ Expired before r := by
    refine ⟨(ht before r rest hsplit).1, fun hexpired => ?_⟩
    obtain ⟨-, reason, hreason⟩ := (ht before r rest hsplit).2 hexpired
    rw [hended] at hreason
    nomatch hreason
  split at hs
  · -- the context is done: nothing is written down
    obtain rfl := Option.some.inj hs
    refine ⟨⟨hk.held, hk.heldAt, hk.past, hk.zero⟩, fun before r rest hsplit => ?_⟩
    exact ⟨(hold hsplit).1, fun hexpired => absurd hexpired (hold hsplit).2⟩
  split at hs
  · rename_i hfits
    obtain rfl := Option.some.inj hs
    have hpast : ∀ t, latest s.log = some t → t.2 ≤ i.readAt ∧ 0 ≤ t.1.expiresIn.toInt :=
      fun t ht => (hk.past t ht).imp_left fun hle => hle.trans (hfits.1.trans hfits.2.1)
    have hk' : Kept { s with clock := i.readAt } := ⟨hk.held, hk.heldAt, hpast, hk.zero⟩
    obtain ⟨r, hr⟩ := iterate_iterated hk' c hok hfits.2.1 rfl hfits.2.2
    refine ⟨hr.kept, fun before r' rest hsplit => ?_⟩
    rw [hr.log] at hsplit
    -- the record is the new one, or one of before
    rcases split_concat hsplit with ⟨rfl, rfl, rfl⟩ | ⟨rest', -, hlog⟩
    · exact ⟨hr.sound, fun hexpired => ⟨rfl, hr.expired hexpired⟩⟩
    · exact ⟨(hold hlog).1, fun hexpired => absurd hexpired (hold hlog).2⟩
  · nomatch hs

/-- In every run of the loop with tokens of a lifetime that is not negative: each sleep is within
what is left of the lifetime of the token that is held, and the sink is called for the tokens that
differ from the one that was held; if the held token has expired when a poll returns without a
token, the loop ends there with a terminal error; and `Current` reports the token of the latest poll
that succeeded and was not refused by the sink. -/
theorem loop_keeps_token {c : LoopConfig} {s : Loop}
    (h : Reach (Loop.step c) regular {} s) :
    (∀ before r rest, s.log = before ++ r :: rest → Sound before r ∧
      (Expired before r → rest = [] ∧ ∃ reason, s.ended = some (.terminal reason))) ∧
    s.held = (latest s.log).map Prod.fst := by
  have hinv : Kept s ∧ Told s := by
    apply h.invariant fun s => Kept s ∧ Told s
    · refine ⟨⟨rfl, nofun, nofun, fun _ => rfl⟩, fun before r rest hsplit => ?_⟩
      have := congrArg List.length hsplit
      simp at this
    · intro a b i ha hok hs
      exact told_step ha.1 ha.2 hok hs
  exact ⟨hinv.2, hinv.1.held⟩

def oneMinute : LoopConfig := { pendingInterval := 0, rotationInterval := 60 * second }

/-- A token is delivered, a poll fails, and the next one comes when the token has expired. -/
def expiredRun : List Tick :=
  [{ polledAt := 1, readAt := 2, result := .ok ⟨"a", "r", 100⟩ },
    { polledAt := 20, readAt := 60, result := .retryable },
    { polledAt := 101, readAt := 102, result := .pending }]

theorem loop_keeps_token_expired :
    ∃ s, Reach (Loop.step oneMinute) regular {} s ∧
      s.log.map Record.sleep = [some 16, some 41, none] ∧ s.held = (latest s.log).map Prod.fst ∧
      s.ended = some (.terminal reasonRevokedOrExpired) := by
  have hrun : Reach (Loop.step oneMinute) regular {}
      ((exec (Loop.step oneMinute) {} expiredRun).getD {}) :=
    .of_exec_guarded expiredRun (by decide)
  exact ⟨_, hrun, by decide, (loop_keeps_token hrun).2, by decide⟩

/-- A token is delivered, and the sink refuses the next one. -/
def refusedRun : List Tick :=
  [{ polledAt := 1, readAt := 2, result := .ok ⟨"a", "r", 100⟩ },
    { polledAt := 20, readAt := 21, result := .ok ⟨"b", "r", 100⟩, sinkOk := false }]

/-- The latest successful poll gave the second token, and `Current` reports the first one. -/
theorem current_of_refused :
    ∃ s, Reach (Loop.step oneMinute) regular {} s ∧
      s.log.getLast?.map Record.result = some (.ok ⟨"b", "r", 100⟩) ∧
      s.held = some ⟨"a", "r", 100⟩ := by
  have hrun : Reach (Loop.step oneMinute) regular {}
      ((exec (Loop.step oneMinute) {} refusedRun).getD {}) :=
    .of_exec_guarded refusedRun (by decide)
  exact ⟨_, hrun, by decide, by decide⟩

end AgentOps.Sidecar.TokenLoop
