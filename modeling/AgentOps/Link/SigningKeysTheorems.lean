import AgentOps.Link.SigningKeys

/-!
# The cache is fresh, throttled and fair

What the log says of the fetches is what the fields of the verifier hold (`Told`, `Flying`), and a
lookup that has waited has seen a fetch end after it began (`Waits`). A key, a refusal and the start
of a fetch are then judged by the log before them.
-/

namespace AgentOps.Link.SigningKeys

open AgentOps.Lib

/-! ## The log -/

def Event.isStart : Event → Bool
  | fetchStarted _ _ => true
  | _ => false

def Event.isEnd : Event → Bool
  | fetchEnded _ _ => true
  | _ => false

/-- How many fetches were started, and how many of them ended. -/
def started (log : List Event) : ℕ := log.countP Event.isStart

def ended (log : List Event) : ℕ := log.countP Event.isEnd

def endOf : Event → Option (ℕ × Except FetchError KeySet)
  | .fetchEnded now result => some (now, result)
  | _ => none

def successOf : Event → Option (ℕ × KeySet)
  | .fetchEnded now (.ok keys) => some (now, keys)
  | _ => none

/-- The fetch that ended last. -/
def lastEnd (log : List Event) : Option (ℕ × Except FetchError KeySet) :=
  (log.filterMap endOf).getLast?

/-- The latest successful fetch: when it ended, and its key set. -/
def lastSuccess (log : List Event) : Option (ℕ × KeySet) :=
  (log.filterMap successOf).getLast?

/-- The key is that of the lookup's kid in the key set of the latest successful fetch, which ended
less than the maximal age before. -/
def Fresh (before : List Event) (id now : ℕ) (k : JSONWebKey) : Prop :=
  ∃ kid t keys, Event.began id kid ∈ before ∧ lastSuccess before = some (t, keys) ∧
    keys kid = some k ∧ now < t + jwksMaxAge

/-- A fetch ended after the lookup began, succeeded, and did not have the kid. -/
def Refused (before : List Event) (id : ℕ) (kid : String) : Prop :=
  ∃ front back t keys, before = front ++ back ∧ Event.began id kid ∈ front ∧
    Event.fetchEnded t (.ok keys) ∈ back ∧ keys kid = none

/-- A fetch starts when none is in flight and the refetch interval after every fetch that ended; if
its lookup has started one before, that one ended in between. -/
structure Throttled (before : List Event) (id now : ℕ) : Prop where
  idle : started before = ended before
  apart : ∀ t result, Event.fetchEnded t result ∈ before → t + jwksRefetchInterval ≤ now
  again : ∀ front t₁ back, before = front ++ Event.fetchStarted id t₁ :: back →
    ∃ t result, Event.fetchEnded t result ∈ back ∧ t₁ ≤ t ∧ t + jwksRefetchInterval ≤ now

/-- What an event says, given what happened before. -/
def Fine (before : List Event) : Event → Prop
  | .began _ _ | .cancelled _ => True
  | .fetchStarted id now => Throttled before id now
  | .fetchEnded _ _ => started before = ended before + 1
  | .returned id now (.ok k) => Fresh before id now k
  | .returned id _ (.error err) =>
    err.keysUnavailable = true ∨ (err = .context ∧ Event.cancelled id ∈ before) ∨
      ∃ kid, err = .noKey kid ∧ Refused before id kid

section Log

variable {log more : List Event} {e : Event}

theorem endOf_eq_none (h : e.isEnd = false) : endOf e = none := by
  cases e with
  | fetchEnded => nomatch h
  | _ => rfl

theorem successOf_eq_none (h : e.isEnd = false) : successOf e = none := by
  cases e with
  | fetchEnded => nomatch h
  | _ => rfl

theorem lastEnd_append (log more : List Event) :
    lastEnd (log ++ more) = (lastEnd more).or (lastEnd log) := by
  rw [lastEnd, List.filterMap_append, List.getLast?_append]
  rfl

theorem lastSuccess_append (log more : List Event) :
    lastSuccess (log ++ more) = (lastSuccess more).or (lastSuccess log) := by
  rw [lastSuccess, List.filterMap_append, List.getLast?_append]
  rfl

theorem lastEnd_eq_none (h : ∀ e ∈ more, e.isEnd = false) : lastEnd more = none := by
  rw [lastEnd, List.getLast?_eq_none_iff, List.filterMap_eq_nil_iff]
  exact fun e he => endOf_eq_none (h e he)

theorem lastSuccess_eq_none (h : ∀ e ∈ more, e.isEnd = false) : lastSuccess more = none := by
  rw [lastSuccess, List.getLast?_eq_none_iff, List.filterMap_eq_nil_iff]
  exact fun e he => successOf_eq_none (h e he)

theorem mem_of_lastEnd {t : ℕ} {result : Except FetchError KeySet}
    (h : lastEnd log = some (t, result)) : Event.fetchEnded t result ∈ log := by
  obtain ⟨e, he, hend⟩ := List.mem_filterMap.mp (List.mem_of_getLast? h)
  cases e with
  | fetchEnded now result' =>
    obtain ⟨rfl, rfl⟩ := Prod.mk.inj (Option.some.inj hend)
    exact he
  | _ => nomatch hend

end Log

/-! ## What `cachedKey` says -/

/-- The verdicts of `cachedKey`, each with what it was given for. -/
inductive Judged (s : State) (kid : String) (waited : Bool) : Verdict → Prop
  | key {k : JSONWebKey} {t : ℕ} (hkey : s.keys kid = some k) (hat : s.fetchedAt = some t)
    (hage : s.clock < t + jwksMaxAge) : Judged s kid waited (.key k)
  | refetch (hlast : ∀ t, s.lastFetch = some t → t + jwksRefetchInterval ≤ s.clock) :
    Judged s kid waited .refetch
  | failed {err : FetchError} : Judged s kid waited (.error (.fetchFailed err))
  | throttled : Judged s kid waited (.error (.throttled kid))
  | noKey {t : ℕ} (hwaited : waited = true) (herr : s.fetchErr = none)
    (hlast : s.lastFetch = some t) (hnear : s.clock < t + jwksRefetchInterval)
    (hmiss : ∀ k t, s.keys kid = some k → s.fetchedAt = some t → t + jwksMaxAge ≤ s.clock) :
    Judged s kid waited (.error (.noKey kid))

section Cached

variable {s : State} {kid : String} {waited : Bool}

theorem stale_judged
    (hmiss : ∀ k t, s.keys kid = some k → s.fetchedAt = some t → t + jwksMaxAge ≤ s.clock) :
    Judged s kid waited (State.cachedKey.stale s kid waited) := by
  unfold State.cachedKey.stale
  cases hlast : s.lastFetch with
  | none => exact .refetch fun t ht => nomatch hlast.symm.trans ht
  | some t =>
    rw [Option.all_some]
    by_cases hpassed : t + jwksRefetchInterval ≤ s.clock
    · rw [if_pos (decide_eq_true hpassed)]
      apply Judged.refetch
      intro t' ht'
      obtain rfl := Option.some.inj (hlast.symm.trans ht')
      exact hpassed
    · rw [if_neg (by simpa using hpassed)]
      cases herr : s.fetchErr with
      | some err => exact .failed
      | none =>
        cases waited with
        | false => exact .throttled
        | true => exact .noKey rfl herr hlast (Nat.lt_of_not_le hpassed) hmiss

theorem cachedKey_judged (s : State) (kid : String) (waited : Bool) :
    Judged s kid waited (s.cachedKey kid waited) := by
  unfold State.cachedKey
  split
  · next k hkey =>
    split
    · next hage =>
      obtain ⟨t, ht, hlt⟩ := (Option.any_eq_true _ _).mp hage
      exact .key hkey ht (decide_eq_true_iff.mp hlt)
    · next hage =>
      apply stale_judged
      intro _ t _ ht
      rw [ht, Option.any_some, decide_eq_true_iff] at hage
      exact Nat.le_of_not_lt hage
  · next hnone =>
    apply stale_judged
    intro k _ hk
    nomatch hnone.symm.trans hk

end Cached

/-! ## The fields and the log -/

/-- The cache holds what the log says of the fetches that ended. -/
structure Told (s : State) : Prop where
  success : lastSuccess s.log = s.fetchedAt.map fun t => (t, s.keys)
  last : (lastEnd s.log).map Prod.fst = s.lastFetch
  outcome : ∀ t result, lastEnd s.log = some (t, result) → s.fetchErr = none → result = .ok s.keys
  current : s.fetchErr = none → s.fetchedAt = s.lastFetch
  ends : ∀ t result, Event.fetchEnded t result ∈ s.log → ∃ l, s.lastFetch = some l ∧ t ≤ l
  clock : ∀ l, s.lastFetch = some l → l ≤ s.clock

/-- A step that ends no fetch. -/
structure Quiet (s t : State) : Prop where
  keys : t.keys = s.keys
  fetchedAt : t.fetchedAt = s.fetchedAt
  lastFetch : t.lastFetch = s.lastFetch
  fetchErr : t.fetchErr = s.fetchErr
  clock : s.clock ≤ t.clock
  log : ∃ more, t.log = s.log ++ more ∧ ∀ e ∈ more, e.isEnd = false

section Frame

variable {s t : State}

theorem quiet_of_log {t : State} {e : Event} (hkeys : t.keys = s.keys)
    (hat : t.fetchedAt = s.fetchedAt) (hlast : t.lastFetch = s.lastFetch)
    (herr : t.fetchErr = s.fetchErr) (hclock : t.clock = s.clock)
    (hlog : t.log = s.log ++ [e]) (he : e.isEnd = false) : Quiet s t := by
  refine ⟨hkeys, hat, hlast, herr, Nat.le_of_eq hclock.symm, [e], hlog, ?_⟩
  intro e' he'
  rwa [List.mem_singleton.mp he']

theorem quiet_of_same {t : State} (hkeys : t.keys = s.keys) (hat : t.fetchedAt = s.fetchedAt)
    (hlast : t.lastFetch = s.lastFetch) (herr : t.fetchErr = s.fetchErr)
    (hclock : s.clock ≤ t.clock) (hlog : t.log = s.log) : Quiet s t :=
  ⟨hkeys, hat, hlast, herr, hclock, [], by rw [hlog, List.append_nil], List.forall_mem_nil _⟩

/-- A step ends no fetch, or it is the end of the fetch in flight. -/
theorem Move.quiet (h : Move s t) :
    Quiet s t ∨ ∃ done result, s.fetching = some done ∧ t = s.refresh done result := by
  cases h with
  | fetched hfetching => exact .inr ⟨_, _, hfetching, rfl⟩
  | tick d => exact .inl (quiet_of_same rfl rfl rfl rfl (Nat.le_add_right _ _) rfl)
  | wait | wake => exact .inl (quiet_of_same rfl rfl rfl rfl (Nat.le_refl _) rfl)
  | lookup | key | error | start | cancel | giveUp =>
    exact .inl (quiet_of_log rfl rfl rfl rfl rfl rfl rfl)

theorem refresh_log (s : State) (done : ℕ) (result : Except FetchError KeySet) :
    (s.refresh done result).log = s.log ++ [Event.fetchEnded s.clock result] := by
  cases result <;> rfl

theorem Told.quiet (h : Told s) (hq : Quiet s t) : Told t := by
  obtain ⟨more, hlog, hmore⟩ := hq.log
  have hend : lastEnd t.log = lastEnd s.log := by
    rw [hlog, lastEnd_append, lastEnd_eq_none hmore, Option.none_or]
  constructor
  case success =>
    rw [hlog, lastSuccess_append, lastSuccess_eq_none hmore, Option.none_or, hq.fetchedAt, hq.keys]
    exact h.success
  case last => rw [hend, hq.lastFetch, h.last]
  case outcome =>
    rw [hend, hq.fetchErr, hq.keys]
    exact h.outcome
  case current =>
    rw [hq.fetchErr, hq.fetchedAt, hq.lastFetch]
    exact h.current
  case ends =>
    intro t' result hmem
    rw [hlog, List.mem_append] at hmem
    rw [hq.lastFetch]
    rcases hmem with hmem | hmem
    · exact h.ends t' result hmem
    · nomatch hmore _ hmem
  case clock =>
    rw [hq.lastFetch]
    exact fun l hl => Nat.le_trans (h.clock l hl) hq.clock

theorem Told.refresh (h : Told s) (done : ℕ) (result : Except FetchError KeySet) :
    Told (s.refresh done result) := by
  have hlast : (s.refresh done result).lastFetch = some s.clock := by cases result <;> rfl
  have hclock : (s.refresh done result).clock = s.clock := by cases result <;> rfl
  have hend : lastEnd (s.refresh done result).log = some (s.clock, result) := by
    rw [refresh_log, lastEnd_append]
    rfl
  constructor
  case success =>
    rw [refresh_log, lastSuccess_append]
    cases result with
    | ok keys => rfl
    | error err => exact h.success
  case last => rw [hend, hlast, Option.map_some]
  case outcome =>
    intro t' result' hlastEnd herr
    obtain ⟨-, rfl⟩ := Prod.mk.inj (Option.some.inj (hend.symm.trans hlastEnd))
    cases result with
    | ok keys => rfl
    | error err => nomatch herr
  case current =>
    cases result with
    | ok keys => exact fun _ => rfl
    | error err => exact fun herr => nomatch herr
  case ends =>
    intro t' result' hmem
    refine ⟨s.clock, hlast, ?_⟩
    rw [refresh_log, List.mem_append, List.mem_singleton] at hmem
    rcases hmem with hmem | hmem
    · obtain ⟨l, hl, hle⟩ := h.ends t' result' hmem
      exact Nat.le_trans hle (h.clock l hl)
    · exact Nat.le_of_eq (Event.fetchEnded.inj hmem).1
  case clock =>
    rw [hlast, hclock]
    intro l hl
    exact Nat.le_of_eq (Option.some.inj hl).symm

theorem Told.step (h : Told s) (hm : Move s t) : Told t := by
  rcases hm.quiet with hq | ⟨done, result, -, rfl⟩
  · exact h.quiet hq
  · exact h.refresh done result

end Frame

/-! ## The fetch in flight -/

/-- The fetches that started and did not end are the one in flight; a fetch that is not in flight
any more ended after it started. -/
structure Flying (s : State) : Prop where
  count : started s.log = ended s.log + if s.fetching.isSome then 1 else 0
  past : ∀ front id t₁ back, s.log = front ++ Event.fetchStarted id t₁ :: back → t₁ ≤ s.clock
  followed : ∀ front id t₁ back, s.log = front ++ Event.fetchStarted id t₁ :: back →
    s.fetching = none → ∃ t result, Event.fetchEnded t result ∈ back ∧ t₁ ≤ t

section Flight

variable {s t : State}

theorem Flying.same (h : Flying s) (hf : t.fetching = s.fetching) (hc : s.clock ≤ t.clock)
    (hlog : t.log = s.log) : Flying t := by
  refine ⟨?_, ?_, ?_⟩
  · rw [hlog, hf]
    exact h.count
  · rw [hlog]
    exact fun front id t₁ back hsplit => Nat.le_trans (h.past front id t₁ back hsplit) hc
  · rw [hlog, hf]
    exact h.followed

theorem Flying.event (h : Flying s) {e : Event} (hf : t.fetching = s.fetching)
    (hc : s.clock = t.clock) (hlog : t.log = s.log ++ [e]) (hs : e.isStart = false)
    (he : e.isEnd = false) : Flying t := by
  have hsplit {front back : List Event} {id t₁ : ℕ}
      (heq : t.log = front ++ Event.fetchStarted id t₁ :: back) :
      ∃ back', back = back' ++ [e] ∧ s.log = front ++ Event.fetchStarted id t₁ :: back' := by
    rw [hlog] at heq
    rcases split_concat heq with ⟨-, rfl, -⟩ | hback
    · nomatch hs
    · exact hback
  refine ⟨?_, ?_, ?_⟩
  · rw [hlog, hf, started, ended, List.countP_append, List.countP_append, List.countP_singleton,
      List.countP_singleton, hs, he]
    exact h.count
  · intro front id t₁ back heq
    obtain ⟨back', -, hlog'⟩ := hsplit heq
    exact hc ▸ h.past front id t₁ back' hlog'
  · intro front id t₁ back heq hidle
    obtain ⟨back', rfl, hlog'⟩ := hsplit heq
    obtain ⟨t', result, hmem, hle⟩ := h.followed front id t₁ back' hlog' (hf ▸ hidle)
    exact ⟨t', result, List.mem_append_left _ hmem, hle⟩

theorem Flying.start (h : Flying s) (hidle : s.fetching = none) (id : ℕ) (l : Lookup) :
    Flying (s.start id l) := by
  refine ⟨?_, ?_, ?_⟩
  · have hcount := h.count
    rw [hidle] at hcount
    show started (s.log ++ [Event.fetchStarted id s.clock]) =
      ended (s.log ++ [Event.fetchStarted id s.clock]) + 1
    rw [started, ended, List.countP_append, List.countP_append]
    exact congrArg (· + 1) hcount
  · intro front id' t₁ back heq
    rcases split_concat heq with ⟨-, he, -⟩ | ⟨back', -, hlog⟩
    · exact Nat.le_of_eq (Event.fetchStarted.inj he).2
    · exact h.past front id' t₁ back' hlog
  · exact fun _ _ _ _ _ hnone => nomatch hnone

theorem Flying.refresh (h : Flying s) {done : ℕ} (hfetching : s.fetching = some done)
    (result : Except FetchError KeySet) : Flying (s.refresh done result) := by
  have hclock : (s.refresh done result).clock = s.clock := by cases result <;> rfl
  have hnone : (s.refresh done result).fetching = none := by cases result <;> rfl
  have hsplit {front back : List Event} {id t₁ : ℕ}
      (heq : (s.refresh done result).log = front ++ Event.fetchStarted id t₁ :: back) :
      ∃ back', back = back' ++ [Event.fetchEnded s.clock result] ∧
        s.log = front ++ Event.fetchStarted id t₁ :: back' := by
    rw [refresh_log] at heq
    rcases split_concat heq with ⟨-, he, -⟩ | hback
    · nomatch he
    · exact hback
  refine ⟨?_, ?_, ?_⟩
  · have hcount := h.count
    rw [hfetching] at hcount
    rw [refresh_log, hnone, started, ended, List.countP_append, List.countP_append]
    exact hcount
  · intro front id t₁ back heq
    obtain ⟨back', -, hlog⟩ := hsplit heq
    rw [hclock]
    exact h.past front id t₁ back' hlog
  · -- every fetch that started is followed by this end
    intro front id t₁ back heq _
    obtain ⟨back', rfl, hlog⟩ := hsplit heq
    exact ⟨s.clock, result, List.mem_append_right _ (List.mem_singleton_self _),
      h.past front id t₁ back' hlog⟩

theorem Flying.step (h : Flying s) (hm : Move s t) : Flying t := by
  cases hm with
  | tick d => exact h.same rfl (Nat.le_add_right _ _) rfl
  | wait | wake => exact h.same rfl (Nat.le_refl _) rfl
  | lookup | key | error | cancel | giveUp => exact h.event rfl rfl rfl rfl rfl
  | start _ _ hidle => exact h.start hidle _ _
  | fetched hfetching => exact h.refresh hfetching _

end Flight

/-! ## The lookups -/

/-- A fetch ended after the lookup began. -/
def EndedSince (log : List Event) (id : ℕ) (kid : String) : Prop :=
  ∃ front back, log = front ++ back ∧ Event.began id kid ∈ front ∧ lastEnd back ≠ none

def Seen (log : List Event) (closed : List ℕ) (id : ℕ) (kid : String) : Stage → Prop
  | .checking waited => waited = true → EndedSince log id kid
  | .waiting fetch => fetch ∈ closed → EndedSince log id kid
  | .returned => True

structure Knows (log : List Event) (closed : List ℕ) (id : ℕ) (l : Lookup) : Prop where
  began : Event.began id l.kid ∈ log
  cancelled : l.cancelled = true → Event.cancelled id ∈ log
  stage : Seen log closed id l.kid l.stage

/-- The channel of the fetch in flight is open, and a closed channel means that a fetch ended after
the lookups that have it began. -/
structure Waits (s : State) : Prop where
  open' : ∀ fetch, s.fetching = some fetch → fetch ∉ s.closed ∧ fetch < s.made
  closed : ∀ fetch ∈ s.closed, fetch < s.made
  knows : ∀ id l, s.lookups id = some l → Knows s.log s.closed id l

section Lookups

variable {s t : State} {log : List Event} {closed : List ℕ} {id : ℕ} {l : Lookup}

theorem EndedSince.append {kid : String} (h : EndedSince log id kid) (more : List Event) :
    EndedSince (log ++ more) id kid := by
  obtain ⟨front, back, rfl, hbegan, hend⟩ := h
  refine ⟨front, back ++ more, List.append_assoc _ _ _, hbegan, ?_⟩
  rw [lastEnd_append, Ne, Option.or_eq_none_iff]
  exact fun hnone => hend hnone.2

theorem Seen.append {kid : String} {stage : Stage} (h : Seen log closed id kid stage)
    (more : List Event) : Seen (log ++ more) closed id kid stage := by
  cases stage with
  | checking waited => exact fun hwaited => (h hwaited).append more
  | waiting fetch => exact fun hclosed => (h hclosed).append more
  | returned => trivial

theorem Knows.append (h : Knows log closed id l) (more : List Event) :
    Knows (log ++ more) closed id l :=
  ⟨List.mem_append_left _ h.began, fun hc => List.mem_append_left _ (h.cancelled hc),
    h.stage.append more⟩

theorem Knows.at (h : Knows log closed id l) {stage : Stage}
    (hstage : Seen log closed id l.kid stage) : Knows log closed id { l with stage } :=
  ⟨h.began, h.cancelled, hstage⟩

/-- One lookup changes and the log grows. -/
theorem Waits.update (h : Waits s) {l' : Lookup} (more : List Event)
    (hl' : Knows (s.log ++ more) s.closed id l') :
    ∀ id₁ l₁, Function.update s.lookups id (some l') id₁ = some l₁ →
      Knows (s.log ++ more) s.closed id₁ l₁ := by
  intro id₁ l₁ hl₁
  obtain ⟨rfl, rfl⟩ | ⟨-, hl₁⟩ := update_eq_some hl₁
  · exact hl'
  · exact (h.knows id₁ l₁ hl₁).append more

theorem Waits.moved (h : Waits s) {l' : Lookup} (hl' : Knows s.log s.closed id l') :
    ∀ id₁ l₁, Function.update s.lookups id (some l') id₁ = some l₁ →
      Knows s.log s.closed id₁ l₁ := by
  rw [← List.append_nil s.log] at hl' ⊢
  exact h.update [] hl'

theorem Waits.answered (h : Waits s) (hl : s.lookups id = some l)
    (a : Except LookupError JSONWebKey) : Waits (s.answer id l a) :=
  ⟨h.open', h.closed, h.update [_] (((h.knows id l hl).append _).at trivial)⟩

theorem Waits.start (h : Waits s) (hl : s.lookups id = some l) : Waits (s.start id l) := by
  refine ⟨?_, ?_, ?_⟩
  · intro fetch hfetch
    obtain rfl : s.made = fetch := Option.some.inj hfetch
    exact ⟨fun hmem => Nat.lt_irrefl _ (h.closed _ hmem), Nat.lt_succ_self _⟩
  · exact fun fetch hmem => Nat.lt_succ_of_lt (h.closed fetch hmem)
  · apply h.update [_] (((h.knows id l hl).append _).at _)
    exact fun hmem => absurd (h.closed _ hmem) (Nat.lt_irrefl _)

theorem Waits.refresh (h : Waits s) {done : ℕ} (hfetching : s.fetching = some done)
    (result : Except FetchError KeySet) : Waits (s.refresh done result) := by
  have hknows (id : ℕ) (l : Lookup) (hl : s.lookups id = some l) :
      Knows (s.log ++ [Event.fetchEnded s.clock result]) (s.closed ++ [done]) id l := by
    have hold := h.knows id l hl
    refine ⟨(hold.append _).began, (hold.append _).cancelled, ?_⟩
    cases hstage : l.stage with
    | checking waited =>
      have hseen := (hold.append [Event.fetchEnded s.clock result]).stage
      rw [hstage] at hseen
      exact hseen
    | waiting fetch =>
      -- the fetch that ends now ends after the lookup began
      exact fun _ => ⟨s.log, _, rfl, hold.began, nofun⟩
    | returned => trivial
  have hclosed : ∀ fetch ∈ s.closed ++ [done], fetch < s.made := by
    intro fetch hmem
    rcases List.mem_append.mp hmem with hmem | hmem
    · exact h.closed fetch hmem
    · exact List.mem_singleton.mp hmem ▸ (h.open' done hfetching).2
  cases result <;> exact ⟨nofun, hclosed, hknows⟩

theorem Waits.step (h : Waits s) (hm : Move s t) : Waits t := by
  cases hm with
  | tick d => exact ⟨h.open', h.closed, h.knows⟩
  | @lookup id kid _ =>
    refine ⟨h.open', h.closed, h.update [_] ⟨?_, nofun, nofun⟩⟩
    exact List.mem_append_right _ (List.mem_singleton_self _)
  | wait hl _ hwait =>
    refine ⟨h.open', h.closed, h.moved ((h.knows _ _ hl).at ?_)⟩
    exact fun hmem => absurd hmem (h.open' _ hwait).1
  | key hl | error hl | giveUp hl => exact h.answered hl _
  | start hl => exact h.start hl
  | fetched hfetching => exact h.refresh hfetching _
  | wake hl hstage hclosed =>
    refine ⟨h.open', h.closed, h.moved ((h.knows _ _ hl).at fun _ => ?_)⟩
    have hseen := (h.knows _ _ hl).stage
    rw [hstage] at hseen
    exact hseen hclosed
  | @cancel id l hl =>
    refine ⟨h.open', h.closed, h.update [_] ?_⟩
    have hold := (h.knows id l hl).append [Event.cancelled id]
    exact ⟨hold.began, fun _ => List.mem_append_right _ (List.mem_singleton_self _), hold.stage⟩

end Lookups

/-! ## The result -/

/-- What is written down of a step is fine, given what was there before. -/
structure Inv (s : State) : Prop where
  told : Told s
  flying : Flying s
  waits : Waits s
  fine : Each Fine s.log

section Result

variable {s t : State} {id : ℕ} {l : Lookup} {waited : Bool}

theorem Inv.fresh (h : Inv s) {k : JSONWebKey} (hl : s.lookups id = some l)
    (hcached : s.cachedKey l.kid waited = .key k) : Fresh s.log id s.clock k := by
  have hjudged := cachedKey_judged s l.kid waited
  rw [hcached] at hjudged
  cases hjudged with
  | @key _ t hkey hat hage =>
    refine ⟨l.kid, t, s.keys, (h.waits.knows id l hl).began, ?_, hkey, hage⟩
    rw [h.told.success, hat]
    rfl

theorem Inv.throttled (h : Inv s) (hidle : s.fetching = none)
    (hcached : s.cachedKey l.kid waited = .refetch) : Throttled s.log id s.clock := by
  have hjudged := cachedKey_judged s l.kid waited
  rw [hcached] at hjudged
  cases hjudged with
  | refetch hlast =>
    have hapart (t : ℕ) (result : Except FetchError KeySet)
        (hmem : Event.fetchEnded t result ∈ s.log) : t + jwksRefetchInterval ≤ s.clock := by
      obtain ⟨last, hsome, hle⟩ := h.told.ends t result hmem
      exact Nat.le_trans (Nat.add_le_add_right hle _) (hlast last hsome)
    refine ⟨?_, hapart, ?_⟩
    · have hcount := h.flying.count
      rw [hidle] at hcount
      exact hcount
    · intro front t₁ back hlog
      obtain ⟨t, result, hmem, hle⟩ := h.flying.followed front id t₁ back hlog hidle
      refine ⟨t, result, hmem, hle, hapart t result ?_⟩
      rw [hlog]
      exact List.mem_append_right _ (List.mem_cons_of_mem _ hmem)

/-- The last fetch is the one that did not have the kid: it succeeded, it is too young to be
stale, and it ended after the lookup began because one did. -/
theorem Inv.refused (h : Inv s) {err : LookupError} (hl : s.lookups id = some l)
    (hstage : l.stage = .checking waited) (hcached : s.cachedKey l.kid waited = .error err) :
    err.keysUnavailable = true ∨ (err = .context ∧ Event.cancelled id ∈ s.log) ∨
      ∃ kid, err = .noKey kid ∧ Refused s.log id kid := by
  have hjudged := cachedKey_judged s l.kid waited
  rw [hcached] at hjudged
  cases hjudged with
  | failed => exact .inl rfl
  | throttled => exact .inl rfl
  | @noKey t hwaited herr hlast hnear hmiss =>
    right; right
    refine ⟨l.kid, rfl, ?_⟩
    have hseen := (h.waits.knows id l hl).stage
    rw [hstage] at hseen
    obtain ⟨front, back, hlog, hbegan, hend⟩ := hseen hwaited
    obtain ⟨⟨t', result⟩, hback⟩ := Option.ne_none_iff_exists'.mp hend
    have hlastEnd : lastEnd s.log = some (t', result) := by
      rw [hlog, lastEnd_append, hback]
      rfl
    obtain rfl := h.told.outcome t' result hlastEnd herr
    refine ⟨front, back, t', s.keys, hlog, hbegan, mem_of_lastEnd hback, ?_⟩
    rw [Option.eq_none_iff_forall_ne_some]
    intro k hkey
    have hat : s.fetchedAt = some t := (h.told.current herr).trans hlast
    have hold : t + jwksMaxAge ≤ s.clock := hmiss k t hkey hat
    have hlt : jwksRefetchInterval < jwksMaxAge := by decide
    omega

theorem Inv.step (h : Inv s) (hm : Move s t) : Inv t := by
  refine ⟨h.told.step hm, h.flying.step hm, h.waits.step hm, ?_⟩
  cases hm with
  | tick d => exact h.fine
  | lookup => exact h.fine.concat trivial
  | wait => exact h.fine
  | key hl _ _ hcached => exact h.fine.concat (h.fresh hl hcached)
  | error hl hstage _ hcached => exact h.fine.concat (h.refused hl hstage hcached)
  | start _ _ hidle hcached => exact h.fine.concat (h.throttled hidle hcached)
  | @fetched done result hfetching =>
    rw [refresh_log]
    apply h.fine.concat
    have hcount := h.flying.count
    rw [hfetching] at hcount
    exact hcount
  | wake => exact h.fine
  | cancel => exact h.fine.concat trivial
  | giveUp hl _ hcancelled =>
    exact h.fine.concat (.inr (.inl ⟨rfl, (h.waits.knows _ _ hl).cancelled hcancelled⟩))

theorem Inv.init : Inv {} where
  told := ⟨rfl, rfl, nofun, fun _ => rfl, nofun, nofun⟩
  flying := ⟨rfl, fun _ _ _ _ h => absurd h split_nil, fun _ _ _ _ h => absurd h split_nil⟩
  waits := ⟨nofun, nofun, nofun⟩
  fine := .nil

/-- In every run of lookups, fetches and cancellations: a key that is returned is in the key set of
the latest successful fetch, which ended less than five minutes before; one fetch is in flight at
most, and each starts at least 30 seconds after the others ended; a lookup that is not cancelled is
refused for good only if a fetch that ended after it began succeeded without its kid; and a lookup
starts another fetch only the refetch interval after one that ended while it waited. -/
theorem cache_fair (h : Reach State.step (fun _ _ => True) {} s) : Each Fine s.log := by
  have hinv : Inv s := h.invariant Inv Inv.init fun hinv _ hstep => hinv.step (step_move hstep)
  exact hinv.fine

end Result

/-- Two lookups wait for one fetch, which has the key of the second only; a third one is too early
to ask for another. -/
def oneFetch : List Label :=
  [.lookup 0 "k1", .check 0, .lookup 1 "k2", .check 1, .tick second,
    .fetched (.response 200 (some [{ keyID := "k2", key := 2 }])), .wake 0, .check 0, .wake 1,
    .check 1, .lookup 2 "k1", .check 2]

theorem cache_fair_oneFetch :
    started ((exec State.step {} oneFetch).getD {}).log = 1 ∧
      Each Fine ((exec State.step {} oneFetch).getD {}).log :=
  ⟨by decide, cache_fair (.of_exec_getD oneFetch (by decide))⟩

end AgentOps.Link.SigningKeys
