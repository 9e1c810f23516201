import AgentOps.Lib.Machine
import Mathlib.Data.Nat.Notation

/-!
# The prompt of a permission request in Slack

`askPermission`, `postPrompt`, `retryPrompt` and `closePermission` of
`slackbot/internal/app/render.go`, for one request. The consumer of the session handles the
request and later its resolution; when the first post fails a goroutine of its own goes on
posting until it succeeds, or until `waiting` is gone or the context ends.

A step is one locked section or one Slack call, so that the steps of the two goroutines can
fall between each other in any order. An edit always succeeds.
-/

namespace AgentOps.Slackbot.Permission

open AgentOps.Lib

/-- Where the consumer is. -/
inductive Consumer
  /-- Before `askPermission` looks at `permTS`. -/
  | ask
  /-- Before the post of `askPermission`. -/
  | post
  /-- Before `postPrompt` stores the timestamp of its message. -/
  | keep (ts : ℕ)
  /-- Before `askPermission` sets `waiting` and starts `retryPrompt`. -/
  | wait
  /-- Between two events. -/
  | idle
  /-- Before `closePermission` edits the message. -/
  | edit (ts : ℕ)
  /-- Before `closePermission` removes the timestamp. -/
  | drop
deriving DecidableEq, Repr

/-- Where `retryPrompt` is. -/
inductive Retry
  /-- It was not started. -/
  | none
  /-- Before an attempt looks at `waiting`. -/
  | look
  /-- Before the post of an attempt. -/
  | post
  /-- Before `postPrompt` stores the timestamp of its message. -/
  | keep (ts : ℕ)
  /-- Before the attempt removes `waiting`. -/
  | clear
  /-- It has returned. -/
  | done
deriving DecidableEq, Repr

/-- The renderer's entries for the request, the messages with its buttons, and whether
`closePermission` has returned. A message's timestamp is its place in `messages`, and the entry
tells whether its buttons are open. -/
structure State where
  consumer : Consumer := .ask
  retry : Retry := .none
  waiting : Bool := false
  permTS : Option ℕ := none
  messages : List Bool := []
  closed : Bool := false
deriving DecidableEq, Repr

variable {s t : State}

/-- A step of one of the two goroutines. -/
inductive Label
  | ask
  | post (ok : Bool)
  | keep
  | wait
  | close
  | edit
  | drop
  | retryLook
  | retryPost (ok : Bool)
  | retryKeep
  | retryClear
  | giveUp
deriving DecidableEq, Repr

variable {l : Label}

def step (s : State) (l : Label) : Option State :=
  match l, s.consumer, s.retry with
  -- askPermission, with postPrompt
  | .ask, .ask, _ => some { s with consumer := if s.permTS.isSome then .idle else .post }
  | .post ok, .post, _ =>
    if ok then
      some { s with messages := s.messages ++ [true], consumer := .keep s.messages.length }
    else some { s with consumer := .wait }
  | .keep, .keep ts, _ => some { s with permTS := some ts, consumer := .idle }
  | .wait, .wait, _ => some { s with waiting := true, retry := .look, consumer := .idle }
  -- closePermission
  | .close, .idle, _ =>
    match s.permTS with
    | none => some { s with waiting := false, closed := true }
    | some ts => some { s with waiting := false, consumer := .edit ts }
  | .edit, .edit ts, _ => some { s with messages := s.messages.set ts false, consumer := .drop }
  | .drop, .drop, _ => some { s with permTS := none, consumer := .idle, closed := true }
  -- retryPrompt, with postPrompt
  | .retryLook, _, .look => some { s with retry := if s.waiting then .post else .done }
  | .retryPost ok, _, .post =>
    if ok then some { s with messages := s.messages ++ [true], retry := .keep s.messages.length }
    else some { s with retry := .look }
  | .retryKeep, _, .keep ts => some { s with permTS := some ts, retry := .clear }
  | .retryClear, _, .clear => some { s with waiting := false, retry := .done }
  -- the context ends between two attempts
  | .giveUp, _, .look => some { s with retry := .done }
  | _, _, _ => none

/-- No attempt of `retryPrompt` is running. -/
def Retry.settled : Retry → Bool
  | .none | .done => true
  | _ => false

/-- An attempt has looked at `waiting` and its message may be on the way. -/
def Retry.posting : Retry → Bool
  | .post | .keep _ => true
  | _ => false

/-- `closePermission` looks at the renderer while no attempt may be posting. -/
def apart (s : State) (l : Label) : Prop := l = .close → s.retry.posting = false

instance (s : State) (l : Label) : Decidable (apart s l) := inferInstanceAs (Decidable (_ → _))

/-- What a step can do. -/
inductive Move (s : State) : Label → State → Prop
  | shown : s.consumer = .ask → s.permTS.isSome = true → Move s .ask { s with consumer := .idle }
  | ask : s.consumer = .ask → s.permTS = none → Move s .ask { s with consumer := .post }
  | posted : s.consumer = .post → Move s (.post true)
      { s with messages := s.messages ++ [true], consumer := .keep s.messages.length }
  | failed : s.consumer = .post → Move s (.post false) { s with consumer := .wait }
  | keep {ts : ℕ} : s.consumer = .keep ts →
      Move s .keep { s with permTS := some ts, consumer := .idle }
  | wait : s.consumer = .wait →
      Move s .wait { s with waiting := true, retry := .look, consumer := .idle }
  | unseen : s.consumer = .idle → s.permTS = none →
      Move s .close { s with waiting := false, closed := true }
  | close {ts : ℕ} : s.consumer = .idle → s.permTS = some ts →
      Move s .close { s with waiting := false, consumer := .edit ts }
  | edit {ts : ℕ} : s.consumer = .edit ts →
      Move s .edit { s with messages := s.messages.set ts false, consumer := .drop }
  | drop : s.consumer = .drop →
      Move s .drop { s with permTS := none, consumer := .idle, closed := true }
  | look : s.retry = .look → s.waiting = true → Move s .retryLook { s with retry := .post }
  | gone : s.retry = .look → s.waiting = false → Move s .retryLook { s with retry := .done }
  | retryPosted : s.retry = .post → Move s (.retryPost true)
      { s with messages := s.messages ++ [true], retry := .keep s.messages.length }
  | retryFailed : s.retry = .post → Move s (.retryPost false) { s with retry := .look }
  | retryKeep {ts : ℕ} : s.retry = .keep ts →
      Move s .retryKeep { s with permTS := some ts, retry := .clear }
  | retryClear : s.retry = .clear → Move s .retryClear { s with waiting := false, retry := .done }
  | giveUp : s.retry = .look → Move s .giveUp { s with retry := .done }

theorem move_of_step (hs : step s l = some t) : Move s l t := by
  unfold step at hs
  split at hs
  case h_1 hc =>
    obtain rfl := Option.some.inj hs
    by_cases hp : s.permTS.isSome = true
    · rw [if_pos hp]
      exact .shown hc hp
    · rw [if_neg hp]
      exact .ask hc (Option.not_isSome_iff_eq_none.mp hp)
  case h_2 hc =>
    split at hs
    · rename_i hok
      obtain rfl := Option.some.inj hs
      rw [hok]
      exact .posted hc
    · rename_i hok
      obtain rfl := Option.some.inj hs
      rw [eq_false_of_ne_true hok]
      exact .failed hc
  case h_3 hc => exact Option.some.inj hs ▸ .keep hc
  case h_4 hc => exact Option.some.inj hs ▸ .wait hc
  case h_5 hc =>
    split at hs
    · rename_i hp
      exact Option.some.inj hs ▸ .unseen hc hp
    · rename_i hp
      exact Option.some.inj hs ▸ .close hc hp
  case h_6 hc => exact Option.some.inj hs ▸ .edit hc
  case h_7 hc => exact Option.some.inj hs ▸ .drop hc
  case h_8 hr =>
    obtain rfl := Option.some.inj hs
    by_cases hw : s.waiting = true
    · rw [if_pos hw]
      exact .look hr hw
    · rw [if_neg hw]
      exact .gone hr (eq_false_of_ne_true hw)
  case h_9 hr =>
    split at hs
    · rename_i hok
      obtain rfl := Option.some.inj hs
      rw [hok]
      exact .retryPosted hr
    · rename_i hok
      obtain rfl := Option.some.inj hs
      rw [eq_false_of_ne_true hok]
      exact .retryFailed hr
  case h_10 hr => exact Option.some.inj hs ▸ .retryKeep hr
  case h_11 hr => exact Option.some.inj hs ▸ .retryClear hr
  case h_12 hr => exact Option.some.inj hs ▸ .giveUp hr
  case h_13 => cases hs

/-! ## One message -/

/-- The messages that the consumer can still post. -/
def Consumer.mayPost : Consumer → ℕ
  | .ask | .post | .wait => 1
  | _ => 0

/-- The messages that `retryPrompt` can still post. -/
def Retry.mayPost : Retry → ℕ
  | .look | .post => 1
  | _ => 0

/-- `askPermission` has not returned. -/
def Consumer.asking : Consumer → Bool
  | .ask | .post | .keep _ | .wait => true
  | _ => false

/-- The right to post is handed on, from the consumer to `retryPrompt`, and used up once. -/
structure PostsOnce (s : State) : Prop where
  budget : s.messages.length + s.consumer.mayPost + s.retry.mayPost ≤ 1
  alone : s.consumer.asking = true → s.retry = .none

theorem PostsOnce.step (h : PostsOnce s) (hs : step s l = some t) : PostsOnce t := by
  obtain ⟨hbudget, halone⟩ := h
  cases move_of_step hs with
  | shown hc | ask hc | posted hc | failed hc | keep hc | wait hc =>
    -- while it is asking, the consumer is alone
    rw [hc] at hbudget halone
    have hnone : s.retry = .none := halone rfl
    rw [hnone] at hbudget
    simp only [Consumer.mayPost, Retry.mayPost] at hbudget
    constructor
    · simp only [hnone, Consumer.mayPost, Retry.mayPost, List.length_append, List.length_singleton]
      omega
    · simp [hnone, Consumer.asking]
  | unseen hc | close hc | edit hc | drop hc =>
    rw [hc] at hbudget
    constructor
    · simp only [hc, Consumer.mayPost, List.length_set] at hbudget ⊢
      exact hbudget
    · simp [hc, Consumer.asking]
  | look hr | gone hr | retryPosted hr | retryFailed hr | retryKeep hr
  | retryClear hr | giveUp hr =>
    rw [hr] at hbudget halone
    constructor
    · simp only [Retry.mayPost, List.length_append, List.length_singleton] at hbudget ⊢
      omega
    · intro hasking
      cases halone hasking

theorem postsOnce_of_reach {ok : State → Label → Prop} (h : Reach step ok {} s) : PostsOnce s := by
  apply h.invariant PostsOnce
  · exact ⟨Nat.le_refl 1, fun _ => rfl⟩
  · exact fun hs _ hstep => hs.step hstep

/-! ## The message is noted -/

/-- A timestamp is stored, or about to be, or about to be edited. -/
def Notes (s : State) (ts : ℕ) : Prop :=
  s.permTS = some ts ∨ s.consumer = .keep ts ∨ s.consumer = .edit ts ∨ s.retry = .keep ts

/-- What is noted is a message, a message with open buttons is noted, and `closePermission` has
closed the one message before it forgets it. -/
structure Noted (s : State) : Prop where
  posted : ∀ ts, Notes s ts → ts < s.messages.length
  kept : true ∈ s.messages → ∃ ts, Notes s ts
  dropped : s.consumer = .drop → s.messages = [false]

/-- A step that posts nothing and closes nothing hands timestamps on. -/
theorem Noted.handOn (h : Noted s) (hsub : ∀ ts, Notes t ts → Notes s ts)
    (hsome : ∀ ts, Notes s ts → ∃ ts', Notes t ts')
    (hdrop : t.consumer = .drop → s.consumer = .drop) (hmessages : t.messages = s.messages) :
    Noted t := by
  constructor
  · intro ts hts
    rw [hmessages]
    exact h.posted ts (hsub ts hts)
  · intro hopen
    rw [hmessages] at hopen
    obtain ⟨ts, hts⟩ := h.kept hopen
    exact hsome ts hts
  · intro hc
    rw [hmessages]
    exact h.dropped (hdrop hc)

/-- A step that posts notes its message. -/
theorem Noted.post (h : Noted s) (hnew : Notes t s.messages.length)
    (hsub : ∀ ts, Notes t ts → ts = s.messages.length ∨ Notes s ts) (hdrop : t.consumer ≠ .drop)
    (hmessages : t.messages = s.messages ++ [true]) : Noted t := by
  have hlen : t.messages.length = s.messages.length + 1 := by
    rw [hmessages, List.length_append, List.length_singleton]
  constructor
  · intro ts hts
    rcases hsub ts hts with rfl | hold
    · omega
    · have := h.posted ts hold
      omega
  · exact fun _ => ⟨_, hnew⟩
  · exact fun hc => absurd hc hdrop

theorem Noted.step (h : Noted s) (hone : PostsOnce s) (hs : step s l = some t) : Noted t := by
  cases move_of_step hs with
  | shown hc | ask hc | failed hc | unseen hc =>
    apply h.handOn
    · simp [Notes, hc]
    · exact fun ts hts => ⟨ts, by simpa [Notes, hc] using hts⟩
    · simp [hc]
    · rfl
  | wait hc =>
    have hnone : s.retry = .none := hone.alone (by rw [hc]; rfl)
    apply h.handOn
    · simp [Notes, hc, hnone]
    · exact fun ts hts => ⟨ts, by simpa [Notes, hc, hnone] using hts⟩
    · simp
    · rfl
  | @keep ts hc =>
    apply h.handOn
    · rintro x (hx | hx | hx | hx)
      · exact .inr (.inl (Option.some.inj hx ▸ hc))
      · cases hx
      · cases hx
      · exact .inr (.inr (.inr hx))
    · exact fun _ _ => ⟨ts, .inl rfl⟩
    · simp
    · rfl
  | @close ts hc hp =>
    apply h.handOn
    · simp [Notes, hc, hp]
    · exact fun _ _ => ⟨ts, .inl hp⟩
    · simp
    · rfl
  | posted hc =>
    apply h.post
    · exact .inr (.inl rfl)
    · rintro x (hx | hx | hx | hx)
      · exact .inr (.inl hx)
      · exact .inl (Consumer.keep.inj hx).symm
      · cases hx
      · exact .inr (.inr (.inr (.inr hx)))
    · simp
    · rfl
  | retryPosted hr =>
    have hnil : s.messages = [] := by
      have := hone.budget
      rw [hr, Retry.mayPost] at this
      rw [← List.length_eq_zero_iff]
      omega
    apply h.post
    · exact .inr (.inr (.inr rfl))
    · rintro x (hx | hx | hx | hx)
      · exact .inr (.inl hx)
      · exact .inr (.inr (.inl hx))
      · exact .inr (.inr (.inr (.inl hx)))
      · exact .inl (Retry.keep.inj hx).symm
    · -- the consumer drops a message only when there is one
      intro hc
      cases hnil.symm.trans (h.dropped hc)
    · rfl
  | @edit ts hc =>
    have hlt := h.posted ts (.inr (.inr (.inl hc)))
    have hbudget := hone.budget
    have hset : s.messages.set ts false = [false] := by
      obtain ⟨m, hm⟩ := List.length_eq_one_iff.mp (by omega : s.messages.length = 1)
      obtain rfl : ts = 0 := by omega
      rw [hm]
      rfl
    constructor
    · rintro x (hx | hx | hx | hx)
      · exact (List.length_set).symm ▸ h.posted x (.inl hx)
      · cases hx
      · cases hx
      · exact (List.length_set).symm ▸ h.posted x (.inr (.inr (.inr hx)))
    · intro hopen
      replace hopen : true ∈ s.messages.set ts false := hopen
      rw [hset] at hopen
      cases List.mem_singleton.mp hopen
    · exact fun _ => hset
  | drop hc =>
    constructor
    · rintro x (hx | hx | hx | hx)
      · cases hx
      · cases hx
      · cases hx
      · exact h.posted x (.inr (.inr (.inr hx)))
    · intro hopen
      replace hopen : true ∈ s.messages := hopen
      rw [h.dropped hc] at hopen
      cases List.mem_singleton.mp hopen
    · exact nofun
  | look hr | gone hr | retryFailed hr | retryClear hr | giveUp hr =>
    apply h.handOn
    · simp [Notes, hr]
    · exact fun ts hts => ⟨ts, by simpa [Notes, hr] using hts⟩
    · exact fun hc => hc
    · rfl
  | @retryKeep ts hr =>
    apply h.handOn
    · rintro x (hx | hx | hx | hx)
      · exact .inr (.inr (.inr (Option.some.inj hx ▸ hr)))
      · exact .inr (.inl hx)
      · exact .inr (.inr (.inl hx))
      · cases hx
    · exact fun _ _ => ⟨ts, .inl rfl⟩
    · exact fun hc => hc
    · rfl

/-! ## No open buttons -/

/-- `closePermission` has looked at the renderer and found a message. -/
def Consumer.closing : Consumer → Bool
  | .edit _ | .drop => true
  | _ => false

/-- Behind a close nothing is posted any more, and nothing is open once it has returned. -/
structure Quiet (s : State) : Prop where
  silent : s.closed = true ∨ s.consumer.closing = true →
    s.waiting = false ∧ s.retry.posting = false ∧ s.consumer.asking = false
  shut : s.closed = true → true ∉ s.messages

theorem Quiet.step (h : Quiet s) (hnoted : Noted s) (hok : apart s l) (hs : step s l = some t) :
    Quiet t := by
  obtain ⟨hsilent, hshut⟩ := h
  cases move_of_step hs with
  | shown hc | ask hc | posted hc | failed hc | keep hc | wait hc =>
    -- a consumer that is asking has not closed anything
    have hopen : s.closed = false := by
      by_contra hclosed
      have := (hsilent (.inl (by simpa using hclosed))).2.2
      rw [hc] at this
      cases this
    constructor
    · simp [hopen, Consumer.closing]
    · simp [hopen]
  | unseen hc hp =>
    have hnoPost : s.retry.posting = false := hok rfl
    constructor
    · exact fun _ => ⟨rfl, hnoPost, by rw [hc]; rfl⟩
    · -- an open message would be noted, and no place for that is left
      intro _ hopen
      rcases hnoted.kept hopen with ⟨ts, hts | hts | hts | hts⟩
      · cases hp.symm.trans hts
      · cases hc.symm.trans hts
      · cases hc.symm.trans hts
      · rw [hts] at hnoPost
        cases hnoPost
  | close hc hp => exact ⟨fun _ => ⟨rfl, hok rfl, rfl⟩, hshut⟩
  | edit hc =>
    have hsil := hsilent (.inr (by rw [hc]; rfl))
    constructor
    · exact fun _ => ⟨hsil.1, hsil.2.1, rfl⟩
    · intro hclosed hopen
      rcases List.mem_or_eq_of_mem_set hopen with hold | hfalse
      · exact hshut hclosed hold
      · cases hfalse
  | drop hc =>
    have hsil := hsilent (.inr (by rw [hc]; rfl))
    constructor
    · exact fun _ => ⟨hsil.1, hsil.2.1, rfl⟩
    · intro _ hopen
      replace hopen : true ∈ s.messages := hopen
      rw [hnoted.dropped hc] at hopen
      cases List.mem_singleton.mp hopen
  | look hr hw =>
    refine ⟨fun hclosing => ?_, hshut⟩
    cases hw.symm.trans (hsilent hclosing).1
  | gone hr | giveUp hr =>
    exact ⟨fun hclosing => ⟨(hsilent hclosing).1, rfl, (hsilent hclosing).2.2⟩, hshut⟩
  | retryClear hr => exact ⟨fun hclosing => ⟨rfl, rfl, (hsilent hclosing).2.2⟩, hshut⟩
  | retryPosted hr | retryFailed hr | retryKeep hr =>
    -- the attempt may be posting, so nothing is being closed
    have hbusy : ¬ (s.closed = true ∨ s.consumer.closing = true) := by
      intro hclosing
      have hidle := (hsilent hclosing).2.1
      rw [hr] at hidle
      cases hidle
    exact ⟨fun hclosing => absurd hclosing hbusy, fun hclosed => absurd (.inl hclosed) hbusy⟩

theorem quiet_of_reach (h : Reach step apart {} s) : Quiet s := by
  suffices hall : PostsOnce s ∧ Noted s ∧ Quiet s from hall.2.2
  apply h.invariant fun s => PostsOnce s ∧ Noted s ∧ Quiet s
  · refine ⟨⟨Nat.le_refl 1, fun _ => rfl⟩, ⟨?_, ?_, ?_⟩, ?_, ?_⟩
    all_goals simp [Notes, Consumer.closing]
  · rintro s t l ⟨hone, hnoted, hquiet⟩ hok hs
    exact ⟨hone.step hs, hnoted.step hone hs, hquiet.step hnoted hok hs⟩

/-- At most one message is ever posted for a request, and once `closePermission` has returned
none has open buttons, when no close falls into an attempt that may be posting. -/
theorem prompt_closed (s : State) :
    (Reach step (fun _ _ => True) {} s → s.messages.length ≤ 1) ∧
      (Reach step apart {} s → s.closed = true → s.retry.settled = true →
        true ∉ s.messages) := by
  constructor
  · intro h
    have := (postsOnce_of_reach h).budget
    omega
  · intro h hclosed _
    exact (quiet_of_reach h).shut hclosed

/-- The first post fails, an attempt posts the prompt and stores it, and the request is resolved
before the attempt returns. -/
def closedInTime : List Label :=
  [.ask, .post false, .wait, .retryLook, .retryPost false, .retryLook, .retryPost true, .retryKeep,
    .close, .edit, .drop, .retryClear]

theorem prompt_closed_inTime :
    ∃ s, Reach step apart {} s ∧ s.messages = [false] ∧ s.messages.length ≤ 1 ∧
      true ∉ s.messages := by
  have hrun : Reach step apart {} ((exec step {} closedInTime).getD {}) :=
    .of_exec_guarded closedInTime (by decide)
  refine ⟨_, hrun, by decide, ?_, ?_⟩
  · exact (prompt_closed _).1 (hrun.mono fun _ _ _ => trivial)
  · exact (prompt_closed _).2 hrun (by decide) (by decide)

/-- The first post fails, an attempt looks at `waiting`, and the request is resolved before the
attempt posts. -/
def closedInBetween : List Label :=
  [.ask, .post false, .wait, .retryLook, .close, .retryPost true, .retryKeep, .retryClear]

/-- The prompt stays open. -/
theorem prompt_left_open :
    ∃ s, Reach step (fun _ _ => True) {} s ∧ s.closed = true ∧ s.retry.settled = true ∧
      s.consumer = .idle ∧ s.messages = [true] :=
  ⟨_, .of_exec_getD closedInBetween (by decide), by decide, by decide, by decide, by decide⟩

end AgentOps.Slackbot.Permission
