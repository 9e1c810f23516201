import AgentOps.Lib.Machine
import AgentOps.Slackbot.Transcript
import Mathlib.Data.String.Basic

/-!
# Catching a session up with its thread

`sendTurn`, `catchup` and `advanceCursor` of `slackbot/internal/app/app.go`, for one session of a
thread. A turn reads the cursor, then the thread, then sends its prompt, and only then moves the
cursor, and nothing is locked over these steps: any number of turns may be in any of them at the
same time. What a read of the thread gives, and whether the harness accepts a prompt, is the
choice of the step.
-/

namespace AgentOps.Slackbot

open AgentOps.Lib

variable {i : ℕ} {first : String}

namespace Catchup

/-- Where a turn is in `sendTurn`. -/
inductive Place
  | new
  /-- `catchup` looked at the thread, and has to read the replies. -/
  | reading (t : Slackbot.Thread)
  | composed
  /-- The prompt was accepted after a catch-up that was read. -/
  | prompted
  /-- `advanceCursor` found the cursor behind the trigger. -/
  | checked
  | returned
deriving DecidableEq

/-- A turn. `carried` is what its catch-up was made of, and `accepted` says that its prompt was: no
step reads them. -/
structure Turn where
  text : Bytes
  triggerTS : String
  messageTS : String
  place : Place := .new
  read : Bool := false
  content : Bytes := []
  carried : Option (Slackbot.Thread × Reading) := none
  accepted : Bool := false
deriving DecidableEq

/-- `cmp.Or(triggerTS, messageTS)`. -/
def Turn.moveTo (u : Turn) : String := if u.triggerTS = "" then u.messageTS else u.triggerTS

/-- The session in its thread, and its turns. -/
structure Session where
  botUserId : String
  thread : Slackbot.Thread
  turns : ℕ → Option Turn := fun _ => none

def Session.setTurn (s : Session) (i : ℕ) (u : Turn) : Session :=
  { s with turns := Function.update s.turns i (some u) }

/-- The steps. -/
inductive Label
  | turn (i : ℕ) (text : Bytes) (triggerTS messageTS : String)
  | readCursor (i : ℕ)
  | readThread (i : ℕ) (r : Reading)
  /-- `Prompt` returned. -/
  | prompt (i : ℕ) (ok : Bool)
  | check (i : ℕ)
  | set (i : ℕ)
  /-- `flipRoom`. -/
  | flip (atTS : String)
deriving DecidableEq

/-- A step of turn `i`. -/
def turnStep (s : Session) (i : ℕ) (u : Turn) : Label → Option Session
  | .readCursor _ =>
    if u.place = .new then some (s.setTurn i { u with place := .reading s.thread }) else none
  | .readThread _ r =>
    match u.place with
    | .reading t =>
      let block := catchup s.botUserId t u.triggerTS r
      some (s.setTurn i { u with
        place := .composed
        read := block.2
        content := withCatchup block.1 u.text
        carried := some (t, r) })
    | _ => none
  | .prompt _ ok =>
    if u.place = .composed then
      -- the harness refuses a prompt without content
      if ok ∧ u.content ≠ [] then some (s.setTurn i { u with
        place := if u.read then .prompted else .returned, accepted := true })
      else some (s.setTurn i { u with place := .returned })
    else none
  | .check _ =>
    if u.place = .prompted then
      some (s.setTurn i { u with
        place := if u.moveTo = "" ∨ u.moveTo ≤ s.thread.lastSeenTS then .returned else .checked })
    else none
  | .set _ =>
    if u.place = .checked then
      some { s.setTurn i { u with place := .returned } with
        thread := { s.thread with lastSeenTS := u.moveTo } }
    else none
  | _ => none

/-- One step. -/
def step (s : Session) (l : Label) : Option Session :=
  match l with
  | .turn i text triggerTS messageTS =>
    if s.turns i = none then some (s.setTurn i { text, triggerTS, messageTS }) else none
  | .flip atTS => some { s with thread := { s.thread with
      multiplayer := true
      lastSeenTS := if s.thread.lastSeenTS = "" then atTS else s.thread.lastSeenTS } }
  | .readCursor i | .readThread i _ | .prompt i _ | .check i | .set i =>
    (s.turns i).bind fun u => turnStep s i u l

/-! ## The windows leave no hole -/

/-- An accepted turn went out with a catch-up that was read, over a window with the version. -/
def Covers (botUserId : String) (u : Turn) (version : String) : Prop :=
  u.accepted = true ∧ u.text ≠ [] ∧ ∃ t r, u.carried = some (t, r) ∧
    t.multiplayer = true ∧ t.lastSeenTS ≠ "" ∧ (catchup botUserId t u.triggerTS r).2 = true ∧
    u.content = withCatchup (catchup botUserId t u.triggerTS r).1 u.text ∧
    (t.carry botUserId u.triggerTS).contains version

/-- Nothing is lost of a version: an accepted turn covers it, or was triggered by it. -/
def Safe (s : Session) (version : String) : Prop :=
  ∃ i u, s.turns i = some u ∧
    (u.accepted = true ∧ u.triggerTS = version ∨ Covers s.botUserId u version)

/-- Nothing is lost up to a cursor. -/
def SafeTo (first : String) (s : Session) (cursor : String) : Prop :=
  ∀ v, first < v → v ≤ cursor → Safe s v

/-- A thread as a catch-up may find it. -/
structure Found (safe : String → Prop) (t : Slackbot.Thread) : Prop where
  multiplayer : t.multiplayer = true
  nonempty : t.lastSeenTS ≠ ""
  safe : safe t.lastSeenTS

/-- What a turn that composed its content goes out with. -/
def Carries (botUserId : String) (safe : String → Prop) (u : Turn) : Prop :=
  ∃ t r, u.carried = some (t, r) ∧ Found safe t ∧
    u.read = (catchup botUserId t u.triggerTS r).2 ∧
    u.content = withCatchup (catchup botUserId t u.triggerTS r).1 u.text

/-- What is known of a turn at its place. -/
def TurnOk (botUserId : String) (safe : String → Prop) (u : Turn) : Prop :=
  match u.place with
  | .new => u.accepted = false
  | .reading t => u.accepted = false ∧ Found safe t
  | .composed => u.accepted = false ∧ Carries botUserId safe u
  | .prompted => u.accepted = true ∧ u.read = true ∧ u.content ≠ [] ∧ Carries botUserId safe u
  | .checked => u.accepted = true ∧ u.read = true ∧ u.content ≠ [] ∧ Carries botUserId safe u ∧
      u.moveTo ≠ ""
  | .returned => True

theorem TurnOk.mono {botUserId : String} {safe safe' : String → Prop} {u : Turn}
    (h : TurnOk botUserId safe u) (hle : ∀ c, safe c → safe' c) : TurnOk botUserId safe' u := by
  have hfound : ∀ {t}, Found safe t → Found safe' t :=
    fun ht => ⟨ht.multiplayer, ht.nonempty, hle _ ht.safe⟩
  have hcarries : Carries botUserId safe u → Carries botUserId safe' u := by
    rintro ⟨t, r, hc, ht, hread, hcontent⟩
    exact ⟨t, r, hc, hfound ht, hread, hcontent⟩
  unfold TurnOk at h ⊢
  split
  · rename_i hp
    simpa only [hp] using h
  · rename_i hp
    simp only [hp] at h
    exact ⟨h.1, hfound h.2⟩
  · rename_i hp
    simp only [hp] at h
    exact ⟨h.1, hcarries h.2⟩
  · rename_i hp
    simp only [hp] at h
    exact ⟨h.1, h.2.1, h.2.2.1, hcarries h.2.2.2⟩
  · rename_i hp
    simp only [hp] at h
    exact ⟨h.1, h.2.1, h.2.2.1, hcarries h.2.2.2.1, h.2.2.2.2⟩
  · trivial

/-- What holds of a multiplayer thread that had the cursor `first`. -/
structure NoHole (first : String) (s : Session) : Prop where
  found : Found (SafeTo first s) s.thread
  turns : ∀ i u, s.turns i = some u → TurnOk s.botUserId (SafeTo first s) u

/-- A turn that was accepted stays what it is. -/
def Keeps (u u' : Turn) : Prop :=
  u'.accepted = true ∧ u'.text = u.text ∧ u'.triggerTS = u.triggerTS ∧ u'.content = u.content ∧
    u'.carried = u.carried

theorem Safe.setTurn {s : Session} {v : String} (h : Safe s v) {u' : Turn}
    (hkeep : ∀ u, s.turns i = some u → u.accepted = true → Keeps u u') :
    Safe (s.setTurn i u') v := by
  obtain ⟨j, u, hu, h⟩ := h
  by_cases hj : j = i
  · subst hj
    have hacc : u.accepted = true := by
      obtain h | h := h
      · exact h.1
      · exact h.1
    obtain ⟨hacc', htext, htrigger, hcontent, hcarried⟩ := hkeep u hu hacc
    refine ⟨j, u', Function.update_self .., ?_⟩
    obtain ⟨-, h⟩ | ⟨-, hne, h⟩ := h
    · exact .inl ⟨hacc', htrigger.trans h⟩
    · refine .inr ⟨hacc', by rwa [htext], ?_⟩
      rw [hcarried, hcontent, htrigger, htext]
      exact h
  · exact ⟨j, u, (Function.update_of_ne hj _ _).trans hu, h⟩

theorem NoHole.setTurn {s : Session} (h : NoHole first s) {u' : Turn}
    (hkeep : ∀ u, s.turns i = some u → u.accepted = true → Keeps u u')
    (hok : TurnOk s.botUserId (SafeTo first s) u') : NoHole first (s.setTurn i u') := by
  have hmono : ∀ c, SafeTo first s c → SafeTo first (s.setTurn i u') c :=
    fun c hc v hv hvc => (hc v hv hvc).setTurn hkeep
  refine ⟨⟨h.found.multiplayer, h.found.nonempty, hmono _ h.found.safe⟩, fun j u hu => ?_⟩
  by_cases hj : j = i
  · subst hj
    obtain rfl : u' = u := by simpa [Session.setTurn] using hu
    exact hok.mono hmono
  · have hu : s.turns j = some u := by simpa [Session.setTurn, hj] using hu
    exact (h.turns j u hu).mono hmono

/-- Up to where a turn moves the cursor, everything is safe. -/
theorem Carries.safeTo {s : Session} {u : Turn} (hu : s.turns i = some u) (hacc : u.accepted = true)
    (hread : u.read = true) (hcontent : u.content ≠ [])
    (h : Carries s.botUserId (SafeTo first s) u) : SafeTo first s u.moveTo := by
  obtain ⟨t, r, hc, ⟨hmulti, hne, hsafe⟩, hr, heq⟩ := h
  have htext : u.text ≠ [] := by
    rintro htext
    rw [htext] at heq
    exact hcontent (heq.trans (by simp [withCatchup]))
  have hcovers : ∀ v, (t.carry s.botUserId u.triggerTS).contains v → Safe s v := fun v hv =>
    ⟨i, u, hu, .inr ⟨hacc, htext, t, r, hc, hmulti, hne, hr.symm.trans hread, heq, hv⟩⟩
  intro v hv hvle
  by_cases hvc : v ≤ t.lastSeenTS
  · exact hsafe v hv hvc
  -- the window starts at the cursor or before it, and ends at the trigger
  have hafter : ¬((t.carry s.botUserId u.triggerTS).after ≠ "" ∧
      v ≤ (t.carry s.botUserId u.triggerTS).after) := by
    unfold Thread.carry
    split
    · simp [seedCarry]
    · exact fun h => hvc h.2
  have hbefore : (t.carry s.botUserId u.triggerTS).before = u.triggerTS := by
    unfold Thread.carry
    split <;> rfl
  unfold Turn.moveTo at hvle
  split at hvle
  · rename_i hempty
    refine hcovers v ⟨hafter, ?_⟩
    rw [hbefore]
    exact fun h => h.1 hempty
  · by_cases hvt : u.triggerTS ≤ v
    · exact ⟨i, u, hu, .inl ⟨hacc, le_antisymm hvt hvle⟩⟩
    · refine hcovers v ⟨hafter, ?_⟩
      rw [hbefore]
      exact fun h => hvt h.2

theorem NoHole.turnStep {s t : Session} (h : NoHole first s) {u : Turn} (hu : s.turns i = some u)
    {l : Label} (hs : turnStep s i u l = some t) : NoHole first t := by
  have hok := h.turns i u hu
  have hnew : ∀ {u'}, u.accepted = false → ∀ w, s.turns i = some w → w.accepted = true →
      Keeps w u' := by
    intro u' hacc w hw hwacc
    obtain rfl : u = w := Option.some.inj (hu.symm.trans hw)
    rw [hacc] at hwacc
    cases hwacc
  have hmoved : ∀ {p}, u.accepted = true → ∀ w, s.turns i = some w → w.accepted = true →
      Keeps w { u with place := p } := by
    intro p hacc w hw _
    obtain rfl : u = w := Option.some.inj (hu.symm.trans hw)
    exact ⟨hacc, rfl, rfl, rfl, rfl⟩
  unfold TurnOk at hok
  revert hs
  fun_cases Catchup.turnStep s i u l <;> intro hs <;> try cases hs
  next hp =>
    rw [hp] at hok
    exact h.setTurn (hnew hok) ⟨hok, h.found⟩
  next r t hp _ =>
    rw [hp] at hok
    exact h.setTurn (hnew hok.1) ⟨hok.1, t, r, rfl, hok.2, rfl, rfl⟩
  next hp hsent =>
    rw [hp] at hok
    refine h.setTurn (hnew hok.1) ?_
    by_cases hr : u.read = true
    · rw [if_pos hr]
      exact ⟨rfl, hr, hsent.2, hok.2⟩
    · rw [if_neg hr]
      trivial
  next hp _ =>
    rw [hp] at hok
    exact h.setTurn (hnew hok.1) trivial
  next hp =>
    rw [hp] at hok
    obtain ⟨hacc, hread, hcontent, hcarries⟩ := hok
    refine h.setTurn (hmoved hacc) ?_
    by_cases hback : u.moveTo = "" ∨ u.moveTo ≤ s.thread.lastSeenTS
    · simp only [hback, if_true]
      trivial
    · simp only [hback, if_false]
      exact ⟨hacc, hread, hcontent, hcarries, fun hne => hback (.inl hne)⟩
  next hp =>
    rw [hp] at hok
    obtain ⟨hacc, hread, hcontent, hcarries, hne⟩ := hok
    have hset : NoHole first (s.setTurn i { u with place := .returned }) :=
      h.setTurn (hmoved hacc) trivial
    have hseen := Carries.safeTo hu hacc hread hcontent hcarries
    exact ⟨⟨h.found.multiplayer, hne, fun v hv hvle => (hseen v hv hvle).setTurn (hmoved hacc)⟩,
      hset.turns⟩

theorem NoHole.step {s t : Session} (h : NoHole first s) {l : Label} (hs : step s l = some t) :
    NoHole first t := by
  cases l with
  | turn i text triggerTS messageTS =>
    simp only [Catchup.step] at hs
    split at hs
    · rename_i hnew
      cases hs
      refine h.setTurn (fun u hu => ?_) rfl
      rw [hnew] at hu
      cases hu
    · cases hs
  | flip atTS =>
    simp only [Catchup.step, if_neg h.found.nonempty, Option.some.injEq] at hs
    subst hs
    exact ⟨⟨rfl, h.found.nonempty, h.found.safe⟩, h.turns⟩
  | readCursor i | readThread i _ | prompt i _ | check i | set i =>
    obtain ⟨u, hu, hs⟩ := Option.bind_eq_some_iff.mp hs
    exact h.turnStep hu hs

/-- In every run of a multiplayer thread that starts with a cursor and no turn past its catch-up,
what is between the first cursor and the present one, and did not trigger an accepted turn, is in
the window of a catch-up that was read and that went out with an accepted turn. -/
theorem windows_leave_no_hole {s t : Session} (hmulti : s.thread.multiplayer = true)
    (hcursor : s.thread.lastSeenTS ≠ "")
    (hidle : ∀ i u, s.turns i = some u →
      u.place = .returned ∨ u.place = .new ∧ u.accepted = false)
    (h : Reach step (fun _ _ => True) s t) (v : String) (hfirst : s.thread.lastSeenTS < v)
    (hpresent : v < t.thread.lastSeenTS)
    (htrigger : ∀ i u, t.turns i = some u → u.accepted = true → u.triggerTS ≠ v) :
    ∃ i u, t.turns i = some u ∧ Covers t.botUserId u v := by
  have hinit : NoHole s.thread.lastSeenTS s := by
    refine ⟨⟨hmulti, hcursor, fun v hv hle => absurd hv (not_lt.mpr hle)⟩, fun i u hu => ?_⟩
    unfold TurnOk
    obtain hp | ⟨hp, hacc⟩ := hidle i u hu
    · rw [hp]
      trivial
    · rw [hp]
      exact hacc
  have hinv := h.invariant (NoHole s.thread.lastSeenTS) hinit fun ha _ hs => ha.step hs
  obtain ⟨i, u, hu, ⟨hacc, hv⟩ | hcovers⟩ := hinv.found.safe v hfirst (le_of_lt hpresent)
  · exact absurd hv (htrigger i u hu hacc)
  · exact ⟨i, u, hu, hcovers⟩

/-- A session with a cursor. -/
def quietSession : Session where
  botUserId := "UBOT"
  thread := { sessionId := "s1", ownerUserId := "U1", multiplayer := true, lastSeenTS := "1" }

/-- The owner of the session asks, and nobody wrote since the cursor. -/
def caughtUpRun : List Label :=
  [.turn 0 (utf8 "go") "3" "3", .readCursor 0, .readThread 0 { fallback := some [] },
    .prompt 0 true, .check 0, .set 0]

theorem windows_leave_no_hole_caughtUpRun :
    ∃ i u, ((exec step quietSession caughtUpRun).getD quietSession).turns i = some u ∧
      Covers ((exec step quietSession caughtUpRun).getD quietSession).botUserId u "2" := by
  refine windows_leave_no_hole (s := quietSession) rfl (by decide) (by simp [quietSession])
    (Reach.of_exec_getD _ (by decide)) "2" (by decide) (by decide) ?_
  intro i u hu _
  by_cases hi : i = 0
  · subst hi
    have hu : u.triggerTS = "3" := by
      have : (((exec step quietSession caughtUpRun).getD quietSession).turns 0).map Turn.triggerTS =
        some "3" := by decide
      rw [hu] at this
      exact Option.some.inj this
    rw [hu]
    decide
  · have hread : catchup "UBOT" quietSession.thread "3" { fallback := some [] } = ([], true) := by
      decide
    have hcontent : withCatchup [] (utf8 "go") ≠ [] := by decide
    have hnone : ((exec step quietSession caughtUpRun).getD quietSession).turns i = none := by
      simp only [quietSession] at hread
      simp [exec, step, turnStep, caughtUpRun, quietSession, Session.setTurn, Turn.moveTo, hread,
        hcontent, hi]
    rw [hnone] at hu
    cases hu

/-- A session whose thread is of one person. -/
def soloSession : Session := { quietSession with
  thread := { quietSession.thread with multiplayer := false } }

/-- The owner asks, and somebody else asks in the thread before the cursor is moved. -/
def composedRun : List Label :=
  [.turn 0 (utf8 "go") "3" "3", .readCursor 0, .readThread 0 {}, .flip "2"]

/-- The turn goes out without a catch-up, and moves the cursor past what the other person wrote. -/
theorem windows_leave_hole :
    ∃ s t, Reach step (fun _ _ => True) soloSession s ∧ s.thread.multiplayer = true ∧
      s.thread.lastSeenTS = "1" ∧ Reach step (fun _ _ => True) s t ∧ t.thread.lastSeenTS = "3" ∧
      ∀ i u, t.turns i = some u → u.triggerTS ≠ "2" ∧ ¬Covers t.botUserId u "2" := by
  let s := (exec step soloSession composedRun).getD soloSession
  let t := (exec step s [.prompt 0 true, .check 0, .set 0]).getD s
  refine ⟨s, t, .of_exec_getD _ (by decide), rfl, rfl, .of_exec_getD _ (by decide), by decide, ?_⟩
  intro i u hu
  have hturn : u.triggerTS = "3" ∧ u.carried = some (soloSession.thread, {}) := by
    by_cases hi : i = 0
    · subst hi
      have hfirst : (t.turns 0).map (fun u => (u.triggerTS, u.carried)) =
        some ("3", some (soloSession.thread, {})) := by decide
      rw [hu] at hfirst
      exact Prod.mk.inj (Option.some.inj hfirst)
    · have hnone : t.turns i = none := by
        have hcontent : withCatchup [] (utf8 "go") ≠ [] := by decide
        simp [t, s, exec, step, turnStep, composedRun, soloSession, quietSession, Session.setTurn,
          Turn.moveTo, catchup, hcontent, hi]
      rw [hnone] at hu
      cases hu
  refine ⟨by rw [hturn.1]; decide, ?_⟩
  rintro ⟨-, -, thread, r, hcarried, hmulti, -⟩
  rw [hturn.2] at hcarried
  obtain ⟨rfl, -⟩ := Prod.mk.inj (Option.some.inj hcarried)
  exact absurd hmulti (by decide)

end Catchup

end AgentOps.Slackbot
