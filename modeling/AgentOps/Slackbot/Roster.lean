import AgentOps.Lib.Machine
import Mathlib.Data.String.Basic

/-!
# The sessions of one Slack thread

`HandleMention`, `handleThreadedMention`, `startJoin`, `startSession` and what registers a thread
again (`slackbot/internal/app/app.go`, `start.go`, `render.go`, `sweep.go`), for one thread of a
channel. A handler reads the template of the channel, looks at the roster, registers and creates the
session in separate steps, and any number of handlers are in any of them at the same time. The
platform has one live session for each person of the thread. Whether a request succeeds, when a
session is paused or ends, when its consumer stops, a restart of the bot and the template that the
channel is bound to are choices of the steps.
-/

namespace AgentOps.Slackbot.Roster

open AgentOps.Lib

variable {w : String} {u : ℕ}

/-! ## The bot and the platform -/

/-- A session of the platform. -/
inductive Status
  | live
  /-- `StateSuspended`, which is live for `api.Live`. -/
  | paused
  | ended
deriving DecidableEq

/-- A session that belongs to the thread, by the person of its conversation reference. -/
structure Row where
  owner : ℕ
  template : String
  status : Status
deriving DecidableEq

variable {r : Row}

/-- A `thread` of the registry. `reg` stands for its address, and `session` is the index of its row
once it is known. -/
structure Entry where
  reg : ℕ
  owner : ℕ
  session : Option ℕ
  workflow : String
deriving DecidableEq

/-- Where a handler is. -/
inductive Place
  /-- A mention outside of a thread that found neither a thread of the person nor a room. -/
  | rooted (u : ℕ)
  /-- A mention in the thread that found no thread of the person. -/
  | asking (u : ℕ)
  /-- `reviveDetached`, for a paused session. -/
  | adopting (u id : ℕ)
  /-- `reviveThread`. -/
  | reviving (t : Entry) (id : ℕ)
  /-- `startOver`, after its `EndSession`. -/
  | leaving (t : Entry)
  /-- `startJoin`. -/
  | joining (u : ℕ)
  /-- Before `roommates` looks at the registry. -/
  | checking (u : ℕ) (template : String)
  /-- Before `roommates` lists the sessions. -/
  | listing (u : ℕ) (template : String)
  /-- Before `startSession` registers. -/
  | cleared (u : ℕ) (template : String)
  /-- `CreateSession` is sent. -/
  | creating (t : Entry)
  /-- The session is stored, and the bot has no answer. -/
  | created (t : Entry) (id : ℕ)
  /-- `CreateSession` is sent, and nobody waits for the answer. -/
  | orphan (u : ℕ) (template : String)
  | returned
deriving DecidableEq

variable {p : Place}

/-- The thread: what `TemplateFor` reads, the registry, the sessions and the handlers. -/
structure Room where
  bound : String
  threads : List Entry := []
  rows : List Row := []
  handlers : List Place := []
  next : ℕ := 0
deriving DecidableEq

variable {s t : Room}

/-- `lookup`. -/
def Room.lookup (s : Room) (u : ℕ) : Option Entry := s.threads.find? fun t => t.owner = u

/-- `templateForChannel`. -/
def Room.templateFor (s : Room) : Option String := if s.bound = "" then none else some s.bound

/-- `registerThread` of a thread whose key is free. -/
def Room.register (s : Room) (t : Entry) : Room :=
  { s with threads := s.threads ++ [t], next := s.next + 1 }

/-- `unregisterThread`. -/
def Room.unregister (s : Room) (t : Entry) : Room :=
  { s with threads := s.threads.filter fun e => e.reg ≠ t.reg }

/-- A status of a session is written. -/
def Room.mark (s : Room) (id : ℕ) (status : Status) : Room :=
  { s with rows := s.rows.modify id fun r => { r with status := status } }

/-- `GetLiveSessionByConversation` for a person of the thread. -/
def Room.liveOf (s : Room) (u : ℕ) : Option Row :=
  s.rows.find? fun r => r.owner = u ∧ r.status ≠ .ended

/-- `retemplated`, over the templates of the roster. -/
def retemplated (roommates : List String) (template : String) : Option String :=
  roommates.find? fun w => w ≠ "" ∧ w ≠ template

/-- `roommates`, if the registry has a thread. -/
def Room.heldRoster (s : Room) (u : ℕ) : List String :=
  (s.threads.filter fun t => t.owner ≠ u).map Entry.workflow

/-- `roommates`, from the platform. -/
def Room.listedRoster (s : Room) (u : ℕ) : List String :=
  (s.rows.filter fun r => r.status ≠ .ended ∧ r.owner ≠ u).map Row.template

/-- `startJoin` with a roster. -/
def admitted (roommates : List String) (u : ℕ) (template : String) : Place :=
  match retemplated roommates template with
  | some _ => .returned
  | none => .cleared u template

/-! ## The steps -/

/-- The steps of a handler. -/
inductive Action
  | getSession
  | adopt
  /-- `errNoSlackState`: the session is ended. -/
  | noState
  /-- The prompt was accepted, or a request failed before anything was started. -/
  | quit
  /-- The session cannot be continued, and is ended. -/
  | startOver
  | letGo
  | resolve
  | roster
  | list
  | register
  | create
  | answer
  /-- `CreateSession` returned an error. -/
  | fail
  /-- It did, and the request may be served later. -/
  | giveUp
deriving DecidableEq

/-- One step of a handler. -/
def act (s : Room) (p : Place) : Action → Option (Room × Place)
  | .getSession =>
    match p with
    | .asking u =>
      match s.rows.findIdx? fun r => r.owner = u ∧ r.status ≠ .ended with
      | some id =>
        if (s.rows[id]?.map Row.status) = some .paused then some (s, .adopting u id)
        else some (s, .returned)
      | none => some (s, .joining u)
    | _ => none
  | .adopt =>
    match p with
    | .adopting u id =>
      match s.lookup u, s.rows[id]? with
      | some t, _ => some (s, t.session.elim .returned (.reviving t))
      | none, some r =>
        let t : Entry := ⟨s.next, u, some id, r.template⟩
        some (s.register t, .reviving t id)
      | none, none => none
    | _ => none
  | .noState =>
    match p with
    | .adopting u id => some (s.mark id .ended, .joining u)
    | _ => none
  | .quit =>
    match p with
    | .asking _ | .adopting _ _ | .reviving _ _ => some (s, .returned)
    | _ => none
  | .startOver =>
    match p with
    | .reviving t id => some (s.mark id .ended, .leaving t)
    | _ => none
  | .letGo =>
    match p with
    | .leaving t => some (s.unregister t, .joining t.owner)
    | _ => none
  | .resolve =>
    match p with
    | .rooted u => some (s, s.templateFor.elim .returned (.cleared u))
    | .joining u => some (s, s.templateFor.elim .returned (.checking u))
    | _ => none
  | .roster =>
    match p with
    | .checking u template =>
      if s.threads = [] then some (s, .listing u template)
      else some (s, admitted (s.heldRoster u) u template)
    | _ => none
  | .list =>
    match p with
    | .listing u template => some (s, admitted (s.listedRoster u) u template)
    | _ => none
  | .register =>
    match p with
    | .cleared u template =>
      match s.lookup u with
      | some _ => some (s, .returned)
      | none =>
        let t : Entry := ⟨s.next, u, none, template⟩
        some (s.register t, .creating t)
    | _ => none
  | .create =>
    match p with
    | .creating t =>
      -- `ErrConflict` if the person has a live session
      if s.liveOf t.owner = none then
        some ({ s with rows := s.rows ++ [⟨t.owner, t.workflow, .live⟩] },
          .created t s.rows.length)
      else none
    | .orphan u template =>
      if s.liveOf u = none then
        some ({ s with rows := s.rows ++ [⟨u, template, .live⟩] }, .returned)
      else none
    | _ => none
  | .answer =>
    match p with
    | .created t id =>
      some ({ s with threads := s.threads.map fun e =>
        if e = t then { e with session := some id } else e }, .returned)
    | _ => none
  | .fail =>
    match p with
    | .creating t | .created t _ => some (s.unregister t, .returned)
    | .orphan _ _ => some (s, .returned)
    | _ => none
  | .giveUp =>
    match p with
    | .creating t => some (s.unregister t, .orphan t.owner t.workflow)
    | _ => none

/-- A handler after a restart: only a request that was sent is left of it. -/
def Place.restarted : Place → Place
  | .creating t => .orphan t.owner t.workflow
  | .orphan u template => .orphan u template
  | _ => .returned

inductive Label
  /-- Somebody mentions the bot, or writes to their paused session. -/
  | mention (u : ℕ) (threaded : Bool)
  | act (h : ℕ) (a : Action)
  /-- The consumer of a thread, or the sweep that rendered it, is done. -/
  | drop (reg : ℕ)
  /-- `followAgain` and `renderMissed`. -/
  | again (id : ℕ)
  | pause (id : ℕ)
  | resume (id : ℕ)
  | finish (id : ℕ)
  | restart
  | rebind (template : String)
deriving DecidableEq

/-- The handler of a mention, up to its first request. -/
def Room.mention (s : Room) (u : ℕ) (threaded : Bool) : Option Place :=
  match s.lookup u with
  | some t => if threaded then t.session.map (.reviving t) else none
  | none =>
    -- a room is there as long as one of its threads is registered
    if threaded ∨ s.threads ≠ [] then some (.asking u) else some (.rooted u)

/-- One step. -/
def step (s : Room) : Label → Option Room
  | .mention u threaded =>
    (s.mention u threaded).map fun p => { s with handlers := s.handlers ++ [p] }
  | .act h a =>
    match s.handlers[h]? with
    | some p => (act s p a).map fun x => { x.1 with handlers := x.1.handlers.set h x.2 }
    | none => none
  | .drop reg =>
    match s.threads.find? fun t => t.reg = reg with
    | some t => if t.session = none then none else some (s.unregister t)
    | none => none
  | .again id =>
    match s.rows[id]? with
    | some r =>
      if s.lookup r.owner = none then some (s.register ⟨s.next, r.owner, some id, r.template⟩)
      else none
    | none => none
  | .pause id =>
    if (s.rows[id]?.map Row.status) = some .live then some (s.mark id .paused) else none
  | .resume id =>
    if (s.rows[id]?.map Row.status) = some .paused then some (s.mark id .live) else none
  | .finish id => some (s.mark id .ended)
  | .restart => some { s with threads := [], handlers := s.handlers.map Place.restarted }
  | .rebind template => some { s with bound := template }

/-- All live sessions of the thread, the paused ones too, run the same template. -/
def OneTemplate (s : Room) : Prop :=
  ∀ a ∈ s.rows, ∀ b ∈ s.rows, a.status ≠ .ended → b.status ≠ .ended → a.template = b.template

instance (s : Room) : Decidable (OneTemplate s) := by unfold OneTemplate; infer_instance

/-! ## Runs without a race -/

/-- A start is under way: it read the template of the channel, or is to read it without a look at
the roster, and its session is not stored. -/
def Place.underway : Place → Bool
  | .rooted _ | .checking _ _ | .listing _ _ | .cleared _ _ | .creating _ | .orphan _ _ => true
  | _ => false

/-- The session of a thread is live, or is being created for somebody who has no live one. -/
def Room.serves (s : Room) (t : Entry) : Bool :=
  match t.session with
  | some id => (s.rows[id]?.map Row.status).any (· ≠ .ended)
  | none => s.handlers.any fun
    | .creating t' => t' = t ∧ s.liveOf t.owner = none
    | .created t' id => t' = t ∧ (s.rows[id]?.map Row.status).any (· ≠ .ended)
    | _ => false

/-- The channel is not bound to another template while a start is under way; a roster that is read
from the registry has threads of other people with live sessions only; and a mention outside of the
thread comes before the sessions of other people. -/
def orderly (s : Room) : Label → Bool
  | .rebind _ => s.handlers.all fun p => !p.underway
  | .act h .roster =>
    match s.handlers[h]? with
    | some (.checking u _) => s.threads.all fun t => t.owner ≠ u ∧ s.serves t
    | _ => true
  | .mention u threaded =>
    match s.mention u threaded with
    | some (.rooted _) => s.rows.all fun r => r.status = .ended ∨ r.owner = u
    | _ => true
  | _ => true

/-! ## What a start knows -/

/-- The template that a start has read. -/
def Place.template : Place → Option String
  | .checking _ w | .listing _ w | .cleared _ w | .orphan _ w => some w
  | .creating t => some t.workflow
  | _ => none

/-- The person of a start that may create its session without another look at the roster. -/
def Place.starter : Place → Option ℕ
  | .rooted u | .cleared u _ | .orphan u _ => some u
  | .creating t => some t.owner
  | _ => none

/-- The thread of a session that was stored, and its row. -/
def Place.stored : Place → Option (Entry × ℕ)
  | .created t id => some (t, id)
  | _ => none

/-- The live sessions of the others run the template of the channel. -/
def OthersBound (s : Room) (u : ℕ) : Prop :=
  ∀ r ∈ s.rows, r.status ≠ .ended → r.owner ≠ u → r.template = s.bound

/-- A session runs a template. -/
def Runs (s : Room) (id : ℕ) (w : String) : Prop := s.rows[id]?.map Row.template = some w

/-- What holds of a handler. -/
structure Fine (s : Room) (p : Place) : Prop where
  read : ∀ w, p.template = some w → w = s.bound ∧ w ≠ ""
  past : ∀ u, p.starter = some u → OthersBound s u
  made : ∀ t id, p.stored = some (t, id) → Runs s id t.workflow

/-- What holds of the thread. -/
structure Inv (s : Room) : Prop where
  one : OneTemplate s
  named : ∀ r ∈ s.rows, r.template ≠ ""
  fine : ∀ p ∈ s.handlers, Fine s p
  held : ∀ t ∈ s.threads, ∀ id, t.session = some id → Runs s id t.workflow

theorem Inv.init (bound : String) : Inv { bound := bound } := by
  refine ⟨?_, ?_, ?_, ?_⟩
  · intro a ha
    cases ha
  all_goals
    intro x hx
    cases hx

/-- A handler that has read no template and starts nothing. -/
theorem Fine.of_idle (htemplate : p.template = none) (hstarter : p.starter = none)
    (hstored : p.stored = none) : Fine s p := by
  refine ⟨?_, ?_, ?_⟩
  · intro w hw
    rw [htemplate] at hw
    cases hw
  · intro u hu
    rw [hstarter] at hu
    cases hu
  · intro t id ht
    rw [hstored] at ht
    cases ht

/-- A handler that has read a template and did not store a session. -/
theorem Fine.of_read (htemplate : p.template = some w) (hread : w = s.bound ∧ w ≠ "")
    (hpast : ∀ u, p.starter = some u → OthersBound s u) (hstored : p.stored = none) : Fine s p := by
  refine ⟨?_, hpast, ?_⟩
  · intro w' hw
    rw [htemplate] at hw
    obtain rfl := Option.some.inj hw
    exact hread
  · intro t id ht
    rw [hstored] at ht
    cases ht

/-! ## Steps that create nothing -/

/-- The live sessions of `t` are live in `s`, and no session has another template. -/
structure Quiet (s t : Room) : Prop where
  bound : t.bound = s.bound
  live : ∀ r ∈ t.rows, ∃ r' ∈ s.rows, r'.owner = r.owner ∧ r'.template = r.template ∧
    (r.status ≠ .ended → r'.status ≠ .ended)
  runs : ∀ id w, Runs s id w → Runs t id w

/-- The status of a session is written, which is no way for an ended one to become live. -/
theorem Quiet.mark {id : ℕ} {status : Status}
    (h : status = .ended ∨ ∃ r, s.rows[id]? = some r ∧ r.status ≠ .ended) :
    Quiet s (s.mark id status) where
  bound := rfl
  live r hr := by
    obtain ⟨j, hj⟩ := List.getElem?_of_mem hr
    rw [show (s.mark id status).rows[j]? = _ from List.getElem?_modify .., Option.map_eq_map,
      Option.map_eq_some_iff] at hj
    obtain ⟨r', hr', rfl⟩ := hj
    refine ⟨r', List.mem_of_getElem? hr', ?_⟩
    by_cases hid : id = j
    · rw [if_pos hid]
      refine ⟨rfl, rfl, ?_⟩
      intro hlive
      rcases h with h | ⟨r'', hr'', hstatus⟩
      · exact absurd h hlive
      · rw [hid, hr'] at hr''
        obtain rfl := Option.some.inj hr''
        exact hstatus
    · rw [if_neg hid]
      exact ⟨rfl, rfl, fun hlive => hlive⟩
  runs j w hw := by
    show ((s.rows.modify id _)[j]?).map Row.template = some w
    rw [List.getElem?_modify, Option.map_eq_map, Option.map_map]
    rw [← show s.rows[j]?.map Row.template = some w from hw]
    congr 1
    funext r
    by_cases hid : id = j
    · simp only [Function.comp, if_pos hid]
    · simp only [Function.comp, if_neg hid]

theorem Fine.quiet (h : Fine s p) (hq : Quiet s t) : Fine t p where
  read w hw := by
    rw [hq.bound]
    exact h.read w hw
  past u hu := by
    intro r hr hlive hne
    obtain ⟨r', hr', howner, htemplate, hlive'⟩ := hq.live r hr
    rw [hq.bound, ← htemplate]
    apply h.past u hu r' hr' (hlive' hlive)
    rw [howner]
    exact hne
  made e id he := hq.runs id e.workflow (h.made e id he)

theorem Inv.quiet (h : Inv s) (hq : Quiet s t) (hh : ∀ p ∈ t.handlers, p ∈ s.handlers)
    (ht : ∀ e ∈ t.threads, e ∈ s.threads) : Inv t where
  one a ha b hb hla hlb := by
    obtain ⟨a', ha', -, hta, hla'⟩ := hq.live a ha
    obtain ⟨b', hb', -, htb, hlb'⟩ := hq.live b hb
    rw [← hta, ← htb]
    exact h.one a' ha' b' hb' (hla' hla) (hlb' hlb)
  named r hr := by
    obtain ⟨r', hr', -, htemplate, -⟩ := hq.live r hr
    rw [← htemplate]
    exact h.named r' hr'
  fine p hp := (h.fine p (hh p hp)).quiet hq
  held e he id hid := hq.runs id e.workflow (h.held e (ht e he) id hid)

/-- Only the registry or the handlers change. -/
theorem Quiet.of_eq (hbound : t.bound = s.bound) (hrows : t.rows = s.rows) : Quiet s t where
  bound := hbound
  live r hr := ⟨r, by rwa [← hrows], rfl, rfl, fun h => h⟩
  runs id w hw := by
    show t.rows[id]?.map Row.template = some w
    rw [hrows]
    exact hw

theorem Inv.unregister (h : Inv s) (t : Entry) : Inv (s.unregister t) :=
  h.quiet (.of_eq rfl rfl) (fun _ hp => hp) fun _ he => List.mem_of_mem_filter he

theorem Inv.register (h : Inv s) {t : Entry}
    (ht : ∀ id, t.session = some id → Runs s id t.workflow) : Inv (s.register t) where
  one := h.one
  named := h.named
  fine p hp := (h.fine p hp).quiet (.of_eq rfl rfl)
  held e he id hid := by
    rcases List.mem_append.mp he with he | he
    · exact h.held e he id hid
    · obtain rfl := List.mem_singleton.mp he
      exact ht id hid

/-! ## The roster -/

theorem retemplated_eq_none {roommates : List String} {template : String}
    (h : retemplated roommates template = none) (hw : w ∈ roommates) (hne : w ≠ "") :
    w = template := by
  have hall := List.find?_eq_none.mp h w hw
  by_contra hother
  exact hall (by simp [hne, hother])

/-- A start that a roster admits. -/
theorem Fine.admitted {roommates : List String} {template : String}
    (hread : template = s.bound ∧ template ≠ "")
    (hothers : retemplated roommates template = none → OthersBound s u) :
    Fine s (Roster.admitted roommates u template) := by
  unfold Roster.admitted
  split
  · exact Fine.of_idle rfl rfl rfl
  · rename_i hnone
    refine Fine.of_read rfl hread ?_ rfl
    intro u' hu
    obtain rfl := Option.some.inj hu
    exact hothers hnone

theorem othersBound_of_listedRoster (h : Inv s) {template : String} (hread : template = s.bound)
    (hnone : retemplated (s.listedRoster u) template = none) : OthersBound s u := by
  intro r hr hlive hne
  have hmem : r.template ∈ s.listedRoster u := by
    apply List.mem_map_of_mem
    rw [List.mem_filter]
    exact ⟨hr, by simp [hlive, hne]⟩
  rw [← hread]
  exact retemplated_eq_none hnone hmem (h.named r hr)

/-- Nobody has a live session. -/
theorem ne_owner_of_liveOf (h : s.liveOf u = none) (hr : r ∈ s.rows) (hlive : r.status ≠ .ended) :
    r.owner ≠ u := by
  have hnot := List.find?_eq_none.mp h r hr
  intro howner
  exact hnot (by simp [howner, hlive])

/-- A live session that runs the template of the channel speaks for all of them. -/
theorem Inv.allBound (h : Inv s) {id : ℕ} (hruns : Runs s id w)
    (hlive : (s.rows[id]?.map Row.status).any (· ≠ .ended) = true) (hw : w ≠ "" → w = s.bound)
    (hr : r ∈ s.rows) (hrlive : r.status ≠ .ended) : r.template = s.bound := by
  obtain ⟨r', hr', rfl⟩ := Option.map_eq_some_iff.mp hruns
  have hmem := List.mem_of_getElem? hr'
  rw [hr'] at hlive
  rw [← hw (h.named r' hmem)]
  exact h.one r hr r' hmem hrlive (by simpa using hlive)

/-- So does a thread of the registry whose session is live or is being created. -/
theorem Inv.allBound_of_serves (h : Inv s) {t : Entry} (ht : t ∈ s.threads)
    (hserves : s.serves t = true) (hw : t.workflow ≠ "" → t.workflow = s.bound) (hr : r ∈ s.rows)
    (hrlive : r.status ≠ .ended) : r.template = s.bound := by
  unfold Room.serves at hserves
  split at hserves
  · rename_i id hid
    exact h.allBound (h.held t ht id hid) hserves hw hr hrlive
  · obtain ⟨p, hp, hserves⟩ := List.any_eq_true.mp hserves
    split at hserves
    · -- the start itself passed its roster, and its person has no session beside it
      rename_i t'
      obtain ⟨rfl, hnone⟩ : t' = t ∧ s.liveOf t.owner = none := by simpa using hserves
      exact (h.fine _ hp).past _ rfl r hr hrlive (ne_owner_of_liveOf hnone hr hrlive)
    · rename_i t' id
      rw [decide_eq_true_eq] at hserves
      obtain ⟨rfl, hlive⟩ := hserves
      exact h.allBound ((h.fine _ hp).made _ _ rfl) hlive hw hr hrlive
    · cases hserves

theorem othersBound_of_heldRoster (h : Inv s) {template : String} (hread : template = s.bound)
    (hne : s.threads ≠ []) (hall : ∀ t ∈ s.threads, t.owner ≠ u ∧ s.serves t = true)
    (hnone : retemplated (s.heldRoster u) template = none) : OthersBound s u := by
  obtain ⟨t, ht⟩ := List.exists_mem_of_ne_nil _ hne
  obtain ⟨howner, hserves⟩ := hall t ht
  have hmem : t.workflow ∈ s.heldRoster u := by
    apply List.mem_map_of_mem
    rw [List.mem_filter]
    exact ⟨ht, by simp [howner]⟩
  intro r hr hlive _
  apply h.allBound_of_serves ht hserves _ hr hlive
  intro hw
  rw [← hread]
  exact retemplated_eq_none hnone hmem hw

/-! ## The new session -/

/-- A start stores its session. -/
theorem Inv.create (h : Inv s) (hread : w = s.bound ∧ w ≠ "") (hothers : OthersBound s u)
    (hnone : s.liveOf u = none) : Inv { s with rows := s.rows ++ [⟨u, w, .live⟩] } := by
  -- all live sessions run the template of the channel, before and after
  have hall : ∀ r ∈ s.rows ++ [⟨u, w, .live⟩], r.status ≠ .ended → r.template = s.bound := by
    intro r hr hlive
    rcases List.mem_append.mp hr with hr | hr
    · exact hothers r hr hlive (ne_owner_of_liveOf hnone hr hlive)
    · rw [List.mem_singleton.mp hr]
      exact hread.1
  have hruns : ∀ id w', Runs s id w' → Runs { s with rows := s.rows ++ [⟨u, w, .live⟩] } id w' := by
    intro id w' hw'
    obtain ⟨r, hr, hw'⟩ := Option.map_eq_some_iff.mp hw'
    show ((s.rows ++ [⟨u, w, .live⟩])[id]?).map Row.template = some w'
    rw [List.getElem?_append_left (List.getElem?_eq_some_iff.mp hr).1, hr, ← hw']
    rfl
  refine ⟨?_, ?_, ?_, ?_⟩
  · intro a ha b hb hla hlb
    rw [hall a ha hla, hall b hb hlb]
  · intro r hr
    rcases List.mem_append.mp hr with hr | hr
    · exact h.named r hr
    · rw [List.mem_singleton.mp hr]
      exact hread.2
  · intro p hp
    have hfine := h.fine p hp
    exact ⟨hfine.read, fun _ _ r hr hlive _ => hall r hr hlive,
      fun t id he => hruns id _ (hfine.made t id he)⟩
  · intro t ht id hid
    exact hruns id _ (h.held t ht id hid)

theorem runs_create (s : Room) (u : ℕ) (w : String) :
    Runs { s with rows := s.rows ++ [⟨u, w, .live⟩] } s.rows.length w := by
  show ((s.rows ++ [⟨u, w, .live⟩])[s.rows.length]?).map Row.template = some w
  rw [List.getElem?_concat_length]
  rfl

/-! ## Every step -/

/-- A start that has read the template of the channel. -/
theorem Fine.resolved {next : String → Place} (htemplate : ∀ w, (next w).template = some w)
    (hstored : ∀ w, (next w).stored = none)
    (hpast : ∀ w u, (next w).starter = some u → OthersBound s u) :
    Fine s (s.templateFor.elim .returned next) := by
  unfold Room.templateFor
  split
  · exact Fine.of_idle rfl rfl rfl
  · rename_i hne
    exact Fine.of_read (htemplate s.bound) ⟨rfl, hne⟩ (hpast s.bound) (hstored s.bound)

/-- One step of a handler that may look at the roster. -/
theorem act_inv {q : Place} {a : Action} (h : Inv s) (hp : Fine s p)
    (hroster : ∀ u w, p = .checking u w → a = .roster →
      ∀ e ∈ s.threads, e.owner ≠ u ∧ s.serves e = true) (hs : act s p a = some (t, q)) :
    t.handlers = s.handlers ∧ Inv t ∧ Fine t q := by
  cases a with
  | getSession =>
    simp only [act] at hs
    split at hs
    · split at hs
      · split at hs <;>
        · obtain ⟨rfl, rfl⟩ := Prod.mk.inj (Option.some.inj hs)
          exact ⟨rfl, h, Fine.of_idle rfl rfl rfl⟩
      · obtain ⟨rfl, rfl⟩ := Prod.mk.inj (Option.some.inj hs)
        exact ⟨rfl, h, Fine.of_idle rfl rfl rfl⟩
    · cases hs
  | adopt =>
    simp only [act] at hs
    split at hs
    · split at hs
      · rename_i e _
        obtain ⟨rfl, rfl⟩ := Prod.mk.inj (Option.some.inj hs)
        refine ⟨rfl, h, ?_⟩
        cases e.session <;> exact Fine.of_idle rfl rfl rfl
      · rename_i u id _ _ r _ hr
        obtain ⟨rfl, rfl⟩ := Prod.mk.inj (Option.some.inj hs)
        refine ⟨rfl, h.register ?_, Fine.of_idle rfl rfl rfl⟩
        intro id' hid
        obtain rfl := Option.some.inj hid
        show s.rows[id]?.map Row.template = some r.template
        rw [hr]
        rfl
      · cases hs
    · cases hs
  | noState =>
    simp only [act] at hs
    split at hs
    · obtain ⟨rfl, rfl⟩ := Prod.mk.inj (Option.some.inj hs)
      exact ⟨rfl, h.quiet (.mark (.inl rfl)) (fun _ hp => hp) (fun _ he => he),
        Fine.of_idle rfl rfl rfl⟩
    · cases hs
  | quit =>
    simp only [act] at hs
    split at hs
    all_goals try cases hs
    all_goals exact ⟨rfl, h, Fine.of_idle rfl rfl rfl⟩
  | startOver =>
    simp only [act] at hs
    split at hs
    · obtain ⟨rfl, rfl⟩ := Prod.mk.inj (Option.some.inj hs)
      exact ⟨rfl, h.quiet (.mark (.inl rfl)) (fun _ hp => hp) (fun _ he => he),
        Fine.of_idle rfl rfl rfl⟩
    · cases hs
  | letGo =>
    simp only [act] at hs
    split at hs
    · obtain ⟨rfl, rfl⟩ := Prod.mk.inj (Option.some.inj hs)
      exact ⟨rfl, h.unregister _, Fine.of_idle rfl rfl rfl⟩
    · cases hs
  | resolve =>
    simp only [act] at hs
    split at hs
    · rename_i u
      obtain ⟨rfl, rfl⟩ := Prod.mk.inj (Option.some.inj hs)
      refine ⟨rfl, h, Fine.resolved (fun _ => rfl) (fun _ => rfl) ?_⟩
      intro w u' hu
      obtain rfl := Option.some.inj hu
      exact hp.past u rfl
    · obtain ⟨rfl, rfl⟩ := Prod.mk.inj (Option.some.inj hs)
      refine ⟨rfl, h, Fine.resolved (fun _ => rfl) (fun _ => rfl) ?_⟩
      intro w u' hu
      cases hu
    · cases hs
  | roster =>
    simp only [act] at hs
    split at hs
    · rename_i u w
      have hread := hp.read w rfl
      split at hs
      · obtain ⟨rfl, rfl⟩ := Prod.mk.inj (Option.some.inj hs)
        refine ⟨rfl, h, Fine.of_read rfl hread ?_ rfl⟩
        intro u' hu
        cases hu
      · rename_i hne
        obtain ⟨rfl, rfl⟩ := Prod.mk.inj (Option.some.inj hs)
        exact ⟨rfl, h, Fine.admitted hread fun hnone =>
          othersBound_of_heldRoster h hread.1 hne (hroster u w rfl rfl) hnone⟩
    · cases hs
  | list =>
    simp only [act] at hs
    split at hs
    · rename_i u w
      have hread := hp.read w rfl
      obtain ⟨rfl, rfl⟩ := Prod.mk.inj (Option.some.inj hs)
      exact ⟨rfl, h, Fine.admitted hread fun hnone => othersBound_of_listedRoster h hread.1 hnone⟩
    · cases hs
  | register =>
    simp only [act] at hs
    split at hs
    · rename_i u w
      split at hs
      · obtain ⟨rfl, rfl⟩ := Prod.mk.inj (Option.some.inj hs)
        exact ⟨rfl, h, Fine.of_idle rfl rfl rfl⟩
      · obtain ⟨rfl, rfl⟩ := Prod.mk.inj (Option.some.inj hs)
        exact ⟨rfl, h.register (by intro id hid; cases hid),
          Fine.of_read rfl (hp.read w rfl) hp.past rfl⟩
    · cases hs
  | create =>
    simp only [act] at hs
    split at hs
    · rename_i t'
      split at hs
      · rename_i hnone
        obtain ⟨rfl, rfl⟩ := Prod.mk.inj (Option.some.inj hs)
        refine ⟨rfl, h.create (hp.read _ rfl) (hp.past _ rfl) hnone, ⟨?_, ?_, ?_⟩⟩
        · intro w hw
          cases hw
        · intro u hu
          cases hu
        · intro e id he
          obtain ⟨rfl, rfl⟩ := Prod.mk.inj (Option.some.inj he)
          exact runs_create s _ _
      · cases hs
    · split at hs
      · rename_i hnone
        obtain ⟨rfl, rfl⟩ := Prod.mk.inj (Option.some.inj hs)
        exact ⟨rfl, h.create (hp.read _ rfl) (hp.past _ rfl) hnone,
          Fine.of_idle rfl rfl rfl⟩
      · cases hs
    · cases hs
  | answer =>
    simp only [act] at hs
    split at hs
    · rename_i t' id
      obtain ⟨rfl, rfl⟩ := Prod.mk.inj (Option.some.inj hs)
      refine ⟨rfl, ⟨h.one, h.named, fun p hp => (h.fine p hp).quiet (.of_eq rfl rfl), ?_⟩,
        Fine.of_idle rfl rfl rfl⟩
      intro e he id' hid
      obtain ⟨e', he', rfl⟩ := List.mem_map.mp he
      by_cases heq : e' = t'
      · rw [if_pos heq] at hid ⊢
        obtain rfl := Option.some.inj hid
        rw [heq]
        exact hp.made t' id rfl
      · rw [if_neg heq] at hid ⊢
        exact h.held e' he' id' hid
    · cases hs
  | fail =>
    simp only [act] at hs
    split at hs
    all_goals try cases hs
    all_goals
      refine ⟨rfl, ?_, Fine.of_idle rfl rfl rfl⟩
      first
        | exact h
        | exact h.unregister _
  | giveUp =>
    simp only [act] at hs
    split at hs
    · obtain ⟨rfl, rfl⟩ := Prod.mk.inj (Option.some.inj hs)
      exact ⟨rfl, h.unregister _, Fine.of_read rfl (hp.read _ rfl) hp.past rfl⟩
    · cases hs

/-- A request that outlives a restart. -/
theorem Fine.restarted (h : Fine s p) : Fine s p.restarted := by
  cases p with
  | creating t => exact Fine.of_read rfl (h.read _ rfl) h.past rfl
  | orphan u w => exact h
  | _ => exact Fine.of_idle rfl rfl rfl

theorem Fine.mention {threaded : Bool} (hs : s.mention u threaded = some p)
    (hok : orderly s (.mention u threaded) = true) : Fine s p := by
  simp only [orderly, hs] at hok
  unfold Room.mention at hs
  split at hs
  · split at hs
    · obtain ⟨id, _, rfl⟩ := Option.map_eq_some_iff.mp hs
      exact Fine.of_idle rfl rfl rfl
    · cases hs
  · split at hs
    · obtain rfl := Option.some.inj hs
      exact Fine.of_idle rfl rfl rfl
    · obtain rfl := Option.some.inj hs
      refine ⟨fun w hw => (by cases hw), ?_, fun t id ht => (by cases ht)⟩
      intro u' hu r hr hlive hne
      obtain rfl := Option.some.inj hu
      have hrow := List.all_eq_true.mp hok r hr
      rw [decide_eq_true_eq] at hrow
      rcases hrow with hended | howner
      · exact absurd hended hlive
      · exact absurd howner hne

/-- A start under way is the only handler that the binding of the channel matters to. -/
theorem Fine.rebind (h : Fine s p) (hp : p.underway = false) (w : String) :
    Fine { s with bound := w } p := by
  cases p with
  | created t id =>
    exact ⟨fun w hw => (by cases hw), fun u hu => (by cases hu), h.made⟩
  | _ =>
    first
      | exact Fine.of_idle rfl rfl rfl
      | cases hp

theorem step_inv {l : Label} (h : Inv s) (hok : orderly s l = true) (hs : step s l = some t) :
    Inv t := by
  cases l with
  | mention u threaded =>
    obtain ⟨p, hp, rfl⟩ := Option.map_eq_some_iff.mp hs
    refine ⟨h.one, h.named, ?_, h.held⟩
    intro q hq
    rcases List.mem_append.mp hq with hq | hq
    · exact (h.fine q hq).quiet (.of_eq rfl rfl)
    · rw [List.mem_singleton.mp hq]
      exact (Fine.mention hp hok).quiet (.of_eq rfl rfl)
  | act n a =>
    simp only [step] at hs
    split at hs
    · rename_i p hget
      obtain ⟨⟨u, q⟩, hact, rfl⟩ := Option.map_eq_some_iff.mp hs
      have hroster : ∀ v w, p = .checking v w → a = .roster →
          ∀ e ∈ s.threads, e.owner ≠ v ∧ s.serves e = true := by
        rintro v w rfl rfl e he
        simp only [orderly, hget] at hok
        have hentry := List.all_eq_true.mp hok e he
        simpa using hentry
      obtain ⟨hhandlers, hinv, hfine⟩ :=
        act_inv h (h.fine p (List.mem_of_getElem? hget)) hroster hact
      refine ⟨hinv.one, hinv.named, ?_, hinv.held⟩
      intro p' hp'
      rcases List.mem_or_eq_of_mem_set hp' with hp' | rfl
      · exact (hinv.fine p' hp').quiet (.of_eq rfl rfl)
      · exact hfine.quiet (.of_eq rfl rfl)
    · cases hs
  | drop reg =>
    simp only [step] at hs
    split at hs
    · split at hs
      · cases hs
      · obtain rfl := Option.some.inj hs
        exact h.unregister _
    · cases hs
  | again id =>
    simp only [step] at hs
    split at hs
    · rename_i r hr
      split at hs
      · obtain rfl := Option.some.inj hs
        apply h.register
        intro id' hid
        obtain rfl := Option.some.inj hid
        show s.rows[id]?.map Row.template = some r.template
        rw [hr]
        rfl
      · cases hs
    · cases hs
  | pause id =>
    simp only [step] at hs
    split at hs
    · rename_i hlive
      obtain rfl := Option.some.inj hs
      obtain ⟨r, hr, hstatus⟩ := Option.map_eq_some_iff.mp hlive
      exact h.quiet (.mark (.inr ⟨r, hr, by rw [hstatus]; decide⟩)) (fun _ hp => hp) fun _ he => he
    · cases hs
  | resume id =>
    simp only [step] at hs
    split at hs
    · rename_i hpaused
      obtain rfl := Option.some.inj hs
      obtain ⟨r, hr, hstatus⟩ := Option.map_eq_some_iff.mp hpaused
      exact h.quiet (.mark (.inr ⟨r, hr, by rw [hstatus]; decide⟩)) (fun _ hp => hp) fun _ he => he
    · cases hs
  | finish id =>
    obtain rfl := Option.some.inj hs
    exact h.quiet (.mark (.inl rfl)) (fun _ hp => hp) fun _ he => he
  | restart =>
    obtain rfl := Option.some.inj hs
    refine ⟨h.one, h.named, ?_, by intro e he; cases he⟩
    intro p hp
    obtain ⟨p', hp', rfl⟩ := List.mem_map.mp hp
    exact (h.fine p' hp').restarted.quiet (.of_eq rfl rfl)
  | rebind w =>
    obtain rfl := Option.some.inj hs
    refine ⟨h.one, h.named, ?_, h.held⟩
    intro p hp
    have hunder := List.all_eq_true.mp hok p hp
    exact (h.fine p hp).rebind (by simpa using hunder) w

/-- In every run without a race, all live sessions of the thread run the same template. -/
theorem thread_runs_one_template {bound : String} {s : Room}
    (h : Reach step (fun s l => orderly s l = true) { bound := bound } s) : OneTemplate s :=
  (h.invariant Inv (Inv.init bound) fun ha hok hs => step_inv ha hok hs).one

/-- A thread whose channel is bound to another template while it has a session, and where somebody
else joins it after a restart of the bot. -/
def refusedJoin : List Label :=
  [.mention 0 false, .act 0 .resolve, .act 0 .register, .act 0 .create, .act 0 .answer, .pause 0,
    .drop 0, .rebind "b", .mention 1 true, .act 1 .getSession, .act 1 .resolve, .act 1 .roster,
    .act 1 .list, .rebind "a", .restart, .mention 2 true, .act 2 .getSession, .act 2 .resolve,
    .act 2 .roster, .act 2 .list, .act 2 .register, .act 2 .create]

theorem thread_runs_one_template_refusedJoin :
    ∃ s, Reach step (fun s l => orderly s l = true) { bound := "a" } s ∧
      s.rows = [⟨0, "a", .paused⟩, ⟨2, "a", .live⟩] ∧ OneTemplate s := by
  have hrun : Reach step (fun s l => orderly s l = true) { bound := "a" } _ :=
    Reach.of_exec_guarded refusedJoin (by decide)
  exact ⟨_, hrun, by decide, thread_runs_one_template hrun⟩

/-- Two joins look at the roster before either of them is in it, and the channel is bound to another
template in between. -/
def racingJoins : List Label :=
  [.mention 0 true, .act 0 .getSession, .act 0 .resolve, .act 0 .roster, .act 0 .list,
    .rebind "b",
    .mention 1 true, .act 1 .getSession, .act 1 .resolve, .act 1 .roster, .act 1 .list,
    .act 0 .register, .act 0 .create, .act 1 .register, .act 1 .create]

theorem joins_mix_templates :
    ∃ s, Reach step (fun _ _ => True) { bound := "a" } s ∧
      s.rows = [⟨0, "a", .live⟩, ⟨1, "b", .live⟩] ∧ ¬ OneTemplate s :=
  ⟨_, Reach.of_exec_getD racingJoins (by decide), by decide, by decide⟩

end AgentOps.Slackbot.Roster
