import AgentOps.Lib.Machine
import Mathlib.Data.List.Nodup
import Mathlib.Logic.Function.Basic

/-!
# The registry of threads and the rooms

`registerThread`, `unregisterThread` and `flipRoom` of `slackbot/internal/app/app.go`: the bot has
one thread for each person of a Slack thread, and one room for the Slack thread that its threads
share. The two maps are keyed by texts that are put together from identifiers of Slack.
-/

namespace AgentOps.Slackbot.Registry

open AgentOps.Lib

/-! ## The model -/

/-- An identifier or a time stamp of Slack, which are letters, digits and a dot. -/
structure SlackId where
  text : String
  noBar : '|' ∉ text.toList
deriving DecidableEq

/-- A `*thread`: the number stands for its address, the other fields are never changed. -/
structure Thread where
  address : ℕ
  channel : SlackId
  threadTS : SlackId
  teamID : SlackId
  ownerUserID : SlackId
deriving DecidableEq

/-- `roomKey`. -/
def roomKey (channel threadTS : SlackId) : String := channel.text ++ "|" ++ threadTS.text

/-- `threadKey`. -/
def threadKey (channel threadTS teamID userID : SlackId) : String :=
  channel.text ++ "|" ++ threadTS.text ++ "|" ++ teamID.text ++ "|" ++ userID.text

/-- The key under which a thread is registered. -/
def Thread.key (t : Thread) : String := threadKey t.channel t.threadTS t.teamID t.ownerUserID

/-- The key of the room of a thread. -/
def Thread.roomKey (t : Thread) : String := Registry.roomKey t.channel t.threadTS

/-- The maps of `App`, the field `room` of the threads, the flag in their metadata, and the flag of
the rooms. A room is a number, and `made` is the next one. -/
structure App where
  threads : List (String × Thread) := []
  rooms : String → Option ℕ := fun _ => none
  room : Thread → Option ℕ := fun _ => none
  multiplayer : Thread → Bool := fun _ => false
  flipped : ℕ → Bool := fun _ => false
  made : ℕ := 0

namespace App

def lookup (s : App) (key : String) : Option Thread :=
  (s.threads.find? fun e => e.1 = key).map Prod.snd

/-- The threads that are registered for a Slack thread. -/
def participants (s : App) (channel threadTS : SlackId) : List Thread :=
  (s.threads.map Prod.snd).filter fun t => t.channel = channel ∧ t.threadTS = threadTS

/-- `participantsLocked`. -/
def participantsLocked (s : App) (t : Thread) : List Thread :=
  (s.participants t.channel t.threadTS).filter (· ≠ t)

/-- The room with the key, which is made if there is none. -/
def roomOrNew (s : App) (key : String) : ℕ × App :=
  match s.rooms key with
  | some r => (r, s)
  | none => (s.made, { s with
      rooms := Function.update s.rooms key (some s.made)
      flipped := Function.update s.flipped s.made false
      made := s.made + 1 })

/-- `registerThread`. -/
def registerThread (s : App) (t : Thread) : App × Bool × List Thread :=
  if (s.lookup t.key).isSome then (s, false, [])
  else
    let found := s.roomOrNew t.roomKey
    let s := found.2
    let s := { s with
      flipped := if s.multiplayer t then Function.update s.flipped found.1 true else s.flipped
      threads := s.threads ++ [(t.key, t)]
      room := Function.update s.room t (some found.1) }
    (s, true, s.participantsLocked t)

/-- The first half of `unregisterThread`. -/
def dropThread (s : App) (t : Thread) : App :=
  if s.lookup t.key = some t then { s with threads := s.threads.filter fun e => e.1 ≠ t.key } else s

/-- `unregisterThread`. -/
def unregisterThread (s : App) (t : Thread) : App :=
  let s := s.dropThread t
  -- anyParticipantLocked
  if s.participants t.channel t.threadTS = [] then
    { s with rooms := Function.update s.rooms t.roomKey none }
  else s

/-- `markMultiplayer`. -/
def markMultiplayer (s : App) (t : Thread) : App :=
  match s.room t with
  | none => s
  | some r => { s with flipped := Function.update s.flipped r true }

/-- `flipRoom`. -/
def flipRoom (s : App) (t : Thread) (others : List Thread) : App :=
  if others = [] ∨ s.room t = none then s
  else { s.markMultiplayer t with
    multiplayer := fun o => s.multiplayer o || o ∈ others ++ [t] }

end App

/-- The calls; `saveMeta` stands for whatever else writes the metadata of a thread. -/
inductive Call
  | registerThread (t : Thread)
  | unregisterThread (t : Thread)
  | flipRoom (t : Thread) (others : List Thread)
  | markMultiplayer (t : Thread)
  | saveMeta (t : Thread) (multiplayer : Bool)
deriving DecidableEq

def step (s : App) : Call → Option App
  | .registerThread t => some (s.registerThread t).1
  | .unregisterThread t => some (s.unregisterThread t)
  | .flipRoom t others => some (s.flipRoom t others)
  | .markMultiplayer t => some (s.markMultiplayer t)
  | .saveMeta t b => some { s with multiplayer := Function.update s.multiplayer t b }

/-! ## Keys -/

theorem SlackId.ext {a b : SlackId} (h : a.text = b.text) : a = b := by
  cases a
  cases b
  cases h
  rfl

theorem roomKey_inj {c c' ts ts' : SlackId} (h : roomKey c ts = roomKey c' ts') :
    c = c' ∧ ts = ts' := by
  have hlist := congrArg String.toList h
  unfold roomKey at hlist
  have hbar : ("|" : String).toList = ['|'] := rfl
  rw [String.toList_append, String.toList_append, String.toList_append, String.toList_append, hbar,
    List.append_assoc, List.append_assoc, List.singleton_append, List.singleton_append,
    List.append_cons_inj_of_notMem c.noBar ts.noBar] at hlist
  exact ⟨SlackId.ext (String.toList_inj.1 hlist.1), SlackId.ext (String.toList_inj.1 hlist.2.2)⟩

/-! ## The agreement of the maps -/

/-- Each thread is registered under its key, and no key twice; the Slack threads with a room are
those with a thread; and a thread points to the room of its Slack thread. -/
structure Agreed (s : App) : Prop where
  keyed : ∀ e ∈ s.threads, e.1 = e.2.key
  nodup : (s.threads.map Prod.fst).Nodup
  rooms : ∀ c ts, (s.rooms (roomKey c ts)).isSome = true ↔
    ∃ e ∈ s.threads, e.2.channel = c ∧ e.2.threadTS = ts
  same : ∀ e ∈ s.threads, s.room e.2 = s.rooms e.2.roomKey
  made : ∀ key r, s.rooms key = some r → r < s.made

theorem agreed_init : Agreed {} where
  keyed := List.forall_mem_nil _
  nodup := List.nodup_nil
  rooms c ts := iff_of_false Bool.false_ne_true (by rintro ⟨e, he, -⟩; nomatch he)
  same := List.forall_mem_nil _
  made key r h := nomatch h

section

variable {s : App} {t : Thread}

theorem mem_participants {c ts : SlackId} {u : Thread} : u ∈ s.participants c ts ↔
    (∃ e ∈ s.threads, e.2 = u) ∧ u.channel = c ∧ u.threadTS = ts := by
  unfold App.participants
  rw [List.mem_filter, List.mem_map, decide_eq_true_eq]

theorem Agreed.lookup (h : Agreed s) {key : String} :
    s.lookup key = some t ↔ ∃ e ∈ s.threads, e.1 = key ∧ e.2 = t := by
  unfold App.lookup
  constructor
  · intro hl
    obtain ⟨e, he, rfl⟩ := Option.map_eq_some_iff.1 hl
    exact ⟨e, List.mem_of_find?_eq_some he, by simpa using List.find?_some he, rfl⟩
  · rintro ⟨e, he, hkey, rfl⟩
    cases hfind : s.threads.find? fun e => e.1 = key with
    | none =>
      have := List.find?_eq_none.1 hfind e he
      exact absurd (decide_eq_true hkey) this
    | some f =>
      -- no key is there twice
      have hf : f.1 = e.1 := by
        have := List.find?_some hfind
        rw [hkey]
        simpa using this
      have hfe : f = e := List.inj_on_of_nodup_map h.nodup (List.mem_of_find?_eq_some hfind) he hf
      rw [hfe]
      rfl

theorem lookup_eq_none {key : String} : s.lookup key = none ↔ key ∉ s.threads.map Prod.fst := by
  unfold App.lookup
  rw [Option.map_eq_none_iff, List.find?_eq_none, List.mem_map]
  constructor
  · rintro h ⟨e, he, rfl⟩
    exact h e he (decide_eq_true rfl)
  · intro h e he hkey
    exact h ⟨e, he, of_decide_eq_true hkey⟩

/-- What `roomOrNew` does: the room `r` has the key, and everything else is as it was. -/
structure Opened (s : App) (key : String) (r : ℕ) (u : App) : Prop where
  threads : u.threads = s.threads
  room : u.room = s.room
  here : u.rooms key = some r
  others : ∀ key', key' ≠ key → u.rooms key' = s.rooms key'
  kept : ∀ r', s.rooms key = some r' → r = r'
  made : s.made ≤ u.made
  below : (∀ key r, s.rooms key = some r → r < s.made) → r < u.made
  flipped : ∀ r' < s.made, u.flipped r' = s.flipped r'

theorem opened_roomOrNew (s : App) (key : String) :
    Opened s key (s.roomOrNew key).1 (s.roomOrNew key).2 := by
  unfold App.roomOrNew
  split
  · rename_i r hr
    exact ⟨rfl, rfl, hr, fun _ _ => rfl, fun r' hr' => Option.some.inj (hr.symm.trans hr'),
      Nat.le_refl _, fun hmade => hmade key r hr, fun _ _ => rfl⟩
  · rename_i hnone
    refine ⟨rfl, rfl, Function.update_self .., ?_, ?_, Nat.le_succ _, ?_, ?_⟩
    · exact fun key' hne => Function.update_of_ne hne ..
    · intro r hr
      rw [hnone] at hr
      nomatch hr
    · exact fun _ => Nat.lt_succ_self _
    · exact fun r hr => Function.update_of_ne (Nat.ne_of_lt hr) ..

/-- The thread is registered in a room that was opened for it. -/
theorem Agreed.enter (h : Agreed s) (hfree : s.lookup t.key = none) {r : ℕ} {u : App}
    (ho : Opened s t.roomKey r u) (flipped : ℕ → Bool) :
    Agreed { u with
      flipped := flipped
      threads := u.threads ++ [(t.key, t)]
      room := Function.update u.room t (some r) } := by
  have hmem {e : String × Thread} (he : e ∈ u.threads ++ [(t.key, t)]) :
      e ∈ s.threads ∨ e = (t.key, t) := by
    rw [ho.threads, List.mem_append, List.mem_singleton] at he
    exact he
  constructor
  · intro e he
    rcases hmem he with he | rfl
    · exact h.keyed e he
    · rfl
  · show ((u.threads ++ [(t.key, t)]).map Prod.fst).Nodup
    rw [ho.threads, List.map_append, List.map_singleton,
      (List.perm_append_singleton t.key _).nodup_iff, List.nodup_cons]
    exact ⟨lookup_eq_none.1 hfree, h.nodup⟩
  · intro c ts
    show (u.rooms (roomKey c ts)).isSome = true ↔ ∃ e ∈ u.threads ++ [(t.key, t)], _
    rw [ho.threads]
    by_cases hkey : roomKey c ts = t.roomKey
    · obtain ⟨rfl, rfl⟩ := roomKey_inj hkey
      rw [show roomKey t.channel t.threadTS = t.roomKey from rfl, ho.here]
      exact iff_of_true rfl
        ⟨(t.key, t), List.mem_append_right _ (List.mem_singleton_self _), rfl, rfl⟩
    · rw [ho.others _ hkey, h.rooms]
      constructor
      · rintro ⟨e, he, hat⟩
        exact ⟨e, List.mem_append_left _ he, hat⟩
      · rintro ⟨e, he, hc, hts⟩
        rcases List.mem_append.1 he with he | he
        · exact ⟨e, he, hc, hts⟩
        · rw [List.mem_singleton.1 he] at hc hts
          exact absurd (by rw [← hc, ← hts]; rfl) hkey
  · intro e he
    show Function.update u.room t (some r) e.2 = u.rooms e.2.roomKey
    by_cases het : e.2 = t
    · rw [het, Function.update_self, ho.here]
    · rw [Function.update_of_ne het, ho.room]
      have hin : e ∈ s.threads := (hmem he).resolve_right fun heq => het (by rw [heq])
      rw [h.same e hin]
      by_cases hkey : e.2.roomKey = t.roomKey
      · -- the room was there already
        have hsome : (s.rooms e.2.roomKey).isSome = true := (h.rooms _ _).2 ⟨e, hin, rfl, rfl⟩
        obtain ⟨r', hr'⟩ := Option.isSome_iff_exists.1 hsome
        rw [hr', hkey, ho.here, ho.kept r' (hkey ▸ hr')]
      · rw [ho.others _ hkey]
  · intro key r' hr'
    show r' < u.made
    replace hr' : u.rooms key = some r' := hr'
    by_cases hkey : key = t.roomKey
    · rw [hkey, ho.here] at hr'
      rw [← Option.some.inj hr']
      exact ho.below h.made
    · rw [ho.others key hkey] at hr'
      have := h.made key r' hr'
      have := ho.made
      omega

theorem Agreed.registerThread (h : Agreed s) (t : Thread) : Agreed (s.registerThread t).1 := by
  unfold App.registerThread
  split
  · exact h
  · rename_i hfree
    rw [Option.not_isSome_iff_eq_none] at hfree
    exact h.enter hfree (opened_roomOrNew s t.roomKey) _

/-- What is registered after `dropThread`. -/
theorem Agreed.mem_dropThread (h : Agreed s) {e : String × Thread} :
    e ∈ (s.dropThread t).threads ↔ e ∈ s.threads ∧ e.2 ≠ t := by
  unfold App.dropThread
  split
  · rename_i hl
    show e ∈ s.threads.filter _ ↔ _
    rw [List.mem_filter, decide_eq_true_eq]
    refine and_congr_right fun he => not_congr ⟨fun hkey => ?_, fun het => ?_⟩
    · have hcur := h.lookup.2 ⟨e, he, hkey, rfl⟩
      exact Option.some.inj (hcur.symm.trans hl)
    · rw [h.keyed e he, het]
  · rename_i hl
    constructor
    · intro he
      refine ⟨he, fun het => hl ?_⟩
      exact h.lookup.2 ⟨e, he, by rw [h.keyed e he, het], het⟩
    · exact fun he => he.1

theorem dropThread_frame (s : App) (t : Thread) :
    (s.dropThread t).rooms = s.rooms ∧ (s.dropThread t).room = s.room ∧
      (s.dropThread t).made = s.made ∧ (s.dropThread t).flipped = s.flipped ∧
      (s.dropThread t).threads.Sublist s.threads := by
  unfold App.dropThread
  split
  · exact ⟨rfl, rfl, rfl, rfl, List.filter_sublist⟩
  · exact ⟨rfl, rfl, rfl, rfl, .refl _⟩

theorem Agreed.unregisterThread (h : Agreed s) (t : Thread) : Agreed (s.unregisterThread t) := by
  obtain ⟨hrooms, hroom, hmade, -, hsub⟩ := dropThread_frame s t
  have hkeyed : ∀ e ∈ (s.dropThread t).threads, e.1 = e.2.key :=
    fun e he => h.keyed e (hsub.subset he)
  have hnodup : ((s.dropThread t).threads.map Prod.fst).Nodup := h.nodup.sublist (hsub.map _)
  unfold App.unregisterThread
  dsimp only
  split
  · rename_i hempty
    -- the last thread of the Slack thread is gone, and the room with it
    have hnone (e : String × Thread) (he : e ∈ (s.dropThread t).threads) :
        ¬ (e.2.channel = t.channel ∧ e.2.threadTS = t.threadTS) := by
      intro hat
      have := mem_participants.2 ⟨⟨e, he, rfl⟩, hat⟩
      rw [hempty] at this
      nomatch this
    have hne (e : String × Thread) (he : e ∈ (s.dropThread t).threads) :
        e.2.roomKey ≠ t.roomKey := fun hkey => hnone e he (roomKey_inj hkey)
    refine ⟨hkeyed, hnodup, fun c ts => ?_, fun e he => ?_, fun key r hr => ?_⟩
    · show (Function.update (s.dropThread t).rooms t.roomKey none (roomKey c ts)).isSome = true ↔ _
      by_cases hkey : roomKey c ts = t.roomKey
      · rw [hkey, Function.update_self]
        obtain ⟨rfl, rfl⟩ := roomKey_inj hkey
        exact iff_of_false Bool.false_ne_true fun ⟨e, he, hat⟩ => hnone e he hat
      · rw [Function.update_of_ne hkey, hrooms, h.rooms]
        constructor
        · rintro ⟨e, he, rfl, rfl⟩
          exact ⟨e, h.mem_dropThread.2 ⟨he, fun het => hkey (by rw [het]; rfl)⟩, rfl, rfl⟩
        · rintro ⟨e, he, hat⟩
          exact ⟨e, hsub.subset he, hat⟩
    · show (s.dropThread t).room e.2 =
        Function.update (s.dropThread t).rooms t.roomKey none e.2.roomKey
      rw [Function.update_of_ne (hne e he), hroom, hrooms]
      exact h.same e (hsub.subset he)
    · replace hr : Function.update (s.dropThread t).rooms t.roomKey none key = some r := hr
      by_cases hkey : key = t.roomKey
      · rw [hkey, Function.update_self] at hr
        nomatch hr
      · rw [Function.update_of_ne hkey, hrooms] at hr
        show r < (s.dropThread t).made
        rw [hmade]
        exact h.made key r hr
  · rename_i hsome
    refine ⟨hkeyed, hnodup, fun c ts => ?_, fun e he => ?_, fun key r hr => ?_⟩
    · rw [hrooms, h.rooms]
      constructor
      · rintro ⟨e, he, rfl, rfl⟩
        by_cases het : e.2 = t
        · -- another thread is left where the thread was
          obtain ⟨u, hu⟩ := List.exists_mem_of_ne_nil _ hsome
          obtain ⟨⟨f, hf, rfl⟩, hat⟩ := mem_participants.1 hu
          rw [het]
          exact ⟨f, hf, hat⟩
        · exact ⟨e, h.mem_dropThread.2 ⟨he, het⟩, rfl, rfl⟩
      · rintro ⟨e, he, hat⟩
        exact ⟨e, hsub.subset he, hat⟩
    · rw [hroom, hrooms]
      exact h.same e (hsub.subset he)
    · rw [hrooms] at hr
      rw [hmade]
      exact h.made key r hr

/-- Calls that change flags only. -/
theorem Agreed.flags (h : Agreed s) (multiplayer : Thread → Bool) (flipped : ℕ → Bool) :
    Agreed { s with multiplayer := multiplayer, flipped := flipped } :=
  ⟨h.keyed, h.nodup, h.rooms, h.same, h.made⟩

theorem markMultiplayer_eq (s : App) (t : Thread) :
    ∃ flipped, s.markMultiplayer t = { s with flipped := flipped } ∧
      ∀ r, s.flipped r = true → flipped r = true := by
  unfold App.markMultiplayer
  split
  · exact ⟨s.flipped, rfl, fun _ h => h⟩
  · rename_i r _
    refine ⟨_, rfl, fun r' hr' => ?_⟩
    rcases eq_or_ne r' r with rfl | hne
    · exact Function.update_self ..
    · rw [Function.update_of_ne hne]
      exact hr'

theorem flipRoom_eq (s : App) (t : Thread) (others : List Thread) :
    ∃ multiplayer flipped, s.flipRoom t others =
      { s with multiplayer := multiplayer, flipped := flipped } ∧
        ∀ r, s.flipped r = true → flipped r = true := by
  unfold App.flipRoom
  split
  · exact ⟨s.multiplayer, s.flipped, rfl, fun _ h => h⟩
  · obtain ⟨flipped, heq, hflipped⟩ := markMultiplayer_eq s t
    rw [heq]
    exact ⟨_, flipped, rfl, hflipped⟩

end

theorem Agreed.step {s u : App} {c : Call} (h : Agreed s) (hs : step s c = some u) : Agreed u := by
  cases c with
  | registerThread t =>
    obtain rfl := Option.some.inj hs
    exact h.registerThread t
  | unregisterThread t =>
    obtain rfl := Option.some.inj hs
    exact h.unregisterThread t
  | flipRoom t others =>
    obtain rfl := Option.some.inj hs
    obtain ⟨multiplayer, flipped, heq, -⟩ := flipRoom_eq s t others
    rw [heq]
    exact h.flags multiplayer flipped
  | markMultiplayer t =>
    obtain rfl := Option.some.inj hs
    obtain ⟨flipped, heq, -⟩ := markMultiplayer_eq s t
    rw [heq]
    exact h.flags s.multiplayer flipped
  | saveMeta t b =>
    obtain rfl := Option.some.inj hs
    exact h.flags _ s.flipped

/-! ## A flipped room -/

/-- A flipped room is still there and flipped after a call, or it was removed. -/
theorem flipped_step {s u : App} {c : Call} (h : Agreed s) (hs : step s c = some u) {key : String}
    {r : ℕ} (hroom : s.rooms key = some r) (hflipped : s.flipped r = true) :
    u.rooms key = none ∨ u.rooms key = some r ∧ u.flipped r = true := by
  cases c with
  | registerThread t =>
    obtain rfl := Option.some.inj hs
    right
    unfold App.registerThread
    split
    · exact ⟨hroom, hflipped⟩
    · have ho := opened_roomOrNew s t.roomKey
      have hold : (s.roomOrNew t.roomKey).2.flipped r = true :=
        (ho.flipped r (h.made key r hroom)).trans hflipped
      constructor
      · show (s.roomOrNew t.roomKey).2.rooms key = some r
        by_cases hkey : key = t.roomKey
        · rw [hkey, ho.here, ho.kept r (hkey ▸ hroom)]
        · rw [ho.others key hkey, hroom]
      · dsimp only
        split
        · rcases eq_or_ne r (s.roomOrNew t.roomKey).1 with heq | hne
          · rw [← heq]
            exact Function.update_self ..
          · rw [Function.update_of_ne hne]
            exact hold
        · exact hold
  | unregisterThread t =>
    obtain rfl := Option.some.inj hs
    obtain ⟨hrooms, -, -, hflips, -⟩ := dropThread_frame s t
    unfold App.unregisterThread
    dsimp only
    split
    · by_cases hkey : key = t.roomKey
      · left
        rw [hkey]
        exact Function.update_self ..
      · right
        refine ⟨?_, by rw [hflips]; exact hflipped⟩
        show Function.update (s.dropThread t).rooms t.roomKey none key = some r
        rw [Function.update_of_ne hkey, hrooms]
        exact hroom
    · right
      rw [hrooms, hflips]
      exact ⟨hroom, hflipped⟩
  | flipRoom t others =>
    obtain rfl := Option.some.inj hs
    obtain ⟨multiplayer, flipped, heq, hmono⟩ := flipRoom_eq s t others
    rw [heq]
    exact .inr ⟨hroom, hmono r hflipped⟩
  | markMultiplayer t =>
    obtain rfl := Option.some.inj hs
    obtain ⟨flipped, heq, hmono⟩ := markMultiplayer_eq s t
    rw [heq]
    exact .inr ⟨hroom, hmono r hflipped⟩
  | saveMeta t b =>
    obtain rfl := Option.some.inj hs
    exact .inr ⟨hroom, hflipped⟩

/-! ## The registry over whole runs -/

/-- A thread is registered. -/
def App.Registered (s : App) (t : Thread) : Prop := ∃ e ∈ s.threads, e.2 = t

/-- `registerThread` reports the other threads of the Slack thread. -/
theorem mem_others {s : App} {t u : Thread} (hok : (s.registerThread t).2.1 = true) :
    u ∈ (s.registerThread t).2.2 ↔ (s.registerThread t).1.Registered u ∧
      u.channel = t.channel ∧ u.threadTS = t.threadTS ∧ u ≠ t := by
  unfold App.registerThread at hok ⊢
  split
  · rename_i hsome
    rw [if_pos hsome] at hok
    nomatch hok
  · dsimp only
    unfold App.participantsLocked App.Registered
    rw [List.mem_filter, mem_participants, decide_eq_true_eq]
    tauto

/-- In every run of calls: at most one thread is registered for a person of a Slack thread; a
Slack thread has a room exactly if a thread is registered for it, and all its threads point to that
room; `registerThread` reports the other threads; and a flipped room stays flipped until it is
removed. -/
theorem registry_agrees {s : App} (h : Reach step (fun _ _ => True) {} s) :
    (∀ t u, s.Registered t → s.Registered u → t.channel = u.channel → t.threadTS = u.threadTS →
      t.teamID = u.teamID → t.ownerUserID = u.ownerUserID → t = u) ∧
    (∀ c ts, (s.rooms (roomKey c ts)).isSome = true ↔
      ∃ t, s.Registered t ∧ t.channel = c ∧ t.threadTS = ts) ∧
    (∀ t, s.Registered t → s.room t = s.rooms t.roomKey) ∧
    (∀ t, (s.registerThread t).2.1 = true → ∀ u, u ∈ (s.registerThread t).2.2 ↔
      (s.registerThread t).1.Registered u ∧ u.channel = t.channel ∧ u.threadTS = t.threadTS ∧
        u ≠ t) ∧
    ∀ c u, step s c = some u → ∀ key r, s.rooms key = some r → s.flipped r = true →
      u.rooms key = none ∨ u.rooms key = some r ∧ u.flipped r = true := by
  have hinv : Agreed s := h.invariant Agreed agreed_init fun ha _ hs => ha.step hs
  refine ⟨?_, fun c ts => ?_, ?_, fun t hok u => mem_others hok, ?_⟩
  · rintro t u ⟨e, he, rfl⟩ ⟨f, hf, rfl⟩ hc hts hteam huser
    have hkey : e.1 = f.1 := by
      rw [hinv.keyed e he, hinv.keyed f hf]
      unfold Thread.key
      rw [hc, hts, hteam, huser]
    rw [List.inj_on_of_nodup_map hinv.nodup he hf hkey]
  · rw [hinv.rooms]
    constructor
    · rintro ⟨e, he, hat⟩
      exact ⟨e.2, ⟨e, he, rfl⟩, hat⟩
    · rintro ⟨t, ⟨e, he, rfl⟩, hat⟩
      exact ⟨e, he, hat⟩
  · rintro t ⟨e, he, rfl⟩
    exact hinv.same e he
  · intro c u hs key r hroom hflipped
    exact flipped_step hinv hs hroom hflipped

/-- Two people in one Slack thread. -/
def firstThread : Thread :=
  ⟨0, ⟨"C1", by decide⟩, ⟨"1.0", by decide⟩, ⟨"T", by decide⟩, ⟨"U1", by decide⟩⟩

def secondThread : Thread := { firstThread with address := 1, ownerUserID := ⟨"U2", by decide⟩ }

/-- The second person joins, the room is flipped, and the first one starts over: the old thread is
unregistered twice, the second time after its replacement is registered. -/
def startedOver : List Call :=
  [.registerThread firstThread, .registerThread secondThread, .flipRoom secondThread [firstThread],
    .unregisterThread firstThread, .registerThread { firstThread with address := 2 },
    .unregisterThread firstThread]

theorem registry_agrees_startedOver :
    ∃ s, Reach step (fun _ _ => True) {} s ∧ s.threads.length = 2 ∧
      s.rooms firstThread.roomKey = some 0 ∧ s.flipped 0 = true ∧
      s.room secondThread = some 0 := by
  have hrun : Reach step (fun _ _ => True) {} ((exec step {} startedOver).getD {}) :=
    .of_exec_getD startedOver (by decide)
  refine ⟨_, hrun, by decide, by decide, by decide, ?_⟩
  rw [(registry_agrees hrun).2.2.1 secondThread ⟨(secondThread.key, secondThread), by decide, rfl⟩]
  decide

end AgentOps.Slackbot.Registry
