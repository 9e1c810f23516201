import AgentOps.Lib.Machine
import Mathlib

/-!
# Idempotency keys of prompts

`harnessapi/promptkeys.go` and `ttlmemo.go`, and the part of `Prompt` around them, for all
sessions of the service: a key stands for the turn that the first call with it starts, for a while
after that turn was accepted. The turn itself is started outside the lock of the map, so a claim
is put into the map first and is completed later; what the start gives is the choice of its step.
-/

namespace AgentOps.Service.PromptKeys

open AgentOps.Lib

variable {c i : ℕ}

/-! ## The map -/

/-- The id of a session. `newID` makes it of hex digits. -/
structure SessionID where
  text : String
  noSlash : '/' ∉ text.toList
deriving DecidableEq

/-- What a call asks: a turn of a session, under a key. -/
structure Request where
  session : SessionID
  key : String
deriving DecidableEq

variable {r : Request}

/-- The key of the map. -/
def Request.mapKey (r : Request) : String := r.session.text ++ "/" ++ r.key

/-- `ttlMemo`; times are nanoseconds and the zero time of `nextPrune` is `0`. -/
structure TTLMemo (V : Type) where
  entries : String → Option V := fun _ => none
  nextPrune : ℕ := 0

namespace TTLMemo

variable {V : Type}

/-- `expired`, of the time that `stamp` gives an entry. -/
def expired (ttl : ℕ) (stamp : V → Option ℕ) (now : ℕ) (v : V) : Bool :=
  (stamp v).any fun at_ => ttl < now - at_

/-- `prune`. -/
def prune (m : TTLMemo V) (ttl : ℕ) (stamp : V → Option ℕ) (now : ℕ) : TTLMemo V :=
  if now < m.nextPrune then m
  else { entries := fun k => (m.entries k).filter fun v => !expired ttl stamp now v
         nextPrune := now + ttl }

end TTLMemo

/-- `promptKeyTTL`. -/
def promptKeyTTL : ℕ := 10 * 60 * 10 ^ 9

/-- What `start` returned: the id of the turn, or an error. -/
abbrev Result := Except String String

/-- `promptClaim`; its result is there once the claim was completed. The last two fields are when
it was made, and by which call: no step reads them. -/
structure Claim where
  done : Bool := false
  result : Option Result := none
  /-- `accepted`. -/
  accepted : Option ℕ := none
  began : ℕ := 0
  maker : ℕ := 0
deriving DecidableEq

/-- What a call returned: an error of `Prompt` before it came to the keys, the error of its
context, or a result. -/
inductive Answer
  | refused
  | cancelled
  | result (r : Result)
deriving DecidableEq

/-- Where a call is in `do`, with its claim. -/
inductive Place
  | starting (c : ℕ)
  | completed (c : ℕ)
  | waiting (c : ℕ)
  | returned (c : ℕ) (a : Answer)
deriving DecidableEq

/-- A call of `Prompt` with a key. `rank` is the number of starts for the request when it had
looked the key up, its own included. -/
structure Call where
  request : Request
  place : Place
  rank : ℕ := 0
deriving DecidableEq

variable {call : Call}

/-- The keys and the calls. `starts` are the claims that were made for a request, in order; no
step reads them. -/
structure Keys where
  now : ℕ := 0
  memo : TTLMemo ℕ := {}
  claims : ℕ → Claim := fun _ => {}
  made : ℕ := 0
  calls : ℕ → Option Call := fun _ => none
  starts : Request → List ℕ := fun _ => []

variable {s : Keys}

namespace Keys

def setClaim (s : Keys) (c : ℕ) (f : Claim → Claim) : Keys :=
  { s with claims := Function.update s.claims c (f (s.claims c)) }

def setCall (s : Keys) (i : ℕ) (call : Call) : Keys :=
  { s with calls := Function.update s.calls i (some call) }

/-- The stamp of an entry. -/
def accepted (s : Keys) (c : ℕ) : Option ℕ := (s.claims c).accepted

/-- The claim that a call finds: one that is there and has not expired. -/
def find (s : Keys) (r : Request) : Option ℕ :=
  (s.memo.entries r.mapKey).filter fun c =>
    !TTLMemo.expired promptKeyTTL s.accepted s.now c

/-- The first section of `do`, of call `i`. -/
def look (s : Keys) (i : ℕ) (r : Request) : Keys :=
  let s := { s with memo := s.memo.prune promptKeyTTL s.accepted s.now }
  match s.find r with
  | some c => s.setCall i ⟨r, .waiting c, (s.starts r).length⟩
  | none =>
    let c := s.made
    { s with
      memo := { s.memo with entries := Function.update s.memo.entries r.mapKey (some c) }
      claims := Function.update s.claims c { began := s.now, maker := i }
      made := c + 1
      calls := Function.update s.calls i (some ⟨r, .starting c, (s.starts r).length + 1⟩)
      starts := Function.update s.starts r (s.starts r ++ [c]) }

/-- The section of `do` after `start`, for claim `c`. -/
def complete (s : Keys) (r : Request) (c : ℕ) (result : Result) : Keys :=
  match result with
  | .error _ =>
    { s.setClaim c fun x => { x with result := some result } with
      memo := { s.memo with entries := Function.update s.memo.entries r.mapKey none } }
  | .ok _ => s.setClaim c fun x => { x with result := some result, accepted := some s.now }

end Keys

/-- The steps. -/
inductive Label
  | tick (n : ℕ)
  /-- `Prompt` refuses the call: no such session is live, or the content is empty. -/
  | refuse (i : ℕ) (r : Request)
  | look (i : ℕ) (r : Request)
  /-- `start` returned to call `i`. -/
  | complete (i : ℕ) (result : Result)
  /-- `close(c.done)` and the return. -/
  | close (i : ℕ)
  /-- The select of a call that waits. -/
  | wake (i : ℕ)
  | giveUp (i : ℕ)
deriving DecidableEq

/-- A step of call `i`. -/
def callStep (s : Keys) (i : ℕ) (call : Call) : Label → Option Keys
  | .complete _ result =>
    match call.place with
    | .starting c => some ((s.complete call.request c result).setCall i
        { call with place := .completed c })
    | _ => none
  | .close _ =>
    match call.place with
    | .completed c =>
      (s.claims c).result.map fun result => (s.setClaim c fun x => { x with done := true }).setCall
        i { call with place := .returned c (.result result) }
    | _ => none
  | .wake _ =>
    match call.place with
    | .waiting c =>
      if (s.claims c).done then
        (s.claims c).result.map fun result => s.setCall i
          { call with place := .returned c (.result result) }
      else none
    | _ => none
  | .giveUp _ =>
    match call.place with
    | .waiting c => some (s.setCall i { call with place := .returned c .cancelled })
    | _ => none
  | _ => none

/-- One step. -/
def step (s : Keys) (l : Label) : Option Keys :=
  match l with
  | .tick n => some { s with now := s.now + n }
  | .refuse i r =>
    if s.calls i = none then some (s.setCall i ⟨r, .returned 0 .refused, 0⟩) else none
  | .look i r => if s.calls i = none then some (s.look i r) else none
  | .complete i _ | .close i | .wake i | .giveUp i =>
    (s.calls i).bind fun call => callStep s i call l

/-! ## One turn for a key -/

/-- The start failed. -/
def Claim.failed (c : Claim) : Prop := ∃ e, c.result = some (.error e)

/-- The start was accepted more than the lifetime of a key before the given time. -/
def Claim.lapsed (c : Claim) (now : ℕ) : Prop :=
  ∃ at_, c.accepted = some at_ ∧ at_ + promptKeyTTL < now

/-- What the calls with one key may see. -/
structure OneTurn (s : Keys) (r : Request) : Prop where
  /-- Turns are started one at a time. -/
  single : ∀ i j call call' c d, s.calls i = some call → s.calls j = some call' →
    call.request = r → call'.request = r → call.place = .starting c → call'.place = .starting d →
    i = j
  /-- A start that is not the first comes after one that failed, or that was accepted long ago. -/
  spaced : (s.starts r).IsChain fun c d =>
    (s.claims c).failed ∨ (s.claims c).lapsed (s.claims d).began
  /-- What a call returns is the result of the start that was the latest when it looked. -/
  answered : ∀ i call c result, s.calls i = some call → call.request = r →
    call.place = .returned c (.result result) →
    0 < call.rank ∧ (s.starts r)[call.rank - 1]? = some c ∧ (s.claims c).result = some result

/-- What stands before and behind the first occurrence of an element. -/
theorem append_cons_inj {α : Type} {a : α} {x y u v : List α} (hx : a ∉ x) (hy : a ∉ y)
    (h : x ++ a :: u = y ++ a :: v) : x = y ∧ u = v := by
  have hnil : ∀ {x y u v as : List α}, a ∉ y → y = x ++ as → a :: u = as ++ a :: v →
      x = y ∧ u = v := by
    intro x y u v as hy hxy huv
    cases as with
    | nil =>
      rw [List.append_nil] at hxy
      exact ⟨hxy.symm, (List.cons.inj huv).2⟩
    | cons b as =>
      obtain rfl := (List.cons.inj huv).1
      exact absurd (by rw [hxy]; simp) hy
  obtain ⟨as, hxy, huv⟩ | ⟨as, hxy, huv⟩ := List.append_eq_append_iff.mp h
  · exact hnil hy hxy huv
  · obtain ⟨h1, h2⟩ := hnil hx hxy huv
    exact ⟨h1.symm, h2.symm⟩

/-- Requests are told apart by their keys of the map. -/
theorem Request.mapKey_inj {r' : Request} (h : r.mapKey = r'.mapKey) : r = r' := by
  obtain ⟨⟨a, ha⟩, k⟩ := r
  obtain ⟨⟨b, hb⟩, k'⟩ := r'
  have hl : a.toList ++ '/' :: k.toList = b.toList ++ '/' :: k'.toList := by
    have := congrArg String.toList h
    simpa [mapKey, String.toList_append] using this
  -- the first slash ends the id
  obtain ⟨hid, hkey⟩ := append_cons_inj ha hb hl
  obtain rfl := String.toList_injective hid
  obtain rfl := String.toList_injective hkey
  rfl

/-- The claim that a call has to do with, unless `Prompt` refused it. -/
def Place.claim : Place → Option ℕ
  | .starting c | .completed c | .waiting c | .returned c .cancelled | .returned c (.result _) =>
    some c
  | .returned _ .refused => none

/-- What ties the map, the claims and the calls to the starts. -/
structure Lined (s : Keys) : Prop where
  old : ∀ r, ∀ c ∈ s.starts r, c < s.made
  apart : ∀ r r' c, c ∈ s.starts r → c ∈ s.starts r' → r = r'
  /-- A claim in the map is the latest of its request, and has not failed. -/
  entry : ∀ k c, s.memo.entries k = some c → ∃ r : Request, k = r.mapKey ∧
    (s.starts r).getLast? = some c ∧ ¬ (s.claims c).failed
  /-- The latest claim of a request is in the map, or it failed or lapsed. -/
  held : ∀ r c, (s.starts r).getLast? = some c → s.memo.entries r.mapKey = some c ∨
    (s.claims c).failed ∨ (s.claims c).lapsed s.now
  spaced : ∀ r, (s.starts r).IsChain fun c d =>
    (s.claims c).failed ∨ (s.claims c).lapsed (s.claims d).began
  accepted : ∀ c at_, (s.claims c).accepted = some at_ → (s.claims c).result ≠ none
  ranked : ∀ i call c, s.calls i = some call → call.place.claim = some c →
    0 < call.rank ∧ (s.starts call.request)[call.rank - 1]? = some c
  /-- A call that starts a turn has the latest claim of its request to itself. -/
  starting : ∀ i call c, s.calls i = some call → call.place = .starting c →
    (s.starts call.request).getLast? = some c ∧ (s.claims c).result = none ∧ (s.claims c).maker = i
  returned : ∀ i call c result, s.calls i = some call → call.place = .returned c (.result result) →
    (s.claims c).result = some result

theorem Lined.init : Lined {} where
  old := by intro r c h; cases h
  apart := by intro r r' c h; cases h
  entry := by intro k c h; cases h
  held := by intro r c h; cases h
  spaced := by intro r; exact .nil
  accepted := by intro c at_ h; cases h
  ranked := by intro i call c h; cases h
  starting := by intro i call c h; cases h
  returned := by intro i call c result h; cases h

theorem Lined.oneTurn (h : Lined s) (r : Request) : OneTurn s r where
  single := by
    rintro i j call call' c d hi hj rfl hr hc hd
    obtain ⟨hlast, -, hmaker⟩ := h.starting i call c hi hc
    obtain ⟨hlast', -, hmaker'⟩ := h.starting j call' d hj hd
    rw [hr, hlast] at hlast'
    cases hlast'
    exact hmaker.symm.trans hmaker'
  spaced := h.spaced r
  answered := by
    rintro i call c result hi rfl hp
    obtain ⟨hpos, hrank⟩ := h.ranked i call c hi (by rw [hp]; rfl)
    exact ⟨hpos, hrank, h.returned i call c result hi hp⟩

/-! ### The steps keep it -/

theorem Claim.lapsed_mono {c : Claim} {now now' : ℕ} (h : c.lapsed now) (hle : now ≤ now') :
    c.lapsed now' := by
  obtain ⟨at_, hat, hlt⟩ := h
  exact ⟨at_, hat, by omega⟩

theorem expired_iff :
    TTLMemo.expired promptKeyTTL s.accepted s.now c = true ↔ (s.claims c).lapsed s.now := by
  unfold TTLMemo.expired Keys.accepted Claim.lapsed
  rw [Option.any_eq_true]
  constructor
  · rintro ⟨at_, hat, hlt⟩
    exact ⟨at_, hat, by simp only [decide_eq_true_eq] at hlt; omega⟩
  · rintro ⟨at_, hat, hlt⟩
    exact ⟨at_, hat, by simp only [decide_eq_true_eq]; omega⟩

theorem Lined.tick (h : Lined s) (n : ℕ) : Lined { s with now := s.now + n } where
  old := h.old
  apart := h.apart
  entry := h.entry
  held := by
    intro r c hc
    obtain hin | hfailed | hlapsed := h.held r c hc
    · exact .inl hin
    · exact .inr (.inl hfailed)
    · exact .inr (.inr (Claim.lapsed_mono hlapsed (Nat.le_add_right _ _)))
  spaced := h.spaced
  accepted := h.accepted
  ranked := h.ranked
  starting := h.starting
  returned := h.returned

/-- Pruning takes lapsed claims only. -/
theorem prune_entries (s : Keys) (k : String) (c : ℕ) :
    (s.memo.prune promptKeyTTL s.accepted s.now).entries k = some c →
      s.memo.entries k = some c := by
  unfold TTLMemo.prune
  split
  · exact id
  · intro h
    exact (Option.filter_eq_some_iff.mp h).1

theorem Lined.prune (h : Lined s) :
    Lined { s with memo := s.memo.prune promptKeyTTL s.accepted s.now } where
  old := h.old
  apart := h.apart
  entry := fun k c hc => h.entry k c (prune_entries s k c hc)
  held := by
    intro r c hc
    obtain hin | hother := h.held r c hc
    · show (s.memo.prune promptKeyTTL s.accepted s.now).entries r.mapKey = some c ∨ _
      unfold TTLMemo.prune
      split
      · exact .inl hin
      · by_cases hexp : TTLMemo.expired promptKeyTTL s.accepted s.now c = true
        · exact .inr (.inr (expired_iff.mp hexp))
        · left
          rw [Option.filter_eq_some_iff]
          exact ⟨hin, by simpa using hexp⟩
    · exact .inr hother
  spaced := h.spaced
  accepted := h.accepted
  ranked := h.ranked
  starting := h.starting
  returned := h.returned

/-- A call that is new, or that moves on with the claim it has, and starts nothing. -/
theorem Lined.setCall (h : Lined s) (hstart : ∀ c, call.place ≠ .starting c)
    (hrank : ∀ c, call.place.claim = some c →
      0 < call.rank ∧ (s.starts call.request)[call.rank - 1]? = some c)
    (hret : ∀ c result, call.place = .returned c (.result result) →
      (s.claims c).result = some result) : Lined (s.setCall i call) := by
  have hcalls : ∀ j call', (s.setCall i call).calls j = some call' →
      call' = call ∨ s.calls j = some call' :=
    fun j call' hj => (update_eq_some hj).imp And.right And.right
  refine ⟨h.old, h.apart, h.entry, h.held, h.spaced, h.accepted, fun j call' c hj hc => ?_,
    fun j call' c hj hc => ?_, fun j call' c result hj hc => ?_⟩
  · obtain rfl | hj := hcalls j call' hj
    · exact hrank c hc
    · exact h.ranked j call' c hj hc
  · obtain rfl | hj := hcalls j call' hj
    · exact absurd hc (hstart c)
    · exact h.starting j call' c hj hc
  · obtain rfl | hj := hcalls j call' hj
    · exact hret c result hc
    · exact h.returned j call' c result hj hc

/-- The latest start of a request that is not found has failed or lapsed. -/
theorem Lined.gone (h : Lined s) (hfind : s.find r = none) (hc : (s.starts r).getLast? = some c) :
    (s.claims c).failed ∨ (s.claims c).lapsed s.now := by
  obtain hin | hover := h.held r c hc
  · right
    apply expired_iff.mp
    unfold Keys.find at hfind
    rw [hin] at hfind
    simpa using hfind
  · exact hover

/-- A call finds nothing and starts a turn. -/
theorem Lined.begin (h : Lined s) (hnew : s.calls i = none) (hfind : s.find r = none) :
    Lined { s with
      memo := { s.memo with entries := Function.update s.memo.entries r.mapKey (some s.made) }
      claims := Function.update s.claims s.made { began := s.now, maker := i }
      made := s.made + 1
      calls := Function.update s.calls i (some ⟨r, .starting s.made, (s.starts r).length + 1⟩)
      starts := Function.update s.starts r (s.starts r ++ [s.made]) } := by
  have hclaim : ∀ r', ∀ c ∈ s.starts r',
      Function.update s.claims s.made { began := s.now, maker := i } c = s.claims c := by
    intro r' c hc
    have := h.old r' c hc
    exact Function.update_of_ne (by omega) _ _
  have hlast : ∀ r' c, (Function.update s.starts r (s.starts r ++ [s.made]) r').getLast? = some c →
      r' = r ∧ c = s.made ∨ r' ≠ r ∧ (s.starts r').getLast? = some c := by
    intro r' c hc
    by_cases hr : r' = r
    · rw [hr, Function.update_self, List.getLast?_concat] at hc
      cases hc
      exact .inl ⟨hr, rfl⟩
    · rw [Function.update_of_ne hr] at hc
      exact .inr ⟨hr, hc⟩
  have hrow : ∀ (r' : Request) (n c : ℕ), (s.starts r')[n]? = some c →
      (Function.update s.starts r (s.starts r ++ [s.made]) r')[n]? = some c := by
    intro r' n c hn
    by_cases hr : r' = r
    · rw [hr, Function.update_self]
      rw [hr] at hn
      have hlt := (List.getElem?_eq_some_iff.mp hn).1
      rwa [List.getElem?_append_left hlt]
    · rwa [Function.update_of_ne hr]
  have hmem : ∀ r' c, c ∈ Function.update s.starts r (s.starts r ++ [s.made]) r' →
      r' = r ∧ c = s.made ∨ c ∈ s.starts r' := by
    intro r' c hc
    by_cases hr : r' = r
    · rw [hr, Function.update_self, List.mem_append, List.mem_singleton] at hc
      obtain hc | hc := hc
      · exact .inr (hr ▸ hc)
      · exact .inl ⟨hr, hc⟩
    · rw [Function.update_of_ne hr] at hc
      exact .inr hc
  refine ⟨fun r' c hc => ?_, fun r' r'' c hc hc' => ?_, fun k c hc => ?_, fun r' c hc => ?_,
    fun r' => ?_, fun c at_ hc => ?_, fun j call c hj hc => ?_, fun j call c hj hc => ?_,
    fun j call c result hj hc => ?_⟩
  · show c < s.made + 1
    obtain ⟨-, rfl⟩ | hc := hmem r' c hc
    · exact Nat.lt_succ_self _
    · exact Nat.lt_succ_of_lt (h.old r' c hc)
  · obtain ⟨hr', hcm⟩ | hin := hmem r' c hc
    · obtain ⟨hr'', -⟩ | hin' := hmem r'' c hc'
      · rw [hr', hr'']
      · exact absurd (h.old r'' c hin') (by omega)
    · obtain ⟨-, hcm⟩ | hin' := hmem r'' c hc'
      · exact absurd (h.old r' c hin) (by omega)
      · exact h.apart r' r'' c hin hin'
  · by_cases hk : k = r.mapKey
    · simp only [hk, Function.update_self, Option.some.injEq] at hc
      subst hc
      refine ⟨r, hk, ?_, ?_⟩
      · simp only [Function.update_self, List.getLast?_concat]
      · simp only [Function.update_self]
        rintro ⟨e, he⟩
        cases he
    · simp only [Function.update_of_ne hk] at hc
      obtain ⟨r', rfl, hlast', hfailed⟩ := h.entry k c hc
      have hr : r' ≠ r := fun hr => hk (congrArg _ hr)
      refine ⟨r', rfl, ?_, ?_⟩
      · simp only [Function.update_of_ne hr]
        exact hlast'
      · simp only [hclaim r' c (List.mem_of_getLast? hlast')]
        exact hfailed
  · obtain ⟨rfl, rfl⟩ | ⟨hr, hc⟩ := hlast r' c hc
    · left
      simp only [Function.update_self]
    · have hmem := List.mem_of_getLast? hc
      have hk : r'.mapKey ≠ r.mapKey := fun hk => hr (Request.mapKey_inj hk)
      simp only [Function.update_of_ne hk, hclaim r' c hmem]
      exact h.held r' c hc
  · have hold : (s.starts r').IsChain fun c d =>
        (Function.update s.claims s.made { began := s.now, maker := i } c).failed ∨
          (Function.update s.claims s.made { began := s.now, maker := i } c).lapsed
            (Function.update s.claims s.made { began := s.now, maker := i } d).began := by
      refine (h.spaced r').imp_of_mem_imp fun c d hc hd hcd => ?_
      rw [hclaim r' c hc, hclaim r' d hd]
      exact hcd
    by_cases hr : r' = r
    · subst hr
      simp only [Function.update_self]
      refine hold.append (.singleton _) fun c hc d hd => ?_
      obtain rfl : s.made = d := by simpa using hd
      rw [hclaim r' c (List.mem_of_getLast? hc), Function.update_self]
      exact h.gone hfind hc
    · simp only [Function.update_of_ne hr]
      exact hold
  · by_cases hm : c = s.made
    · simp only [hm, Function.update_self] at hc
      cases hc
    · simp only [Function.update_of_ne hm] at hc ⊢
      exact h.accepted c at_ hc
  · obtain ⟨rfl, rfl⟩ | ⟨-, hj⟩ := update_eq_some hj
    · cases hc
      refine ⟨Nat.succ_pos _, ?_⟩
      simp
    · obtain ⟨hpos, hrank⟩ := h.ranked j call c hj hc
      exact ⟨hpos, hrow _ _ _ hrank⟩
  · obtain ⟨rfl, rfl⟩ | ⟨-, hj⟩ := update_eq_some hj
    · cases hc
      refine ⟨?_, ?_, ?_⟩
      · simp only [Function.update_self, List.getLast?_concat]
      · simp only [Function.update_self]
      · simp only [Function.update_self]
    · -- its claim is in the map, so the new call would have found it
      obtain ⟨hlast', hresult, hmaker⟩ := h.starting j call c hj hc
      have hr : call.request ≠ r := by
        rintro rfl
        obtain ⟨e, he⟩ | ⟨at_, hat, -⟩ := h.gone hfind hlast'
        · rw [hresult] at he
          cases he
        · exact h.accepted c at_ hat hresult
      simp only [Function.update_of_ne hr, hclaim _ c (List.mem_of_getLast? hlast')]
      exact ⟨hlast', hresult, hmaker⟩
  · obtain ⟨rfl, rfl⟩ | ⟨-, hj⟩ := update_eq_some hj
    · cases hc
    · obtain ⟨-, hrank⟩ := h.ranked j call c hj (by rw [hc]; rfl)
      simp only [hclaim _ c (List.mem_of_getElem? hrank)]
      exact h.returned j call c result hj hc

theorem Lined.look (h : Lined s) (hnew : s.calls i = none) (r : Request) : Lined (s.look i r) := by
  have hp := h.prune
  unfold Keys.look
  simp only
  split
  · rename_i c hc
    refine hp.setCall (by simp) (fun d hd => ?_) (by simp)
    cases hd
    obtain ⟨hentry, -⟩ := Option.filter_eq_some_iff.mp hc
    obtain ⟨r', hk, hlast, -⟩ := hp.entry _ _ hentry
    obtain rfl := Request.mapKey_inj hk
    rw [List.getLast?_eq_getElem?] at hlast
    exact ⟨List.length_pos_of_mem (List.mem_of_getElem? hlast), hlast⟩
  · rename_i hnone
    exact hp.begin hnew hnone

/-- The claim of a call that starts a turn gets its result: it stays in the map, or it failed. -/
theorem Lined.finish (h : Lined s) (hi : s.calls i = some call) (hc : call.place = .starting c)
    {x : Claim} (hx : x.result ≠ none) (hbegan : x.began = (s.claims c).began)
    {entries : String → Option ℕ}
    (hothers : ∀ k, k ≠ call.request.mapKey → entries k = s.memo.entries k)
    (hown : x.failed ∧ entries call.request.mapKey = none ∨
      ¬ x.failed ∧ entries call.request.mapKey = s.memo.entries call.request.mapKey) :
    Lined { s with
      memo := { s.memo with entries }
      claims := Function.update s.claims c x
      calls := Function.update s.calls i (some { call with place := .completed c }) } := by
  obtain ⟨hlast, hnone, hmaker⟩ := h.starting i call c hi hc
  have hopen : ∀ {now}, ¬ ((s.claims c).failed ∨ (s.claims c).lapsed now) := by
    rintro now (⟨e, he⟩ | ⟨at_, hat, -⟩)
    · rw [hnone] at he
      cases he
    · exact h.accepted c at_ hat hnone
  refine ⟨h.old, h.apart, fun k d hd => ?_, fun r d hd => ?_, fun r => ?_, fun d at_ hd => ?_,
    fun j call' d hj hd => ?_, fun j call' d hj hd => ?_, fun j call' d result hj hd => ?_⟩
  · by_cases hk : k = call.request.mapKey
    · subst hk
      obtain ⟨-, hown⟩ | ⟨hok, hown⟩ := hown
      · cases hown.symm.trans hd
      · obtain ⟨r, hr, hlast', -⟩ := h.entry _ d (hown.symm.trans hd)
        obtain rfl := Request.mapKey_inj hr
        rw [hlast] at hlast'
        cases hlast'
        refine ⟨_, rfl, hlast, ?_⟩
        simpa using hok
    · obtain ⟨r, rfl, hlast', hok⟩ := h.entry k d ((hothers k hk).symm.trans hd)
      have hdc : d ≠ c := by
        rintro rfl
        exact hk
          (congrArg _ (h.apart _ _ d (List.mem_of_getLast? hlast') (List.mem_of_getLast? hlast)))
      refine ⟨r, rfl, hlast', ?_⟩
      simp only [Function.update_of_ne hdc]
      exact hok
  · by_cases hr : r = call.request
    · subst hr
      obtain rfl : c = d := Option.some.inj (hlast.symm.trans hd)
      simp only [Function.update_self]
      obtain ⟨hfailed, -⟩ | ⟨-, hown⟩ := hown
      · exact .inr (.inl hfailed)
      · obtain hin | hover := h.held _ c hlast
        · exact .inl (hown.trans hin)
        · exact absurd hover hopen
    · have hdc : d ≠ c := by
        rintro rfl
        exact hr (h.apart _ _ d (List.mem_of_getLast? hd) (List.mem_of_getLast? hlast))
      have hk : r.mapKey ≠ call.request.mapKey := fun hk => hr (Request.mapKey_inj hk)
      simp only [Function.update_of_ne hdc, hothers _ hk]
      exact h.held r d hd
  · refine (h.spaced r).imp_of_mem_imp fun d d' _ _ hdd => ?_
    have hne : d ≠ c := fun heq => hopen (heq ▸ hdd)
    have hb : (Function.update s.claims c x d').began = (s.claims d').began := by
      by_cases hd' : d' = c
      · rw [hd', Function.update_self, hbegan]
      · rw [Function.update_of_ne hd']
    simp only [Function.update_of_ne hne, hb]
    exact hdd
  · by_cases hdc : d = c
    · simp only [hdc, Function.update_self]
      exact hx
    · simp only [Function.update_of_ne hdc] at hd ⊢
      exact h.accepted d at_ hd
  · obtain ⟨rfl, rfl⟩ | ⟨-, hj⟩ := update_eq_some hj
    · cases hd
      exact h.ranked j call c hi (by rw [hc]; rfl)
    · exact h.ranked j call' d hj hd
  · obtain ⟨rfl, rfl⟩ | ⟨hne, hj⟩ := update_eq_some hj
    · cases hd
    · obtain ⟨hlast', hnone', hmaker'⟩ := h.starting j call' d hj hd
      have hdc : d ≠ c := by
        rintro rfl
        exact hne (hmaker'.symm.trans hmaker)
      simp only [Function.update_of_ne hdc]
      exact ⟨hlast', hnone', hmaker'⟩
  · obtain ⟨rfl, rfl⟩ | ⟨-, hj⟩ := update_eq_some hj
    · cases hd
    · have hres := h.returned j call' d result hj hd
      have hdc : d ≠ c := by
        rintro rfl
        rw [hnone] at hres
        cases hres
      simp only [Function.update_of_ne hdc]
      exact hres

theorem Lined.complete (h : Lined s) (hi : s.calls i = some call) (hc : call.place = .starting c)
    (result : Result) :
    Lined ((s.complete call.request c result).setCall i { call with place := .completed c }) := by
  cases result with
  | error e =>
    refine h.finish (x := { s.claims c with result := some (.error e) }) hi hc (by simp) rfl
      (fun k hk => Function.update_of_ne hk _ _) (.inl ⟨⟨e, rfl⟩, Function.update_self ..⟩)
  | ok turnID =>
    refine h.finish (x := { s.claims c with
      result := some (.ok turnID), accepted := some s.now }) hi hc (by simp) rfl
      (fun _ _ => rfl) (.inr ⟨?_, rfl⟩)
    rintro ⟨e, he⟩
    cases he

/-- Closing the channel of a claim changes nothing that is recorded about it. -/
theorem Lined.closeDone (h : Lined s) (c : ℕ) :
    Lined (s.setClaim c fun x => { x with done := true }) := by
  have hsame : ∀ d, ((s.setClaim c fun x => { x with done := true }).claims d).result =
      (s.claims d).result ∧ ((s.setClaim c fun x => { x with done := true }).claims d).accepted =
      (s.claims d).accepted ∧ ((s.setClaim c fun x => { x with done := true }).claims d).began =
      (s.claims d).began ∧ ((s.setClaim c fun x => { x with done := true }).claims d).maker =
      (s.claims d).maker := by
    intro d
    show (Function.update s.claims c _ d).result = _ ∧
      (Function.update s.claims c _ d).accepted = _ ∧
      (Function.update s.claims c _ d).began = _ ∧ (Function.update s.claims c _ d).maker = _
    by_cases hd : d = c
    · rw [hd, Function.update_self]
      exact ⟨rfl, rfl, rfl, rfl⟩
    · rw [Function.update_of_ne hd]
      exact ⟨rfl, rfl, rfl, rfl⟩
  have hfailed : ∀ d, ((s.setClaim c fun x => { x with done := true }).claims d).failed ↔
      (s.claims d).failed := by
    intro d
    unfold Claim.failed
    rw [(hsame d).1]
  have hlapsed : ∀ d now, ((s.setClaim c fun x => { x with done := true }).claims d).lapsed now ↔
      (s.claims d).lapsed now := by
    intro d now
    unfold Claim.lapsed
    rw [(hsame d).2.1]
  refine ⟨h.old, h.apart, fun k d hd => ?_, fun r d hd => ?_, fun r => ?_, fun d at_ hd => ?_,
    h.ranked, fun j call d hj hd => ?_, fun j call d result hj hd => ?_⟩
  · rw [hfailed]
    exact h.entry k d hd
  · rw [hfailed, hlapsed]
    exact h.held r d hd
  · refine (h.spaced r).imp fun d d' hdd => ?_
    rw [hfailed, hlapsed, (hsame d').2.2.1]
    exact hdd
  · rw [(hsame d).2.1] at hd
    rw [(hsame d).1]
    exact h.accepted d at_ hd
  · rw [(hsame d).1, (hsame d).2.2.2]
    exact h.starting j call d hj hd
  · rw [(hsame d).1]
    exact h.returned j call d result hj hd

/-- A call returns with the claim that it has. -/
theorem Lined.ret (h : Lined s) (hi : s.calls i = some call) (hc : call.place.claim = some c)
    {a : Answer} (ha : a ≠ .refused)
    (hres : ∀ result, a = .result result → (s.claims c).result = some result) :
    Lined (s.setCall i { call with place := .returned c a }) := by
  refine h.setCall (by simp) (fun d hd => ?_) (fun d result hd => ?_)
  · obtain rfl : c = d := by
      cases a with
      | refused => exact absurd rfl ha
      | cancelled => exact Option.some.inj hd
      | result => exact Option.some.inj hd
    exact h.ranked i call c hi hc
  · cases hd
    exact hres result rfl

theorem Lined.callStep {t : Keys} {l : Label} (h : Lined s) (hi : s.calls i = some call)
    (hs : callStep s i call l = some t) : Lined t := by
  unfold PromptKeys.callStep at hs
  split at hs
  · split at hs
    · rename_i c hc
      cases hs
      exact h.complete hi hc _
    · cases hs
  · split at hs
    · rename_i c hc
      obtain ⟨result, hres, rfl⟩ := Option.map_eq_some_iff.mp hs
      refine (h.closeDone c).ret hi (by rw [hc]; rfl) (by simp) fun result' hr => ?_
      cases hr
      simpa [Keys.setClaim] using hres
    · cases hs
  · split at hs
    · rename_i c hc
      split at hs
      · obtain ⟨result, hres, rfl⟩ := Option.map_eq_some_iff.mp hs
        refine h.ret hi (by rw [hc]; rfl) (by simp) fun result' hr => ?_
        cases hr
        exact hres
      · cases hs
    · cases hs
  · split at hs
    · rename_i c hc
      cases hs
      exact h.ret hi (by rw [hc]; rfl) (by simp) (by simp)
    · cases hs
  · cases hs

theorem Lined.step {t : Keys} {l : Label} (h : Lined s) (hs : step s l = some t) : Lined t := by
  cases l with
  | tick n =>
    cases hs
    exact h.tick n
  | refuse i r =>
    simp only [PromptKeys.step] at hs
    split at hs
    · cases hs
      refine h.setCall (by simp) (fun c hc => ?_) (by simp)
      cases hc
    · cases hs
  | look i r =>
    simp only [PromptKeys.step] at hs
    split at hs
    · rename_i hnew
      cases hs
      exact h.look hnew r
    · cases hs
  | complete i | close i | wake i | giveUp i =>
    obtain ⟨call, hi, hs⟩ := Option.bind_eq_some_iff.mp hs
    exact h.callStep hi hs

/-- In every run of any number of calls, a request has its turns started one at a time; a new
start comes only after the latest one failed or was accepted longer ago than a key lives; and a
call that `Prompt` lets through and that does not give up returns what the start gave that was the
latest when it looked. -/
theorem one_turn {s : Keys} (h : Reach step (fun _ _ => True) {} s) (r : Request) : OneTurn s r :=
  (h.invariant Lined Lined.init fun ha _ hs => ha.step hs).oneTurn r

/-- A call starts a turn, a second one waits for it, and long after that a third one starts
another. -/
def repeatedRun (r : Request) : List Label :=
  [.look 0 r, .look 1 r, .complete 0 (.ok "t1"), .close 0, .wake 1, .tick (promptKeyTTL + 1),
    .look 2 r]

/-- A session and a key. -/
def sampleRequest : Request := ⟨⟨"a1", by decide⟩, "k"⟩

theorem one_turn_repeatedRun :
    ((exec step {} (repeatedRun sampleRequest)).getD {}).starts sampleRequest = [0, 1] ∧
      OneTurn ((exec step {} (repeatedRun sampleRequest)).getD {}) sampleRequest :=
  ⟨by decide, one_turn (Reach.of_exec_getD _ (by decide)) _⟩

end AgentOps.Service.PromptKeys
