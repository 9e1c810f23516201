import AgentOps.Lib.Paging
import Mathlib.Data.String.Basic

/-!
# Where a restarted bot resumes

`turnStartBefore` of `slackbot/internal/app/status.go`, `consume` and `turnBoundary` of `render.go`,
and `renderMissed` and `watchSuspended` of `sweep.go`, for one session: what they do with the saved
`LastSeq`. A log may grow while it is read, and its pages may have any size.

A turn boundary is a position in the log at which no turn is open that ends later.
-/

namespace AgentOps.Slackbot.Resume

open AgentOps.Lib

/-! ## The model -/

inductive SessionState
  | suspended
  | other
deriving DecidableEq, Repr

inductive Reason
  | reviveFailed
  | other
deriving DecidableEq, Repr

/-- The payloads that are told apart. -/
inductive Payload
  | stateChanged (new : SessionState) (reason : Reason)
  | turnCompleted
  | turnFailed
  | suspended
  | sessionEnded
  | other
deriving DecidableEq, Repr

structure Event where
  seq : ℕ
  turnId : String := ""
  payload : Payload := .other
deriving DecidableEq, Repr

/-- Whether the event is a boundary, and whether the reader is in a turn after it. -/
def turnBoundary (ev : Event) (inTurn : Bool) : Bool × Bool :=
  match ev.payload with
  | .turnCompleted | .turnFailed | .sessionEnded => (true, false)
  | _ => if ev.turnId ≠ "" then (false, true) else (!inTurn, inTurn)

/-- `ListEvents`, by the number of the call and `AfterSeq`; `none` is an error. -/
abbrev ListEvents := ℕ → ℕ → Option (List Event)

/-- The variables of the loops that read the log. -/
structure Scan where
  boundary : ℕ := 0
  inTurn : Bool := false
  after : ℕ := 0
deriving DecidableEq, Repr

def Scan.next (s : Scan) (ev : Event) : Scan where
  boundary := if (turnBoundary ev s.inTurn).1 then ev.seq else s.boundary
  inTurn := (turnBoundary ev s.inTurn).2
  after := ev.seq

/-- The loop over a page; an error is the value that `turnStartBefore` returns from inside. -/
def scanPage (cursor : ℕ) (s : Scan) : List Event → Except ℕ Scan
  | [] => .ok s
  | ev :: evs => if cursor < ev.seq then .error s.boundary else scanPage cursor (s.next ev) evs

/-- `turnStartBefore` from the call `i` on, for a number of rounds. -/
def turnStartBefore (list : ListEvents) (cursor : ℕ) : ℕ → ℕ → Scan → Option ℕ
  | 0, _, _ => none
  | rounds + 1, i, s =>
    if s.after < cursor then
      match list i s.after with
      | none => some cursor
      | some [] => some s.boundary
      | some (ev :: evs) =>
        match scanPage cursor s (ev :: evs) with
        | .error boundary => some boundary
        | .ok s' => turnStartBefore list cursor rounds (i + 1) s'
    else some s.boundary

/-- What `renderMissed` saves as `LastSeq`, and whether it read everything. -/
structure Missed where
  complete : Bool
  lastSeq : ℕ
deriving DecidableEq, Repr

/-- The loop of `renderMissed`; `last` is the `LastSeq` of the view. -/
def renderMissed (list : ListEvents) (last : ℕ) : ℕ → ℕ → Scan → Option Missed
  | 0, _, _ => none
  | rounds + 1, i, s =>
    match list i s.after with
    | none => some ⟨false, s.boundary⟩
    | some evs =>
      if evs = [] ∨ last ≤ (evs.foldl Scan.next s).after then
        some ⟨true, (evs.foldl Scan.next s).after⟩
      else renderMissed list last rounds (i + 1) (evs.foldl Scan.next s)

/-- The events at which `renderEvent` calls `watchSuspended`. -/
def Event.pauses (ev : Event) : Bool :=
  match ev.payload with
  | .suspended | .stateChanged .suspended .reviveFailed => true
  | _ => false

/-- The consumer of a thread: its saved `LastSeq`, and whether `watchSuspended` has stopped it. -/
structure Consumer where
  inTurn : Bool := false
  lastSeq : ℕ
  stopped : Bool := false
deriving DecidableEq, Repr

/-- One event of the subscription; `replayThrough` is the `LastSeq` of the view that the thread was
taken up with. -/
def Consumer.next (replayThrough : ℕ) (c : Consumer) (ev : Event) : Consumer :=
  if c.stopped then c
  else
    let c' : Consumer := {
      inTurn := (turnBoundary ev c.inTurn).2
      lastSeq := if (turnBoundary ev c.inTurn).1 then max c.lastSeq ev.seq else c.lastSeq }
    if ev.pauses ∧ ¬ ev.seq ≤ replayThrough then { c' with lastSeq := ev.seq, stopped := true }
    else c'

/-! ## Turn boundaries -/

/-- The events that end a turn, or all of them. -/
def Event.isEnd (ev : Event) : Bool :=
  match ev.payload with
  | .turnCompleted | .turnFailed | .sessionEnded => true
  | _ => false

/-- No turn has an event at or before the position and its end after it: a turn that ends after it
has ended before. -/
def Boundary (log : List Event) (p : ℕ) : Prop :=
  ∀ ev ∈ log, ev.turnId ≠ "" → ev.seq ≤ p →
    ∀ fin ∈ log, fin.isEnd = true → fin.turnId = ev.turnId → p < fin.seq →
      ∃ fin' ∈ log, fin'.isEnd = true ∧ fin'.turnId = ev.turnId ∧ fin'.seq ≤ p

instance (log : List Event) (p : ℕ) : Decidable (Boundary log p) :=
  inferInstanceAs (Decidable (∀ ev ∈ log, _))

/-- A log: numbered, and nothing else ends between an event of a turn and the end of that turn. -/
structure Log (log : List Event) : Prop where
  numbered : Numbered Event.seq log
  nested : ∀ ev ∈ log, ev.turnId ≠ "" → ∀ other ∈ log, other.isEnd = true → ev.seq < other.seq →
    ∀ fin ∈ log, fin.isEnd = true → fin.turnId = ev.turnId → other.seq < fin.seq →
      other.turnId = ev.turnId

/-- The last boundary that a reader of the log up to the cursor finds. -/
def resumePoint (log : List Event) (cursor : ℕ) : ℕ :=
  ((log.takeWhile fun ev => ev.seq ≤ cursor).foldl Scan.next {}).boundary

section Boundaries

variable {log done rest : List Event} {ev : Event} {inTurn : Bool}

theorem turnBoundary_isEnd (h : ev.isEnd = true) : turnBoundary ev inTurn = (true, false) := by
  obtain ⟨seq, turnId, payload⟩ := ev
  cases payload with
  | turnCompleted | turnFailed | sessionEnded => rfl
  | stateChanged | suspended | other => nomatch h

theorem turnBoundary_other (h : ev.isEnd = false) :
    turnBoundary ev inTurn = if ev.turnId ≠ "" then (false, true) else (!inTurn, inTurn) := by
  obtain ⟨seq, turnId, payload⟩ := ev
  cases payload with
  | turnCompleted | turnFailed | sessionEnded => nomatch h
  | stateChanged | suspended | other => rfl

/-- A reader at a boundary is not in a turn. -/
theorem settled_of_boundary (h : (turnBoundary ev inTurn).1 = true) :
    (turnBoundary ev inTurn).2 = false := by
  cases hend : ev.isEnd with
  | true => rw [turnBoundary_isEnd hend]
  | false =>
    rw [turnBoundary_other hend] at h ⊢
    split at h
    · nomatch h
    · next hplain =>
      rw [if_neg hplain]
      simpa using h

theorem boundary_zero (hlog : Log log) : Boundary log 0 := by
  intro ev hev _ hle
  exact absurd (hlog.numbered.pos ev hev) (by omega)

theorem boundary_isEnd (hlog : Log log) (hev : ev ∈ log) (hend : ev.isEnd = true) :
    Boundary log ev.seq := by
  intro e he htag hle fin hfin hfinEnd hfinTag hlt
  by_cases htag' : ev.turnId = e.turnId
  · exact ⟨ev, hev, hend, htag', Nat.le_refl _⟩
  · -- another turn would end inside the turn of `e`
    have hne : e.seq ≠ ev.seq := by
      intro heq
      exact htag' (congrArg Event.turnId (hlog.numbered.inj hev he heq.symm))
    exact absurd (hlog.nested e he htag ev hev hend (by omega) fin hfin hfinEnd hfinTag hlt) htag'

/-- Nothing opens with an event of no turn. -/
theorem boundary_plain {x : ℕ} (h : Boundary log x) (hc : CutAt Event.seq log x done (ev :: rest))
    (hplain : ev.turnId = "") (hrest : ∀ e ∈ rest, ev.seq < e.seq) : Boundary log ev.seq := by
  intro e he htag hle fin hfin hfinEnd hfinTag hlt
  have hx : x < ev.seq := hc.lt ev List.mem_cons_self
  have hle' : e.seq ≤ x := by
    rw [hc.eq] at he
    rcases List.mem_append.mp he with he | he
    · exact hc.le e he
    · rcases List.mem_cons.mp he with rfl | he
      · exact absurd hplain htag
      · have := hrest e he
        omega
  obtain ⟨fin', hmem, hend, htag', hle''⟩ := h e he htag hle' fin hfin hfinEnd hfinTag (by omega)
  exact ⟨fin', hmem, hend, htag', by omega⟩

/-- A reader that is not in a turn is at a boundary. -/
theorem boundary_next (hlog : Log log) {x : ℕ} (hc : CutAt Event.seq log x done (ev :: rest))
    (h : inTurn = false → Boundary log x) :
    (turnBoundary ev inTurn).2 = false → Boundary log ev.seq := by
  intro hsettled
  cases hend : ev.isEnd with
  | true =>
    apply boundary_isEnd hlog _ hend
    rw [hc.eq]
    exact List.mem_append_right _ List.mem_cons_self
  | false =>
    rw [turnBoundary_other hend] at hsettled
    split at hsettled
    · nomatch hsettled
    · next hplain =>
      exact boundary_plain (h hsettled) hc (not_not.mp hplain) (hc.next hlog.numbered).lt

end Boundaries

/-! ## The readers -/

/-- The reader is at a boundary or in a turn, and the boundary that it has found is one. -/
structure Tracked (log : List Event) (s : Scan) : Prop where
  settled : s.inTurn = false → Boundary log s.after
  boundary : Boundary log s.boundary
  le : s.boundary ≤ s.after

section Readers

variable {log done rest evs : List Event} {s : Scan}

theorem Tracked.next (hlog : Log log) {ev : Event} (h : Tracked log s)
    (hc : CutAt Event.seq log s.after done (ev :: rest)) : Tracked log (s.next ev) := by
  have hsettled := boundary_next hlog hc h.settled
  have hlt : s.after < ev.seq := hc.lt ev List.mem_cons_self
  refine ⟨hsettled, ?_, ?_⟩
  · show Boundary log (if _ then _ else _)
    split
    · next hat => exact hsettled (settled_of_boundary hat)
    · exact h.boundary
  · show (if _ then _ else _) ≤ ev.seq
    have := h.le
    split <;> omega

/-- The cut goes on over a stretch of the log. -/
theorem cutAt_foldl (hlog : Log log) (hc : CutAt Event.seq log s.after done (evs ++ rest)) :
    CutAt Event.seq log (evs.foldl Scan.next s).after (done ++ evs) rest := by
  induction evs generalizing s done with
  | nil =>
    rw [List.append_nil]
    exact hc
  | cons ev evs ih =>
    have hnext := ih (s := s.next ev) (hc.next hlog.numbered)
    rw [List.append_assoc] at hnext
    exact hnext

theorem Tracked.foldl (hlog : Log log) (h : Tracked log s)
    (hc : CutAt Event.seq log s.after done (evs ++ rest)) :
    Tracked log (evs.foldl Scan.next s) := by
  induction evs generalizing s done with
  | nil => exact h
  | cons ev evs ih => exact ih (h.next hlog hc) (hc.next hlog.numbered)

/-- The reader is at the last event that it read. -/
theorem exists_after (s : Scan) (ev : Event) (evs : List Event) :
    ∃ e ∈ ev :: evs, ((ev :: evs).foldl Scan.next s).after = e.seq := by
  induction evs generalizing s ev with
  | nil => exact ⟨ev, List.mem_cons_self, rfl⟩
  | cons ev' evs ih =>
    obtain ⟨e, he, heq⟩ := ih (s.next ev) ev'
    exact ⟨e, List.mem_cons_of_mem _ he, heq⟩

theorem tracked_zero (hlog : Log log) : Tracked log {} :=
  ⟨fun _ => boundary_zero hlog, boundary_zero hlog, Nat.le_refl _⟩

/-- A reader that starts at a boundary. -/
theorem tracked_at {p : ℕ} (h : Boundary log p) : Tracked log { boundary := p, after := p } :=
  ⟨fun _ => h, h, Nat.le_refl _⟩

/-- The loop over a page stops at the first event after the cursor. -/
theorem scanPage_eq (cursor : ℕ) (s : Scan) (evs : List Event) :
    scanPage cursor s evs =
      if ∀ ev ∈ evs, ev.seq ≤ cursor then .ok (evs.foldl Scan.next s)
      else .error ((evs.takeWhile fun ev => ev.seq ≤ cursor).foldl Scan.next s).boundary := by
  induction evs generalizing s with
  | nil => rfl
  | cons ev evs ih =>
    rw [scanPage]
    by_cases hle : ev.seq ≤ cursor
    · rw [if_neg (by omega), ih, List.takeWhile_cons_of_pos (by simpa using hle)]
      simp only [List.forall_mem_cons, hle, true_and, List.foldl_cons]
    · rw [if_pos (by omega), if_neg (fun h => hle (h ev List.mem_cons_self)),
        List.takeWhile_cons_of_neg (by simpa using hle)]
      rfl

theorem takeWhile_of_prefix {p : Event → Bool} {l l' : List Event} (h : l <+: l')
    (hl : ¬ ∀ ev ∈ l, p ev = true) : l'.takeWhile p = l.takeWhile p := by
  obtain ⟨more, rfl⟩ := h
  rw [List.takeWhile_append, if_neg]
  intro hlen
  apply hl
  have hself : l.takeWhile p = l := (List.takeWhile_prefix p).eq_of_length hlen
  rw [← List.all_eq_true, ← hself]
  exact List.all_takeWhile

theorem takeWhile_eq_nil {p : Event → Bool} {l : List Event} (h : ∀ ev ∈ l, p ev = false) :
    l.takeWhile p = [] := by
  cases l with
  | nil => rfl
  | cons ev l => exact List.takeWhile_cons_of_neg (by simp [h ev List.mem_cons_self])

/-- A reader that has read up to the cut, and all that is there up to the cursor after it, has found
the resume point of what is there. -/
theorem resumePoint_eq {cursor v : ℕ} (hs : s = done.foldl Scan.next {})
    (hc : CutAt Event.seq log s.after done rest) (hle : s.after ≤ cursor) (hv : done.length ≤ v) :
    resumePoint (log.take v) cursor =
      (((rest.take (v - done.length)).takeWhile fun ev => ev.seq ≤ cursor).foldl
        Scan.next s).boundary := by
  have hdone : ∀ ev ∈ done, decide (ev.seq ≤ cursor) = true := fun ev hev =>
    decide_eq_true (Nat.le_trans (hc.le ev hev) hle)
  rw [resumePoint, hc.eq, List.take_append, List.take_of_length_le hv,
    List.takeWhile_append_of_pos hdone, List.foldl_append, ← hs]

variable (g : Pager)

/-- The reads of a pager do not fail. -/
def reads (log : List Event) : ListEvents := fun i x => some (g.page Event.seq log i x)

/-- From a cut of the log on, the loop returns the resume point of what one of the reads saw. -/
theorem turnStartBefore_from (hlog : Log log) {cursor rounds i : ℕ}
    (hs : s = done.foldl Scan.next {})
    (hc : CutAt Event.seq log s.after done rest) (hle : s.after ≤ cursor)
    (hrounds : cursor < rounds + s.after) (hv : done.length ≤ g.visible i) :
    ∃ b j, turnStartBefore (reads g log) cursor rounds i s = some b ∧
      b = resumePoint (log.take (g.visible j)) cursor := by
  induction rounds generalizing i s done rest with
  | zero => omega
  | succ rounds ih =>
    have hpoint := resumePoint_eq hs hc hle hv
    rw [turnStartBefore]
    by_cases hlt : s.after < cursor
    · rw [if_pos hlt]
      have hpage := hc.page_eq g hv
      rw [reads, hpage]
      cases hp : (rest.take (g.visible i - done.length)).take (g.size i) with
      | nil =>
        -- nothing more is there
        have hnil : rest.take (g.visible i - done.length) = [] := by
          have hpos := g.pos i
          rw [List.take_eq_nil_iff] at hp
          exact hp.resolve_left (by omega)
        refine ⟨s.boundary, i, rfl, ?_⟩
        rw [hpoint, hnil]
        rfl
      | cons ev evs =>
        have hsub : ev :: evs <+: rest.take (g.visible i - done.length) :=
          hp ▸ List.take_prefix _ _
        dsimp only
        rw [scanPage_eq]
        by_cases hall : ∀ e ∈ ev :: evs, e.seq ≤ cursor
        · rw [if_pos hall]
          dsimp only
          obtain ⟨rest', hrest⟩ := hsub.trans (List.take_prefix _ _)
          rw [← hrest] at hc
          have hc' := cutAt_foldl hlog hc
          obtain ⟨e, he, hafter⟩ := exists_after s ev evs
          have hup : s.after < ((ev :: evs).foldl Scan.next s).after := by
            rw [hafter]
            exact hc.lt e (List.mem_append_left _ he)
          have hend : ((ev :: evs).foldl Scan.next s).after ≤ cursor := hafter ▸ hall e he
          have hlen : (done ++ ev :: evs).length ≤ g.visible i := by
            have hsize := hsub.length_le
            rw [List.length_take] at hsize
            rw [List.length_append]
            omega
          refine ih ?_ hc' hend (by omega) (Nat.le_trans hlen (g.mono i))
          rw [List.foldl_append, ← hs]
        · rw [if_neg hall]
          refine ⟨_, i, rfl, ?_⟩
          rw [hpoint, takeWhile_of_prefix hsub]
          simpa using hall
    · rw [if_neg hlt]
      refine ⟨s.boundary, i, rfl, ?_⟩
      have hnone : (rest.take (g.visible i - done.length)).takeWhile
          (fun ev => decide (ev.seq ≤ cursor)) = [] := by
        apply takeWhile_eq_nil
        intro ev hev
        have hgt := hc.lt ev (List.mem_of_mem_take hev)
        exact decide_eq_false (by omega)
      rw [hpoint, hnone]
      rfl

theorem tracked_of_prefix (hlog : Log log) (h : evs <+: log) :
    Tracked log (evs.foldl Scan.next {}) := by
  obtain ⟨rest, hrest⟩ := h
  have hc : CutAt Event.seq log 0 [] (evs ++ rest) := hrest ▸ .zero (hrest ▸ hlog.numbered)
  exact (tracked_zero hlog).foldl hlog hc

/-- The point that a reader of the log finds is a boundary at most at the cursor. -/
theorem resumePoint_boundary (hlog : Log log) (v cursor : ℕ) :
    Boundary log (resumePoint (log.take v) cursor) ∧ resumePoint (log.take v) cursor ≤ cursor := by
  rw [resumePoint]
  have ht := tracked_of_prefix hlog
    ((List.takeWhile_prefix fun ev => decide (ev.seq ≤ cursor)).trans (List.take_prefix v log))
  refine ⟨ht.boundary, Nat.le_trans ht.le ?_⟩
  cases hevs : (log.take v).takeWhile fun ev => decide (ev.seq ≤ cursor) with
  | nil => exact Nat.zero_le _
  | cons ev evs =>
    obtain ⟨e, he, hafter⟩ := exists_after {} ev evs
    rw [hafter]
    rw [← hevs] at he
    exact of_decide_eq_true (List.all_eq_true.mp List.all_takeWhile e he)

end Readers

/-! ## The consumers -/

section Consumers

variable {log done rest evs : List Event} {c : Consumer} {saved replayThrough : ℕ}

/-- What the saved `LastSeq` is after an event. -/
def Kept (log : List Event) (saved replayThrough : ℕ) (c : Consumer) : Prop :=
  c.lastSeq = saved ∨ Boundary log c.lastSeq ∨
    (c.stopped = true ∧ ∃ ev ∈ log, ev.pauses = true ∧ replayThrough < ev.seq ∧ c.lastSeq = ev.seq)

theorem kept_next (hlog : Log log) {ev : Event} {x : ℕ}
    (hc : CutAt Event.seq log x done (ev :: rest))
    (hsettled : c.stopped = false → c.inTurn = false → Boundary log x)
    (h : Kept log saved replayThrough c) :
    ((c.next replayThrough ev).stopped = false → (c.next replayThrough ev).inTurn = false →
        Boundary log ev.seq) ∧
      Kept log saved replayThrough (c.next replayThrough ev) := by
  unfold Consumer.next
  cases hstopped : c.stopped with
  | true =>
    rw [if_pos rfl]
    exact ⟨fun hrunning => absurd hrunning (by rw [hstopped]; exact nofun), h⟩
  | false =>
    have hnext := boundary_next hlog hc (hsettled hstopped)
    have hrunning : c.lastSeq = saved ∨ Boundary log c.lastSeq ∨ (false = true ∧ ∃ ev ∈ log,
        ev.pauses = true ∧ replayThrough < ev.seq ∧ c.lastSeq = ev.seq) := hstopped ▸ h
    rw [if_neg Bool.false_ne_true]
    dsimp only
    split
    · next hpause =>
      refine ⟨nofun, .inr (.inr ⟨rfl, ev, ?_, hpause.1, by omega, rfl⟩)⟩
      rw [hc.eq]
      exact List.mem_append_right _ List.mem_cons_self
    · refine ⟨fun _ => hnext, ?_⟩
      unfold Kept
      dsimp only
      split
      · next hat =>
        -- the maximum is the new boundary or what was saved before
        rcases Nat.le_total c.lastSeq ev.seq with hle | hle
        · rw [Nat.max_eq_right hle]
          exact .inr (.inl (hnext (settled_of_boundary hat)))
        · rw [Nat.max_eq_left hle]
          exact hrunning
      · exact hrunning

theorem kept_foldl (hlog : Log log) {x : ℕ} (hc : CutAt Event.seq log x done (evs ++ rest))
    (hsettled : c.stopped = false → c.inTurn = false → Boundary log x)
    (h : Kept log saved replayThrough c) :
    Kept log saved replayThrough (evs.foldl (Consumer.next replayThrough) c) := by
  induction evs generalizing c x done with
  | nil => exact h
  | cons ev evs ih =>
    obtain ⟨hsettled', h'⟩ := kept_next hlog hc hsettled h
    exact ih (hc.next hlog.numbered) hsettled' h'

/-- The pages that a read may give: a stretch of the log after the number. -/
def Pages (log : List Event) (list : ListEvents) : Prop :=
  ∀ i x evs, list i x = some evs → evs <+: log.filter fun ev => x < ev.seq

/-- `renderMissed` returns, and saves a boundary when a read fails. -/
theorem missed_from (hlog : Log log) {s : Scan} {list : ListEvents} {last rounds : ℕ}
    (hlist : Pages log list) (ht : Tracked log s) (hpos : 0 < rounds)
    (hrounds : last < rounds + s.after) (i : ℕ) :
    ∃ m, renderMissed list last rounds i s = some m ∧
      (m.complete = false → Boundary log m.lastSeq) := by
  induction rounds generalizing i s with
  | zero => nomatch hpos
  | succ rounds ih =>
    rw [renderMissed]
    cases hread : list i s.after with
    | none => exact ⟨_, rfl, fun _ => ht.boundary⟩
    | some evs =>
      dsimp only
      by_cases hlast : evs = [] ∨ last ≤ (evs.foldl Scan.next s).after
      · rw [if_pos hlast]
        exact ⟨_, rfl, nofun⟩
      · rw [if_neg hlast]
        obtain ⟨hne, hlt⟩ := not_or.mp hlast
        obtain ⟨done, hc⟩ := CutAt.exists_done hlog.numbered.rising s.after
        obtain ⟨rest, hrest⟩ := hlist i s.after evs hread
        rw [← hrest] at hc
        obtain ⟨ev, evs', rfl⟩ := List.exists_cons_of_ne_nil hne
        obtain ⟨e, he, hafter⟩ := exists_after s ev evs'
        have hup := hc.lt e (List.mem_append_left _ he)
        exact ih (ht.foldl hlog hc) (by omega) (by omega) _

end Consumers

/-! ## The result -/

/-- Of every log: `turnStartBefore` returns the resume point of what one of its reads saw, which is
a boundary at most at the cursor and has nothing of the pages in it; a consumer that starts at a
boundary moves the saved `LastSeq` to boundaries only, and to a pause that it meets for the first
time, at which it stops; and what `renderMissed` saves when a read fails is a boundary. -/
theorem resumes_at_boundary {log : List Event} (hlog : Log log) :
    (∀ (g : Pager) (cursor rounds : ℕ), cursor < rounds →
      ∃ b i, turnStartBefore (reads g log) cursor rounds 0 {} = some b ∧
        b = resumePoint (log.take (g.visible i)) cursor ∧ b ≤ cursor ∧ Boundary log b) ∧
    (∀ (p saved replayThrough : ℕ) (evs : List Event), Boundary log p →
      evs <+: (log.filter fun ev => p < ev.seq) →
      Kept log saved replayThrough
        (evs.foldl (Consumer.next replayThrough) { lastSeq := saved })) ∧
    ∀ (p last rounds : ℕ) (list : ListEvents), Boundary log p → Pages log list → last < rounds →
      ∃ m, renderMissed list last rounds 0 { boundary := p, after := p } = some m ∧
        (m.complete = false → Boundary log m.lastSeq) := by
  refine ⟨?_, ?_, ?_⟩
  · intro g cursor rounds hrounds
    obtain ⟨b, i, hreturn, rfl⟩ := turnStartBefore_from g hlog (s := {}) rfl
      (.zero hlog.numbered) (Nat.zero_le _) hrounds (Nat.zero_le _)
    obtain ⟨hboundary, hle⟩ := resumePoint_boundary hlog (g.visible i) cursor
    exact ⟨_, i, hreturn, rfl, hle, hboundary⟩
  · intro p saved replayThrough evs hp hevs
    obtain ⟨done, hc⟩ := CutAt.exists_done hlog.numbered.rising p
    obtain ⟨rest, hrest⟩ := hevs
    exact kept_foldl hlog (hrest ▸ hc) (fun _ _ => hp) (.inl rfl)
  · intro p last rounds list hp hlist hrounds
    exact missed_from hlog hlist (tracked_at hp) (by omega) (Nat.lt_add_right p hrounds) 0

/-- One turn, with an event of the session in it, and another one. -/
def twoTurns : List Event :=
  [⟨1, "t1", .other⟩, ⟨2, "", .other⟩, ⟨3, "t1", .other⟩, ⟨4, "t1", .turnCompleted⟩,
    ⟨5, "", .other⟩, ⟨6, "t2", .other⟩, ⟨7, "", .suspended⟩, ⟨8, "t2", .turnFailed⟩,
    ⟨9, "", .sessionEnded⟩]

theorem twoTurns_log : Log twoTurns := ⟨⟨by decide, by decide⟩, by decide⟩

/-- Pages of two events of a log that has three at first. -/
def smallPages : Pager where
  visible i := 3 + i
  size _ := 2
  mono _ := Nat.le_succ _
  pos _ := Nat.zero_lt_two

theorem resumes_at_boundary_twoTurns :
    ∃ b i, turnStartBefore (reads smallPages twoTurns) 7 8 0 {} = some b ∧
      b = resumePoint (twoTurns.take (smallPages.visible i)) 7 ∧ b ≤ 7 ∧ Boundary twoTurns b :=
  (resumes_at_boundary twoTurns_log).1 smallPages 7 8 (by decide)

example : turnStartBefore (reads smallPages twoTurns) 7 8 0 {} = some 5 := by decide

/-- A cursor inside a turn stays the saved one while the turn is replayed, and a pause inside a turn
is saved where it is. -/
theorem lastSeq_inside_turn :
    Log twoTurns ∧ turnStartBefore (reads smallPages twoTurns) 3 4 0 {} = some 0 ∧
      ¬ Boundary twoTurns
        ((twoTurns.take 1).foldl (Consumer.next 9) { lastSeq := 3 }).lastSeq ∧
      Boundary twoTurns 5 ∧
      ¬ Boundary twoTurns
        (((twoTurns.drop 5).take 2).foldl (Consumer.next 0) { lastSeq := 5 }).lastSeq :=
  ⟨twoTurns_log, by decide, by decide, by decide, by decide⟩

end AgentOps.Slackbot.Resume
