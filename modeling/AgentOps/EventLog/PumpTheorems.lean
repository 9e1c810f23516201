import AgentOps.EventLog.Pump
import Mathlib.Data.List.Infix
import Mathlib.Tactic.Linarith

/-!
# A subscription delivers the log

The invariant of a subscription (`Subscription.Inv`) has two halves. What was sent is a
prefix of the stored events after `afterSeq`, and the page or the event in hand continues
it. What is stored beyond the point that the goroutine will reach by itself is in the live
channel, or covered by the stale mark, or held by a writer that has not published it yet.
-/

namespace AgentOps.EventLog

open AgentOps.Api AgentOps.Lib

variable {ev : Event} {ok : Bool}

/-! ## The stored log -/

/-- The rows of a session are exactly seq `1` to its `event_seq`. -/
structure Rows.WF (r : Rows) : Prop where
  eventSeq_eq : r.eventSeq = r.rows.length
  seq_eq : ∀ (i : ℕ) (ev : Event), r.rows[i]? = some ev → ev.seq = i + 1

namespace Rows

theorem WF.insert {r : Rows} (h : r.WF) (ev : String × Payload) : (r.insert ev).WF where
  eventSeq_eq := by simp [Rows.insert, h.eventSeq_eq]
  seq_eq := by
    intro i e he
    simp only [Rows.insert] at he
    rcases lt_trichotomy i r.rows.length with hi | hi | hi
    · rw [List.getElem?_append_left hi] at he
      exact h.seq_eq i e he
    · subst hi
      simp only [List.getElem?_concat_length, Option.some.injEq] at he
      rw [← he, h.eventSeq_eq]
    · rw [List.getElem?_eq_none (by simp; omega)] at he
      cases he

theorem WF.insertAll {r : Rows} (h : r.WF) (evs : List (String × Payload)) :
    (r.insertAll evs).WF := by
  induction evs generalizing r with
  | nil => exact h
  | cons ev evs ih => exact ih (h.insert ev)

theorem prefix_insertAll (r : Rows) (evs : List (String × Payload)) :
    r.rows <+: (r.insertAll evs).rows := by
  induction evs generalizing r with
  | nil => exact List.prefix_rfl
  | cons ev evs ih => exact (List.prefix_append _ _).trans (ih (r.insert ev))

theorem WF.seq_pos {r : Rows} (h : r.WF) (hev : ev ∈ r.rows) : 1 ≤ ev.seq := by
  obtain ⟨i, hi⟩ := List.mem_iff_getElem?.mp hev
  have := h.seq_eq i ev hi
  omega

/-- The row of a stored event stands at its own seq. -/
theorem WF.getElem_of_mem {r : Rows} (h : r.WF) (hev : ev ∈ r.rows) :
    r.rows[ev.seq.toNat - 1]? = some ev := by
  obtain ⟨i, hi⟩ := List.mem_iff_getElem?.mp hev
  have hseq := h.seq_eq i ev hi
  rwa [show ev.seq.toNat - 1 = i by omega]

/-- Filtering consecutive numbers by a lower bound drops the ones below it. -/
private theorem filter_eq_drop (l : List Event) (k : ℕ) (a : ℤ)
    (h : ∀ (i : ℕ) (ev : Event), l[i]? = some ev → ev.seq = k + i + 1) :
    l.filter (fun ev => a < ev.seq) = l.drop (a - k).toNat := by
  induction l generalizing k with
  | nil => simp
  | cons e l ih =>
    have he : e.seq = k + 1 := by simpa using h 0 e rfl
    have hl := ih (k + 1) fun i ev hi => by
      have := h (i + 1) ev (by simpa using hi)
      push_cast at this ⊢
      omega
    by_cases ha : a < e.seq
    · have h0 : (a - k).toNat = 0 := by omega
      have h1 : (a - ((k + 1 : ℕ) : ℤ)).toNat = 0 := by push_cast; omega
      rw [h1] at hl
      simpa [List.filter_cons, ha, h0] using hl
    · have h0 : (a - k).toNat = (a - ((k + 1 : ℕ) : ℤ)).toNat + 1 := by push_cast; omega
      rw [List.filter_cons, if_neg (by simpa using ha), h0, List.drop_succ_cons, hl]

theorem WF.filter_eq_drop {r : Rows} (h : r.WF) (a : ℤ) :
    r.rows.filter (fun ev => a < ev.seq) = r.rows.drop a.toNat := by
  have := Rows.filter_eq_drop r.rows 0 a fun i ev hi => by simpa using h.seq_eq i ev hi
  simpa using this

/-- A full-size page is a prefix of the stored events after its start. -/
theorem WF.history_eq {r : Rows} (h : r.WF) (a : ℤ) :
    r.history a defaultEventPage = (r.rows.drop a.toNat).take defaultEventPage := by
  simp [history, listSessionEvents, h.filter_eq_drop, defaultEventPage]

end Rows

/-! ## The invariant of a subscription -/

/-- The seq up to which the goroutine gets by itself before it waits for a wakeup. -/
def Pump.frontier (sent : ℤ) : Pump → Option ℤ
  | .endsAt => some sent
  | .batch rest false => some (sent.toNat + rest.length)
  | .live => some sent
  | .offer ev => some ev.seq
  | _ => none

namespace Subscription

/-- The invariant of a subscription over the stored rows and the events that a writer has
committed and not published. -/
structure Inv (r : Rows) (pending : Event → Prop) (s : Subscription) : Prop where
  got_prefix : s.got <+: r.rows.drop s.afterSeq.toNat
  sent_eq : s.sent = s.lastSent
  start : s.pump = .first → s.got = []
  live_mem : ∀ ev ∈ s.live, ev ∈ r.rows
  page : ∀ rest full, s.pump = .batch rest full → rest <+: r.rows.drop s.sent.toNat
  offered : ∀ ev, s.pump = .offer ev → ev ∈ r.rows ∧ ev.seq = s.sent + 1
  ended_last : ∀ ev ∈ s.got.dropLast, ev.payload.isSessionEnded = false
  ended_done : s.pump ≠ .done → ∀ ev ∈ s.got, ev.payload.isSessionEnded = false
  registered_of : s.closed = false → s.pump ≠ .done → s.registered = true
  awake : s.closed = false → ∀ n, s.pump.frontier s.sent = some n →
    ∀ ev ∈ r.rows, n < ev.seq → ev ∈ s.live ∨ s.stale = true ∨ pending ev

variable {r r' : Rows} {P P' : Event → Prop} {s s' : Subscription}

/-- The position that was sent, counted in rows. -/
theorem Inv.sent_toNat (hr : r.WF) (h : s.Inv r P) :
    s.sent.toNat = s.afterSeq.toNat + s.got.length := by
  rw [h.sent_eq, lastSent]
  rcases List.eq_nil_or_concat s.got with hg | ⟨l, ev, hg⟩
  · simp [hg]
  · -- the last event sent stands in the rows just behind the ones before it
    have hlast : (r.rows.drop s.afterSeq.toNat)[l.length]? = some ev := by
      obtain ⟨t, ht⟩ := h.got_prefix
      rw [← ht, hg, List.concat_eq_append, List.append_assoc, List.getElem?_append_right le_rfl]
      simp
    rw [List.getElem?_drop] at hlast
    have := hr.seq_eq _ _ hlast
    simp only [hg, List.concat_eq_append, List.getLast?_concat, Option.map_some,
      Option.getD_some, List.length_append, List.length_cons, List.length_nil]
    omega

/-- The page in hand starts right behind what was sent. -/
theorem Inv.page_head (hr : r.WF) (h : s.Inv r P) {rest : List Event} {full : Bool}
    (hp : s.pump = .batch (ev :: rest) full) :
    r.rows[s.sent.toNat]? = some ev ∧ ev.seq = s.sent.toNat + 1 ∧
      rest <+: r.rows.drop (s.sent.toNat + 1) := by
  have hpre := h.page _ _ hp
  obtain ⟨t, ht⟩ := hpre
  have h0 : (r.rows.drop s.sent.toNat)[0]? = some ev := by rw [← ht]; rfl
  rw [List.getElem?_drop, Nat.add_zero] at h0
  refine ⟨h0, hr.seq_eq _ _ h0, t, ?_⟩
  rw [← List.drop_drop, ← ht]
  rfl

/-- The log only grows: the invariant stays when rows are added that a writer holds. -/
theorem Inv.mono (h : s.Inv r P) (hpre : r.rows <+: r'.rows)
    (hnew : ∀ ev ∈ r'.rows, ev ∉ r.rows → P' ev) (hP : ∀ ev, P ev → P' ev) : s.Inv r' P' where
  got_prefix := h.got_prefix.trans (hpre.drop _)
  sent_eq := h.sent_eq
  start := h.start
  live_mem := fun ev hev => hpre.subset (h.live_mem ev hev)
  page := fun rest full hp => (h.page rest full hp).trans (hpre.drop _)
  offered := fun ev hp => ⟨hpre.subset (h.offered ev hp).1, (h.offered ev hp).2⟩
  ended_last := h.ended_last
  ended_done := h.ended_done
  registered_of := h.registered_of
  awake := by
    intro hc n hn ev hev hlt
    by_cases hmem : ev ∈ r.rows
    · rcases h.awake hc n hn ev hmem hlt with hl | hs | hp
      · exact .inl hl
      · exact .inr (.inl hs)
      · exact .inr (.inr (hP ev hp))
    · exact .inr (.inr (hnew ev hev hmem))

/-- A published event is in the live channel or covered by the stale mark. -/
theorem Inv.publish (h : s.Inv r P) (hev : ev ∈ r.rows) (hP : ∀ e, P e → e = ev ∨ P' e) :
    (s.publish ev).Inv r P' := by
  have hkeep : ∀ n, s.closed = false → s.pump.frontier s.sent = some n → s.registered = true := by
    intro n hc hn
    refine h.registered_of hc fun hd => ?_
    rw [hd] at hn
    cases hn
  unfold Subscription.publish
  split
  · split
    · refine ⟨h.got_prefix, h.sent_eq, h.start, ?_, h.page, h.offered, h.ended_last, h.ended_done,
        h.registered_of, ?_⟩
      · intro e he
        rcases List.mem_append.mp he with he | he
        · exact h.live_mem e he
        · rwa [List.mem_singleton.mp he]
      · intro hc n hn e he hlt
        rcases h.awake hc n hn e he hlt with hl | hs | hp
        · exact .inl (List.mem_append_left _ hl)
        · exact .inr (.inl hs)
        · rcases hP e hp with rfl | hp
          · exact .inl (List.mem_append_right _ (List.mem_singleton_self _))
          · exact .inr (.inr hp)
    · exact ⟨h.got_prefix, h.sent_eq, h.start, h.live_mem, h.page, h.offered, h.ended_last,
        h.ended_done, h.registered_of, fun _ _ _ _ _ _ => .inr (.inl rfl)⟩
  · rename_i hreg
    refine ⟨h.got_prefix, h.sent_eq, h.start, h.live_mem, h.page, h.offered, h.ended_last,
      h.ended_done, h.registered_of, ?_⟩
    intro hc n hn
    exact absurd (hkeep n hc hn) hreg

/-- The goroutine returns. -/
theorem Inv.finish (h : s.Inv r P) : s.finish.Inv r P where
  got_prefix := h.got_prefix
  sent_eq := h.sent_eq
  start := by intro hp; cases hp
  live_mem := h.live_mem
  page := by intro _ _ hp; cases hp
  offered := by intro _ hp; cases hp
  ended_last := h.ended_last
  ended_done := by intro hp; exact absurd rfl hp
  registered_of := by intro _ hp; exact absurd rfl hp
  awake := by intro _ _ hn; cases hn

/-- A page that was just read. A short page ends at the last row, so nothing is stored
beyond it. -/
theorem Inv.withBatch (hr : r.WF) (h : s.Inv r P) (hp : s.pump ≠ .done) :
    (s.withBatch (r.history s.sent defaultEventPage)).Inv r P where
  got_prefix := h.got_prefix
  sent_eq := h.sent_eq
  start := by intro hp; cases hp
  live_mem := h.live_mem
  page := by
    intro rest full hb
    simp only [Subscription.withBatch, Pump.batch.injEq] at hb
    rw [← hb.1, hr.history_eq]
    exact List.take_prefix _ _
  offered := by intro _ hb; cases hb
  ended_last := h.ended_last
  ended_done := fun _ => h.ended_done hp
  registered_of := fun hc _ => h.registered_of hc hp
  awake := by
    intro _ n hn ev hev hlt
    by_cases hfull : defaultEventPage ≤ (r.history s.sent defaultEventPage).length
    · simp [Subscription.withBatch, Pump.frontier, hfull] at hn
    · simp only [Subscription.withBatch, Pump.frontier, hfull, decide_false,
        Option.some.injEq] at hn
      rw [hr.history_eq, List.length_take, List.length_drop] at hn hfull
      obtain ⟨i, hi⟩ := List.mem_iff_getElem?.mp hev
      have hseq := hr.seq_eq i ev hi
      have hlen := (List.getElem?_eq_some_iff.mp hi).1
      omega

/-- The event behind the last one sent goes out. -/
theorem Inv.send (hr : r.WF) (h : s.Inv r P) {next : Pump} (hp : s.pump ≠ .done)
    (hev : r.rows[s.sent.toNat]? = some ev)
    (hpage : ∀ rest full, next = .batch rest full → rest <+: r.rows.drop (s.sent.toNat + 1))
    (hoffer : ∀ e, next ≠ .offer e) (hfirst : next ≠ .first)
    (hawake : s.closed = false → ∀ n, next.frontier ev.seq = some n → ∀ e ∈ r.rows, n < e.seq →
      e ∈ s.live ∨ s.stale = true ∨ P e) : (s.send ev next).Inv r P := by
  have hseq : ev.seq = s.sent.toNat + 1 := hr.seq_eq _ _ hev
  have hgot : s.got ++ [ev] <+: r.rows.drop s.afterSeq.toNat := by
    obtain ⟨t, ht⟩ := h.got_prefix
    have hn := h.sent_toNat hr
    rw [hn, ← List.getElem?_drop, ← ht, List.getElem?_append_right le_rfl, Nat.sub_self] at hev
    cases t with
    | nil => cases hev
    | cons e t =>
      obtain rfl : e = ev := by simpa using hev
      exact ⟨t, by rw [← ht]; simp⟩
  have hold := h.ended_done hp
  have base : ∀ pump, (∀ rest full, pump = .batch rest full →
      rest <+: r.rows.drop (s.sent.toNat + 1)) → (∀ e, pump ≠ .offer e) → pump ≠ .first →
      (pump ≠ .done → ev.payload.isSessionEnded = false) →
      (s.closed = false → ∀ n, pump.frontier ev.seq = some n → ∀ e ∈ r.rows, n < e.seq →
        e ∈ s.live ∨ s.stale = true ∨ P e) → ∀ reg, (pump ≠ .done → s.closed = false → reg = true) →
      ({ s with sent := ev.seq, got := s.got ++ [ev], pump := pump, registered := reg } :
        Subscription).Inv r P := by
    intro pump hb ho hf he ha reg hreg
    refine ⟨hgot, by simp [lastSent], fun hpf => absurd hpf hf, h.live_mem, ?_,
      fun e hpe => absurd hpe (ho e), ?_, ?_, fun hc hd => hreg hd hc, ha⟩
    · intro rest full hpump
      have hpos : ev.seq.toNat = s.sent.toNat + 1 := by omega
      simpa only [hpos] using hb rest full hpump
    · intro e hmem
      rw [List.dropLast_concat] at hmem
      exact hold e hmem
    · intro hd e hmem
      rcases List.mem_append.mp hmem with hmem | hmem
      · exact hold e hmem
      · rw [List.mem_singleton.mp hmem]
        exact he hd
  unfold Subscription.send
  by_cases hend : ev.payload.isSessionEnded = true
  · simp only [hend, if_true]
    exact base .done (by intro _ _ hb; cases hb) (by intro _ hb; cases hb) Pump.noConfusion
      (fun hd => absurd rfl hd) (by intro _ _ hn; cases hn) false (fun hd => absurd rfl hd)
  · simp only [hend, Bool.false_eq_true, if_false]
    exact base next hpage hoffer hfirst (fun _ => by simpa using hend) hawake s.registered
      (fun _ hc => h.registered_of hc hp)

/-- A step that leaves what was sent alone. -/
theorem Inv.goto (h : s.Inv r P) (pump : Pump) (hp : s.pump ≠ .done) {stale : Bool}
    {live : List Event} (hfirst : pump ≠ .first) (hlive : ∀ ev ∈ live, ev ∈ r.rows)
    (hpage : ∀ rest full, pump = .batch rest full → rest <+: r.rows.drop s.sent.toNat)
    (hoffer : ∀ ev, pump = .offer ev → ev ∈ r.rows ∧ ev.seq = s.sent + 1)
    (hawake : s.closed = false → ∀ n, pump.frontier s.sent = some n → ∀ ev ∈ r.rows, n < ev.seq →
      ev ∈ live ∨ stale = true ∨ P ev) :
    ({ s with pump := pump, live := live, stale := stale } : Subscription).Inv r P where
  got_prefix := h.got_prefix
  sent_eq := h.sent_eq
  start := fun hpf => absurd hpf hfirst
  live_mem := hlive
  page := hpage
  offered := hoffer
  ended_last := h.ended_last
  ended_done := fun _ => h.ended_done hp
  registered_of := fun hc _ => h.registered_of hc hp
  awake := hawake

/-- `endsAt` answered that the log goes on: the goroutine starts with an empty page. -/
theorem Inv.enterEmpty (hr : r.WF) (h : s.Inv r P) (hp : s.pump = .endsAt) :
    (s.withBatch []).Inv r P := by
  have hd : s.pump ≠ .done := by rw [hp]; exact Pump.noConfusion
  refine h.goto (.batch [] false) hd Pump.noConfusion h.live_mem ?_ (by intro _ hb; cases hb) ?_
  · intro rest full hb
    simp only [Pump.batch.injEq] at hb
    rw [← hb.1]
    exact List.nil_prefix
  · intro hc n hn ev hev hlt
    obtain rfl : (s.sent.toNat : ℤ) = n := by
      simpa [defaultEventPage, Pump.frontier] using hn
    have hpos := hr.seq_pos hev
    exact h.awake hc s.sent (by rw [hp]; rfl) ev hev (by omega)

/-! ### Every step keeps it -/

theorem Inv.step_firstRead (hr : r.WF) (h : s.Inv r P) (hs : s.step r (.firstRead ok) = some s') :
    s'.Inv r P := by
  simp only [Subscription.step] at hs
  split at hs
  case h_2 => cases hs
  case h_1 hp =>
    have hd : s.pump ≠ .done := by rw [hp]; exact Pump.noConfusion
    have hsent : s.afterSeq = s.sent := by rw [h.sent_eq, lastSent, h.start hp]; rfl
    split at hs
    · split at hs
      · -- nothing is stored after `afterSeq`
        rename_i hempty
        cases hs
        refine h.goto .endsAt hd Pump.noConfusion h.live_mem (by intro _ _ hb; cases hb)
          (by intro _ hb; cases hb) ?_
        intro _ n hn ev hev hlt
        obtain rfl : s.sent = n := by simpa [Pump.frontier] using hn
        rw [hsent, hr.history_eq, List.length_take, List.length_drop] at hempty
        obtain ⟨i, hi⟩ := List.mem_iff_getElem?.mp hev
        have hseq := hr.seq_eq i ev hi
        have hlen := (List.getElem?_eq_some_iff.mp hi).1
        simp only [defaultEventPage] at hempty
        omega
      · cases hs
        rw [hsent]
        exact h.withBatch hr hd
    · cases hs
      exact h.finish

theorem Inv.step_endsAtRead (hr : r.WF) (h : s.Inv r P) (hs : s.step r (.endsAtRead ok) = some s') :
    s'.Inv r P := by
  simp only [Subscription.step] at hs
  split at hs
  case h_2 => cases hs
  case h_1 hp =>
    have hempty := h.enterEmpty hr hp
    split at hs
    · split at hs
      · split at hs <;> cases hs
        · exact h.finish
        · exact hempty
      · cases hs
        exact hempty
    · cases hs
      exact h.finish

theorem Inv.step_next (hr : r.WF) (h : s.Inv r P) (hs : s.step r .next = some s') :
    s'.Inv r P := by
  simp only [Subscription.step] at hs
  split at hs
  case h_3 => cases hs
  case h_1 ev rest full hp =>
    -- the page starts right behind what was sent, so nothing in it is skipped
    have hseq := (h.page_head hr hp).2.1
    split at hs
    · omega
    · cases hs
  case h_2 full hp =>
    have hd : s.pump ≠ .done := by rw [hp]; exact Pump.noConfusion
    cases hs
    cases full with
    | true =>
      exact h.goto .read hd Pump.noConfusion h.live_mem (by intro _ _ hb; cases hb)
        (by intro _ hb; cases hb) (by intro _ _ hn; cases hn)
    | false =>
      refine h.goto .live hd Pump.noConfusion h.live_mem (by intro _ _ hb; cases hb)
        (by intro _ hb; cases hb) ?_
      intro hc n hn ev hev hlt
      obtain rfl : s.sent = n := by simpa [Pump.frontier] using hn
      have hpos := hr.seq_pos hev
      exact h.awake hc s.sent.toNat (by rw [hp]; simp [Pump.frontier]) ev hev (by omega)

theorem Inv.step_receive (hr : r.WF) (h : s.Inv r P) (hs : s.step r .receive = some s') :
    s'.Inv r P := by
  simp only [Subscription.step] at hs
  split at hs
  case h_3 => cases hs
  case h_1 ev rest full hp =>
    obtain ⟨hev, hseq, hrest⟩ := h.page_head hr hp
    have hd : s.pump ≠ .done := by rw [hp]; exact Pump.noConfusion
    split at hs
    · cases hs
    · cases hs
      refine h.send hr hd hev ?_ (by intro _ hb; cases hb) Pump.noConfusion ?_
      · intro rest' full' hb
        cases hb
        exact hrest
      · intro hc n hn e he hlt
        cases full with
        | true => cases hn
        | false =>
          obtain rfl : (ev.seq.toNat : ℤ) + rest.length = n := by simpa [Pump.frontier] using hn
          refine h.awake hc _ (by rw [hp]; rfl) e he ?_
          simp only [List.length_cons]
          push_cast
          omega
  case h_2 ev hp =>
    obtain ⟨hmem, hseq⟩ := h.offered ev hp
    have hd : s.pump ≠ .done := by rw [hp]; exact Pump.noConfusion
    have hpos := hr.seq_pos hmem
    cases hs
    refine h.send hr hd ?_ (by intro _ _ hb; cases hb) (by intro _ hb; cases hb)
      Pump.noConfusion ?_
    · have := hr.getElem_of_mem hmem
      rwa [show ev.seq.toNat - 1 = s.sent.toNat by omega] at this
    · intro hc n hn e he hlt
      exact h.awake hc n (by rw [hp]; exact hn) e he hlt

theorem Inv.step_takeLive (h : s.Inv r P) (hs : s.step r .takeLive = some s') :
    s'.Inv r P := by
  simp only [Subscription.step] at hs
  split at hs
  case h_2 => cases hs
  case h_1 ev rest hp hl =>
    have hd : s.pump ≠ .done := by rw [hp]; exact Pump.noConfusion
    have hmem : ev ∈ r.rows := h.live_mem ev (by rw [hl]; exact List.mem_cons_self)
    have hrest : ∀ e ∈ rest, e ∈ r.rows := fun e he =>
      h.live_mem e (by rw [hl]; exact List.mem_cons_of_mem _ he)
    -- only the event that was taken leaves the channel
    have hawake : s.closed = false → ∀ e ∈ r.rows, s.sent < e.seq → e.seq ≠ ev.seq →
        e ∈ rest ∨ s.stale = true ∨ P e := by
      intro hc e he hlt hne
      rcases h.awake hc s.sent (by rw [hp]; rfl) e he hlt with hin | hrest
      · rw [hl] at hin
        rcases List.mem_cons.mp hin with rfl | hin
        · exact absurd rfl hne
        · exact .inl hin
      · exact .inr hrest
    split at hs
    · rename_i hle
      cases hs
      refine h.goto s.pump hd (by rw [hp]; exact Pump.noConfusion) hrest
        (by rw [hp]; intro _ _ hb; cases hb) (by rw [hp]; intro _ hb; cases hb) ?_
      intro hc n hn e he hlt
      obtain rfl : s.sent = n := by simpa [hp, Pump.frontier] using hn
      exact hawake hc e he hlt (by omega)
    · split at hs
      · cases hs
        exact h.goto .read hd Pump.noConfusion hrest (by intro _ _ hb; cases hb)
          (by intro _ hb; cases hb) (by intro _ _ hn; cases hn)
      · rename_i hseq
        simp only [ne_eq, not_not] at hseq
        cases hs
        refine h.goto (.offer ev) hd Pump.noConfusion hrest (by intro _ _ hb; cases hb) ?_ ?_
        · intro e hb
          cases hb
          exact ⟨hmem, hseq⟩
        · intro hc n hn e he hlt
          obtain rfl : ev.seq = n := by simpa [Pump.frontier] using hn
          exact hawake hc e he (by omega) (by omega)

theorem Inv.step_takeStale (h : s.Inv r P) (hs : s.step r .takeStale = some s') :
    s'.Inv r P := by
  simp only [Subscription.step] at hs
  split at hs
  case h_2 => cases hs
  case h_1 hp =>
    have hd : s.pump ≠ .done := by rw [hp]; exact Pump.noConfusion
    split at hs
    · cases hs
      exact h.goto .read hd Pump.noConfusion h.live_mem (by intro _ _ hb; cases hb)
        (by intro _ hb; cases hb) (by intro _ _ hn; cases hn)
    · cases hs

theorem Inv.step_reread (hr : r.WF) (h : s.Inv r P) (hs : s.step r (.reread ok) = some s') :
    s'.Inv r P := by
  simp only [Subscription.step] at hs
  split at hs
  case h_2 => cases hs
  case h_1 hp =>
    have hd : s.pump ≠ .done := by rw [hp]; exact Pump.noConfusion
    split at hs <;> cases hs
    · exact h.withBatch hr hd
    · exact h.finish

theorem Inv.close (h : s.Inv r P) :
    ({ s with closed := true, registered := false } : Subscription).Inv r P :=
  { h with registered_of := fun hc => (by cases hc), awake := fun hc => (by cases hc) }

theorem Inv.step (hr : r.WF) (h : s.Inv r P) {l : Label} (hs : s.step r l = some s') :
    s'.Inv r P := by
  cases l with
  | firstRead ok => exact h.step_firstRead hr hs
  | endsAtRead ok => exact h.step_endsAtRead hr hs
  | next => exact h.step_next hr hs
  | receive => exact h.step_receive hr hs
  | takeLive => exact h.step_takeLive hs
  | takeStale => exact h.step_takeStale hs
  | reread ok => exact h.step_reread hr hs
  | cancel =>
    simp only [Subscription.step] at hs
    split at hs <;> cases hs <;> exact h.finish
  | close =>
    cases hs
    exact h.close

/-- A new subscription. -/
theorem Inv.subscribe (r : Rows) (P : Event → Prop) (a : ℤ) :
    Inv r P { afterSeq := a, sent := a } where
  got_prefix := List.nil_prefix
  sent_eq := rfl
  start := fun _ => rfl
  live_mem := by intro _ hev; cases hev
  page := by intro _ _ hp; cases hp
  offered := by intro _ hp; cases hp
  ended_last := by intro _ hev; cases hev
  ended_done := by intro _ _ hev; cases hev
  registered_of := fun _ _ => rfl
  awake := by intro _ _ hn; cases hn

end Subscription

/-! ## Runs of the machine -/

/-- Some writer has committed the event and not published it. -/
def State.Pending (s : State) (ev : Event) : Prop := ∃ w, ev ∈ s.writers w

/-- The invariant of the machine. -/
structure State.Inv (s : State) : Prop where
  store : s.store.WF
  writers : ∀ w, ∀ ev ∈ s.writers w, ev ∈ s.store.rows
  subs : ∀ i sub, s.subs i = some sub → sub.Inv s.store s.Pending

theorem State.Inv.init : State.Inv {} where
  store := ⟨rfl, by intro i ev h; simp at h⟩
  writers := by intro _ _ h; cases h
  subs := by intro _ _ h; cases h

theorem State.Inv.commit {s s' : State} (h : s.Inv) {w : ℕ} {evs : List (String × Payload)}
    (hs : step s (.commit w evs) = some s') : s'.Inv := by
  simp only [step] at hs
  split at hs
  · rename_i hw
    cases hs
    have hpre := s.store.prefix_insertAll evs
    have hnew : ∀ ev ∈ (s.store.insertAll evs).rows, ev ∉ s.store.rows →
        ev ∈ (s.store.insertAll evs).rows.drop s.store.rows.length := by
      intro ev hev hold
      obtain ⟨t, ht⟩ := hpre
      rw [← ht] at hev ⊢
      rw [List.drop_left]
      exact (List.mem_append.mp hev).resolve_left hold
    refine ⟨h.store.insertAll evs, ?_, ?_⟩
    · intro w' ev hev
      by_cases hww : w' = w
      · subst hww
        simp only [Function.update_self] at hev
        exact List.mem_of_mem_drop hev
      · simp only [Function.update_of_ne hww] at hev
        exact hpre.subset (h.writers w' ev hev)
    · intro i sub hi
      refine (h.subs i sub hi).mono hpre ?_ ?_
      · intro ev hev hold
        exact ⟨w, by simpa only [Function.update_self] using hnew ev hev hold⟩
      · rintro ev ⟨w', hev⟩
        have hww : w' ≠ w := by
          rintro rfl
          rw [hw] at hev
          cases hev
        exact ⟨w', by simpa only [Function.update_of_ne hww] using hev⟩
  · cases hs

theorem State.Inv.publish {s s' : State} (h : s.Inv) {w : ℕ}
    (hs : step s (.publish w) = some s') : s'.Inv := by
  simp only [step] at hs
  split at hs
  case h_2 => cases hs
  case h_1 ev rest hw =>
    cases hs
    refine ⟨h.store, ?_, ?_⟩
    · intro w' e he
      by_cases hww : w' = w
      · subst hww
        simp only [Function.update_self] at he
        exact h.writers w' e (by rw [hw]; exact List.mem_cons_of_mem _ he)
      · simp only [Function.update_of_ne hww] at he
        exact h.writers w' e he
    · intro i sub hi
      simp only [Option.map_eq_some_iff] at hi
      obtain ⟨old, hold, rfl⟩ := hi
      refine (h.subs i old hold).publish (h.writers w ev (by rw [hw]; exact List.mem_cons_self)) ?_
      rintro e ⟨w', he⟩
      by_cases hww : w' = w
      · subst hww
        rw [hw] at he
        rcases List.mem_cons.mp he with rfl | he
        · exact .inl rfl
        · exact .inr ⟨w', by simpa only [Function.update_self] using he⟩
      · exact .inr ⟨w', by simpa only [Function.update_of_ne hww] using he⟩

theorem State.Inv.step {s s' : State} (h : s.Inv) {l : Label} (hs : step s l = some s') :
    s'.Inv := by
  have hupdate : ∀ (i : ℕ) (new : Subscription), new.Inv s.store s.Pending →
      State.Inv { s with subs := Function.update s.subs i (some new) } := by
    intro i new hnew
    refine ⟨h.store, h.writers, ?_⟩
    intro j sub hj
    obtain ⟨rfl, rfl⟩ | ⟨-, hj⟩ := update_eq_some hj
    · exact hnew
    · exact h.subs j sub hj
  cases l with
  | commit w evs => exact h.commit hs
  | publish w => exact h.publish hs
  | subscribe i a =>
    simp only [EventLog.step] at hs
    split at hs <;> cases hs
    exact hupdate i _ (Subscription.Inv.subscribe _ _ a)
  | sub i l =>
    simp only [EventLog.step] at hs
    split at hs
    case h_2 => cases hs
    case h_1 sub hi =>
      simp only [Option.map_eq_some_iff] at hs
      obtain ⟨new, hnew, rfl⟩ := hs
      exact hupdate i new ((h.subs i sub hi).step h.store hnew)

theorem State.Inv.of_reach {s : State} (h : Reach EventLog.step (fun _ _ => True) {} s) : s.Inv :=
  h.invariant State.Inv .init fun hinv _ hs => hinv.step hs

/-! ## The subscription's contract -/

/-- The events sent are consecutive from the first seq after `afterSeq`. -/
theorem Subscription.Inv.got_seq {r : Rows} {P : Event → Prop} {s : Subscription} (hr : r.WF)
    (h : s.Inv r P) {k : ℕ} (hk : s.got[k]? = some ev) : ev.seq = max s.afterSeq 0 + k + 1 := by
  obtain ⟨t, ht⟩ := h.got_prefix
  have hlt := (List.getElem?_eq_some_iff.mp hk).1
  have hrow : (r.rows.drop s.afterSeq.toNat)[k]? = some ev := by
    rw [← ht, List.getElem?_append_left hlt, hk]
  rw [List.getElem?_drop] at hrow
  have := hr.seq_eq _ _ hrow
  omega

/-- A goroutine that waits has sent everything that is stored. -/
theorem Subscription.Inv.caught_up {r : Rows} {P : Event → Prop} {s : Subscription} (h : s.Inv r P)
    (hw : s.Waits) (hP : ∀ ev, ¬ P ev) : ∀ ev ∈ r.rows, ev.seq ≤ s.lastSent := by
  intro ev hev
  obtain ⟨hpump, hlive, hstale, hclosed⟩ := hw
  by_contra hgt
  rw [← h.sent_eq, not_le] at hgt
  rcases h.awake hclosed s.sent (by rw [hpump]; rfl) ev hev hgt with hl | hs | hp
  · rw [hlive] at hl
    cases hl
  · rw [hstale] at hs
    cases hs
  · exact hP ev hp

/-- In every reachable state a subscription has delivered a prefix of the stored events
after `afterSeq`, each once and in order, nothing after `SessionEnded`; and a goroutine
that waits while no writer is between its commit and its publish has missed nothing. -/
theorem subscription_delivers_log {s : State} (h : Reach step (fun _ _ => True) {} s) {i : ℕ}
    {sub : Subscription} (hi : s.subs i = some sub) :
    sub.got <+: s.store.rows.filter (fun ev => sub.afterSeq < ev.seq) ∧
    (∀ (k : ℕ) (ev : Event), sub.got[k]? = some ev → ev.seq = max sub.afterSeq 0 + k + 1) ∧
    (∀ ev ∈ sub.got.dropLast, ev.payload.isSessionEnded = false) ∧
    (sub.Waits → (∀ w, s.writers w = []) →
      ∀ ev ∈ s.store.rows, ev.seq ≤ max sub.afterSeq sub.lastSent) := by
  have hinv := State.Inv.of_reach h
  have hsub := hinv.subs i sub hi
  refine ⟨?_, ?_, hsub.ended_last, ?_⟩
  · rw [hinv.store.filter_eq_drop]
    exact hsub.got_prefix
  · intro k ev hk
    exact hsub.got_seq hinv.store hk
  · intro hw hnone ev hev
    have hP : ∀ ev, ¬ s.Pending ev := by
      rintro e ⟨w, he⟩
      rw [hnone w] at he
      cases he
    exact le_max_of_le_right (hsub.caught_up hw hP ev hev)

/-- A subscription after seq 1 that reads a page, follows a published event and waits. -/
def catchUpRun : List Label :=
  [.commit 0 [("", .agentThought "a"), ("", .agentThought "b")], .publish 0, .subscribe 7 1,
   .publish 0, .sub 7 (.firstRead true), .sub 7 .receive, .sub 7 .next, .sub 7 .takeLive,
   .commit 1 [("t1", .agentThought "c")], .publish 1, .sub 7 .takeLive, .sub 7 .receive]

def catchUpState : State := (exec step {} catchUpRun).getD {}

theorem subscription_delivers_log_catchUp :
    (catchUpState.subs 7).map Subscription.got =
      some [⟨2, "", .agentThought "b"⟩, ⟨3, "t1", .agentThought "c"⟩] ∧
    ∃ sub, catchUpState.subs 7 = some sub ∧ sub.Waits ∧
      sub.got <+: catchUpState.store.rows.filter (fun ev => sub.afterSeq < ev.seq) ∧
      ∀ ev ∈ catchUpState.store.rows, ev.seq ≤ max sub.afterSeq sub.lastSent := by
  have hsub : catchUpState.subs 7 = some
      { afterSeq := 1, pump := .live, sent := 3,
        got := [⟨2, "", .agentThought "b"⟩, ⟨3, "t1", .agentThought "c"⟩] } := by decide
  have h := subscription_delivers_log (Reach.of_exec_getD catchUpRun (by decide)) hsub
  have hw : Subscription.Waits
      { afterSeq := 1, pump := .live, sent := 3,
        got := [⟨2, "", .agentThought "b"⟩, ⟨3, "t1", .agentThought "c"⟩] } :=
    ⟨rfl, rfl, rfl, rfl⟩
  have hwriters : catchUpState.writers = Function.update (Function.update (Function.update
      (Function.update (Function.update (fun _ => []) 0 _) 0 _) 0 []) 1 _) 1 [] := rfl
  have hnone : ∀ w, catchUpState.writers w = [] := by
    intro w
    rw [hwriters]
    by_cases h1 : w = 1 <;> by_cases h0 : w = 0 <;> simp [h0, h1]
  exact ⟨by rw [hsub]; rfl, _, hsub, hw, h.1, h.2.2.2 hw hnone⟩

end AgentOps.EventLog
