import AgentOps.Service.Ledger

/-!
# Every promised step keeps the ledger

One lemma for each operation that takes or gives up the session or writes its state, and one
for all the others.
-/

namespace AgentOps.Service

open AgentOps.Api AgentOps.Link AgentOps.Lib

variable {st : SessionState} {c : Choice}

variable {m m' : Mem} {t u : ℕ}

/-! ## The invariant -/

theorem Idle.holds (h : Idle m m') (t : ℕ) : Holds t m' ↔ Holds t m := by
  unfold Holds
  rw [h.taken, h.victim]
  simp only [h.live, h.ready]

theorem Idle.activating (h : Idle m m') (t : ℕ) : Activating t m' ↔ Activating t m := by
  unfold Activating
  rw [h.live, h.ready]

theorem Idle.writer (h : Idle m m') (t : ℕ) : Writer t m' ↔ Writer t m :=
  or_congr (h.holds t) (h.activating t)

theorem row_isNone_iff (m : Mem) : m.db.row = none ↔ m.status = none := by
  unfold Mem.status
  cases m.db.row <;> simp

theorem row_isSome_iff (m : Mem) : m.db.row.isSome = true ↔ m.status ≠ none := by
  unfold Mem.status
  cases m.db.row <;> simp

theorem Agrees.mono (h : Agrees m) (hf : m.faulty = true → m'.faulty = true)
    (hs : m'.status = m.status) (hh : history m'.db.log = history m.db.log) : Agrees m' := by
  intro hfaulty
  rw [hs, hh]
  apply h
  by_contra hne
  rw [hf (by simpa using hne)] at hfaulty
  cases hfaulty

theorem Idle.agrees (h : Idle m m') (ha : Agrees m) : Agrees m' :=
  ha.mono h.faulty h.status h.history

/-- A step that leaves the ledger as it is keeps the invariant. -/
theorem LedgerInv.idle (h : LedgerInv m) (hi : Idle m m') (hslot : m'.slot.Inv) : LedgerInv m' where
  slot := hslot
  ends := hi.ends h.ends
  absent := by
    rw [row_isNone_iff, hi.status, ← row_isNone_iff, hi.entry, hi.creator, hi.history]
    exact h.absent
  created := by
    rw [hi.creator, hi.entry, hi.status]
    exact h.created
  activating := by
    intro u hu
    rw [hi.entry]
    simp only [hi.taken, hi.victim]
    exact h.activating u ((hi.activating u).mp hu)
  victim := by
    intro t b
    rw [hi.taken, hi.victim, hi.live]
    exact h.victim t b
  chained := by
    intro hf
    rw [hi.history]
    apply h.chained
    by_contra hne
    rw [hi.faulty (by simpa using hne)] at hf
    cases hf
  rest := by
    intro hc hr hw
    rw [hi.creator] at hc
    rw [row_isSome_iff, hi.status, ← row_isSome_iff] at hr
    exact hi.agrees (h.rest hc hr fun t ht => hw t ((hi.writer t).mpr ht))
  boot hb := hi.faulty (h.boot (hi.boot hb))

/-- Only the owner map changes: thread `u` becomes the entry, in the place of a live owner or
of none. -/
structure Takes (m m' : Mem) (u : ℕ) : Prop where
  unused : m.slot.Unused u
  entry : m'.slot.entry = some u
  taken : (m'.slot.hist u).taken = true
  victim : (m'.slot.hist u).victim = m.slot.entry
  live : (m'.slot.owners u).live = false
  replaced : ∀ o, m.slot.entry = some o → (m.slot.owners o).live = true
  touches : m.slot.Touches m'.slot u
  ready : ∀ b, (m'.binds b).ready = (m.binds b).ready
  db : m'.db = m.db
  creator : m'.creator = none
  faulty : m'.faulty = m.faulty
  late : m'.late = m.late
  boot : m'.boot = m.boot

theorem Takes.live_iff (h : Takes m m' u) (b : ℕ) :
    (m'.slot.owners b).live = (m.slot.owners b).live := by
  by_cases hb : b = u
  · subst hb
    rw [h.live, h.unused.1]
  · rw [h.touches.owners b hb]

theorem Takes.activating (h : Takes m m' u) (t : ℕ) : Activating t m' ↔ Activating t m := by
  unfold Activating
  rw [h.live_iff, h.ready]

/-- A thread that took the session in another's place is the writer, unless the launch that it
stops is. -/
theorem Takes.writer (h : Takes m m' u) : ∃ t, Writer t m' := by
  cases he : m.slot.entry with
  | none =>
    refine ⟨u, .inl ⟨h.taken, fun b hb => ?_⟩⟩
    rw [h.victim, he] at hb
    cases hb
  | some o =>
    have hlive := h.replaced o he
    cases hr : (m.binds o).ready with
    | true =>
      refine ⟨u, .inl ⟨h.taken, fun b hb => ?_⟩⟩
      rw [h.victim, he] at hb
      cases hb
      exact ⟨by rw [h.live_iff]; exact hlive, by rw [h.ready]; exact hr⟩
    | false => exact ⟨o, .inr ((h.activating o).mpr ⟨hlive, hr⟩)⟩

theorem LedgerInv.take (h : LedgerInv m) (hrow : m.db.row.isSome = true) (ht : Takes m m' u)
    (hslot : m'.slot.Inv) : LedgerInv m' where
  slot := hslot
  ends := by
    rw [ht.db, ht.late]
    exact h.ends
  absent := by
    intro hr
    rw [ht.db] at hr
    rw [hr] at hrow
    cases hrow
  created hc := absurd ht.creator hc
  activating := by
    intro w hw
    right
    refine ⟨u, ht.entry, ht.taken, ?_⟩
    rw [ht.victim]
    rcases h.activating w ((ht.activating w).mp hw) with he | ⟨v, he, hv, -⟩
    · exact he
    · -- the old entry is live, so nobody holds the session
      have := (h.slot.taken_entry v hv).2
      rw [ht.replaced v he] at this
      cases this
  victim := by
    intro w b hw hb
    rw [ht.live_iff]
    by_cases hwu : w = u
    · subst hwu
      rw [ht.victim] at hb
      exact ht.replaced b hb
    · rw [ht.touches.hist w hwu] at hw hb
      exact h.victim w b hw hb
  chained := by
    rw [ht.faulty, ht.db]
    exact h.chained
  rest := by
    intro _ _ hw
    obtain ⟨t, htw⟩ := ht.writer
    exact absurd htw (hw t)
  boot := by
    rw [ht.boot, ht.faulty]
    exact h.boot

/-- The readiness of one binding changes: of a launch that is not live, or to ready once the
log is in step with the row. -/
theorem LedgerInv.ready_change (h : LedgerInv m) (hslot : m'.slot = m.slot) (hdb : m'.db = m.db)
    (hcreator : m'.creator = m.creator) (hfaulty : m'.faulty = m.faulty) (hlate : m'.late = m.late)
    (hboot : m'.boot = m.boot)
    (hne : ∀ b, b ≠ u → (m'.binds b).ready = (m.binds b).ready)
    (hu : (m.slot.owners u).live = true → (m'.binds u).ready = true ∧ Agrees m) : LedgerInv m' := by
  have hact : ∀ w, Activating w m' → Activating w m := by
    intro w hw
    unfold Activating at hw
    rw [hslot] at hw
    by_cases hwu : w = u
    · subst hwu
      rw [(hu hw.1).1] at hw
      cases hw.2
    · rw [hne w hwu] at hw
      exact hw
  have hagrees : Agrees m → Agrees m' := fun ha =>
    ha.mono (by rw [hfaulty]; exact id) (by simp [Mem.status, hdb]) (by rw [hdb])
  refine ⟨by rw [hslot]; exact h.slot, by rw [hdb, hlate]; exact h.ends, ?_, ?_, ?_, ?_, ?_, ?_, ?_⟩
  · rw [hdb, hslot, hcreator]
    exact h.absent
  · rw [hslot, hcreator, show m'.status = m.status by simp [Mem.status, hdb]]
    exact h.created
  · intro w hw
    rw [hslot]
    exact h.activating w (hact w hw)
  · rw [hslot]
    exact h.victim
  · rw [hfaulty, hdb]
    exact h.chained
  · intro hc hr hw
    by_cases hlive : (m.slot.owners u).live = true
    · exact hagrees (hu hlive).2
    · -- no writer of before depends on the binding of `u`
      refine hagrees (h.rest (by rwa [hcreator] at hc) (by rwa [hdb] at hr) fun t ht => hw t ?_)
      unfold Writer Holds Activating at ht ⊢
      rw [hslot]
      rcases ht with ht | ht
      · refine .inl ⟨ht.1, fun b hb => ⟨(ht.2 b hb).1, ?_⟩⟩
        rw [hne b fun hbu => hlive (hbu ▸ (ht.2 b hb).1)]
        exact (ht.2 b hb).2
      · refine .inr ⟨ht.1, ?_⟩
        rw [hne t fun htu => hlive (htu ▸ ht.1)]
        exact ht.2
  · rw [hboot, hfaulty]
    exact h.boot

/-! ## The owner map -/

theorem claim_idle_or_takes (h : LedgerInv m) (hu : m.slot.Unused u) (cancel : Bool)
    (hok : ∀ v, m.creator = some v → v = u) {m' : Mem}
    (hm : m' = { m with
      slot := (m.slot.claim u cancel).2
      creator := if m.creator = some u then none else m.creator }) :
    Idle m m' ∨ Takes m m' u := by
  subst hm
  obtain ⟨ho, hh, hne⟩ := hu
  cases he : m.slot.entry with
  | some o =>
    left
    have hc : m.creator = none := by
      by_contra hc
      have := (h.created hc).1
      rw [he] at this
      cases this
    rw [Slot.claim_of_some he]
    refine ⟨rfl, fun _ => rfl, fun _ => rfl, fun w => ?_, fun _ => rfl, ?_, rfl, rfl, id, id, id⟩
    · by_cases hw : w = u
      · subst hw
        simp [ho]
      · simp [hw]
    · simp [hc]
  | none =>
    right
    have hc : (if m.creator = some u then none else m.creator) = none := by
      split
      · rfl
      · rename_i hcu
        by_contra hc
        obtain ⟨v, hv⟩ := Option.ne_none_iff_exists'.mp hc
        exact hcu (by rw [hv, hok v hv])
    have htouch := Slot.claim_touches m.slot u cancel
    rw [Slot.claim_of_none he] at htouch ⊢
    refine ⟨⟨ho, hh, hne⟩, rfl, by simp, by simp [hh, he], by simp, ?_, htouch,
      fun _ => rfl, rfl, hc, rfl, rfl, rfl⟩
    intro o hso
    rw [he] at hso
    cases hso

theorem hold_takes (hu : m.slot.Unused u) (hc : m.creator = none)
    (hlive : ∀ o, m.slot.entry = some o → (m.slot.owners o).live = true) {binds : ℕ → Binding}
    (hready : ∀ b, (binds b).ready = (m.binds b).ready) :
    Takes m { m with slot := m.slot.hold u m.slot.entry, binds } u := by
  refine ⟨hu, rfl, by simp [Slot.hold], by simp [Slot.hold], by simp [Slot.hold], hlive, ⟨?_, ?_⟩,
    hready, rfl, hc, rfl, rfl, rfl⟩
  · intro v hv
    simp [Slot.hold, hv]
  · intro v hv
    simp [Slot.hold, hv]

theorem detachOwned_idle (m : Mem) (o : ℕ) (spec : StopSpec) :
    Idle m { m with slot := (m.slot.detachOwned o spec).2 } := by
  have htouch := Slot.detachOwned_touches m.slot o spec
  refine ⟨Slot.detachOwned_entry .., fun w => ?_, fun w => ?_, fun w => ?_, fun _ => rfl,
    rfl, rfl, rfl, id, id, id⟩
  all_goals
    by_cases hw : w = o
    · subst hw
      unfold Slot.detachOwned
      dsimp only
      split <;> split <;> simp
    · simp only [htouch.hist w hw, htouch.owners w hw]

theorem close_ready {b b' : Binding} {ifIdleFor now : ℕ} (h : b.close ifIdleFor now = some b') :
    b'.ready = b.ready := by
  unfold Binding.close at h
  split at h
  · cases h
  · split at h
    · cases h
    · cases h
      rfl

theorem detach_idle_or_takes (h : LedgerInv m) (hu : m.slot.Unused u) (want : Option ℕ)
    (spec : StopSpec) (hok : want = none → m.creator = none) :
    Idle m (m.detach u want spec).2 ∨ Takes m (m.detach u want spec).2 u := by
  unfold Mem.detach
  split
  · exact .inl (.refl m)
  · rename_i hwant
    cases he : m.slot.entry with
    | none =>
      right
      have hnone : want = none := by
        by_contra hw
        refine hwant ⟨Option.isSome_iff_ne_none.mpr hw, ?_⟩
        rw [he]
        exact Ne.symm hw
      have := hold_takes hu (hok hnone) (fun o ho => by rw [he] at ho; cases ho) fun _ => rfl
      rw [he] at this
      exact this
    | some o =>
      have hc : m.creator = none := by
        by_contra hc
        have := (h.created hc).1
        rw [he] at this
        cases this
      dsimp only
      split
      · rename_i hlive
        split
        · exact .inl (.refl m)
        · rename_i b hb
          right
          have hready : ∀ w, (Function.update m.binds o b w).ready = (m.binds w).ready := by
            intro w
            by_cases hw : w = o
            · subst hw
              simpa using close_ready hb
            · simp [hw]
          have := hold_takes hu hc (fun o' ho => by rw [he] at ho; cases ho; exact hlive) hready
          rw [he] at this
          exact this
      · exact .inl (detachOwned_idle m o spec)

/-- A launch that registers stays the writer until it is ready. -/
theorem LedgerInv.register (h : LedgerInv m) (hholds : Holds u m)
    (hready : (m.binds u).ready = true → Agrees m) (hslot : (m.slot.register u).2.Inv) :
    LedgerInv { m with slot := (m.slot.register u).2 } := by
  have hentry := (h.slot.taken_entry u hholds.1).1
  unfold Slot.register at hslot ⊢
  split
  · exact h
  · rename_i hreg
    rw [if_neg hreg] at hslot
    refine ⟨hslot, h.ends, h.absent, h.created, ?_, ?_, h.chained, ?_, h.boot⟩
    · intro w hw
      by_cases hwu : w = u
      · exact .inl (hwu ▸ hentry)
      · refine (h.holds_not_activating hholds (u := w) ?_).elim
        unfold Activating at hw ⊢
        simpa [hwu] using hw
    · intro w b hw hb
      by_cases hwu : w = u
      · subst hwu
        simp at hw
      · simp only [Slot.note_other _ hwu, Slot.setOwner_hist] at hw
        exact absurd (h.slot.taken_unique hw hholds.1) hwu
    · intro _ _ hw
      refine hready ?_
      by_contra hr
      exact hw u (.inr ⟨by simp, by simpa using hr⟩)

/-- The thread that gives the session up leaves the log in step with the row. -/
theorem LedgerInv.finish (h : LedgerInv m) (hown : m.slot.Own u)
    (hpre : (m.slot.hist u).taken = true → Holds u m ∧ Agrees m)
    (hslot : (m.slot.finish u).2.Inv) : LedgerInv { m with slot := (m.slot.finish u).2 } := by
  have htouch := Slot.finish_touches m.slot u
  unfold Slot.finish at hslot htouch ⊢
  split
  · rename_i spec hstop
    rw [hstop] at hslot htouch
    refine h.idle ⟨rfl, fun w => ?_, fun w => ?_, fun w => ?_, fun _ => rfl, rfl, rfl,
      rfl, id, id, id⟩ hslot
    all_goals
      by_cases hw : w = u
      · subst hw
        simp
      · simp [hw]
  · rename_i hstop
    rw [hstop] at hslot htouch
    by_cases ht : (m.slot.hist u).taken = true
    · -- the session is given up
      obtain ⟨hholds, hagrees⟩ := hpre ht
      have hentry := (h.slot.taken_entry u ht).1
      simp only [hentry, if_true] at hslot htouch ⊢
      refine ⟨hslot, h.ends, fun hr => ⟨rfl, (h.absent hr).2⟩, fun hc => ⟨rfl, (h.created hc).2⟩,
        ?_, ?_, h.chained, fun _ _ _ => hagrees, h.boot⟩
      · intro w hw
        refine (h.holds_not_activating hholds (u := w) ?_).elim
        unfold Activating at hw ⊢
        by_cases hwu : w = u
        · subst hwu
          simpa using hw
        · simpa [hwu] using hw
      · intro w b hw hb
        by_cases hwu : w = u
        · subst hwu
          simp at hw
        · have hhist := htouch.hist w hwu
          rw [hhist] at hw
          exact absurd (h.slot.taken_unique hw ht) hwu
    · -- the owner never was in the map
      have hentry : m.slot.entry ≠ some u := by
        rcases hown.held with hx | hx
        · exact absurd hx ht
        · exact hx.1
      simp only [hentry, if_false] at hslot htouch ⊢
      refine h.idle ⟨rfl, fun w => ?_, fun w => ?_, fun w => ?_, fun _ => rfl, rfl, rfl,
        rfl, id, id, id⟩ hslot
      all_goals
        by_cases hw : w = u
        · subst hw
          simp [ht]
        · simp [hw]

/-! ## The row and the log -/

theorem LedgerInv.createSession (h : LedgerInv m) (hrow : m.db.row = none) (r : Row)
    (hr : r.status = .pending) :
    LedgerInv { m with db := { m.db with row := some r }, creator := some u } := by
  obtain ⟨hentry, hcreator, hhist⟩ := h.absent hrow
  have hopen : m.db.terminal = false := by simp [Db.terminal, hrow]
  refine ⟨h.slot, ⟨by simp [hr], fun _ => h.ends.running hopen, ?_⟩, ?_,
    fun _ => ⟨hentry, by simp [Mem.status, hr]⟩, h.activating, h.victim, h.chained, ?_, h.boot⟩
  · simp [Db.terminal, hr, SessionState.terminal, SessionState.live]
  · intro hx
    cases hx
  · intro hx
    cases hx

/-- A write by the writer. -/
theorem LedgerInv.written (h : LedgerInv m) (hw : Writer u m) {db : Db} {faulty late : Bool}
    (hrow : db.row ≠ none) (hends : db.EndInv late) (hfaulty : m.faulty = true → faulty = true)
    (hchain : faulty = false → Chained (history db.log)) :
    LedgerInv { m with db, faulty, late } :=
  ⟨h.slot, hends, fun hx => absurd hx hrow, fun hc => absurd (h.writer_creator hw) hc, h.activating,
    h.victim, hchain, fun _ _ hx => absurd hw (hx u), fun hb => hfaulty (h.boot hb)⟩

theorem Update.apply_status (x : Update) (now : ℕ) (r : Row) :
    (x.apply now r).status = x.target.getD r.status := by
  cases x <;> rfl

theorem status_ne_unspecified (h : st.terminal = false) : st ≠ .unspecified := by
  rintro rfl
  cases h

theorem LedgerInv.update (h : LedgerInv m) (hw : Writer u m) (hopen : m.db.terminal = false)
    {x : Update} (hx : ∀ st, x.target = some st → st.terminal = false) (now : ℕ) :
    LedgerInv { m with db := m.db.update (x.apply now) } := by
  have hrow := h.writer_row hw
  obtain ⟨r, hr⟩ := Option.isSome_iff_exists.mp hrow
  have hstatus : r.status.terminal = false := by
    simpa [Db.terminal, hr] using hopen
  have hnew : (x.apply now r).status.terminal = false := by
    rw [Update.apply_status]
    cases ht : x.target with
    | none => exact hstatus
    | some st => exact hx st ht
  refine h.written hw (by simp [Db.update, hr]) ⟨?_, fun _ => h.ends.running hopen, ?_⟩ id h.chained
  · simpa [Db.update, hr] using status_ne_unspecified hnew
  · intro ht
    simp [Db.update, Db.terminal, hr, hnew] at ht

theorem isFinal_eq_terminal (h : st ≠ .unspecified) : isFinal st = st.terminal := by
  cases st <;> first | rfl | exact absurd rfl h

theorem isFinal.terminal (h : isFinal st = true) : st.terminal = true := by
  cases st <;> first | rfl | cases h

theorem history_insertAll_plain (log : EventLog.Rows) {evs : List (String × Payload)}
    (h : ∀ e ∈ evs, ordinary e.2) : history (log.insertAll evs) = history log := by
  induction evs generalizing log with
  | nil => rfl
  | cons ev evs ih =>
    rw [EventLog.Rows.insertAll, List.foldl_cons]
    refine (ih _ fun e he => h e (List.mem_cons_of_mem _ he)).trans ?_
    rw [history_insert, (h ev List.mem_cons_self).1]
    simp

theorem rows_insertAll (log : EventLog.Rows) (evs : List (String × Payload)) :
    ∃ new, (log.insertAll evs).rows = log.rows ++ new ∧
      new.map Event.payload = evs.map Prod.snd := by
  induction evs generalizing log with
  | nil => exact ⟨[], by simp [EventLog.Rows.insertAll]⟩
  | cons ev evs ih =>
    obtain ⟨new, hnew, hmap⟩ := ih (log.insert ev)
    refine ⟨⟨log.eventSeq + 1, ev.1, ev.2⟩ :: new, ?_, by simp [hmap]⟩
    rw [EventLog.Rows.insertAll, List.foldl_cons]
    refine hnew.trans ?_
    simp [EventLog.Rows.insert]

theorem insertAll_append (log : EventLog.Rows) (xs ys : List (String × Payload)) :
    log.insertAll (xs ++ ys) = (log.insertAll xs).insertAll ys := by
  simp [EventLog.Rows.insertAll]

/-- The final write, once. -/
theorem LedgerInv.finishSession (h : LedgerInv m) (hw : Writer u m) {status : SessionState}
    {events : List (String × Payload)} (hpre : FinalWrite m status events) (now : ℕ) :
    LedgerInv { m with db := (m.db.finishSession now status events).2 } := by
  obtain ⟨r, hr⟩ := Option.isSome_iff_exists.mp (h.writer_row hw)
  have hknown : r.status ≠ .unspecified := fun hx => h.ends.known (by simp [hr, hx])
  unfold Db.finishSession
  simp only [hr]
  cases hfinal : isFinal r.status with
  | true => simpa using h
  | false =>
    rw [if_neg Bool.false_ne_true]
    obtain ⟨hst, before, old, reason, ending, detail, hplain, rfl, hold⟩ := hpre
    have hopen : m.db.terminal = false := by
      simp [Db.terminal, hr, ← isFinal_eq_terminal hknown, hfinal]
    have hne : status ≠ .unspecified := by
      rintro rfl
      cases hst
    have hterminal : status.terminal = true := by rw [← isFinal_eq_terminal hne]; exact hst
    refine h.written hw nofun ⟨by simpa using hne, ?_, fun _ => ?_⟩ id ?_
    · simp [Db.terminal, hterminal]
    · -- the log was open, so the end is the last event and the only one of its kind
      obtain ⟨new, hrows, hnew⟩ := rows_insertAll m.db.log
        (before ++ [("", .stateChanged old status reason), ("", .sessionEnded ending detail)])
      obtain ⟨init, last, rfl⟩ : ∃ init last, new = init ++ [last] := by
        rcases List.eq_nil_or_concat new with hx | ⟨init, last, hx⟩
        · rw [hx] at hnew
          simp at hnew
        · exact ⟨init, last, by rw [hx, List.concat_eq_append]⟩
      simp only [List.map_append, List.map_cons, List.map_nil] at hnew
      rw [show [Payload.stateChanged old status reason, Payload.sessionEnded ending detail] =
        [Payload.stateChanged old status reason] ++ [Payload.sessionEnded ending detail] from rfl,
        ← List.append_assoc] at hnew
      obtain ⟨hinit, hlast⟩ := List.append_inj' hnew rfl
      refine ⟨m.db.log.rows ++ init, last, [], by rw [hrows, List.append_assoc], ?_, ?_,
        fun _ => rfl⟩
      · rw [List.cons.inj hlast |>.1]
        rfl
      · intro e he
        rw [List.append_nil] at he
        rcases List.mem_append.mp he with he | he
        · exact h.ends.running hopen e he
        · have hmem : e.payload ∈ init.map Event.payload := List.mem_map_of_mem he
          rw [hinit, List.mem_append] at hmem
          rcases hmem with hmem | hmem
          · obtain ⟨e', he', heq⟩ := List.mem_map.mp hmem
            rw [← heq]
            exact (hplain e' he').2
          · rw [List.mem_singleton.mp hmem]
            rfl
    · intro hf
      rw [insertAll_append]
      show Chained (history (((m.db.log.insertAll before).insert _).insert _))
      rw [history_insert, history_insert, history_insertAll_plain _ hplain]
      simp only [stateChange, Option.toList_some, Option.toList_none, List.append_nil]
      exact (h.chained hf).snoc (hold hf).2.symm

/-- The event of a state change by the writer. -/
theorem LedgerInv.recordChange (h : LedgerInv m) (hw : Writer u m) (hopen : m.db.terminal = false)
    {p : Payload} {old new : SessionState} (hp : stateChange p = some (old, new))
    (hend : p.isSessionEnded = false)
    (hold : m.faulty = false → reached (history m.db.log) = old) (turnId : String)
    (readOk ok : Bool) : LedgerInv (m.recordEvent turnId p 0 readOk ok).2 := by
  have hlog := recordEvent_log m.db turnId p 0 readOk ok
  have hstatus := recordEvent_status m.db turnId p 0 readOk ok
  refine h.written hw ?_ (h.ends.of_log hstatus 
    (fun hl => recordEvent_late_mono hl turnId p 0 readOk ok) ?_) ?_ ?_
  · intro hx
    have hnone : m.db.row.map Row.status = none := by rw [← hstatus, hx]; rfl
    rw [Option.map_eq_none_iff] at hnone
    have := h.writer_row hw
    rw [hnone] at this
    cases this
  · refine hlog.imp id fun hx => ⟨fun ht => ?_, (turnId, p), hend, hx.2⟩
    rw [hopen] at ht
    cases ht
  · exact fun hf => recordEvent_faulty_mono hf turnId p 0 readOk ok
  · intro hf
    have hm : m.faulty = false := by
      cases hx : m.faulty with
      | false => rfl
      | true => rw [hx] at hf; cases hf
    rcases hlog with hlog | ⟨_, hlog⟩
    · rw [hlog]
      exact h.chained hm
    · rw [hlog, history_insert, hp]
      exact (h.chained hm).snoc (hold hm).symm

/-! ## All steps -/

theorem setBind_ready_other {b : ℕ} {f : Binding → Binding} (hu : u ≠ b) :
    ((m.setBind b f).binds u).ready = (m.binds u).ready := by
  simp [Mem.setBind, hu]

/-- The operations that are not calm, one by one. -/
theorem LedgerInv.slotOp {op : SlotOp} {r : op.Res} (h : LedgerInv m)
    (hgiven : slotPre u m.slot op) (hpre : ledgerPre u (.slot op) m)
    (hok : orderly u (.slot op) m) (hdo : op.perform u m = some (r, m')) : LedgerInv m' := by
  have hslot := slot_inv h.slot hgiven hdo
  cases op with
  | claim cancel =>
    cases hdo
    rcases claim_idle_or_takes h hgiven cancel hok rfl with hi | ht
    · exact h.idle hi hslot
    · exact h.take hpre ht hslot
  | detach want spec =>
    have hm : m' = (m.detach u want spec).2 := by rw [Option.some.inj hdo]
    subst hm
    by_cases hw : want = none
    · subst hw
      rcases detach_idle_or_takes h hgiven none spec fun _ => hok with hi | ht
      · exact h.idle hi hslot
      · exact h.take (hpre rfl) ht hslot
    · rcases detach_idle_or_takes h hgiven want spec fun hx => absurd hx hw with hi | ht
      · exact h.idle hi hslot
      · refine h.take ?_ ht hslot
        by_contra hrow
        -- without a row there is no entry, so nothing is detached
        have hentry := (h.absent (by simpa using hrow)).1
        have : (m.detach u want spec).2 = m := by
          unfold Mem.detach
          rw [if_pos ⟨Option.isSome_iff_ne_none.mpr hw, by rw [hentry]; exact Ne.symm hw⟩]
        have he := ht.entry
        rw [this, hentry] at he
        cases he
  | register => cases hdo; exact h.register hpre.1 hpre.2 hslot
  | finish => cases hdo; exact h.finish hgiven hpre hslot
  | _ =>
    have hi := SlotOp.perform_idle (by trivial) hdo
    exact h.idle hi hslot

theorem LedgerInv.storeOp {op : StoreOp} {r : op.Res} (h : LedgerInv m)
    (hpre : ledgerPre u (.store op) m) (hdo : op.perform u m c = some (r, m')) : LedgerInv m' := by
  cases op with
  | createSession templateSpec =>
    simp only [StoreOp.perform] at hdo
    split at hdo
    · rename_i hc
      cases hdo
      simp only [Bool.and_eq_true, Option.isNone_iff_eq_none] at hc
      exact h.createSession hc.2 _ rfl
    · cases hdo; exact h
  | update x =>
    simp only [StoreOp.perform] at hdo
    split at hdo <;> cases hdo
    · exact h.update hpre.1 hpre.2.1 hpre.2.2 _
    · exact h
  | finishSession status events =>
    simp only [StoreOp.perform] at hdo
    split at hdo <;> cases hdo
    · exact h.finishSession hpre.1 hpre.2 _
    · exact h
  | recordEvent turnId p =>
    cases hp : stateChange p with
    | none =>
      have hcalm : Op.calm (.store (.recordEvent turnId p)) := ⟨hp, hpre.notEnd⟩
      have hi := StoreOp.perform_idle hcalm hdo
      exact h.idle hi (by rw [StoreOp.perform_slot hdo]; exact h.slot)
    | some x =>
      obtain ⟨old, new⟩ := x
      obtain ⟨hw, hopen, hold⟩ := hpre.change old new hp
      cases hdo
      exact h.recordChange hw hopen hp hpre.notEnd (fun hf => (hold hf).2) ..
  | _ =>
    have hi := StoreOp.perform_idle (by trivial) hdo
    exact h.idle hi (by rw [StoreOp.perform_slot hdo]; exact h.slot)

theorem LedgerInv.bindOp {b : ℕ} {op : BindOp} {r : op.Res} (h : LedgerInv m)
    (hpre : ledgerPre u (.bind b op) m) (hdo : op.perform u m c b = some (r, m')) :
    LedgerInv m' := by
  cases op with
  | create claimName pod syncing turns =>
    obtain ⟨rfl, hlive⟩ := hpre
    cases hdo
    refine h.ready_change (u := b) rfl rfl rfl rfl rfl rfl (fun w hw => setBind_ready_other hw) ?_
    intro hx
    rw [hlive] at hx
    cases hx
  | closeReady =>
    obtain ⟨rfl, hagrees⟩ := hpre
    cases hdo
    refine h.ready_change (u := b) rfl rfl rfl rfl rfl rfl (fun w hw => setBind_ready_other hw) ?_
    exact fun hx => ⟨by simp [Mem.setBind], hagrees hx⟩
  | recordPod turnId p seq =>
    have hcalm : Op.calm (.bind b (.recordPod turnId p seq)) := hpre
    have hi := BindOp.perform_idle hcalm hdo
    exact h.idle hi (by rw [BindOp.perform_slot hdo]; exact h.slot)
  | record turnId p =>
    have hcalm : Op.calm (.bind b (.record turnId p)) := hpre
    have hi := BindOp.perform_idle hcalm hdo
    exact h.idle hi (by rw [BindOp.perform_slot hdo]; exact h.slot)
  | _ =>
    have hi := BindOp.perform_idle (by trivial) hdo
    exact h.idle hi (by rw [BindOp.perform_slot hdo]; exact h.slot)

theorem LedgerInv.act (cfg : Settings) {op : Op} {r : op.Res} (h : LedgerInv m)
    (hgiven : (protocol cfg).pre u op m) (hpre : ledgerPre u op m) (hok : orderly u op m)
    (hdo : perform u op m c = some (r, m')) : LedgerInv m' := by
  cases op with
  | slot op => exact h.slotOp hgiven hpre hok hdo
  | store op => exact h.storeOp hpre hdo
  | bind b op => exact h.bindOp hpre hdo
  | ext op =>
    have hslot := perform_slot (by trivial) hdo
    exact h.idle (perform_idle (by trivial) hdo) (by rw [hslot]; exact h.slot)
  | note op => exact h.idle (perform_idle (by trivial) hdo) (by rw [note_slot hdo]; exact h.slot)

theorem LedgerInv.env {l : EnvStep} (h : LedgerInv m) (hdo : env m l = some m') : LedgerInv m' :=
  h.idle (env_idle hdo) (by rw [env_slot hdo]; exact h.slot)

theorem LedgerInv.crash (h : LedgerInv m) : LedgerInv (crash m) where
  slot := slot_inv_empty
  ends := h.ends
  absent hr := ⟨rfl, rfl, (h.absent hr).2.2⟩
  created hc := absurd rfl hc
  activating u hu := by cases hu.1
  victim t b ht := by cases ht
  chained hf := by cases hf
  rest _ _ _ hf := by cases hf
  boot _ := rfl

/-! ## A final status stays -/

/-- A promised step leaves the status of a session that is over as it is. -/
theorem act_final {op : Op} {r : op.Res} (h : LedgerInv m) (hover : m.db.terminal = true)
    (hpre : ledgerPre t op m) (hdo : perform t op m c = some (r, m')) : m'.status = m.status := by
  cases op with
  | slot op =>
    obtain ⟨slot, binds, creator, rfl⟩ := SlotOp.perform_eq hdo
    rfl
  | store op =>
    cases op with
    | createSession templateSpec =>
      simp only [perform, StoreOp.perform] at hdo
      split at hdo
      · rename_i hc
        simp only [Bool.and_eq_true, Option.isNone_iff_eq_none] at hc
        simp [Db.terminal, hc.2] at hover
      · cases hdo; rfl
    | update x =>
      rw [hpre.2.1] at hover
      cases hover
    | finishSession status events =>
      simp only [perform, StoreOp.perform] at hdo
      split at hdo <;> cases hdo
      · obtain ⟨row, hrow⟩ := Option.isSome_iff_exists.mp (h.writer_row hpre.1)
        have hknown : row.status ≠ .unspecified := fun hx => h.ends.known (by simp [hrow, hx])
        have hfinal : isFinal row.status = true := by
          rw [isFinal_eq_terminal hknown]
          simpa [Db.terminal, hrow] using hover
        simp [Mem.status, Db.finishSession, hrow, hfinal]
      · rfl
    | recordEvent turnId p => cases hdo; exact recordEvent_status ..
    | _ => exact (perform_idle (by trivial) hdo).status
  | ext op => exact (ExtOp.perform_idle hdo).status
  | bind b op =>
    cases op with
    | create | closeReady => cases hdo; rfl
    | recordPod turnId p seq =>
      have hcalm : Op.calm (.bind b (.recordPod turnId p seq)) := hpre
      exact (perform_idle hcalm hdo).status
    | record turnId p =>
      have hcalm : Op.calm (.bind b (.record turnId p)) := hpre
      exact (perform_idle hcalm hdo).status
    | _ => exact (perform_idle (by trivial) hdo).status
  | note op =>
    have hcalm : Op.calm (.note op) := trivial
    exact (perform_idle (t := t) (c := c) hcalm hdo).status

end AgentOps.Service
