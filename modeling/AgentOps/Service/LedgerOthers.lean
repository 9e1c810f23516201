import AgentOps.Service.LedgerSteps

/-!
# What other threads leave to a thread

A thread that is the writer keeps the row and the history of the log to itself: `Keeps` is what
a promised step of another thread leaves as it was.
-/

namespace AgentOps.Service

open AgentOps.Api AgentOps.Link AgentOps.Lib

variable {m m' : Mem} {t u : ℕ}

/-- What a step of another thread leaves to thread `t`. -/
structure Keeps (t : ℕ) (m m' : Mem) : Prop where
  taken : (m'.slot.hist t).taken = (m.slot.hist t).taken
  victim : (m'.slot.hist t).victim = (m.slot.hist t).victim
  own : (m'.slot.owners t).live = (m.slot.owners t).live
  live : ∀ b, (m.slot.owners b).live = true → (m'.slot.owners b).live = true
  ready : ∀ b, (m.slot.owners b).live = true → (m.binds b).ready = true → (m'.binds b).ready = true
  unready : (m'.binds t).ready = (m.binds t).ready
  creator : m.creator = some t → m'.creator = some t
  settled : m.db.row.isSome = true → m.creator = none → m'.creator = none
  row : m.db.row.isSome = true → m'.db.row.isSome = true
  faulty : m.faulty = true → m'.faulty = true
  /-- Only the writer writes. -/
  ledger : Writer t m ∨ m.creator = some t →
    m'.status = m.status ∧ history m'.db.log = history m.db.log
  /-- A launch that becomes ready leaves the log in step with the row. -/
  opened : ∀ b, (m.slot.owners b).live = true → (m.binds b).ready = false →
    (m'.binds b).ready = true → Agrees m'

theorem Idle.keeps (h : Idle m m') (t : ℕ) : Keeps t m m' where
  taken := h.taken t
  victim := h.victim t
  own := h.live t
  live b hb := (h.live b).trans hb
  ready b _ hb := (h.ready b).trans hb
  unready := h.ready t
  creator hc := h.creator.trans hc
  settled _ hc := h.creator.trans hc
  row := by
    rw [row_isSome_iff, row_isSome_iff, h.status]
    exact id
  faulty := h.faulty
  ledger _ := ⟨h.status, h.history⟩
  opened b _ hb hb' := by
    rw [h.ready, hb] at hb'
    cases hb'

theorem Takes.keeps (h : Takes m m' u) (hne : u ≠ t)
    (hc : ∀ v, m.creator = some v → v = u) : Keeps t m m' where
  taken := by rw [h.touches.hist t hne.symm]
  victim := by rw [h.touches.hist t hne.symm]
  own := h.live_iff t
  live b hb := (h.live_iff b).trans hb
  ready b _ hb := (h.ready b).trans hb
  unready := h.ready t
  creator hx := absurd (hc t hx).symm hne
  settled _ _ := h.creator
  row := by
    rw [h.db]
    exact id
  faulty := by
    rw [h.faulty]
    exact id
  ledger _ := ⟨by simp [Mem.status, h.db], by rw [h.db]⟩
  opened b _ hb hb' := by
    rw [h.ready, hb] at hb'
    cases hb'

/-- A write by another thread, which then is the writer. -/
theorem Keeps.written (hinv : LedgerInv m) (hw : Writer u m) (hne : u ≠ t) {db : Db}
    {faulty late : Bool} (hrow : db.row ≠ none) (hfaulty : m.faulty = true → faulty = true) :
    Keeps t m { m with db, faulty, late } where
  taken := rfl
  victim := rfl
  own := rfl
  live _ hb := hb
  ready _ _ hb := hb
  unready := rfl
  creator hc := hc
  settled _ hc := hc
  row _ := Option.isSome_iff_ne_none.mpr hrow
  faulty := hfaulty
  ledger hx := by
    rcases hx with hx | hx
    · exact absurd (hinv.writer_unique hw hx) hne
    · have := hinv.writer_creator hw
      rw [hx] at this
      cases this
  opened b _ hb hb' := by
    rw [hb] at hb'
    cases hb'

/-- The readiness of the binding of another thread changes. -/
theorem Keeps.ready_change (hslot : m'.slot = m.slot) (hdb : m'.db = m.db)
    (hcreator : m'.creator = m.creator) (hfaulty : m'.faulty = m.faulty)
    (hne : ∀ b, b ≠ u → (m'.binds b).ready = (m.binds b).ready)
    (hu : (m.slot.owners u).live = true → (m'.binds u).ready = true ∧ Agrees m) (htu : u ≠ t) :
    Keeps t m m' where
  taken := by rw [hslot]
  victim := by rw [hslot]
  own := by rw [hslot]
  live b hb := by rw [hslot]; exact hb
  ready b hb hr := by
    by_cases hbu : b = u
    · subst hbu
      exact (hu hb).1
    · rw [hne b hbu]
      exact hr
  unready := hne t htu.symm
  creator hc := hcreator.trans hc
  settled _ hc := hcreator.trans hc
  row hr := by rw [hdb]; exact hr
  faulty := by
    rw [hfaulty]
    exact id
  ledger _ := ⟨by simp [Mem.status, hdb], by rw [hdb]⟩
  opened b hb hr hr' := by
    by_cases hbu : b = u
    · subst hbu
      exact (hu hb).2.mono (by rw [hfaulty]; exact id) (by simp [Mem.status, hdb]) (by rw [hdb])
    · rw [hne b hbu, hr] at hr'
      cases hr'

/-- A step on the owner of another thread that is not live, or becomes live. -/
theorem Keeps.touches {s : Slot} (hne : u ≠ t) (htouch : m.slot.Touches s u)
    (hlive : (m.slot.owners u).live = true → (s.owners u).live = true) :
    Keeps t m { m with slot := s } where
  taken := by rw [htouch.hist t hne.symm]
  victim := by rw [htouch.hist t hne.symm]
  own := by rw [htouch.owners t hne.symm]
  live b hb := by
    by_cases hbu : b = u
    · subst hbu
      exact hlive hb
    · rw [htouch.owners b hbu]
      exact hb
  ready _ _ hr := hr
  unready := rfl
  creator hc := hc
  settled _ hc := hc
  row hr := hr
  faulty hf := hf
  ledger _ := ⟨rfl, rfl⟩
  opened b _ hr hr' := by
    rw [hr] at hr'
    cases hr'

theorem slotOp_keeps {op : SlotOp} {r : op.Res} (h : LedgerInv m) (hne : u ≠ t)
    (hgiven : slotPre u m.slot op) (hok : orderly u (.slot op) m)
    (hdo : op.perform u m = some (r, m')) : Keeps t m m' := by
  cases op with
  | claim cancel =>
    cases hdo
    rcases claim_idle_or_takes h hgiven cancel hok rfl with hi | ht
    · exact hi.keeps t
    · exact ht.keeps hne hok
  | detach want spec =>
    have hm : m' = (m.detach u want spec).2 := by rw [Option.some.inj hdo]
    subst hm
    have hc : want = none → m.creator = none := by
      rintro rfl
      exact hok
    rcases detach_idle_or_takes h hgiven want spec hc with hi | ht
    · exact hi.keeps t
    · refine ht.keeps hne fun v hv => ?_
      -- nobody is detached from a session that waits for its creator
      have hentry := (h.created (by rw [hv]; exact Option.some_ne_none v)).1
      by_cases hw : want = none
      · rw [hc hw] at hv
        cases hv
      · have hsame : (m.detach u want spec).2 = m := by
          unfold Mem.detach
          rw [if_pos ⟨Option.isSome_iff_ne_none.mpr hw, by rw [hentry]; exact Ne.symm hw⟩]
        have he := ht.entry
        rw [hsame, hentry] at he
        cases he
  | register =>
    cases hdo
    refine Keeps.touches hne (Slot.register_touches m.slot u) fun hl => ?_
    rw [hgiven.1.live] at hl
    cases hl
  | finish =>
    cases hdo
    refine Keeps.touches hne (Slot.finish_touches m.slot u) fun hl => ?_
    rw [hgiven.live] at hl
    cases hl
  | _ =>
    have hi := SlotOp.perform_idle (by trivial) hdo
    exact hi.keeps t

theorem finishSession_row {d : Db} (h : d.row ≠ none) (now : ℕ) (status : SessionState)
    (events : List (String × Payload)) : (d.finishSession now status events).2.row ≠ none := by
  obtain ⟨r, hr⟩ := Option.ne_none_iff_exists'.mp h
  unfold Db.finishSession
  simp only [hr]
  split
  · rw [hr]
    exact Option.some_ne_none r
  · exact Option.some_ne_none _

theorem storeOp_keeps {op : StoreOp} {c : Choice} {r : op.Res} (h : LedgerInv m) (hne : u ≠ t)
    (hpre : ledgerPre u (.store op) m) (hdo : op.perform u m c = some (r, m')) : Keeps t m m' := by
  cases op with
  | createSession templateSpec =>
    simp only [StoreOp.perform] at hdo
    split at hdo
    · rename_i hc
      cases hdo
      simp only [Bool.and_eq_true, Option.isNone_iff_eq_none] at hc
      have hcreator := (h.absent hc.2).2.1
      refine ⟨rfl, rfl, rfl, fun _ hb => hb, fun _ _ hb => hb, rfl, fun hx => ?_, fun hr => ?_,
        fun _ => rfl, id, fun hx => ?_, fun b _ hb hb' => ?_⟩
      · rw [hcreator] at hx
        cases hx
      · rw [hc.2] at hr
        cases hr
      · rcases hx with hx | hx
        · have := h.writer_row hx
          rw [hc.2] at this
          cases this
        · rw [hcreator] at hx
          cases hx
      · rw [hb] at hb'
        cases hb'
    · cases hdo; exact (Idle.refl m).keeps t
  | update x =>
    have hrow := Option.isSome_iff_ne_none.mp (h.writer_row hpre.1)
    simp only [StoreOp.perform] at hdo
    split at hdo <;> cases hdo
    · refine Keeps.written h hpre.1 hne ?_ id
      simpa [Db.update] using hrow
    · exact (Idle.refl m).keeps t
  | finishSession status events =>
    have hrow := Option.isSome_iff_ne_none.mp (h.writer_row hpre.1)
    simp only [StoreOp.perform] at hdo
    split at hdo <;> cases hdo
    · exact Keeps.written h hpre.1 hne (finishSession_row hrow _ _ _) id
    · exact (Idle.refl m).keeps t
  | recordEvent turnId p =>
    cases hp : stateChange p with
    | none =>
      have hcalm : Op.calm (.store (.recordEvent turnId p)) := ⟨hp, hpre.notEnd⟩
      exact (StoreOp.perform_idle hcalm hdo).keeps t
    | some x =>
      obtain ⟨old, new⟩ := x
      have hw := (hpre.change old new hp).1
      have hrow := h.writer_row hw
      cases hdo
      refine Keeps.written h hw hne ?_ fun hf =>
        recordEvent_faulty_mono hf turnId p 0 c.readOk c.ok
      rw [← Option.isSome_iff_ne_none, ← Option.isSome_map (f := Row.status), recordEvent_status,
        Option.isSome_map]
      exact hrow
  | _ =>
    have hi := StoreOp.perform_idle (by trivial) hdo
    exact hi.keeps t

theorem bindOp_keeps {b : ℕ} {op : BindOp} {c : Choice} {r : op.Res} (hne : u ≠ t)
    (hpre : ledgerPre u (.bind b op) m) (hdo : op.perform u m c b = some (r, m')) :
    Keeps t m m' := by
  cases op with
  | create claimName pod syncing turns =>
    obtain ⟨rfl, hlive⟩ := hpre
    cases hdo
    refine Keeps.ready_change (u := b) rfl rfl rfl rfl (fun w hw => setBind_ready_other hw) ?_ hne
    intro hx
    rw [hlive] at hx
    cases hx
  | closeReady =>
    obtain ⟨rfl, hagrees⟩ := hpre
    cases hdo
    refine Keeps.ready_change (u := b) rfl rfl rfl rfl (fun w hw => setBind_ready_other hw) ?_ hne
    exact fun hx => ⟨by simp [Mem.setBind], hagrees hx⟩
  | recordPod turnId p seq =>
    have hcalm : Op.calm (.bind b (.recordPod turnId p seq)) := hpre
    exact (BindOp.perform_idle hcalm hdo).keeps t
  | record turnId p =>
    have hcalm : Op.calm (.bind b (.record turnId p)) := hpre
    exact (BindOp.perform_idle hcalm hdo).keeps t
  | _ =>
    have hi := BindOp.perform_idle (by trivial) hdo
    exact hi.keeps t

/-- The steps of the others. -/
theorem other_keeps {cfg : Settings} (h : LedgerInv m) (ho : (ledger cfg).Other t m m') :
    Keeps t m m' := by
  cases ho with
  | start u e v _ _ _ hm => exact hm ▸ (Idle.refl m).keeps t
  | env l _ hdo => exact (env_idle hdo).keeps t
  | act u op c r hne hgiven hpre hok hdo =>
    cases op with
    | slot op => exact slotOp_keeps h hne hgiven hok hdo
    | store op => exact storeOp_keeps h hne hpre hdo
    | bind b op => exact bindOp_keeps hne hpre hdo
    | ext op => exact (ExtOp.perform_idle hdo).keeps t
    | note op =>
      have hcalm : Op.calm (.note op) := trivial
      exact (perform_idle (t := u) (c := c) hcalm hdo).keeps t

end AgentOps.Service
