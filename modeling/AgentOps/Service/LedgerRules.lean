import AgentOps.Service.LedgerOthers

/-!
# Rules for programs that keep the ledger

What a thread knows about the state while it is the writer (`Writes`): the stored status and
the state that the log leads to. A state write moves the one, the event after it the other,
and a thread gives the session up only when they are the same.
-/

namespace AgentOps.Service

open AgentOps.Api AgentOps.Link AgentOps.Lib

variable {A : Mem → Prop}

/-! ## What a writer knows -/

/-- How a thread is the writer: it holds the session, or it is a launch that is not ready. -/
inductive Role
  | holding
  | activating

def Role.Has : Role → ℕ → Mem → Prop
  | .holding => Holds
  | .activating => Activating

theorem Role.Has.writer {ρ : Role} {t : ℕ} {m : Mem} (h : ρ.Has t m) : Writer t m := by
  cases ρ with
  | holding => exact .inl h
  | activating => exact .inr h

/-- A step that leaves the owner map and the bindings alone. -/
theorem Role.Has.same {ρ : Role} {t : ℕ} {m m' : Mem} (h : ρ.Has t m) (hslot : m'.slot = m.slot)
    (hbinds : m'.binds = m.binds) : ρ.Has t m' := by
  cases ρ with
  | holding =>
    change Holds t m at h
    show Holds t m'
    unfold Holds at h ⊢
    rw [hslot, hbinds]
    exact h
  | activating =>
    change Activating t m at h
    show Activating t m'
    unfold Activating at h ⊢
    rw [hslot, hbinds]
    exact h

/-- Thread `t` is the writer; the stored status is `x`, and the log leads to `y`. -/
structure Writes (ρ : Role) (t : ℕ) (x y : SessionState) (m : Mem) : Prop where
  role : ρ.Has t m
  state : m.faulty = false → m.status = some x ∧ reached (history m.db.log) = y

/-- The session is not over, either. -/
def WritesOpen (ρ : Role) (t : ℕ) (x y : SessionState) (m : Mem) : Prop :=
  Writes ρ t x y m ∧ m.db.terminal = false

/-- The log leads to the stored status. -/
def Synced (ρ : Role) (t : ℕ) (m : Mem) : Prop := ∃ x, Writes ρ t x x m

/-- Thread `t` inserted the row and has not claimed the session yet. -/
def Creating (t : ℕ) (m : Mem) : Prop :=
  m.creator = some t ∧ m.status = some .pending ∧ reached (history m.db.log) = .unspecified

/-- Thread `t` holds the session in the place of the live binding `b`. -/
structure Stopping (t b : ℕ) (m : Mem) : Prop where
  taken : (m.slot.hist t).taken = true
  victim : (m.slot.hist t).victim = some b
  live : (m.slot.owners b).live = true
  agrees : (m.binds b).ready = true → Agrees m

/-- Nothing is known. -/
def Anything (_ : Mem) : Prop := True

/-- The session was created. -/
def RowSeen (m : Mem) : Prop := m.db.row.isSome = true

/-- The session was created, and its creator claimed it. -/
def Settled (m : Mem) : Prop := m.db.row.isSome = true ∧ m.creator = none

/-- Thread `t` holds the session after a restart. -/
def Restarted (t : ℕ) (m : Mem) : Prop := Holds t m ∧ m.faulty = true

variable {cfg : Settings} {t : ℕ} {ρ : Role} {x y : SessionState} {α : Type} {m m' : Mem}

variable {p : P α}

theorem synced_iff : Synced ρ t m ↔ ρ.Has t m ∧ Agrees m := by
  constructor
  · rintro ⟨x, h⟩
    refine ⟨h.role, fun hf => ?_⟩
    rw [(h.state hf).1, (h.state hf).2]
  · intro h
    exact ⟨reached (history m.db.log), h.1, fun hf => ⟨h.2 hf, rfl⟩⟩

theorem Restarted.writes (h : Restarted t m) (x y : SessionState) : Writes .holding t x y m :=
  ⟨h.1, fun hf => by rw [h.2] at hf; cases hf⟩

theorem Restarted.synced (h : Restarted t m) : Synced .holding t m := ⟨.pending, h.writes _ _⟩

theorem Stopping.holds {b : ℕ} (h : Stopping t b m) (hready : (m.binds b).ready = true) :
    Holds t m := by
  refine ⟨h.taken, fun b' hb' => ?_⟩
  rw [h.victim] at hb'
  cases hb'
  exact ⟨h.live, hready⟩

/-! ## What lasts -/

/-- Other threads cannot make `A` false. -/
def Lasting (t : ℕ) (A : Mem → Prop) : Prop := ∀ m m', Keeps t m m' → A m → A m'

theorem Keeps.not_faulty (h : Keeps t m m') (hf : m'.faulty = false) : m.faulty = false := by
  by_contra hne
  rw [h.faulty (by simpa using hne)] at hf
  cases hf

theorem Keeps.role (h : Keeps t m m') (hr : ρ.Has t m) : ρ.Has t m' := by
  cases ρ with
  | holding =>
    refine ⟨h.taken.trans hr.1, fun b hb => ?_⟩
    rw [h.victim] at hb
    obtain ⟨hlive, hready⟩ := hr.2 b hb
    exact ⟨h.live b hlive, h.ready b hlive hready⟩
  | activating => exact ⟨h.own.trans hr.1, h.unready.trans hr.2⟩

theorem lasting_anything : Lasting t Anything := fun _ _ _ _ => trivial

theorem lasting_writes : Lasting t (Writes ρ t x y) := by
  intro m m' hk h
  obtain ⟨hs, hh⟩ := hk.ledger (.inl h.role.writer)
  refine ⟨hk.role h.role, fun hf => ?_⟩
  rw [hs, hh]
  exact h.state (hk.not_faulty hf)

theorem lasting_writesOpen : Lasting t (WritesOpen ρ t x y) := by
  intro m m' hk h
  refine ⟨lasting_writes m m' hk h.1, ?_⟩
  obtain ⟨hs, -⟩ := hk.ledger (.inl h.1.role.writer)
  rw [Db.terminal_eq, show m'.db.row.map Row.status = m.db.row.map Row.status from hs,
    ← Db.terminal_eq]
  exact h.2

theorem lasting_synced : Lasting t (Synced ρ t) :=
  fun m m' hk ⟨x, h⟩ => ⟨x, lasting_writes m m' hk h⟩

theorem lasting_creating : Lasting t (Creating t) := by
  intro m m' hk h
  obtain ⟨hs, hh⟩ := hk.ledger (.inr h.1)
  exact ⟨hk.creator h.1, hs.trans h.2.1, by rw [hh]; exact h.2.2⟩

theorem lasting_stopping (b : ℕ) : Lasting t (Stopping t b) := by
  intro m m' hk h
  refine ⟨hk.taken.trans h.taken, hk.victim.trans h.victim, hk.live b h.live, fun hr => ?_⟩
  cases hready : (m.binds b).ready with
  | false => exact hk.opened b h.live hready hr
  | true =>
    -- the launch was ready, so this thread is the writer
    obtain ⟨hs, hh⟩ := hk.ledger (.inl (.inl (h.holds hready)))
    exact (h.agrees hready).mono hk.faulty hs hh

theorem lasting_rowSeen : Lasting t RowSeen := fun _ _ hk h => hk.row h

theorem lasting_settled : Lasting t Settled :=
  fun _ _ hk h => ⟨hk.row h.1, hk.settled h.1 h.2⟩

theorem lasting_restarted : Lasting t (Restarted t) := by
  intro m m' hk h
  have hrole : Role.holding.Has t m := h.1
  exact ⟨hk.role hrole, hk.faulty h.2⟩

theorem lasting_unready (hA : Lasting t A) : Lasting t fun m => A m ∧ (m.binds t).ready = false :=
  fun m m' hk h => ⟨hA m m' hk h.1, hk.unready.trans h.2⟩

theorem Lasting.stable (hA : Lasting t A) : (ledger cfg).Stable t A :=
  fun _ _ hinv _ ho h => hA _ _ (other_keeps hinv ho) h

/-! ## Rules -/

/-- A triple of the discipline. -/
abbrev Keeping (cfg : Settings) (t : ℕ) (A : Mem → Prop) {α : Type} (p : P α)
    (Q : α → Mem → Prop) : Prop :=
  (ledger cfg).Triple t A p Q

theorem calm_pre {op : Op} (h : op.calm) (m : Mem) : ledgerPre t op m := by
  cases op with
  | slot op => cases op <;> trivial
  | store op =>
    cases op with
    | recordEvent turnId p =>
      refine ⟨h.2, fun old new hp => ?_⟩
      rw [h.1] at hp
      cases hp
    | createSession | update | finishSession => exact h.elim
    | _ => trivial
  | bind b op => cases op <;> trivial
  | _ => trivial

theorem keeping_calm (hA : Lasting t A) (hp : Prog.Only Op.calm unsettled p) :
    Keeping cfg t A p fun _ => A := by
  refine .of_bounded hA.stable ?_ ?_ ?_ (fun _ _ he => he.elim) hp
  · exact fun op m hop _ _ _ => calm_pre hop m
  · exact fun op m c r m' hop _ _ hm hok hdo _ => hA m m' ((perform_idle hop hdo).keeps t) hm
  · intro e m u he _ _ _ _
    cases e with
    | settle after => exact absurd rfl (he after)
    | _ => trivial

theorem Op.plain.calm {op : Op} (h : op.plain) : op.calm := by
  cases op with
  | slot op => cases op <;> trivial
  | store op => cases op <;> trivial
  | bind b op => cases op <;> trivial
  | _ => trivial

theorem keeping_plain (hA : Lasting t A) (hp : Plain p) : Keeping cfg t A p fun _ => A :=
  keeping_calm hA (hp.mono (fun _ => Op.plain.calm) (fun _ he => he) fun _ he => he)

/-- What was known no longer matters. -/
theorem keeping_rest (hp : Plain p) : Keeping cfg t A p fun _ => Anything :=
  (keeping_plain lasting_anything hp).of_imp fun _ _ _ => trivial

theorem keeping_settle (after : After) {Q : α → Mem → Prop} :
    Keeping cfg t (Synced .holding t) (.jump (.settle after)) Q :=
  .jump lasting_synced.stable fun _ _ h => synced_iff.mp h

/-! ### Reads -/

/-- What the writer reads is the stored status. -/
theorem keeping_getSession : Keeping cfg t (Writes ρ t x y) getSession fun r m =>
    Writes ρ t x y m ∧ (∀ row, r = some row → m.status = some row.status) ∧
      (r = none → m.faulty = true) := by
  refine .perform lasting_writes.stable (fun _ _ _ _ => trivial) ?_
  intro m c r m' hinv _ hm _ hdo _
  change StoreOp.perform t m c .getSession = some (r, m') at hdo
  simp only [StoreOp.perform] at hdo
  split at hdo <;> cases hdo
  · refine ⟨hm, fun row hr => by simp [Mem.status, hr], fun hr => ?_⟩
    have := hinv.writer_row hm.role.writer
    rw [hr] at this
    cases this
  · exact ⟨⟨hm.role.same rfl rfl, fun hf => by cases hf⟩, fun row hr => (by cases hr), fun _ => rfl⟩

theorem keeping_storedState (fallback : SessionState) :
    Keeping cfg t (Writes ρ t x x) (storedState fallback) fun s => Writes ρ t s s := by
  refine keeping_getSession.bind fun r => ?_
  cases r with
  | none =>
    refine .ret fun m _ hm => ⟨hm.1.role, fun hf => ?_⟩
    rw [hm.2.2 rfl] at hf
    cases hf
  | some row =>
    refine .ret fun m _ hm => ⟨hm.1.role, fun hf => ?_⟩
    have hs := hm.2.1 row rfl
    obtain ⟨h1, h2⟩ := hm.1.state hf
    have hx : row.status = x := Option.some.inj (hs.symm.trans h1)
    exact ⟨hs, by rw [h2, hx]⟩

/-- A session that was read, with its status. -/
def Saw (ρ : Role) (t : ℕ) (row : Row) (m : Mem) : Prop :=
  Writes ρ t row.status row.status m ∧ m.status = some row.status

theorem lasting_saw (row : Row) : Lasting t (Saw ρ t row) := by
  intro m m' hk h
  obtain ⟨hs, -⟩ := hk.ledger (.inl h.1.role.writer)
  exact ⟨lasting_writes m m' hk h.1, hs.trans h.2⟩

theorem keeping_read : Keeping cfg t (Synced ρ t) getSession fun r m =>
    Synced ρ t m ∧ ∀ row, r = some row → Saw ρ t row m := by
  refine .of_exists fun x => keeping_getSession.conseq (fun _ _ h => h) fun r m _ hm => ?_
  refine ⟨⟨x, hm.1⟩, fun row hr => ?_⟩
  have hs := hm.2.1 row hr
  refine ⟨⟨hm.1.role, fun hf => ?_⟩, hs⟩
  obtain ⟨h1, h2⟩ := hm.1.state hf
  have hx : row.status = x := Option.some.inj (hs.symm.trans h1)
  exact ⟨hs, by rw [h2, hx]⟩

/-! ### Writes -/

/-- `write`: the update runs only if the session is not over. -/
theorem keeping_write {p : P Bool} {Q : Bool → Mem → Prop}
    (hp : Keeping cfg t (WritesOpen ρ t x y) p Q) (hno : ∀ m, Writes ρ t x y m → Q false m) :
    Keeping cfg t (Writes ρ t x y) (write p) Q := by
  refine keeping_getSession.bind fun r => ?_
  split
  · exact .ret fun m _ hm => hno m hm.1
  · rename_i row
    split
    · exact .ret fun m _ hm => hno m hm.1
    · rename_i hopen
      refine hp.of_imp fun m _ hm => ⟨hm.1, ?_⟩
      rw [Db.terminal_eq, show m.db.row.map Row.status = some row.status from hm.2.1 row rfl]
      simpa using hopen

/-- An update that the session's status allows. -/
theorem keeping_update {u : Update} (hu : ∀ st, u.target = some st → st.terminal = false) :
    Keeping cfg t (WritesOpen ρ t x y) (store (.update u)) fun ok m =>
      if ok then WritesOpen ρ t (u.target.getD x) y m else WritesOpen ρ t x y m := by
  refine .perform lasting_writesOpen.stable (fun m _ _ hm => ⟨hm.1.role.writer, hm.2, hu⟩) ?_
  intro m c ok m' hinv _ hm _ hdo _
  change StoreOp.perform t m c (.update u) = some (ok, m') at hdo
  simp only [StoreOp.perform] at hdo
  split at hdo <;> cases hdo
  · rw [if_pos rfl]
    obtain ⟨r, hr⟩ := Option.isSome_iff_exists.mp (hinv.writer_row hm.1.role.writer)
    have hold : r.status.terminal = false := by simpa [Db.terminal, hr] using hm.2
    have hnew : (u.target.getD r.status).terminal = false := by
      cases ht : u.target with
      | none => exact hold
      | some st => exact hu st ht
    refine ⟨⟨hm.1.role.same rfl rfl, fun hf => ⟨?_, (hm.1.state hf).2⟩⟩, ?_⟩
    · have hs : m.status = some x := (hm.1.state hf).1
      simp only [Mem.status, hr, Option.map_some, Option.some.injEq] at hs
      simp [Mem.status, Db.update, hr, Update.apply_status, hs]
    · simp [Db.update, Db.terminal, hr, Update.apply_status, hnew]
  · exact hm

/-- The event of a state write. -/
theorem keeping_emitChange (old new : SessionState) (reason : Reason) :
    Keeping cfg t (WritesOpen ρ t new old) (emit "" (.stateChanged old new reason))
      fun _ => WritesOpen ρ t new new := by
  have hrecord : Keeping cfg t (WritesOpen ρ t new old)
      (store (.recordEvent "" (.stateChanged old new reason))) fun _ => WritesOpen ρ t new new := by
    refine .perform lasting_writesOpen.stable ?_ ?_
    · intro m _ _ hm
      refine ⟨rfl, fun o n hon => ?_⟩
      obtain ⟨rfl, rfl⟩ : old = o ∧ new = n := by simpa [stateChange] using hon
      exact ⟨hm.1.role.writer, hm.2, hm.1.state⟩
    · intro m c r m' hinv _ hm _ hdo _
      cases hdo
      have hrow := hinv.writer_row hm.1.role.writer
      have hstatus := recordEvent_status m.db "" (.stateChanged old new reason) 0 c.readOk c.ok
      refine ⟨⟨hm.1.role.same rfl rfl, fun hf => ?_⟩, ?_⟩
      · -- nothing failed, so the event is in the log
        simp only [Bool.or_eq_false_iff, Bool.not_eq_false'] at hf
        obtain ⟨⟨hf, hread⟩, hok⟩ := hf
        refine ⟨hstatus.trans (hm.1.state hf).1, ?_⟩
        simp only [Db.recordEvent, hread, hok, hm.2, hrow, Bool.and_self,
          Bool.and_false, if_true]
        rw [if_neg Bool.false_ne_true, append_log, history_insert]
        exact reached_snoc ..
      · show (m.db.recordEvent _ _ _ _ _).2.terminal = false
        rw [Db.terminal_eq, hstatus, ← Db.terminal_eq]
        exact hm.2
  exact hrecord.bind fun _ => .ret fun _ _ hm => hm

theorem keeping_endSession (old : SessionState) (reason : EndReason) (detail : String)
    {preface : List (String × Payload)} (hpre : ∀ e ∈ preface, ordinary e.2) :
    Keeping cfg t (Writes ρ t old old) (endSession old reason detail preface)
      fun _ => Synced ρ t := by
  have hfinal : isFinal (endState reason) = true := by
    unfold endState
    split <;> rfl
  have hfinish : Keeping cfg t (Writes ρ t old old) (store (.finishSession (endState reason)
      (preface ++ [("", .stateChanged old (endState reason) .unspecified),
        ("", .sessionEnded (endReason reason) detail)]))) fun _ => Synced ρ t := by
    refine .perform lasting_writes.stable ?_ ?_
    · intro m _ _ hm
      exact ⟨hm.role.writer, hfinal, preface, old, .unspecified, endReason reason,
        detail, hpre, rfl, hm.state⟩
    · intro m c r m' hinv _ hm _ hdo _
      change StoreOp.perform t m c (.finishSession _ _) = some (r, m') at hdo
      simp only [StoreOp.perform] at hdo
      split at hdo <;> cases hdo
      · obtain ⟨row, hrow⟩ := Option.isSome_iff_exists.mp (hinv.writer_row hm.role.writer)
        unfold Db.finishSession
        simp only [hrow]
        split
        · exact ⟨old, hm.role.same rfl rfl, hm.state⟩
        · refine ⟨endState reason, hm.role.same rfl rfl, fun hf => ⟨rfl, ?_⟩⟩
          rw [insertAll_append]
          show reached (history (((m.db.log.insertAll preface).insert _).insert _)) = _
          rw [history_insert, history_insert]
          simp only [stateChange, Option.toList_some, Option.toList_none, List.append_nil]
          exact reached_snoc ..
      · exact ⟨old, hm⟩
  refine hfinish.bind fun r => ?_
  cases r <;> exact .ret fun _ _ hm => hm

/-! ### Taking and giving up the session -/

/-- An entry that is live, with its launch ready, leaves no writer. -/
theorem LedgerInv.no_writer {o : ℕ} (h : LedgerInv m) (he : m.slot.entry = some o)
    (hlive : (m.slot.owners o).live = true) (hready : (m.binds o).ready = true) (u : ℕ) :
    ¬ Writer u m := by
  have htaken : ∀ v, m.slot.entry = some v → ¬ (m.slot.hist v).taken = true := by
    intro v hv ht
    rw [he] at hv
    cases hv
    have := (h.slot.taken_entry o ht).2
    rw [hlive] at this
    cases this
  rintro (hu | hu)
  · exact htaken u (h.slot.taken_entry u hu.1).1 hu.1
  · rcases h.activating u hu with hx | ⟨v, hv, hvt, -⟩
    · rw [he] at hx
      cases hx
      rw [hu.2] at hready
      cases hready
    · exact htaken v hv hvt

/-- A thread that took the session from nobody finds the log in step with the row. -/
theorem Takes.synced (h : Takes m m' t) (hinv : LedgerInv m) (hrow : m.db.row.isSome = true)
    (hc : m.creator = none) (he : m.slot.entry = none) : Synced .holding t m' := by
  have hagrees := hinv.rest hc hrow fun u hu => hinv.writer_entry hu he
  refine synced_iff.mpr ⟨⟨h.taken, fun b hb => ?_⟩, ?_⟩
  · rw [h.victim, he] at hb
    cases hb
  · exact hagrees.mono (by rw [h.faulty]; exact id) (by simp [Mem.status, h.db]) (by rw [h.db])

/-- A thread that took the session from a live binding waits for its launch. -/
theorem Takes.stopping {o : ℕ} (h : Takes m m' t) (hinv : LedgerInv m)
    (he : m.slot.entry = some o) : Stopping t o m' := by
  have hlive := h.replaced o he
  refine ⟨h.taken, h.victim.trans he, by rw [h.live_iff]; exact hlive, fun hready => ?_⟩
  rw [h.ready] at hready
  have hc : m.creator = none := by
    by_contra hc
    have := (hinv.created hc).1
    rw [he] at this
    cases this
  have hrow : m.db.row.isSome = true := by
    by_contra hr
    have := (hinv.absent (by simpa using hr)).1
    rw [he] at this
    cases this
  have hagrees := hinv.rest hc hrow (hinv.no_writer he hlive hready)
  exact hagrees.mono (by rw [h.faulty]; exact id) (by simp [Mem.status, h.db]) (by rw [h.db])

/-- `claim` succeeds only if it takes the session from nobody. -/
theorem claim_takes (cancel : Bool) (hinv : LedgerInv m) (hu : m.slot.Unused t)
    (hok : ∀ v, m.creator = some v → v = t) (he : m.slot.entry = none) {m' : Mem}
    (hm : m' = { m with
      slot := (m.slot.claim t cancel).2
      creator := if m.creator = some t then none else m.creator }) : Takes m m' t := by
  rcases claim_idle_or_takes hinv hu cancel hok hm with hi | ht
  · have hentry := hi.entry
    rw [hm] at hentry
    simp [Slot.claim_of_none he, he] at hentry
  · exact ht

theorem claim_true {cancel : Bool} (h : (m.slot.claim t cancel).1 = true) :
    m.slot.entry = none := by
  cases he : m.slot.entry with
  | none => rfl
  | some o =>
    rw [Slot.claim_of_some he] at h
    cases h

theorem claim_holds {cancel : Bool} (hinv : LedgerInv m) (hu : m.slot.Unused t)
    (hok : ∀ v, m.creator = some v → v = t) (he : m.slot.entry = none)
    (hm : m' = { m with
      slot := (m.slot.claim t cancel).2
      creator := if m.creator = some t then none else m.creator }) : Holds t m' := by
  have ht := claim_takes cancel hinv hu hok he hm
  refine ⟨ht.taken, fun b hb => ?_⟩
  rw [ht.victim, he] at hb
  cases hb

theorem keeping_claim (cancel : Bool) : Keeping cfg t Settled (slot (.claim cancel))
    fun r m => r = true → Synced .holding t m := by
  refine .perform lasting_settled.stable (fun _ _ _ hm => hm.1) ?_
  intro m c r m' hinv hgiven hm hok hdo _ hr
  cases hdo
  have he := claim_true hr
  exact (claim_takes cancel hinv hgiven hok he rfl).synced hinv hm.1 hm.2 he

theorem keeping_claim_creating (cancel : Bool) :
    Keeping cfg t (Creating t) (slot (.claim cancel))
      fun _ => WritesOpen .holding t .pending .unspecified := by
  refine .perform lasting_creating.stable ?_ ?_
  · intro m _ _ hm
    show m.db.row.isSome = true
    rw [row_isSome_iff, hm.2.1]
    exact Option.some_ne_none _
  · intro m c r m' hinv hgiven hm hok hdo _
    cases hdo
    have he := (hinv.created (by rw [hm.1]; exact Option.some_ne_none t)).1
    refine ⟨⟨claim_holds hinv hgiven hok he rfl, fun _ => hm.2⟩, ?_⟩
    show m.db.terminal = false
    rw [Db.terminal_eq, show m.db.row.map Row.status = some .pending from hm.2.1]
    rfl

theorem keeping_claim_restarted (cancel : Bool) :
    Keeping cfg t (fun m => RowSeen m ∧ m.faulty = true) (slot (.claim cancel))
      fun r m => r = true → Restarted t m := by
  refine .perform ?_ (fun _ _ _ hm => hm.1) ?_
  · exact Lasting.stable fun _ _ hk h => ⟨hk.row h.1, hk.faulty h.2⟩
  · intro m c r m' hinv hgiven hm hok hdo _ hr
    cases hdo
    exact ⟨claim_holds hinv hgiven hok (claim_true hr) rfl, hm.2⟩

/-- What a thread knows after `detach`. -/
def DetachLeft (t : ℕ) (r : Detached) (m : Mem) : Prop :=
  match r with
  | .held none => Synced .holding t m
  | .held (some b) => Stopping t b m
  | .nothing | .waits _ => True

theorem detach_left {want : Option ℕ} {spec : StopSpec} {r : Detached} (hinv : LedgerInv m)
    (hunused : m.slot.Unused t) (hrow : want = none → RowSeen m)
    (hc : want = none → m.creator = none) (h : m.detach t want spec = (r, m')) :
    DetachLeft t r m' := by
  have hr : r = (m.detach t want spec).1 := by rw [h]
  have hm' : m' = (m.detach t want spec).2 := by rw [h]
  have hcases := detach_idle_or_takes hinv hunused want spec hc
  rw [← hm'] at hcases
  unfold Mem.detach at hr hm'
  split at hr
  · subst hr; trivial
  · rename_i hwant
    rw [if_neg hwant] at hm'
    cases he : m.slot.entry with
    | none =>
      have hnone : want = none := by
        by_contra hw
        refine hwant ⟨Option.isSome_iff_ne_none.mpr hw, ?_⟩
        rw [he]
        exact Ne.symm hw
      simp only [he] at hr hm'
      subst hr
      rcases hcases with hi | ht
      · have hentry := hi.entry
        rw [hm', he] at hentry
        cases hentry
      · exact ht.synced hinv (hrow hnone) (hc hnone) he
    | some o =>
      simp only [he] at hr hm'
      split at hr
      · rename_i hlive
        rw [if_pos hlive] at hm'
        split at hr
        · subst hr; trivial
        · rename_i b hb
          rw [hb] at hm'
          subst hr
          rcases hcases with hi | ht
          · have hentry := hi.entry
            rw [hm', he] at hentry
            have hot : t = o := Option.some.inj hentry
            subst hot
            exact absurd he hunused.2.2
          · exact ht.stopping hinv he
      · have hnot : ∀ b, (m.slot.detachOwned o spec).1 ≠ .held b := by
          intro b
          unfold Slot.detachOwned
          dsimp only
          split <;> split <;> exact nofun
        subst hr
        cases hd : (m.slot.detachOwned o spec).1 with
        | held b => exact absurd hd (hnot b)
        | _ => trivial

theorem keeping_detach (want : Option ℕ) (spec : StopSpec) :
    Keeping cfg t (fun m => want = none → RowSeen m) (slot (.detach want spec)) (DetachLeft t) := by
  refine .perform ?_ (fun _ _ _ hm => hm) ?_
  · exact Lasting.stable fun _ _ hk h hw => hk.row (h hw)
  · intro m c r m' hinv hgiven hm hok hdo _
    refine detach_left hinv hgiven hm ?_ (Option.some.inj hdo)
    rintro rfl
    exact hok

theorem keeping_awaitReady (b : ℕ) :
    Keeping cfg t (Stopping t b) (onBinding b .awaitReady) fun _ => Synced .holding t := by
  refine .perform (lasting_stopping b).stable (fun _ _ _ _ => trivial) ?_
  intro m c r m' hinv _ hm _ hdo _
  change BindOp.perform t m c b .awaitReady = some (r, m') at hdo
  simp only [BindOp.perform] at hdo
  split at hdo
  · rename_i hready
    cases hdo
    exact synced_iff.mpr ⟨hm.holds hready, hm.agrees hready⟩
  · cases hdo

/-- A thread that is given a stop by `finish` goes on holding the session. -/
theorem finish_idle {spec : StopSpec} (h : (m.slot.finish t).1 = some spec) :
    Idle m { m with slot := (m.slot.finish t).2 } := by
  have hstop : (m.slot.owners t).stop = some spec := by
    unfold Slot.finish at h
    split at h
    · rename_i s hs
      cases h
      exact hs
    · cases h
  unfold Slot.finish
  rw [hstop]
  refine ⟨rfl, fun w => ?_, fun w => ?_, fun w => ?_, fun _ => rfl, rfl, rfl, rfl, id, id, id⟩
  all_goals
    by_cases hw : w = t
    · subst hw
      simp
    · simp [hw]

theorem keeping_finish : Keeping cfg t (Synced .holding t) (slot .finish)
    fun r m => ∀ spec, r = some spec → Synced .holding t m := by
  refine .perform lasting_synced.stable (fun _ _ _ hm _ => synced_iff.mp hm) ?_
  intro m c r m' hinv hgiven hm _ hdo _ spec hr
  cases hdo
  exact lasting_synced m _ ((finish_idle hr).keeps t) hm

/-! ### Bindings and registration -/

/-- The thread holds the session, with a binding of its own that is not ready. -/
def Binds (t : ℕ) (x y : SessionState) (m : Mem) : Prop :=
  Writes .holding t x y m ∧ (m.binds t).ready = false

theorem lasting_binds : Lasting t (Binds t x y) := lasting_unready lasting_writes

theorem LedgerInv.holds_live (h : LedgerInv m) (ht : Holds t m) : (m.slot.owners t).live = false :=
  (h.slot.taken_entry t ht.1).2

/-- The readiness of the thread's own binding does not matter while it is not live. -/
theorem LedgerInv.holds_setBind (h : LedgerInv m) (ht : Holds t m) (f : Binding → Binding) :
    Holds t (m.setBind t f) := by
  refine ⟨ht.1, fun b hb => ⟨(ht.2 b hb).1, ?_⟩⟩
  rw [setBind_ready_other ?_]
  · exact (ht.2 b hb).2
  · rintro rfl
    have := h.holds_live ht
    rw [(ht.2 b hb).1] at this
    cases this

theorem keeping_create (claimName : String) (pod : ℕ) (syncing : Bool) (turns : List String) :
    Keeping cfg t (Writes .holding t x y) (onBinding t (.create claimName pod syncing turns))
      fun _ => Binds t x y := by
  refine .perform lasting_writes.stable ?_ ?_
  · exact fun m hinv _ hm => ⟨rfl, hinv.holds_live hm.role⟩
  · intro m c r m' hinv _ hm _ hdo _
    cases hdo
    exact ⟨⟨hinv.holds_setBind hm.role _, hm.state⟩, by simp [Mem.setBind]⟩

theorem keeping_closeReady : Keeping cfg t (Writes .holding t x y) (onBinding t .closeReady)
    fun _ => Writes .holding t x y := by
  refine .perform lasting_writes.stable ?_ ?_
  · intro m hinv _ hm
    refine ⟨rfl, fun hl => ?_⟩
    rw [hinv.holds_live hm.role] at hl
    cases hl
  · intro m c r m' hinv _ hm _ hdo _
    cases hdo
    exact ⟨hinv.holds_setBind hm.role _, hm.state⟩

theorem keeping_ready : Keeping cfg t (Synced .activating t) (onBinding t .closeReady)
    fun _ => Anything := by
  refine .perform lasting_synced.stable ?_ fun _ _ _ _ _ _ _ _ _ _ => trivial
  exact fun m _ _ hm => ⟨rfl, fun _ => (synced_iff.mp hm).2⟩

/-- What a launch knows after `register`. -/
def RegisterLeft (t : ℕ) (x y : SessionState) (r : Bool) (m : Mem) : Prop :=
  if r then Writes .activating t x y m else Writes .holding t x y m

theorem keeping_register : Keeping cfg t (Binds t x y) (slot .register) (RegisterLeft t x y) := by
  refine .perform lasting_binds.stable ?_ ?_
  · intro m _ _ hm
    refine ⟨hm.1.role, fun hr => ?_⟩
    rw [hm.2] at hr
    cases hr
  · intro m c r m' _ _ hm _ hdo _
    cases hdo
    unfold Slot.register RegisterLeft
    split
    · exact hm.1
    · exact ⟨⟨by simp, hm.2⟩, hm.1.state⟩

/-- After a restart a binding may be ready before it is registered. -/
theorem keeping_register_restarted : Keeping cfg t (Restarted t) (slot .register)
    fun r m => r = false → Restarted t m := by
  refine .perform lasting_restarted.stable ?_ ?_
  · intro m _ _ hm
    refine ⟨hm.1, fun _ hf => ?_⟩
    rw [hm.2] at hf
    cases hf
  · intro m c r m' _ _ hm _ hdo _ hr
    cases hdo
    unfold Slot.register at hr ⊢
    split at hr
    · rename_i hc
      rw [if_pos hc]
      exact hm
    · cases hr

/-! ### Branches -/

/-- A branch on a result that says which of two facts holds. -/
theorem keeping_ite {B : Mem → Prop} {Q : α → Mem → Prop} {ok : Bool} {q : P α}
    (hp : Keeping cfg t A p Q) (hq : Keeping cfg t B q Q) :
    Keeping cfg t (fun m => if ok then A m else B m) (if ok then p else q) Q := by
  cases ok with
  | true => exact hp
  | false => exact hq

/-- `write` of one update. -/
theorem keeping_writeUpdate {u : Update} (hu : ∀ st, u.target = some st → st.terminal = false) :
    Keeping cfg t (Writes ρ t x y) (write (store (.update u))) fun ok m =>
      if ok then WritesOpen ρ t (u.target.getD x) y m else Writes ρ t x y m := by
  refine keeping_write ((keeping_update hu).conseq (fun _ _ h => h) fun ok m _ hm => ?_)
    fun _ h => h
  cases ok with
  | true => exact hm
  | false => exact hm.1

theorem keeping_end (old : SessionState) (reason : EndReason) (detail : String) :
    Keeping cfg t (Writes ρ t old old) (endSession old reason detail) fun _ => Synced ρ t :=
  keeping_endSession old reason detail fun e he => by cases he

end AgentOps.Service
