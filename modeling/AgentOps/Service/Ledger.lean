import AgentOps.Service.Protocol
import Mathlib.Data.List.Chain

/-!
# Who writes the state of a session

The updates of a session row have no guard of their own. What keeps the row and the log in
order is that one thread at a time writes them: the one that holds the session, or the launch
that registered and has not closed `ready` yet, for which a stop waits.

This is the second discipline. It needs that nobody takes a session between the insert of its
row and the claim of the thread that inserted it.
-/

namespace AgentOps.Service

open AgentOps.Api AgentOps.Link AgentOps.Lib

variable {t b : ℕ} {c : Choice}

/-! ## The history of a log -/

/-- The state changes of a log, the oldest first. -/
def history (log : EventLog.Rows) : List (SessionState × SessionState) :=
  log.rows.filterMap fun ev => stateChange ev.payload

/-- The state that a history leads to. -/
def reached (h : List (SessionState × SessionState)) : SessionState :=
  (h.getLast?.map Prod.snd).getD .unspecified

/-- The first change has no old state, and each other starts where the one before it led. -/
def Chained (h : List (SessionState × SessionState)) : Prop :=
  h.IsChain (fun a b => b.1 = a.2) ∧ ∀ a ∈ h.head?, a.1 = .unspecified

theorem chained_nil : Chained [] := ⟨.nil, nofun⟩

theorem Chained.snoc {h : List (SessionState × SessionState)} (hc : Chained h)
    {old new : SessionState} (ho : old = reached h) : Chained (h ++ [(old, new)]) := by
  constructor
  · rw [List.isChain_append]
    refine ⟨hc.1, .singleton _, fun x hx y hy => ?_⟩
    simp only [List.head?_cons, Option.mem_some_iff] at hy
    subst hy
    simp only [Option.mem_def] at hx
    rw [ho, reached, hx]
    rfl
  · cases h with
    | nil => simpa [reached] using ho
    | cons a h => simpa using hc.2

@[simp] theorem reached_snoc (h : List (SessionState × SessionState)) (old new : SessionState) :
    reached (h ++ [(old, new)]) = new := by
  simp [reached]

theorem history_insert (log : EventLog.Rows) (ev : String × Payload) :
    history (log.insert ev) = history log ++ (stateChange ev.2).toList := by
  cases h : stateChange ev.2 <;> simp [history, EventLog.Rows.insert, h]

/-! ## The end of a log -/

/-- The row and the log agree on whether the session is over; nothing follows the end of the
log unless an event was `late`. -/
structure Db.EndInv (d : Db) (late : Bool) : Prop where
  known : d.row.map Row.status ≠ some .unspecified
  running : d.terminal = false → ∀ ev ∈ d.log.rows, ev.payload.isSessionEnded = false
  ended : d.terminal = true → ∃ before ev rest, d.log.rows = before ++ ev :: rest ∧
    ev.payload.isSessionEnded = true ∧ (∀ e ∈ before ++ rest, e.payload.isSessionEnded = false) ∧
    (late = false → rest = [])

/-- The stored status. -/
def Mem.status (m : Mem) : Option SessionState := m.db.row.map Row.status

variable {m m' : Mem}

theorem Db.terminal_eq (d : Db) :
    d.terminal = (d.row.map Row.status).any SessionState.terminal := by
  unfold Db.terminal
  cases d.row <;> rfl

/-- A step that leaves the status alone and adds at most one event, which does not end the
session, and which is late if the session is over. -/
theorem Db.EndInv.of_log {d d' : Db} {late late' : Bool} (h : d.EndInv late)
    (hs : d'.row.map Row.status = d.row.map Row.status) (hlate : late = true → late' = true)
    (hlog : d'.log = d.log ∨ (d.terminal = true → late' = true) ∧
      ∃ ev : String × Payload, ev.2.isSessionEnded = false ∧ d'.log = d.log.insert ev) :
    d'.EndInv late' := by
  have hterminal : d'.terminal = d.terminal := by rw [Db.terminal_eq, Db.terminal_eq, hs]
  refine ⟨by rw [hs]; exact h.known, fun ht e he => ?_, fun ht => ?_⟩
  · rw [hterminal] at ht
    rcases hlog with hlog | ⟨-, ev, hev, hlog⟩
    · rw [hlog] at he
      exact h.running ht e he
    · rw [hlog, EventLog.Rows.insert, List.mem_append] at he
      rcases he with he | he
      · exact h.running ht e he
      · rw [List.mem_singleton.mp he]
        exact hev
  · rw [hterminal] at ht
    obtain ⟨before, last, rest, hrows, hlast, hothers, hrest⟩ := h.ended ht
    rcases hlog with hlog | ⟨hl, ev, hev, hlog⟩
    · refine ⟨before, last, rest, by rw [hlog, hrows], hlast, hothers, fun hl => hrest ?_⟩
      by_contra hne
      rw [hlate (by simpa using hne)] at hl
      cases hl
    · -- the event comes after the end
      rw [hlog, EventLog.Rows.insert, hrows]
      refine ⟨before, last, rest ++ [⟨_, ev.1, ev.2⟩], by rw [List.append_assoc]; rfl, hlast,
        fun e he => ?_, fun hx => ?_⟩
      · rw [← List.append_assoc, List.mem_append, List.mem_singleton] at he
        rcases he with he | rfl
        · exact hothers e he
        · exact hev
      · rw [hl ht] at hx
        cases hx

/-! ## Writers -/

/-- Thread `t` holds the session, and the launch it took it from is ready. -/
def Holds (t : ℕ) (m : Mem) : Prop :=
  (m.slot.hist t).taken = true ∧
    ∀ b, (m.slot.hist t).victim = some b → (m.slot.owners b).live = true ∧ (m.binds b).ready = true

/-- Thread `t` is a launch that registered and is not ready. -/
def Activating (t : ℕ) (m : Mem) : Prop :=
  (m.slot.owners t).live = true ∧ (m.binds t).ready = false

/-- Thread `t` may write the state of the session. -/
def Writer (t : ℕ) (m : Mem) : Prop := Holds t m ∨ Activating t m

/-- The stored status is the state that the log leads to, if no read or append failed. -/
def Agrees (m : Mem) : Prop := m.faulty = false → m.status = some (reached (history m.db.log))

/-- The invariant of the row, its log and their writers. -/
structure LedgerInv (m : Mem) : Prop where
  slot : m.slot.Inv
  ends : m.db.EndInv m.late
  /-- Nothing was recorded of a session that was not created. -/
  absent : m.db.row = none → m.slot.entry = none ∧ m.creator = none ∧ history m.db.log = []
  created : m.creator ≠ none → m.slot.entry = none ∧ m.status = some .pending
  activating : ∀ u, Activating u m → m.slot.entry = some u ∨
    ∃ v, m.slot.entry = some v ∧ (m.slot.hist v).taken = true ∧ (m.slot.hist v).victim = some u
  victim : ∀ t b, (m.slot.hist t).taken = true → (m.slot.hist t).victim = some b →
    (m.slot.owners b).live = true
  chained : m.faulty = false → Chained (history m.db.log)
  rest : m.creator = none → m.db.row.isSome = true → (∀ t, ¬ Writer t m) → Agrees m
  boot : m.boot ≠ .up → m.faulty = true

theorem LedgerInv.writer_entry (h : LedgerInv m) (ht : Writer t m) : m.slot.entry ≠ none := by
  rcases ht with ht | ht
  · rw [(h.slot.taken_entry t ht.1).1]
    exact Option.some_ne_none _
  · rcases h.activating t ht with he | ⟨v, he, -⟩ <;> rw [he] <;> exact Option.some_ne_none _

theorem LedgerInv.writer_row (h : LedgerInv m) (ht : Writer t m) : m.db.row.isSome = true := by
  by_contra hr
  exact h.writer_entry ht (h.absent (by simpa using hr)).1

theorem LedgerInv.writer_creator (h : LedgerInv m) (ht : Writer t m) : m.creator = none := by
  by_contra hc
  exact h.writer_entry ht (h.created hc).1

/-- A launch that is not ready excludes the thread that stops it. -/
theorem LedgerInv.holds_not_activating (h : LedgerInv m) {u : ℕ} (ht : Holds t m)
    (hu : Activating u m) : False := by
  have hentry := h.slot.taken_entry t ht.1
  rcases h.activating u hu with he | ⟨v, he, _, hv⟩
  · obtain rfl : t = u := Option.some.inj (hentry.1.symm.trans he)
    rw [hu.1] at hentry
    exact absurd hentry.2 (by simp)
  · obtain rfl : t = v := Option.some.inj (hentry.1.symm.trans he)
    have := (ht.2 u hv).2
    rw [hu.2] at this
    cases this

/-- There is one writer at a time. -/
theorem LedgerInv.writer_unique (h : LedgerInv m) {u : ℕ} (ht : Writer t m) (hu : Writer u m) :
    t = u := by
  rcases ht with ht | ht <;> rcases hu with hu | hu
  · exact h.slot.taken_unique ht.1 hu.1
  · exact (h.holds_not_activating ht hu).elim
  · exact (h.holds_not_activating hu ht).elim
  · -- two launches that are not ready: each is the entry, or the victim of the entry
    rcases h.activating t ht with he | ⟨v, he, hv, hvt⟩ <;>
      rcases h.activating u hu with he' | ⟨v', he', hv', hvu⟩ <;>
      have hsame := Option.some.inj (he.symm.trans he')
    · exact hsame
    · subst hsame
      have := (h.slot.taken_entry t hv').2
      rw [ht.1] at this
      cases this
    · subst hsame
      have := (h.slot.taken_entry v hv).2
      rw [hu.1] at this
      cases this
    · subst hsame
      rw [hvt] at hvu
      exact Option.some.inj hvu

/-! ## Promises -/

/-- The status that an update sets. -/
def Update.target : Update → Option SessionState
  | .sandbox _ _ status | .acp _ status => some status
  | .suspended _ => some .suspended
  | .launched => some .launching
  | .run _ => some .awaitingApproval
  | .approver _ | .link _ _ => none

/-- What a thread promises about the events of a final write. -/
structure FinalWrite (m : Mem) (status : SessionState) (events : List (String × Payload)) :
    Prop where
  final : isFinal status = true
  shape : ∃ before old reason ending detail, (∀ e ∈ before, ordinary e.2) ∧
    events = before ++ [("", .stateChanged old status reason), ("", .sessionEnded ending detail)] ∧
    (m.faulty = false → m.status = some old ∧ reached (history m.db.log) = old)

/-- What a thread promises about an event. -/
structure EventWrite (t : ℕ) (m : Mem) (p : Payload) : Prop where
  notEnd : p.isSessionEnded = false
  change : ∀ old new, stateChange p = some (old, new) → Writer t m ∧ m.db.terminal = false ∧
    (m.faulty = false → m.status = some new ∧ reached (history m.db.log) = old)

/-- The promises of the ledger. -/
def ledgerPre (t : ℕ) (op : Op) (m : Mem) : Prop :=
  match op with
  | .slot (.claim _) => m.db.row.isSome = true
  | .slot (.detach want _) => want = none → m.db.row.isSome = true
  | .slot .register => Holds t m ∧ ((m.binds t).ready = true → Agrees m)
  | .slot .finish => (m.slot.hist t).taken = true → Holds t m ∧ Agrees m
  | .store (.update u) => Writer t m ∧ m.db.terminal = false ∧
      ∀ st, u.target = some st → st.terminal = false
  | .store (.finishSession status events) => Writer t m ∧ FinalWrite m status events
  | .store (.recordEvent _ p) => EventWrite t m p
  | .bind _ (.recordPod _ p _) | .bind _ (.record _ p) => ordinary p
  | .bind b (.create _ _ _ _) => b = t ∧ (m.slot.owners t).live = false
  | .bind b .closeReady => b = t ∧ ((m.slot.owners t).live = true → Agrees m)
  | _ => True

/-- Nobody takes a session between the insert of its row and the claim of the thread that
inserted it. -/
def orderly (t : ℕ) (op : Op) (m : Mem) : Prop :=
  match op with
  | .slot (.claim _) => ∀ u ∈ m.creator, u = t
  | .slot (.detach none _) => m.creator = none
  | _ => True

variable (cfg : Settings)

/-- The discipline of the ledger. -/
def ledger : Discipline (system cfg) where
  inv := LedgerInv
  pre := ledgerPre
  entry t e m := match e with
    | .settle _ => Holds t m ∧ Agrees m
    | _ => True
  fresh _ _ := True
  given := (protocol cfg).pre
  allow t op m _ := orderly t op m

/-! ## Calm steps -/

/-- The operation neither takes nor gives up the session, nor writes its state. -/
@[simp] def Op.calm : Op → Prop
  | .slot .lookup | .slot .stopped | .slot .takeStop | .slot .ran | .slot (.await _) => True
  | .slot _ => False
  | .store (.createSession _) | .store (.update _) | .store (.finishSession _ _) => False
  | .store (.recordEvent _ p) => ordinary p
  | .bind _ (.create _ _ _ _) | .bind _ .closeReady => False
  | .bind _ (.recordPod _ p _) | .bind _ (.record _ p) => ordinary p
  | _ => True

/-- What a calm step leaves as it is. -/
structure Idle (m m' : Mem) : Prop where
  entry : m'.slot.entry = m.slot.entry
  taken : ∀ u, (m'.slot.hist u).taken = (m.slot.hist u).taken
  victim : ∀ u, (m'.slot.hist u).victim = (m.slot.hist u).victim
  live : ∀ u, (m'.slot.owners u).live = (m.slot.owners u).live
  ready : ∀ b, (m'.binds b).ready = (m.binds b).ready
  creator : m'.creator = m.creator
  status : m'.status = m.status
  history : history m'.db.log = history m.db.log
  ends : m.db.EndInv m.late → m'.db.EndInv m'.late
  faulty : m.faulty = true → m'.faulty = true
  boot : m'.boot ≠ .up → m.boot ≠ .up

theorem Idle.refl (m : Mem) : Idle m m :=
  ⟨rfl, fun _ => rfl, fun _ => rfl, fun _ => rfl, fun _ => rfl, rfl, rfl, rfl, id, id, id⟩

/-- A step on the store and the bindings that leaves the status alone and adds at most one
plain event, which is late if the session is over. -/
theorem Idle.of_log (hslot : m'.slot = m.slot)
    (hready : ∀ b, (m'.binds b).ready = (m.binds b).ready) (hcreator : m'.creator = m.creator)
    (hstatus : m'.status = m.status) (hfaulty : m.faulty = true → m'.faulty = true)
    (hlate : m.late = true → m'.late = true) (hboot : m'.boot ≠ .up → m.boot ≠ .up)
    (hlog : m'.db.log = m.db.log ∨ (m.db.terminal = true → m'.late = true) ∧
      ∃ ev : String × Payload, ordinary ev.2 ∧ m'.db.log = m.db.log.insert ev) : Idle m m' := by
  refine ⟨by rw [hslot], fun u => by rw [hslot], fun u => by rw [hslot], fun u => by rw [hslot],
    hready, hcreator, hstatus, ?_, fun h => h.of_log hstatus hlate ?_, hfaulty, hboot⟩
  · rcases hlog with hlog | ⟨_, ev, hev, hlog⟩
    · rw [hlog]
    · rw [hlog, history_insert, hev.1]
      simp
  · exact hlog.imp id fun ⟨hl, ev, hev, hlog⟩ => ⟨hl, ev, hev.2, hlog⟩

/-- A step that leaves the log alone as well. -/
theorem Idle.of_eq (hslot : m'.slot = m.slot) (hready : ∀ b, (m'.binds b).ready = (m.binds b).ready)
    (hcreator : m'.creator = m.creator) (hstatus : m'.status = m.status)
    (hfaulty : m.faulty = true → m'.faulty = true) (hlate : m.late = true → m'.late = true)
    (hboot : m'.boot ≠ .up → m.boot ≠ .up) (hlog : m'.db.log = m.db.log) : Idle m m' :=
  .of_log hslot hready hcreator hstatus hfaulty hlate hboot (.inl hlog)

/-! ### Events -/

theorem update_status (d : Db) {f : Row → Row} (hf : ∀ r, (f r).status = r.status) :
    (d.update f).row.map Row.status = d.row.map Row.status := by
  unfold Db.update
  cases d.row with
  | none => rfl
  | some r => simp [hf]

theorem append_status (d : Db) (turnId : String) (p : Payload) (podSeq : ℕ) :
    (d.append turnId p podSeq).row.map Row.status = d.row.map Row.status := by
  unfold Db.append
  dsimp only
  split
  · refine (update_status (f := fun r => r.advancePodSeq podSeq) _ fun _ => rfl).trans ?_
    split <;> rfl
  · split <;> rfl

theorem append_log (d : Db) (turnId : String) (p : Payload) (podSeq : ℕ) :
    (d.append turnId p podSeq).log = d.log.insert (turnId, p) := by
  unfold Db.append
  dsimp only
  split <;> split <;> rfl

theorem recordEvent_status (d : Db) (turnId : String) (p : Payload) (podSeq : ℕ)
    (readOk ok : Bool) : (d.recordEvent turnId p podSeq readOk ok).2.row.map Row.status =
      d.row.map Row.status := by
  unfold Db.recordEvent
  split
  · rfl
  · split
    · exact append_status ..
    · rfl

theorem recordEvent_log (d : Db) (turnId : String) (p : Payload) (podSeq : ℕ) (readOk ok : Bool) :
    (d.recordEvent turnId p podSeq readOk ok).2.log = d.log ∨
      (d.terminal = true → readOk = false) ∧
        (d.recordEvent turnId p podSeq readOk ok).2.log = d.log.insert (turnId, p) := by
  unfold Db.recordEvent
  split
  · exact .inl rfl
  · rename_i hread
    split
    · refine .inr ⟨fun hd => ?_, append_log ..⟩
      simpa [hd] using hread
    · exact .inl rfl

theorem recordEvent_faulty_mono (hf : m.faulty = true) (turnId : String) (p : Payload) (podSeq : ℕ)
    (readOk ok : Bool) : (m.recordEvent turnId p podSeq readOk ok).2.faulty = true := by
  show (m.faulty || !readOk || !ok) = true
  rw [hf]
  rfl

theorem recordEvent_late_mono (hl : m.late = true) (turnId : String) (p : Payload) (podSeq : ℕ)
    (readOk ok : Bool) : (m.recordEvent turnId p podSeq readOk ok).2.late = true := by
  show (m.late || !readOk && m.db.terminal) = true
  rw [hl]
  rfl

/-- The event is late if it is recorded of a session that is over. -/
theorem recordEvent_late (m : Mem) (turnId : String) (p : Payload) (podSeq : ℕ) (readOk ok : Bool) :
    (m.recordEvent turnId p podSeq readOk ok).2.db.log = m.db.log ∨
      (m.db.terminal = true → (m.recordEvent turnId p podSeq readOk ok).2.late = true) ∧
        (m.recordEvent turnId p podSeq readOk ok).2.db.log = m.db.log.insert (turnId, p) := by
  refine (recordEvent_log m.db turnId p podSeq readOk ok).imp id fun ⟨hread, hlog⟩ =>
    ⟨fun ht => ?_, hlog⟩
  show (m.late || !readOk && m.db.terminal) = true
  rw [hread ht, ht]
  simp

theorem recordEvent_idle (m : Mem) (turnId : String) {p : Payload} (hp : ordinary p) (podSeq : ℕ)
    (readOk ok : Bool) : Idle m (m.recordEvent turnId p podSeq readOk ok).2 := by
  refine .of_log rfl (fun _ => rfl) rfl (recordEvent_status ..) ?_ ?_ id ?_
  · exact fun hf => recordEvent_faulty_mono hf ..
  · exact fun hl => recordEvent_late_mono hl ..
  · exact (recordEvent_late m turnId p podSeq readOk ok).imp id
      fun h => ⟨h.1, (turnId, p), hp, h.2⟩

/-! ### Bindings -/

theorem setBind_ready {f : Binding → Binding} (hf : (f (m.binds b)).ready = (m.binds b).ready)
    (u : ℕ) : ((m.setBind b f).binds u).ready = (m.binds u).ready := by
  unfold Mem.setBind
  by_cases hu : u = b
  · subst hu
    simpa using hf
  · simp [hu]

theorem release_ready (m : Mem) (b u : ℕ) : ((m.release b).binds u).ready = (m.binds u).ready := by
  have hrelease : ((m.binds b).release).1.ready = (m.binds b).ready := by
    unfold Binding.release
    split <;> rfl
  exact setBind_ready (m := m) (f := fun _ => ((m.binds b).release).1) hrelease u

theorem setBind_idle {f : Binding → Binding} (hf : (f (m.binds b)).ready = (m.binds b).ready) :
    Idle m (m.setBind b f) :=
  .of_eq rfl (setBind_ready hf) rfl rfl id id id rfl

theorem setPod_idle (m : Mem) (p : ℕ) (f : Pod → Pod) : Idle m (m.setPod p f) :=
  .of_eq rfl (fun _ => rfl) rfl rfl id id id rfl

theorem release_idle (m : Mem) (b : ℕ) : Idle m (m.release b) :=
  .of_eq rfl (release_ready m b) rfl rfl id id id rfl

theorem Idle.trans {m'' : Mem} (h : Idle m m') (h' : Idle m' m'') : Idle m m'' where
  entry := h'.entry.trans h.entry
  taken u := (h'.taken u).trans (h.taken u)
  victim u := (h'.victim u).trans (h.victim u)
  live u := (h'.live u).trans (h.live u)
  ready b := (h'.ready b).trans (h.ready b)
  creator := h'.creator.trans h.creator
  status := h'.status.trans h.status
  history := h'.history.trans h.history
  ends := h'.ends ∘ h.ends
  faulty := h'.faulty ∘ h.faulty
  boot := h.boot ∘ h'.boot

/-- A step that removes saved commands. -/
theorem cmds_idle (m : Mem) (d : Db) (hrow : d.row = m.db.row) (hlog : d.log = m.db.log) :
    Idle m { m with db := d } :=
  .of_eq rfl (fun _ => rfl) rfl (by simp [Mem.status, hrow]) id id id hlog

theorem foldl_deleteCommand (l : List PodCommand) (d : Db) :
    (l.foldl Db.deleteCommand d).row = d.row ∧ (l.foldl Db.deleteCommand d).log = d.log := by
  induction l generalizing d with
  | nil => exact ⟨rfl, rfl⟩
  | cons c l ih => exact ih (d.deleteCommand c)

theorem reconcile_idle (m : Mem) (b : ℕ) (st : AgentState) (cmds : List PodCommand)
    (keep : List String) : Idle m (m.reconcile b st cmds keep) := by
  unfold Mem.reconcile
  dsimp only
  have hdb := foldl_deleteCommand
  refine Idle.trans ?_ (release_idle _ b)
  refine Idle.trans ?_ (setBind_idle rfl)
  refine Idle.trans ?_ (setPod_idle _ _ _)
  exact cmds_idle m _ (hdb _ _).1 (hdb _ _).2

theorem enter_ready (b : Binding) (turnId : String) (now : ℕ) :
    (b.enter turnId now).2.ready = b.ready := by
  unfold Binding.enter
  split
  · rfl
  · dsimp only [Binding.touch]
    split <;> rfl

theorem BindOp.perform_idle {op : BindOp} {r : op.Res} (hop : Op.calm (.bind b op))
    (h : op.perform t m c b = some (r, m')) : Idle m m' := by
  cases op <;> simp only [Op.calm] at hop <;> simp only [BindOp.perform] at h
  case recordPod turnId p seq =>
    split at h
    · cases h; exact recordEvent_idle m turnId hop seq c.readOk true
    · split at h <;> cases h
      exact .refl m
  case record turnId p =>
    split at h
    · cases h; exact recordEvent_idle m turnId hop 0 c.readOk true
    · split at h <;> cases h
      exact .refl m
  case advancePod seq =>
    split at h
    · cases h
      exact .of_eq rfl (fun _ => rfl) rfl (update_status _ fun _ => rfl) id id id rfl
    · split at h <;> cases h
      exact .refl m
  case clearDecision requestId =>
    split at h
    · cases h; exact cmds_idle m _ rfl rfl
    · split at h <;> cases h
      exact .refl m
  case reconcile st cmds =>
    split at h <;> cases h
    exact reconcile_idle ..
  case hold p => cases h; exact (setBind_idle rfl).trans (release_idle _ b)
  case ungate =>
    split at h <;> cases h
    exact (setBind_idle rfl).trans (release_idle _ b)
  case enter turnId => cases h; exact setBind_idle (enter_ready ..)
  case restore w =>
    cases h
    refine setBind_idle ?_
    split <;> rfl
  all_goals
    (repeat' split at h) <;> cases h <;>
      first | exact .refl m | exact setBind_idle rfl | exact setPod_idle ..

theorem StoreOp.perform_idle {op : StoreOp} {r : op.Res} (hop : Op.calm (.store op))
    (h : op.perform t m c = some (r, m')) : Idle m m' := by
  cases op <;> simp only [Op.calm] at hop <;> simp only [StoreOp.perform] at h
  case getSession =>
    split at h <;> cases h
    · exact .refl m
    · exact .of_eq rfl (fun _ => rfl) rfl rfl (fun _ => rfl) id id rfl
  case nextTurnSeq =>
    split at h <;> cases h
    · refine .of_eq rfl (fun _ => rfl) rfl ?_ id id id ?_
      · simp only [Mem.status, Db.nextTurnSeq]
        cases hr : m.db.row <;> simp [hr]
      · simp only [Db.nextTurnSeq]
        cases hr : m.db.row <;> rfl
    · exact .refl m
  case recordEvent turnId p => cases h; exact recordEvent_idle m turnId hop 0 c.readOk c.ok
  case putCommand cmd =>
    split at h <;> cases h
    · refine cmds_idle m _ ?_ ?_ <;> unfold Db.putCommand <;> split <;> rfl
    · exact .refl m
  case deleteCommands =>
    split at h <;> cases h
    · exact cmds_idle m _ rfl rfl
    · exact .refl m
  case listCommands => cases h; exact .refl m

theorem ExtOp.perform_idle {op : ExtOp} {r : op.Res} (h : op.perform t m c = some (r, m')) :
    Idle m m' := by
  obtain ⟨pods, resolved, rfl⟩ := ExtOp.perform_eq h
  exact .of_eq rfl (fun _ => rfl) rfl rfl id id id rfl

theorem SlotOp.perform_idle {op : SlotOp} {r : op.Res} (hop : Op.calm (.slot op))
    (h : op.perform t m = some (r, m')) : Idle m m' := by
  cases op <;> simp only [Op.calm] at hop <;> simp only [SlotOp.perform] at h
  case lookup => cases h; exact .refl m
  case stopped => cases h; exact .refl m
  case takeStop =>
    cases h
    have htouch := Slot.takeStop_touches m.slot t
    refine ⟨Slot.takeStop_entry .., fun u => ?_, fun u => ?_, fun u => ?_, fun _ => rfl,
      rfl, rfl, rfl, id, id, id⟩
    all_goals
      by_cases hu : u = t
      · subst hu
        unfold Slot.takeStop
        split <;> simp
      · simp only [htouch.hist u hu, htouch.owners u hu]
  case ran =>
    cases h
    refine ⟨rfl, fun u => ?_, fun u => ?_, fun _ => rfl, fun _ => rfl, rfl, rfl, rfl, id, id, id⟩
    all_goals
      by_cases hu : u = t
      · subst hu
        simp [Slot.ran]
      · simp [Slot.ran, hu]
  case await o =>
    split at h <;> cases h
    exact .refl m

theorem NoteOp.perform_idle {op : NoteOp} (h : op.perform m = some m') : Idle m m' := by
  cases op <;> simp only [NoteOp.perform] at h
  case reconciling =>
    split at h <;> cases h
    rename_i hb
    exact .of_eq rfl (fun _ => rfl) rfl rfl id id (fun _ => by rw [hb]; intro hup; cases hup) rfl
  case up => cases h; exact .of_eq rfl (fun _ => rfl) rfl rfl id id (fun hb => absurd rfl hb) rfl
  case accepted turnId => cases h; exact .of_eq rfl (fun _ => rfl) rfl rfl id id id rfl
  case endOk => cases h; exact .of_eq rfl (fun _ => rfl) rfl rfl id id id rfl
  case answered => cases h; exact .refl m

/-- A calm operation leaves the ledger as it is. -/
theorem perform_idle {op : Op} {r : op.Res} (hop : op.calm) (h : perform t op m c = some (r, m')) :
    Idle m m' := by
  cases op with
  | slot op => exact SlotOp.perform_idle hop h
  | store op => exact StoreOp.perform_idle hop h
  | ext op => exact ExtOp.perform_idle h
  | bind b op => exact BindOp.perform_idle hop h
  | note op =>
    simp only [perform, Option.map_eq_some_iff] at h
    obtain ⟨n, hn, heq⟩ := h
    cases heq
    exact NoteOp.perform_idle hn

theorem env_idle {l : EnvStep} (h : env m l = some m') : Idle m m' := by
  obtain ⟨now, pods, rfl⟩ := env_eq h
  exact .of_eq rfl (fun _ => rfl) rfl rfl id id id rfl

end AgentOps.Service
