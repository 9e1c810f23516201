import AgentOps.Lib.Machine
import AgentOps.SessionStore.Sqlite
import Mathlib.Data.List.Pairwise

/-!
# The stored log and the pod cursor

Every statement is described by the three tables that it leaves (`Db.Has`), and every operation that
succeeds by one of three effects on the sessions and the events (`Effect`): it inserts a session,
it changes columns of one, or it appends events to one. The numbering of the events and the
cursor are read off the effects.
-/

namespace AgentOps.SessionStore

open AgentOps.Api AgentOps.Lib

variable {α : Type} {u : Unit} {e : StoreError} {ns : List ℕ} {faults : List Bool}

variable {db db' : Db} {id : String} {n : ℕ}

/-! ## The tables after a statement -/

/-- The tables of the database. -/
structure Db.Has (db : Db) (sessions : List SessionRow) (events : List EventRow)
    (commands : List CommandRow) : Prop where
  sessions : db.sessions = sessions
  events : db.events = events
  commands : db.commands = commands

theorem has_setSessions {rows : List SessionRow} (h : db.setSessions rows = .ok db') :
    db'.Has rows db.events db.commands := by
  unfold Db.setSessions at h
  split at h
  · obtain rfl := Except.ok.inj h
    exact ⟨rfl, rfl, rfl⟩
  · nomatch h

theorem has_setEvents {rows : List EventRow} (h : db.setEvents rows = .ok db') :
    db'.Has db.sessions rows db.commands := by
  unfold Db.setEvents at h
  split at h
  · obtain rfl := Except.ok.inj h
    exact ⟨rfl, rfl, rfl⟩
  · nomatch h

theorem has_setCommands {rows : List CommandRow} (h : db.setCommands rows = .ok db') :
    db'.Has db.sessions db.events rows := by
  unfold Db.setCommands at h
  split at h
  · obtain rfl := Except.ok.inj h
    exact ⟨rfl, rfl, rfl⟩
  · nomatch h

/-- A statement that sets one table. -/
theorem of_map_ok {a : α} {x : Except StoreError Db} {g : Db → α × Db} (hg : ∀ d, (g d).2 = d)
    (h : x.map g = .ok (a, db')) : x = .ok db' ∧ a = (g db').1 := by
  cases x with
  | error e => nomatch h
  | ok d =>
    have hd : g d = (a, db') := Except.ok.inj h
    obtain rfl : d = db' := (hg d).symm.trans (congrArg Prod.snd hd)
    exact ⟨rfl, (congrArg Prod.fst hd).symm⟩

theorem ends_updateWhere {p : SessionRow → Bool} {f : SessionRow → SessionRow}
    (h : (updateWhere p f).Ends db n db') :
    n = db.sessions.countP p ∧ db'.Has (updated p f db.sessions) db.events db.commands := by
  obtain ⟨hset, hn⟩ := of_map_ok (fun _ => rfl) h.of_stmt
  exact ⟨hn, has_setSessions hset⟩

theorem ends_updateReturning {f : SessionRow → SessionRow} {field : SessionRow → ℕ}
    (h : (updateReturning id f field).Ends db n db') :
    ∃ r ∈ db.sessions, r.id = id ∧ n = field (f r) ∧
      db'.Has (updated (hasID id) f db.sessions) db.events db.commands := by
  have hrun := h.of_stmt
  cases hfind : db.sessions.find? (hasID id) with
  | none =>
    rw [hfind] at hrun
    nomatch hrun
  | some r =>
    rw [hfind] at hrun
    obtain ⟨hset, hn⟩ := of_map_ok (fun _ => rfl) hrun
    have hid : hasID id r = true := List.find?_some hfind
    exact ⟨r, List.mem_of_find?_eq_some hfind, of_decide_eq_true hid, hn, has_setSessions hset⟩

theorem ends_insertSession {row : SessionRow} (h : (insertSession row).Ends db u db') :
    db'.Has (db.sessions ++ [row]) db.events db.commands :=
  has_setSessions (of_map_ok (fun _ => rfl) h.of_stmt).1

theorem ends_insertSessionEvent {row : EventRow} (h : (insertSessionEvent row).Ends db u db') :
    db'.Has db.sessions (db.events ++ [row]) db.commands :=
  has_setEvents (of_map_ok (fun _ => rfl) h.of_stmt).1

theorem ends_deleteWhere {p : CommandRow → Bool} (h : (deleteWhere p).Ends db u db') :
    db'.Has db.sessions db.events (db.commands.filter fun c => !p c) :=
  has_setCommands (of_map_ok (fun _ => rfl) h.of_stmt).1

theorem ends_putPodCommandRow {row : CommandRow} (h : (putPodCommandRow row).Ends db u db') :
    ∃ rows, db'.Has db.sessions db.events rows :=
  ⟨_, has_setCommands (of_map_ok (fun _ => rfl) h.of_stmt).1⟩

/-! ## Updates -/

theorem hasID_of_eq {r : SessionRow} (h : r.id = id) : hasID id r = true := decide_eq_true h

theorem hasID_of_ne {r : SessionRow} (h : r.id ≠ id) : ¬ hasID id r = true :=
  fun hid => h (of_decide_eq_true hid)

theorem updated_updated {f g : SessionRow → SessionRow} (hid : ∀ r, (g r).id = r.id)
    (rows : List SessionRow) :
    updated (hasID id) f (updated (hasID id) g rows) =
      updated (hasID id) (fun r => f (g r)) rows := by
  unfold updated
  rw [List.map_map]
  refine List.map_congr_left fun r _ => ?_
  by_cases h : hasID id r = true
  · have hg : hasID id (g r) = true := by
      unfold hasID at h ⊢
      rw [hid]
      exact h
    simp only [Function.comp_apply, if_pos h, if_pos hg]
  · simp only [Function.comp_apply, if_neg h]

theorem updated_of_countP_eq_zero {p : SessionRow → Bool} {f : SessionRow → SessionRow}
    {rows : List SessionRow} (h : rows.countP p = 0) : updated p f rows = rows := by
  rw [List.countP_eq_zero] at h
  exact (List.map_congr_left fun r hr => if_neg (h r hr)).trans (List.map_id _)

theorem mem_updated {p : SessionRow → Bool} {f : SessionRow → SessionRow} {rows : List SessionRow}
    {r : SessionRow} (hr : r ∈ rows) (hp : p r = true) : f r ∈ updated p f rows :=
  List.mem_map.mpr ⟨r, hr, if_pos hp⟩

/-- There is one session of an id. -/
theorem eq_of_id_eq {r r' : SessionRow} (hr : r ∈ db.sessions) (hr' : r' ∈ db.sessions)
    (h : r.id = r'.id) : r = r' :=
  List.inj_on_of_nodup_map db.ids hr hr' h

/-! ## Appended events -/

def NewSessionEvent.row (ev : NewSessionEvent) (id : String) (n : ℕ) : EventRow :=
  ⟨id, n, ev.eventType, ev.turnID, ev.time, ev.payload⟩

variable {evs : List NewSessionEvent} {ev : NewSessionEvent}

/-- The rows of the events, from a number on. -/
def rowsFrom (id : String) (n : ℕ) : List NewSessionEvent → List EventRow
  | [] => []
  | ev :: evs => ev.row id n :: rowsFrom id (n + 1) evs

theorem map_seq_rowsFrom (id : String) (n : ℕ) (evs : List NewSessionEvent) :
    (rowsFrom id n evs).map EventRow.seq = List.range' n evs.length := by
  induction evs generalizing n with
  | nil => rfl
  | cons ev evs ih =>
    rw [rowsFrom, List.map_cons, ih, List.length_cons, List.range'_succ]
    rfl

theorem sessionID_of_mem_rowsFrom {e : EventRow} (h : e ∈ rowsFrom id n evs) :
    e.sessionID = id := by
  induction evs generalizing n with
  | nil => nomatch h
  | cons ev evs ih =>
    rcases List.mem_cons.mp h with rfl | h
    · rfl
    · exact ih h

/-- The session has been given `k` more numbers. -/
def SessionRow.counted (k : ℕ) (r : SessionRow) : SessionRow :=
  { r with eventSeq := r.eventSeq + k }

variable {f : SessionRow → SessionRow} {r : SessionRow}

theorem updated_counted (k : ℕ) (rows : List SessionRow) :
    updated (hasID id) (SessionRow.counted k) (updated (hasID id) (SessionRow.counted 1) rows) =
      updated (hasID id) (SessionRow.counted (k + 1)) rows := by
  rw [updated_updated (g := SessionRow.counted 1) fun _ => rfl]
  unfold SessionRow.counted
  simp only [Nat.add_assoc, Nat.add_comm 1]

theorem ends_pushEvent (h : (pushEvent id ev).Ends db n db') :
    ∃ r ∈ db.sessions, r.id = id ∧ n = r.eventSeq + 1 ∧
      db'.Has (updated (hasID id) (SessionRow.counted 1) db.sessions) (db.events ++ [ev.row id n])
        db.commands := by
  obtain ⟨m, d, hnext, h⟩ := Tx.Ends.of_bind h
  obtain ⟨u, d', hins, hret⟩ := Tx.Ends.of_bind h
  obtain ⟨rfl, rfl⟩ := Tx.Ends.of_ret hret
  obtain ⟨r, hr, hid, rfl, hd⟩ := ends_updateReturning hnext
  have hd' := ends_insertSessionEvent hins
  refine ⟨r, hr, hid, rfl, hd'.sessions.trans hd.sessions, ?_, hd'.commands.trans hd.commands⟩
  rw [hd'.events, hd.events]
  rfl

theorem ends_pushEvents (h : (pushEvents id evs).Ends db ns db') (hr : r ∈ db.sessions)
    (hid : r.id = id) :
    ns = List.range' (r.eventSeq + 1) evs.length ∧
      db'.Has (updated (hasID id) (SessionRow.counted evs.length) db.sessions)
        (db.events ++ rowsFrom id (r.eventSeq + 1) evs) db.commands := by
  induction evs generalizing db ns r with
  | nil =>
    obtain ⟨rfl, rfl⟩ := Tx.Ends.of_ret h
    refine ⟨rfl, ?_, (List.append_nil _).symm, rfl⟩
    exact ((List.map_congr_left fun r _ => ite_self r).trans (List.map_id _)).symm
  | cons ev evs ih =>
    obtain ⟨m, d, hpush, h⟩ := Tx.Ends.of_bind h
    obtain ⟨ms, d', hrest, hret⟩ := Tx.Ends.of_bind h
    obtain ⟨rfl, rfl⟩ := Tx.Ends.of_ret hret
    obtain ⟨r', hr', hid', rfl, hd⟩ := ends_pushEvent hpush
    obtain rfl := eq_of_id_eq hr hr' (hid.trans hid'.symm)
    -- the session as the first event leaves it
    have hmem : r.counted 1 ∈ d.sessions := by
      rw [hd.sessions]
      exact mem_updated hr (hasID_of_eq hid)
    obtain ⟨rfl, hd'⟩ := ih hrest hmem hid
    refine ⟨List.range'_succ.symm, ?_, ?_, hd'.commands.trans hd.commands⟩
    · rw [hd'.sessions, hd.sessions, updated_counted, List.length_cons]
    · rw [hd'.events, hd.events, List.append_assoc]
      rfl

/-- The cursor after `appendEvent`. -/
def SessionRow.advanced (podSeq : ℤ) (r : SessionRow) : SessionRow :=
  if podSeq > 0 then { r with podSeq := max r.podSeq podSeq } else r

/-- The commands that `appendEvent` leaves. -/
def remaining (endsTurn : Bool) (id turnID : String) (commands : List CommandRow) :
    List CommandRow :=
  if endsTurn then commands.filter fun c => !(c.sessionID = id ∧ c.turnID = turnID) else commands

theorem ends_appendEvent {podSeq : ℤ} {endsTurn : Bool}
    (h : (appendEvent id ev podSeq endsTurn).Ends db n db') :
    ∃ r ∈ db.sessions, r.id = id ∧ n = r.eventSeq + 1 ∧
      db'.Has (updated (hasID id) (fun r => (r.counted 1).advanced podSeq) db.sessions)
        (db.events ++ [ev.row id n]) (remaining endsTurn id ev.turnID db.commands) := by
  obtain ⟨m, d, hpush, h⟩ := Tx.Ends.of_bind h
  obtain ⟨u, d₁, hdel, h⟩ := Tx.Ends.of_bind h
  obtain ⟨u', d₂, hadv, hret⟩ := Tx.Ends.of_bind h
  obtain ⟨rfl, rfl⟩ := Tx.Ends.of_ret hret
  obtain ⟨r, hr, hid, rfl, hd⟩ := ends_pushEvent hpush.of_mapError
  have hd₁ : d₁.Has d.sessions d.events (remaining endsTurn id ev.turnID d.commands) := by
    unfold remaining
    rcases hdel.of_when with ⟨hends, v, hdel⟩ | ⟨hends, rfl⟩
    · rw [if_pos hends]
      exact ends_deleteWhere hdel
    · rw [if_neg hends]
      exact ⟨rfl, rfl, rfl⟩
  have hd₂ : db'.Has (updated (hasID id) (SessionRow.advanced podSeq) d₁.sessions) d₁.events
      d₁.commands := by
    unfold SessionRow.advanced
    rcases hadv.of_when with ⟨hpos, v, hadv⟩ | ⟨hpos, rfl⟩
    · simp only [if_pos hpos]
      exact (ends_updateWhere hadv).2
    · simp only [if_neg hpos]
      exact ⟨((List.map_congr_left fun r _ => ite_self r).trans (List.map_id _)).symm, rfl, rfl⟩
  refine ⟨r, hr, hid, rfl, ?_, ?_, ?_⟩
  · rw [hd₂.sessions, hd₁.sessions, hd.sessions,
      updated_updated (g := SessionRow.counted 1) fun _ => rfl]
  · rw [hd₂.events, hd₁.events, hd.events]
  · rw [hd₂.commands, hd₁.commands, hd.commands]

/-- A `FinishSession` that ran: the session was live, and has the status and the events. -/
structure Finished (id : String) (status : SessionState) (now : ℤ) (events : List NewSessionEvent)
    (ns : List ℕ) (db db' : Db) (r : SessionRow) : Prop where
  mem : r ∈ db.sessions
  id_eq : r.id = id
  live : r.live = true
  numbers : ns = List.range' (r.eventSeq + 1) events.length
  has : db'.Has
    (updated (hasID id)
      (fun r => { r with status, updatedAt := now, eventSeq := r.eventSeq + events.length })
      db.sessions)
    (db.events ++ rowsFrom id (r.eventSeq + 1) events)
    (db.commands.filter fun c => !(c.sessionID = id))

/-- An `UPDATE` that asks for the live row of an id whose row is live. -/
theorem updated_live (hr : r ∈ db.sessions) (hid : r.id = id) (hlive : r.live = true)
    (f : SessionRow → SessionRow) :
    updated (fun r => hasID id r && r.live) f db.sessions = updated (hasID id) f db.sessions := by
  refine List.map_congr_left fun a ha => ?_
  by_cases h : a.id = id
  · obtain rfl := eq_of_id_eq ha hr (h.trans hid.symm)
    simp only [hlive, Bool.and_true]
  · simp only [hasID_of_ne h, Bool.false_and]

theorem ends_finishBody {status : SessionState} {now : ℤ} {events : List NewSessionEvent}
    (h : (finishBody id status now events).Ends db ns db') :
    ∃ r, Finished id status now events ns db db' r := by
  obtain ⟨n, d, hrow, h⟩ := Tx.Ends.of_bind h
  obtain ⟨rfl, hd⟩ := ends_updateWhere hrow
  split at h
  · obtain ⟨found, d', hget, h⟩ := Tx.Ends.of_bind h
    cases found with
    | none => exact h.of_fail.elim
    | some r => exact h.of_fail.elim
  · next hcount =>
    obtain ⟨u, d₁, hdel, hpush⟩ := Tx.Ends.of_bind h
    have hd₁ := ends_deleteWhere hdel
    obtain ⟨r, hr, hlive⟩ := List.countP_pos_iff.mp (Nat.pos_of_ne_zero hcount)
    obtain ⟨hid, hlive⟩ := (Bool.and_eq_true _ _).mp hlive
    have hid : r.id = id := of_decide_eq_true hid
    have hsessions := hd.sessions.trans (updated_live hr hid hlive _)
    have hmem : { r with status, updatedAt := now } ∈ d₁.sessions := by
      rw [hd₁.sessions, hsessions]
      exact mem_updated hr (hasID_of_eq hid)
    obtain ⟨hns, hd₂⟩ := ends_pushEvents hpush hmem hid
    refine ⟨r, hr, hid, hlive, hns, ?_, ?_, ?_⟩
    · rw [hd₂.sessions, hd₁.sessions, hsessions,
        updated_updated (g := fun r => { r with status, updatedAt := now }) fun _ => rfl]
      rfl
    · rw [hd₂.events, hd₁.events, hd.events]
    · rw [hd₂.commands, hd₁.commands, hd.commands]

/-! ## The effects of the operations -/

/-- A change of a row that keeps its id, and its cursor while it keeps its stream. -/
structure KeepsRow (f : SessionRow → SessionRow) : Prop where
  id_eq : ∀ r, (f r).id = r.id
  cursor : ∀ r, (f r).streamID = r.streamID → r.podSeq ≤ (f r).podSeq

/-- What an operation does to the sessions and the events. -/
inductive Effect (db db' : Db) : Prop
  | create {row : SessionRow} (sessions : db'.sessions = db.sessions ++ [row])
    (events : db'.events = db.events) (fresh : row.eventSeq = 0)
  | change {p : SessionRow → Bool} {f : SessionRow → SessionRow}
    (sessions : db'.sessions = updated p f db.sessions) (events : db'.events = db.events)
    (keeps : KeepsRow f) (eventSeq : ∀ r, (f r).eventSeq = r.eventSeq)
  | append {id : String} {f : SessionRow → SessionRow} {r : SessionRow}
    {evs : List NewSessionEvent} (sessions : db'.sessions = updated (hasID id) f db.sessions)
    (events : db'.events = db.events ++ rowsFrom id (r.eventSeq + 1) evs) (mem : r ∈ db.sessions)
    (id_eq : r.id = id) (keeps : KeepsRow f)
    (eventSeq : ∀ r, (f r).eventSeq = r.eventSeq + evs.length)

theorem Effect.of_commands {rows : List CommandRow} (h : db'.Has db.sessions db.events rows) :
    Effect db db' :=
  .change (p := fun _ => false) (f := fun r => r) (h.sessions.trans (List.map_id _).symm) h.events
    ⟨fun _ => rfl, fun _ _ => le_rfl⟩ (fun _ => rfl)

theorem Effect.refl (db : Db) : Effect db db := .of_commands ⟨rfl, rfl, rfl⟩

theorem returning_ok {g : α → List ℕ} {x : Except StoreError α × Db}
    (h : returning g x = (.ok ns, db')) : ∃ a, ns = g a ∧ x = (.ok a, db') := by
  obtain ⟨res, d⟩ := x
  obtain ⟨hres, rfl⟩ := Prod.mk.inj h
  cases res with
  | error e => nomatch hres
  | ok a => exact ⟨a, (Except.ok.inj hres).symm, rfl⟩

theorem returning_error {g : α → List ℕ} {x : Except StoreError α × Db}
    (h : returning g x = (.error e, db')) : x = (.error e, db') := by
  obtain ⟨res, d⟩ := x
  obtain ⟨hres, rfl⟩ := Prod.mk.inj h
  cases res with
  | error e' =>
    obtain rfl := Except.error.inj hres
    rfl
  | ok a => nomatch hres

theorem oneRow_ok {x : Except StoreError ℕ × Db} (h : oneRow x = (.ok ns, db')) :
    ∃ n, x = (.ok n, db') := by
  obtain ⟨res, d⟩ := x
  obtain ⟨hres, rfl⟩ := Prod.mk.inj h
  cases res with
  | error e => nomatch hres
  | ok n => exact ⟨n, rfl⟩

theorem oneRow_error {x : Except StoreError ℕ × Db} (h : oneRow x = (.error e, db')) :
    x = (.ok 0, db') ∨ x = (.error e, db') := by
  obtain ⟨res, d⟩ := x
  obtain ⟨hres, rfl⟩ := Prod.mk.inj h
  cases res with
  | error e' =>
    obtain rfl := Except.error.inj hres
    exact .inr rfl
  | ok n =>
    cases n with
    | zero => exact .inl rfl
    | succ n => nomatch hres

/-- A row that keeps every column that the log and the cursor read. -/
theorem effect_quietly (h : quietly (Tx.inTx .failed (updateByID id f) db faults) = (.ok ns, db'))
    (hid : ∀ r, (f r).id = r.id) (hseq : ∀ r, (f r).eventSeq = r.eventSeq)
    (hpod : ∀ r, (f r).podSeq = r.podSeq) : Effect db db' := by
  obtain ⟨n, -, hrun⟩ := returning_ok h
  have hd := (ends_updateWhere (Tx.ends_of_inTx hrun)).2
  exact .change hd.sessions hd.events ⟨hid, fun r _ => (hpod r).ge⟩ hseq

theorem effect_deleteWhere {p : CommandRow → Bool}
    (h : quietly (Tx.inTx .failed (deleteWhere p) db faults) = (.ok ns, db')) : Effect db db' := by
  obtain ⟨u, -, hrun⟩ := returning_ok h
  exact .of_commands (ends_deleteWhere (Tx.ends_of_inTx hrun))

theorem keepsRow_advanced (podSeq : ℤ) : KeepsRow fun r => (r.counted 1).advanced podSeq := by
  refine ⟨fun r => ?_, fun r _ => ?_⟩
  · unfold SessionRow.advanced
    split <;> rfl
  · unfold SessionRow.advanced
    split
    · exact le_max_left _ _
    · exact le_rfl

theorem eventSeq_advanced (podSeq : ℤ) (r : SessionRow) :
    ((r.counted 1).advanced podSeq).eventSeq = r.eventSeq + 1 := by
  unfold SessionRow.advanced
  split <;> rfl

theorem effect_appendEvent {podSeq : ℤ} {endsTurn : Bool}
    (h : numbered (Tx.inTx .failed (appendEvent id ev podSeq endsTurn) db faults) = (.ok ns, db')) :
    Effect db db' := by
  obtain ⟨n, -, hrun⟩ := returning_ok h
  obtain ⟨r, hr, hid, rfl, hd⟩ := ends_appendEvent (Tx.ends_of_inTx hrun)
  have hevents : db'.events = db.events ++ rowsFrom id (r.eventSeq + 1) [ev] := hd.events
  exact .append hd.sessions hevents hr hid (keepsRow_advanced podSeq) (eventSeq_advanced podSeq)

theorem run_effect {op : Op} (h : op.run faults db = (.ok ns, db')) : Effect db db' := by
  cases op with
  | createSession row now =>
    obtain ⟨u, -, hrun⟩ := returning_ok h
    have hd := ends_insertSession (Tx.ends_of_inTx hrun).of_mapError
    exact .create hd.sessions hd.events rfl
  | updateSessionSandbox | updateSessionACP | updateSessionStatus | updateSessionApprover
  | updateSessionSuspended | updateSessionLaunched | updateSessionRun | updateSessionRunExpiry =>
    exact effect_quietly h (fun _ => rfl) (fun _ => rfl) (fun _ => rfl)
  | updateSessionLink id executor streamID podSeq now =>
    obtain ⟨n, hrun⟩ := oneRow_ok h
    have hd := (ends_updateWhere (Tx.ends_of_inTx hrun)).2
    refine .change hd.sessions hd.events ⟨fun _ => rfl, fun r hstream => ?_⟩ (fun _ => rfl)
    show r.podSeq ≤ if r.streamID = streamID then max r.podSeq podSeq else podSeq
    rw [if_pos (Eq.symm hstream)]
    exact le_max_left _ _
  | advancePodSeq id podSeq =>
    obtain ⟨n, hrun⟩ := oneRow_ok h
    have hd := (ends_updateWhere (Tx.ends_of_inTx hrun)).2
    exact .change hd.sessions hd.events ⟨fun _ => rfl, fun r _ => le_max_left _ _⟩ (fun _ => rfl)
  | nextTurnSeq id =>
    obtain ⟨n, -, hrun⟩ := returning_ok h
    obtain ⟨r, hr, hid, -, hd⟩ := ends_updateReturning (Tx.ends_of_inTx hrun).of_mapError
    exact .change hd.sessions hd.events ⟨fun _ => rfl, fun _ _ => le_rfl⟩ (fun _ => rfl)
  | appendSessionEvent | appendPodEvent | appendPodTurnEnd => exact effect_appendEvent h
  | finishSession id status events now =>
    obtain ⟨r, hfin⟩ := ends_finishBody (Tx.ends_of_inTx h)
    exact .append hfin.has.sessions hfin.has.events hfin.mem hfin.id_eq
      ⟨fun _ => rfl, fun _ _ => le_rfl⟩ (fun _ => rfl)
  | putPodCommand cmd =>
    obtain ⟨u, -, hrun⟩ := returning_ok h
    obtain ⟨rows, hd⟩ := ends_putPodCommandRow (Tx.ends_of_inTx hrun)
    exact .of_commands hd
  | deletePodCommand | deletePodCommandsForTurn | deletePodCommands => exact effect_deleteWhere h

/-- An `UPDATE` of no row changes nothing. -/
theorem eq_of_oneRow_error
    (h : oneRow (Tx.inTx .failed (updateByID id f) db faults) = (.error e, db')) : db' = db := by
  rcases oneRow_error h with hrun | hrun
  · obtain ⟨hn, hd⟩ := ends_updateWhere (Tx.ends_of_inTx hrun)
    have hsessions := hd.sessions.trans (updated_of_countP_eq_zero hn.symm)
    cases db
    cases db'
    obtain rfl := hsessions
    obtain rfl := hd.events
    obtain rfl := hd.commands
    rfl
  · exact Tx.eq_of_inTx_error hrun

/-- An operation that fails changes nothing. -/
theorem run_error {op : Op} (h : op.run faults db = (.error e, db')) : db' = db := by
  cases op with
  | updateSessionLink | advancePodSeq => exact eq_of_oneRow_error h
  | finishSession => exact Tx.eq_of_inTx_error h
  | _ => exact Tx.eq_of_inTx_error (returning_error h)

theorem step_effect {l : Op × List Bool} (h : step db l = some db') : Effect db db' := by
  obtain rfl := Option.some.inj h
  obtain ⟨op, faults⟩ := l
  rcases hres : op.run faults db with ⟨e | ns, db'⟩
  · obtain rfl := run_error hres
    exact .refl db'
  · exact run_effect hres

/-! ## The stored log -/

/-- The numbers of the session's rows, in the order of the table. -/
def Db.numbers (db : Db) (id : String) : List ℕ :=
  (db.events.filter fun e => e.sessionID = id).map EventRow.seq

structure Logged (db : Db) : Prop where
  numbers : ∀ r ∈ db.sessions, db.numbers r.id = List.range' 1 r.eventSeq
  owned : ∀ e ∈ db.events, ∃ r ∈ db.sessions, r.id = e.sessionID

theorem numbers_congr (h : db'.events = db.events) (id : String) :
    db'.numbers id = db.numbers id := by
  unfold Db.numbers
  rw [h]

theorem numbers_append (h : db'.events = db.events ++ rowsFrom id n evs) :
    db'.numbers id = db.numbers id ++ List.range' n evs.length := by
  unfold Db.numbers
  rw [h, List.filter_append, List.map_append, ← map_seq_rowsFrom id n evs,
    List.filter_eq_self.mpr fun e he => decide_eq_true (sessionID_of_mem_rowsFrom he)]

theorem numbers_append_of_ne {id' : String} (hne : id' ≠ id)
    (h : db'.events = db.events ++ rowsFrom id n evs) : db'.numbers id' = db.numbers id' := by
  have hnone : (rowsFrom id n evs).filter (fun e => e.sessionID = id') = [] := by
    refine List.filter_eq_nil_iff.mpr fun e he hid => hne ?_
    exact (of_decide_eq_true hid).symm.trans (sessionID_of_mem_rowsFrom he)
  unfold Db.numbers
  rw [h, List.filter_append, hnone, List.append_nil]

theorem mem_updated_iff {p : SessionRow → Bool} {rows : List SessionRow} {a : SessionRow} :
    a ∈ updated p f rows ↔ ∃ r ∈ rows, a = if p r then f r else r := by
  unfold updated
  simp only [List.mem_map, eq_comm]

/-- A session is still there after an update. -/
theorem id_mem_updated {p : SessionRow → Bool} {rows : List SessionRow} (hf : ∀ r, (f r).id = r.id)
    (hr : r ∈ rows) : ∃ r' ∈ updated p f rows, r'.id = r.id := by
  refine ⟨_, mem_updated_iff.mpr ⟨r, hr, rfl⟩, ?_⟩
  split
  · exact hf r
  · rfl

theorem Logged.effect (h : Logged db) (heffect : Effect db db') : Logged db' := by
  cases heffect with
  | @create row sessions events fresh =>
    refine ⟨fun r hr => ?_, fun e he => ?_⟩
    · rw [numbers_congr events]
      rw [sessions] at hr
      rcases List.mem_append.mp hr with hr | hr
      · exact h.numbers r hr
      · obtain rfl := List.mem_singleton.mp hr
        have hids := db'.ids
        rw [sessions, List.map_append, List.map_singleton] at hids
        have hnew : r.id ∉ db.sessions.map SessionRow.id := fun hmem =>
          (List.disjoint_of_nodup_append hids) hmem (List.mem_singleton.mpr rfl)
        -- an event of a session that was not there would have no owner
        have hnone : db.events.filter (fun e => e.sessionID = r.id) = [] := by
          refine List.filter_eq_nil_iff.mpr fun e he hid => hnew ?_
          obtain ⟨a, ha, haid⟩ := h.owned e he
          exact List.mem_map.mpr ⟨a, ha, haid.trans (of_decide_eq_true hid)⟩
        unfold Db.numbers
        rw [hnone, fresh]
        rfl
    · rw [events] at he
      obtain ⟨r, hr, hid⟩ := h.owned e he
      exact ⟨r, sessions ▸ List.mem_append_left _ hr, hid⟩
  | change sessions events keeps eventSeq =>
    refine ⟨fun r hr => ?_, fun e he => ?_⟩
    · rw [numbers_congr events]
      rw [sessions] at hr
      obtain ⟨a, ha, rfl⟩ := mem_updated_iff.mp hr
      split
      · rw [keeps.id_eq, eventSeq]
        exact h.numbers a ha
      · exact h.numbers a ha
    · rw [events] at he
      obtain ⟨r, hr, hid⟩ := h.owned e he
      rw [sessions, ← hid]
      exact id_mem_updated keeps.id_eq hr
  | @append id f r evs sessions events mem id_eq keeps eventSeq =>
    refine ⟨fun a ha => ?_, fun e he => ?_⟩
    · rw [sessions] at ha
      obtain ⟨b, hb, rfl⟩ := mem_updated_iff.mp ha
      by_cases hid : b.id = id
      · obtain rfl := eq_of_id_eq mem hb (id_eq.trans hid.symm)
        rw [if_pos (hasID_of_eq hid), keeps.id_eq, eventSeq, hid, numbers_append events,
          ← hid, h.numbers r mem, Nat.add_comm r.eventSeq 1, List.range'_append_1]
      · rw [if_neg (hasID_of_ne hid), numbers_append_of_ne hid events]
        exact h.numbers b hb
    · rw [sessions]
      rw [events] at he
      rcases List.mem_append.mp he with he | he
      · obtain ⟨a, ha, hid⟩ := h.owned e he
        rw [← hid]
        exact id_mem_updated keeps.id_eq ha
      · rw [sessionID_of_mem_rowsFrom he, ← id_eq]
        exact id_mem_updated keeps.id_eq mem

/-! ## The cursor -/

/-- The cursor of a session does not go down while it keeps its stream. -/
theorem Effect.cursor (h : Effect db db') (hr : r ∈ db.sessions) :
    ∃ r' ∈ db'.sessions, r'.id = r.id ∧ (r'.streamID = r.streamID → r.podSeq ≤ r'.podSeq) := by
  have hupdate : ∀ {p : SessionRow → Bool} {f : SessionRow → SessionRow}, KeepsRow f →
      db'.sessions = updated p f db.sessions →
      ∃ r' ∈ db'.sessions, r'.id = r.id ∧ (r'.streamID = r.streamID → r.podSeq ≤ r'.podSeq) := by
    intro p f keeps sessions
    refine ⟨_, sessions ▸ mem_updated_iff.mpr ⟨r, hr, rfl⟩, ?_⟩
    split
    · exact ⟨keeps.id_eq r, keeps.cursor r⟩
    · exact ⟨rfl, fun _ => le_rfl⟩
  cases h with
  | create sessions events fresh =>
    exact ⟨r, sessions ▸ List.mem_append_left _ hr, rfl, fun _ => le_rfl⟩
  | change sessions events keeps eventSeq => exact hupdate keeps sessions
  | append sessions events mem id_eq keeps eventSeq => exact hupdate keeps sessions

/-- A step after which the session still has the stream of `r`. -/
def KeepsStream (r : SessionRow) (db : Db) (l : Op × List Bool) : Prop :=
  ∀ r' ∈ (l.1.run l.2 db).2.sessions, r'.id = r.id → r'.streamID = r.streamID

theorem cursor_run (hr : r ∈ db.sessions) (h : Reach step (KeepsStream r) db db') :
    ∃ r' ∈ db'.sessions, r'.id = r.id ∧ r'.streamID = r.streamID ∧ r.podSeq ≤ r'.podSeq := by
  refine h.invariant (fun d => ∃ r' ∈ d.sessions, r'.id = r.id ∧ r'.streamID = r.streamID ∧
    r.podSeq ≤ r'.podSeq) ⟨r, hr, rfl, rfl, le_rfl⟩ ?_
  rintro a b l ⟨x, hx, hid, hstream, hle⟩ hkeeps hstep
  obtain ⟨y, hy, hyid, hcursor⟩ := (step_effect hstep).cursor hx
  obtain rfl := Option.some.inj hstep
  have hystream := hkeeps y hy (hyid.trans hid)
  exact ⟨y, hy, hyid.trans hid, hystream, hle.trans (hcursor (hystream.trans hstream.symm))⟩

/-! ## The store over whole runs -/

theorem logged_empty : Logged {} := ⟨List.forall_mem_nil _, List.forall_mem_nil _⟩

theorem logged_of_reach (h : Reach step (fun _ _ => True) {} db) : Logged db :=
  h.invariant Logged logged_empty fun hlogged _ hstep => hlogged.effect (step_effect hstep)

instance : Std.Symm SessionRow.Apart :=
  ⟨fun _ _ h hb ha heq => h ha hb ⟨heq.1.symm, heq.2.symm⟩⟩

/-- There is one live session of a client and a conversation. -/
theorem eq_of_live {r' : SessionRow} (hr : r ∈ db.sessions) (hr' : r' ∈ db.sessions)
    (hlive : r.live = true) (hlive' : r'.live = true) (hclient : r.clientID = r'.clientID)
    (hconv : r.conversationRef = r'.conversationRef) : r = r' := by
  by_contra hne
  exact List.Pairwise.forall db.liveConversation hr hr' hne hlive hlive' ⟨hclient, hconv⟩

/-- What an operation that ran on `db` has returned and left. -/
structure Outcome (op : Op) (db : Db) (out : Result × Db) : Prop where
  failed : ∀ e, out.1 = .error e → out.2 = db
  finished : ∀ id status events now ns, op = .finishSession id status events now →
    status = .ended ∨ status = .interrupted → out.1 = .ok ns →
    ∃ r ∈ db.sessions, r.id = id ∧ r.live = true ∧
      (∀ r' ∈ out.2.sessions, r'.id = id → r'.status = status ∧ r'.live = false) ∧
      (∀ c ∈ out.2.commands, c.sessionID ≠ id) ∧
      out.2.events = db.events ++ rowsFrom id (r.eventSeq + 1) events ∧
      ns = List.range' (r.eventSeq + 1) events.length
  turnEnded : ∀ id ev podSeq ns, op = .appendPodTurnEnd id ev podSeq → out.1 = .ok ns →
    ∃ n, ns = [n] ∧ out.2.events = db.events ++ [ev.row id n] ∧
      out.2.commands = db.commands.filter fun c => !(c.sessionID = id ∧ c.turnID = ev.turnID)

theorem live_eq_false (h : r.status = .ended ∨ r.status = .interrupted) : r.live = false := by
  unfold SessionRow.live
  rcases h with h | h <;> rw [h] <;> rfl

theorem Finished.status {status : SessionState} {now : ℤ} {events : List NewSessionEvent}
    {r' : SessionRow} (h : Finished id status now events ns db db' r) (hr' : r' ∈ db'.sessions)
    (hid : r'.id = id) : r'.status = status := by
  rw [h.has.sessions] at hr'
  obtain ⟨a, ha, rfl⟩ := mem_updated_iff.mp hr'
  by_cases haid : a.id = id
  · rw [if_pos (hasID_of_eq haid)]
  · rw [if_neg (hasID_of_ne haid)] at hid
    exact absurd hid haid

theorem run_outcome (op : Op) (faults : List Bool) (db : Db) :
    Outcome op db (op.run faults db) where
  failed e h := run_error (Prod.ext h rfl)
  finished id status events now ns hop hterminal hok := by
    subst hop
    obtain ⟨r, hfin⟩ := ends_finishBody (Tx.ends_of_inTx (Prod.ext hok rfl))
    refine ⟨r, hfin.mem, hfin.id_eq, hfin.live, fun r' hr' hid => ?_, fun c hc => ?_,
      hfin.has.events, hfin.numbers⟩
    · have hstatus := hfin.status hr' hid
      exact ⟨hstatus, live_eq_false (hstatus ▸ hterminal)⟩
    · have hc : c ∈ _ := hfin.has.commands ▸ hc
      simpa using (List.mem_filter.mp hc).2
  turnEnded id ev podSeq ns hop hok := by
    subst hop
    obtain ⟨n, hns, hrun⟩ := returning_ok (Prod.ext hok rfl)
    obtain ⟨r, hr, hid, hn, hd⟩ := ends_appendEvent (Tx.ends_of_inTx hrun)
    exact ⟨n, hns, hd.events, hd.commands⟩

/-- In every run of the store, whatever statements fail: the rows of each session have the numbers
from one to its counter, a failed operation changes nothing, a session that was finished with a
terminal status was live and is not, its commands are gone and its events are at the end, a turn's
end and the removal of its commands go together, there is one live session of a client and a
conversation, and a cursor does not go down while the stream stays the same. -/
theorem store_consistent (h : Reach step (fun _ _ => True) {} db) :
    Logged db ∧ (∀ op faults, Outcome op db (op.run faults db)) ∧
    (∀ r ∈ db.sessions, ∀ r' ∈ db.sessions, r.live = true → r'.live = true →
      r.clientID = r'.clientID → r.conversationRef = r'.conversationRef → r = r') ∧
    (∀ r ∈ db.sessions, ∀ db', Reach step (KeepsStream r) db db' →
      ∃ r' ∈ db'.sessions, r'.id = r.id ∧ r'.streamID = r.streamID ∧ r.podSeq ≤ r'.podSeq) :=
  ⟨logged_of_reach h, fun op faults => run_outcome op faults db,
    fun _ hr _ hr' => eq_of_live hr hr', fun _ hr _ hreach => cursor_run hr hreach⟩

/-- A session with a saved command, one event and a cursor; a second one for its conversation and an
append that fails on its last statement leave nothing. -/
def savedCommand : List (Op × List Bool) :=
  let row : SessionRow :=
    { id := "s1", clientID := "c", conversationRef := "t", createdAt := 0, updatedAt := 0 }
  [(.createSession row 10, []), (.createSession { row with id := "s2" } 11, []),
    (.updateSessionLink "s1" "pod" "stream" 3 12, []),
    (.putPodCommand ⟨"s1", "prompt", "k", "turn-1", []⟩, []),
    (.appendPodEvent "s1" { eventType := "turn", turnID := "turn-1", time := 13 } 5,
      [false, false, true]),
    (.appendPodEvent "s1" { eventType := "turn", turnID := "turn-1", time := 14 } 5, [])]

theorem store_consistent_savedCommand :
    (exec step {} savedCommand).map (fun db => db.sessions.map fun r => (r.id, r.podSeq)) =
      some [("s1", 5)] ∧
    let db := (exec step {} savedCommand).getD {}
    let out := (Op.finishSession "s1" .ended [{ eventType := "end", time := 15 }] 15).run [] db
    out.1 = .ok [2] ∧ out.2.commands = [] ∧ Logged db ∧
      Outcome (.finishSession "s1" .ended [{ eventType := "end", time := 15 }] 15) db out := by
  have hreach : Reach step (fun _ _ => True) {} ((exec step {} savedCommand).getD {}) :=
    Reach.of_exec_getD savedCommand (by decide)
  exact ⟨by decide, by decide, by decide, (store_consistent hreach).1,
    (store_consistent hreach).2.1 _ _⟩

/-- `FinishSession` takes any status: with `running` it succeeds, and the session is live. -/
theorem finishSession_running :
    let db := (exec step {} savedCommand).getD {}
    Reach step (fun _ _ => True) {} db ∧
    ((Op.finishSession "s1" .running [] 15).run [] db).1 = .ok [] ∧
    ((Op.finishSession "s1" .running [] 15).run [] db).2.sessions.map SessionRow.live = [true] :=
  ⟨Reach.of_exec_getD savedCommand (by decide), by decide, by decide⟩

end AgentOps.SessionStore
