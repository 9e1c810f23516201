import AgentOps.Service.LedgerPrograms

/-!
# The log ends once, and its state changes are a chain

What the ledger gives for every run of any number of sessions, and the two runs without which
it would hold of all of them: an event that is recorded although the read before it failed,
and an end that comes between the insert of a row and the claim of the thread that inserted it.
-/

namespace AgentOps.Service

open AgentOps.Api AgentOps.Link AgentOps.Lib

variable {s s' : Config sig Mem} {l : ThreadLabel sig Choice EnvStep} {cfg : Settings} {d : Db}

/-! ## The steps of a run -/

/-- The steps of a run in which nobody takes a session between the insert of its row and the
claim of the thread that inserted it. -/
def orderlyStep (s : Config sig Mem) : ThreadLabel sig Choice EnvStep → Prop
  | .run t _ => ∀ op ∈ System.pending s t, orderly t op s.mem
  | _ => True

/-- The read before an event of a session that is over succeeds. -/
def heard (op : Op) (m : Mem) (c : Choice) : Prop :=
  match op with
  | .store (.recordEvent _ _) | .bind _ (.recordPod _ _ _) | .bind _ (.record _ _) =>
    m.db.terminal = true → c.readOk = true
  | _ => True

/-- The steps of a run in which the read before an event of a session that is over succeeds. -/
def heardStep (s : Config sig Mem) : ThreadLabel sig Choice EnvStep → Prop
  | .run t c => ∀ op ∈ System.pending s t, heard op s.mem c
  | _ => True

instance (t : ℕ) (op : Op) (m : Mem) : Decidable (orderly t op m) := by
  unfold orderly
  split <;> infer_instance

instance (op : Op) (m : Mem) (c : Choice) : Decidable (heard op m c) := by
  unfold heard
  split <;> infer_instance

instance (s : Config sig Mem) (l : ThreadLabel sig Choice EnvStep) :
    Decidable (orderlyStep s l) := by
  unfold orderlyStep
  split <;> infer_instance

instance (s : Config sig Mem) (l : ThreadLabel sig Choice EnvStep) : Decidable (heardStep s l) := by
  unfold heardStep
  split <;> infer_instance

theorem orderlyStep_ok (cfg : Settings) (h : orderlyStep s l) : (ledger cfg).ok s l := by
  cases l with
  | run t c => exact fun op k hk => h op (System.mem_pending hk)
  | _ => trivial

/-! ## Failures -/

/-- The read of a session or the append of an event succeeds. -/
def answered (op : Op) (c : Choice) : Prop :=
  match op with
  | .store .getSession => c.ok = true
  | .store (.recordEvent _ _) => c.readOk = true ∧ c.ok = true
  | .bind _ (.recordPod _ _ _) | .bind _ (.record _ _) => c.readOk = true
  | _ => True

/-- The steps of a run without a crash in which reads of sessions and appends of events
succeed. -/
def answeredStep (s : Config sig Mem) : ThreadLabel sig Choice EnvStep → Prop
  | .run t c => ∀ op ∈ System.pending s t, answered op c
  | .crash => False
  | _ => True

instance (op : Op) (c : Choice) : Decidable (answered op c) := by
  unfold answered
  split <;> infer_instance

instance (s : Config sig Mem) (l : ThreadLabel sig Choice EnvStep) :
    Decidable (answeredStep s l) := by
  unfold answeredStep
  split <;> infer_instance

/-- What a step notes of the failures in it: nothing, if the calls in question succeed. -/
structure Unharmed (m m' : Mem) (answered heard : Prop) : Prop where
  faulty : answered → m'.faulty = m.faulty
  late : heard → m'.late = m.late

theorem Unharmed.of_eq {m m' : Mem} {answered heard : Prop} (hf : m'.faulty = m.faulty)
    (hl : m'.late = m.late) : Unharmed m m' answered heard :=
  ⟨fun _ => hf, fun _ => hl⟩

theorem recordEvent_unharmed (m : Mem) (turnId : String) (p : Payload) (podSeq : ℕ)
    (readOk ok : Bool) :
    Unharmed m (m.recordEvent turnId p podSeq readOk ok).2 (readOk = true ∧ ok = true)
      (m.db.terminal = true → readOk = true) where
  faulty h := by
    show (m.faulty || !readOk || !ok) = m.faulty
    simp [h.1, h.2]
  late h := by
    show (m.late || !readOk && m.db.terminal) = m.late
    cases ht : m.db.terminal with
    | false => simp
    | true => simp [h ht]

theorem perform_unharmed {t : ℕ} {op : Op} {m m' : Mem} {c : Choice} {r : op.Res}
    (h : perform t op m c = some (r, m')) : Unharmed m m' (answered op c) (heard op m c) := by
  cases op with
  | slot op =>
    obtain ⟨slot, binds, creator, rfl⟩ := SlotOp.perform_eq h
    exact .of_eq rfl rfl
  | store op =>
    cases op <;> simp only [perform, StoreOp.perform] at h
    case recordEvent turnId p => cases h; exact recordEvent_unharmed ..
    case getSession =>
      split at h <;> cases h
      · exact .of_eq rfl rfl
      · rename_i hok
        exact ⟨fun ha => absurd ha hok, fun _ => rfl⟩
    all_goals (try split at h) <;> cases h <;> exact .of_eq rfl rfl
  | ext op =>
    obtain ⟨pods, resolved, rfl⟩ := ExtOp.perform_eq h
    exact .of_eq rfl rfl
  | bind b op =>
    cases op <;> simp only [perform, BindOp.perform] at h
    case recordPod turnId p seq =>
      split at h
      · cases h
        have hu := recordEvent_unharmed m turnId p seq c.readOk true
        exact ⟨fun ha => hu.faulty ⟨ha, rfl⟩, hu.late⟩
      · split at h <;> cases h; exact .of_eq rfl rfl
    case record turnId p =>
      split at h
      · cases h
        have hu := recordEvent_unharmed m turnId p 0 c.readOk true
        exact ⟨fun ha => hu.faulty ⟨ha, rfl⟩, hu.late⟩
      · split at h <;> cases h; exact .of_eq rfl rfl
    all_goals (repeat' split at h) <;> cases h <;> exact .of_eq rfl rfl
  | note op =>
    obtain ⟨boot, accepted, endOks, rfl⟩ := note_eq h
    exact .of_eq rfl rfl

theorem step_unharmed (hs : (system cfg).step s l = some s') :
    Unharmed s.mem s'.mem (answeredStep s l) (heardStep s l) := by
  cases System.step_mem hs with
  | @act t c op k r hk hdo =>
    have hu := perform_unharmed hdo
    exact ⟨fun h => hu.faulty (h op (System.mem_pending hk)),
      fun h => hu.late (h op (System.mem_pending hk))⟩
  | spawn _ hmem | start _ hmem | silent hmem =>
    exact .of_eq (congrArg Mem.faulty hmem) (congrArg Mem.late hmem)
  | env hdo =>
    obtain ⟨now, pods, heq⟩ := env_eq hdo
    exact .of_eq (by rw [heq]) (by rw [heq])
  | crash hmem => exact ⟨False.elim, fun _ => by rw [hmem]; rfl⟩

theorem reach_unfaulty (h : Reach (system cfg).step answeredStep init s) : s.mem.faulty = false :=
  h.invariant (fun c => c.mem.faulty = false) rfl fun hc hok hs =>
    ((step_unharmed hs).faulty hok).trans hc

theorem reach_unlate (h : Reach (system cfg).step heardStep init s) : s.mem.late = false :=
  h.invariant (fun c => c.mem.late = false) rfl
    fun hc hok hs => ((step_unharmed hs).late hok).trans hc

/-! ## The end of the log -/

/-- The log of a session ends once: it holds at most one SessionEnded, which is its last event,
and holds it exactly when the stored status is a final one. -/
def EndsOnce (d : Db) : Prop :=
  (d.log.rows.filter fun ev => ev.payload.isSessionEnded).length ≤ 1 ∧
  (∀ ev ∈ d.log.rows, ev.payload.isSessionEnded = true → d.log.rows.getLast? = some ev) ∧
  ((∃ ev ∈ d.log.rows, ev.payload.isSessionEnded = true) ↔
    ∃ r, d.row = some r ∧ (r.status = .ended ∨ r.status = .interrupted))

theorem terminal_iff_final {late : Bool} (h : d.EndInv late) :
    d.terminal = true ↔ ∃ r, d.row = some r ∧ (r.status = .ended ∨ r.status = .interrupted) := by
  unfold Db.terminal
  cases hr : d.row with
  | none => simp
  | some r =>
    have hknown : r.status ≠ .unspecified := fun hx => h.known (by simp [hr, hx])
    simp only [Option.any_some, ← isFinal_eq_terminal hknown, Option.some.injEq, exists_eq_left']
    simp [isFinal]

/-- A session is over exactly if its log has a SessionEnded. -/
theorem Db.EndInv.ended_iff {late : Bool} (h : d.EndInv late) :
    (∃ ev ∈ d.log.rows, ev.payload.isSessionEnded = true) ↔ d.terminal = true := by
  cases ht : d.terminal with
  | false =>
    refine ⟨fun ⟨ev, hev, hse⟩ => ?_, fun hx => by cases hx⟩
    rw [h.running ht ev hev] at hse
    exact hse
  | true =>
    obtain ⟨before, last, rest, hrows, hlast, -⟩ := h.ended ht
    exact ⟨fun _ => rfl, fun _ => ⟨last, by rw [hrows]; simp, hlast⟩⟩

/-- The log of a session that is over has one SessionEnded, at its end. -/
theorem Db.EndInv.last (h : d.EndInv false) (ht : d.terminal = true) :
    ∃ before ev, d.log.rows = before ++ [ev] ∧ ev.payload.isSessionEnded = true ∧
      ∀ e ∈ before, e.payload.isSessionEnded = false := by
  obtain ⟨before, last, rest, hrows, hlast, hothers, hrest⟩ := h.ended ht
  rw [hrest rfl] at hrows hothers
  rw [List.append_nil] at hothers
  exact ⟨before, last, hrows, hlast, hothers⟩

theorem filter_ended_eq_nil {evs : List Event}
    (h : ∀ ev ∈ evs, ev.payload.isSessionEnded = false) :
    (evs.filter fun ev => ev.payload.isSessionEnded) = [] := by
  rw [List.filter_eq_nil_iff]
  intro ev hev
  rw [h ev hev]
  exact Bool.false_ne_true

theorem Db.EndInv.endsOnce (h : d.EndInv false) : EndsOnce d := by
  refine ⟨?_, fun ev hev hse => ?_, h.ended_iff.trans (terminal_iff_final h)⟩
  · cases ht : d.terminal with
    | false =>
      rw [filter_ended_eq_nil (h.running ht)]
      exact Nat.zero_le _
    | true =>
      obtain ⟨before, last, hrows, hlast, hothers⟩ := h.last ht
      rw [hrows, List.filter_append, filter_ended_eq_nil hothers]
      simp [hlast]
  · obtain ⟨before, last, hrows, -, hothers⟩ := h.last (h.ended_iff.mp ⟨ev, hev, hse⟩)
    rw [hrows, List.mem_append, List.mem_singleton] at hev
    rcases hev with hev | rfl
    · rw [hothers ev hev] at hse
      cases hse
    · rw [hrows, List.getLast?_concat]

/-- In every run of orderly steps of any number of sessions in which the read before an event of
a session that is over succeeds, whatever else fails and wherever the process dies, the log of
each session ends once. -/
theorem log_ends_once {ι : Type} [DecidableEq ι] (cfg : Settings) {s : ι → Config sig Mem}
    (h : Reach (family (system cfg).step)
      (fun a l => heardStep (a l.1) l.2 ∧ orderlyStep (a l.1) l.2) (fun _ => init) s) (i : ι) :
    EndsOnce (s i).mem.db := by
  have hgood : (ledger cfg).Good (s i) :=
    ledger_good (h.member i fun _ _ hl => orderlyStep_ok cfg hl.2)
  have hlate : (s i).mem.late = false := reach_unlate (h.member i fun _ _ hl => hl.1)
  have hends := hgood.inv.ends
  rw [hlate] at hends
  exact hends.endsOnce

/-- A step of a session. -/
abbrev Label := ThreadLabel sig Choice EnvStep

/-- A launch whose workspace starts late and fails, while the reporter of the delay is about to
record an event; the read before that event fails. -/
def lateReport : List (ThreadLabel sig Choice EnvStep) :=
  (.start (.createSession (.snapshot "") "" "") :: List.replicate 19 (.run 0 {}) : List Label) ++
    ([.start (.reportStall 60), .run 0 { ok := false, error := .attachTimeout }] : List Label) ++
    (List.replicate 5 (.run 0 {}) : List Label) ++ ([.run 1 { readOk := false }] : List Label)

/-- The state after a run of one session. -/
def after (cfg : Settings) (run : List (ThreadLabel sig Choice EnvStep)) : Unit → Config sig Mem :=
  (exec (family (system cfg).step) (fun _ => init) (run.map fun l => ((), l))).getD fun _ => init

/-- The event is recorded after the end of the session. -/
theorem log_not_ends_once : ¬ ∀ s : Unit → Config sig Mem,
    Reach (family (system noLimits).step) (fun _ _ => True) (fun _ => init) s →
      ∀ i, EndsOnce (s i).mem.db := by
  intro h
  have hreach : Reach (family (system noLimits).step) (fun _ _ => True) (fun _ => init)
      (after noLimits lateReport) := Reach.of_exec_getD _ (by decide)
  have hlast := (h _ hreach ()).2.1 ⟨6, "", .sessionEnded .attachTimeout
    "the workspace started but never connected back"⟩ (by decide) rfl
  exact absurd hlast (by decide)

/-- The launch without the late report. -/
theorem log_ends_once_failedLaunch :
    let d := (after noLimits lateReport.dropLast ()).mem.db
    d.log.rows.length = 6 ∧ EndsOnce d := by
  have hreach : Reach (family (system noLimits).step)
      (fun a l => heardStep (a l.1) l.2 ∧ orderlyStep (a l.1) l.2)
      (fun _ => init) (after noLimits lateReport.dropLast) :=
    Reach.of_exec_guarded _ (by decide)
  exact ⟨by decide, log_ends_once noLimits hreach ()⟩

/-! ## The chain of states -/

/-- Somebody holds the session: the thread that created it and has not claimed it, one that
took it, or a launch that is not ready. -/
def Held (m : Mem) : Prop :=
  m.creator ≠ none ∨ (∃ t, (m.slot.hist t).taken = true) ∨
    ∃ t, (m.slot.owners t).live = true ∧ (m.binds t).ready = false

/-- The state changes of the log are a chain that leads to the stored status whenever nobody
holds the session. -/
def StatesChained (m : Mem) : Prop :=
  Chained (history m.db.log) ∧
    (¬ Held m → ∀ r, m.db.row = some r → reached (history m.db.log) = r.status)

/-! ### A final status stays -/

theorem step_final (hgood : (ledger cfg).Good s)
    (hgiven : ∀ t op k, s.threads t = some (.act op k) → (protocol cfg).pre t op s.mem)
    (hover : s.mem.db.terminal = true) (hs : (system cfg).step s l = some s') :
    s'.mem.status = s.mem.status := by
  cases System.step_mem hs with
  | @act t c op k r hk hdo =>
    exact act_final hgood.inv hover (hgood.pre hk (hgiven t op k hk)) hdo
  | spawn _ hmem | start _ hmem | silent hmem => exact congrArg Mem.status hmem
  | env hdo => exact (env_idle hdo).status
  | crash hmem => rw [hmem]; rfl

theorem reach_final (hs : Reach (system cfg).step orderlyStep init s)
    (h : Reach (system cfg).step orderlyStep s s') (hover : s.mem.db.terminal = true) :
    s'.mem.status = s.mem.status := by
  have hgood : ∀ {a : Config sig Mem}, Reach (system cfg).step orderlyStep init a →
      (ledger cfg).Good a ∧ (protocol cfg).Good a := fun ha =>
    ⟨ledger_good (ha.mono fun _ _ => orderlyStep_ok cfg),
      protocol_good (ha.mono fun _ _ _ => trivial)⟩
  -- the run from `s` goes on from the one that led to `s`
  suffices ∀ {a}, Reach (system cfg).step orderlyStep s a →
      Reach (system cfg).step orderlyStep init a ∧ a.mem.status = s.mem.status from (this h).2
  intro a ha
  induction ha with
  | refl => exact ⟨hs, rfl⟩
  | @tail b c l _ hok hstep ih =>
    refine ⟨ih.1.tail hok hstep, ?_⟩
    have hb := hgood ih.1
    have hterm : b.mem.db.terminal = true := by
      rw [Db.terminal_eq, show b.mem.db.row.map Row.status = s.mem.db.row.map Row.status from ih.2,
        ← Db.terminal_eq]
      exact hover
    exact (step_final hb.1 (fun t op k hk => hb.2.pre hk trivial) hterm hstep).trans ih.2

theorem LedgerInv.statesChained {m : Mem} (h : LedgerInv m) (hf : m.faulty = false) :
    StatesChained m := by
  refine ⟨h.chained hf, fun hfree r hr => ?_⟩
  have hcreator : m.creator = none := by
    by_contra hc
    exact hfree (.inl hc)
  have hagrees := h.rest hcreator (by rw [hr]; rfl) ?_ hf
  · simp only [Mem.status, hr, Option.map_some, Option.some.injEq] at hagrees
    exact hagrees.symm
  · rintro t (ht | ht)
    · exact hfree (.inr (.inl ⟨t, ht.1⟩))
    · exact hfree (.inr (.inr ⟨t, ht⟩))

/-- In every orderly run without a crash of any number of sessions in which reads of sessions
and appends of events succeed: the state changes of each log are a chain that leads to the
stored status whenever nobody holds the session, and a final status never changes again. -/
theorem states_chained {ι : Type} [DecidableEq ι] (cfg : Settings) {s : ι → Config sig Mem}
    (h : Reach (family (system cfg).step)
      (fun a l => answeredStep (a l.1) l.2 ∧ orderlyStep (a l.1) l.2) (fun _ => init) s) (i : ι) :
    StatesChained (s i).mem ∧
    ∀ s', Reach (family (system cfg).step)
        (fun a l => answeredStep (a l.1) l.2 ∧ orderlyStep (a l.1) l.2) s s' →
      ∀ r, (s i).mem.db.row = some r → r.status = .ended ∨ r.status = .interrupted →
        ∃ r', (s' i).mem.db.row = some r' ∧ r'.status = r.status := by
  have hrun : Reach (system cfg).step orderlyStep init (s i) := h.member i fun _ _ hl => hl.2
  have hgood : (ledger cfg).Good (s i) := ledger_good (hrun.mono fun _ _ => orderlyStep_ok cfg)
  have hf : (s i).mem.faulty = false := reach_unfaulty (h.member i fun _ _ hl => hl.1)
  refine ⟨hgood.inv.statesChained hf, fun s' hs' r hr hfinal => ?_⟩
  have hover : (s i).mem.db.terminal = true :=
    (terminal_iff_final hgood.inv.ends).mpr ⟨r, hr, hfinal⟩
  have hstatus := reach_final hrun (hs'.member i fun _ _ hl => hl.2) hover
  simp only [Mem.status, hr, Option.map_some, Option.map_eq_some_iff] at hstatus
  exact hstatus

/-- An end that comes between the insert of a row and the claim of the thread that inserted it. -/
def earlyEnd : List (ThreadLabel sig Choice EnvStep) :=
  [.start (.createSession (.snapshot "") "" ""), .run 0 {}, .start (.endSession .ended), .run 1 {},
    .run 1 {}, .run 1 {}, .run 1 {}]

/-- The first state change of that log has an old state. -/
theorem states_not_chained : ¬ ∀ s : Unit → Config sig Mem,
    Reach (family (system noLimits).step) (fun a l => answeredStep (a l.1) l.2) (fun _ => init) s →
      ∀ i, StatesChained (s i).mem := by
  intro h
  have hreach : Reach (family (system noLimits).step) (fun a l => answeredStep (a l.1) l.2)
      (fun _ => init) (after noLimits earlyEnd) := Reach.of_exec_guarded _ (by decide)
  have hfirst := (h _ hreach ()).1.2 (.pending, .ended) (by decide)
  cases hfirst

/-- A launch that fails. -/
theorem states_chained_failedLaunch :
    let m := (after noLimits lateReport.dropLast ()).mem
    history m.db.log = [(.unspecified, .pending), (.pending, .launching),
      (.launching, .awaitingApproval), (.awaitingApproval, .ended)] ∧ StatesChained m := by
  have hreach : Reach (family (system noLimits).step)
      (fun a l => answeredStep (a l.1) l.2 ∧ orderlyStep (a l.1) l.2)
      (fun _ => init) (after noLimits lateReport.dropLast) :=
    Reach.of_exec_guarded _ (by decide)
  exact ⟨by decide, (states_chained noLimits hreach ()).1⟩

end AgentOps.Service
