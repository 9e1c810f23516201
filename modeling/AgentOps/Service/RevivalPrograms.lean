import AgentOps.Service.Revival

/-!
# A failed continuation puts everything back

The programs keep the discipline of a continuation. The launch of a continuation goes on until
a call fails, then it suspends the session again with what it found; every other program leaves
it alone.
-/

namespace AgentOps.Service

open AgentOps.Api AgentOps.Link AgentOps.Lib

variable {x x' : Mem × Option Continuation} {m : Mem} {K' : Row → Mem → Prop} {sess : Row}
  {claimName : String} {opts : LaunchOpts} {s : Config sig (Mem × Option Continuation)}

variable {cfg : Settings} {t : ℕ} {α : Type} {k : Continuation} {b : Bool}

/-! ## Threads without a continuation -/

theorem away_stable : (revivals cfg).Stable t (Away t) := fun _ _ _ _ ho h k hk ht =>
  h k (other_follows ho hk ht) ht

/-- Only a claim of a launch starts a continuation. -/
theorem Away.act {op : Op} {c : Choice} {r : op.Res} (h : Away t x) (hop : op ≠ .slot (.claim true))
    (hdo : (observed cfg).perform t op x c = some (r, x')) : Away t x' := by
  intro k hk ht
  rw [(observed_perform hdo).2] at hk
  cases mem_follow hk with
  | starts hclaim => exact hop hclaim
  | goes _ hk => exact h k hk ht
  | fails _ _ _ _ hk => exact h _ hk ht

theorem away_undisturbed : Undisturbed (revivals cfg) t (Away t) where
  stable := away_stable
  pre _ _ _ _ _ h k hk ht := absurd ht (h k hk)
  post op x c r x' hop _ _ h _ hdo _ := h.act (fun hc => by rw [hc] at hop; cases hop) hdo
  spawn e x u he _ _ _ hf := by
    cases e with
    | settle after => exact absurd rfl (he after)
    | _ => exact hf

/-- A triple of the discipline. -/
abbrev Reviving (cfg : Settings) (t : ℕ) (A : Mem × Option Continuation → Prop) {α : Type} (p : P α)
    (Q : α → Mem × Option Continuation → Prop) : Prop :=
  (revivals cfg).Triple t A p Q

theorem away_quiet {p : P α} (hp : Quiet p) : Reviving cfg t (Away t) p fun _ => Away t :=
  away_undisturbed.quiet hp

theorem away_slot (op : SlotOp) (hop : op ≠ .claim true) :
    Reviving cfg t (Away t) (slot op) fun _ => Away t :=
  .perform away_stable (fun _ _ _ h k hk ht => absurd ht (h k hk))
    fun _ _ _ _ _ _ h _ hdo _ => h.act (fun hc => hop (Op.slot.inj hc)) hdo

theorem away_endOk : Reviving cfg t (Away t) (note .endOk) fun _ _ => True :=
  .perform away_stable (fun _ _ _ h k hk ht => absurd ht (h k hk))
    fun _ _ _ _ _ _ _ _ _ _ => trivial

theorem away_settle (after : After) {Q : α → Mem × Option Continuation → Prop} :
    Reviving cfg t (Away t) (.jump (.settle after)) Q :=
  .jump away_stable fun _ _ h k hk ht => absurd ht (h k hk)

theorem stopOwned_away (want : Option ℕ) (spec : StopSpec) (answers : Bool) :
    Reviving cfg t (Away t) (stopOwned cfg want spec answers) fun _ => Away t := by
  refine (away_slot (.detach want spec) nofun).bind fun r => ?_
  cases r with
  | nothing => exact away_quiet (quiet_pure _)
  | waits o => exact away_quiet (quiet_pure _)
  | held victim =>
    cases victim with
    | some b => exact (away_quiet ((uses_stopLive ..).quiet rfl)).bind fun _ => away_settle _
    | none => exact (away_quiet ((uses_stopDetached spec).quiet rfl)).bind fun _ => away_settle _

theorem failLaunch_away (sess : Row) (opts : LaunchOpts) (claimName : String) (reason : EndReason)
    (detail : String) :
    Reviving cfg t (Away t) (failLaunch sess opts claimName reason detail) fun _ => Away t := by
  refine (away_slot .takeStop nofun).bind fun r => ?_
  split
  · refine (away_quiet ((uses_failTurn ..).quiet rfl)).bind fun _ => ?_
    exact away_quiet ((uses_endLaunch ..).quiet rfl)
  · split
    · exact away_quiet ((uses_failRevive ..).quiet rfl)
    · exact away_quiet ((uses_endLaunch ..).quiet rfl)

theorem revivals_routine (t : ℕ) :
    Routine cfg (revivals cfg) t (Away t) (Away t) (Away t) (Away t) where
  all := away_undisturbed
  idle := away_undisturbed
  held := away_undisturbed
  left := away_undisturbed
  leave _ h := h
  ofIdle _ h := h
  ofLeft _ h := h
  self _ _ _ _ h := by cases h; rfl
  claim := away_slot (.claim false) nofun
  register := (away_slot .register nofun).conseq (fun _ _ h => h) fun _ _ _ h => ⟨h, fun _ => h⟩
  failLaunch := failLaunch_away
  stop want spec := (stopOwned_away want spec false).bind fun _ => .ret fun _ _ _ => trivial
  settle _ _ _ _ h k hk ht := absurd ht (h k hk)
  loop e x he _ h := by
    cases e with
    | settle after => exact absurd rfl (he after)
    | _ => exact h

theorem callEndSession_away (reason : EndReason) :
    Reviving cfg t (Away t) (callEndSession cfg reason) fun _ _ => True := by
  refine (away_quiet (quiet_store _)).bind fun r => ?_
  split
  · exact Routine.done _
  · split
    · exact away_endOk
    · refine (stopOwned_away ..).bind fun r => ?_
      split
      · exact away_endOk
      · rename_i o
        refine (away_slot (.await o) nofun).bind fun _ => ?_
        refine (away_quiet (quiet_store _)).bind fun r => ?_
        split
        · exact Routine.done _
        · show Reviving cfg t _ (Prog.when _ _) _
          unfold Prog.when
          split
          · exact away_endOk
          · exact Routine.done _

theorem away_insert (templateSpec : TemplateSpec) :
    Reviving cfg t (Away t) (store (.createSession templateSpec))
      fun r x => Away t x ∧ (r = true → x.1.creator = some t) := by
  refine .perform away_stable (fun _ _ _ h k hk ht => absurd ht (h k hk)) ?_
  intro x c r x' _ _ h _ hdo _
  have hne : Op.store (.createSession templateSpec) ≠ .slot (.claim true) := nofun
  refine ⟨h.act hne hdo, ?_⟩
  have hm : StoreOp.perform t x.1 c (.createSession templateSpec) = some (r, x'.1) :=
    (observed_perform hdo).1
  simp only [StoreOp.perform] at hm
  split at hm
  · simp only [Option.some.injEq, Prod.mk.injEq] at hm
    rw [← hm.2]
    exact fun _ => rfl
  · simp only [Option.some.injEq, Prod.mk.injEq] at hm
    rw [← hm.1]
    intro hr
    cases hr

/-- A session that was just created is not suspended, so its launch is no continuation. -/
theorem away_claim_created :
    Reviving cfg t (fun x => Away t x ∧ x.1.creator = some t) (slot (.claim true))
      fun _ => Away t := by
  refine .perform ?_ (fun _ _ _ h k hk ht => absurd ht (h.1 k hk)) ?_
  · intro x x' hinv hinv' ho h
    exact ⟨away_stable x x' hinv hinv' ho h.1, (revivals_other ho).creator h.2⟩
  · intro x c r x' _ hg h _ hdo _ k hk ht
    rw [(observed_perform hdo).2] at hk
    cases mem_follow hk with
    | starts _ _ _ _ hrow hres =>
      have hpending := (hg.2.2.created (by rw [h.2]; exact Option.some_ne_none t)).2
      simp only [Mem.status, hrow, Option.map_some, Option.some.injEq] at hpending
      simp [resumable, hpending] at hres
    | goes _ hk => exact h.1 k hk ht
    | fails _ _ _ _ hk => exact h.1 _ hk ht

theorem createSession_away (templateSpec : TemplateSpec) (approvalPrompt initialPrompt : String) :
    Reviving cfg t (Away t) (createSession templateSpec approvalPrompt initialPrompt)
      fun _ _ => True := by
  refine (away_insert templateSpec).bind fun r => ?_
  split
  · rename_i hr
    refine (away_claim_created.of_imp fun _ _ h => ⟨h.1, h.2 hr⟩).bind fun _ => ?_
    refine (away_quiet (quiet_emit ..)).bind fun _ => ?_
    exact (revivals_routine t).launch _
  · exact Routine.done _

/-! ## The thread of a continuation -/

/-- A continuation of thread `t` has failed or not, as `b` says, and has `K`. -/
def During (t : ℕ) (b : Bool) (K : Row → Mem → Prop) (x : Mem × Option Continuation) : Prop :=
  ∀ k ∈ x.2, k.thread = t → k.failed = b ∧ K k.row x.1

theorem Away.during {K : Row → Mem → Prop} (h : Away t x) : During t b K x :=
  fun k hk ht => absurd ht (h k hk)

/-- `K` is about a thread that writes the state, and depends on what other threads leave to it. -/
structure Own (t : ℕ) (K : Row → Mem → Prop) : Prop where
  busy : ∀ row m, K row m → (m.slot.hist t).taken = true ∨ Activating t m
  keep : ∀ row m m', (m'.slot.hist t).taken = (m.slot.hist t).taken →
    (m'.slot.owners t).live = (m.slot.owners t).live → (m'.binds t).ready = (m.binds t).ready →
    m'.status = m.status → K row m → K row m'

/-- The thread of a continuation that it has begun is the writer. -/
theorem Continues.writer_of (h : Continues k m) (hinv : m.slot.Inv)
    (hb : (m.slot.hist k.thread).taken = true ∨ Activating k.thread m) : Writer k.thread m := by
  rcases hb with hb | hb
  · refine h.writer ?_
    rw [(hinv.taken_entry _ hb).1]
    exact Option.some_ne_none _
  · exact .inr hb

variable {K : Row → Mem → Prop}

theorem Own.stable (hK : Own t K) : (revivals cfg).Stable t (During t b K) := by
  intro x x' hinv _ ho h k hk ht
  have hk' := other_follows ho hk ht
  obtain ⟨hb, hrow⟩ := h k hk' ht
  have hkeeps := revivals_other ho
  refine ⟨hb, hK.keep k.row x.1 x'.1 hkeeps.taken hkeeps.own hkeeps.unready ?_ hrow⟩
  cases ho with
  | env l _ hdo => exact (env_idle (observed_env hdo).1).status
  | start u e v _ _ _ hsame => exact congrArg (·.1.status) hsame
  | act u op c r _ hg =>
    subst ht
    have hw := (hinv k hk').writer_of hg.2.2.slot (hK.busy k.row x.1 hrow)
    exact (hkeeps.ledger (.inl hw)).1

/-- Where a continuation of thread `t` comes from after a step of its own that ends none. -/
theorem During.act {op : Op} {c : Choice} {r : op.Res} (h : During t b K x)
    (hop : op ≠ .slot (.claim true)) (hdo : (observed cfg).perform t op x c = some (r, x'))
    (hk : k ∈ x'.2) (ht : k.thread = t) :
    ¬ op.turns r x.1 ∧ k.failed = (b || op.failed r) ∧ (op.failed r = true → b = false) ∧
      (∃ f, { k with failed := f } ∈ x.2) ∧ K k.row x.1 := by
  rw [(observed_perform hdo).2] at hk
  cases mem_follow hk with
  | starts hclaim => exact absurd hclaim hop
  | goes hturns hk hok =>
    obtain ⟨hb, hrow⟩ := h k hk ht
    rw [hok ht, Bool.or_false]
    exact ⟨hturns, hb, nofun, ⟨k.failed, hk⟩, hrow⟩
  | fails hturns _ hfail hfailed hk =>
    obtain ⟨hb, hrow⟩ := h _ hk ht
    rw [hfail, hfailed, Bool.or_true]
    exact ⟨hturns, rfl, fun _ => hb.symm, ⟨false, hk⟩, hrow⟩

/-- A step that neither takes nor writes the session. After it the continuation has failed if
the call did; a second failure ends it. -/
theorem during_still (op : Op) (hK : Own t K) (hop : op.still) :
    Reviving cfg t (During t b K) (Prog.perform (S := sig) op) fun r x =>
      During t (b || op.failed r) K x ∧ (b = true → op.failed r = true → Away t x) := by
  refine .perform hK.stable ?_ ?_
  · intro x _ _ _ k _ _
    cases op with
    | slot op => cases op <;> trivial
    | store op => cases op <;> trivial
    | bind b op => cases op <;> trivial
    | _ => trivial
  · intro x c r x' _ _ h _ hdo _
    have hclaim : op ≠ .slot (.claim true) := fun hc => by rw [hc] at hop; cases hop
    have hs := perform_still hop (observed_perform hdo).1
    refine ⟨fun k hk ht => ?_, fun hb hfail k hk ht => ?_⟩
    · obtain ⟨-, hfailed, -, -, hrow⟩ := h.act hclaim hdo hk ht
      exact ⟨hfailed, hK.keep k.row x.1 x'.1 (by rw [hs.slot]) (by rw [hs.slot]) (hs.ready t)
        hs.status hrow⟩
    · have := (h.act hclaim hdo hk ht).2.2.1 hfail
      rw [hb] at this
      cases this

theorem During.mono (h : During t b K x) (hK : ∀ row m, K row m → K' row m) : During t b K' x :=
  fun k hk ht => ⟨(h k hk ht).1, hK _ _ (h k hk ht).2⟩

theorem During.away (h : During t b K x) (hK : ∀ k ∈ x.2, k.thread = t → ¬ K k.row x.1) :
    Away t x :=
  fun k hk ht => hK k hk ht (h k hk ht).2

/-- The operation also cannot fail a launch. -/
def Op.silent (op : Op) : Prop := op.still ∧ ∀ r, op.failed r = false

/-- The program neither takes nor writes the session, and cannot fail a launch. -/
abbrev Silent {α : Type} (p : P α) : Prop := Prog.Only Op.silent unsettled p

theorem during_silent (hK : Own t K) {p : P α} (hp : Silent p) :
    Reviving cfg t (During t b K) p fun _ => During t b K := by
  induction p with
  | ret a => exact .ret fun _ _ h => h
  | act op f ih =>
    have hop : Reviving cfg t (During t b K) (Prog.perform (S := sig) op) fun _ => During t b K :=
      (during_still op hK hp.1.1).conseq (fun _ _ h => h) fun r _ _ h => by
        rw [hp.1.2 r, Bool.or_false] at h
        exact h.1
    exact hop.bind fun r => ih r (hp.2 r)
  | spawn e f ih =>
    refine .spawn hK.stable (fun x u _ _ _ hf => ?_) (ih hp.2)
    cases e with
    | settle after => exact absurd rfl (hp.1 after)
    | _ => exact hf
  | jump e => exact hp.elim

theorem silent_emit (turnId : String) (p : Payload) : Silent (emit turnId p) :=
  ⟨⟨trivial, fun _ => rfl⟩, fun _ => trivial⟩

theorem silent_failTurn (opts : LaunchOpts) (reason : String) : Silent (failTurn opts reason) :=
  .when (silent_emit ..)

theorem silent_saveOpening (opts : LaunchOpts) : Silent (saveOpening t opts) := by
  have hbind (op : BindOp) (h : Op.silent (.bind t op)) : Silent (onBinding t op) := .perform h
  have hsend (p : Prompt) : Silent (sendPrompt t p) := by
    refine .bind (.perform ⟨trivial, fun _ => rfl⟩) fun r => ?_
    split
    · exact .bind (hbind _ ⟨trivial, fun _ => rfl⟩) fun _ => trivial
    · trivial
  unfold saveOpening
  split
  · refine .bind (hbind _ ⟨trivial, fun _ => rfl⟩) fun _ => .bind (hsend _) fun r => ?_
    split
    · exact .bind (hbind _ ⟨trivial, fun _ => rfl⟩) fun _ => trivial
    · exact .bind (silent_emit ..) fun _ => .bind (hbind _ ⟨trivial, fun _ => rfl⟩) fun _ => trivial
  · trivial

/-! ### What the thread knows -/

/-- Thread `t` has the session, whose row keeps what `sess` has. -/
def Busy (sess : Row) (t : ℕ) (row : Row) (m : Mem) : Prop :=
  row.kept = sess.kept ∧ (m.slot.hist t).taken = true

/-- Its binding is there and not ready. -/
def Bound (sess : Row) (t : ℕ) (row : Row) (m : Mem) : Prop :=
  Busy sess t row m ∧ (m.binds t).ready = false

/-- It has registered. -/
def Linking (sess : Row) (t : ℕ) (row : Row) (m : Mem) : Prop :=
  row.kept = sess.kept ∧ Activating t m

theorem own_busy (sess : Row) : Own t (Busy sess t) where
  busy _ _ h := .inl h.2
  keep _ _ _ htaken _ _ _ h := ⟨h.1, htaken.trans h.2⟩

theorem own_bound (sess : Row) : Own t (Bound sess t) where
  busy _ _ h := .inl h.1.2
  keep _ _ _ htaken _ hready _ h := ⟨⟨h.1.1, htaken.trans h.1.2⟩, hready.trans h.2⟩

theorem own_linking (sess : Row) : Own t (Linking sess t) where
  busy _ _ h := .inr h.2
  keep _ _ _ _ hlive hready _ h := ⟨h.1, hlive.trans h.2.1, hready.trans h.2.2⟩

theorem own_paused : Own t (Paused t) where
  busy _ _ h := .inl h.1
  keep _ _ _ htaken _ _ hstatus h := ⟨htaken.trans h.1, hstatus.trans h.2⟩

theorem Own.and {φ : Row → Prop} (hK : Own t K) : Own t fun row m => φ row ∧ K row m where
  busy row m h := hK.busy row m h.2
  keep row m m' h1 h2 h3 h4 h := ⟨h.1, hK.keep row m m' h1 h2 h3 h4 h.2⟩

/-! ### Reads and writes -/

/-- A call has failed: the launch is not linked yet, and this was the first failure. -/
def Failed (t : ℕ) (b : Bool) (K : Row → Mem → Prop) (x : Mem × Option Continuation) : Prop :=
  During t true (fun row m => K row m ∧ ¬ Activating t m) x ∧ (b = true → Away t x)

theorem Failed.during (h : Failed t b K x) : During t true K x :=
  h.1.mono fun _ _ h => h.1

theorem Away.failed (h : Away t x) : Failed t b K x :=
  ⟨h.during, fun _ => h⟩

/-- What a launch knows of the row that it read. -/
def Read (K : Row → Mem → Prop) (sess row : Row) (m : Mem) : Prop :=
  (row.kept = sess.kept ∧ sess.status.terminal = false) ∧ K row m

/-- The row that a continuation's session has. -/
theorem Continues.row (h : Continues k m) :
    ∃ r, m.db.row = some r ∧ r.kept = k.row.kept ∧ r.status.terminal = false := by
  obtain ⟨r, hr, hkept⟩ := Option.map_eq_some_iff.mp h.kept
  refine ⟨r, hr, hkept, ?_⟩
  have := h.running
  rwa [Db.terminal, hr] at this

theorem during_getSession (hK : Own t K) :
    Reviving cfg t (During t b K) getSession fun r => match r with
      | none => Failed t b K
      | some sess => During t b (Read K sess) := by
  refine .perform hK.stable (fun _ _ _ _ _ _ _ => trivial) ?_
  intro x c r x' hinv hg h hok hdo _
  have hne : Op.store .getSession ≠ .slot (.claim true) := nofun
  have hm : StoreOp.perform t x.1 c .getSession = some (r, x'.1) := (observed_perform hdo).1
  have hs : Still x.1 x'.1 := StoreOp.perform_still (by trivial) hm
  have hkeep (row : Row) (hrow : K row x.1) : K row x'.1 :=
    hK.keep row x.1 x'.1 (by rw [hs.slot]) (by rw [hs.slot]) (hs.ready t) hs.status hrow
  have hread (hc : c.ok = true) : r = x.1.db.row := by
    simp only [StoreOp.perform, hc, if_true, Option.some.injEq, Prod.mk.injEq] at hm
    exact hm.1.symm
  cases r with
  | none =>
    refine ⟨fun k hk ht => ?_, fun hb k hk ht => ?_⟩
    · obtain ⟨-, hfailed, -, ⟨f, hf⟩, hrow⟩ := h.act hne hdo hk ht
      refine ⟨hfailed.trans (Bool.or_true b), hkeep k.row hrow, fun hact => ?_⟩
      -- a launch that registered reads its row
      have hactive : Activating t x.1 := by
        unfold Activating at hact ⊢
        rw [hs.slot, hs.ready] at hact
        exact hact
      obtain ⟨row, hr, -⟩ := (hinv _ hf).row
      have := hread (hok.2 _ hf ht hactive)
      rw [hr] at this
      cases this
    · have := (h.act hne hdo hk ht).2.2.1 rfl
      rw [hb] at this
      cases this
  | some sess =>
    intro k hk ht
    obtain ⟨-, hfailed, -, ⟨f, hf⟩, hrow⟩ := h.act hne hdo hk ht
    obtain ⟨row, hr, hkept, hopen⟩ := (hinv _ hf).row
    have hc : c.ok = true := by
      by_contra hc
      simp [StoreOp.perform, hc] at hm
    have hsess := hread hc
    rw [hr, Option.some.injEq] at hsess
    subst hsess
    exact ⟨hfailed.trans (Bool.or_false b), ⟨hkept.symm, hopen⟩, hkeep k.row hrow⟩

/-- What a launch knows after a state write: it succeeded, or the launch has failed. -/
def Written (t : ℕ) (b : Bool) (K K' : Row → Mem → Prop) (r : Bool) :
    Mem × Option Continuation → Prop :=
  if r then During t b K' else Failed t b K

/-- One state write. -/
theorem during_update {u : Update} (hK : Own t K) (hkeeps : ∀ row m, K row m → u.keeps row)
    (hK' : ∀ row m, m.db.row.isSome = true → K row m →
      K' row { m with db := m.db.update (u.apply m.unix) }) :
    Reviving cfg t (During t b K) (store (.update u)) (Written t b K K') := by
  refine .perform hK.stable (fun x _ _ h k hk ht => hkeeps _ _ (h k hk ht).2) ?_
  intro x c r x' hinv hg h hok hdo _
  have hne : Op.store (.update u) ≠ .slot (.claim true) := nofun
  have hm : StoreOp.perform t x.1 c (.update u) = some (r, x'.1) := (observed_perform hdo).1
  simp only [StoreOp.perform] at hm
  cases r with
  | true =>
    intro k hk ht
    obtain ⟨-, hfailed, -, ⟨f, hf⟩, hrow⟩ := h.act hne hdo hk ht
    obtain ⟨row, hr, -⟩ := (hinv _ hf).row
    refine ⟨hfailed.trans (Bool.or_false b), ?_⟩
    split at hm
    · simp only [Option.some.injEq, Prod.mk.injEq] at hm
      rw [← hm.2]
      exact hK' _ _ (by rw [hr]; rfl) hrow
    · cases hm
  | false =>
    have hfail : c.ok = false ∧ x'.1 = x.1 := by
      split at hm
      · cases hm
      · rename_i hc
        simp only [Option.some.injEq, Prod.mk.injEq] at hm
        exact ⟨by simpa using hc, hm.2.symm⟩
    refine ⟨fun k hk ht => ?_, fun hb k hk ht => ?_⟩
    · obtain ⟨-, hfailed, -, ⟨f, hf⟩, hrow⟩ := h.act hne hdo hk ht
      rw [hfail.2]
      refine ⟨hfailed.trans (Bool.or_true b), hrow, fun hact => ?_⟩
      have := hok.2 _ hf ht hact
      rw [hfail.1] at this
      cases this
    · have := (h.act hne hdo hk ht).2.2.1 rfl
      rw [hb] at this
      cases this

theorem during_write {update : P Bool} (hK : Own t K)
    (hupdate : Reviving cfg t (During t b K) update (Written t b K K')) :
    Reviving cfg t (During t b K) (write update) (Written t b K K') := by
  refine (during_getSession hK).bind fun r => ?_
  cases r with
  | none => exact .ret fun _ _ h => h
  | some sess =>
    dsimp only
    split
    · -- the session of a continuation is not over
      rename_i hterminal
      refine .ret fun x _ h => Away.failed (h.away fun k _ _ hk => ?_)
      rw [hk.1.2] at hterminal
      cases hterminal
    · exact hupdate.of_imp fun _ _ h => h.mono fun _ _ hk => hk.2

theorem during_storedState (hK : Own t K) (fallback : SessionState) :
    Reviving cfg t (During t true K) (storedState fallback) fun _ => During t true K := by
  refine (during_getSession hK).bind fun r => ?_
  cases r with
  | none => exact .ret fun _ _ h => h.during
  | some sess => exact .ret fun _ _ h => h.mono fun _ _ hk => hk.2

theorem during_nextTurn (hK : Own t K) :
    Reviving cfg t (During t false K) nextTurn fun r => During t r.isNone K := by
  refine (during_still (.store .nextTurnSeq) hK trivial).bind fun r => ?_
  cases r with
  | none => exact .ret fun _ _ h => h.1
  | some n => exact .ret fun _ _ h => h.1

/-- A call of the launcher or the run client. -/
theorem during_ext (op : ExtOp) (hK : Own t K) :
    Reviving cfg t (During t false K) (ext op) fun r => During t (Op.failed (.ext op) r) K :=
  (during_still (.ext op) hK trivial).conseq (fun _ _ h => h) fun _ _ _ h => h.1

/-! ### The owner map -/

theorem during_takeStop (sess : Row) :
    Reviving cfg t (During t b (Busy sess t)) (slot .takeStop) fun r x =>
      During t b (Busy sess t) x ∧ (r ≠ none → Away t x) := by
  refine .perform (own_busy sess).stable (fun _ _ _ _ _ _ _ => trivial) ?_
  intro x c r x' hinv hg h _ hdo _
  have hne : Op.slot .takeStop ≠ .slot (.claim true) := nofun
  have hm : SlotOp.perform t x.1 .takeStop = some (r, x'.1) := (observed_perform hdo).1
  have hnone (k : Continuation) (hk : k ∈ x'.2) (ht : k.thread = t) :
      k.failed = b ∧ Busy sess t k.row x.1 ∧ x.1.slot.takeStop t = (none, x.1.slot) := by
    obtain ⟨-, hfailed, -, ⟨f, hf⟩, hbusy⟩ := h.act hne hdo hk ht
    refine ⟨hfailed.trans (Bool.or_false b), hbusy, ?_⟩
    have hstop := ((hinv _ hf).trying hg.2.2.slot (by rw [ht]; exact hbusy.2)).stop hg.2.2.slot
    rw [ht] at hstop
    simp [Slot.takeStop, hstop]
  simp only [SlotOp.perform, Option.some.injEq, Prod.mk.injEq] at hm
  refine ⟨fun k hk ht => ?_, fun hr k hk ht => ?_⟩
  · obtain ⟨hfailed, hbusy, hsame⟩ := hnone k hk ht
    refine ⟨hfailed, hbusy.1, ?_⟩
    rw [← hm.2, hsame]
    exact hbusy.2
  · obtain ⟨-, -, hsame⟩ := hnone k hk ht
    rw [hsame] at hm
    exact hr hm.1.symm

theorem during_stopped (sess : Row) :
    Reviving cfg t (During t b (Busy sess t)) (slot .stopped) fun r x =>
      During t b (Busy sess t) x ∧ (r = true → Away t x) := by
  refine .perform (own_busy sess).stable (fun _ _ _ _ _ _ _ => trivial) ?_
  intro x c r x' hinv hg h _ hdo _
  cases hdo
  refine ⟨h, fun hr k hk ht => ?_⟩
  obtain ⟨-, hbusy⟩ := h k hk ht
  have hstop := ((hinv k hk).trying hg.2.2.slot (by rw [ht]; exact hbusy.2)).stop hg.2.2.slot
  rw [ht] at hstop
  simp [Slot.stopped, hstop] at hr

theorem during_create (sess : Row) (claimName : String) (pod : ℕ) (syncing : Bool)
    (turns : List String) :
    Reviving cfg t (During t b (Busy sess t)) (onBinding t (.create claimName pod syncing turns))
      fun _ => During t b (Bound sess t) := by
  refine .perform (own_busy sess).stable (fun _ _ _ _ _ _ _ => trivial) ?_
  intro x c r x' _ _ h _ hdo _ k hk ht
  have hne : Op.bind t (.create claimName pod syncing turns) ≠ .slot (.claim true) := nofun
  obtain ⟨-, hfailed, -, -, hbusy⟩ := h.act hne hdo hk ht
  have hm := (observed_perform hdo).1
  simp only [perform, BindOp.perform, Option.some.injEq, Prod.mk.injEq] at hm
  rw [← hm.2]
  exact ⟨hfailed.trans (Bool.or_false b), hbusy, by simp [Mem.setBind]⟩

/-- No end was left to a continuation, so it can register. -/
theorem during_register (sess : Row) :
    Reviving cfg t (During t b (Bound sess t)) (slot .register) fun r x =>
      During t b (Linking sess t) x ∧ (r = false → Away t x) := by
  refine .perform (own_bound sess).stable (fun _ _ _ h k hk ht => (h k hk ht).2.2) ?_
  intro x c r x' hinv hg h _ hdo _
  have hne : Op.slot .register ≠ .slot (.claim true) := nofun
  have hm : SlotOp.perform t x.1 .register = some (r, x'.1) := (observed_perform hdo).1
  simp only [SlotOp.perform, Option.some.injEq, Prod.mk.injEq] at hm
  have hpass (k : Continuation) (hk : k ∈ x'.2) (ht : k.thread = t) :
      k.failed = b ∧ Bound sess t k.row x.1 ∧ ¬ (x.1.slot.entry ≠ some t ∨
        (x.1.slot.owners t).stop.isSome = true) := by
    obtain ⟨-, hfailed, -, ⟨f, hf⟩, hbound⟩ := h.act hne hdo hk ht
    refine ⟨hfailed.trans (Bool.or_false b), hbound, ?_⟩
    have hstop := ((hinv _ hf).trying hg.2.2.slot (by rw [ht]; exact hbound.1.2)).stop hg.2.2.slot
    rw [ht] at hstop
    simp [hstop, (hg.2.2.slot.taken_entry t hbound.1.2).1]
  refine ⟨fun k hk ht => ?_, fun hr k hk ht => ?_⟩
  · obtain ⟨hfailed, hbound, hopen⟩ := hpass k hk ht
    rw [← hm.2]
    refine ⟨hfailed, hbound.1.1, ?_, hbound.2⟩
    show ((x.1.slot.register t).2.owners t).live = true
    rw [Slot.register, if_neg hopen]
    simp
  · obtain ⟨-, -, hopen⟩ := hpass k hk ht
    rw [Slot.register, if_neg hopen] at hm
    rw [hr] at hm
    cases hm.1

/-- A claim of a suspended session starts a continuation. -/
theorem away_claim : Reviving cfg t (Away t) (slot (.claim true)) fun r x =>
    During t false (Paused t) x ∧ (r = false → Away t x) := by
  refine .perform away_stable (fun _ _ _ h k hk ht => absurd ht (h k hk)) ?_
  intro x c r x' _ _ h _ hdo _
  have hfollow := (observed_perform hdo).2
  have hm : SlotOp.perform t x.1 (.claim true) = some (r, x'.1) := (observed_perform hdo).1
  have hclaimed (k : Continuation) (hk : k ∈ x'.2) (ht : k.thread = t) :
      r = true ∧ k.failed = false ∧ x.1.db.row = some k.row ∧ resumable k.row = true := by
    rw [hfollow] at hk
    cases mem_follow hk with
    | starts _ hturns _ hfailed hrow hres => exact ⟨hturns, hfailed, hrow, hres⟩
    | goes _ hk => exact absurd ht (h k hk)
    | fails _ _ _ _ hk => exact absurd ht (h { k with failed := false } hk)
  refine ⟨fun k hk ht => ?_, fun hr k hk ht => ?_⟩
  · obtain ⟨hr, hfailed, hrow, hres⟩ := hclaimed k hk ht
    rw [hr] at hm
    have hdb := slot_db hm
    have hstatus : k.row.status = .suspended := by
      simp only [resumable, Bool.and_eq_true, decide_eq_true_eq] at hres
      exact hres.1
    exact ⟨hfailed, claim_taken hm, by rw [Mem.status, hdb, hrow, Option.map_some, hstatus]⟩
  · have := (hclaimed k hk ht).1
    rw [hr] at this
    cases this

/-! ## The programs of a continuation -/

theorem kept_claim {a b : Row} (h : a.kept = b.kept) : a.sandboxClaimName = b.sandboxClaimName :=
  congrArg (fun x => x.2.1) h

theorem kept_suspendedAt {a b : Row} (h : a.kept = b.kept) : a.suspendedAt = b.suspendedAt :=
  congrArg (fun x => x.1) h

theorem kept_template {a b : Row} (h : a.kept = b.kept) : a.templateSpec = b.templateSpec :=
  congrArg (fun x => x.2.2.2.2) h

theorem Failed.linking (h : Failed t b (Linking sess t) x) : Away t x :=
  h.1.away fun _ _ _ hk => hk.2 hk.1.2

/-- The writes of a launch that registered: none fails, and the last one ends the continuation. -/
def Linked (sess : Row) (t : ℕ) : Bool → Mem × Option Continuation → Prop :=
  Written t false (Linking sess t) fun _ _ => False

theorem Linked.away {r : Bool} (h : Linked sess t r x) : Away t x := by
  cases r with
  | true =>
    have h : During t false (fun _ _ => False) x := h
    exact h.away fun _ _ _ hk => hk
  | false => exact Failed.linking h

theorem Away.linked (h : Away t x) (r : Bool) : Linked sess t r x := by
  cases r with
  | true =>
    show During t false (fun _ _ => False) x
    exact h.during
  | false => exact h.failed

/-- The last write of a launch. -/
theorem during_running (sess : Row) (acpSessionId : String) :
    Reviving cfg t (During t false (Linking sess t)) (store (.update (.acp acpSessionId .running)))
      (Linked sess t) := by
  refine .perform (own_linking sess).stable (fun _ _ _ _ _ _ _ => rfl) ?_
  intro x c r x' hinv _ h hok hdo _
  have hne : Op.store (.update (.acp acpSessionId .running)) ≠ .slot (.claim true) := nofun
  have hm : StoreOp.perform t x.1 c (.update (.acp acpSessionId .running)) = some (r, x'.1) :=
    (observed_perform hdo).1
  refine Away.linked (fun k hk ht => ?_) r
  obtain ⟨hturns, -, -, ⟨f, hf⟩, hlink⟩ := h.act hne hdo hk ht
  have hc := hok.2 _ hf ht hlink.2
  simp only [StoreOp.perform, hc, if_true, Option.some.injEq, Prod.mk.injEq] at hm
  exact hturns hm.1.symm

theorem recordLink_reviving (hclaim : claimName = sess.sandboxClaimName)
    (sandboxName acpSessionId : String) (readySeq : ℕ) :
    Reviving cfg t (During t false (Linking sess t))
      (recordLink t claimName sandboxName acpSessionId readySeq) fun _ => Away t := by
  have hlink : Own t (Linking sess t) := own_linking sess
  have hfail : Reviving cfg t (Failed t false (Linking sess t)) (pure false : P Bool)
      (Linked sess t) := .ret fun _ _ h => h
  have hsandbox : Reviving cfg t (During t false (Linking sess t))
      (store (.update (.sandbox claimName sandboxName .awaitingApproval)))
      (Written t false (Linking sess t) (Linking sess t)) :=
    during_update hlink (fun _ _ h => hclaim.trans (kept_claim h.1).symm) fun _ _ _ h => h
  have hstream : Reviving cfg t (During t false (Linking sess t))
      (store (.update (.link t readySeq)))
      (Written t false (Linking sess t) (Linking sess t)) :=
    during_update hlink (fun _ _ _ => trivial) fun _ _ _ h => h
  have hwrites : Reviving cfg t (During t false (Linking sess t)) (do
      if ← store (.update (.sandbox claimName sandboxName .awaitingApproval)) then
        if ← store (.update (.link t readySeq)) then
          store (.update (.acp acpSessionId .running))
        else pure false
      else pure false) (Linked sess t) := by
    refine hsandbox.bind fun r => ?_
    cases r with
    | false => exact hfail
    | true =>
      refine hstream.bind fun r => ?_
      cases r with
      | false => exact hfail
      | true => exact during_running sess acpSessionId
  have hwritten : Reviving cfg t (During t false (Linking sess t))
      (recordLink t claimName sandboxName acpSessionId readySeq) (Linked sess t) :=
    during_write hlink hwrites
  exact hwritten.conseq (fun _ _ h => h) fun _ _ _ h => h.away

/-- A launch of a continuation has registered and runs, or has suspended the session again. -/
def Ended (t : ℕ) (registered : Bool) : Mem × Option Continuation → Prop :=
  if registered then Away t else During t true (Paused t)

theorem suspendedAtOf_reviving (sess : Row) :
    Reviving cfg t (During t true (Busy sess t)) (suspendedAtOf sess) fun n =>
      During t true fun row m => n = row.suspendedAt ∧ Busy sess t row m := by
  unfold suspendedAtOf
  split
  · -- the session of a continuation has the time of its pause
    rename_i hzero
    have haway : Reviving cfg t (Away t) (do pure (unixOf (← ext .now)) : P ℕ) fun _ => Away t :=
      (away_quiet (quiet_ext _)).bind fun _ => .ret fun _ _ h => h
    refine haway.conseq (fun x hinv h => h.away fun k hk _ hbusy => ?_) fun _ _ _ h => h.during
    exact (hinv k hk).paused ((kept_suspendedAt hbusy.1).trans hzero)
  · exact .ret fun _ _ h => h.mono fun _ _ hbusy => ⟨(kept_suspendedAt hbusy.1).symm, hbusy⟩

theorem failRevive_reviving (sess : Row) (opts : LaunchOpts) (reason : Reason) (detail : String) :
    Reviving cfg t (During t true (Busy sess t)) (failRevive sess opts reason detail)
      fun _ => During t true (Paused t) := by
  have hbusy := own_busy (t := t) sess
  have hsuspend : Silent (Prog.when (sess.sandboxClaimName ≠ "")
      (do let _ ← suspendSandbox sess.sandboxClaimName) : P Unit) :=
    .when ⟨⟨trivial, fun _ => rfl⟩, fun _ => trivial⟩
  refine (during_silent hbusy hsuspend).bind fun _ => ?_
  refine (during_silent hbusy (silent_failTurn ..)).bind fun _ => ?_
  refine (during_storedState hbusy _).bind fun old => ?_
  refine (suspendedAtOf_reviving sess).bind fun n => ?_
  have hupdate : Reviving cfg t (During t true fun row m => n = row.suspendedAt ∧ Busy sess t row m)
      (store (.update (.suspended n))) (Written t true
        (fun row m => n = row.suspendedAt ∧ Busy sess t row m) (Paused t)) := by
    refine during_update hbusy.and (fun _ _ h => h.1) fun row m hrow h => ⟨h.2.2, ?_⟩
    obtain ⟨r, hr⟩ := Option.isSome_iff_exists.mp hrow
    simp [Mem.status, Db.update, hr, Update.apply, Row.updateSuspended]
  refine (during_write hbusy.and hupdate).bind fun written => ?_
  have hemit :
      Silent (Prog.when (written = true) (emit "" (.stateChanged old .suspended reason))) :=
    .when (silent_emit ..)
  refine (during_silent own_paused hemit).of_imp fun x _ h => ?_
  cases written with
  | true => exact h
  | false => exact (h.2 rfl).during

theorem failLaunch_reviving (sess : Row) (hrevive : opts.revive = true) (claimName : String)
    (reason : EndReason) (detail : String) :
    Reviving cfg t (During t true (Busy sess t)) (failLaunch sess opts claimName reason detail)
      fun _ => During t true (Paused t) := by
  refine (during_takeStop sess).bind fun r => ?_
  cases r with
  | some spec =>
    have haway : Reviving cfg t (Away t) (do
        failTurn opts "the session ended"
        endLaunch (if claimName = "" then sess.sandboxClaimName else claimName) spec.ends
          spec.detail) fun _ => Away t :=
      (away_quiet ((uses_failTurn ..).quiet rfl)).bind
        fun _ => away_quiet ((uses_endLaunch ..).quiet rfl)
    exact haway.conseq (fun _ _ h => h.2 nofun) fun _ _ _ h => h.during
  | none =>
    dsimp only
    rw [if_pos hrevive]
    exact (failRevive_reviving ..).of_imp fun _ _ h => h.1

/-- A launch of a continuation that fails here. -/
theorem fail_reviving (sess : Row) {p : P Unit}
    (hp : Reviving cfg t (During t true (Busy sess t)) p fun _ => During t true (Paused t)) :
    Reviving cfg t (During t true (Busy sess t)) (p >>= fun _ => pure false) (Ended t) :=
  hp.bind fun _ => .ret fun _ _ h => h

theorem bindSession_reviving (hclaim : claimName = sess.sandboxClaimName) (sandboxName : String)
    (ready : String × ℕ) :
    Reviving cfg t (During t false (Busy sess t))
      (bindSession t sess opts claimName sandboxName ready) (Ended t) := by
  refine (during_create sess _ _ _ _).bind fun _ => ?_
  refine (during_silent (own_bound sess) (silent_saveOpening opts)).bind fun opening => ?_
  refine (during_register sess).bind fun r => ?_
  cases r with
  | true =>
    have hlink : Reviving cfg t (During t false (Linking sess t)) _ _ :=
      recordLink_reviving hclaim sandboxName ready.1 ready.2
    have hrun : Reviving cfg t (During t false (Linking sess t))
        (runRegistered t opts opening claimName sandboxName ready) fun _ => Away t := by
      refine hlink.bind fun linked => away_quiet (.bind ⟨nofun, trivial⟩ fun _ => ?_)
      refine .bind ?_ fun _ => quiet_bind t _
      split
      · exact (uses_runLinked ..).quiet rfl
      · exact quiet_of_plain (plain_stopUnlinked ..)
    refine (hrun.of_imp fun _ _ h => h.1).bind fun _ => ?_
    exact .ret fun _ _ h => h
  | false =>
    have haway : Reviving cfg t (Away t) (do
        onBinding t .closeConsumed
        onBinding t .closeSession
        failLaunch sess opts claimName .launchFailed ""
        onBinding t .closeReady
        pure false) (Ended t) := by
      refine (away_quiet (quiet_bind t _)).bind fun _ => ?_
      refine (away_quiet (quiet_bind t _)).bind fun _ => ?_
      refine (failLaunch_away ..).bind fun _ => ?_
      refine (away_quiet (quiet_bind t _)).bind fun _ => ?_
      exact .ret fun _ _ h => Away.during h
    exact haway.of_imp fun _ _ h => h.2 rfl

theorem activateFailed_reviving (hrevive : opts.revive = true) (claimName : String)
    (err : ActivateError) :
    Reviving cfg t (During t true (Busy sess t)) (activateFailed sess opts claimName err)
      fun _ => During t true (Paused t) := by
  have hbusy : Own t (Busy sess t) := own_busy sess
  have hfail : Reviving cfg t (During t true (Busy sess t)) (do
      let failure := activateFailure err (← ext .outcome)
      failLaunch sess opts claimName failure.1 failure.2) fun _ => During t true (Paused t) := by
    have hext : Silent (ext .outcome) := .perform ⟨trivial, fun _ => rfl⟩
    exact (during_silent hbusy hext).bind fun _ => failLaunch_reviving sess hrevive ..
  unfold activateFailed
  dsimp only
  split
  · have hstopped : Silent (slot .stopped) := .perform ⟨trivial, fun _ => rfl⟩
    refine (during_silent hbusy hstopped).bind fun r => ?_
    split
    · exact hfail
    · exact failRevive_reviving ..
  · exact hfail

theorem activateAndRun_reviving (hrevive : opts.revive = true)
    (hclaim : claimName = sess.sandboxClaimName) (sandboxName : String) :
    Reviving cfg t (During t false (Busy sess t))
      (activateAndRun sess opts claimName sandboxName) (Ended t) := by
  have hbusy : Own t (Busy sess t) := own_busy sess
  have hself : Reviving cfg t (During t false (Busy sess t)) (ext .self) fun n x =>
      n = t ∧ During t false (Busy sess t) x := by
    refine .perform hbusy.stable (fun _ _ _ _ _ _ _ => trivial) ?_
    intro x c r x' _ _ h _ hdo _
    cases hdo
    exact ⟨rfl, h⟩
  refine hself.bind fun n => .of_fact ?_
  rintro rfl
  refine (during_ext .spawnAgent hbusy).bind fun r => ?_
  cases r with
  | false => exact fail_reviving sess (activateFailed_reviving hrevive ..)
  | true =>
    refine (during_ext .awaitReady hbusy).bind fun r => ?_
    cases r with
    | error err => exact fail_reviving sess (activateFailed_reviving hrevive ..)
    | ok ready => exact bindSession_reviving hclaim sandboxName ready

/-- A state write of a launch before it registers. -/
theorem writeUpdate_reviving (sess : Row) {u : Update}
    (hu : ∀ row, row.kept = sess.kept → u.keeps row)
    (hb : ∀ row m, Busy sess t row m →
      Busy sess t row { m with db := m.db.update (u.apply m.unix) }) :
    Reviving cfg t (During t false (Busy sess t)) (write (store (.update u)))
      fun r => During t (!r) (Busy sess t) := by
  have hwrite : Reviving cfg t (During t false (Busy sess t)) (write (store (.update u)))
      (Written t false (Busy sess t) (Busy sess t)) :=
    during_write (own_busy sess)
      (during_update (own_busy sess) (fun row _ h => hu row h.1) fun row m _ => hb row m)
  refine hwrite.conseq (fun _ _ h => h) fun r x _ h => ?_
  cases r with
  | true => exact h
  | false => exact Failed.during h

theorem launchRun_reviving (hrevive : opts.revive = true)
    (hclaim : claimName = sess.sandboxClaimName) (sandboxName : String) :
    Reviving cfg t (During t false (Busy sess t))
      (launchRun sess opts claimName sandboxName) (Ended t) := by
  have hbusy : Own t (Busy sess t) := own_busy sess
  refine (during_ext (.createRun _ _ _) hbusy).bind fun r => ?_
  cases r with
  | none => exact fail_reviving sess (failLaunch_reviving sess hrevive ..)
  | some res =>
    refine (during_ext .expect hbusy).bind fun r => ?_
    cases r with
    | false => exact fail_reviving sess (failLaunch_reviving sess hrevive ..)
    | true =>
      refine (writeUpdate_reviving sess (u := .run res.runId) (fun _ _ => trivial)
        fun _ _ h => h).bind fun r => ?_
      cases r with
      | false => exact fail_reviving sess (failLaunch_reviving sess hrevive ..)
      | true =>
        refine (during_silent hbusy (silent_emit ..)).bind fun _ => ?_
        refine (during_silent hbusy (silent_emit ..)).bind fun _ => ?_
        exact activateAndRun_reviving hrevive hclaim sandboxName

theorem launchSession_reviving (hrevive : opts.revive = true) :
    Reviving cfg t (During t false (Busy sess t)) (launchSession sess opts) (Ended t) := by
  have hbusy : Own t (Busy sess t) := own_busy sess
  unfold launchSession
  split
  · have hbegin : Reviving cfg t (During t false (Busy sess t))
        (beginLaunch sess.status (launchReason opts.revive))
        fun r => During t (!r) (Busy sess t) := by
      refine (writeUpdate_reviving sess (u := .launched) (fun _ _ => trivial)
        fun _ _ h => h).bind fun r => ?_
      cases r with
      | false => exact .ret fun _ _ h => h
      | true => exact (during_silent hbusy (silent_emit ..)).bind fun _ => .ret fun _ _ h => h
    refine hbegin.bind fun r => ?_
    cases r with
    | false => exact fail_reviving sess (failLaunch_reviving sess hrevive ..)
    | true =>
      have hspace : Reviving cfg t (During t false (Busy sess t)) (workspace sess opts) fun r x =>
          During t r.isNone (Busy sess t) x ∧ ∀ w ∈ r, w.1 = sess.sandboxClaimName := by
        unfold workspace
        rw [if_pos hrevive]
        refine (during_ext (.revive _) hbusy).bind fun r => ?_
        cases r with
        | none => exact .ret fun _ _ h => ⟨h, nofun⟩
        | some sandboxName => exact .ret fun _ _ h => ⟨h, fun w hw => by cases hw; rfl⟩
      refine hspace.bind fun r => ?_
      cases r with
      | none =>
        exact (fail_reviving sess (failLaunch_reviving sess hrevive ..)).of_imp fun _ _ h => h.1
      | some w =>
        obtain ⟨claimName, sandboxName⟩ := w
        refine Discipline.Triple.of_imp (.of_fact fun hclaim => ?_) fun _ _ h => ⟨h.2 _ rfl, h.1⟩
        refine (writeUpdate_reviving sess (u := .sandbox claimName sandboxName .launching)
          (fun row h => hclaim.trans (kept_claim h).symm) fun _ _ h => h).bind fun r => ?_
        cases r with
        | false => exact fail_reviving sess (failLaunch_reviving sess hrevive ..)
        | true => exact launchRun_reviving hrevive hclaim sandboxName
  · -- the template of a continuation can be read
    rename_i htemplate
    have haway : Reviving cfg t (Away t) (do
        let _ ← endSession sess.status .launchFailed
          "the session's agent template snapshot could not be read"
        pure false) (Ended t) :=
      (away_quiet (quiet_endSession ..)).bind fun _ => .ret fun _ _ h => Away.during h
    refine haway.of_imp fun x hinv h => h.away fun k hk _ hkb => ?_
    have hreadable := (hinv k hk).readable
    unfold storedTemplate at hreadable htemplate
    rw [kept_template hkb.1] at hreadable
    exact htemplate hreadable

theorem launchBody_reviving (hrevive : opts.revive = true) :
    Reviving cfg t (During t false (Paused t)) (launchBody opts) (Ended t) := by
  refine (during_getSession own_paused).bind fun r => ?_
  cases r with
  | none =>
    have hfail : Reviving cfg t (During t true (Paused t)) (do
        failTurn opts "the session could not be read to continue it"
        pure false) (Ended t) :=
      (during_silent own_paused (silent_failTurn ..)).bind fun _ => .ret fun _ _ h => h
    exact hfail.of_imp fun _ _ h => Failed.during h
  | some sess =>
    have hbusy : Own t (Busy sess t) := own_busy sess
    refine ((during_stopped sess).of_imp fun _ _ h => h.mono fun _ _ hk =>
      ⟨hk.1.1, hk.2.1⟩).bind fun r => ?_
    cases r with
    | true =>
      have haway : Reviving cfg t (Away t) (do
          failLaunch sess opts "" .launchFailed ""
          pure false) (Ended t) :=
        (failLaunch_away ..).bind fun _ => .ret fun _ _ h => Away.during h
      exact haway.of_imp fun _ _ h => h.2 rfl
    | false =>
      simp only [Bool.false_eq_true, if_false]
      split
      · refine ((during_nextTurn hbusy).of_imp fun _ _ h => h.1).bind fun r => ?_
        cases r with
        | none => exact fail_reviving sess (failLaunch_reviving sess hrevive ..)
        | some n =>
          have hnote : Silent (note (.accepted n.1)) := .perform ⟨trivial, fun _ => rfl⟩
          refine (during_silent hbusy hnote).bind fun _ => ?_
          exact launchSession_reviving hrevive
      · exact (launchSession_reviving hrevive).of_imp fun _ _ h => h.1

/-- A continuation settles when the session is suspended. -/
theorem during_settle {b : Bool} {Q : α → Mem × Option Continuation → Prop} :
    Reviving cfg t (During t b (Paused t)) (.jump (.settle .nothing)) Q :=
  .jump own_paused.stable fun _ _ h k hk ht => (h k hk ht).2

theorem launch_reviving (hrevive : opts.revive = true) :
    Reviving cfg t (During t false (Paused t)) (launch opts) fun _ _ => True := by
  refine (launchBody_reviving hrevive).bind fun r => ?_
  cases r with
  | false => exact during_settle
  | true =>
    refine (away_quiet (quiet_ext .self)).bind fun n => ?_
    have hspawn : Quiet (.spawn (.watchRun n) (pure ()) : P Unit) := ⟨nofun, trivial⟩
    exact (away_quiet hspawn).conseq (fun _ _ h => h) fun _ _ _ _ => trivial

theorem promptSuspended_reviving (content : String) :
    Reviving cfg t (Away t) (promptSuspended content) fun _ _ => True := by
  refine away_claim.bind fun r => ?_
  cases r with
  | false => exact Routine.done _
  | true =>
    refine ((during_getSession own_paused).of_imp fun _ _ h => h.1).bind fun r => ?_
    cases r with
    | none => exact during_settle.of_imp fun _ _ h => Failed.during h
    | some current =>
      have hpaused (x : Mem × Option Continuation)
          (h : During t false (Read (Paused t) current) x) :
          During t false (Paused t) x := h.mono fun _ _ hk => hk.2
      dsimp only
      split
      · exact during_settle.of_imp fun x _ h => hpaused x h
      · refine ((during_nextTurn own_paused).of_imp fun x _ h => hpaused x h).bind fun r => ?_
        cases r with
        | none => exact during_settle
        | some n =>
          have hnote : Silent (note (.accepted n.1)) := .perform ⟨trivial, fun _ => rfl⟩
          refine (during_silent own_paused hnote).bind fun _ => ?_
          exact launch_reviving rfl

theorem prompt_reviving (content : String) :
    Reviving cfg t (Away t) (prompt content) fun _ _ => True := by
  refine (away_quiet (quiet_store _)).bind fun r => ?_
  cases r with
  | none => exact Routine.done _
  | some sess =>
    dsimp only
    split
    · have hlookup : Quiet (slot .lookup) := .perform trivial
      refine (away_quiet hlookup).bind fun r => ?_
      cases r with
      | none => exact Routine.done _
      | some b => exact (revivals_routine t).rest_idle ((uses_promptRunning ..).quiet rfl)
    · split
      · exact promptSuspended_reviving content
      · exact Routine.done _

/-- A continuation gives up a suspended session, and no stop is waiting for it. -/
theorem finish_reviving (after : After) :
    Reviving cfg t ((revivals cfg).entry t (.settle after)) (slot .finish) fun r x =>
      r ≠ none → Away t x := by
  have hstable : (revivals cfg).Stable t ((revivals cfg).entry t (.settle after)) := by
    intro x x' hinv hinv' ho h k hk ht
    have hk' := other_follows ho hk ht
    have hd : During t k.failed (Paused t) x := by
      intro k' hk'' ht'
      obtain rfl : k' = k := Option.some.inj (hk''.symm.trans hk')
      exact ⟨rfl, h _ hk'' ht'⟩
    exact (own_paused.stable x x' hinv hinv' ho hd k hk ht).2
  refine .perform hstable (fun _ _ _ h k hk ht => (h k hk ht).2) ?_
  intro x c r x' hinv hg h _ hdo _ hr k hk ht
  have hfollow := (observed_perform hdo).2
  have hm : SlotOp.perform t x.1 .finish = some (r, x'.1) := (observed_perform hdo).1
  rw [hfollow] at hk
  have hk : k ∈ x.2 := hk
  have hstop := ((hinv k hk).trying hg.2.2.slot (by rw [ht]; exact (h k hk ht).1)).stop hg.2.2.slot
  rw [ht] at hstop
  simp only [SlotOp.perform, Slot.finish, hstop, Option.some.injEq, Prod.mk.injEq] at hm
  exact hr hm.1.symm

theorem settle_reviving (after : After) :
    Reviving cfg t ((revivals cfg).entry t (.settle after)) (settle after) fun _ _ => True := by
  have hnote (op : NoteOp) : Reviving cfg t (fun _ => True) (note op) fun _ _ => True :=
    .perform (fun _ _ _ _ _ _ => trivial) (fun _ _ _ _ _ _ _ => trivial)
      fun _ _ _ _ _ _ _ _ _ _ => trivial
  refine (finish_reviving after).bind fun r => ?_
  cases r with
  | none =>
    cases after with
    | nothing => exact Routine.done _
    | up => exact (hnote .up).of_imp fun _ _ _ => trivial
    | answer stopped =>
      show Reviving cfg t _ (Prog.when _ _) _
      unfold Prog.when
      split
      · exact (hnote .endOk).of_imp fun _ _ _ => trivial
      · exact Routine.done _
  | some spec =>
    refine ((away_quiet ((uses_stopDetached spec).quiet rfl)).of_imp fun _ _ h => h nofun).bind
      fun _ => ?_
    refine (away_slot .ran nofun).bind fun _ => ?_
    exact away_settle after

/-! ## Every run -/

theorem code_reviving (e : Entry) :
    Reviving cfg t ((revivals cfg).entry t e) (code cfg e) fun _ _ => True := by
  cases e with
  | settle after => exact settle_reviving after
  | endSession reason => exact callEndSession_away reason
  | createSession templateSpec approvalPrompt initialPrompt => exact createSession_away ..
  | prompt content => exact prompt_reviving content
  | _ => exact (revivals_routine t).unlaunched nofun nofun nofun nofun

theorem revivals_env {l : EnvStep} (h : (revivals cfg).inv x)
    (hdo : (observed cfg).env x l = some x') : (revivals cfg).inv x' := by
  intro k hk
  obtain ⟨hm, hg⟩ := observed_env hdo
  rw [hg] at hk
  exact (h k hk).still (env_still hm)

theorem revivals_lawful : (revivals cfg).Lawful where
  inv_act h hg hpre hok hdo := revivals_act h hg hpre hok hdo
  inv_env h _ hdo := revivals_env h hdo
  inv_crash _ _ k hk := (Option.not_mem_none k hk).elim
  fresh_other _ h ho k hk ht := h k (other_follows ho hk ht) ht
  fresh_crash _ _ _ k hk := (Option.not_mem_none k hk).elim
  entry_start {_ e _} _ h _ hopen := by
    cases e with
    | settle after => cases hopen
    | _ => exact h
  entry_safe hinv h := (code_reviving _).safe hinv h

/-- The steps of a run in which what a Prompt continues can be read and has the time of its
pause, and the calls succeed with which a continuation that registered records its link. -/
def recoverableStep (s : Config sig (Mem × Option Continuation)) :
    ThreadLabel sig Choice EnvStep → Prop
  | .run t c => ∀ op ∈ System.pending s t, recoverable t op s.mem c
  | _ => True

theorem revivals_ok {l : ThreadLabel sig Choice EnvStep} (ho : orderlyStep s.base l)
    (hr : recoverableStep s l) : (revivals cfg).ok s l := by
  cases l with
  | run t c =>
    apply Discipline.ok_run
    intro op hop
    exact ⟨ho op hop, hr op hop⟩
  | _ => trivial

theorem ledger_ok_of_revivals {l : ThreadLabel sig Choice EnvStep} (h : (revivals cfg).ok s l) :
    (ledger cfg).ok s.base l := by
  cases l with
  | run t c => exact fun op k hk => (h op k hk).1
  | _ => trivial

theorem revivals_good (h : Reach (observed cfg).step (revivals cfg).ok observedInit s) :
    (revivals cfg).Good s := by
  refine revivals_lawful.sound ?_ ?_ h
  · have hnone (k : Continuation) : k ∉ observedInit.mem.2 := Option.not_mem_none k
    exact ⟨fun k hk => absurd hk (hnone k), fun t _ => ⟨fun k hk => absurd hk (hnone k), rfl⟩,
      fun t p hp => by cases hp⟩
  · intro s hs t op k hk
    have hany : Reach (system cfg).step anyStep init s.base :=
      System.observe_reach hs fun _ _ _ => trivial
    have horderly : Reach (system cfg).step (ledger cfg).ok init s.base :=
      System.observe_reach hs fun _ _ => ledger_ok_of_revivals
    have hpre := (protocol_good hany).pre (t := t) hk trivial
    exact ⟨hpre, (ledger_good horderly).pre hk hpre, (ledger_good horderly).inv⟩

/-- The session is suspended again with what it had, and a Prompt may continue it. -/
def PutBack (row : Row) (m : Mem) : Prop :=
  ∃ r, m.db.row = some r ∧ r.status = .suspended ∧ r.suspendedAt = row.suspendedAt ∧
    r.sandboxClaimName = row.sandboxClaimName ∧ r.acpSessionId = row.acpSessionId ∧
    r.approverSubject = row.approverSubject ∧ r.templateSpec = row.templateSpec ∧
    revivable r = true

theorem Continues.putBack (h : Continues k m) (hinv : LedgerInv m) (he : m.slot.entry = none) :
    PutBack k.row m := by
  obtain ⟨r, hr, hkept, -⟩ := h.row
  have hstatus : r.status = .suspended := by
    rcases h.place with hp | hp | ⟨-, hst⟩
    · have := (hinv.slot.taken_entry _ hp.taken).1
      rw [he] at this
      cases this
    · exact absurd he (hinv.writer_entry (.inr hp))
    · simpa [Mem.status, hr] using hst
  simp only [Row.kept, Prod.mk.injEq] at hkept
  obtain ⟨h1, h2, h3, h4, h5⟩ := hkept
  refine ⟨r, hr, hstatus, h1, h2, h3, h4, h5, ?_⟩
  have := h.revivable
  unfold Service.revivable at this ⊢
  rw [h2, h3, h4, h5]
  exact this

instance (s : Config sig (Mem × Option Continuation)) : (l : ThreadLabel sig Choice EnvStep) →
    Decidable (recoverableStep s l)
  | .run t c => inferInstanceAs (Decidable (∀ op ∈ System.pending s t, recoverable t op s.mem c))
  | .start _ | .env _ | .crash => inferInstanceAs (Decidable True)

/-- A session is launched, is idle for five seconds, and is suspended; five seconds later a
Prompt continues it up to its workspace. -/
def resumed : List (ThreadLabel sig Choice EnvStep) := List.flatten
  [[.start (.createSession (.snapshot "") "" "")], steps 0 8, steps 0 1 { claimName := "c" },
    steps 0 10, [.env (.agent 0 (.opened "s" true)), .env (.pushEvent 0)],
    steps 0 15 { run := { approverSubject := "u" } },
    [.env (.tick (5 * 10 ^ 9)), .start .sweepIdle],
    steps 3 4, steps 1 2 { ok := false }, steps 3 19,
    [.env (.tick (5 * 10 ^ 9)), .start (.prompt "p")], steps 4 12]

/-- The workspace cannot be recorded. -/
def resumeFailed : List (ThreadLabel sig Choice EnvStep) :=
  List.flatten [resumed, steps 4 1 { ok := false }, steps 4 9]

/-- The agent runs and its session is registered, but cannot be recorded as running; the launch
stops it. -/
def resumeUnlinked : List (ThreadLabel sig Choice EnvStep) := List.flatten
  [resumed, steps 4 9, [.env (.agent 4 (.opened "s" true)), .env (.pushEvent 4)], steps 4 10,
    steps 4 1 { ok := false }, steps 4 7, [.env (.tick (5 * 10 ^ 9))], steps 6 2,
    steps 5 2 { ok := false }, steps 6 19]

/-- The state after a run of the observed family with one session. -/
def observedAfter (cfg : Settings) (run : List (ThreadLabel sig Choice EnvStep)) :
    Unit → Config sig (Mem × Option Continuation) :=
  (exec (family (observed cfg).step) (fun _ => observedInit) (run.map fun l => ((), l))).getD
    fun _ => observedInit

end AgentOps.Service
