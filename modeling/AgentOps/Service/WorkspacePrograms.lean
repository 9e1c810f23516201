import AgentOps.Service.Pins
import AgentOps.Service.Workspaces

/-!
# Every program tears a workspace down before it ends the session

The programs one by one. A stop and a failed launch know the recorded claim: the one they read
while they may write the session, or the one of the binding that they stop.
-/

namespace AgentOps.Service

open AgentOps.Api AgentOps.Link AgentOps.Lib

variable {sess : Row} {claimName : String} {revive : Bool}

variable {cfg : Settings} {t : ℕ} {ρ : Role} {K : Mem × Account → Prop} {α : Type}

/-! ## Reads, teardowns and ends -/

/-- The row records the claim. -/
def Records (claimName : String) (x : Mem × Account) : Prop := x.1.claim = claimName

theorem kept_records (claimName : String) : Kept t (Records claimName) :=
  ⟨fun hs hx => hs.claim.trans hx⟩

/-- The template of the row can be read, or cannot. -/
def Readable (readable : Bool) (x : Mem × Account) : Prop := x.1.readable = readable

theorem kept_readable (readable : Bool) : Kept t (Readable readable) :=
  ⟨fun hs hx => hs.readable.trans hx⟩

/-- What the row records is what was read. -/
def Reads (sess : Row) (x : Mem × Account) : Prop :=
  Records sess.sandboxClaimName x ∧ Readable (storedTemplate sess) x

theorem kept_reads (sess : Row) : Kept t (Reads sess) := (kept_records _).and (kept_readable _)

theorem reads_of_row {x : Mem × Account} (h : x.1.db.row = some sess) : Reads sess x := by
  constructor
  · rw [Records, Mem.claim, h]
    rfl
  · rw [Readable, Mem.readable, h]
    rfl

theorem tending_getSession (hK : Kept t K) : Tending cfg t (Seat ρ t K) getSession fun r x =>
    Seat ρ t K x ∧ ∀ sess, r = some sess → Reads sess x := by
  refine .perform hK.stable (fun _ _ _ _ => trivial) ?_
  intro x c r x' _ hst hx hok hdo _
  have hs : Sheltered t x x' := sheltered_of_outside (by trivial) hst hok.1 hdo
  have hm := (housed_perform hdo).1
  refine ⟨⟨seated_act (by trivial) hx.1 hm, hK.sheltered hs hx.2⟩, ?_⟩
  rintro sess rfl
  exact (kept_reads sess).sheltered hs (reads_of_row (row_of_getSession hm))

/-- The two cases of a read. -/
theorem tending_read (hK : Kept t K) {f : Option Row → P α} {R : α → Mem × Account → Prop}
    (hnone : Tending cfg t (Seat ρ t K) (f none) R)
    (hsome : ∀ sess, Tending cfg t (Seat ρ t fun x => K x ∧ Reads sess x) (f (some sess)) R) :
    Tending cfg t (Seat ρ t K) (getSession >>= f) R := by
  refine (tending_getSession hK).bind fun r => ?_
  cases r with
  | none => exact hnone.of_imp fun _ _ hx => hx.1
  | some sess => exact (hsome sess).of_imp fun _ _ hx => ⟨hx.1.1, hx.1.2, hx.2 sess rfl⟩

/-- A `Teardown` clears the claim, or the thread was refused. -/
theorem tending_teardown (hK : Kept t K) (claimName : String) :
    Tending cfg t (Seat ρ t K) (teardown claimName) fun ok x =>
      if ok then Seat ρ t (fun x => K x ∧ x.2.torn claimName = true) x
      else Seat ρ t K x ∧ x.2.refused t = true := by
  refine .perform hK.stable (fun _ _ _ _ => trivial) ?_
  intro x c r x' _ hst hx hok hdo _
  have hs : Sheltered t x x' := sheltered_of_outside (by trivial) hst hok.1 hdo
  obtain ⟨hm, hg⟩ := housed_perform hdo
  have hrole := seated_act (by trivial) hx.1 hm
  have hK' := hK.sheltered hs hx.2
  cases r with
  | true =>
    refine ⟨hrole, hK', ?_⟩
    rw [hg]
    exact Function.update_self ..
  | false =>
    refine ⟨⟨hrole, hK'⟩, ?_⟩
    rw [hg]
    exact Function.update_self ..

theorem tending_endSession (hK : Kept t K) (old : SessionState) (reason : EndReason)
    (detail : String) (preface : List (String × Payload)) :
    Tending cfg t (Seat ρ t fun x => K x ∧ Cleared x) (endSession old reason detail preface)
      fun _ => Seat ρ t K := by
  have hfinish (status : SessionState) (events : List (String × Payload)) :
      Tending cfg t (Seat ρ t fun x => K x ∧ Cleared x) (store (.finishSession status events))
        fun _ => Seat ρ t K := by
    refine .perform (hK.and kept_cleared).stable (fun _ _ _ hx => hx.2.2) ?_
    intro x c r x' _ hst hx hok hdo _
    have hs : Sheltered t x x' := sheltered_of_outside (by trivial) hst hok.1 hdo
    exact ⟨seated_act (by trivial) hx.1 (housed_perform hdo).1, hK.sheltered hs hx.2.1⟩
  refine (hfinish ..).bind fun r => ?_
  cases r <;> exact .ret fun _ _ hx => hx

/-- A recorded claim that is torn down is cleared. -/
theorem Records.cleared {x : Mem × Account} (h : Records claimName x)
    (htorn : x.2.torn claimName = true) : Cleared x := by
  right
  rw [show x.1.claim = claimName from h]
  exact htorn

/-! ## Stops -/

/-- The end of a session, once the claim that was read is torn down. -/
theorem tearDownRead_tends (hK : Kept t K) (sess : Row) {p : P α}
    {q : P α} (hp : Tending cfg t (Seat ρ t fun x => K x ∧ Cleared x) p fun _ => Seat ρ t K)
    (hq : Tending cfg t (Seat ρ t K) q fun _ => Seat ρ t K) :
    Tending cfg t (Seat ρ t fun x => K x ∧ Reads sess x)
      (if sess.sandboxClaimName ≠ "" then do
        if ← teardown sess.sandboxClaimName then p else q
      else p) fun _ => Seat ρ t K := by
  split
  · refine (tending_teardown (hK.and (kept_reads sess)) _).bind fun ok => ?_
    cases ok with
    | true =>
      refine hp.of_imp fun x _ hx => ⟨hx.1, hx.2.1.1, ?_⟩
      exact hx.2.1.2.1.cleared hx.2.2
    | false => exact hq.of_imp fun x _ hx => ⟨hx.1.1, hx.1.2.1⟩
  · rename_i hnone
    refine hp.of_imp fun x _ hx => ⟨hx.1, hx.2.1, .inl ?_⟩
    rw [show x.1.claim = sess.sandboxClaimName from hx.2.2.1]
    simpa using hnone

theorem stopDetached_tends (hK : Kept t K) (spec : StopSpec) :
    Tending cfg t (Seat ρ t K) (stopDetached spec) fun _ => Seat ρ t K := by
  refine tending_read hK (.ret fun _ _ hx => hx) fun sess => ?_
  dsimp only
  split
  · exact .ret fun _ _ hx => ⟨hx.1, hx.2.1⟩
  · exact tearDownRead_tends hK sess (tending_endSession hK ..) (.ret fun _ _ hx => hx)

theorem tearDownAndEnd_tends (hK : Kept t K) (claimName : String) (spec : StopSpec) :
    Tending cfg t (Seat ρ t fun x => K x ∧ Records claimName x) (tearDownAndEnd claimName spec)
      fun _ => Seat ρ t K := by
  refine (tending_teardown (hK.and (kept_records claimName)) claimName).bind fun ok => ?_
  cases ok with
  | true =>
    have hread : Tending cfg t (Seat ρ t fun x => K x ∧ Cleared x) (storedState .running)
        fun _ => Seat ρ t fun x => K x ∧ Cleared x :=
      (hK.and kept_cleared).uses (uses_storedState _) rfl
    refine (hread.of_imp fun x _ hx => ⟨hx.1, hx.2.1.1, ?_⟩).bind fun old => ?_
    · exact hx.2.1.2.cleared hx.2.2
    · exact tending_endSession hK ..
  | false => exact .ret fun _ _ hx => ⟨hx.1.1, hx.1.2.1⟩

/-- The launch of the binding that a thread stops is ready. -/
theorem tending_awaitReady (b : ℕ) :
    Tending cfg t (fun x => Stopping t b x.1) (onBinding b .awaitReady)
      fun _ => Seat .holding t fun x => (x.1.slot.owners b).live = true := by
  refine .perform ?_ (fun _ _ _ _ => trivial) ?_
  · exact fun x x' hinv _ ho hx => lasting_stopping b _ _ (other_leaves hinv ho).keeps hx
  · intro x c r x' _ _ hx _ hdo _
    have hm := (housed_perform hdo).1
    simp only [perform, BindOp.perform] at hm
    split at hm
    · rename_i hready
      obtain ⟨m, g⟩ := x'
      cases hm
      exact ⟨hx.holds hready, hx.live⟩
    · cases hm

/-- The claim of the binding that a thread stops is the recorded one. -/
theorem tending_claimOf (b : ℕ) :
    Tending cfg t (Seat ρ t fun x => (x.1.slot.owners b).live = true) (onBinding b .claim)
      fun claimName => Seat ρ t (Records claimName) := by
  have hlive : Kept t fun x => (x.1.slot.owners b).live = true :=
    ⟨fun hs hx => (hs.live b).trans hx⟩
  refine .perform hlive.stable (fun _ _ _ _ => trivial) ?_
  intro x c r x' hinv hst hx hok hdo _
  have hs : Sheltered t x x' := sheltered_of_outside (by trivial) hst hok.1 hdo
  have hm := (housed_perform hdo).1
  refine ⟨seated_act (by trivial) hx.1 hm, hs.claim.trans ?_⟩
  rw [← hinv.bound b hx.2]
  exact congrArg Prod.fst (Option.some.inj hm)

theorem stopLive_tends (b : ℕ) (spec : StopSpec) :
    Tending cfg t (fun x => Stopping t b x.1) (stopLive cfg b spec)
      fun _ => Seat .holding t fun _ => True := by
  have hlive : Kept t fun x => (x.1.slot.owners b).live = true :=
    ⟨fun hs hx => (hs.live b).trans hx⟩
  have hdrain : Tending cfg t (fun x => Stopping t b x.1) (drainBinding b)
      fun _ => Seat .holding t fun x => (x.1.slot.owners b).live = true :=
    (tending_awaitReady b).bind fun r => hlive.uses ((uses_drainBinding b).2 r) rfl
  refine hdrain.bind fun _ => (tending_claimOf b).bind fun claimName => ?_
  have hrecords := kept_records (t := t) claimName
  have hend : Tending cfg t (Seat .holding t (Records claimName)) (tearDownAndEnd claimName spec)
      fun _ => Seat .holding t fun _ => True :=
    (tearDownAndEnd_tends kept_true claimName spec).of_imp fun _ _ hx => ⟨hx.1, trivial, hx.2⟩
  split
  · have hsuspend : Uses [.suspend] (suspendSandbox claimName) := .act _ rfl
    refine (hrecords.uses hsuspend rfl).bind fun ok => ?_
    split
    · refine (hrecords.uses (uses_recordSuspended cfg _) rfl).conseq (fun _ _ hx => hx) ?_
      exact fun _ _ _ hx => ⟨hx.1, trivial⟩
    · exact hend
  · exact hend

/-! ## Giving the session up -/

/-- The assertion of a thread that settles. -/
def Settles (t : ℕ) (after : After) : Mem × Account → Prop :=
  Seat .holding t fun x => after = .up → Rising t x

theorem tending_settle (after : After) {Q : α → Mem × Account → Prop} :
    Tending cfg t (Settles t after) (.jump (.settle after)) Q :=
  .jump (kept_rising after).stable fun _ _ hx => hx

theorem tending_finish (after : After) : Tending cfg t (Settles t after) (slot .finish)
    fun r x => (after = .up → Rising t x) ∧ ∀ spec, r = some spec → Holds t x.1 := by
  refine .perform (kept_rising after).stable (fun _ _ _ _ => trivial) ?_
  intro x c r x' hinv _ hx _ hdo _
  refine ⟨fun h => rising_act hinv (hx.2 h) hdo, ?_⟩
  rintro spec hr
  have hm := (housed_perform hdo).1
  obtain ⟨m, g⟩ := x'
  cases hm
  have hrole : Role.holding.Has t x.1 := hx.1
  exact ((finish_idle hr).keeps t).role hrole

theorem settle_tends (after : After) :
    Tending cfg t (Settles t after) (settle after) fun _ _ => True := by
  refine (tending_finish after).bind fun r => ?_
  cases r with
  | none =>
    cases after with
    | nothing => exact tending_done
    | answer stopped =>
      have hnote : Uses [.endOk] (note .endOk) := .act _ rfl
      exact tending_rest (.when hnote) rfl
    | up =>
      refine .of_imp (.perform enduring_rising.stable (fun _ _ _ hx => hx) ?_)
        fun _ _ hx => hx.1 rfl
      exact fun _ _ _ _ _ _ _ _ _ _ => trivial
  | some spec =>
    have hstop : Tending cfg t (Settles t after) (stopDetached spec) fun _ => Settles t after :=
      stopDetached_tends (kept_rising after) spec
    have hran : Uses [.ran] (slot .ran) := .act _ rfl
    refine (hstop.of_imp fun x _ hx => ⟨hx.2 spec rfl, hx.1⟩).bind fun _ => ?_
    refine ((kept_rising after).uses hran rfl).bind fun _ => ?_
    exact tending_settle after

/-! ## Taking the session -/

theorem tending_detach (want : Option ℕ) (spec : StopSpec) :
    Tending cfg t (fun x => want = none → Up x) (slot (.detach want spec))
      fun r x => DetachLeft t r x.1 := by
  refine .perform ?_ ?_ ?_
  · exact fun x x' hinv _ ho hx hw => (other_leaves hinv ho).up (hx hw)
  · intro x _ _ hx
    cases want with
    | none => exact hx rfl
    | some o => trivial
  · intro x c r x' _ hst _ hok hdo _
    refine detach_left hst.inv hst.protocol hst.promise ?_ (Option.some.inj (housed_perform hdo).1)
    rintro rfl
    exact hok.1

theorem stopOwned_tends (want : Option ℕ) (spec : StopSpec) (answers : Bool) :
    Tending cfg t (fun x => want = none → Up x) (stopOwned cfg want spec answers)
      fun _ _ => True := by
  have hsettle (stopped : Bool) : Tending cfg t (Seat .holding t fun _ => True)
      (.jump (.settle (if answers then .answer stopped else .nothing)) : P (Option ℕ))
      fun _ _ => True := by
    refine (tending_settle _).of_imp fun x _ hx => ⟨hx.1, ?_⟩
    split <;> exact nofun
  refine (tending_detach want spec).bind fun r => ?_
  split
  · exact tending_done
  · exact tending_done
  · rename_i victim
    cases victim with
    | none =>
      refine ((stopDetached_tends kept_true spec).of_imp fun x _ hx => ?_).bind hsettle
      exact ⟨(synced_iff.mp hx).1, trivial⟩
    | some b => exact (stopLive_tends b spec).bind hsettle

theorem stop_tends (want : Option ℕ) (spec : StopSpec) :
    Tending cfg t (fun x => want = none → Up x) (stop cfg want spec) fun _ _ => True :=
  (stopOwned_tends want spec false).bind fun _ => tending_done

/-! ## Launches that fail -/

/-- The read of a thread whose `Teardown` failed. -/
theorem tending_recordsClaim (hK : Kept t K) (claimName : String) :
    Tending cfg t (fun x => Seat ρ t K x ∧ x.2.refused t = true) (recordsClaim claimName)
      fun r x => Seat ρ t K x ∧ (r = false → ¬ Records claimName x) := by
  have hread : Tending cfg t (fun x => Seat ρ t K x ∧ x.2.refused t = true) getSession
      fun r x => Seat ρ t K x ∧ ∃ sess, r = some sess ∧ Reads sess x := by
    refine .perform hK.stable_refused (fun _ _ _ _ => trivial) ?_
    intro x c r x' _ hst hx hok hdo _
    have hs : Sheltered t x x' := sheltered_of_outside (by trivial) hst hok.1 hdo
    have hm := (housed_perform hdo).1
    refine ⟨⟨seated_act (by trivial) hx.1.1 hm, hK.sheltered hs hx.1.2⟩, ?_⟩
    -- The read succeeds, and there is a row.
    have hc : c.ok = true := hok.2 hx.2
    obtain ⟨sess, hsess⟩ := Option.isSome_iff_exists.mp (hst.inv.writer_row hx.1.1.writer)
    simp only [perform, StoreOp.perform, hc, if_true] at hm
    have hr : x.1.db.row = r := congrArg Prod.fst (Option.some.inj hm)
    exact ⟨sess, hr.symm.trans hsess, (kept_reads sess).sheltered hs (reads_of_row hsess)⟩
  refine hread.bind fun r => ?_
  cases r with
  | none =>
    refine .ret fun x _ hx => ?_
    obtain ⟨-, sess, h, -⟩ := hx
    cases h
  | some sess =>
    refine .ret fun x _ hx => ?_
    obtain ⟨hx, _, h, hreads⟩ := hx
    refine ⟨hx, fun hne hrecords => ?_⟩
    cases h
    have hsame : sess.sandboxClaimName = claimName := hreads.1.symm.trans hrecords
    simp [hsame] at hne

theorem endLaunch_tends (hK : Kept t K) (claimName : String) (reason : EndReason)
    (detail : String) :
    Tending cfg t (Seat ρ t fun x => K x ∧ (Records claimName x ∨ Records "" x))
      (endLaunch claimName reason detail) fun _ => Seat ρ t K := by
  have hfinish : Tending cfg t (Seat ρ t fun x => K x ∧ Cleared x) (do
      let old ← storedState .launching
      let _ ← endSession old reason detail) fun _ => Seat ρ t K := by
    refine ((hK.and kept_cleared).uses (uses_storedState _) rfl).bind fun old => ?_
    refine (tending_endSession hK old reason detail []).bind fun _ => ?_
    exact .ret fun _ _ hx => hx
  have hkept : Kept t fun x => K x ∧ (Records claimName x ∨ Records "" x) :=
    hK.and ⟨fun hs hx => hx.imp hs.claim.trans hs.claim.trans⟩
  unfold endLaunch
  dsimp only
  split
  · refine (tending_teardown hkept claimName).bind fun ok => ?_
    cases ok with
    | true =>
      refine hfinish.of_imp fun x _ hx => ⟨hx.1, hx.2.1.1, ?_⟩
      obtain h | h := hx.2.1.2
      · exact h.cleared hx.2.2
      · exact .inl h
    | false =>
      refine (tending_recordsClaim hkept claimName).bind fun recorded => ?_
      cases recorded with
      | true => exact .ret fun _ _ hx => ⟨hx.1.1, hx.1.2.1⟩
      | false =>
        refine hfinish.of_imp fun x _ hx => ⟨hx.1.1, hx.1.2.1, ?_⟩
        obtain h | h := hx.1.2.2
        · exact absurd h (hx.2 rfl)
        · exact .inl h
  · rename_i hnone
    refine hfinish.of_imp fun x _ hx => ⟨hx.1, hx.2.1, .inl ?_⟩
    obtain h | h := hx.2.2
    · rw [show x.1.claim = claimName from h]
      simpa using hnone
    · exact h

/-- What a launch that fails knows of the recorded claim: there is none, it is the one of the
launch, or the launch revives the session and got no workspace. -/
def Failing (sess : Row) (revive : Bool) (claimName : String) (x : Mem × Account) : Prop :=
  Records "" x ∨ Records claimName x ∨
    claimName = "" ∧ revive = true ∧ Records sess.sandboxClaimName x

theorem failLaunch_tends (hK : Kept t K) (sess : Row) (opts : LaunchOpts) (claimName : String)
    (reason : EndReason) (detail : String)
    (hfail : ∀ x, K x → Failing sess opts.revive claimName x) :
    Tending cfg t (Seat .holding t K) (failLaunch sess opts claimName reason detail)
      fun _ => Seat .holding t K := by
  have htake : Uses [.takeStop] (slot .takeStop) := .act _ rfl
  refine (hK.uses htake rfl).bind fun stop => ?_
  cases stop with
  | some spec =>
    refine (hK.uses (uses_failTurn opts _) rfl).bind fun _ => ?_
    refine (endLaunch_tends hK ..).of_imp fun x _ hx => ⟨hx.1, hx.2, ?_⟩
    obtain h | h | ⟨hnone, -, h⟩ := hfail x hx.2
    · exact .inr h
    · split
      · rename_i hnone
        right
        rw [← hnone]
        exact h
      · exact .inl h
    · rw [if_pos hnone]
      exact .inl h
  | none =>
    dsimp only
    split
    · exact hK.uses (uses_failRevive ..) rfl
    · rename_i hrevive
      refine (endLaunch_tends hK ..).of_imp fun x _ hx => ⟨hx.1, hx.2, ?_⟩
      obtain h | h | ⟨-, h, -⟩ := hfail x hx.2
      · exact .inr h
      · exact .inl h
      · exact absurd h hrevive

/-- A launch that fails still holds the session. -/
theorem failed_tends (hK : Kept t K) {opts : LaunchOpts} (reason : EndReason) (detail : String)
    (hfail : ∀ x, K x → Failing sess opts.revive claimName x) :
    Tending cfg t (Seat .holding t K)
      (failLaunch sess opts claimName reason detail >>= fun _ => pure false)
      fun r x => r = false → Holds t x.1 :=
  (failLaunch_tends hK sess opts claimName reason detail hfail).bind fun _ =>
    .ret fun _ _ hx _ => hx.1

/-! ## Launches -/

/-- The workspace of a launch is recorded. -/
def Housed (claimName : String) (x : Mem × Account) : Prop :=
  Records claimName x ∧ Readable true x

theorem kept_housed (claimName : String) : Kept t (Housed claimName) :=
  (kept_records claimName).and (kept_readable true)

theorem Housed.failing {x : Mem × Account} (h : Housed claimName x) :
    Failing sess revive claimName x :=
  .inr (.inl h.1)

/-- `write` of one update. -/
theorem tending_write (hK : Kept t K) {p : P Bool} {Q : Bool → Mem × Account → Prop}
    (hp : Tending cfg t (Seat ρ t K) p Q) (hno : ∀ x, Seat ρ t K x → Q false x) :
    Tending cfg t (Seat ρ t K) (write p) Q := by
  refine tending_read hK (.ret fun x _ hx => hno x hx) fun sess => ?_
  dsimp only
  split
  · exact .ret fun x _ hx => hno x ⟨hx.1, hx.2.1⟩
  · exact hp.of_imp fun _ _ hx => ⟨hx.1, hx.2.1⟩

/-- A claim is recorded that is the old one, or of the first workspace. -/
theorem tending_sandbox (hK : Kept t K) (claimName sandboxName : String) (status : SessionState)
    (hclaim : ∀ x, K x → Readable true x ∧ (Records claimName x ∨ Unbound x.1)) :
    Tending cfg t (Seat ρ t K) (store (.update (.sandbox claimName sandboxName status)))
      fun ok x => if ok then Seat ρ t (Housed claimName) x else Seat ρ t K x := by
  refine .perform hK.stable ?_ ?_
  · intro x _ _ hx
    obtain ⟨hreadable, hrecords⟩ := hclaim x hx.2
    exact ⟨hreadable, hrecords.imp Eq.symm id⟩
  · intro x c ok x' hinv hst hx _ hdo _
    have hm := (housed_perform hdo).1
    have hrole := seated_act (by trivial) hx.1 hm
    have hrising (h : Rising t x) : Rising t x' := rising_act hinv h hdo
    have htorn : x'.2.torn = x.2.torn := by rw [(housed_perform hdo).2]; rfl
    obtain ⟨m, g⟩ := x'
    obtain ⟨rfl, rfl⟩ | ⟨rfl, -, -, hreadable, -, hrecords⟩ := sandbox_cases hm
    · have hs : Sheltered t x (x.1, g) := by
        refine ⟨rfl, rfl, fun _ h => ?_, fun _ => rfl, rfl, rfl, id, hrising⟩
        rw [htorn]
        exact h
      exact ⟨hx.1, hK.sheltered hs hx.2⟩
    · have hrow := Option.isSome_iff_ne_none.mp (hst.inv.writer_row hx.1.writer)
      exact ⟨hrole, hrecords hrow, hreadable.trans (hclaim x hx.2).1⟩

theorem recordLink_tends (b : ℕ) (claimName sandboxName acpSessionId : String) (readySeq : ℕ) :
    Tending cfg t (Seat ρ t (Housed claimName))
      (recordLink b claimName sandboxName acpSessionId readySeq) fun _ _ => True := by
  have hhoused := kept_housed (t := t) claimName
  refine tending_write hhoused ?_ fun _ _ => trivial
  refine (tending_sandbox hhoused claimName sandboxName _ ?_).bind fun ok => ?_
  · exact fun x hx => ⟨hx.2, .inl hx.1⟩
  · split
    · have hlink : Uses [.link, .acp] (do
          if ← store (.update (.link b readySeq)) then
            store (.update (.acp acpSessionId .running))
          else pure false) := by
        refine Uses.bind (.act (.store (.update (.link ..))) rfl) fun ok => ?_
        split
        · exact .act (.store (.update (.acp ..))) rfl
        · exact .pure _
      exact tending_rest hlink rfl
    · exact tending_done

theorem runRegistered_tends (b : ℕ) (opts : LaunchOpts) (opening : Bool)
    (claimName sandboxName : String) (ready : String × ℕ) :
    Tending cfg t (Seat .activating t (Housed claimName))
      (runRegistered b opts opening claimName sandboxName ready) fun _ _ => True := by
  refine (recordLink_tends ..).bind fun linked => ?_
  have hready : Uses [.closeReady] (onBinding b .closeReady) := .act _ rfl
  have hrun : Tending cfg t (fun _ => True)
      (if linked then runLinked b opts opening else stopUnlinked b opts opening : P Unit)
      fun _ _ => True := by
    split
    · exact tending_rest (uses_runLinked ..) rfl
    · exact tending_rest (uses_stopUnlinked ..) rfl
  exact .spawn enduring_true.stable (fun _ _ _ _ _ _ => trivial)
    (hrun.bind fun _ => tending_rest hready rfl)

/-- An assertion about the row and the startup reconcile. -/
structure OfRow (t : ℕ) (K : Mem × Account → Prop) : Prop where
  same : ∀ {x x' : Mem × Account}, x'.1.claim = x.1.claim → x'.1.readable = x.1.readable →
    (Rising t x → Rising t x') → K x → K x'

theorem OfRow.kept (hK : OfRow t K) : Kept t K :=
  ⟨fun hs hx => hK.same hs.claim hs.readable hs.rising hx⟩

theorem ofRow_housed (claimName : String) : OfRow t (Housed claimName) :=
  ⟨fun hclaim hreadable _ hx => ⟨hclaim.trans hx.1, hreadable.trans hx.2⟩⟩

/-- The assertion, and the binding of the thread: its claim, and whether it is ready. -/
structure Attached (t : ℕ) (claimName : String) (ready : Bool) (K : Mem × Account → Prop)
    (x : Mem × Account) : Prop where
  rest : K x
  claim : (x.1.binds t).claimName = claimName
  ready : (x.1.binds t).ready = ready

theorem kept_attached (hK : Kept t K) (claimName : String) (ready : Bool) :
    Kept t (Attached t claimName ready K) :=
  ⟨fun hs hx => ⟨hK.sheltered hs hx.rest, hs.own.trans hx.claim, hs.ready.trans hx.ready⟩⟩

theorem tending_create (hK : OfRow t K) (claimName : String) (pod : ℕ) (syncing : Bool)
    (turns : List String) :
    Tending cfg t (Seat .holding t K) (onBinding t (.create claimName pod syncing turns))
      fun _ => Seat .holding t (Attached t claimName false K) := by
  refine .perform hK.kept.stable (fun _ _ _ _ => trivial) ?_
  intro x c r x' hinv hst hx _ hdo _
  have hm : _ = x'.1 := congrArg Prod.snd (Option.some.inj (housed_perform hdo).1)
  refine ⟨?_, hK.same (x := x) ?_ ?_ (fun h => rising_act hinv h hdo) hx.2, ?_, ?_⟩ <;> rw [← hm]
  · exact hst.inv.holds_setBind hx.1 _
  · rfl
  · rfl
  · simp [Mem.setBind]
  · simp [Mem.setBind]

theorem tending_closeReady (hK : OfRow t K) (claimName : String) (ready : Bool) :
    Tending cfg t (Seat .holding t (Attached t claimName ready K)) (onBinding t .closeReady)
      fun _ => Seat .holding t (Attached t claimName true K) := by
  refine .perform (kept_attached hK.kept claimName ready).stable (fun _ _ _ _ => trivial) ?_
  intro x c r x' hinv hst hx _ hdo _
  have hm : _ = x'.1 := congrArg Prod.snd (Option.some.inj (housed_perform hdo).1)
  refine ⟨?_, hK.same (x := x) ?_ ?_ (fun h => rising_act hinv h hdo) hx.2.rest, ?_, ?_⟩ <;>
    rw [← hm]
  · exact hst.inv.holds_setBind hx.1 _
  · rfl
  · rfl
  · simpa [Mem.setBind] using hx.2.claim
  · simp [Mem.setBind]

/-- A launch registers the recorded claim, and stays the writer until it is ready. -/
theorem tending_register (hK : OfRow t K) (ready : Bool)
    (hrecords : ∀ x, K x → Records claimName x) :
    Tending cfg t (Seat .holding t (Attached t claimName ready K)) (slot .register) fun r x =>
      if r then K x ∧ (ready = false → Activating t x.1)
      else Seat .holding t (Attached t claimName ready K) x := by
  refine .perform (kept_attached hK.kept claimName ready).stable ?_ ?_
  · exact fun x _ _ hx => hx.2.claim.trans (hrecords x hx.2.rest).symm
  · intro x c r x' hinv _ hx _ hdo _
    have hrising (h : Rising t x) : Rising t x' := rising_act hinv h hdo
    have hm := (housed_perform hdo).1
    obtain ⟨m, g⟩ := x'
    cases hm
    unfold Slot.register
    split
    · exact ⟨hx.1, hK.same (x := x) rfl rfl hrising hx.2.rest, hx.2.claim, hx.2.ready⟩
    · refine ⟨hK.same (x := x) rfl rfl hrising hx.2.rest, fun hready => ⟨by simp, ?_⟩⟩
      exact hx.2.ready.trans hready

theorem bindSession_tends (sess : Row) (opts : LaunchOpts) (claimName sandboxName : String)
    (ready : String × ℕ) :
    Tending cfg t (Seat .holding t (Housed claimName))
      (bindSession t sess opts claimName sandboxName ready)
      fun r x => r = false → Holds t x.1 := by
  have hhoused := ofRow_housed (t := t) claimName
  have hattached := kept_attached hhoused.kept claimName false
  refine (tending_create hhoused ..).bind fun _ => ?_
  refine (hattached.uses (uses_saveOpening ..) rfl).bind fun opening => ?_
  refine (tending_register hhoused false fun x hx => hx.1).bind fun ok => ?_
  cases ok with
  | true =>
    have hrun : Tending cfg t (Seat .activating t (Housed claimName))
        (runRegistered t opts opening claimName sandboxName ready) fun _ _ => True :=
      runRegistered_tends ..
    refine (hrun.of_imp fun x _ hx => ⟨hx.2 rfl, hx.1⟩).bind fun _ => ?_
    exact .ret fun _ _ _ h => nomatch h
  | false =>
    have hconsumed : Uses [.closeConsumed] (onBinding t .closeConsumed) := .act _ rfl
    have hclose : Uses [.closeSession] (onBinding t .closeSession) := .act _ rfl
    refine (hattached.uses hconsumed rfl).bind fun _ => ?_
    refine (hattached.uses hclose rfl).bind fun _ => ?_
    refine (failLaunch_tends hattached sess opts claimName _ _ fun x hx => hx.rest.failing).bind
      fun _ => ?_
    exact (tending_closeReady hhoused claimName false).bind fun _ => .ret fun _ _ hx _ => hx.1

theorem activateFailed_tends (sess : Row) (opts : LaunchOpts) (claimName : String)
    (err : ActivateError) :
    Tending cfg t (Seat .holding t (Housed claimName))
      (activateFailed sess opts claimName err >>= fun _ => pure false)
      fun r x => r = false → Holds t x.1 := by
  have hhoused := kept_housed (t := t) claimName
  have houtcome : Uses [.outcome] (ext .outcome) := .act _ rfl
  have hstopped : Uses [.stopped] (slot .stopped) := .act _ rfl
  have hfail : Tending cfg t (Seat .holding t (Housed claimName)) (do
      let failure := activateFailure err (← ext .outcome)
      failLaunch sess opts claimName failure.1 failure.2)
      fun _ => Seat .holding t (Housed claimName) :=
    (hhoused.uses houtcome rfl).bind fun outcome =>
      failLaunch_tends hhoused sess opts claimName _ _ fun x hx => hx.failing
  have hfailed : Tending cfg t (Seat .holding t (Housed claimName))
      (activateFailed sess opts claimName err) fun _ => Seat .holding t (Housed claimName) := by
    unfold activateFailed
    dsimp only
    split
    · refine (hhoused.uses hstopped rfl).bind fun stopped => ?_
      split
      · exact hfail
      · exact hhoused.uses (uses_failRevive ..) rfl
    · exact hfail
  exact hfailed.bind fun _ => .ret fun _ _ hx _ => hx.1

theorem tending_self (hK : Kept t K) : Tending cfg t (Seat ρ t K) (ext .self) fun b x =>
    b = t ∧ Seat ρ t K x := by
  refine .perform hK.stable (fun _ _ _ _ => trivial) ?_
  intro x c r x' _ hst hx hok hdo _
  have hm := (housed_perform hdo).1
  refine ⟨(congrArg Prod.fst (Option.some.inj hm)).symm, seated_act (by trivial) hx.1 hm, ?_⟩
  exact hK.sheltered (sheltered_of_outside (by trivial) hst hok.1 hdo) hx.2

theorem activateAndRun_tends (sess : Row) (opts : LaunchOpts) (claimName sandboxName : String) :
    Tending cfg t (Seat .holding t (Housed claimName))
      (activateAndRun sess opts claimName sandboxName) fun r x => r = false → Holds t x.1 := by
  have hhoused := kept_housed (t := t) claimName
  have hspawn : Uses [.spawnAgent] (ext .spawnAgent) := .act _ rfl
  have hready : Uses [.awaitReady] (ext .awaitReady) := .act _ rfl
  refine (tending_self hhoused).bind fun b => .of_fact ?_
  rintro rfl
  refine (hhoused.uses hspawn rfl).bind fun ok => ?_
  split
  · refine (hhoused.uses hready rfl).bind fun r => ?_
    split
    · exact bindSession_tends ..
    · exact activateFailed_tends ..
  · exact activateFailed_tends ..

theorem launchRun_tends (sess : Row) (opts : LaunchOpts) (claimName sandboxName : String) :
    Tending cfg t (Seat .holding t (Housed claimName)) (launchRun sess opts claimName sandboxName)
      fun r x => r = false → Holds t x.1 := by
  have hhoused := kept_housed (t := t) claimName
  have hcreate : Uses [.createRun] (ext (.createRun opts.approvalPrompt
      (expectedSubject sess opts.revive) sess.templateSpec.mcpServers)) := .act _ rfl
  have hfailed (reason : EndReason) (detail : String) :
      Tending cfg t (Seat .holding t (Housed claimName))
        (failLaunch sess opts claimName reason detail >>= fun _ => pure false)
        fun r x => r = false → Holds t x.1 :=
    failed_tends hhoused reason detail fun x hx => hx.failing
  refine (hhoused.uses hcreate rfl).bind fun r => ?_
  split
  · exact hfailed ..
  · rename_i res
    have hexpect : Uses [.expect] (ext .expect) := .act _ rfl
    have hwrite : Uses [.read, .run] (write (store (.update (.run res.runId)))) :=
      uses_write rfl (.act (.store (.update (.run _))) rfl)
    refine (hhoused.uses hexpect rfl).bind fun ok => ?_
    split
    · refine (hhoused.uses hwrite rfl).bind fun ok => ?_
      split
      · refine (hhoused.uses (uses_emit _ (.stateChanged ..)) rfl).bind fun _ => ?_
        refine (hhoused.uses (uses_emit _ (.approvalRequired ..)) rfl).bind fun _ => ?_
        exact activateAndRun_tends ..
      · exact hfailed ..
    · exact hfailed ..

/-- What a launch knows when it brings a workspace up: it revives the one that it read, or the
session has none and was never bound. -/
def BringsUp (sess : Row) (revive : Bool) (x : Mem × Account) : Prop :=
  if revive then Records sess.sandboxClaimName x else Records "" x ∧ Unbound x.1

theorem kept_bringsUp (sess : Row) (revive : Bool) : Kept t (BringsUp sess revive) where
  sheltered hs hx := by
    cases revive with
    | true => exact hs.claim.trans hx
    | false => exact ⟨hs.claim.trans hx.1, fun b => (hs.live b).trans (hx.2 b)⟩

theorem BringsUp.failing {x : Mem × Account} (h : BringsUp sess revive x) :
    Failing sess revive "" x := by
  cases revive with
  | true => exact .inr (.inr ⟨rfl, rfl, h⟩)
  | false => exact .inl h.1

theorem workspace_tends (sess : Row) (opts : LaunchOpts) :
    Tending cfg t (Seat .holding t fun x => BringsUp sess opts.revive x ∧ Readable true x)
      (workspace sess opts) fun r x =>
        Seat .holding t (fun x => BringsUp sess opts.revive x ∧ Readable true x) x ∧
          ∀ w, r = some w → opts.revive = true → w.1 = sess.sandboxClaimName := by
  have hkept := (kept_bringsUp (t := t) sess opts.revive).and (kept_readable true)
  unfold workspace
  split
  · rename_i hrevive
    have hrev :
        Tending cfg t (Seat .holding t fun x => BringsUp sess opts.revive x ∧ Readable true x)
        (ext (.revive sess.sandboxClaimName)) fun _ =>
          Seat .holding t fun x => BringsUp sess opts.revive x ∧ Readable true x := by
      refine .perform hkept.stable (fun x _ _ hx => .inl hx.1) ?_
      intro x c r x' _ _ hx _ hdo _
      have hm := (housed_perform hdo).1
      obtain ⟨m, g⟩ := x'
      cases hm
      exact hx
    refine hrev.bind fun r => ?_
    cases r with
    | none => exact .ret fun _ _ hx => ⟨hx, nofun⟩
    | some sandboxName =>
      refine .ret fun _ _ hx => ⟨hx, ?_⟩
      rintro _ ⟨⟩ -
      rfl
  · rename_i hrevive
    refine .perform hkept.stable (fun x _ _ hx => .inl hx.1) ?_
    intro x c r x' _ _ hx _ hdo _
    have hm := (housed_perform hdo).1
    obtain ⟨m, g⟩ := x'
    cases hm
    exact ⟨hx, fun _ _ h => absurd h hrevive⟩

/-- The claim of a workspace that was brought up may be recorded. -/
theorem BringsUp.recordable {x : Mem × Account} (h : BringsUp sess revive x)
    (hname : revive = true → claimName = sess.sandboxClaimName) :
    Records claimName x ∨ Unbound x.1 := by
  cases revive with
  | true =>
    rw [hname rfl]
    exact .inl h
  | false => exact .inr h.2

/-- If the claim could not be recorded, the launch fails with it. -/
theorem BringsUp.failing_with {x : Mem × Account} (h : BringsUp sess revive x)
    (hname : revive = true → claimName = sess.sandboxClaimName) :
    Failing sess revive claimName x := by
  cases revive with
  | true =>
    rw [hname rfl]
    exact .inr (.inl h)
  | false => exact .inl h.1

theorem launchSession_tends (sess : Row) (opts : LaunchOpts) :
    Tending cfg t (Seat .holding t fun x =>
        BringsUp sess opts.revive x ∧ Readable (storedTemplate sess) x)
      (launchSession sess opts) fun r x => r = false → Holds t x.1 := by
  have hbrings := kept_bringsUp (t := t) sess opts.revive
  unfold launchSession
  split
  · rename_i hstored
    rw [hstored]
    have hkept := hbrings.and (kept_readable true)
    refine (hkept.uses (uses_beginLaunch ..) rfl).bind fun ok => ?_
    split
    · refine (workspace_tends sess opts).bind fun r => ?_
      cases r with
      | none =>
        refine (failed_tends hkept _ _ fun x hx => hx.1.failing).of_imp ?_
        exact fun _ _ hx => hx.1
      | some w =>
        obtain ⟨claimName, sandboxName⟩ := w
        refine .of_imp (.of_fact fun hname => ?_) fun x _ hx => ⟨hx.2 _ rfl, hx.1⟩
        have hrecord : ∀ x, BringsUp sess opts.revive x ∧ Readable true x →
            Readable true x ∧ (Records claimName x ∨ Unbound x.1) :=
          fun x hx => ⟨hx.2, hx.1.recordable hname⟩
        refine (tending_write hkept (tending_sandbox hkept claimName sandboxName _ hrecord)
          fun x hx => hx).bind fun ok => ?_
        cases ok with
        | true => exact launchRun_tends ..
        | false => exact failed_tends hkept _ _ fun x hx => hx.1.failing_with hname
    · exact failed_tends hkept _ _ fun x hx => hx.1.failing
  · -- a template that cannot be read never got a workspace
    rename_i hstored
    refine .bind (Q := fun _ => Seat .holding t fun _ => True) ?_ fun _ => .ret fun _ _ hx _ => hx.1
    refine (tending_endSession kept_true ..).of_imp fun x hinv hx => ⟨hx.1, trivial, .inl ?_⟩
    by_contra hne
    have hreadable := hinv.readable hne
    rw [show x.1.readable = storedTemplate sess from hx.2.2] at hreadable
    exact hstored hreadable

/-- A launch starts: of a session without a workspace, or to revive one. -/
def Launches (revive : Bool) (x : Mem × Account) : Prop :=
  revive = false → Records "" x ∧ Unbound x.1

theorem kept_launches (revive : Bool) : Kept t (Launches revive) where
  sheltered hs hx h := ⟨hs.claim.trans (hx h).1, fun b => (hs.live b).trans ((hx h).2 b)⟩

theorem Launches.bringsUp {x : Mem × Account} (h : Launches revive x) (hreads : Reads sess x) :
    BringsUp sess revive x := by
  cases revive with
  | true => exact hreads.1
  | false => exact h rfl

theorem launchBody_tends (opts : LaunchOpts) :
    Tending cfg t (Seat .holding t (Launches opts.revive)) (launchBody opts)
      fun r x => r = false → Holds t x.1 := by
  have hlaunches := kept_launches (t := t) opts.revive
  refine tending_read hlaunches ?_ fun sess => ?_
  · refine (hlaunches.uses (uses_failTurn opts _) rfl).bind fun _ => ?_
    exact .ret fun _ _ hx _ => hx.1
  · have hkept :=
      (kept_bringsUp (t := t) sess opts.revive).and (kept_readable (storedTemplate sess))
    have hstopped : Uses [.stopped] (slot .stopped) := .act _ rfl
    have hasked : Tending cfg t
        (Seat .holding t fun x => BringsUp sess opts.revive x ∧ Readable (storedTemplate sess) x)
        (slot .stopped) fun _ =>
          Seat .holding t fun x => BringsUp sess opts.revive x ∧ Readable (storedTemplate sess) x :=
      hkept.uses hstopped rfl
    refine (hasked.of_imp fun x _ hx => ⟨hx.1, hx.2.1.bringsUp hx.2.2, hx.2.2.2⟩).bind
      fun stopped => ?_
    split
    · exact failed_tends hkept _ _ fun x hx => hx.1.failing
    · split
      · refine (hkept.uses uses_nextTurn rfl).bind fun r => ?_
        split
        · exact failed_tends hkept _ _ fun x hx => hx.1.failing
        · rename_i turnId turnSeq
          have hnote : Uses [.accepted] (note (.accepted turnId)) := .act _ rfl
          refine (hkept.uses hnote rfl).bind fun _ => ?_
          exact launchSession_tends sess { opts with turnId, turnSeq }
      · exact launchSession_tends sess opts

theorem launch_tends (opts : LaunchOpts) :
    Tending cfg t (Seat .holding t (Launches opts.revive)) (launch opts) fun _ _ => True := by
  refine (launchBody_tends opts).bind fun r => ?_
  cases r with
  | true =>
    have hself : Uses [.self] (ext .self) := .act _ rfl
    refine .bind (tending_rest hself rfl) fun b => ?_
    exact .spawn enduring_true.stable (fun _ _ _ _ _ _ => trivial) tending_done
  | false =>
    have hsettle : Tending cfg t (Settles t .nothing) (.jump (.settle .nothing))
        fun (_ : Unit) _ => True := tending_settle .nothing
    exact hsettle.of_imp fun x _ hx => ⟨hx rfl, nofun⟩

/-! ## The calls that launch -/

/-- The thread inserted the row. -/
def Inserted (t : ℕ) (x : Mem × Account) : Prop :=
  x.1.creator = some t ∧ Up x ∧ Launches false x

theorem tending_claim (cancel : Bool) :
    Tending cfg t Up (slot (.claim cancel)) fun r x => r = true → Holds t x.1 := by
  refine .perform enduring_up.stable (fun _ _ _ hx => .inl hx) ?_
  intro x c r x' _ hst _ hok hdo _ hr
  have hm := (housed_perform hdo).1
  obtain ⟨m, g⟩ := x'
  cases hm
  exact claim_holds hst.inv hst.protocol hok.1 (claim_true hr) rfl

theorem tending_claim_inserted : Tending cfg t (Inserted t) (slot (.claim true))
    fun _ => Seat .holding t (Launches false) := by
  refine .perform ?_ (fun _ _ _ hx => .inl hx.2.1) ?_
  · intro x x' hinv _ ho hx
    have hl := other_leaves hinv ho
    refine ⟨hl.keeps.creator hx.1, hl.up hx.2.1, ?_⟩
    exact (kept_launches false).sheltered (hl.sheltered (.inr hx.1)) hx.2.2
  · intro x c r x' _ hst hx hok hdo _
    have hs : Sheltered t x x' := sheltered_of_outside (by trivial) hst hok.1 hdo
    have hentry := (hst.inv.created (by rw [hx.1]; exact Option.some_ne_none t)).1
    have hm := (housed_perform hdo).1
    obtain ⟨m, g⟩ := x'
    refine ⟨?_, (kept_launches false).sheltered hs hx.2.2⟩
    cases hm
    exact claim_holds hst.inv hst.protocol hok.1 hentry rfl

theorem createSession_tends (templateSpec : TemplateSpec) (approvalPrompt initialPrompt : String) :
    Tending cfg t Up (createSession templateSpec approvalPrompt initialPrompt)
      fun _ _ => True := by
  have hinsert : Tending cfg t Up (store (.createSession templateSpec))
      fun r x => r = true → Inserted t x := by
    refine .perform enduring_up.stable (fun _ _ _ _ => trivial) ?_
    intro x c r x' hinv _ hx _ hdo _ hr
    have hm := (housed_perform hdo).1
    obtain ⟨h, -⟩ | ⟨-, hnone, hclaim, hslot, -, hcreator⟩ := createSession_cases hm
    · rw [h] at hr
      cases hr
    · refine ⟨hcreator, up_act hx hm, fun _ => ⟨hclaim, fun b => ?_⟩⟩
      rw [hslot]
      exact hinv.unborn hnone b
  refine hinsert.bind fun r => ?_
  split
  · rename_i hr
    refine .bind (tending_claim_inserted.of_imp fun x _ hx => hx hr) fun _ => ?_
    refine ((kept_launches false).uses (uses_emit _ (.stateChanged ..)) rfl).bind fun _ => ?_
    exact launch_tends { approvalPrompt, agentPrompt := initialPrompt }
  · exact tending_done

theorem promptSuspended_tends (content : String) :
    Tending cfg t Up (promptSuspended content) fun _ _ => True := by
  have hsettle : Tending cfg t (Seat .holding t fun _ => True) (.jump (.settle .nothing))
      fun (_ : Unit) _ => True :=
    (tending_settle .nothing).of_imp fun x _ hx => ⟨hx.1, nofun⟩
  refine (tending_claim true).bind fun r => ?_
  split
  · rename_i hr
    have hread : Tending cfg t (Seat .holding t fun _ => True) getSession
        fun _ => Seat .holding t fun _ => True :=
      kept_true.uses uses_getSession rfl
    refine (hread.of_imp fun x _ hx => ⟨hx hr, trivial⟩).bind fun r => ?_
    split
    · exact hsettle
    · split
      · exact hsettle
      · refine (kept_true.uses uses_nextTurn rfl).bind fun r => ?_
        split
        · exact hsettle
        · rename_i turnId turnSeq
          have hnote : Uses [.accepted] (note (.accepted turnId)) := .act _ rfl
          refine (kept_true.uses hnote rfl).bind fun _ => ?_
          refine (launch_tends { revive := true, approvalPrompt := content ++ continuationClause,
                                 agentPrompt := content, turnId, turnSeq }).of_imp ?_
          exact fun x _ hx => ⟨hx.1, nofun⟩
  · exact tending_done

theorem prompt_tends (content : String) :
    Tending cfg t Up (prompt content) fun _ _ => True := by
  refine (enduring_up.uses uses_getSession rfl).bind fun r => ?_
  split
  · exact tending_done
  · split
    · have hlookup : Uses [.lookup] (slot .lookup) := .act _ rfl
      refine (enduring_up.uses hlookup rfl).bind fun r => ?_
      split
      · exact tending_done
      · exact tending_rest (uses_promptRunning ..) rfl
    · split
      · exact promptSuspended_tends content
      · exact tending_done

/-! ## Ends, watchers and sweeps -/

theorem callEndSession_tends (reason : EndReason) :
    Tending cfg t Up (callEndSession cfg reason) fun _ _ => True := by
  have hnote : Uses [.endOk] (note .endOk) := .act _ rfl
  refine (enduring_up.uses uses_getSession rfl).bind fun r => ?_
  split
  · exact tending_done
  · split
    · exact tending_rest hnote rfl
    · refine .bind ((stopOwned_tends none _ true).of_imp fun x _ hx _ => hx) fun r => ?_
      split
      · exact tending_rest hnote rfl
      · rename_i o
        have hanswer : Uses [.await, .read, .endOk] (do slot (.await o); answerIfEnded) := by
          refine Uses.bind (.act (.slot (.await o)) rfl) fun _ => ?_
          refine (uses_getSession.mono rfl).bind fun r => ?_
          split
          · exact .pure _
          · exact .when (.act (.note .endOk) rfl)
        exact tending_rest hanswer rfl

theorem watchRun_tends (b : ℕ) : Tending cfg t (fun _ => True) (watchRun cfg b)
    fun _ _ => True := by
  have hdone : Uses [.isDone] (onBinding b .isDone) := .act _ rfl
  have hget : Uses [.getRun] (ext .getRun) := .act _ rfl
  have hstop (spec : StopSpec) : Tending cfg t (fun _ => True) (stop cfg (some b) spec)
      fun _ _ => True :=
    (stop_tends (some b) spec).of_imp fun _ _ _ => nofun
  refine (enduring_true.uses hdone rfl).bind fun r => ?_
  split
  · exact tending_done
  · refine (enduring_true.uses hget rfl).bind fun r => ?_
    split
    · exact hstop _
    · split
      · exact hstop _
      · split
        · exact hstop _
        · exact .jump enduring_true.stable fun _ _ _ => trivial

theorem sweepIdle_tends : Tending cfg t (fun _ => True) (sweepIdle cfg) fun _ _ => True := by
  unfold sweepIdle
  split
  · exact tending_done
  · have hlookup : Uses [.lookup] (slot .lookup) := .act _ rfl
    refine (enduring_true.uses hlookup rfl).bind fun r => ?_
    split
    · exact tending_done
    · rename_i b
      have hidle : Uses [.idle] (onBinding b .idleFor) := .act _ rfl
      refine (enduring_true.uses hidle rfl).bind fun idle => ?_
      split
      · exact (stop_tends (some b) _).of_imp fun _ _ _ => nofun
      · split
        · have hwarn : Uses [.warn, .event] (do
              if ← onBinding b (.warn (cfg.sessionIdleTTL - cfg.idleWarnLead)) then
                emit "" (.idleWarning cfg.idleWarnLead)
              else pure ()) := by
            refine Uses.bind (.act (.bind b (.warn _)) rfl) fun ok => ?_
            split
            · exact (uses_emit _ (.idleWarning _)).mono rfl
            · exact .pure _
          exact tending_rest hwarn rfl
        · exact tending_done

theorem sweepAbsolute_tends : Tending cfg t Up (sweepAbsolute cfg) fun _ _ => True := by
  unfold sweepAbsolute
  split
  · exact tending_done
  · refine (enduring_up.uses uses_getSession rfl).bind fun r => ?_
    split
    · exact tending_done
    · have hnow : Uses [.now] (ext .now) := .act _ rfl
      refine (enduring_up.uses hnow rfl).bind fun now => ?_
      split
      · exact tending_done
      · exact (stop_tends none _).of_imp fun x _ hx _ => hx

theorem releaseClaimed_tends :
    Tending cfg t (Seat .holding t fun _ => True) (releaseClaimed cfg)
      fun _ => Seat .holding t fun _ => True := by
  have hend : Tending cfg t (Seat .holding t fun x => True ∧ Cleared x) (releaseEnd cfg)
      fun _ => Seat .holding t fun _ => True :=
    (tending_endSession kept_true ..).bind fun _ => .ret fun _ _ hx => hx
  refine tending_read kept_true (.ret fun _ _ hx => hx) fun sess => ?_
  have hnow : Uses [.now] (ext .now) := .act _ rfl
  refine ((kept_true.and (kept_reads sess)).uses hnow rfl).bind fun now => ?_
  split
  · exact .ret fun _ _ hx => ⟨hx.1, trivial⟩
  · exact tearDownRead_tends kept_true sess hend (.ret fun _ _ hx => hx)

theorem sweepSuspended_tends : Tending cfg t Up (sweepSuspended cfg) fun _ _ => True := by
  unfold sweepSuspended
  split
  · exact tending_done
  · refine (enduring_up.uses uses_getSession rfl).bind fun r => ?_
    split
    · exact tending_done
    · have hnow : Uses [.now] (ext .now) := .act _ rfl
      refine (enduring_up.uses hnow rfl).bind fun now => ?_
      split
      · refine (tending_claim false).bind fun r => ?_
        split
        · rename_i hr
          refine (releaseClaimed_tends.of_imp fun x _ hx => ⟨hx hr, trivial⟩).bind fun _ => ?_
          exact (tending_settle .nothing).of_imp fun x _ hx => ⟨hx.1, nofun⟩
        · exact tending_done
      · exact tending_done

/-! ## The startup reconcile -/

/-- The startup reconcile runs, and nobody holds the session. -/
structure Window (t : ℕ) (x : Mem × Account) : Prop where
  rising : Rising t x
  boot : x.1.boot = .reconciling
  entry : x.1.slot.entry = none

theorem Window.not_up {x : Mem × Account} (h : Window t x) : ¬ Up x := by
  rw [Up, h.boot]
  intro hup
  cases hup

/-- The others wait until the reconcile is done. -/
theorem window_stable : (workspaces cfg).Stable t (Window t) := by
  intro x x' hinv _ ho hx
  have hl := other_leaves hinv ho
  cases ho with
  | act u op c r hne hst hpre hok hdo =>
    have hm := (housed_perform hdo).1
    have hrising : ¬ Rising u x := by
      intro h
      rw [Rising, show x.2.reconciler = some t from hx.rising] at h
      exact hne (Option.some.inj h).symm
    refine ⟨hl.rising hx.rising, ?_, entry_stays hpre hx.not_up hrising hx.entry hm⟩
    refine (perform_boot ⟨?_, ?_⟩ hm).trans hx.boot
    · rintro rfl
      have hdown := reconciling_down hm
      rw [hx.boot] at hdown
      cases hdown
    · rintro rfl
      exact hrising hpre
  | env l _ hdo =>
    obtain ⟨m, g⟩ := x'
    obtain ⟨hm, hg⟩ := System.observe_env hdo
    obtain ⟨now, pods, rfl⟩ := env_eq hm
    subst hg
    exact ⟨hx.rising, hx.boot, hx.entry⟩
  | start u e v _ _ _ hsame => exact hsame ▸ hx

/-- What was read in the window stays. -/
theorem window_reads_stable (sess : Row) :
    (workspaces cfg).Stable t fun x => Window t x ∧ x.1.db.row ≠ none ∧ Reads sess x := by
  intro x x' hinv hinv' ho hx
  have hwindow : Window t x' := window_stable x x' hinv hinv' ho hx.1
  obtain ⟨hx, hrow, hreads⟩ := hx
  have hl := other_leaves hinv ho
  have hrow' : x'.1.db.row ≠ none :=
    Option.isSome_iff_ne_none.mp (hl.keeps.row (Option.isSome_iff_ne_none.mpr hrow))
  refine ⟨hwindow, hrow', ?_⟩
  cases ho with
  | act u op c r hne hst hpre hok hdo =>
    have honly (v : ℕ) (hv : Writer v x.1) : v = t := absurd hx.entry (hst.inv.writer_entry hv)
    exact (kept_reads sess).sheltered
      (act_sheltered hinv honly hrow hne hst hpre hok.1 hdo) hreads
  | env l _ hdo =>
    obtain ⟨m, g⟩ := x'
    obtain ⟨hm, hg⟩ := System.observe_env hdo
    obtain ⟨now, pods, rfl⟩ := env_eq hm
    subst hg
    exact hreads
  | start u e v _ _ _ hsame => exact hsame ▸ hreads

theorem tending_reconciling :
    Tending cfg t (fun _ => True) (note .reconciling) fun _ => Window t := by
  refine .perform enduring_true.stable (fun _ _ _ _ => trivial) ?_
  intro x c r x' hinv _ _ _ hdo _
  obtain ⟨hm, hg⟩ := housed_perform hdo
  have hdown := reconciling_down hm
  simp only [perform, NoteOp.perform, hdown] at hm
  obtain ⟨m, g⟩ := x'
  cases hm
  exact ⟨by rw [Rising, hg]; rfl, rfl, hinv.down hdown⟩

theorem tending_read_window : Tending cfg t (Window t) getSession fun r x =>
    Rising t x ∧ ∀ sess, r = some sess → Window t x ∧ x.1.db.row ≠ none ∧ Reads sess x := by
  refine .perform window_stable (fun _ _ _ _ => trivial) ?_
  intro x c r x' hinv hst hx hok hdo _
  have hm := (housed_perform hdo).1
  have hs : Sheltered t x x' := sheltered_of_outside (by trivial) hst hok.1 hdo
  refine ⟨hs.rising hx.rising, ?_⟩
  rintro sess rfl
  have hrow := row_of_getSession hm
  refine ⟨⟨hs.rising hx.rising, ?_, ?_⟩, ?_, (kept_reads sess).sheltered hs (reads_of_row hrow)⟩
  · have hread : Op.store .getSession ≠ .note .reconciling ∧ Op.store .getSession ≠ .note .up :=
      ⟨nofun, nofun⟩
    exact (perform_boot hread hm).trans hx.boot
  · rw [perform_slot (by trivial) hm, hx.entry]
  · intro hnone
    rw [outside_row (by trivial) hm hnone] at hrow
    cases hrow

/-- What the reconcile knows of a session that it holds. -/
def Reclaimed (t : ℕ) (sess : Row) (x : Mem × Account) : Prop := Rising t x ∧ Reads sess x

theorem ofRow_reclaimed (sess : Row) : OfRow t (Reclaimed t sess) :=
  ⟨fun hclaim hreadable hrising hx =>
    ⟨hrising hx.1, hclaim.trans hx.2.1, hreadable.trans hx.2.2⟩⟩

theorem tending_claim_window (sess : Row) :
    Tending cfg t (fun x => Window t x ∧ x.1.db.row ≠ none ∧ Reads sess x) (slot (.claim false))
      fun r x => if r then Seat .holding t (Reclaimed t sess) x else Rising t x := by
  refine .perform (window_reads_stable sess) (fun _ _ _ hx => .inr hx.1.rising) ?_
  intro x c r x' _ hst hx hok hdo _
  have hs : Sheltered t x x' := sheltered_of_outside (by trivial) hst hok.1 hdo
  have hm := (housed_perform hdo).1
  have hreclaimed : Reclaimed t sess x' :=
    ⟨hs.rising hx.1.rising, (kept_reads sess).sheltered hs hx.2.2⟩
  cases r with
  | false => exact hreclaimed.1
  | true =>
    have hm' : x'.1 = _ := (congrArg Prod.snd (Option.some.inj hm)).symm
    exact ⟨claim_holds hst.inv hst.protocol hok.1 hx.1.entry hm', hreclaimed⟩

theorem adoptPod_tends (sess : Row) (pod : ℕ) (turns : List String) :
    Tending cfg t (Seat .holding t (Reclaimed t sess)) (adoptPod sess pod turns) fun r x =>
      if r then Rising t x else Seat .holding t (Reclaimed t sess) x := by
  have hrow := ofRow_reclaimed (t := t) sess
  refine (tending_self hrow.kept).bind fun b => .of_fact ?_
  rintro rfl
  refine (tending_create hrow ..).bind fun _ => ?_
  refine (tending_closeReady hrow _ false).bind fun _ => ?_
  refine (tending_register hrow true fun x hx => hx.2.1).bind fun ok => ?_
  cases ok with
  | true =>
    refine .of_imp ?_ fun x _ hx => hx.1.1
    refine .spawn enduring_rising.stable (fun _ _ _ _ _ _ => trivial) ?_
    exact .spawn enduring_rising.stable (fun _ _ _ _ _ _ => trivial) (.ret fun _ _ hx => hx)
  | false =>
    have hattached := kept_attached hrow.kept sess.sandboxClaimName true
    have hconsumed : Uses [.closeConsumed] (onBinding b .closeConsumed) := .act _ rfl
    have hclose : Uses [.closeSession] (onBinding b .closeSession) := .act _ rfl
    refine (hattached.uses hconsumed rfl).bind fun _ => ?_
    refine (hattached.uses hclose rfl).bind fun _ => ?_
    exact .ret fun _ _ hx => ⟨hx.1, hx.2.rest⟩

theorem adopt_tends (sess : Row) :
    Tending cfg t (Seat .holding t (Reclaimed t sess)) (adopt sess) fun r x =>
      if r then Rising t x else Seat .holding t (Reclaimed t sess) x := by
  have hkept := (ofRow_reclaimed (t := t) sess).kept
  unfold adopt
  split
  · exact .ret fun _ _ hx => hx
  · rename_i pod _
    split
    · exact .ret fun _ _ hx => hx
    · have hlist : Uses [.listCommands] (store .listCommands) := .act _ rfl
      have hadopt : Uses [.adopt] (ext (.adopt pod sess.podSeq)) := .act _ rfl
      refine (hkept.uses hlist rfl).bind fun r => ?_
      split
      · exact .ret fun _ _ hx => hx
      · refine (hkept.uses hadopt rfl).bind fun ok => ?_
        split
        · exact adoptPod_tends ..
        · exact .ret fun _ _ hx => hx

theorem tending_up {A : Mem × Account → Prop} (hA : ∀ x, A x → Rising t x) :
    Tending cfg t A (note .up) fun _ _ => True :=
  .of_imp (.perform enduring_rising.stable (fun _ _ _ hx => hx) fun _ _ _ _ _ _ _ _ _ _ => trivial)
    fun x _ hx => hA x hx

theorem reconcileClaimed_tends (sess : Row) :
    Tending cfg t (Seat .holding t (Reclaimed t sess)) (reconcileClaimed sess)
      fun _ _ => True := by
  have hadopt : Tending cfg t (Seat .holding t (Reclaimed t sess))
      (if sess.status = .running then adopt sess else pure false : P Bool) fun r x =>
        if r then Rising t x else Seat .holding t (Reclaimed t sess) x := by
    split
    · exact adopt_tends sess
    · exact .ret fun _ _ hx => hx
  have hrising : Kept t (Rising t) := ⟨fun hs hx => hs.rising hx⟩
  have hend : Tending cfg t (Seat .holding t fun x => Rising t x ∧ Cleared x)
      (endSession sess.status .interrupted "the harness restarted while this session was live")
      fun _ => Seat .holding t (Rising t) :=
    tending_endSession hrising ..
  refine hadopt.bind fun adopted => ?_
  cases adopted with
  | true => exact tending_up fun _ hx => hx
  | false =>
    have hinterrupt : Tending cfg t (Seat .holding t (Reclaimed t sess)) (interrupt sess)
        fun _ => Seat .holding t (Rising t) :=
      tearDownRead_tends hrising sess hend (.ret fun _ _ hx => hx)
    refine hinterrupt.bind fun _ => ?_
    exact (tending_settle .up).of_imp fun x _ hx => ⟨hx.1, fun _ => hx.2⟩

theorem reconcile_tends : Tending cfg t (fun _ => True) reconcile fun _ _ => True := by
  refine tending_reconciling.bind fun _ => tending_read_window.bind fun r => ?_
  cases r with
  | none => exact tending_up fun _ hx => hx.1
  | some sess =>
    dsimp only
    split
    · exact tending_up fun _ hx => hx.1
    · refine ((tending_claim_window sess).of_imp fun x _ hx => hx.2 sess rfl).bind fun r => ?_
      cases r with
      | true => exact reconcileClaimed_tends sess
      | false => exact tending_up fun _ hx => hx

/-! ## Every run -/

theorem code_tends (e : Entry) :
    Tending cfg t (workspaceEntry t e) (code cfg e) fun _ _ => True := by
  cases e with
  | createSession templateSpec approvalPrompt initialPrompt => exact createSession_tends ..
  | prompt content => exact prompt_tends content
  | endSession reason => exact callEndSession_tends reason
  | respondPermission requestId optionId => exact tending_rest (uses_respondPermission ..) rfl
  | expirePermission b requestId => exact tending_rest (uses_expirePermission ..) rfl
  | supervise o cause => exact (stop_tends (some o) _).of_imp fun _ _ _ => nofun
  | stop o spec => exact (stop_tends (some o) spec).of_imp fun _ _ _ => nofun
  | settle after => exact settle_tends after
  | consume b => exact tending_rest (uses_consume cfg b) rfl
  | watchRun b => exact watchRun_tends b
  | reportStall waited => exact tending_rest (uses_emit _ (.launchStalled waited)) rfl
  | sweepIdle => exact sweepIdle_tends
  | sweepSuspended => exact sweepSuspended_tends
  | sweepAbsolute => exact sweepAbsolute_tends
  | reconcile => exact reconcile_tends

theorem workspaces_lawful : (workspaces cfg).Lawful where
  inv_act h hst hpre hok hdo := h.act hst hpre hok.1 hdo
  inv_env h _ hdo := h.env hdo
  inv_crash h _ := h.crash
  fresh_other _ _ _ := trivial
  fresh_crash _ _ _ := trivial
  entry_start {t e x} _ _ _ hopen := by
    have hopen : opens x.1 e = true := hopen
    cases e with
    | settle after => cases hopen
    | createSession | prompt | endSession | sweepSuspended | sweepAbsolute =>
      show x.1.boot = .up
      simpa [opens] using hopen
    | _ => trivial
  entry_safe hinv h := (code_tends _).safe hinv h

/-- The steps of a run in which the read after a `Teardown` that failed succeeds. -/
def checkedStep (s : Config sig (Mem × Account)) : ThreadLabel sig Choice EnvStep → Prop
  | .run t c => ∀ op ∈ System.pending s t, checked t op s.mem.2 c
  | _ => True

theorem workspaces_good {s : Config sig (Mem × Account)}
    (h : Reach (housed cfg).step (fun a l => orderlyStep a.base l ∧ checkedStep a l) housedInit s) :
    (workspaces cfg).Good s := by
  have hrun : Reach (housed cfg).step (workspaces cfg).ok housedInit s := by
    refine h.mono fun s l hl => ?_
    cases l with
    | run t c => exact fun op k hk =>
      ⟨hl.1 op (System.mem_pending hk), hl.2 op (System.mem_pending hk)⟩
    | _ => trivial
  refine workspaces_lawful.sound ?_ ?_ hrun
  · refine ⟨⟨nofun, nofun, fun _ _ => rfl, nofun, nofun⟩, fun _ _ => ⟨trivial, rfl⟩, nofun⟩
  · intro s hs t op k hk
    refine standing_of_reach hs (fun a l hl => ?_) hk
    cases l with
    | run t c => exact fun op k hk => (hl op k hk).1
    | _ => trivial

/-- The session is ended or interrupted. -/
def Mem.ended (m : Mem) : Bool := m.status.any isFinal

/-- Only `FinishSession` ends a session. -/
theorem ended_act {op : Op} {c : Choice} {r : op.Res} {m m' : Mem} (hst : Standing cfg t op m)
    (h : m.ended = false) (h' : m'.ended = true) (hdo : perform t op m c = some (r, m')) :
    ∃ status events, op = .store (.finishSession status events) := by
  have hsame (heq : m'.status = m.status) : False := by
    rw [Mem.ended, heq] at h'
    rw [Mem.ended, h'] at h
    cases h
  cases op with
  | slot op => exact (hsame (by rw [Mem.status, slot_db hdo]; rfl)).elim
  | store op =>
    cases op with
    | createSession templateSpec =>
      simp only [perform, StoreOp.perform] at hdo
      split at hdo <;> cases hdo
      · cases h'
      · exact (hsame rfl).elim
    | update up =>
      simp only [perform, StoreOp.perform] at hdo
      split at hdo <;> cases hdo
      · -- the new status is the old one, or not a final one
        obtain ⟨row, hrow⟩ := Option.isSome_iff_exists.mp (hst.inv.writer_row hst.promise.1)
        simp only [Mem.ended, Mem.status, hrow, Db.update, Option.map_some, Option.any_some,
          Update.apply_status] at h h'
        cases htarget : up.target with
        | none =>
          rw [htarget, Option.getD_none, h] at h'
          cases h'
        | some st =>
          have hopen := hst.promise.2.2 st htarget
          rw [htarget, Option.getD_some] at h'
          rw [isFinal.terminal h'] at hopen
          cases hopen
      · exact (hsame rfl).elim
    | finishSession status events => exact ⟨status, events, rfl⟩
    | _ => exact (hsame (perform_still (by trivial) hdo).status).elim
  | bind b op =>
    cases op with
    | create claimName pod syncing turns =>
      cases hdo
      exact (hsame rfl).elim
    | closeReady =>
      cases hdo
      exact (hsame rfl).elim
    | _ => exact (hsame (perform_still (by trivial) hdo).status).elim
  | _ => exact (hsame (perform_still (by trivial) hdo).status).elim

theorem ended_cleared {s s' : Config sig (Mem × Account)} {l : ThreadLabel sig Choice EnvStep}
    (h : Reach (housed cfg).step (fun a l => orderlyStep a.base l ∧ checkedStep a l) housedInit s)
    (hl : orderlyStep s.base l ∧ checkedStep s l) (hstep : (housed cfg).step s l = some s')
    (hrunning : s.mem.1.ended = false) (hended : s'.mem.1.ended = true) : Cleared s'.mem := by
  have hsame (heq : s'.mem.1.status = s.mem.1.status) : False := by
    rw [Mem.ended, heq] at hended
    rw [Mem.ended, hended] at hrunning
    cases hrunning
  cases System.step_mem hstep with
  | @act t c op k r hk hdo =>
    have hst : Standing cfg t op s.mem.1 :=
      standing_of_reach h (fun a l hl => orderlyStep_ok cfg hl.1) hk
    obtain ⟨status, events, rfl⟩ := ended_act hst hrunning hended (housed_perform hdo).1
    have hcleared : Cleared s.mem := (workspaces_good h).pre hk hst
    have hs : Sheltered t s.mem s'.mem :=
      sheltered_of_outside (by trivial) hst (hl.1 _ (System.mem_pending hk)) hdo
    exact hs.cleared hcleared
  | spawn _ hmem | start _ hmem | silent hmem => exact (hsame (congrArg (·.1.status) hmem)).elim
  | env hdo => exact (hsame (env_idle (System.observe_env hdo).1).status).elim
  | crash hmem => exact (hsame (by rw [hmem]; rfl)).elim

/-- In every run of any number of sessions: whenever a session becomes ended or interrupted, its
row records no workspace, or one whose `Teardown` has succeeded after the last `Prepare` or
`Revive` of it. -/
theorem workspace_torn_down {ι : Type} [DecidableEq ι] (cfg : Settings)
    {s s' : ι → Config sig (Mem × Account)} {l : ι × ThreadLabel sig Choice EnvStep}
    (h : Reach (family (housed cfg).step)
      (fun a l => orderlyStep (a l.1).base l.2 ∧ checkedStep (a l.1) l.2) (fun _ => housedInit) s)
    (hl : orderlyStep (s l.1).base l.2 ∧ checkedStep (s l.1) l.2)
    (hstep : family (housed cfg).step s l = some s') (i : ι)
    (hrunning : (s i).mem.1.ended = false) (hended : (s' i).mem.1.ended = true) :
    Cleared (s' i).mem := by
  obtain ⟨rfl, hstep⟩ | hsame := family_step hstep i
  · have hreach : Reach (housed cfg).step (fun a l => orderlyStep a.base l ∧ checkedStep a l)
        housedInit (s l.1) :=
      h.member l.1 fun _ _ hl => hl
    exact ended_cleared hreach hl hstep hrunning hended
  · rw [hsame, hrunning] at hended
    cases hended

instance (s : Config sig (Mem × Account)) : (l : ThreadLabel sig Choice EnvStep) →
    Decidable (checkedStep s l)
  | .run t c => inferInstanceAs (Decidable (∀ op ∈ System.pending s t, checked t op s.mem.2 c))
  | .start _ | .env _ | .crash => inferInstanceAs (Decidable True)

instance (x : Mem × Account) : Decidable (Cleared x) := by
  unfold Cleared
  infer_instance

/-- The state after a run, of a family with one session. -/
def housedAfter (run : List (ThreadLabel sig Choice EnvStep)) : Unit → Config sig (Mem × Account) :=
  (exec (family (housed noLimits).step) (fun _ => housedInit) (run.map fun l => ((), l))).getD
    fun _ => housedInit

/-- A launch records its workspace and cannot create its run; its workspace is torn down. -/
def failedLaunch : List (ThreadLabel sig Choice EnvStep) :=
  List.flatten [[.start (.createSession (.snapshot "") "" "")], launching,
    steps 0 1 { ok := false }, steps 0 3]

theorem workspace_torn_down_failed :
    (housedAfter (failedLaunch ++ steps 0 1) ()).mem.1.claim = "c" ∧
      Cleared (housedAfter (failedLaunch ++ steps 0 1) ()).mem := by
  have hreach : Reach (family (housed noLimits).step)
      (fun a l => orderlyStep (a l.1).base l.2 ∧ checkedStep (a l.1) l.2) (fun _ => housedInit)
      (housedAfter failedLaunch) := Reach.of_exec_guarded _ (by decide)
  refine ⟨by decide, ?_⟩
  exact workspace_torn_down noLimits (l := ((), .run 0 {})) hreach (by decide) rfl ()
    (by decide) (by decide)

/-- The workspace of a failed launch is not torn down, and the session cannot be read. -/
def unreadLaunch : List (ThreadLabel sig Choice EnvStep) :=
  List.flatten [[.start (.createSession (.snapshot "") "" "")], launching,
    steps 0 1 { ok := false }, steps 0 1, steps 0 2 { ok := false }, steps 0 1]

/-- An end takes the session between the insert of its row and the claim of the launch, and reads
no workspace; then the launch records one. -/
def overtakenLaunch : List (ThreadLabel sig Choice EnvStep) :=
  List.flatten [[.start (.createSession (.snapshot "") "" "")], steps 0 1,
    [.start (.endSession .ended)], steps 1 3, launching.tail]

/-- The session ends with a workspace that is not torn down: after the failed read, in an orderly
run, and after the race, without a failure. -/
theorem workspace_leaked :
    (¬ ∀ (s s' : Unit → Config sig (Mem × Account)) (l : Unit × ThreadLabel sig Choice EnvStep),
      Reach (family (housed noLimits).step) (fun a l => orderlyStep (a l.1).base l.2)
        (fun _ => housedInit) s →
      orderlyStep (s l.1).base l.2 → family (housed noLimits).step s l = some s' →
      ∀ i, (s i).mem.1.ended = false → (s' i).mem.1.ended = true → Cleared (s' i).mem) ∧
    ¬ ∀ (s s' : Unit → Config sig (Mem × Account)) (l : Unit × ThreadLabel sig Choice EnvStep),
      Reach (family (housed noLimits).step) (fun a l => checkedStep (a l.1) l.2)
        (fun _ => housedInit) s →
      checkedStep (s l.1) l.2 → family (housed noLimits).step s l = some s' →
      ∀ i, (s i).mem.1.ended = false → (s' i).mem.1.ended = true → Cleared (s' i).mem := by
  constructor
  · intro h
    have hreach : Reach (family (housed noLimits).step) (fun a l => orderlyStep (a l.1).base l.2)
        (fun _ => housedInit) (housedAfter unreadLaunch) :=
      Reach.of_exec_guarded _ (by decide)
    have hcleared := h _ (housedAfter (unreadLaunch ++ steps 0 1)) ((), .run 0 {}) hreach
      (by decide) rfl () (by decide) (by decide)
    revert hcleared
    decide
  · intro h
    have hreach : Reach (family (housed noLimits).step) (fun a l => checkedStep (a l.1) l.2)
        (fun _ => housedInit) (housedAfter overtakenLaunch) :=
      Reach.of_exec_guarded _ (by decide)
    have hcleared := h _ (housedAfter (overtakenLaunch ++ steps 1 1)) ((), .run 1 {}) hreach
      (by decide) rfl () (by decide) (by decide)
    revert hcleared
    decide

end AgentOps.Service
