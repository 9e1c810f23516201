import AgentOps.Service.LedgerRules

/-!
# Every program keeps the ledger

The programs one by one: what a program knows of the state when it writes it, and that it gives
the session up only when the log has told of every write.
-/

namespace AgentOps.Service

open AgentOps.Api AgentOps.Link AgentOps.Lib

variable {cfg : Settings} {t : ℕ} {ρ : Role} {x y : SessionState} {α : Type} {m m' : Mem}

/-! ## Stops -/

theorem Writes.synced (h : Writes ρ t x x m) : Synced ρ t m := ⟨x, h⟩

theorem keeping_synced {p : P α} (hp : Plain p) :
    Keeping cfg t (Synced ρ t) p fun _ => Synced ρ t :=
  keeping_plain lasting_synced hp

theorem stopDetached_keeps (spec : StopSpec) :
    Keeping cfg t (Synced ρ t) (stopDetached spec) fun _ => Synced ρ t := by
  refine keeping_read.bind fun r => ?_
  split
  · exact .ret fun _ _ hm => hm.1
  · rename_i sess
    have hend : Keeping cfg t (Saw ρ t sess) (endSession sess.status spec.ends spec.detail)
        fun _ => Synced ρ t :=
      (keeping_end ..).of_imp fun _ _ hm => hm.1
    split
    · exact .ret fun _ _ hm => hm.1
    · split
      · refine ((keeping_plain (lasting_saw sess) (plain_ext _)).of_imp fun _ _ hm =>
          hm.2 sess rfl).bind fun ok => ?_
        split
        · exact hend
        · exact .ret fun _ _ hm => hm.1.synced
      · exact hend.of_imp fun _ _ hm => hm.2 sess rfl

theorem recordSuspended_keeps (reason : Reason) :
    Keeping cfg t (Synced ρ t) (recordSuspended cfg reason) fun _ => Synced ρ t := by
  refine .of_exists fun x => (keeping_storedState _).bind fun old => ?_
  refine (keeping_plain lasting_writes (plain_ext _)).bind fun now => ?_
  refine (keeping_writeUpdate fun st hst => by cases hst; rfl).bind fun ok => ?_
  refine keeping_ite ?_ (.ret fun _ _ hm => hm.synced)
  refine (keeping_emitChange old .suspended reason).bind fun _ => ?_
  refine (keeping_plain lasting_writesOpen (plain_emit _ ⟨rfl, rfl⟩)).bind fun _ => ?_
  exact .ret fun _ _ hm => hm.1.synced

theorem tearDownAndEnd_keeps (claimName : String) (spec : StopSpec) :
    Keeping cfg t (Synced ρ t) (tearDownAndEnd claimName spec) fun _ => Synced ρ t := by
  refine (keeping_synced (plain_ext _)).bind fun ok => ?_
  split
  · exact .of_exists fun x => (keeping_storedState _).bind fun old => keeping_end ..
  · exact .ret fun _ _ hm => hm

theorem stopLive_keeps (b : ℕ) (spec : StopSpec) :
    Keeping cfg t (Stopping t b) (stopLive cfg b spec) fun _ => Synced .holding t := by
  -- the stop waits for the launch before it does anything else
  have hdrain : Keeping cfg t (Stopping t b) (drainBinding b) fun _ => Synced .holding t :=
    (keeping_awaitReady b).bind fun r => keeping_synced (((uses_drainBinding b).plain rfl).2 r)
  refine hdrain.bind fun _ => ?_
  refine (keeping_synced (plain_bind b .claim trivial)).bind fun claimName => ?_
  split
  · refine (keeping_synced (plain_ext _)).bind fun ok => ?_
    split
    · exact recordSuspended_keeps _
    · exact tearDownAndEnd_keeps ..
  · exact tearDownAndEnd_keeps ..

theorem settle_keeps (after : After) :
    Keeping cfg t (Synced .holding t) (settle after) fun _ => Anything := by
  refine keeping_finish.bind fun r => ?_
  split
  · have hcalm : Prog.Only Op.calm unsettled (afterSettle after) := by
      cases after with
      | nothing => trivial
      | answer stopped => exact .when (.perform trivial)
      | up => exact .perform trivial
    exact (keeping_calm lasting_anything hcalm).of_imp fun _ _ _ => trivial
  · rename_i spec
    refine ((stopDetached_keeps spec).of_imp fun _ _ h => h spec rfl).bind fun _ => ?_
    refine (keeping_calm (p := slot .ran) lasting_synced (.perform trivial)).bind fun _ => ?_
    exact keeping_settle after

theorem stopOwned_keeps (want : Option ℕ) (spec : StopSpec) (answers : Bool) :
    Keeping cfg t (fun m => want = none → RowSeen m) (stopOwned cfg want spec answers)
      fun _ => Anything := by
  refine (keeping_detach want spec).bind fun r => ?_
  cases r with
  | nothing => exact .ret fun _ _ _ => trivial
  | waits o => exact .ret fun _ _ _ => trivial
  | held victim =>
    cases victim with
    | none => exact (stopDetached_keeps spec).bind fun _ => keeping_settle _
    | some b => exact (stopLive_keeps b spec).bind fun _ => keeping_settle _

/-! ## Launches -/

theorem failRevive_keeps (sess : Row) (opts : LaunchOpts) (reason : Reason) (detail : String) :
    Keeping cfg t (Synced ρ t) (failRevive sess opts reason detail) fun _ => Synced ρ t := by
  have hsuspend : Plain (do let _ ← suspendSandbox sess.sandboxClaimName : P Unit) :=
    (plain_ext _).bind fun _ => trivial
  refine (keeping_synced hsuspend.when).bind fun _ => ?_
  refine (keeping_synced ((uses_failTurn opts detail).plain rfl)).bind fun _ => ?_
  refine .of_exists fun x => (keeping_storedState _).bind fun old => ?_
  refine (keeping_plain lasting_writes ((uses_suspendedAtOf sess).plain rfl)).bind
    fun suspendedAt => ?_
  refine (keeping_writeUpdate fun st hst => by cases hst; rfl).bind fun written => ?_
  unfold Prog.when
  refine keeping_ite ?_ (.ret fun _ _ hm => hm.synced)
  exact (keeping_emitChange ..).conseq (fun _ _ hm => hm) fun _ _ _ hm => hm.1.synced

theorem endLaunch_keeps (claimName : String) (reason : EndReason) (detail : String) :
    Keeping cfg t (Synced ρ t) (endLaunch claimName reason detail) fun _ => Synced ρ t := by
  have hfinish : Keeping cfg t (Synced ρ t) (do
      let old ← storedState .launching
      let _ ← endSession old reason detail) fun _ => Synced ρ t :=
    .of_exists fun x => (keeping_storedState _).bind fun old => (keeping_end ..).bind fun _ =>
      .ret fun _ _ hm => hm
  unfold endLaunch
  dsimp only
  split
  · refine (keeping_synced (plain_ext _)).bind fun ok => ?_
    split
    · exact hfinish
    · refine (keeping_synced ((uses_recordsClaim _).plain rfl)).bind fun ok => ?_
      split
      · exact .ret fun _ _ hm => hm
      · exact hfinish
  · exact hfinish

theorem failLaunch_keeps (sess : Row) (opts : LaunchOpts) (claimName : String)
    (reason : EndReason) (detail : String) :
    Keeping cfg t (Synced ρ t) (failLaunch sess opts claimName reason detail)
      fun _ => Synced ρ t := by
  refine (keeping_calm (p := slot .takeStop) lasting_synced (.perform trivial)).bind fun r => ?_
  split
  · refine (keeping_synced ((uses_failTurn ..).plain rfl)).bind fun _ => ?_
    exact endLaunch_keeps ..
  · split
    · exact failRevive_keeps ..
    · exact endLaunch_keeps ..

/-- A launch that did not register still holds the session. -/
def LaunchSynced (t : ℕ) (registered : Bool) (m : Mem) : Prop :=
  registered = false → Synced .holding t m

theorem fail_keeps {A : Mem → Prop} {p : P Unit} (hA : ∀ m, A m → Synced .holding t m)
    (hp : Keeping cfg t (Synced .holding t) p fun _ => Synced .holding t) :
    Keeping cfg t A (p >>= fun _ => pure false) (LaunchSynced t) := by
  refine (hp.of_imp fun m _ hm => hA m hm).bind fun _ => ?_
  exact .ret fun _ _ hm _ => hm

theorem recordLink_keeps (claimName sandboxName acpSessionId : String) (readySeq : ℕ) :
    Keeping cfg t (Writes .activating t .awaitingApproval .awaitingApproval)
      (recordLink t claimName sandboxName acpSessionId readySeq) fun ok m =>
        if ok then WritesOpen .activating t .running .awaitingApproval m
        else Writes .activating t .awaitingApproval .awaitingApproval m := by
  have hno : Keeping cfg t (WritesOpen .activating t .awaitingApproval .awaitingApproval)
      (pure false : P Bool) fun ok m =>
        if ok then WritesOpen .activating t .running .awaitingApproval m
        else Writes .activating t .awaitingApproval .awaitingApproval m :=
    .ret fun _ _ hm => hm.1
  refine keeping_write ?_ fun _ hm => hm
  refine (keeping_update fun st hst => by cases hst; rfl).bind fun ok => keeping_ite ?_ hno
  refine (keeping_update fun st hst => by cases hst).bind fun ok => keeping_ite ?_ hno
  refine (keeping_update fun st hst => by cases hst; rfl).conseq (fun _ _ hm => hm)
    fun ok m _ hm => ?_
  cases ok with
  | true => exact hm
  | false => exact hm.1

theorem recordApproverFromRun_keeps :
    Keeping cfg t (WritesOpen ρ t x y) recordApproverFromRun fun _ => WritesOpen ρ t x y := by
  refine (keeping_plain lasting_writesOpen (plain_ext _)).bind fun r => ?_
  split
  · exact .ret fun _ _ hm => hm
  · split
    · exact .ret fun _ _ hm => hm
    · refine (keeping_update fun st hst => by cases hst).bind fun ok => ?_
      refine (keeping_plain lasting_writesOpen (plain_emit _ ⟨rfl, rfl⟩)).of_imp fun m _ hm => ?_
      cases ok <;> exact hm

theorem runLinked_keeps (opts : LaunchOpts) (opening : Bool) :
    Keeping cfg t (WritesOpen .activating t .running .awaitingApproval) (runLinked t opts opening)
      fun _ => Synced .activating t := by
  refine recordApproverFromRun_keeps.bind fun _ => ?_
  refine (keeping_emitChange ..).bind fun _ => ?_
  refine (keeping_plain lasting_writesOpen (.when (plain_emit _ ⟨rfl, rfl⟩))).bind fun _ => ?_
  refine (keeping_plain lasting_writesOpen (.when (.perform trivial))).conseq (fun _ _ hm => hm) ?_
  exact fun _ _ _ hm => hm.1.synced

theorem runRegistered_keeps (opts : LaunchOpts) (opening : Bool) (claimName sandboxName : String)
    (ready : String × ℕ) :
    Keeping cfg t (Writes .activating t .awaitingApproval .awaitingApproval)
      (runRegistered t opts opening claimName sandboxName ready) fun _ => Anything := by
  refine (recordLink_keeps ..).bind fun linked => ?_
  refine .spawn ?_ (fun _ _ _ _ _ _ => trivial) ?_
  · cases linked with
    | true => exact lasting_writesOpen.stable
    | false => exact lasting_writes.stable
  · have hrun : Keeping cfg t (fun m =>
          if linked then WritesOpen .activating t .running .awaitingApproval m
          else Writes .activating t .awaitingApproval .awaitingApproval m)
        (if linked then runLinked t opts opening else stopUnlinked t opts opening)
        fun _ => Synced .activating t :=
      keeping_ite (runLinked_keeps ..)
        ((keeping_plain lasting_writes (plain_stopUnlinked ..)).conseq
        (fun _ _ hm => hm) fun _ _ _ hm => hm.synced)
    exact hrun.bind fun _ => keeping_ready

theorem bindSession_keeps (sess : Row) (opts : LaunchOpts) (claimName sandboxName : String)
    (ready : String × ℕ) :
    Keeping cfg t (Writes .holding t .awaitingApproval .awaitingApproval)
      (bindSession t sess opts claimName sandboxName ready) (LaunchSynced t) := by
  refine (keeping_create ..).bind fun _ => ?_
  refine (keeping_plain lasting_binds ((uses_saveOpening t opts).plain rfl)).bind fun opening => ?_
  refine keeping_register.bind fun r => keeping_ite ?_ ?_
  · exact (runRegistered_keeps ..).bind fun _ => .ret fun _ _ _ h => by cases h
  · refine (keeping_plain lasting_writes (plain_bind t .closeConsumed trivial)).bind fun _ => ?_
    refine (keeping_plain lasting_writes (plain_bind t .closeSession trivial)).bind fun _ => ?_
    refine ((failLaunch_keeps ..).of_imp fun _ _ hm => hm.synced).bind fun _ => ?_
    refine .of_exists fun x => keeping_closeReady.bind fun _ => ?_
    exact .ret fun _ _ hm _ => hm.synced

theorem activateFailed_keeps (sess : Row) (opts : LaunchOpts) (claimName : String)
    (err : ActivateError) :
    Keeping cfg t (Synced ρ t) (activateFailed sess opts claimName err) fun _ => Synced ρ t := by
  have hfail : Keeping cfg t (Synced ρ t) (do
      let failure := activateFailure err (← ext .outcome)
      failLaunch sess opts claimName failure.1 failure.2) fun _ => Synced ρ t :=
    (keeping_synced (plain_ext _)).bind fun _ => failLaunch_keeps ..
  unfold activateFailed
  dsimp only
  split
  · refine (keeping_synced (p := slot .stopped) (.perform trivial)).bind fun r => ?_
    split
    · exact hfail
    · exact failRevive_keeps ..
  · exact hfail

/-- The thread's own number. -/
theorem keeping_self {A : Mem → Prop} (hA : Lasting t A) :
    Keeping cfg t A (ext .self) fun n m => n = t ∧ A m := by
  refine .perform hA.stable (fun _ _ _ _ => trivial) ?_
  intro m c r m' _ _ hm _ hdo _
  cases hdo
  exact ⟨rfl, hm⟩

theorem activateAndRun_keeps (sess : Row) (opts : LaunchOpts) (claimName sandboxName : String) :
    Keeping cfg t (Writes .holding t .awaitingApproval .awaitingApproval)
      (activateAndRun sess opts claimName sandboxName) (LaunchSynced t) := by
  refine (keeping_self lasting_writes).bind fun n => .of_fact ?_
  rintro rfl
  refine (keeping_plain lasting_writes (plain_ext _)).bind fun r => ?_
  split
  · refine (keeping_plain lasting_writes (plain_ext _)).bind fun r => ?_
    split
    · exact bindSession_keeps ..
    · exact fail_keeps (fun _ hm => hm.synced) (activateFailed_keeps ..)
  · exact fail_keeps (fun _ hm => hm.synced) (activateFailed_keeps ..)

theorem launchRun_keeps (sess : Row) (opts : LaunchOpts) (claimName sandboxName : String) :
    Keeping cfg t (Writes .holding t .launching .launching)
      (launchRun sess opts claimName sandboxName) (LaunchSynced t) := by
  refine (keeping_plain lasting_writes (plain_ext _)).bind fun r => ?_
  split
  · exact fail_keeps (fun _ hm => hm.synced) (failLaunch_keeps ..)
  · refine (keeping_plain lasting_writes (plain_ext _)).bind fun r => ?_
    split
    · refine (keeping_writeUpdate fun st hst => by cases hst; rfl).bind fun ok => keeping_ite ?_ ?_
      · refine (keeping_emitChange ..).bind fun _ => ?_
        refine (keeping_plain lasting_writesOpen (plain_emit _ ⟨rfl, rfl⟩)).bind fun _ => ?_
        exact (activateAndRun_keeps ..).of_imp fun _ _ hm => hm.1
      · exact fail_keeps (fun _ hm => hm.synced) (failLaunch_keeps ..)
    · exact fail_keeps (fun _ hm => hm.synced) (failLaunch_keeps ..)

theorem beginLaunch_keeps (old : SessionState) (reason : Reason) :
    Keeping cfg t (Writes ρ t old old) (beginLaunch old reason) fun ok m =>
      if ok then Writes ρ t .launching .launching m else Writes ρ t old old m := by
  refine (keeping_writeUpdate fun st hst => by cases hst; rfl).bind fun ok => keeping_ite ?_ ?_
  · exact (keeping_emitChange ..).bind fun _ => .ret fun _ _ hm => hm.1
  · exact .ret fun _ _ hm => hm

theorem launchSession_keeps (sess : Row) (opts : LaunchOpts) :
    Keeping cfg t (Writes .holding t sess.status sess.status) (launchSession sess opts)
      (LaunchSynced t) := by
  unfold launchSession
  split
  · refine (beginLaunch_keeps ..).bind fun ok => keeping_ite ?_ ?_
    · refine (keeping_plain lasting_writes ((uses_workspace ..).plain rfl)).bind fun r => ?_
      split
      · exact fail_keeps (fun _ hm => hm.synced) (failLaunch_keeps ..)
      · refine (keeping_writeUpdate fun st hst => by cases hst; rfl).bind
          fun ok => keeping_ite ?_ ?_
        · exact (launchRun_keeps ..).of_imp fun _ _ hm => hm.1
        · exact fail_keeps (fun _ hm => hm.synced) (failLaunch_keeps ..)
    · exact fail_keeps (fun _ hm => hm.synced) (failLaunch_keeps ..)
  · exact (keeping_end ..).bind fun _ => .ret fun _ _ hm _ => hm

theorem launchBody_keeps (opts : LaunchOpts) :
    Keeping cfg t (Synced .holding t) (launchBody opts) (LaunchSynced t) := by
  refine keeping_read.bind fun r => ?_
  split
  · exact fail_keeps (fun _ hm => hm.1) (keeping_synced ((uses_failTurn ..).plain rfl))
  · rename_i sess
    have hstopped : Keeping cfg t (Saw .holding t sess) (slot .stopped)
        fun _ => Saw .holding t sess :=
      keeping_plain (lasting_saw sess) (.perform trivial)
    refine (hstopped.of_imp fun _ _ hm => hm.2 sess rfl).bind fun r => ?_
    split
    · exact fail_keeps (fun _ hm => hm.1.synced) (failLaunch_keeps ..)
    · split
      · refine (keeping_plain (lasting_saw sess) (uses_nextTurn.plain rfl)).bind fun r => ?_
        split
        · exact fail_keeps (fun _ hm => hm.1.synced) (failLaunch_keeps ..)
        · rename_i turnId turnSeq
          refine (keeping_plain (p := note (.accepted turnId)) (lasting_saw sess)
            (.perform trivial)).bind fun _ => ?_
          exact (launchSession_keeps ..).of_imp fun _ _ hm => hm.1
      · exact (launchSession_keeps ..).of_imp fun _ _ hm => hm.1

theorem launch_keeps (opts : LaunchOpts) :
    Keeping cfg t (Synced .holding t) (launch opts) fun _ => Anything := by
  refine (launchBody_keeps opts).bind fun r => ?_
  split
  · refine (keeping_rest (plain_ext _)).bind fun n => ?_
    exact keeping_rest ⟨fun _ => Entry.noConfusion, trivial⟩
  · rename_i hr
    exact (keeping_settle .nothing).of_imp fun _ _ h => h (by simpa using hr)

/-! ## Calls -/

theorem createSession_keeps (templateSpec : TemplateSpec) (approvalPrompt initialPrompt : String) :
    Keeping cfg t Anything (createSession templateSpec approvalPrompt initialPrompt)
      fun _ => Anything := by
  have hinsert : Keeping cfg t Anything (store (.createSession templateSpec))
      fun r m => r = true → Creating t m := by
    refine .perform lasting_anything.stable (fun _ _ _ _ => trivial) ?_
    intro m c r m' hinv _ _ _ hdo _ hr
    change StoreOp.perform t m c (.createSession templateSpec) = some (r, m') at hdo
    simp only [StoreOp.perform] at hdo
    split at hdo
    · rename_i hc
      cases hdo
      simp only [Bool.and_eq_true, Option.isNone_iff_eq_none] at hc
      refine ⟨rfl, rfl, ?_⟩
      show reached (history m.db.log) = _
      rw [(hinv.absent hc.2).2.2]
      rfl
    · cases hdo
      cases hr
  refine hinsert.bind fun r => ?_
  split
  · rename_i hr
    refine ((keeping_claim_creating true).of_imp fun _ _ hm => hm hr).bind fun _ => ?_
    refine (keeping_emitChange ..).bind fun _ => ?_
    exact (launch_keeps _).of_imp fun _ _ hm => hm.1.synced
  · exact keeping_rest trivial

/-- What a read of a session tells a thread that is not its writer. -/
theorem keeping_look : Keeping cfg t Anything getSession fun r m =>
    (∀ row, r = some row → RowSeen m) ∧
      ∀ row, r = some row → row.status ≠ .pending → Settled m := by
  refine .perform lasting_anything.stable (fun _ _ _ _ => trivial) ?_
  intro m c r m' hinv _ _ _ hdo _
  change StoreOp.perform t m c .getSession = some (r, m') at hdo
  simp only [StoreOp.perform] at hdo
  split at hdo <;> cases hdo
  · have hseen : ∀ row, m.db.row = some row → m.db.row.isSome = true :=
      fun row hr => by rw [hr]; rfl
    refine ⟨hseen, fun row hr hp => ⟨hseen row hr, ?_⟩⟩
    by_contra hc
    have := (hinv.created hc).2
    simp only [Mem.status, hr, Option.map_some, Option.some.injEq] at this
    exact hp this
  · exact ⟨fun _ hr => (by cases hr), fun _ hr => (by cases hr)⟩

theorem promptSuspended_keeps (content : String) :
    Keeping cfg t Settled (promptSuspended content) fun _ => Anything := by
  refine (keeping_claim true).bind fun r => ?_
  split
  · rename_i hr
    refine (keeping_read.of_imp fun _ _ hm => hm hr).bind fun r => ?_
    split
    · exact (keeping_settle .nothing).of_imp fun _ _ hm => hm.1
    · rename_i current
      split
      · exact (keeping_settle .nothing).of_imp fun _ _ hm => hm.1
      · refine ((keeping_synced (uses_nextTurn.plain rfl)).of_imp fun _ _ hm => hm.1).bind
          fun r => ?_
        split
        · exact keeping_settle .nothing
        · rename_i turnId turnSeq
          refine (keeping_synced (p := note (.accepted turnId)) (.perform trivial)).bind fun _ => ?_
          exact launch_keeps _
  · exact keeping_rest trivial

theorem prompt_keeps (content : String) :
    Keeping cfg t Anything (prompt content) fun _ => Anything := by
  refine keeping_look.bind fun r => ?_
  split
  · exact keeping_rest trivial
  · rename_i sess
    split
    · refine (keeping_rest (p := slot .lookup) (.perform trivial)).bind fun r => ?_
      split
      · exact keeping_rest trivial
      · exact keeping_rest ((uses_promptRunning ..).plain rfl)
    · split
      · rename_i hs
        refine (promptSuspended_keeps content).of_imp fun _ _ hm => hm.2 sess rfl ?_
        rw [hs.1]
        exact nofun
      · exact keeping_rest trivial

theorem note_keeps {A : Mem → Prop} (op : NoteOp) : Keeping cfg t A (note op) fun _ => Anything :=
  (keeping_calm (p := note op) lasting_anything (.perform trivial)).of_imp fun _ _ _ => trivial

theorem callEndSession_keeps (reason : EndReason) :
    Keeping cfg t Anything (callEndSession cfg reason) fun _ => Anything := by
  refine keeping_look.bind fun r => ?_
  split
  · exact keeping_rest trivial
  · rename_i sess
    split
    · exact note_keeps _
    · refine ((stopOwned_keeps ..).of_imp fun _ _ hm _ => hm.1 sess rfl).bind fun r => ?_
      split
      · exact note_keeps _
      · rename_i o
        have hwait : Plain (slot (.await o)) := .perform trivial
        refine (keeping_rest hwait).bind fun _ => ?_
        refine (keeping_rest (uses_getSession.plain rfl)).bind fun r => ?_
        split
        · exact keeping_rest trivial
        · unfold Prog.when
          split
          · exact note_keeps _
          · exact keeping_rest trivial

theorem stop_keeps (want : Option ℕ) (spec : StopSpec) :
    Keeping cfg t (fun m => want = none → RowSeen m) (stop cfg want spec) fun _ => Anything :=
  (stopOwned_keeps want spec false).bind fun _ => keeping_rest trivial

/-- A stop of one owner. -/
theorem stopOf_keeps {A : Mem → Prop} (o : ℕ) (spec : StopSpec) :
    Keeping cfg t A (stop cfg (some o) spec) fun _ => Anything :=
  (stop_keeps (some o) spec).of_imp fun _ _ _ h => by cases h

theorem watchRun_keeps (b : ℕ) :
    Keeping cfg t Anything (watchRun cfg b) fun _ => Anything := by
  refine (keeping_rest (plain_bind b .isDone trivial)).bind fun r => ?_
  split
  · exact keeping_rest trivial
  · refine (keeping_rest (plain_ext _)).bind fun r => ?_
    split
    · exact stopOf_keeps ..
    · split
      · exact stopOf_keeps ..
      · split
        · exact stopOf_keeps ..
        · exact .jump lasting_anything.stable fun _ _ _ => trivial

theorem sweepIdle_keeps : Keeping cfg t Anything (sweepIdle cfg) fun _ => Anything := by
  unfold sweepIdle
  split
  · exact keeping_rest trivial
  · refine (keeping_rest (p := slot .lookup) (.perform trivial)).bind fun r => ?_
    split
    · exact keeping_rest trivial
    · rename_i b
      refine (keeping_rest (plain_bind b .idleFor trivial)).bind fun idle => ?_
      split
      · exact stopOf_keeps ..
      · split
        · refine (keeping_rest (plain_bind b (.warn _) trivial)).bind fun r => ?_
          split
          · exact keeping_rest (plain_emit _ ⟨rfl, rfl⟩)
          · exact keeping_rest trivial
        · exact keeping_rest trivial

theorem releaseClaimed_keeps :
    Keeping cfg t (Synced ρ t) (releaseClaimed cfg) fun _ => Synced ρ t := by
  refine keeping_read.bind fun r => ?_
  split
  · exact .ret fun _ _ hm => hm.1
  · rename_i sess
    refine ((keeping_plain (lasting_saw sess) (plain_ext _)).of_imp fun _ _ hm =>
      hm.2 sess rfl).bind fun now => ?_
    split
    · exact .ret fun _ _ hm => hm.1.synced
    · rename_i hlapsed
      simp only [not_or, not_not] at hlapsed
      have hend : Keeping cfg t (Saw ρ t sess) (releaseEnd cfg) fun _ => Synced ρ t := by
        refine ((keeping_endSession .suspended .expired _ ?_).of_imp fun m _ hm => ?_).bind
          fun _ => .ret fun _ _ hm => hm
        · intro e he
          rw [List.mem_singleton.mp he]
          exact ⟨rfl, rfl⟩
        · rw [← hlapsed.1]
          exact hm.1
      split
      · refine (keeping_plain (lasting_saw sess) (plain_ext _)).bind fun ok => ?_
        split
        · exact hend
        · exact .ret fun _ _ hm => hm.1.synced
      · exact hend

theorem sweepSuspended_keeps :
    Keeping cfg t Anything (sweepSuspended cfg) fun _ => Anything := by
  unfold sweepSuspended
  split
  · exact keeping_rest trivial
  · refine keeping_look.bind fun r => ?_
    split
    · exact keeping_rest trivial
    · rename_i sess
      by_cases hs : sess.status = .suspended
      · have hnow : Keeping cfg t Settled (ext .now) fun _ => Settled :=
          keeping_plain lasting_settled (plain_ext _)
        refine (hnow.of_imp fun _ _ hm => hm.2 sess rfl (by rw [hs]; exact nofun)).bind
          fun now => ?_
        split
        · refine (keeping_claim false).bind fun r => ?_
          split
          · rename_i hr
            refine (releaseClaimed_keeps.of_imp fun _ _ hm => hm hr).bind fun _ => ?_
            exact keeping_settle .nothing
          · exact keeping_rest trivial
        · exact keeping_rest trivial
      · refine (keeping_rest (plain_ext _)).bind fun now => ?_
        rw [if_neg fun h => hs h.1]
        exact keeping_rest trivial

theorem sweepAbsolute_keeps :
    Keeping cfg t Anything (sweepAbsolute cfg) fun _ => Anything := by
  unfold sweepAbsolute
  split
  · exact keeping_rest trivial
  · refine keeping_look.bind fun r => ?_
    split
    · exact keeping_rest trivial
    · rename_i sess
      refine ((keeping_plain lasting_rowSeen (plain_ext _)).of_imp fun _ _ hm =>
        hm.1 sess rfl).bind fun now => ?_
      split
      · exact keeping_rest trivial
      · exact (stop_keeps ..).of_imp fun _ _ hm _ => hm

theorem consume_keeps (b : ℕ) : Keeping cfg t Anything (consume cfg b) fun _ => Anything := by
  have hloop : Keeping cfg t Anything (Prog.jump (.consume b) : P Unit) fun _ => Anything :=
    .jump lasting_anything.stable fun _ _ _ => trivial
  refine (keeping_rest (plain_bind b .receive trivial)).bind fun r => ?_
  split
  · exact keeping_rest (plain_bind b .closeConsumed trivial)
  · refine (keeping_rest ((uses_reconcileState ..).plain rfl)).bind fun _ => ?_
    exact hloop
  · refine (keeping_rest (plain_handleEvent ..)).bind fun r => ?_
    split
    · exact hloop
    · exact keeping_rest (plain_bind b .closeConsumed trivial)

/-! ## The startup reconcile -/

theorem keeping_create_restarted (claimName : String) (pod : ℕ) (syncing : Bool)
    (turns : List String) :
    Keeping cfg t (Restarted t) (onBinding t (.create claimName pod syncing turns))
      fun _ => Restarted t := by
  refine .perform lasting_restarted.stable ?_ ?_
  · exact fun m hinv _ hm => ⟨rfl, hinv.holds_live hm.1⟩
  · intro m c r m' hinv _ hm _ hdo _
    cases hdo
    exact ⟨hinv.holds_setBind hm.1 _, hm.2⟩

theorem keeping_closeReady_restarted :
    Keeping cfg t (Restarted t) (onBinding t .closeReady) fun _ => Restarted t := by
  refine .perform lasting_restarted.stable ?_ ?_
  · intro m hinv _ hm
    refine ⟨rfl, fun hl => ?_⟩
    rw [hinv.holds_live hm.1] at hl
    cases hl
  · intro m c r m' hinv _ hm _ hdo _
    cases hdo
    exact ⟨hinv.holds_setBind hm.1 _, hm.2⟩

/-- An adoption that did not register still holds the session. -/
def AdoptLeft (t : ℕ) (adopted : Bool) (m : Mem) : Prop := adopted = false → Restarted t m

theorem adoptPod_keeps (sess : Row) (pod : ℕ) (turns : List String) :
    Keeping cfg t (Restarted t) (adoptPod sess pod turns) (AdoptLeft t) := by
  refine (keeping_self lasting_restarted).bind fun n => .of_fact ?_
  rintro rfl
  refine (keeping_create_restarted ..).bind fun _ => ?_
  refine keeping_closeReady_restarted.bind fun _ => ?_
  refine keeping_register_restarted.bind fun r => ?_
  split
  · have hdone : Keeping cfg n Anything
        (.spawn (.consume n) (.spawn (.watchRun n) (pure true)) : P Bool) (AdoptLeft n) := by
      refine .spawn lasting_anything.stable (fun _ _ _ _ _ _ => trivial) ?_
      refine .spawn lasting_anything.stable (fun _ _ _ _ _ _ => trivial) ?_
      exact .ret fun _ _ _ h => by cases h
    exact hdone.of_imp fun _ _ _ => trivial
  · rename_i hr
    have hclose : Keeping cfg n (Restarted n) (onBinding n .closeConsumed) fun _ => Restarted n :=
      keeping_plain lasting_restarted (plain_bind n .closeConsumed trivial)
    refine (hclose.of_imp fun _ _ hm => hm (by simpa using hr)).bind fun _ => ?_
    refine (keeping_plain lasting_restarted (plain_bind n .closeSession trivial)).bind fun _ => ?_
    exact .ret fun _ _ hm _ => hm

theorem adopt_keeps (sess : Row) : Keeping cfg t (Restarted t) (adopt sess) (AdoptLeft t) := by
  have hno : Keeping cfg t (Restarted t) (pure false : P Bool) (AdoptLeft t) :=
    .ret fun _ _ h _ => h
  unfold adopt
  split
  · exact hno
  · split
    · exact hno
    · refine (keeping_plain (p := store .listCommands) lasting_restarted (.perform trivial)).bind
        fun r => ?_
      split
      · exact hno
      · refine (keeping_plain lasting_restarted (plain_ext _)).bind fun r => ?_
        split
        · exact adoptPod_keeps ..
        · exact hno

theorem interrupt_keeps (sess : Row) :
    Keeping cfg t (Restarted t) (interrupt sess) fun _ => Synced .holding t := by
  have hend : Keeping cfg t (Restarted t) (endSession sess.status .interrupted
      "the harness restarted while this session was live") fun _ => Synced .holding t :=
    (keeping_end ..).of_imp fun _ _ hm => hm.writes _ _
  unfold interrupt
  dsimp only
  split
  · refine (keeping_plain lasting_restarted (plain_ext _)).bind fun ok => ?_
    split
    · exact hend
    · exact .ret fun _ _ hm => hm.synced
  · exact hend

theorem reconcile_keeps : Keeping cfg t Anything reconcile fun _ => Anything := by
  have hstart : Keeping cfg t Anything (note .reconciling) fun _ m => m.faulty = true := by
    refine .perform lasting_anything.stable (fun _ _ _ _ => trivial) ?_
    intro m c r m' _ _ _ _ hdo hinv'
    simp only [system, perform, Option.map_eq_some_iff] at hdo
    obtain ⟨n, hn, heq⟩ := hdo
    cases heq
    simp only [NoteOp.perform] at hn
    split at hn
    · cases hn
      exact hinv'.boot fun hb => by cases hb
    · cases hn
  have hfaulty : Lasting t fun m => m.faulty = true := fun _ _ hk h => hk.faulty h
  have hlook : Keeping cfg t (fun m => m.faulty = true) getSession fun r m =>
      ∀ row, r = some row → RowSeen m ∧ m.faulty = true := by
    refine .perform hfaulty.stable (fun _ _ _ _ => trivial) ?_
    intro m c r m' _ _ hm _ hdo _ row hr
    change StoreOp.perform t m c .getSession = some (r, m') at hdo
    simp only [StoreOp.perform] at hdo
    split at hdo <;> cases hdo
    · exact ⟨by unfold RowSeen; rw [hr]; rfl, hm⟩
    · cases hr
  refine hstart.bind fun _ => hlook.bind fun r => ?_
  split
  · exact note_keeps _
  · rename_i sess
    split
    · exact note_keeps _
    · refine ((keeping_claim_restarted false).of_imp fun _ _ hm => hm sess rfl).bind fun r => ?_
      split
      · rename_i hr
        have hadopt : Keeping cfg t (Restarted t)
            (if sess.status = .running then adopt sess else pure false : P Bool) (AdoptLeft t) := by
          split
          · exact adopt_keeps sess
          · exact .ret fun _ _ hm _ => hm
        refine (hadopt.of_imp fun _ _ hm => hm hr).bind fun adopted => ?_
        split
        · exact note_keeps _
        · rename_i ha
          refine ((interrupt_keeps sess).of_imp fun _ _ hm => hm (by simpa using ha)).bind
            fun _ => ?_
          exact keeping_settle .up
      · exact note_keeps _

/-! ## Every run -/

theorem code_keeps (e : Entry) :
    Keeping cfg t ((ledger cfg).entry t e) (code cfg e) fun _ => Anything := by
  cases e with
  | createSession templateSpec approvalPrompt initialPrompt => exact createSession_keeps ..
  | prompt content => exact prompt_keeps content
  | endSession reason => exact callEndSession_keeps reason
  | respondPermission requestId optionId =>
    exact keeping_rest ((uses_respondPermission ..).plain rfl)
  | expirePermission b requestId => exact keeping_rest ((uses_expirePermission ..).plain rfl)
  | supervise o cause => exact stopOf_keeps ..
  | stop o spec => exact stopOf_keeps ..
  | settle after => exact (settle_keeps after).of_imp fun _ _ hm => synced_iff.mpr hm
  | consume b => exact consume_keeps b
  | watchRun b => exact watchRun_keeps b
  | reportStall waited => exact keeping_rest (plain_emit _ ⟨rfl, rfl⟩)
  | sweepIdle => exact sweepIdle_keeps
  | sweepSuspended => exact sweepSuspended_keeps
  | sweepAbsolute => exact sweepAbsolute_keeps
  | reconcile => exact reconcile_keeps

theorem ledger_lawful : (ledger cfg).Lawful where
  inv_act h hgiven hpre hok hdo := h.act cfg hgiven hpre hok hdo
  inv_env h _ hdo := h.env hdo
  inv_crash h _ := h.crash
  fresh_other _ _ _ := trivial
  fresh_crash _ _ _ := trivial
  entry_start {_ e _} _ _ _ hopen := by
    cases e with
    | settle after => cases hopen
    | _ => trivial
  entry_safe hinv h := (code_keeps _).safe hinv h

theorem ledgerInv_init : LedgerInv init.mem where
  slot := slot_inv_empty
  ends := by
    refine ⟨nofun, fun _ _ he => ?_, fun ht => ?_⟩
    · cases he
    · cases ht
  absent _ := ⟨rfl, rfl, rfl⟩
  created hc := absurd rfl hc
  activating u hu := by cases hu.1
  victim t b ht := by cases ht
  chained _ := chained_nil
  rest _ hr := by cases hr
  boot hb := absurd rfl hb

/-- The ledger is in order in every run of orderly steps. -/
theorem ledger_good {s : Config sig Mem} (h : Reach (system cfg).step (ledger cfg).ok init s) :
    (ledger cfg).Good s := by
  refine ledger_lawful.sound ?_ ?_ h
  · exact ⟨ledgerInv_init, fun t _ => ⟨trivial, rfl⟩, fun t p hp => by cases hp⟩
  · intro s hs t op k ht
    exact (protocol_good (hs.mono fun _ _ _ => trivial)).pre ht trivial

end AgentOps.Service
