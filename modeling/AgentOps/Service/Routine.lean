import AgentOps.Lib.Discipline
import AgentOps.Service.Quiet

/-!
# Routines

The programs share one outline: a thread is idle, takes the session, works on it, and either
registers a binding or leaves the session through `settle`. A discipline that only cares about
the functions of the owner map says what it needs for each of them (`Routine`), and the
programs follow.
-/

namespace AgentOps.Service

open AgentOps.Api AgentOps.Link AgentOps.Lib

variable {σ : Type} {M : System sig σ Choice EnvStep} {D : Discipline M} {t : ℕ} {α : Type}

/-- Quiet programs of thread `t` are safe while `A` holds, and keep it. -/
structure Undisturbed (D : Discipline M) (t : ℕ) (A : σ → Prop) : Prop where
  stable : D.Stable t A
  pre : ∀ (op : Op) (m : σ), op.offSlot → D.inv m → D.given t op m → A m → D.pre t op m
  post : ∀ (op : Op) (m : σ) (c : Choice) (r : op.Res) (m' : σ), op.offSlot → D.inv m →
    D.given t op m → A m → D.allow t op m c → M.perform t op m c = some (r, m') → D.inv m' → A m'
  spawn : ∀ (e : Entry) (m : σ) (u : ℕ), unsettled e → D.inv m → A m → u ≠ t → D.fresh u m →
    D.entry u e m
  same : ∀ (e : Entry) (u : ℕ) (m : σ), unsettled e → M.started (some t) e u m = m := by
    exact fun _ _ _ _ => rfl
  give : ∀ (e : Entry) (m : σ), unsettled e → D.handover t e m := by exact fun _ _ _ => trivial

theorem Undisturbed.quiet {A : σ → Prop} (hA : Undisturbed D t A) {p : P α} (hp : Quiet p) :
    D.Triple t A p fun _ => A :=
  .of_bounded hA.stable hA.pre hA.post hA.spawn (fun _ _ he => he.elim) hp hA.same hA.give

/-- The number that a thread knows itself by. -/
theorem Undisturbed.self {A : σ → Prop} (hA : Undisturbed D t A)
    (hself : ∀ m c r m', M.perform t (.ext .self) m c = some (r, m') → r = t) :
    D.Triple t A (ext .self) fun n m => n = t ∧ A m := by
  refine .perform hA.stable (fun m => hA.pre _ m trivial) ?_
  intro m c r m' hinv hg hm hok hdo hinv'
  exact ⟨hself m c r m' hdo, hA.post (.ext .self) m c r m' trivial hinv hg hm hok hdo hinv'⟩

/-- What a discipline has to say about the outline of the programs of thread `t`: `I` holds
before it takes the session, `H` while it may register a binding, `L` until it gives the
session up, and `A` all along. -/
structure Routine (cfg : Settings) (D : Discipline M) (t : ℕ) (I H L A : σ → Prop) : Prop where
  all : Undisturbed D t A
  idle : Undisturbed D t I
  held : Undisturbed D t H
  left : Undisturbed D t L
  leave : ∀ m, H m → L m
  ofIdle : ∀ m, I m → A m
  ofLeft : ∀ m, L m → A m
  self : ∀ m c r m', M.perform t (.ext .self) m c = some (r, m') → r = t
  claim : D.Triple t I (slot (.claim false)) fun _ => H
  register : D.Triple t H (slot .register) fun r m => A m ∧ (r = false → L m)
  failLaunch : ∀ sess opts claimName reason detail,
    D.Triple t L (failLaunch sess opts claimName reason detail) fun _ => L
  stop : ∀ want spec, D.Triple t I (stop cfg want spec) fun _ _ => True
  settle : ∀ after m, (∀ stopped, after ≠ .answer stopped) → D.inv m → L m →
    D.entry t (.settle after) m
  loop : ∀ e m, unsettled e → D.inv m → I m → D.entry t e m

namespace Routine

variable {cfg : Settings} {I H L A : σ → Prop} (h : Routine cfg D t I H L A)

/-- What a part of a launch leaves behind: it registered, or it can give the session up. -/
def Left (A L : σ → Prop) (registered : Bool) (m : σ) : Prop := A m ∧ (registered = false → L m)

include h

/-- A quiet program after which the thread is done. -/
theorem rest {B : σ → Prop} (hB : ∀ m, B m → A m) {p : P α} (hp : Quiet p) :
    D.Triple t B p fun _ _ => True :=
  (h.all.quiet hp).conseq (fun m _ => hB m) fun _ _ _ _ => trivial

theorem rest_idle {p : P α} (hp : Quiet p) : D.Triple t I p fun _ _ => True := h.rest h.ofIdle hp

omit h in
/-- The thread is done. -/
theorem done {B : σ → Prop} (a : α) : D.Triple t B (pure a) fun _ _ => True :=
  .ret fun _ _ _ => trivial

theorem settle_left (after : After) (ha : ∀ stopped, after ≠ .answer stopped)
    {Q : α → σ → Prop} : D.Triple t L (.jump (.settle after)) Q :=
  .jump h.left.stable fun m hinv => h.settle after m ha hinv

theorem settle_held {Q : α → σ → Prop} : D.Triple t H (.jump (.settle .nothing)) Q :=
  (h.settle_left .nothing nofun).of_imp fun m _ => h.leave m

/-! ## Launches -/

/-- A launch that fails here can give the session up. -/
theorem fail {p : P Unit} (hp : D.Triple t L p fun _ => L) :
    D.Triple t H (p >>= fun _ => pure false) (Left A L) := by
  refine (hp.of_imp fun m _ => h.leave m).bind fun _ => ?_
  exact .ret fun m _ hm => ⟨h.ofLeft m hm, fun _ => hm⟩

theorem bindSession (sess : Row) (opts : LaunchOpts) (claimName sandboxName : String)
    (ready : String × ℕ) :
    D.Triple t H (bindSession t sess opts claimName sandboxName ready) (Left A L) := by
  refine (h.held.quiet (quiet_bind t _)).bind fun _ => ?_
  refine (h.held.quiet ((uses_saveOpening t opts).quiet rfl)).bind fun opening => ?_
  refine h.register.bind fun r => ?_
  split
  · refine ((h.all.quiet (quiet_runRegistered ..)).of_imp fun _ _ hm => hm.1).bind fun _ => ?_
    exact .ret fun _ _ hm => ⟨hm, nofun⟩
  · rename_i hr
    have hclose : D.Triple t (fun m => A m ∧ (r = false → L m)) (onBinding t .closeConsumed)
        fun _ => L :=
      (h.left.quiet (quiet_bind t _)).of_imp fun _ _ hm => hm.2 (by simpa using hr)
    refine hclose.bind fun _ => ?_
    refine (h.left.quiet (quiet_bind t _)).bind fun _ => ?_
    refine (h.failLaunch ..).bind fun _ => ?_
    refine (h.left.quiet (quiet_bind t _)).bind fun _ => ?_
    exact .ret fun m _ hm => ⟨h.ofLeft m hm, fun _ => hm⟩

theorem activateFailed (sess : Row) (opts : LaunchOpts) (claimName : String) (err : ActivateError) :
    D.Triple t L (activateFailed sess opts claimName err) fun _ => L := by
  have hfail : D.Triple t L (do
      let failure := activateFailure err (← ext .outcome)
      Service.failLaunch sess opts claimName failure.1 failure.2) fun _ => L :=
    (h.left.quiet (quiet_ext _)).bind fun _ => h.failLaunch ..
  unfold Service.activateFailed
  dsimp only
  split
  · refine (h.left.quiet (p := slot .stopped) (.perform trivial)).bind fun r => ?_
    split
    · exact hfail
    · exact h.left.quiet ((uses_failRevive ..).quiet rfl)
  · exact hfail

theorem activateAndRun (sess : Row) (opts : LaunchOpts) (claimName sandboxName : String) :
    D.Triple t H (activateAndRun sess opts claimName sandboxName) (Left A L) := by
  -- the thread's own number is the one that it registers under
  refine (h.held.self h.self).bind fun n => .of_fact ?_
  rintro rfl
  refine (h.held.quiet (quiet_ext _)).bind fun r => ?_
  split
  · refine (h.held.quiet (quiet_ext _)).bind fun r => ?_
    split
    · exact h.bindSession ..
    · exact h.fail (h.activateFailed ..)
  · exact h.fail (h.activateFailed ..)

theorem launchRun (sess : Row) (opts : LaunchOpts) (claimName sandboxName : String) :
    D.Triple t H (launchRun sess opts claimName sandboxName) (Left A L) := by
  refine (h.held.quiet (quiet_ext _)).bind fun r => ?_
  split
  · exact h.fail (h.failLaunch ..)
  · refine (h.held.quiet (quiet_ext _)).bind fun r => ?_
    split
    · refine (h.held.quiet (quiet_write (quiet_store _))).bind fun r => ?_
      split
      · refine (h.held.quiet (quiet_emit ..)).bind fun _ => ?_
        refine (h.held.quiet (quiet_emit ..)).bind fun _ => ?_
        exact h.activateAndRun ..
      · exact h.fail (h.failLaunch ..)
    · exact h.fail (h.failLaunch ..)

theorem launchSession (sess : Row) (opts : LaunchOpts) :
    D.Triple t H (launchSession sess opts) (Left A L) := by
  unfold Service.launchSession
  split
  · refine (h.held.quiet ((uses_beginLaunch ..).quiet rfl)).bind fun r => ?_
    split
    · refine (h.held.quiet ((uses_workspace ..).quiet rfl)).bind fun r => ?_
      split
      · exact h.fail (h.failLaunch ..)
      · refine (h.held.quiet (quiet_write (quiet_store _))).bind fun r => ?_
        split
        · exact h.launchRun ..
        · exact h.fail (h.failLaunch ..)
    · exact h.fail (h.failLaunch ..)
  · refine (h.held.quiet (quiet_endSession ..)).bind fun _ => ?_
    exact .ret fun m _ hm => ⟨h.ofLeft m (h.leave m hm), fun _ => h.leave m hm⟩

theorem launchBody (opts : LaunchOpts) : D.Triple t H (launchBody opts) (Left A L) := by
  refine (h.held.quiet (quiet_store _)).bind fun r => ?_
  split
  · exact h.fail (h.left.quiet ((uses_failTurn ..).quiet rfl))
  · refine (h.held.quiet (p := slot .stopped) (.perform trivial)).bind fun r => ?_
    split
    · exact h.fail (h.failLaunch ..)
    · split
      · refine (h.held.quiet (uses_nextTurn.quiet rfl)).bind fun r => ?_
        split
        · exact h.fail (h.failLaunch ..)
        · refine (h.held.quiet (quiet_note (.accepted _) trivial)).bind fun _ => ?_
          exact h.launchSession ..
      · exact h.launchSession ..

theorem launch (opts : LaunchOpts) : D.Triple t H (launch opts) fun _ _ => True := by
  refine (h.launchBody opts).bind fun r => ?_
  split
  · refine ((h.all.quiet (quiet_ext _)).of_imp fun _ _ hm => hm.1).bind fun n => ?_
    exact h.rest (fun _ hm => hm) ⟨fun _ => Entry.noConfusion, trivial⟩
  · rename_i hr
    exact (h.settle_left .nothing nofun).of_imp fun _ _ hm => hm.2 (by simpa using hr)

/-! ## Calls -/

theorem createSession (hclaim : D.Triple t I (slot (.claim true)) fun _ => H)
    (templateSpec : TemplateSpec) (approvalPrompt initialPrompt : String) :
    D.Triple t I (createSession templateSpec approvalPrompt initialPrompt) fun _ _ => True := by
  refine (h.idle.quiet (quiet_store _)).bind fun r => ?_
  split
  · refine hclaim.bind fun _ => ?_
    refine (h.held.quiet (quiet_emit ..)).bind fun _ => ?_
    exact h.launch _
  · exact done _

theorem promptSuspended (hclaim : D.Triple t I (slot (.claim true)) fun _ => H)
    (content : String) : D.Triple t I (promptSuspended content) fun _ _ => True := by
  refine hclaim.bind fun r => ?_
  split
  · refine (h.held.quiet (quiet_store _)).bind fun r => ?_
    split
    · exact h.settle_held
    · split
      · exact h.settle_held
      · refine (h.held.quiet (uses_nextTurn.quiet rfl)).bind fun r => ?_
        split
        · exact h.settle_held
        · refine (h.held.quiet (quiet_note (.accepted _) trivial)).bind fun _ => ?_
          exact h.launch _
  · exact done _

theorem prompt (hclaim : D.Triple t I (slot (.claim true)) fun _ => H) (content : String) :
    D.Triple t I (prompt content) fun _ _ => True := by
  refine (h.idle.quiet (quiet_store _)).bind fun r => ?_
  split
  · exact done _
  · split
    · refine (h.idle.quiet (p := slot .lookup) (.perform trivial)).bind fun r => ?_
      split
      · exact done _
      · exact h.rest_idle ((uses_promptRunning ..).quiet rfl)
    · split
      · exact h.promptSuspended hclaim content
      · exact done _

theorem respondPermission (requestId optionId : String) :
    D.Triple t I (respondPermission requestId optionId) fun _ _ => True := by
  exact h.rest_idle ((uses_respondPermission ..).quiet rfl)

/-! ## Watchers and sweeps -/

theorem watchRun (b : ℕ) : D.Triple t I (watchRun cfg b) fun _ _ => True := by
  refine (h.idle.quiet (quiet_bind b _)).bind fun r => ?_
  split
  · exact done _
  · refine (h.idle.quiet (quiet_ext _)).bind fun r => ?_
    split
    · exact h.stop ..
    · split
      · exact h.stop ..
      · split
        · exact h.stop ..
        · exact .jump h.idle.stable fun m => h.loop (.watchRun b) m nofun

theorem sweepIdle : D.Triple t I (sweepIdle cfg) fun _ _ => True := by
  unfold Service.sweepIdle
  split
  · exact done _
  · refine (h.idle.quiet (p := slot .lookup) (.perform trivial)).bind fun r => ?_
    split
    · exact done _
    · rename_i b
      refine (h.idle.quiet (quiet_bind b _)).bind fun idle => ?_
      split
      · exact h.stop ..
      · split
        · refine (h.idle.quiet (quiet_bind b _)).bind fun r => ?_
          split
          · exact h.rest_idle (quiet_emit ..)
          · exact done _
        · exact done _

theorem sweepSuspended : D.Triple t I (sweepSuspended cfg) fun _ _ => True := by
  unfold Service.sweepSuspended
  split
  · exact done _
  · refine (h.idle.quiet (quiet_store _)).bind fun r => ?_
    split
    · exact done _
    · refine (h.idle.quiet (quiet_ext _)).bind fun now => ?_
      split
      · refine h.claim.bind fun r => ?_
        split
        · refine (h.held.quiet ((uses_releaseClaimed cfg).quiet rfl)).bind fun _ => ?_
          exact h.settle_held
        · exact done _
      · exact done _

theorem sweepAbsolute : D.Triple t I (sweepAbsolute cfg) fun _ _ => True := by
  unfold Service.sweepAbsolute
  split
  · exact done _
  · refine (h.idle.quiet (quiet_store _)).bind fun r => ?_
    split
    · exact done _
    · refine (h.idle.quiet (quiet_ext _)).bind fun now => ?_
      split
      · exact done _
      · exact h.stop ..

theorem consume (b : ℕ) : D.Triple t I (consume cfg b) fun _ _ => True := by
  have hloop : D.Triple t I (Prog.jump (.consume b) : P Unit) fun _ _ => True :=
    .jump h.idle.stable fun m => h.loop (.consume b) m nofun
  refine (h.idle.quiet (quiet_bind b _)).bind fun r => ?_
  split
  · exact h.rest_idle (quiet_bind b _)
  · refine (h.idle.quiet ((uses_reconcileState ..).quiet rfl)).bind fun _ => ?_
    exact hloop
  · refine (h.idle.quiet (quiet_of_plain (plain_handleEvent ..))).bind fun r => ?_
    split
    · exact hloop
    · exact h.rest_idle (quiet_bind b _)

/-! ## The startup reconcile -/

theorem adoptPod (sess : Row) (pod : ℕ) (turns : List String) :
    D.Triple t H (adoptPod sess pod turns) (Left A L) := by
  refine (h.held.quiet (quiet_ext _)).bind fun n => ?_
  refine (h.held.quiet (quiet_bind n _)).bind fun _ => ?_
  refine (h.held.quiet (quiet_bind n _)).bind fun _ => ?_
  refine h.register.bind fun r => ?_
  split
  · have hdone : Quiet (.spawn (.consume n) (.spawn (.watchRun n) (pure ())) : P Unit) :=
      ⟨fun _ => Entry.noConfusion, fun _ => Entry.noConfusion, trivial⟩
    have hall := (h.all.quiet hdone).bind fun _ =>
      (.ret fun _ _ hm => ⟨hm, nofun⟩ : D.Triple t A (pure true) (Left A L))
    exact hall.of_imp fun _ _ hm => hm.1
  · rename_i hr
    have hclose : D.Triple t (fun m => A m ∧ (r = false → L m)) (onBinding n .closeConsumed)
        fun _ => L :=
      (h.left.quiet (quiet_bind n _)).of_imp fun _ _ hm => hm.2 (by simpa using hr)
    refine hclose.bind fun _ => ?_
    refine (h.left.quiet (quiet_bind n _)).bind fun _ => ?_
    exact .ret fun m _ hm => ⟨h.ofLeft m hm, fun _ => hm⟩

theorem adopt (sess : Row) : D.Triple t H (adopt sess) (Left A L) := by
  have hno : D.Triple t H (pure false : P Bool) (Left A L) :=
    .ret fun m _ hm => ⟨h.ofLeft m (h.leave m hm), fun _ => h.leave m hm⟩
  unfold Service.adopt
  split
  · exact hno
  · split
    · exact hno
    · refine (h.held.quiet (quiet_store _)).bind fun r => ?_
      split
      · exact hno
      · refine (h.held.quiet (quiet_ext _)).bind fun r => ?_
        split
        · exact h.adoptPod ..
        · exact hno

theorem reconcileClaimed (sess : Row) :
    D.Triple t H (reconcileClaimed sess) fun _ _ => True := by
  have hadopt : D.Triple t H
      (if sess.status = .running then Service.adopt sess else pure false : P Bool) (Left A L) := by
    split
    · exact h.adopt sess
    · exact .ret fun m _ hm => ⟨h.ofLeft m (h.leave m hm), fun _ => h.leave m hm⟩
  refine hadopt.bind fun r => ?_
  split
  · exact h.rest (fun _ hm => hm.1) (quiet_note .up trivial)
  · rename_i hr
    refine ((h.left.quiet ((uses_interrupt sess).quiet rfl)).of_imp fun _ _ hm =>
      hm.2 (by simpa using hr)).bind fun _ => ?_
    exact h.settle_left .up nofun

theorem reconcile : D.Triple t I reconcile fun _ _ => True := by
  refine (h.idle.quiet (quiet_note .reconciling trivial)).bind fun _ => ?_
  refine (h.idle.quiet (quiet_store _)).bind fun r => ?_
  split
  · exact h.rest_idle (quiet_note .up trivial)
  · split
    · exact h.rest_idle (quiet_note .up trivial)
    · refine h.claim.bind fun r => ?_
      split
      · exact h.reconcileClaimed _
      · exact h.rest (fun m hm => h.ofLeft m (h.leave m hm)) (quiet_note .up trivial)

/-- The programs that launch nothing, but for `settle` and `EndSession`, whose answers a
discipline looks at itself. -/
theorem unlaunched {e : Entry} (he : unsettled e) (hend : ∀ reason, e ≠ .endSession reason)
    (hcreate : ∀ templateSpec approvalPrompt initialPrompt,
      e ≠ .createSession templateSpec approvalPrompt initialPrompt)
    (hprompt : ∀ content, e ≠ .prompt content) : D.Triple t I (code cfg e) fun _ _ => True := by
  cases e with
  | createSession templateSpec approvalPrompt initialPrompt => exact absurd rfl (hcreate _ _ _)
  | prompt content => exact absurd rfl (hprompt content)
  | endSession reason => exact absurd rfl (hend reason)
  | respondPermission requestId optionId => exact h.respondPermission ..
  | expirePermission b requestId => exact h.rest_idle ((uses_expirePermission ..).quiet rfl)
  | supervise o cause => exact h.stop ..
  | stop o spec => exact h.stop ..
  | settle after => exact absurd rfl (he after)
  | consume b => exact h.consume b
  | watchRun b => exact h.watchRun b
  | reportStall waited => exact h.rest_idle (quiet_emit ..)
  | sweepIdle => exact h.sweepIdle
  | sweepSuspended => exact h.sweepSuspended
  | sweepAbsolute => exact h.sweepAbsolute
  | reconcile => exact h.reconcile

/-- Every program but `settle` and `EndSession`. -/
theorem code (hclaim : D.Triple t I (slot (.claim true)) fun _ => H) {e : Entry} (he : unsettled e)
    (hend : ∀ reason, e ≠ .endSession reason) : D.Triple t I (code cfg e) fun _ _ => True := by
  cases e with
  | createSession templateSpec approvalPrompt initialPrompt => exact h.createSession hclaim ..
  | prompt content => exact h.prompt hclaim content
  | _ => exact h.unlaunched he hend nofun nofun

end Routine

end AgentOps.Service
