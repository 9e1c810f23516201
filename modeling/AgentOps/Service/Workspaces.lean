import AgentOps.Service.Standing

/-!
# The workspace of a session

A launch prepares a workspace and records its claim in the row; a stop tears it down before it
ends the session. An observer writes down which claims are torn down, which thread's last call
was a `Teardown` that failed, and which thread reconciles after a restart.

The discipline: a thread ends the session only when the recorded claim is torn down, a launch
registers only the recorded claim, and a workspace is brought up only by the thread that may
write the session. It builds on the ledger, and considers the runs in which a thread whose
`Teardown` failed can read what the session records.
-/

namespace AgentOps.Service

open AgentOps.Api AgentOps.Link AgentOps.Lib

variable {kinds : List Kind}

/-! ## The observer -/

/-- What is written down of the workspaces of a session. -/
structure Account where
  /-- A `Teardown` of the claim has succeeded, after the last `Prepare` or `Revive` of it. -/
  torn : String → Bool := fun _ => false
  /-- The last call of the thread was a `Teardown` that failed. -/
  refused : ℕ → Bool := fun _ => false
  /-- The thread of the startup reconcile. -/
  reconciler : Option ℕ := none

/-- The claims that are torn down after an operation. -/
def tornAfter (torn : String → Bool) : (op : Op) → op.Res → String → Bool
  | .ext .prepare, r => match r with
    | some w => Function.update torn w.1 false
    | none => torn
  | .ext (.revive claimName), _ => Function.update torn claimName false
  | .ext (.teardown claimName), r => if r = true then Function.update torn claimName true else torn
  | _, _ => torn

/-- A `Teardown` that failed. -/
def refusal : (op : Op) → op.Res → Bool
  | .ext (.teardown _), r => !r
  | _, _ => false

def workspaceCalls : Observer sig Mem EnvStep Account where
  act t op r _ g :=
    { torn := tornAfter g.torn op r
      refused := Function.update g.refused t (refusal op r)
      reconciler := if op = .note .reconciling then some t else g.reconciler }
  crash g := { torn := g.torn }

/-- The service of one session, with its workspaces. -/
def housed (cfg : Settings) : System sig (Mem × Account) Choice EnvStep :=
  (system cfg).observe workspaceCalls

def housedInit : Config sig (Mem × Account) where
  mem := ({}, {})

/-! ## The discipline -/

/-- The claim that the row records. -/
def Mem.claim (m : Mem) : String := (m.db.row.map Row.sandboxClaimName).getD ""

variable {m m' : Mem} {A : Mem × Account → Prop}

/-- The template of the row can be read. -/
def Mem.readable (m : Mem) : Bool := m.db.row.any storedTemplate

/-- Nobody is bound to the session, and nobody was since the process started. -/
def Unbound (m : Mem) : Prop := ∀ b, (m.slot.owners b).live = false

/-- The row records no workspace, or one that is torn down. -/
def Cleared (x : Mem × Account) : Prop := x.1.claim = "" ∨ x.2.torn x.1.claim = true

/-- The thread is the startup reconcile. -/
def Rising (t : ℕ) (x : Mem × Account) : Prop := x.2.reconciler = some t

/-- The process serves. -/
def Up (x : Mem × Account) : Prop := x.1.boot = .up

/-- The invariant of the workspaces. -/
structure WorkspaceInv (x : Mem × Account) : Prop where
  /-- Only a session whose template can be read got a workspace. -/
  readable : x.1.claim ≠ "" → x.1.readable = true
  /-- Every binding is to the recorded workspace. -/
  bound : ∀ b, (x.1.slot.owners b).live = true → (x.1.binds b).claimName = x.1.claim
  unborn : x.1.db.row = none → Unbound x.1
  down : x.1.boot = .down → x.1.slot.entry = none
  risen : ∀ t, Rising t x → x.1.boot ≠ .down

/-- What a thread promises. -/
def workspacePre (t : ℕ) (op : Op) (x : Mem × Account) : Prop :=
  match op with
  | .slot (.claim _) => Up x ∨ Rising t x
  | .slot (.detach none _) => Up x
  | .slot .register => (x.1.binds t).claimName = x.1.claim
  | .store (.update (.sandbox claimName _ _)) =>
    x.1.readable = true ∧ (claimName = x.1.claim ∨ Unbound x.1)
  | .store (.finishSession _ _) => Cleared x
  | .ext .prepare | .ext (.revive _) => Writer t x.1
  | .note .up => Rising t x
  | _ => True

/-- The read of a thread whose `Teardown` failed succeeds. -/
def checked (t : ℕ) (op : Op) (g : Account) (c : Choice) : Prop :=
  match op with
  | .store .getSession => g.refused t = true → c.ok = true
  | _ => True

/-- The read of the session. -/
def Op.readsSession : Op → Bool
  | .store .getSession => true
  | _ => false

theorem checked_iff {t : ℕ} {op : Op} {g : Account} {c : Choice} :
    (op.readsSession = true → g.refused t = true → c.ok = true) ↔ checked t op g c := by
  unfold Op.readsSession checked
  split <;> simp

instance (t : ℕ) (op : Op) (g : Account) (c : Choice) : Decidable (checked t op g c) :=
  decidable_of_iff _ checked_iff

/-- What holds when a program starts. -/
def workspaceEntry (t : ℕ) (e : Entry) (x : Mem × Account) : Prop :=
  match e with
  | .settle after => Holds t x.1 ∧ (after = .up → Rising t x)
  | .createSession .. | .prompt _ | .endSession _ | .sweepSuspended | .sweepAbsolute => Up x
  | _ => True

/-- The discipline of the workspaces. -/
def workspaces (cfg : Settings) : Discipline (housed cfg) where
  inv := WorkspaceInv
  pre := workspacePre
  entry := workspaceEntry
  fresh _ _ := True
  given t op x := Standing cfg t op x.1
  allow t op x c := orderly t op x.1 ∧ checked t op x.2 c

variable {cfg : Settings} {t u : ℕ} {x x' : Mem × Account} {op : Op} {c : Choice} {r : op.Res}

theorem housed_perform (h : (housed cfg).perform t op x c = some (r, x')) :
    perform t op x.1 c = some (r, x'.1) ∧ x'.2 = workspaceCalls.act t op r x.1 x.2 :=
  System.observe_perform h

/-! ## Steps -/

theorem claim_eq_kept (m : Mem) : m.claim = (m.kept.map fun k => k.2.1).getD "" := by
  unfold Mem.claim Mem.kept
  rw [Option.map_map]
  rfl

theorem readable_eq_kept (m : Mem) :
    m.readable = (m.kept.map fun k => storedTemplate { templateSpec := k.2.2.2.2 }).getD false := by
  unfold Mem.readable Mem.kept
  cases m.db.row <;> rfl

/-- The operation leaves the recorded workspace, the bindings and the start of the process as
they are. -/
def Op.outside : Op → Prop
  | .slot .register | .store (.createSession _) | .store (.update (.sandbox ..)) | .ext .prepare
  | .ext (.revive _) | .bind _ (.create ..) | .bind _ .closeReady | .note .reconciling
  | .note .up => False
  | _ => True

/-- What a thread that may write the session can rely on. -/
structure Sheltered (t : ℕ) (x x' : Mem × Account) : Prop where
  claim : x'.1.claim = x.1.claim
  readable : x'.1.readable = x.1.readable
  torn : ∀ claimName, x.2.torn claimName = true → x'.2.torn claimName = true
  live : ∀ b, (x'.1.slot.owners b).live = (x.1.slot.owners b).live
  own : (x'.1.binds t).claimName = (x.1.binds t).claimName
  ready : (x'.1.binds t).ready = (x.1.binds t).ready
  up : Up x → Up x'
  rising : Rising t x → Rising t x'

theorem Sheltered.cleared (h : Sheltered t x x') (hx : Cleared x) : Cleared x' := by
  unfold Cleared
  rw [h.claim]
  exact hx.imp id (h.torn _)

theorem tornAfter_mono (hop : op.outside) {torn : String → Bool} {claimName : String}
    (h : torn claimName = true) : tornAfter torn op r claimName = true := by
  unfold tornAfter
  split
  · exact hop.elim
  · exact hop.elim
  · split
    · rename_i name _ _
      by_cases hn : claimName = name
      · rw [hn, Function.update_self]
      · rw [Function.update_of_ne hn]
        exact h
    · exact h
  · exact h

theorem perform_boot (hop : op ≠ .note .reconciling ∧ op ≠ .note .up)
    (h : perform t op m c = some (r, m')) : m'.boot = m.boot := by
  cases op with
  | note op =>
    cases op with
    | reconciling => exact absurd rfl hop.1
    | up => exact absurd rfl hop.2
    | _ => cases h; rfl
  | _ => exact (perform_unnoted (fun _ hn => by cases hn) h).1

theorem outside_kept {τ : Type} (f : ℕ × String × String × String × TemplateSpec → τ)
    (hf : ∀ k k' : ℕ × String × String × String × TemplateSpec,
      k.2.1 = k'.2.1 → k.2.2.2.2 = k'.2.2.2.2 → f k = f k') (hop : op.outside)
    (h : perform t op m c = some (r, m')) : m'.kept.map f = m.kept.map f := by
  refine perform_kept f ?_ ?_ h
  · rintro templateSpec rfl
    exact hop
  · rintro up rfl now row
    apply hf <;> cases up <;> first | exact hop.elim | rfl

/-- An operation outside the workspace leaves it as it is. -/
theorem sheltered_of_outside (hop : op.outside) (hst : Standing cfg u op x.1)
    (hok : orderly u op x.1) (hdo : (housed cfg).perform u op x c = some (r, x')) :
    Sheltered t x x' := by
  obtain ⟨hm, hg⟩ := housed_perform hdo
  have hboot : x'.1.boot = x.1.boot := by
    refine perform_boot ⟨?_, ?_⟩ hm <;> rintro rfl <;> exact hop
  constructor
  case claim =>
    rw [claim_eq_kept, claim_eq_kept, outside_kept _ (fun _ _ h _ => h) hop hm]
  case readable =>
    rw [readable_eq_kept, readable_eq_kept, outside_kept _ (fun _ _ _ h => by rw [h]) hop hm]
  case torn =>
    intro claimName h
    rw [hg]
    exact tornAfter_mono hop h
  case live =>
    refine hst.live hok ?_ hm
    rintro rfl
    exact hop
  case own =>
    refine perform_claimName ?_ hm t
    rintro b claimName pod syncing turns rfl
    exact hop
  case ready =>
    refine hst.ready hok ?_ ?_ hm t
    · rintro b claimName pod syncing turns rfl
      exact hop
    · rintro b rfl
      exact hop
  case up => exact fun h => hboot.trans h
  case rising =>
    intro h
    rw [Rising, hg]
    show (if _ then _ else _) = _
    rw [if_neg]
    · exact h
    · rintro rfl
      exact hop

/-- Nobody enters the owner map before the startup reconcile does. -/
theorem entry_stays (hpre : workspacePre u op x) (hup : ¬ Up x) (hrising : ¬ Rising u x)
    (he : x.1.slot.entry = none) (hdo : perform u op x.1 c = some (r, m')) :
    m'.slot.entry = none := by
  cases op with
  | slot op =>
    cases op with
    | claim cancel => exact (hpre.elim hup hrising).elim
    | detach want spec =>
      have hm : m' = (x.1.detach u want spec).2 := by rw [Option.some.inj hdo]
      cases want with
      | none => exact (hup hpre).elim
      | some o =>
        rw [hm, Mem.detach, if_pos ⟨rfl, by rw [he]; exact nofun⟩]
        exact he
    | register =>
      cases hdo
      show (x.1.slot.register u).2.entry = none
      rw [Slot.register, if_pos (.inl (by rw [he]; exact nofun))]
      exact he
    | finish =>
      cases hdo
      show (x.1.slot.finish u).2.entry = none
      unfold Slot.finish
      split
      · exact he
      · dsimp only
        split
        · rfl
        · exact he
    | _ => exact (perform_idle (by trivial) hdo).entry.trans he
  | store op => rw [StoreOp.perform_slot hdo, he]
  | ext op => rw [ExtOp.perform_slot hdo, he]
  | bind b op => rw [BindOp.perform_slot hdo, he]
  | note op => rw [note_slot hdo, he]

theorem createSession_cases {templateSpec : TemplateSpec} {r : Bool}
    (h : perform t (.store (.createSession templateSpec)) m c = some (r, m')) :
    r = false ∧ m' = m ∨ r = true ∧ m.db.row = none ∧ m'.claim = "" ∧ m'.slot = m.slot ∧
      m'.db.row ≠ none ∧ m'.creator = some t := by
  simp only [perform, StoreOp.perform] at h
  split at h <;> cases h
  · rename_i hok
    simp only [Bool.and_eq_true, Option.isNone_iff_eq_none] at hok
    exact .inr ⟨rfl, hok.2, rfl, rfl, fun hrow => (by cases hrow), rfl⟩
  · exact .inl ⟨rfl, rfl⟩

theorem sandbox_cases {claimName sandboxName : String} {status : SessionState} {r : Bool}
    (h : perform t (.store (.update (.sandbox claimName sandboxName status))) m c = some (r, m')) :
    r = false ∧ m' = m ∨ r = true ∧ m'.slot = m.slot ∧ m'.binds = m.binds ∧
      m'.readable = m.readable ∧ (m'.db.row = none ↔ m.db.row = none) ∧
      (m.db.row ≠ none → m'.claim = claimName) := by
  simp only [perform, StoreOp.perform] at h
  split at h <;> cases h
  · right
    cases hrow : m.db.row <;> simp [Mem.readable, Mem.claim, Db.update, hrow, Update.apply,
      Row.updateSandbox, storedTemplate]
  · exact .inl ⟨rfl, rfl⟩

theorem reconciling_down {r : Unit} (h : perform t (.note .reconciling) m c = some (r, m')) :
    m.boot = .down := by
  simp only [perform, NoteOp.perform] at h
  split at h
  · assumption
  · cases h

/-- Only the thread that may write the session changes its workspace. -/
theorem act_sheltered (hinv : WorkspaceInv x) (honly : ∀ v, Writer v x.1 → v = t)
    (hrow : x.1.db.row ≠ none) (hne : u ≠ t) (hst : Standing cfg u op x.1)
    (hpre : workspacePre u op x) (hok : orderly u op x.1)
    (hdo : (housed cfg).perform u op x c = some (r, x')) : Sheltered t x x' := by
  by_cases hop : op.outside
  · exact sheltered_of_outside hop hst hok hdo
  have hwriter (hw : Writer u x.1) : False := hne (honly u hw)
  obtain ⟨m, g⟩ := x'
  obtain ⟨hm, rfl⟩ := housed_perform hdo
  unfold Op.outside at hop
  split at hop
  · exact (hwriter (.inl hst.promise.1)).elim
  · obtain ⟨-, rfl⟩ | ⟨-, hnone, -⟩ := createSession_cases hm
    · exact ⟨rfl, rfl, fun _ h => h, fun _ => rfl, rfl, rfl, id, id⟩
    · exact absurd hnone hrow
  · exact (hwriter hst.promise.1).elim
  · exact (hwriter hpre).elim
  · exact (hwriter hpre).elim
  · obtain ⟨rfl, -⟩ := hst.promise
    cases hm
    refine ⟨rfl, rfl, fun _ h => h, fun _ => rfl, ?_, ?_, id, id⟩ <;> simp [hne.symm]
  · obtain ⟨rfl, -⟩ := hst.promise
    cases hm
    refine ⟨rfl, rfl, fun _ h => h, fun _ => rfl, ?_, ?_, id, id⟩ <;> simp [hne.symm]
  · have hstart := reconciling_down hm
    simp only [perform, NoteOp.perform, hstart] at hm
    cases hm
    refine ⟨rfl, rfl, fun _ h => h, fun _ => rfl, rfl, rfl, fun h => ?_, fun h => ?_⟩
    · rw [Up, hstart] at h
      cases h
    · exact absurd hstart (hinv.risen t h)
  · cases hm
    exact ⟨rfl, rfl, fun _ h => h, fun _ => rfl, rfl, rfl, fun _ => rfl, id⟩
  · exact absurd trivial hop

/-! ### The invariant -/

theorem outside_row (hop : op.outside) (h : perform t op m c = some (r, m'))
    (hnone : m'.db.row = none) : m.db.row = none := by
  have hkept := outside_kept (fun _ => ()) (fun _ _ _ _ => rfl) hop h
  unfold Mem.kept at hkept
  rw [hnone] at hkept
  simpa using hkept.symm

theorem WorkspaceInv.row_act (h : WorkspaceInv x) (hst : Standing cfg t op x.1)
    (hpre : workspacePre t op x) (hok : orderly t op x.1)
    (hdo : (housed cfg).perform t op x c = some (r, x')) :
    (x'.1.claim ≠ "" → x'.1.readable = true) ∧
    (∀ b, (x'.1.slot.owners b).live = true → (x'.1.binds b).claimName = x'.1.claim) ∧
    (x'.1.db.row = none → Unbound x'.1) := by
  have hm := (housed_perform hdo).1
  by_cases hop : op.outside
  · have hs (b : ℕ) : Sheltered b x x' := sheltered_of_outside hop hst hok hdo
    refine ⟨fun hc => ?_, fun b hb => ?_, fun hnone b => ?_⟩
    · rw [(hs t).claim] at hc
      rw [(hs t).readable, h.readable hc]
    · rw [(hs b).live] at hb
      rw [(hs b).own, (hs b).claim, h.bound b hb]
    · rw [(hs t).live, h.unborn (outside_row hop hm hnone) b]
  obtain ⟨m, g⟩ := x'
  unfold Op.outside at hop
  split at hop
  · -- `register`: the recorded claim is that of the new binding
    have hrow := h.unborn
    have hsome := hst.inv.writer_row (.inl hst.promise.1)
    cases hm
    refine ⟨h.readable, fun b hb => ?_, fun hnone => ?_⟩
    · by_cases hbt : b = t
      · subst hbt
        exact hpre
      · have htouch := Slot.register_touches x.1.slot t
        refine h.bound b ?_
        rw [← htouch.owners b hbt]
        exact hb
    · change x.1.db.row = none at hnone
      rw [hnone] at hsome
      cases hsome
  · obtain ⟨-, rfl⟩ | ⟨-, hnone, hclaim, hslot, hrow, -⟩ := createSession_cases hm
    · exact ⟨h.readable, h.bound, h.unborn⟩
    · refine ⟨fun hc => absurd hclaim hc, fun b hb => ?_, fun hn => absurd hn hrow⟩
      rw [hslot, h.unborn hnone b] at hb
      cases hb
  · obtain ⟨-, rfl⟩ | ⟨-, hslot, hbinds, hreadable, hnone, hclaim⟩ := sandbox_cases hm
    · exact ⟨h.readable, h.bound, h.unborn⟩
    · have hrow := Option.isSome_iff_ne_none.mp (hst.inv.writer_row hst.promise.1)
      refine ⟨fun _ => hreadable.trans hpre.1, fun b hb => ?_, fun hn => absurd (hnone.mp hn) hrow⟩
      rw [hslot] at hb
      rw [hbinds, h.bound b hb]
      obtain hsame | hunbound := hpre.2
      · rw [hclaim hrow, hsame]
      · rw [hunbound b] at hb
        cases hb
  · cases hm
    exact ⟨h.readable, h.bound, h.unborn⟩
  · cases hm
    exact ⟨h.readable, h.bound, h.unborn⟩
  · -- `create`: the launch is not live yet
    obtain ⟨rfl, hlive⟩ := hst.promise
    rename_i b _ _ _ _
    cases hm
    refine ⟨h.readable, fun n hn => ?_, h.unborn⟩
    have hnb : n ≠ b := by
      rintro rfl
      change (x.1.slot.owners n).live = true at hn
      rw [hlive] at hn
      cases hn
    refine Eq.trans ?_ (h.bound n hn)
    simp [hnb]
  · refine ⟨?_, fun n hn => ?_, ?_⟩
    · cases hm
      exact h.readable
    · rw [perform_claimName (by exact fun _ _ _ _ _ => nofun) hm n]
      cases hm
      exact h.bound n hn
    · cases hm
      exact h.unborn
  · simp only [perform, NoteOp.perform] at hm
    split at hm <;> cases hm
    exact ⟨h.readable, h.bound, h.unborn⟩
  · cases hm
    exact ⟨h.readable, h.bound, h.unborn⟩
  · exact absurd trivial hop

theorem WorkspaceInv.act (h : WorkspaceInv x) (hst : Standing cfg t op x.1)
    (hpre : workspacePre t op x) (hok : orderly t op x.1)
    (hdo : (housed cfg).perform t op x c = some (r, x')) : WorkspaceInv x' := by
  obtain ⟨hreadable, hbound, hunborn⟩ := h.row_act hst hpre hok hdo
  obtain ⟨hm, hg⟩ := housed_perform hdo
  refine ⟨hreadable, hbound, hunborn, fun hdown => ?_, fun v hv => ?_⟩
  · by_cases hop : op = .note .reconciling ∨ op = .note .up
    · obtain ⟨m, g⟩ := x'
      obtain rfl | rfl := hop
      · simp only [perform, NoteOp.perform] at hm
        split at hm <;> cases hm
        cases hdown
      · cases hm
        cases hdown
    · rw [not_or] at hop
      have hboot : x.1.boot = .down := (perform_boot hop hm).symm.trans hdown
      refine entry_stays hpre ?_ (fun hr => h.risen t hr hboot) (h.down hboot) hm
      rw [Up, hboot]
      intro hup
      cases hup
  · intro hdown
    rw [Rising, hg] at hv
    by_cases hrec : op = .note .reconciling
    · subst hrec
      obtain ⟨m, g⟩ := x'
      simp only [perform, NoteOp.perform] at hm
      split at hm <;> cases hm
      cases hdown
    · change (if _ then _ else _) = _ at hv
      rw [if_neg hrec] at hv
      by_cases hup : op = .note .up
      · subst hup
        obtain ⟨m, g⟩ := x'
        cases hm
        cases hdown
      · exact h.risen v hv ((perform_boot ⟨hrec, hup⟩ hm).symm.trans hdown)

theorem WorkspaceInv.env {l : EnvStep} (h : WorkspaceInv x)
    (hdo : (housed cfg).env x l = some x') : WorkspaceInv x' := by
  obtain ⟨m, g⟩ := x'
  obtain ⟨hm, hg⟩ := System.observe_env hdo
  obtain ⟨now, pods, rfl⟩ := env_eq hm
  subst hg
  exact ⟨h.readable, h.bound, h.unborn, h.down, h.risen⟩

theorem WorkspaceInv.crash (h : WorkspaceInv x) : WorkspaceInv ((housed cfg).crash x) where
  readable := h.readable
  bound _ hb := by cases hb
  unborn _ _ := rfl
  down _ := rfl
  risen _ hr := by cases hr

/-! ## What the others leave alone -/

/-- What the others leave to a thread. -/
structure Leaves (t : ℕ) (x x' : Mem × Account) : Prop where
  keeps : Keeps t x.1 x'.1
  sheltered : Sole t x.1 → Sheltered t x x'
  refused : x'.2.refused t = x.2.refused t
  up : Up x → Up x'
  rising : Rising t x → Rising t x'

theorem up_act (h : m.boot = .up) (hdo : perform u op m c = some (r, m')) : m'.boot = .up := by
  by_cases hrec : op = .note .reconciling
  · subst hrec
    rw [reconciling_down hdo] at h
    cases h
  · by_cases hup : op = .note .up
    · subst hup
      cases hdo
      rfl
    · exact (perform_boot ⟨hrec, hup⟩ hdo).trans h

theorem rising_act (hinv : WorkspaceInv x) (h : Rising t x)
    (hdo : (housed cfg).perform u op x c = some (r, x')) : Rising t x' := by
  obtain ⟨hm, hg⟩ := housed_perform hdo
  rw [Rising, hg]
  show (if _ then _ else _) = _
  rw [if_neg]
  · exact h
  · rintro rfl
    exact hinv.risen t h (reconciling_down hm)

theorem other_leaves (hinv : WorkspaceInv x) (ho : (workspaces cfg).Other t x x') :
    Leaves t x x' := by
  cases ho with
  | act u op c r hne hst hpre hok hdo =>
    obtain ⟨hm, hg⟩ := housed_perform hdo
    refine ⟨hst.keeps hne hok.1 hm, fun hsole => ?_, ?_, fun h => up_act h hm, fun h => ?_⟩
    · exact act_sheltered hinv (fun v hv => hsole.unique hst.inv hv) (hsole.row hst.inv)
        hne hst hpre hok.1 hdo
    · rw [hg]
      exact Function.update_of_ne hne.symm _ _
    · exact rising_act hinv h hdo
  | env l _ hdo =>
    obtain ⟨m, g⟩ := x'
    obtain ⟨hm, hg⟩ := System.observe_env hdo
    have hkeeps := (env_idle hm).keeps t
    obtain ⟨now, pods, rfl⟩ := env_eq hm
    subst hg
    exact ⟨hkeeps, fun _ => ⟨rfl, rfl, fun _ h => h, fun _ => rfl, rfl, rfl, id, id⟩, rfl, id, id⟩
  | start u e v _ _ _ hsame =>
    subst hsame
    exact ⟨(Idle.refl x.1).keeps t,
      fun _ => ⟨rfl, rfl, fun _ h => h, fun _ => rfl, rfl, rfl, id, id⟩, rfl, id, id⟩

/-! ## Rules -/

/-- A program of a thread, with assertions about the workspace. -/
abbrev Tending (cfg : Settings) (t : ℕ) (A : Mem × Account → Prop) {α : Type} (p : P α)
    (Q : α → Mem × Account → Prop) : Prop :=
  (workspaces cfg).Triple t A p Q

/-- An assertion of a thread that may write the session. -/
structure Kept (t : ℕ) (K : Mem × Account → Prop) : Prop where
  sheltered : ∀ {x x' : Mem × Account}, Sheltered t x x' → K x → K x'

/-- Thread `t` may write the session, and `K`. -/
def Seat (ρ : Role) (t : ℕ) (K : Mem × Account → Prop) (x : Mem × Account) : Prop :=
  ρ.Has t x.1 ∧ K x

variable {ρ : Role} {K : Mem × Account → Prop} {α : Type}

variable {p : P α}

theorem Kept.stable (hK : Kept t K) : (workspaces cfg).Stable t (Seat ρ t K) := by
  intro x x' hinv _ ho hx
  have hl := other_leaves hinv ho
  exact ⟨hl.keeps.role hx.1, hK.sheltered (hl.sheltered (.inl hx.1.writer)) hx.2⟩

/-- An assertion that survives a failed `Teardown` until the next call. -/
theorem Kept.stable_refused (hK : Kept t K) :
    (workspaces cfg).Stable t fun x => Seat ρ t K x ∧ x.2.refused t = true := by
  intro x x' hinv hinv' ho hx
  exact ⟨hK.stable x x' hinv hinv' ho hx.1, (other_leaves hinv ho).refused.trans hx.2⟩

theorem kept_true : Kept t fun _ => True := ⟨fun _ _ => trivial⟩

theorem Kept.and {K' : Mem × Account → Prop} (h : Kept t K) (h' : Kept t K') :
    Kept t fun x => K x ∧ K' x :=
  ⟨fun hs hx => ⟨h.sheltered hs hx.1, h'.sheltered hs hx.2⟩⟩

theorem kept_cleared : Kept t Cleared := ⟨fun hs hx => hs.cleared hx⟩

theorem kept_rising (after : After) : Kept t fun x => after = .up → Rising t x :=
  ⟨fun hs hx h => hs.rising (hx h)⟩

/-- The operations that a thread needs a reason for, or that change who it is. -/
def workKinds : List Kind :=
  [.claim, .detach, .register, .finish, .create, .sandbox, .finishSession, .finishOther, .prepare,
   .revive, .bind, .closeReady, .reconciling, .up, .settle, .call]

/-- The operation neither gives the session up nor changes the readiness of a binding. -/
def Op.seated : Op → Prop
  | .slot (.claim _) | .slot (.detach ..) | .slot .register | .slot .finish | .bind _ (.create ..)
  | .bind _ .closeReady => False
  | _ => True

theorem seated_act (hop : op.seated) (hr : ρ.Has t m) (h : perform t op m c = some (r, m')) :
    ρ.Has t m' := by
  cases op with
  | slot op =>
    cases op with
    | claim | detach | register | finish => exact hop.elim
    | _ =>
      have hidle := perform_idle (by trivial) h
      exact (hidle.keeps t).role hr
  | store op => exact hr.same (StoreOp.perform_slot h) (StoreOp.perform_binds h)
  | ext op => exact hr.same (ExtOp.perform_slot h) (ExtOp.perform_binds h)
  | bind b op =>
    have hstill : Still m m' := by
      cases op <;> first | exact hop.elim | exact perform_still (by trivial) h
    cases ρ with
    | holding =>
      refine ⟨by rw [hstill.slot]; exact hr.1, fun n hn => ?_⟩
      rw [hstill.slot] at hn ⊢
      rw [hstill.ready]
      exact hr.2 n hn
    | activating => exact ⟨by rw [hstill.slot]; exact hr.1, by rw [hstill.ready]; exact hr.2⟩
  | note op => exact hr.same (note_slot h) (note_binds h)

theorem not_mem_of_any {kinds' : List Kind} {k : Kind}
    (h : (kinds.any fun ρ => kinds'.elem ρ) = false) (hk : k ∈ kinds') : k ∉ kinds := by
  intro hmem
  rw [List.any_eq_false] at h
  exact h k hmem (List.elem_iff.mpr hk)

theorem outside_of_kind (h : op.kind ∉ workKinds) : op.outside := by
  unfold Op.outside
  split <;> first | trivial | exact h (List.elem_iff.mp rfl)

theorem seated_of_kind (h : op.kind ∉ workKinds) : op.seated := by
  unfold Op.seated
  split <;> first | trivial | exact h (List.elem_iff.mp rfl)

/-- A program that needs no reason, of a thread that may write the session. -/
theorem Kept.uses (hK : Kept t K) (hp : Uses kinds p)
    (hkinds : (workKinds.any fun ρ => kinds.elem ρ) = false) :
    Tending cfg t (Seat ρ t K) p fun _ => Seat ρ t K := by
  refine Discipline.Triple.of_within hK.stable ?_ ?_ ?_ hp
  · intro op x hop _ _ _
    show workspacePre t op x
    unfold workspacePre
    have hkind := not_mem_of_any hkinds hop
    split <;> first | trivial | exact absurd (List.elem_iff.mp rfl) hkind |
      exact absurd (finishSession_kind rfl rfl _ _) hkind
  · intro op x c r x' hop _ hst hx hok hdo _
    have hkind := not_mem_of_any hkinds hop
    have hs : Sheltered t x x' := sheltered_of_outside (outside_of_kind hkind) hst hok.1 hdo
    exact ⟨seated_act (seated_of_kind hkind) hx.1 (housed_perform hdo).1, hK.sheltered hs hx.2⟩
  · intro e x u he _ _ _
    have hkind := not_mem_of_any hkinds he
    show workspaceEntry u e x
    unfold workspaceEntry
    split <;> first | trivial | exact absurd (List.elem_iff.mp rfl) hkind

/-- An assertion that no thread makes false. -/
structure Enduring (t : ℕ) (A : Mem × Account → Prop) : Prop where
  leaves : ∀ {x x' : Mem × Account}, Leaves t x x' → A x → A x'
  act : ∀ {cfg : Settings} {op : Op} {c : Choice} {r : op.Res} {x x' : Mem × Account},
    WorkspaceInv x → (housed cfg).perform t op x c = some (r, x') → A x → A x'

theorem Enduring.stable (hA : Enduring t A) : (workspaces cfg).Stable t A :=
  fun _ _ hinv _ ho hx => hA.leaves (other_leaves hinv ho) hx

theorem enduring_true : Enduring t fun _ => True := ⟨fun _ _ => trivial, fun _ _ _ => trivial⟩

theorem enduring_up : Enduring t Up :=
  ⟨fun hl hx => hl.up hx, fun _ hdo hx => up_act hx (housed_perform hdo).1⟩

theorem enduring_rising : Enduring t (Rising t) :=
  ⟨fun hl hx => hl.rising hx, fun hinv hdo hx => rising_act hinv hx hdo⟩

/-- The operations that a thread needs a reason for. -/
def reasonKinds : List Kind :=
  [.claim, .detach, .register, .sandbox, .finishSession, .finishOther, .prepare, .revive, .up,
   .settle, .call]

/-- A program that needs no reason. -/
theorem Enduring.uses (hA : Enduring t A) (hp : Uses kinds p)
    (hkinds : (reasonKinds.any fun ρ => kinds.elem ρ) = false) : Tending cfg t A p fun _ => A := by
  refine Discipline.Triple.of_within hA.stable ?_ ?_ ?_ hp
  · intro op x hop _ _ _
    show workspacePre t op x
    unfold workspacePre
    have hkind := not_mem_of_any hkinds hop
    split <;> first | trivial | exact absurd (List.elem_iff.mp rfl) hkind |
      exact absurd (finishSession_kind rfl rfl _ _) hkind
  · intro op x c r x' _ hinv _ hx _ hdo _
    exact hA.act hinv hdo hx
  · intro e x u he _ _ _
    have hkind := not_mem_of_any hkinds he
    show workspaceEntry u e x
    unfold workspaceEntry
    split <;> first | trivial | exact absurd (List.elem_iff.mp rfl) hkind

/-- What was known no longer matters. -/
theorem tending_rest (hp : Uses kinds p)
    (hkinds : (reasonKinds.any fun ρ => kinds.elem ρ) = false) :
    Tending cfg t A p fun _ _ => True :=
  (enduring_true.uses hp hkinds).of_imp fun _ _ _ => trivial

theorem tending_done {a : α} : Tending cfg t A (pure a) fun _ _ => True :=
  .ret fun _ _ _ => trivial

end AgentOps.Service
