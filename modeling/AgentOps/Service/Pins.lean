import AgentOps.Service.Approval
import AgentOps.Service.Revival

/-!
# The approver and the template of a session

A session is created with the snapshot of a template, and the approver of its first run is
recorded. Every later run is created for that approver and for that snapshot. An observer
writes down the first approver and the template, and for each thread whether it brought the
workspace up again and which subject it expects.

The discipline: only the launch of the thread that inserted the row records an approver when
there is none, and a launch that revives the session expects the first one.
-/

namespace AgentOps.Service

open AgentOps.Api AgentOps.Link AgentOps.Lib

/-! ## The observer -/

/-- What is written down of the approvals of a session. -/
structure Pins where
  /-- The thread that inserted the row, and the template that it stored. -/
  origin : Option ℕ := none
  template : TemplateSpec := .empty
  /-- The first approver that was recorded. -/
  first : Option String := none
  /-- The threads that called `launcher.Revive`. -/
  revived : ℕ → Bool := fun _ => false
  /-- The expected subject of the run that a thread created. -/
  expected : ℕ → String := fun _ => ""

/-- What is written down of an operation of thread `t`. -/
def pin (t : ℕ) (op : Op) (r : op.Res) (g : Pins) : Pins :=
  match op, r with
  | .store (.createSession templateSpec), r =>
    if r = true then { g with origin := some t, template := templateSpec } else g
  | .store (.update (.approver subject)), r =>
    if r = true then { g with first := g.first.or (some subject) } else g
  | .ext (.revive _), _ => { g with revived := Function.update g.revived t true }
  | .ext (.createRun _ subject _), _ => { g with expected := Function.update g.expected t subject }
  | _, _ => g

def approvals : Observer sig Mem EnvStep Pins where
  act t op r _ g := pin t op r g
  crash g := g

/-- The service of one session, with its approvals. -/
def approved (cfg : Settings) : System sig (Mem × Pins) Choice EnvStep :=
  (system cfg).observe approvals

def approvedInit : Config sig (Mem × Pins) where
  mem := ({}, {})

/-- The operations that the observer takes note of. -/
def pinKinds : List Kind := [.create, .approver, .revive, .createRun]

theorem pin_of_kind {t : ℕ} {op : Op} {r : op.Res} {g : Pins} (h : op.kind ∉ pinKinds) :
    pin t op r g = g := by
  unfold pin
  split <;> first | rfl | exact absurd (List.elem_iff.mp rfl) h

/-! ## The discipline -/

/-- What a row shares with the pins. -/
def Row.pinned (r : Row) : TemplateSpec × String := (r.templateSpec, r.approverSubject)

/-- The pins say what is in the row. -/
structure Pinned (x : Mem × Pins) : Prop where
  unborn : x.1.db.row = none → x.2.origin = none ∧ x.2.first = none
  row : ∀ p ∈ x.1.db.row.map Row.pinned, p = (x.2.template, x.2.first.getD "")
  named : x.2.first ≠ some ""

/-- What a thread promises: an approver is recorded first by the thread that inserted the row, and
then is the same; a run that revives is for the first approver and the stored template. -/
def pledge (t : ℕ) (op : Op) (g : Pins) : Prop :=
  match op with
  | .store (.update (.approver subject)) =>
    subject ≠ "" ∧ (g.first = some subject ∨ g.first = none ∧ g.origin = some t)
  | .ext (.createRun _ subject servers) => g.revived t = true →
    subject ≠ "" ∧ g.first = some subject ∧ servers = g.template.mcpServers
  | _ => True

/-- The authorization server reports no approver other than the expected subject. -/
def honest (t : ℕ) (op : Op) (g : Pins) (c : Choice) : Prop :=
  match op with
  | .ext .getRun => g.expected t ≠ "" →
    c.run.approverSubject = "" ∨ c.run.approverSubject = g.expected t
  | _ => True

/-- The thread has not inserted the row and has revived nothing. -/
def Unused (t : ℕ) (x : Mem × Pins) : Prop := x.2.origin ≠ some t ∧ x.2.revived t = false

/-- The discipline of the approvals. -/
def pinning (cfg : Settings) : Discipline (approved cfg) where
  inv := Pinned
  pre t op x := pledge t op x.2
  entry t e x := e.kind = .call → Unused t x
  fresh := Unused
  allow t op x c := honest t op x.2 c

variable {cfg : Settings} {t u : ℕ} {x x' : Mem × Pins} {op : Op} {c : Choice} {r : op.Res}

theorem approved_perform (h : (approved cfg).perform t op x c = some (r, x')) :
    perform t op x.1 c = some (r, x'.1) ∧ x'.2 = pin t op r x.2 :=
  System.observe_perform h

/-! ## Steps -/

theorem pinned_eq_kept (m : Mem) :
    m.db.row.map Row.pinned = m.kept.map fun k => (k.2.2.2.2, k.2.2.2.1) := by
  unfold Mem.kept
  rw [Option.map_map]
  rfl

/-- The operation neither inserts the row nor records an approver. -/
def Op.unpinning : Op → Prop
  | .store (.createSession _) | .store (.update (.approver _)) => False
  | _ => True

theorem pin_of_unpinning (h : op.unpinning) (g : Pins) : (pin t op r g).first = g.first ∧
    (pin t op r g).origin = g.origin ∧ (pin t op r g).template = g.template := by
  unfold pin
  split <;> first | exact h.elim | exact ⟨rfl, rfl, rfl⟩

theorem perform_pinned {m m' : Mem} (hop : op.unpinning) (h : perform t op m c = some (r, m')) :
    m'.db.row.map Row.pinned = m.db.row.map Row.pinned := by
  rw [pinned_eq_kept, pinned_eq_kept]
  refine perform_kept _ ?_ ?_ h
  · rintro templateSpec rfl
    exact hop
  · rintro up rfl now row
    cases up <;> first | exact hop.elim | rfl

/-- A step that inserts no row and records no approver keeps the pins true. -/
theorem Pinned.step (h : Pinned x) (hrow : x'.1.db.row.map Row.pinned = x.1.db.row.map Row.pinned)
    (hfirst : x'.2.first = x.2.first) (horigin : x'.2.origin = x.2.origin)
    (htemplate : x'.2.template = x.2.template) : Pinned x' where
  unborn hnone := by
    rw [hfirst, horigin]
    apply h.unborn
    rw [hnone] at hrow
    exact Option.map_eq_none_iff.mp hrow.symm
  row p hp := by
    rw [hrow] at hp
    rw [hfirst, htemplate]
    exact h.row p hp
  named := by
    rw [hfirst]
    exact h.named

/-- The row exists as soon as somebody is pinned. -/
theorem Pinned.exists_row (h : Pinned x) (hx : x.2.origin ≠ none ∨ x.2.first ≠ none) :
    x.1.db.row ≠ none := by
  intro hnone
  obtain ⟨horigin, hfirst⟩ := h.unborn hnone
  obtain hx | hx := hx
  · exact hx horigin
  · exact hx hfirst

theorem Pinned.approver (h : Pinned x) {row : Row} (hrow : x.1.db.row = some row) :
    row.templateSpec = x.2.template ∧ row.approverSubject = x.2.first.getD "" := by
  have := h.row row.pinned (by rw [hrow]; rfl)
  exact ⟨congrArg Prod.fst this, congrArg Prod.snd this⟩

/-- The insert of the row starts with no approver. -/
theorem Pinned.create (h : Pinned x) {templateSpec : TemplateSpec} {r : Bool}
    (hdo : (approved cfg).perform t (.store (.createSession templateSpec)) x c = some (r, x')) :
    Pinned x' ∧ (r = true → x.1.db.row = none) := by
  obtain ⟨m, g⟩ := x'
  obtain ⟨hm, rfl⟩ := approved_perform hdo
  simp only [perform, StoreOp.perform] at hm
  split at hm
  · rename_i hok
    have hnone : x.1.db.row = none := by
      simp only [Bool.and_eq_true, Option.isNone_iff_eq_none] at hok
      exact hok.2
    have hfirst := (h.unborn hnone).2
    cases hm
    refine ⟨⟨fun hrow => (by cases hrow), ?_, ?_⟩, fun _ => hnone⟩
    · rintro p ⟨⟩
      simp [pin, hfirst, Row.pinned]
    · simp [pin, hfirst]
  · cases hm
    exact ⟨h.step rfl rfl rfl rfl, fun hr => by cases hr⟩

/-- The approver that is recorded is the first one. -/
theorem Pinned.record (h : Pinned x) {subject : String} {r : Bool}
    (hpre : pledge t (.store (.update (.approver subject))) x.2)
    (hdo : (approved cfg).perform t (.store (.update (.approver subject))) x c = some (r, x')) :
    Pinned x' := by
  obtain ⟨hne, hwho⟩ := hpre
  have hfirst : x.2.first.or (some subject) = some subject := by
    obtain hwho | ⟨hwho, -⟩ := hwho <;> rw [hwho] <;> rfl
  have hrow : x.1.db.row ≠ none := by
    apply h.exists_row
    obtain hwho | ⟨-, hwho⟩ := hwho
    · exact .inr (by rw [hwho]; exact Option.some_ne_none _)
    · exact .inl (by rw [hwho]; exact Option.some_ne_none _)
  obtain ⟨row, hrow⟩ := Option.ne_none_iff_exists'.mp hrow
  obtain ⟨m, g⟩ := x'
  obtain ⟨hm, rfl⟩ := approved_perform hdo
  simp only [perform, StoreOp.perform] at hm
  split at hm <;> cases hm
  · refine ⟨fun hnone => ?_, fun p hp => ?_, ?_⟩
    · simp [Db.update, hrow] at hnone
    · have hp : (row.templateSpec, subject) = p := by
        simpa [Db.update, hrow, Row.pinned, Update.apply, Row.updateApprover] using hp
      rw [← hp, (h.approver hrow).1]
      simp [pin, hfirst]
    · simpa [pin, hfirst] using hne
  · exact h.step rfl rfl rfl rfl

theorem pinning_act (h : Pinned x) (hpre : pledge t op x.2)
    (hdo : (approved cfg).perform t op x c = some (r, x')) : Pinned x' := by
  by_cases hop : op.unpinning
  · obtain ⟨hm, hpin⟩ := approved_perform hdo
    obtain ⟨hfirst, horigin, htemplate⟩ := pin_of_unpinning (t := t) (r := r) hop x.2
    rw [← hpin] at hfirst horigin htemplate
    exact h.step (perform_pinned hop hm) hfirst horigin htemplate
  · unfold Op.unpinning at hop
    split at hop
    · exact (h.create hdo).1
    · exact h.record hpre hdo
    · exact absurd trivial hop

/-! ## What the others leave alone -/

/-- What a thread can rely on while the others work. -/
structure Spared (t : ℕ) (x x' : Mem × Pins) : Prop where
  first : x.2.first ≠ none ∨ x.2.origin = some t → x'.2.first = x.2.first
  origin : x.2.origin ≠ none ∨ x.2.first ≠ none →
    x'.2.origin = x.2.origin ∧ x'.2.template = x.2.template
  unused : x.2.origin ≠ some t → x'.2.origin ≠ some t
  revived : x'.2.revived t = x.2.revived t
  expected : x'.2.expected t = x.2.expected t

theorem Spared.of_eq (h : x'.2 = x.2) : Spared t x x' := by
  constructor <;> rw [h] <;> simp

theorem act_spared (hinv : Pinned x) (hne : u ≠ t) (hpre : pledge u op x.2)
    (hdo : (approved cfg).perform u op x c = some (r, x')) : Spared t x x' := by
  have hpin := (approved_perform hdo).2
  unfold pin at hpin
  split at hpin
  · rename_i templateSpec r
    split at hpin
    · rename_i hr
      -- The row was missing, so nobody was pinned.
      have hnone : x.1.db.row = none := (hinv.create hdo).2 hr
      obtain ⟨horigin, hfirst⟩ := hinv.unborn hnone
      refine ⟨fun _ => by rw [hpin], ?_, fun _ => ?_, by rw [hpin], by rw [hpin]⟩
      · rintro (h | h)
        · exact absurd horigin h
        · exact absurd hfirst h
      · rw [hpin]
        simpa using hne
    · exact .of_eq hpin
  · rename_i subject r
    split at hpin
    · refine ⟨?_, fun _ => by rw [hpin]; exact ⟨rfl, rfl⟩, fun h => by rw [hpin]; exact h,
        by rw [hpin], by rw [hpin]⟩
      intro h
      rw [hpin]
      obtain hwho | ⟨hwho, horigin⟩ := hpre.2
      · rw [hwho]
        rfl
      · obtain h | h := h
        · exact absurd hwho h
        · rw [horigin, Option.some.injEq] at h
          exact absurd h hne
    · exact .of_eq hpin
  · refine ⟨fun _ => by rw [hpin], fun _ => by rw [hpin]; exact ⟨rfl, rfl⟩,
      fun h => by rw [hpin]; exact h, ?_, by rw [hpin]⟩
    rw [hpin]
    exact Function.update_of_ne hne.symm _ _
  · refine ⟨fun _ => by rw [hpin], fun _ => by rw [hpin]; exact ⟨rfl, rfl⟩,
      fun h => by rw [hpin]; exact h, by rw [hpin], ?_⟩
    rw [hpin]
    exact Function.update_of_ne hne.symm _ _
  · exact .of_eq hpin

theorem other_spared (hinv : Pinned x) (h : (pinning cfg).Other t x x') : Spared t x x' := by
  cases h with
  | act u op c r hne _ hpre _ hdo => exact act_spared hinv hne hpre hdo
  | env l _ hdo => exact .of_eq (System.observe_env hdo).2
  | start u e v _ _ _ hsame => exact .of_eq (congrArg Prod.snd hsame)

/-! ## Rules -/

/-- An assertion about the pins that the others cannot make false. -/
structure Noted (t : ℕ) (A : Pins → Prop) : Prop where
  spared : ∀ {x x' : Mem × Pins}, Spared t x x' → A x.2 → A x'.2

/-- A program of a thread, with assertions about the pins. -/
abbrev Pinning (cfg : Settings) (t : ℕ) (A : Pins → Prop) {α : Type} (p : P α)
    (Q : α → Pins → Prop) : Prop :=
  (pinning cfg).Triple t (fun x => A x.2) p fun a x => Q a x.2

variable {A : Pins → Prop} {α : Type}

theorem Noted.stable (h : Noted t A) : (pinning cfg).Stable t fun x => A x.2 :=
  fun _ _ hinv _ ho hA => h.spared (other_spared hinv ho) hA

theorem noted_true : Noted t fun _ => True := ⟨fun _ _ => trivial⟩

/-- A program that the observer takes no note of. -/
theorem Noted.uses {kinds : List Kind} {p : P α} (hA : Noted t A) (hp : Uses kinds p)
    (hpin : (pinKinds.any fun ρ => kinds.elem ρ) = false) (hcall : kinds.elem .call = false) :
    Pinning cfg t A p fun _ => A := by
  have hkind (op : Op) (hop : op.kind ∈ kinds) : op.kind ∉ pinKinds := by
    intro h
    rw [List.any_eq_false] at hpin
    exact hpin _ h (List.elem_iff.mpr hop)
  refine Discipline.Triple.of_within hA.stable ?_ ?_ ?_ hp
  · intro op x hop _ _ _
    show pledge t op x.2
    unfold pledge
    split <;> first | trivial | exact absurd (List.elem_iff.mp rfl) (hkind _ hop)
  · intro op x c r x' hop _ _ hx _ hdo _
    rw [(approved_perform hdo).2, pin_of_kind (hkind op hop)]
    exact hx
  · intro e x u he _ _ _ heq
    rw [heq, ← List.elem_iff, hcall] at he
    cases he

/-- The same at the end of a program. -/
theorem Noted.rest {kinds : List Kind} {p : P α} (hA : Noted t A) (hp : Uses kinds p)
    (hpin : (pinKinds.any fun ρ => kinds.elem ρ) = false) (hcall : kinds.elem .call = false) :
    Pinning cfg t A p fun _ _ => True :=
  (hA.uses hp hpin hcall).conseq (fun _ _ h => h) fun _ _ _ _ => trivial

theorem pinning_done {B : Mem × Pins → Prop} {a : α} :
    (pinning cfg).Triple t B (pure a) fun _ _ => True :=
  .ret fun _ _ _ => trivial

/-! ## Launches -/

/-- The thread inserted the row, and no approver is recorded. -/
def Inserting (t : ℕ) (g : Pins) : Prop :=
  g.origin = some t ∧ g.first = none ∧ g.revived t = false

/-- A launch starts. -/
def Starting (t : ℕ) : Bool → Pins → Prop
  | true, g => g.first ≠ none
  | false, g => Inserting t g

/-- A launch has read the session. -/
def Launching (t : ℕ) (sess : Row) : Bool → Pins → Prop
  | true, g => g.first = some sess.approverSubject ∧ g.template = sess.templateSpec
  | false, g => Inserting t g

/-- A launch has created its run. -/
def Asking (t : ℕ) (sess : Row) (revive : Bool) (g : Pins) : Prop :=
  Launching t sess revive g ∧ g.expected t = expectedSubject sess revive

/-- The thread may record the subject. -/
def Recordable (t : ℕ) (subject : String) (g : Pins) : Prop :=
  g.first = some subject ∨ g.first = none ∧ g.origin = some t

theorem noted_inserting : Noted t (Inserting t) where
  spared h := by
    rintro ⟨horigin, hfirst, hrevived⟩
    have hne : ¬ some t = none := nofun
    refine ⟨?_, ?_, ?_⟩
    · rw [(h.origin (.inl (by rw [horigin]; exact hne))).1, horigin]
    · rw [h.first (.inr horigin), hfirst]
    · rw [h.revived, hrevived]

theorem noted_starting (revive : Bool) : Noted t (Starting t revive) where
  spared h hx := by
    cases revive with
    | false => exact noted_inserting.spared h hx
    | true =>
      show _ ≠ _
      rw [h.first (.inl hx)]
      exact hx

theorem noted_launching (sess : Row) (revive : Bool) : Noted t (Launching t sess revive) where
  spared {x _} h hx := by
    cases revive with
    | false => exact noted_inserting.spared h hx
    | true =>
      have hfirst : x.2.first ≠ none := by rw [hx.1]; exact Option.some_ne_none _
      exact ⟨(h.first (.inl hfirst)).trans hx.1, (h.origin (.inr hfirst)).2.trans hx.2⟩

theorem noted_asking (sess : Row) (revive : Bool) : Noted t (Asking t sess revive) where
  spared h hx := ⟨(noted_launching sess revive).spared h hx.1, h.expected.trans hx.2⟩

theorem noted_recordable (subject : String) : Noted t (Recordable t subject) where
  spared h := by
    rintro (hx | ⟨hx, horigin⟩)
    · left
      rw [h.first (.inl (by rw [hx]; exact Option.some_ne_none _)), hx]
    · right
      rw [h.first (.inr horigin),
        (h.origin (.inl (by rw [horigin]; exact Option.some_ne_none _))).1]
      exact ⟨hx, horigin⟩

/-- The approver of a launch can be recorded: it is the first one, or the expected one. -/
theorem getRun_pinning (sess : Row) (revive : Bool) :
    Pinning cfg t (Asking t sess revive) (ext .getRun) fun r g =>
      ∀ st, r = some st → st.approverSubject ≠ "" → Recordable t st.approverSubject g := by
  refine .perform (noted_asking sess revive).stable (fun _ _ _ _ => trivial) ?_
  intro x c r x' hinv _ hx hhonest hdo _ st hst hne
  obtain ⟨hm, hpin⟩ := approved_perform hdo
  have hg : x'.2 = x.2 := hpin
  rw [hg]
  have hrun : st = c.run := by
    simp only [perform, ExtOp.perform, Option.some.injEq, Prod.mk.injEq] at hm
    rw [hst] at hm
    split at hm
    · exact (Option.some.inj hm.1).symm
    · cases hm.1
  subst hrun
  obtain ⟨hx, hexpected⟩ := hx
  cases revive with
  | false => exact .inr ⟨hx.2.1, hx.1⟩
  | true =>
    have hsubject : sess.approverSubject ≠ "" := by
      intro heq
      apply hinv.named
      rw [hx.1, heq]
    have hexpected : x.2.expected t = sess.approverSubject := hexpected
    obtain hnone | hsame := hhonest (by rw [hexpected]; exact hsubject)
    · exact absurd hnone hne
    · left
      rw [hsame, hexpected]
      exact hx.1

theorem recordApprover_pinning (sess : Row) (revive : Bool) :
    Pinning cfg t (Asking t sess revive) recordApproverFromRun fun _ _ => True := by
  refine (getRun_pinning sess revive).bind fun r => ?_
  cases r with
  | none => exact pinning_done
  | some st =>
    dsimp only
    split
    · exact pinning_done
    · rename_i hne
      have hrecord : Pinning cfg t (Recordable t st.approverSubject)
          (store (.update (.approver st.approverSubject))) fun _ _ => True :=
        .perform (noted_recordable _).stable (fun _ _ _ hx => ⟨hne, hx⟩)
          fun _ _ _ _ _ _ _ _ _ _ => trivial
      refine (hrecord.of_imp fun x _ hx => hx st rfl hne).bind fun _ => ?_
      exact noted_true.uses (uses_emit _ (.approved _)) rfl rfl

theorem runLinked_pinning (sess : Row) (opts : LaunchOpts) (opening : Bool) (b : ℕ) :
    Pinning cfg t (Asking t sess opts.revive) (runLinked b opts opening) fun _ _ => True := by
  refine (recordApprover_pinning sess opts.revive).bind fun _ => ?_
  refine (noted_true.uses (uses_emit _ (.stateChanged ..)) rfl rfl).bind fun _ => ?_
  refine (noted_true.uses (.when (uses_emit _ .revived)) rfl rfl).bind fun _ => ?_
  have hungate : Uses [.ungate] (onBinding b .ungate) := .act _ rfl
  exact noted_true.uses (.when hungate) rfl rfl

theorem runRegistered_pinning (sess : Row) (opts : LaunchOpts) (opening : Bool) (b : ℕ)
    (claimName sandboxName : String) (ready : String × ℕ) :
    Pinning cfg t (Asking t sess opts.revive)
      (runRegistered b opts opening claimName sandboxName ready) fun _ _ => True := by
  have hasking := noted_asking (t := t) sess opts.revive
  have hready : Uses [.closeReady] (onBinding b .closeReady) := .act _ rfl
  refine (hasking.uses (uses_recordLink ..) rfl rfl).bind fun linked => ?_
  have hrun : Pinning cfg t (Asking t sess opts.revive)
      (if linked then runLinked b opts opening else stopUnlinked b opts opening : P Unit)
      fun _ _ => True := by
    split
    · exact runLinked_pinning sess opts opening b
    · exact hasking.rest (uses_stopUnlinked ..) rfl rfl
  refine .spawn hasking.stable (fun _ _ _ _ _ _ => nofun) (hrun.bind fun _ => ?_)
  exact noted_true.uses hready rfl rfl

theorem bindSession_pinning (sess : Row) (opts : LaunchOpts) (b : ℕ)
    (claimName sandboxName : String) (ready : String × ℕ) :
    Pinning cfg t (Asking t sess opts.revive)
      (bindSession b sess opts claimName sandboxName ready) fun _ _ => True := by
  have hasking := noted_asking (t := t) sess opts.revive
  have hcreate : Uses [.bind] (onBinding b (.create claimName b false [])) := .act _ rfl
  have hregister : Uses [.register] (slot .register) := .act _ rfl
  refine (hasking.uses hcreate rfl rfl).bind fun _ => ?_
  refine (hasking.uses (uses_saveOpening ..) rfl rfl).bind fun opening => ?_
  refine (hasking.uses hregister rfl rfl).bind fun ok => ?_
  split
  · exact (runRegistered_pinning sess opts opening b claimName sandboxName ready).bind
      fun _ => pinning_done
  · have hclose : Uses (.closeConsumed :: .closeSession :: .closeReady :: failKinds) (do
        onBinding b .closeConsumed
        onBinding b .closeSession
        failLaunch sess opts claimName .launchFailed ""
        onBinding b .closeReady
        pure false : P Bool) := by
      refine Uses.bind (.act (.bind b .closeConsumed) rfl) fun _ => ?_
      refine Uses.bind (.act (.bind b .closeSession) rfl) fun _ => ?_
      refine ((uses_failLaunch ..).mono rfl).bind fun _ => ?_
      exact Uses.bind (.act (.bind b .closeReady) rfl) fun _ => .pure _
    exact hasking.rest hclose rfl rfl

/-- A launch that fails. -/
theorem failLaunch_pinning {A : Pins → Prop} (hA : Noted t A) (sess : Row) (opts : LaunchOpts)
    (claimName : String) (reason : EndReason) (detail : String) :
    Pinning cfg t A (failLaunch sess opts claimName reason detail >>= fun _ => pure false)
      fun _ _ => True :=
  (hA.uses (uses_failLaunch ..) rfl rfl).bind fun _ => pinning_done

theorem activateAndRun_pinning (sess : Row) (opts : LaunchOpts) (claimName sandboxName : String) :
    Pinning cfg t (Asking t sess opts.revive) (activateAndRun sess opts claimName sandboxName)
      fun _ _ => True := by
  have hasking := noted_asking (t := t) sess opts.revive
  have hself : Uses [.self] (ext .self) := .act _ rfl
  have hspawn : Uses [.spawnAgent] (ext .spawnAgent) := .act _ rfl
  have hready : Uses [.awaitReady] (ext .awaitReady) := .act _ rfl
  have hfail (err : ActivateError) : Pinning cfg t (Asking t sess opts.revive)
      (activateFailed sess opts claimName err >>= fun _ => pure false) fun _ _ => True :=
    (hasking.uses (uses_activateFailed ..) rfl rfl).bind fun _ => pinning_done
  refine (hasking.uses hself rfl rfl).bind fun b => ?_
  refine (hasking.uses hspawn rfl rfl).bind fun ok => ?_
  split
  · refine (hasking.uses hready rfl rfl).bind fun r => ?_
    split
    · exact bindSession_pinning ..
    · exact hfail _
  · exact hfail _

/-- The run of a launch is for the first approver and the stored template. -/
theorem createRun_pinning (sess : Row) (revive : Bool) (approvalPrompt : String) :
    Pinning cfg t (Launching t sess revive)
      (ext (.createRun approvalPrompt (expectedSubject sess revive) sess.templateSpec.mcpServers))
      fun _ => Asking t sess revive := by
  refine .perform (noted_launching sess revive).stable ?_ ?_
  · intro x hinv _ hx hrevived
    cases revive with
    | false =>
      have hfresh : x.2.revived t = false := hx.2.2
      rw [hfresh] at hrevived
      cases hrevived
    | true =>
      refine ⟨?_, hx.1, by rw [hx.2]⟩
      intro heq
      apply hinv.named
      rw [hx.1]
      exact congrArg some heq
  · intro x c r x' _ _ hx _ hdo _
    rw [(approved_perform hdo).2]
    refine ⟨?_, Function.update_self ..⟩
    cases revive <;> exact hx

theorem launchRun_pinning (sess : Row) (opts : LaunchOpts) (claimName sandboxName : String) :
    Pinning cfg t (Launching t sess opts.revive) (launchRun sess opts claimName sandboxName)
      fun _ _ => True := by
  have hasking := noted_asking (t := t) sess opts.revive
  refine (createRun_pinning sess opts.revive opts.approvalPrompt).bind fun r => ?_
  split
  · exact failLaunch_pinning hasking ..
  · rename_i res
    have hexpect : Uses [.expect] (ext .expect) := .act _ rfl
    refine (hasking.uses hexpect rfl rfl).bind fun ok => ?_
    split
    · have hwrite : Uses [.read, .run] (write (store (.update (.run res.runId)))) :=
        uses_write rfl (.act (.store (.update (.run _))) rfl)
      refine (hasking.uses hwrite rfl rfl).bind fun ok => ?_
      split
      · refine (hasking.uses (uses_emit _ (.stateChanged ..)) rfl rfl).bind fun _ => ?_
        refine (hasking.uses (uses_emit _ (.approvalRequired ..)) rfl rfl).bind fun _ => ?_
        exact activateAndRun_pinning ..
      · exact failLaunch_pinning hasking ..
    · exact failLaunch_pinning hasking ..

theorem workspace_pinning (sess : Row) (opts : LaunchOpts) :
    Pinning cfg t (Launching t sess opts.revive) (workspace sess opts) fun _ =>
      Launching t sess opts.revive := by
  have hlaunching := noted_launching (t := t) sess opts.revive
  unfold workspace
  cases hrevive : opts.revive with
  | false =>
    rw [hrevive] at hlaunching
    have hprepare : Uses [.prepare] (ext .prepare) := .act _ rfl
    exact hlaunching.uses hprepare rfl rfl
  | true =>
    rw [hrevive] at hlaunching
    have hrev : Pinning cfg t (Launching t sess true) (ext (.revive sess.sandboxClaimName))
        fun _ => Launching t sess true := by
      refine .perform hlaunching.stable (fun _ _ _ _ => trivial) ?_
      intro x c r x' _ _ hx _ hdo _
      rw [(approved_perform hdo).2]
      exact hx
    refine hrev.bind fun r => ?_
    cases r <;> exact .ret fun _ _ hx => hx

theorem launchSession_pinning (sess : Row) (opts : LaunchOpts) :
    Pinning cfg t (Launching t sess opts.revive) (launchSession sess opts) fun _ _ => True := by
  have hlaunching := noted_launching (t := t) sess opts.revive
  unfold launchSession
  split
  · refine (hlaunching.uses (uses_beginLaunch ..) rfl rfl).bind fun ok => ?_
    split
    · refine (workspace_pinning sess opts).bind fun r => ?_
      split
      · exact failLaunch_pinning hlaunching ..
      · rename_i claimName sandboxName
        have hwrite : Uses [.read, .sandbox]
            (write (store (.update (.sandbox claimName sandboxName .launching)))) :=
          uses_write rfl (.act (.store (.update (.sandbox ..))) rfl)
        refine (hlaunching.uses hwrite rfl rfl).bind fun ok => ?_
        split
        · exact launchRun_pinning ..
        · exact failLaunch_pinning hlaunching ..
    · exact failLaunch_pinning hlaunching ..
  · exact (hlaunching.uses (uses_endSession ..) rfl rfl).bind fun _ => pinning_done

theorem row_of_getSession {m m' : Mem} {row : Row}
    (h : perform t (.store .getSession) m c = some (some row, m')) : m.db.row = some row := by
  simp only [perform, StoreOp.perform] at h
  split at h
  · exact congrArg Prod.fst (Option.some.inj h)
  · cases h

/-- What a launch reads is pinned. -/
theorem getSession_pinning (revive : Bool) :
    Pinning cfg t (Starting t revive) getSession fun r g =>
      Starting t revive g ∧ ∀ sess, r = some sess → Launching t sess revive g := by
  refine .perform (noted_starting revive).stable (fun _ _ _ _ => trivial) ?_
  intro x c r x' hinv _ hx _ hdo _
  obtain ⟨hm, hpin⟩ := approved_perform hdo
  have hg : x'.2 = x.2 := hpin
  rw [hg]
  refine ⟨hx, ?_⟩
  rintro sess rfl
  cases revive with
  | false => exact hx
  | true =>
    have hrow := row_of_getSession hm
    obtain ⟨htemplate, happrover⟩ := hinv.approver hrow
    obtain ⟨subject, hfirst⟩ := Option.ne_none_iff_exists'.mp hx
    rw [hfirst] at happrover
    exact ⟨hfirst.trans (congrArg some happrover.symm), htemplate.symm⟩

theorem launchBody_pinning (opts : LaunchOpts) :
    Pinning cfg t (Starting t opts.revive) (launchBody opts) fun _ _ => True := by
  refine (getSession_pinning opts.revive).bind fun r => ?_
  cases r with
  | none =>
    refine ((noted_starting opts.revive).uses (uses_failTurn opts _) rfl rfl).of_imp
      (fun _ _ hx => hx.1) |>.bind fun _ => pinning_done
  | some sess =>
    have hlaunching := noted_launching (t := t) sess opts.revive
    have hstopped : Uses [.stopped] (slot .stopped) := .act _ rfl
    refine ((hlaunching.uses hstopped rfl rfl).of_imp fun _ _ hx => hx.2 sess rfl).bind fun r => ?_
    split
    · exact failLaunch_pinning hlaunching ..
    · split
      · refine (hlaunching.uses uses_nextTurn rfl rfl).bind fun r => ?_
        split
        · exact failLaunch_pinning hlaunching ..
        · rename_i turnId turnSeq
          have hnote : Uses [.accepted] (note (.accepted turnId)) := .act _ rfl
          refine (hlaunching.uses hnote rfl rfl).bind fun _ => ?_
          exact launchSession_pinning sess { opts with turnId, turnSeq }
      · exact launchSession_pinning sess opts

theorem launch_pinning (opts : LaunchOpts) :
    Pinning cfg t (Starting t opts.revive) (launch opts) fun _ _ => True := by
  refine (launchBody_pinning opts).bind fun r => ?_
  split
  · have hself : Uses [.self] (ext .self) := .act _ rfl
    refine (noted_true.uses hself rfl rfl).bind fun b => ?_
    exact .spawn noted_true.stable (fun _ _ _ _ _ _ => nofun) pinning_done
  · exact .jump noted_true.stable fun _ _ _ => nofun

/-! ## The calls that launch -/

theorem createSession_pinning (templateSpec : TemplateSpec)
    (approvalPrompt initialPrompt : String) :
    (pinning cfg).Triple t (Unused t) (createSession templateSpec approvalPrompt initialPrompt)
      fun _ _ => True := by
  have hunused : (pinning cfg).Stable t (Unused t) := by
    intro x x' hinv _ ho hx
    have hs := other_spared hinv ho
    exact ⟨hs.unused hx.1, hs.revived.trans hx.2⟩
  have hinsert : (pinning cfg).Triple t (Unused t) (store (.createSession templateSpec))
      fun r x => r = true → Inserting t x.2 := by
    refine .perform hunused (fun _ _ _ _ => trivial) ?_
    intro x c r x' hinv _ hx _ hdo _ hr
    have hnone := (hinv.create hdo).2 hr
    rw [(approved_perform hdo).2]
    simp only [pin, hr, if_true]
    exact ⟨rfl, (hinv.unborn hnone).2, hx.2⟩
  refine hinsert.bind fun r => ?_
  split
  · rename_i hr
    have hclaim : Uses [.claim] (slot (.claim true)) := .act _ rfl
    refine ((noted_inserting.uses hclaim rfl rfl).of_imp fun _ _ hx => hx hr).bind fun _ => ?_
    refine (noted_inserting.uses (uses_emit _ (.stateChanged ..)) rfl rfl).bind fun _ => ?_
    exact launch_pinning { approvalPrompt, agentPrompt := initialPrompt }
  · exact pinning_done

theorem promptSuspended_pinning (content : String) :
    Pinning cfg t (Starting t true) (promptSuspended content) fun _ _ => True := by
  have hstarting := noted_starting (t := t) true
  have hclaim : Uses [.claim] (slot (.claim true)) := .act _ rfl
  have hsettle : Pinning cfg t (Starting t true) (.jump (.settle .nothing))
      fun (_ : Unit) _ => True :=
    .jump hstarting.stable fun _ _ _ => nofun
  refine (hstarting.uses hclaim rfl rfl).bind fun r => ?_
  split
  · refine (hstarting.uses uses_getSession rfl rfl).bind fun r => ?_
    split
    · exact hsettle
    · split
      · exact hsettle
      · refine (hstarting.uses uses_nextTurn rfl rfl).bind fun r => ?_
        split
        · exact hsettle
        · rename_i turnId turnSeq
          have hnote : Uses [.accepted] (note (.accepted turnId)) := .act _ rfl
          refine (hstarting.uses hnote rfl rfl).bind fun _ => ?_
          exact launch_pinning { revive := true, approvalPrompt := content ++ continuationClause,
                                 agentPrompt := content, turnId, turnSeq }
  · exact pinning_done

/-- A session that can be continued has an approver. -/
theorem revivable_pinning : Pinning cfg t (fun _ => True) getSession fun r g =>
    ∀ sess, r = some sess → revivable sess = true → g.first ≠ none := by
  refine .perform noted_true.stable (fun _ _ _ _ => trivial) ?_
  rintro x c r x' hinv - - - hdo - sess rfl hrev hnone
  obtain ⟨hm, hpin⟩ := approved_perform hdo
  have hg : x'.2 = x.2 := hpin
  have happrover := (hinv.approver (row_of_getSession hm)).2
  rw [← hg, hnone] at happrover
  simp [revivable, happrover] at hrev

theorem prompt_pinning (content : String) :
    Pinning cfg t (fun _ => True) (prompt content) fun _ _ => True := by
  refine revivable_pinning.bind fun r => ?_
  split
  · exact pinning_done
  · rename_i sess
    split
    · have hlookup : Uses [.lookup] (slot .lookup) := .act _ rfl
      refine ((noted_true.uses hlookup rfl rfl).of_imp fun _ _ _ => trivial).bind fun r => ?_
      split
      · exact pinning_done
      · exact noted_true.uses (uses_promptRunning ..) rfl rfl
    · split
      · rename_i hsess
        exact (promptSuspended_pinning content).of_imp fun x _ hx => hx sess rfl hsess.2
      · exact pinning_done

/-! ## Every run -/

theorem code_pinning (e : Entry) :
    (pinning cfg).Triple t ((pinning cfg).entry t e) (code cfg e) fun _ _ => True := by
  cases e with
  | createSession templateSpec approvalPrompt initialPrompt =>
    exact (createSession_pinning ..).of_imp fun _ _ hx => hx rfl
  | prompt content => exact (prompt_pinning content).of_imp fun _ _ _ => trivial
  | _ =>
    refine (noted_true.rest (uses_code cfg ?_ ?_) rfl rfl).of_imp fun _ _ _ => trivial
    all_goals nofun

theorem pinning_lawful : (pinning cfg).Lawful where
  inv_act h _ hpre _ hdo := pinning_act h hpre hdo
  inv_env h _ hdo := by
    obtain ⟨hm, hg⟩ := System.observe_env hdo
    obtain ⟨now, pods, heq⟩ := env_eq hm
    exact h.step (by rw [heq]) (by rw [hg]; rfl) (by rw [hg]; rfl) (by rw [hg]; rfl)
  inv_crash h _ := ⟨h.unborn, h.row, h.named⟩
  fresh_other hinv h ho := by
    have hs := other_spared hinv ho
    exact ⟨hs.unused h.1, hs.revived.trans h.2⟩
  fresh_crash _ h _ := h
  entry_start _ h _ _ := fun _ => h
  entry_safe hinv h := (code_pinning _).safe hinv h

/-- The steps of a run in which the authorization server reports no approver other than the
expected subject. -/
def honestStep (s : Config sig (Mem × Pins)) : ThreadLabel sig Choice EnvStep → Prop
  | .run t c => ∀ op ∈ System.pending s t, honest t op s.mem.2 c
  | _ => True

theorem pinning_good {s : Config sig (Mem × Pins)}
    (h : Reach (approved cfg).step honestStep approvedInit s) : (pinning cfg).Good s := by
  have hrun : Reach (approved cfg).step (pinning cfg).ok approvedInit s := by
    refine h.mono fun s l hl => ?_
    cases l with
    | run t c => exact Discipline.ok_run hl
    | _ => trivial
  refine pinning_lawful.sound ?_ (fun _ _ _ _ _ _ => trivial) hrun
  exact ⟨⟨fun _ => ⟨rfl, rfl⟩, nofun, nofun⟩, fun _ _ => ⟨⟨nofun, rfl⟩, rfl⟩, nofun⟩

/-- The servers that a stored template requires. -/
def TemplateSpec.requiredMCPServers : TemplateSpec → List String
  | .snapshot _ requiredMCPServers => requiredMCPServers
  | .empty | .unreadable => []

theorem mcpServerURLs_spec (urls : List String) : (mcpServerURLs urls).Nodup ∧
    ∀ url, url ∈ mcpServerURLs urls ↔ url ≠ "" ∧ url ∈ urls := by
  induction urls using List.reverseRecOn with
  | nil => exact ⟨List.nodup_nil, by simp [mcpServerURLs]⟩
  | append_singleton urls last ih =>
    obtain ⟨hnodup, hmem⟩ := ih
    have hconcat : mcpServerURLs (urls ++ [last]) =
        if last = "" ∨ last ∈ mcpServerURLs urls then mcpServerURLs urls
        else mcpServerURLs urls ++ [last] := List.foldl_concat ..
    rw [hconcat]
    split
    · next hskip =>
      refine ⟨hnodup, fun url => ?_⟩
      rw [hmem] at hskip ⊢
      grind
    · next hnew =>
      rw [not_or] at hnew
      refine ⟨List.nodup_append.mpr ⟨hnodup, List.nodup_singleton _, by grind⟩, fun url => ?_⟩
      rw [List.mem_append, hmem]
      grind

/-- A run for the servers of a template is for those it requires, each of them once. -/
theorem TemplateSpec.mcpServers_spec (template : TemplateSpec) : template.mcpServers.Nodup ∧
    ∀ url, url ∈ template.mcpServers ↔ url ≠ "" ∧ url ∈ template.requiredMCPServers := by
  cases template with
  | snapshot name urls => exact mcpServerURLs_spec urls
  | empty | unreadable => exact mcpServerURLs_spec []

/-- In every run of any number of sessions, with an honest authorization server: a run that is
created to revive a session expects the first approver that was recorded, and is for the servers
that the template required which was stored when the session was created; and the row keeps that
approver and that template. -/
theorem continuation_pinned {ι : Type} [DecidableEq ι] (cfg : Settings)
    {s : ι → Config sig (Mem × Pins)}
    (h : Reach (family (approved cfg).step) (fun a l => honestStep (a l.1) l.2)
      (fun _ => approvedInit) s) (i : ι) :
    (∀ t prompt subject servers,
      .ext (.createRun prompt subject servers) ∈ System.pending (s i) t →
      (s i).mem.2.revived t = true →
      subject ≠ "" ∧ (s i).mem.2.first = some subject ∧
        servers = (s i).mem.2.template.mcpServers ∧ servers.Nodup ∧
        ∀ url, url ∈ servers ↔ url ≠ "" ∧ url ∈ (s i).mem.2.template.requiredMCPServers) ∧
    ∀ row ∈ (s i).mem.1.db.row, row.templateSpec = (s i).mem.2.template ∧
      row.approverSubject = (s i).mem.2.first.getD "" ∧ (s i).mem.2.first ≠ some "" := by
  have hgood : (pinning cfg).Good (s i) := pinning_good (h.member i fun _ _ hl => hl)
  constructor
  · intro t prompt subject servers hpending hrevived
    obtain ⟨hne, hfirst, rfl⟩ := hgood.pre_pending hpending trivial hrevived
    exact ⟨hne, hfirst, rfl, TemplateSpec.mcpServers_spec _⟩
  · intro row hrow
    obtain ⟨htemplate, happrover⟩ := hgood.inv.approver hrow
    exact ⟨htemplate, happrover, hgood.inv.named⟩

instance (t : ℕ) (op : Op) (g : Pins) (c : Choice) : Decidable (honest t op g c) := by
  unfold honest
  split <;> infer_instance

instance (s : Config sig (Mem × Pins)) : (l : ThreadLabel sig Choice EnvStep) →
    Decidable (honestStep s l)
  | .run t c => inferInstanceAs (Decidable (∀ op ∈ System.pending s t, honest t op s.mem.2 c))
  | .start _ | .env _ | .crash => inferInstanceAs (Decidable True)

/-- A session of a template with two servers, one of them named twice, is approved by `u` and
paused, and a Prompt gets to create its run. -/
def continued : List (ThreadLabel sig Choice EnvStep) :=
  List.flatten [[.start (.createSession (.snapshot "" ["a", "b", "", "a"]) "" "")], pausing.tail,
    [.start (.prompt "p")], steps 4 13]

/-- The state after `continued`, of a family with one session. -/
def approvedAfter : Unit → Config sig (Mem × Pins) :=
  (exec (family (approved idleLimit).step) (fun _ => approvedInit)
    (continued.map fun l => ((), l))).getD fun _ => approvedInit

theorem continuation_pinned_continued :
    .ext (.createRun ("p" ++ continuationClause) "u" ["a", "b"]) ∈
      System.pending (approvedAfter ()) 4 ∧
    (approvedAfter ()).mem.2.first = some "u" ∧
    ∀ url, url ∈ ["a", "b"] ↔
      url ≠ "" ∧ url ∈ (approvedAfter ()).mem.2.template.requiredMCPServers := by
  have hreach : Reach (family (approved idleLimit).step) (fun a l => honestStep (a l.1) l.2)
      (fun _ => approvedInit) approvedAfter :=
    Reach.of_exec_guarded _ (by decide)
  have hpending : .ext (.createRun ("p" ++ continuationClause) "u" ["a", "b"]) ∈
      System.pending (approvedAfter ()) 4 := by decide
  have hrevived : (approvedAfter ()).mem.2.revived 4 = true := by decide
  obtain ⟨-, hfirst, -, -, hservers⟩ :=
    (continuation_pinned idleLimit hreach ()).1 4 _ "u" _ hpending hrevived
  exact ⟨hpending, hfirst, hservers⟩

end AgentOps.Service
