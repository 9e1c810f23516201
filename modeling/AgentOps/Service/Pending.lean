import AgentOps.Service.Standing

/-!
# When a session is pending

A session counts against the pending approvals of its client while a launch owns it in this process,
and while its stored status is one of a launch (`checkQuotas` and `launchesOf` of
`harnessapi/quota.go` and `owner.go`).

The discipline: a thread that writes a pending status owns the session as a launch, or the stored
status is a pending one already.
-/

namespace AgentOps.Service.Admission

open AgentOps.Api AgentOps.Link AgentOps.Lib

/-! ## What is counted -/

/-- The statuses that `checkQuotas` counts as pending. -/
def pendingStatus : SessionState → Bool
  | .pending | .launching | .awaitingApproval => true
  | _ => false

/-- The session is one of `launchesOf`. -/
def launchOwned (s : Slot) : Bool :=
  s.entry.any fun o => (s.owners o).cancel && !(s.owners o).live

/-- The stored status is a pending one. -/
def storedPending (m : Mem) : Bool := m.status.any pendingStatus

/-- The session is being launched in this process, or is stored as pending. -/
def isPending (m : Mem) : Bool := launchOwned m.slot || storedPending m

/-- The session is stored and not over. -/
def isLive (m : Mem) : Bool := m.status.any fun st => !st.terminal

/-! ## The status after an operation -/

variable {cfg : Settings} {t u : ℕ} {op : Op} {c : Choice} {r : op.Res} {m m' : Mem}

/-- What an operation does to the stored status. -/
inductive StatusStep (m m' : Mem) : Op → Prop
  | same {op : Op} (h : m'.status = m.status) : StatusStep m m' op
  | created (templateSpec : TemplateSpec) (hnone : m.status = none)
      (h : m'.status = some .pending) : StatusStep m m' (.store (.createSession templateSpec))
  | updated (x : Update) (st : SessionState) (hx : x.target = some st)
      (h : m'.status = m.status.map fun _ => st) : StatusStep m m' (.store (.update x))
  | finished (st : SessionState) (events : List (String × Payload)) (h : m'.status = some st) :
      StatusStep m m' (.store (.finishSession st events))

theorem update_status_target (x : Update) (now : ℕ) (d : Db) :
    (d.update (x.apply now)).row.map Row.status =
      (x.target.elim (d.row.map Row.status) fun st => (d.row.map Row.status).map fun _ => st) := by
  unfold Db.update
  cases d.row with
  | none => cases x <;> rfl
  | some row => cases x <;> rfl

theorem perform_status (h : perform t op m c = some (r, m')) : StatusStep m m' op := by
  cases op with
  | slot op =>
    obtain ⟨slot, binds, creator, rfl⟩ := SlotOp.perform_eq h
    exact .same rfl
  | store op =>
    cases op with
    | createSession templateSpec =>
      simp only [perform, StoreOp.perform] at h
      split at h
      · rename_i hok
        simp only [Bool.and_eq_true, Option.isNone_iff_eq_none] at hok
        cases h
        exact .created templateSpec (by rw [Mem.status, hok.2]; rfl) rfl
      · cases h
        exact .same rfl
    | update x =>
      simp only [perform, StoreOp.perform] at h
      split at h
      · cases h
        cases hx : x.target with
        | none =>
          apply StatusStep.same
          show (m.db.update (x.apply m.unix)).row.map Row.status = _
          rw [update_status_target, hx]
          rfl
        | some st =>
          apply StatusStep.updated x st hx
          show (m.db.update (x.apply m.unix)).row.map Row.status = _
          rw [update_status_target, hx]
          rfl
      · cases h
        exact .same rfl
    | finishSession st events =>
      simp only [perform, StoreOp.perform] at h
      split at h
      · cases h
        show StatusStep m { m with db := (m.db.finishSession m.unix st events).2 } _
        unfold Db.finishSession
        split
        · exact .same rfl
        · split
          · exact .same rfl
          · exact .finished st events rfl
      · cases h
        exact .same rfl
    | _ => exact .same (perform_still (by trivial) h).status
  | ext op => exact .same (perform_still (by trivial) h).status
  | bind b op =>
    apply StatusStep.same
    cases op with
    | create claimName pod syncing turns => cases h; rfl
    | closeReady => cases h; rfl
    | _ => exact (perform_still (by trivial) h).status
  | note op =>
    have hstill : Op.still (.note op) := trivial
    exact .same (perform_still (t := t) (c := c) hstill h).status

/-! ## The owner after an operation -/

/-- Only a claim with a `cancel` makes an entry that is one of `launchesOf`. -/
theorem launchOwned_claim (s : Slot) (hu : s.Unused t)
    (h : launchOwned (s.claim t false).2 = true) : launchOwned s = true := by
  cases he : s.entry with
  | none =>
    rw [Slot.claim_of_none he] at h
    simp [launchOwned] at h
  | some o =>
    have hne : o ≠ t := by
      rintro rfl
      exact hu.2.2 he
    rw [Slot.claim_of_some he] at h
    simpa [launchOwned, he, hne] using h

theorem launchOwned_register (s : Slot) (h : launchOwned (s.register t).2 = true) :
    launchOwned s = true := by
  unfold Slot.register at h
  split at h
  · exact h
  · rename_i hentry
    have hentry : s.entry = some t := by
      by_contra hne
      exact hentry (.inl hne)
    simp [launchOwned, hentry] at h

theorem launchOwned_takeStop (s : Slot) (h : launchOwned (s.takeStop t).2 = true) :
    launchOwned s = true := by
  unfold Slot.takeStop at h
  split at h
  · exact h
  · cases he : s.entry with
    | none => simp [launchOwned, he] at h
    | some o =>
      by_cases hne : o = t
      · subst hne
        simpa [launchOwned, he] using h
      · simpa [launchOwned, he, hne] using h

theorem launchOwned_finish (s : Slot) (h : launchOwned (s.finish t).2 = true) :
    launchOwned s = true := by
  unfold Slot.finish at h
  split at h
  · cases he : s.entry with
    | none => simp [launchOwned, he] at h
    | some o =>
      by_cases hne : o = t
      · subst hne
        simpa [launchOwned, he] using h
      · simpa [launchOwned, he, hne] using h
  · by_cases he : s.entry = some t
    · simp [launchOwned, he] at h
    · cases hs : s.entry with
      | none => simp [launchOwned, hs] at h
      | some o =>
        have hne : o ≠ t := by
          rintro rfl
          exact he hs
        simpa [launchOwned, hs, hne, he] using h

theorem launchOwned_detachOwned (s : Slot) {o : ℕ} (he : s.entry = some o) (spec : StopSpec)
    (h : launchOwned (s.detachOwned o spec).2 = true) : launchOwned s = true := by
  unfold Slot.detachOwned at h
  dsimp only at h
  split at h <;> split at h <;> simpa [launchOwned, he] using h

theorem launchOwned_detach (want : Option ℕ) (spec : StopSpec)
    (h : launchOwned (m.detach t want spec).2.slot = true) : launchOwned m.slot = true := by
  unfold Mem.detach at h
  split at h
  · exact h
  · split at h
    · simp [launchOwned, Slot.hold] at h
    · rename_i o he
      split at h
      · split at h
        · exact h
        · simp [launchOwned, Slot.hold] at h
      · exact launchOwned_detachOwned m.slot he spec h

/-- Only the claim of a launch adds to `launchesOf`. -/
theorem launchOwned_perform (hpre : (protocol cfg).pre t op m) (hop : op ≠ .slot (.claim true))
    (hdo : perform t op m c = some (r, m')) (h : launchOwned m'.slot = true) :
    launchOwned m.slot = true := by
  cases op with
  | slot op =>
    cases op with
    | claim cancel =>
      cases cancel with
      | true => exact absurd rfl hop
      | false =>
        cases hdo
        exact launchOwned_claim m.slot hpre h
    | register =>
      cases hdo
      exact launchOwned_register m.slot h
    | takeStop =>
      cases hdo
      exact launchOwned_takeStop m.slot h
    | finish =>
      cases hdo
      exact launchOwned_finish m.slot h
    | detach want spec =>
      have hm : m' = (m.detach t want spec).2 := by rw [Option.some.inj hdo]
      rw [hm] at h
      exact launchOwned_detach want spec h
    | ran =>
      cases hdo
      exact h
    | _ =>
      rw [(perform_still (by trivial) hdo).slot] at h
      exact h
  | note op =>
    rw [note_slot hdo] at h
    exact h
  | _ =>
    have hslot : m'.slot = m.slot := perform_slot (by trivial) hdo
    rw [hslot] at h
    exact h

/-! ## The discipline -/

/-- The first write of a launch is made by the owner; another write of a pending status finds
one. -/
def grounded (x : Update) (m : Mem) : Prop :=
  match x with
  | .launched => launchOwned m.slot = true
  | x => ∀ st, x.target = some st → pendingStatus st = true → storedPending m = true

/-- What a thread promises. -/
def pendingPre (op : Op) (m : Mem) : Prop :=
  match op with
  | .store (.update x) => grounded x m
  | _ => True

/-- The discipline of the pending statuses. -/
def pendings (cfg : Settings) : Discipline (system cfg) where
  inv _ := True
  pre _ := pendingPre
  entry _ _ _ := True
  fresh _ _ := True
  given := Standing cfg
  allow t op m _ := orderly t op m

/-! ### What the others leave alone -/

/-- The owner of `t` keeps its `cancel`. -/
theorem cancel_detachOwned (s : Slot) (o : ℕ) (spec : StopSpec) :
    ((s.detachOwned o spec).2.owners t).cancel = (s.owners t).cancel := by
  by_cases ht : t = o
  · subst ht
    unfold Slot.detachOwned
    dsimp only
    split <;> split <;> simp
  · rw [(Slot.detachOwned_touches s o spec).owners t ht]

theorem cancel_hold (s : Slot) (hne : u ≠ t) (victim : Option ℕ) :
    ((s.hold u victim).owners t).cancel = (s.owners t).cancel := by
  simp [Slot.hold, Ne.symm hne]

theorem cancel_detach (hne : u ≠ t) (want : Option ℕ) (spec : StopSpec) :
    ((m.detach u want spec).2.slot.owners t).cancel = (m.slot.owners t).cancel := by
  unfold Mem.detach
  split
  · rfl
  · split
    · exact cancel_hold m.slot hne none
    · rename_i o _
      split
      · split
        · rfl
        · exact cancel_hold m.slot hne (some o)
      · exact cancel_detachOwned m.slot o spec

theorem cancel_perform (hne : u ≠ t) (hdo : perform u op m c = some (r, m')) :
    (m'.slot.owners t).cancel = (m.slot.owners t).cancel := by
  cases op with
  | slot op =>
    cases op with
    | claim cancel =>
      cases hdo
      rw [(Slot.claim_touches m.slot u cancel).owners t hne.symm]
    | register =>
      cases hdo
      rw [(Slot.register_touches m.slot u).owners t hne.symm]
    | takeStop =>
      cases hdo
      rw [(Slot.takeStop_touches m.slot u).owners t hne.symm]
    | finish =>
      cases hdo
      rw [(Slot.finish_touches m.slot u).owners t hne.symm]
    | detach want spec =>
      have hm : m' = (m.detach u want spec).2 := by rw [Option.some.inj hdo]
      rw [hm]
      exact cancel_detach hne want spec
    | ran =>
      cases hdo
      rfl
    | _ => rw [(perform_still (by trivial) hdo).slot]
  | note op => rw [note_slot hdo]
  | _ =>
    have hslot : m'.slot = m.slot := perform_slot (by trivial) hdo
    rw [hslot]

/-- What a step of another thread leaves to thread `t`. -/
structure Spares (t : ℕ) (m m' : Mem) : Prop where
  taken : (m'.slot.hist t).taken = (m.slot.hist t).taken
  victim : (m'.slot.hist t).victim = (m.slot.hist t).victim
  cancel : (m'.slot.owners t).cancel = (m.slot.owners t).cancel
  live : (m'.slot.owners t).live = (m.slot.owners t).live
  ready : (m'.binds t).ready = (m.binds t).ready
  creator : m.creator = some t → m'.creator = some t
  status : Writer t m → m'.status = m.status

theorem other_spares (h : (pendings cfg).Other t m m') : Spares t m m' := by
  cases h with
  | act u op c r hne hgiven _ hallow hdo =>
    have hkeeps := hgiven.keeps hne hallow hdo
    exact ⟨hkeeps.taken, hkeeps.victim, cancel_perform hne hdo, hkeeps.own, hkeeps.unready,
      hkeeps.creator, fun hw => (hkeeps.ledger (.inl hw)).1⟩
  | env l _ hdo =>
    obtain ⟨now, pods, rfl⟩ := env_eq hdo
    exact ⟨rfl, rfl, rfl, rfl, rfl, fun h => h, fun _ => rfl⟩
  | start u e v _ _ _ hsame =>
    rw [hsame]
    exact ⟨rfl, rfl, rfl, rfl, rfl, fun h => h, fun _ => rfl⟩

/-! ### Assertions -/

/-- Thread `t` owns the session as a launch. -/
structure Owning (t : ℕ) (m : Mem) : Prop where
  taken : (m.slot.hist t).taken = true
  victim : (m.slot.hist t).victim = none
  cancel : (m.slot.owners t).cancel = true

/-- The launch of thread `t` has written a pending status. -/
def Begun (t : ℕ) (m : Mem) : Prop := Owning t m ∧ storedPending m = true

/-- It has made its binding. -/
def Bound (t : ℕ) (m : Mem) : Prop := Begun t m ∧ (m.binds t).ready = false

/-- It has registered, and the stored status is a pending one still. -/
def Registered (t : ℕ) (m : Mem) : Prop := Activating t m ∧ storedPending m = true

theorem Owning.writer (h : Owning t m) : Writer t m := by
  refine .inl ⟨h.taken, ?_⟩
  intro b hb
  rw [h.victim] at hb
  cases hb

theorem Owning.launchOwned (h : Owning t m) (hinv : LedgerInv m) : launchOwned m.slot = true := by
  obtain ⟨hentry, hlive⟩ := hinv.slot.taken_entry t h.taken
  simp [Admission.launchOwned, hentry, hlive, h.cancel]

theorem storedPending_congr (h : m'.status = m.status) : storedPending m' = storedPending m := by
  unfold storedPending
  rw [h]

/-- An assertion that only depends on the owner, the status and the binding of the thread. -/
structure Private (t : ℕ) (A : Mem → Prop) : Prop where
  spares : ∀ {m m' : Mem}, Spares t m m' → A m → A m'
  still : ∀ {m m' : Mem}, Still m m' → A m → A m'

theorem private_true : Private t fun _ => True := ⟨fun _ _ => trivial, fun _ _ => trivial⟩

theorem private_owning : Private t (Owning t) where
  spares h hm := ⟨h.taken.trans hm.taken, h.victim.trans hm.victim, h.cancel.trans hm.cancel⟩
  still h hm := by
    exact ⟨by rw [h.slot]; exact hm.taken, by rw [h.slot]; exact hm.victim,
      by rw [h.slot]; exact hm.cancel⟩

theorem private_begun : Private t (Begun t) where
  spares h hm := by
    refine ⟨private_owning.spares h hm.1, ?_⟩
    rw [storedPending_congr (h.status hm.1.writer)]
    exact hm.2
  still h hm := by
    refine ⟨private_owning.still h hm.1, ?_⟩
    rw [storedPending_congr h.status]
    exact hm.2

theorem private_bound : Private t (Bound t) where
  spares h hm := ⟨private_begun.spares h hm.1, h.ready.trans hm.2⟩
  still h hm := ⟨private_begun.still h hm.1, (h.ready t).trans hm.2⟩

theorem private_registered : Private t (Registered t) where
  spares h hm := by
    refine ⟨⟨h.live.trans hm.1.1, h.ready.trans hm.1.2⟩, ?_⟩
    rw [storedPending_congr (h.status (.inr hm.1))]
    exact hm.2
  still h hm := by
    refine ⟨⟨by rw [h.slot]; exact hm.1.1, (h.ready t).trans hm.1.2⟩, ?_⟩
    rw [storedPending_congr h.status]
    exact hm.2

/-! ## Rules -/

variable {A : Mem → Prop} {α : Type}

/-- A program of a thread, under the discipline of the pending statuses. -/
abbrev Pends (cfg : Settings) (t : ℕ) (A : Mem → Prop) {α : Type} (p : P α)
    (Q : α → Mem → Prop) : Prop :=
  (pendings cfg).Triple t A p Q

theorem Private.stable (h : Private t A) : (pendings cfg).Stable t A :=
  fun _ _ _ _ ho hA => h.spares (other_spares ho) hA

/-- The operations that write a pending status. -/
def pendingKinds : List Kind := [.launched, .sandbox, .acp, .run]

/-- The operations that move the owner, the status or a binding. -/
def movingKinds : List Kind :=
  [.claim, .register, .takeStop, .detach, .finish, .ran, .create, .sandbox, .acp, .approver,
   .suspended, .launched, .run, .link, .finishSession, .finishOther, .bind, .closeReady]

theorem pendingPre_of_kind (h : op.kind ∉ pendingKinds) : pendingPre op m := by
  unfold pendingPre
  split
  · rename_i x
    cases x with
    | approver subject | link streamId podSeq =>
      intro st hst
      cases hst
    | suspended suspendedAt =>
      intro st hst hpending
      cases hst
      cases hpending
    | _ => exact absurd (List.elem_iff.mp rfl) h
  · trivial

theorem pendingPre_of_still (h : op.still) : pendingPre op m := by
  unfold pendingPre
  split
  · exact h.elim
  · trivial

theorem still_of_kind (h : op.kind ∉ movingKinds) : op.still := by
  cases op with
  | slot op => cases op <;> first | trivial | exact h (List.elem_iff.mp rfl)
  | store op =>
    cases op with
    | update x => cases x <;> exact h (List.elem_iff.mp rfl)
    | finishSession status events => exact h (finishSession_kind rfl rfl status events)
    | createSession templateSpec => exact h (List.elem_iff.mp rfl)
    | _ => trivial
  | bind b op => cases op <;> first | trivial | exact h (List.elem_iff.mp rfl)
  | _ => trivial

/-- The rest of a program that writes no pending status. -/
theorem pends_rest {kinds : List Kind} {p : P α} (hp : Uses kinds p)
    (hpend : (pendingKinds.any fun ρ => kinds.elem ρ) = false) :
    Pends cfg t A p fun _ _ => True := by
  have htrue : Pends cfg t (fun _ => True) p fun _ _ => True := by
    refine Discipline.Triple.of_within private_true.stable ?_ ?_ ?_ hp
    · intro op m hop _ _ _
      apply pendingPre_of_kind
      intro h
      rw [List.any_eq_false] at hpend
      exact hpend _ h (List.elem_iff.mpr hop)
    · intro op m c r m' _ _ _ _ _ _ _
      trivial
    · intro e m u _ _ _ _
      trivial
  exact htrue.of_imp fun _ _ _ => trivial

/-- A program that moves nothing keeps what a thread knows. -/
theorem Private.uses {kinds : List Kind} {p : P α} (hA : Private t A) (hp : Uses kinds p)
    (hmove : (movingKinds.any fun ρ => kinds.elem ρ) = false) :
    Pends cfg t A p fun _ => A := by
  have hstill (op : Op) (hop : op.kind ∈ kinds) : op.still := by
    apply still_of_kind
    intro h
    rw [List.any_eq_false] at hmove
    exact hmove _ h (List.elem_iff.mpr hop)
  refine Discipline.Triple.of_within hA.stable ?_ ?_ ?_ hp
  · intro op m hop _ _ _
    exact pendingPre_of_still (hstill op hop)
  · intro op m c r m' hop _ _ hm _ hdo _
    exact hA.still (perform_still (hstill op hop) hdo) hm
  · intro e m u _ _ _ _
    trivial

theorem pends_done {a : α} : Pends cfg t A (pure a) fun _ _ => True :=
  .ret fun _ _ _ => trivial

end AgentOps.Service.Admission
