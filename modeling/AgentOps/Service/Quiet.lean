import AgentOps.Service.Footprint

/-!
# Programs that leave the owner map and the state alone

Most of a program's steps are calls of the launcher, sections of a binding, and events that
tell what the agent did. A `Plain` program has no others, and a `Quiet` one may also write the
state of the session; so a proof about the owner map passes over the quiet programs, and one
about the state over the plain ones. Its footprint tells which of them a program is.
-/

namespace AgentOps.Service

open AgentOps.Api AgentOps.Link AgentOps.Lib

/-- The state change that an event records. -/
def stateChange : Payload → Option (SessionState × SessionState)
  | .stateChanged old new _ => some (old, new)
  | _ => none

/-- The event neither ends the session nor changes its state. -/
def ordinary (p : Payload) : Prop := stateChange p = none ∧ p.isSessionEnded = false

/-- The operation does not change the owner map, and is not an answer of `EndSession`. -/
def Op.offSlot : Op → Prop
  | .slot .lookup | .slot .stopped | .slot (.await _) => True
  | .slot _ => False
  | .note .endOk => False
  | _ => True

/-- The operation also does not write the state of the session. -/
def Op.plain : Op → Prop
  | .slot .lookup | .slot .stopped | .slot (.await _) => True
  | .slot _ => False
  | .store (.createSession _) | .store (.update _) | .store (.finishSession _ _) => False
  | .store (.recordEvent _ p) => ordinary p
  | .bind _ (.create _ _ _ _) | .bind _ .closeReady => False
  | .bind _ (.recordPod _ p _) | .bind _ (.record _ p) => ordinary p
  | .note .endOk => False
  | _ => True

/-- The program starts no `settle`. -/
def unsettled (e : Entry) : Prop := ∀ after, e ≠ .settle after

/-- The program does not change the owner map, is not an answer of `EndSession`, and starts no
`settle`. -/
abbrev Quiet {α : Type} (p : P α) : Prop := Prog.Only Op.offSlot unsettled p

/-- The program also writes no state. -/
abbrev Plain {α : Type} (p : P α) : Prop := Prog.Only Op.plain unsettled p

theorem Op.plain.offSlot {op : Op} (h : op.plain) : op.offSlot := by
  cases op with
  | slot op => cases op <;> trivial
  | note op => cases op <;> trivial
  | _ => trivial

/-- A plain program is quiet. -/
theorem quiet_of_plain {α : Type} {p : P α} (h : Plain p) : Quiet p :=
  h.mono (fun _ => Op.plain.offSlot) (fun _ he => he) fun _ he => he

theorem quiet_store (op : StoreOp) : Quiet (store op) := .perform trivial

theorem quiet_ext (op : ExtOp) : Quiet (ext op) := .perform trivial

theorem quiet_bind (b : ℕ) (op : BindOp) : Quiet (onBinding b op) := .perform trivial

theorem quiet_note (op : NoteOp) (h : Op.offSlot (.note op)) : Quiet (note op) := .perform h

theorem quiet_pure {α : Type} (a : α) : Quiet (pure a : P α) := trivial

theorem plain_ext (op : ExtOp) : Plain (ext op) := .perform trivial

theorem plain_bind (b : ℕ) (op : BindOp) (h : Op.plain (.bind b op)) : Plain (onBinding b op) :=
  .perform h

/-! ## Footprints -/

/-- Operations of the kind do not change the owner map and are not an answer of `EndSession`, and no
program is of the kind. -/
def Kind.quiet : Kind → Bool
  | .claim | .register | .takeStop | .detach | .finish | .ran | .endOk => false
  | .settle | .consume | .watchRun | .stop | .call => false
  | _ => true

/-- They also write no state. -/
def Kind.plain : Kind → Bool
  | .create | .sandbox | .acp | .approver | .suspended | .launched | .run | .link => false
  | .finishSession | .finishOther | .changed | .ended | .podChanged | .podEnded | .dropEvent =>
    false
  | .bind | .closeReady => false
  | ρ => ρ.quiet

theorem Op.offSlot_of_kind {op : Op} (h : op.kind.quiet = true) : op.offSlot := by
  cases op with
  | slot op => cases op <;> trivial
  | note op => cases op <;> trivial
  | _ => trivial

theorem Op.plain_of_kind {op : Op} (h : op.kind.plain = true) : op.plain := by
  cases op with
  | slot op => cases op <;> trivial
  | store op =>
    cases op with
    | createSession => cases h
    | update u => cases u <;> cases h
    | finishSession status events =>
      simp only [Op.kind, StoreOp.kind] at h
      split at h <;> cases h
    | recordEvent turnId p => cases p <;> first | exact ⟨rfl, rfl⟩ | cases h
    | _ => trivial
  | ext op => trivial
  | bind b op =>
    cases op with
    | create | closeReady => cases h
    | recordPod turnId p seq => cases p <;> first | exact ⟨rfl, rfl⟩ | cases h
    | record turnId p => cases p <;> first | exact ⟨rfl, rfl⟩ | cases h
    | _ => trivial
  | note op => cases op <;> trivial

section

variable {α : Type} {kinds : List Kind} {p : P α}

/-- A program whose footprint has no programs. -/
theorem Uses.only (h : Uses kinds p) {N : Op → Prop} {E : Entry → Prop}
    (hN : ∀ op, op.kind ∈ kinds → N op) (hE : ∀ e : Entry, e.kind ∉ kinds) : p.Only N E :=
  Prog.Bounded.mono hN (fun e he => absurd he (hE e)) hE h

theorem Kind.quiet_of_plain {ρ : Kind} (h : ρ.plain = true) : ρ.quiet = true := by
  cases ρ <;> first | rfl | cases h

theorem Entry.not_quiet (e : Entry) : e.kind.quiet ≠ true := by cases e <;> nofun

theorem Uses.quiet (h : Uses kinds p) (hk : kinds.all Kind.quiet = true) : Quiet p := by
  rw [List.all_eq_true] at hk
  exact h.only (fun op hop => Op.offSlot_of_kind (hk _ hop)) fun e he => e.not_quiet (hk _ he)

theorem Uses.plain (h : Uses kinds p) (hk : kinds.all Kind.plain = true) : Plain p := by
  rw [List.all_eq_true] at hk
  exact h.only (fun op hop => Op.plain_of_kind (hk _ hop)) fun e he =>
    e.not_quiet (Kind.quiet_of_plain (hk _ he))

end

/-! ## Programs -/

theorem plain_emit (turnId : String) {p : Payload} (hp : ordinary p) : Plain (emit turnId p) :=
  Prog.Bounded.bind (.perform hp) fun _ => trivial

theorem plain_stopUnlinked (t : ℕ) (opts : LaunchOpts) (opening : Bool) :
    Plain (stopUnlinked t opts opening) := by
  have hfail : Plain (do
      emit opts.turnId (.turnFailed unrecorded)
      onBinding t (.leave opts.turnId) : P Unit) :=
    (plain_emit _ ⟨rfl, rfl⟩).bind fun _ => .perform trivial
  exact hfail.when.bind fun _ => ⟨fun _ => Entry.noConfusion, trivial⟩

theorem logPayload_plain {deadline : ℕ} {payload : AgentPayload} {p : Payload}
    (h : logPayload deadline payload = some p) : ordinary p := by
  cases payload <;> simp only [logPayload] at h <;> (try split at h) <;> cases h <;>
    exact ⟨rfl, rfl⟩

theorem plain_handleEvent (cfg : Settings) (b : ℕ) (ev : AgentEvent) :
    Plain (handleEvent cfg b ev) := by
  unfold handleEvent
  split
  · refine Prog.Bounded.bind (.perform trivial) fun ok => ?_
    split
    · exact ⟨fun _ => Entry.noConfusion, trivial⟩
    · trivial
  · exact (uses_handlePermission ..).plain rfl
  · split
    · exact .perform trivial
    · rename_i p hp
      refine Prog.Bounded.bind (.perform (logPayload_plain hp)) fun ok => ?_
      split
      · exact Prog.Bounded.bind (.when (.perform trivial)) fun _ => trivial
      · trivial

theorem quiet_emit (turnId : String) (p : Payload) : Quiet (emit turnId p) :=
  (quiet_store _).bind fun _ => trivial

theorem quiet_write {update : P Bool} (h : Quiet update) : Quiet (write update) := by
  refine (quiet_store _).bind fun r => ?_
  split
  · trivial
  · split
    · trivial
    · exact h

theorem quiet_endSession (old : SessionState) (reason : EndReason) (detail : String)
    (preface : List (String × Payload)) : Quiet (endSession old reason detail preface) := by
  refine (quiet_store _).bind fun r => ?_
  split <;> trivial

theorem quiet_runRegistered (t : ℕ) (opts : LaunchOpts) (opening : Bool)
    (claimName sandboxName : String) (ready : String × ℕ) :
    Quiet (runRegistered t opts opening claimName sandboxName ready) := by
  have hrun (linked : Bool) :
      Quiet (if linked then runLinked t opts opening else stopUnlinked t opts opening) := by
    split
    · exact (uses_runLinked ..).quiet rfl
    · exact quiet_of_plain (plain_stopUnlinked ..)
  exact ((uses_recordLink ..).quiet rfl).bind fun linked =>
    ⟨fun _ => Entry.noConfusion, (hrun linked).bind fun _ => quiet_bind t _⟩

end AgentOps.Service
