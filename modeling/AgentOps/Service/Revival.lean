import AgentOps.Lib.Observe
import AgentOps.Service.LedgerTheorems

/-!
# Continuations of a suspended session

A Prompt continues a suspended session: it claims it and launches it again. An observer follows
the continuation from its claim: it notes the row that was claimed, and forgets it when the
session is recorded as running, when an end is asked for, at the second failure, and when the
process dies. What it still remembers when the owner has left the map is a continuation that
failed once and gave the session up.

This is the discipline of such a continuation: until the session runs, its launch is the only
writer, and it writes nothing that it does not put back.
-/

namespace AgentOps.Service

open AgentOps.Api AgentOps.Link AgentOps.Lib

variable {c : Choice} {b : ℕ}

/-! ## The observer -/

/-- A continuation: its thread, the row that it claimed, and whether a call of it has failed. -/
structure Continuation where
  thread : ℕ
  row : Row
  failed : Bool := false
deriving DecidableEq

variable {g : Option Continuation}

/-- The session is suspended, and a Prompt may continue it. -/
def resumable (r : Row) : Bool := r.status = .suspended && revivable r

/-- The result says that the call failed, for the calls that a launch can fail with. -/
def Op.failed : (op : Op) → op.Res → Bool
  | .store .getSession, r => Option.isNone r
  | .store (.update _), r => !r
  | .store .nextTurnSeq, r => Option.isNone r
  | .ext (.revive _), r => Option.isNone r
  | .ext (.createRun _ _ _), r => Option.isNone r
  | .ext .expect, r => !r
  | .ext .spawnAgent, r => !r
  | .ext .awaitReady, r => match r with
    | .ok _ => false
    | .error _ => true
  | _, _ => false

variable {op : Op} {r : op.Res}

/-- A call of thread `t` has failed. -/
def blame (t : ℕ) (k : Option Continuation) : Option Continuation :=
  k.bind fun x =>
    if x.thread = t then if x.failed then none else some { x with failed := true } else some x

/-- An end of the session is asked for, or the session is taken for one. -/
def asked (want : Option ℕ) (spec : StopSpec) (m : Mem) : Prop :=
  (want = none ∨ m.slot.entry = want) ∧ (spec.suspend = .unspecified ∨ m.slot.entry = none)

instance (want : Option ℕ) (spec : StopSpec) (m : Mem) : Decidable (asked want spec m) := by
  unfold asked
  infer_instance

/-- What is remembered of a continuation after an operation of thread `t`. -/
def follow (t : ℕ) (op : Op) (r : op.Res) (m : Mem) (k : Option Continuation) :
    Option Continuation :=
  match op, r with
  | .slot (.claim cancel), r =>
    if r = false then k
    else if cancel then (m.db.row.filter fun row => resumable row).map fun row => ⟨t, row, false⟩
    else none
  | .slot (.detach want spec), _ => if asked want spec m then none else k
  | .store (.update (.acp _ .running)), r => if r = true then none else blame t k
  | op, r => if op.failed r then blame t k else k

def observer : Observer sig Mem EnvStep (Option Continuation) where
  act := follow
  crash _ := none

/-- The service of one session, with the continuation that is under way. -/
def observed (cfg : Settings) : System sig (Mem × Option Continuation) Choice EnvStep :=
  (system cfg).observe observer

def observedInit : Config sig (Mem × Option Continuation) where
  mem := ({}, none)

theorem observed_perform {cfg : Settings} {t : ℕ} {x x' : Mem × Option Continuation}
    (h : (observed cfg).perform t op x c = some (r, x')) :
    perform t op x.1 c = some (r, x'.1) ∧ x'.2 = follow t op r x.1 x.2 :=
  System.observe_perform h

theorem observed_env {cfg : Settings} {x x' : Mem × Option Continuation} {l : EnvStep}
    (h : (observed cfg).env x l = some x') : env x.1 l = some x'.1 ∧ x'.2 = x.2 :=
  System.observe_env h

/-! ## What is remembered -/

theorem mem_blame {t : ℕ} {k : Continuation} (h : k ∈ blame t g) :
    (k.thread ≠ t ∧ k ∈ g) ∨ (k.thread = t ∧ k.failed = true ∧ { k with failed := false } ∈ g) := by
  unfold blame at h
  cases g with
  | none => cases h
  | some x =>
    simp only [Option.bind_some] at h
    split at h
    · rename_i ht
      split at h
      · cases h
      · rename_i hf
        cases h
        refine .inr ⟨ht, rfl, ?_⟩
        simp only [Option.mem_some_iff]
        have hx : x.failed = false := by simpa using hf
        rw [← hx]
    · rename_i ht
      cases h
      exact .inl ⟨ht, rfl⟩

/-- The operation lets the observer forget a continuation, or starts one. -/
def Op.turns (op : Op) (r : op.Res) (m : Mem) : Prop :=
  match op, r with
  | .slot (.claim _), r => r = true
  | .slot (.detach want spec), _ => asked want spec m
  | .store (.update (.acp _ .running)), r => r = true
  | _, _ => False

/-- Where a continuation that is remembered after an operation of thread `t` comes from. -/
inductive Followed (t : ℕ) (op : Op) (r : op.Res) (m : Mem) (g : Option Continuation)
    (k : Continuation) : Prop
  /-- Thread `t` has just claimed the session. -/
  | starts (hop : op = .slot (.claim true)) (hturns : op.turns r m) (hthread : k.thread = t)
      (hfailed : k.failed = false) (hrow : m.db.row = some k.row)
      (hresumable : resumable k.row = true)
  | goes (hturns : ¬ op.turns r m) (hk : k ∈ g) (hok : k.thread = t → op.failed r = false)
  | fails (hturns : ¬ op.turns r m) (hthread : k.thread = t) (hop : op.failed r = true)
      (hfailed : k.failed = true) (hk : { k with failed := false } ∈ g)

theorem followed_of_blame {t : ℕ} {m : Mem} {k : Continuation} (hturns : ¬ op.turns r m)
    (h : k ∈ if op.failed r = true then blame t g else g) : Followed t op r m g k := by
  split at h
  · rename_i hop
    rcases mem_blame h with ⟨ht, hk⟩ | ⟨ht, hf, hk⟩
    · exact .goes hturns hk fun hx => absurd hx ht
    · exact .fails hturns ht hop hf hk
  · rename_i hop
    exact .goes hturns h fun _ => by simpa using hop

theorem mem_follow {t : ℕ} {m : Mem} {k : Continuation} (h : k ∈ follow t op r m g) :
    Followed t op r m g k := by
  unfold follow at h
  split at h
  · rename_i cancel r
    split at h
    · rename_i hr
      exact .goes (by simp [Op.turns, hr]) h fun _ => rfl
    · rename_i hr
      split at h
      · rename_i hcancel
        subst hcancel
        simp only [Option.mem_def, Option.map_eq_some_iff, Option.filter_eq_some_iff] at h
        obtain ⟨row, ⟨hrow, hres⟩, rfl⟩ := h
        exact .starts rfl (by simpa [Op.turns] using hr) rfl rfl hrow hres
      · cases h
  · rename_i want spec r
    split at h
    · cases h
    · rename_i hask
      exact .goes hask h fun _ => rfl
  · rename_i id r
    split at h
    · cases h
    · rename_i hr
      refine followed_of_blame (by simpa [Op.turns] using hr) ?_
      simpa [Op.failed, hr] using h
  · rename_i op r h1 h2 h3
    refine followed_of_blame (fun ht => ?_) h
    unfold Op.turns at ht
    split at ht
    · exact h1 _ _ rfl HEq.rfl
    · exact h2 _ _ _ rfl HEq.rfl
    · exact h3 _ _ rfl HEq.rfl
    · exact ht

/-! ## The discipline -/

/-- What a failed continuation puts back. -/
def Row.kept (r : Row) : ℕ × String × String × String × TemplateSpec :=
  (r.suspendedAt, r.sandboxClaimName, r.acpSessionId, r.approverSubject, r.templateSpec)

def Mem.kept (m : Mem) : Option (ℕ × String × String × String × TemplateSpec) :=
  m.db.row.map Row.kept

variable {x x' : Mem × Option Continuation}

/-- Thread `t` took a session that nobody had, and no end was left to it. -/
structure Trying (t : ℕ) (m : Mem) : Prop where
  taken : (m.slot.hist t).taken = true
  victim : (m.slot.hist t).victim = none
  stored : (m.slot.hist t).stored = []

/-- A continuation that is under way, or has given the session up. -/
structure Continues (k : Continuation) (m : Mem) : Prop where
  readable : storedTemplate k.row = true
  paused : k.row.suspendedAt ≠ 0
  revivable : revivable k.row = true
  kept : m.kept = some k.row.kept
  running : m.db.terminal = false
  place : Trying k.thread m ∨ Activating k.thread m ∨
    (m.slot.entry = none ∧ m.status = some .suspended)

/-- The update changes nothing that the row has to keep, or records the session as running. -/
def Update.keeps (row : Row) : Update → Prop
  | .sandbox claimName _ _ => claimName = row.sandboxClaimName
  | .acp _ status => status = .running
  | .approver _ => False
  | .suspended suspendedAt => suspendedAt = row.suspendedAt
  | .launched | .run _ | .link _ _ => True

/-- What the thread of a continuation promises. -/
def promise (t : ℕ) (row : Row) (op : Op) (m : Mem) : Prop :=
  match op with
  | .store (.update u) => u.keeps row
  | .store (.finishSession _ _) => False
  | .slot .register => (m.binds t).ready = false
  | .slot .finish => m.status = some .suspended
  | .bind _ .closeReady => (m.slot.owners t).live = false
  | _ => True

/-- The session that a Prompt claims has a template that can be read and the time of its pause,
and the reads and writes succeed with which a continuation that registered records its link. -/
def recoverable (t : ℕ) (op : Op) (x : Mem × Option Continuation) (c : Choice) : Prop :=
  match op with
  | .slot (.claim true) => ∀ r ∈ x.1.db.row, resumable r = true →
      storedTemplate r = true ∧ r.suspendedAt ≠ 0
  | .store .getSession | .store (.update _) =>
    ∀ k ∈ x.2, k.thread = t → Activating t x.1 → c.ok = true
  | _ => True

instance (t : ℕ) (m : Mem) : Decidable (Activating t m) := by
  unfold Activating
  infer_instance

/-- The claim of a launch that may continue the session. -/
def Op.claimsRevival : Op → Bool
  | .slot (.claim true) => true
  | _ => false

/-- A read or an update of the session. -/
def Op.touchesSession : Op → Bool
  | .store .getSession | .store (.update _) => true
  | _ => false

theorem recoverable_iff {t : ℕ} :
    (op.claimsRevival = true → ∀ r ∈ x.1.db.row, resumable r = true →
        storedTemplate r = true ∧ r.suspendedAt ≠ 0) ∧
      (op.touchesSession = true → ∀ k ∈ x.2, k.thread = t → Activating t x.1 → c.ok = true) ↔
      recoverable t op x c := by
  unfold Op.claimsRevival Op.touchesSession recoverable
  split
  · simp
  · split <;> simp

instance (t : ℕ) (op : Op) (x : Mem × Option Continuation) (c : Choice) :
    Decidable (recoverable t op x c) :=
  decidable_of_iff _ recoverable_iff

/-- The thread has no continuation under way. -/
def Away (t : ℕ) (x : Mem × Option Continuation) : Prop := ∀ k ∈ x.2, k.thread ≠ t

/-- Thread `t` has the session, which is suspended. -/
def Paused (t : ℕ) (_ : Row) (m : Mem) : Prop :=
  (m.slot.hist t).taken = true ∧ m.status = some .suspended

variable (cfg : Settings)

/-- The discipline of a continuation. -/
def revivals : Discipline (observed cfg) where
  inv x := ∀ k ∈ x.2, Continues k x.1
  pre t op x := ∀ k ∈ x.2, k.thread = t → promise t k.row op x.1
  entry t e x := match e with
    | .settle _ => ∀ k ∈ x.2, k.thread = t → Paused t k.row x.1
    | _ => Away t x
  fresh := Away
  given t op x := (protocol cfg).pre t op x.1 ∧ ledgerPre t op x.1 ∧ LedgerInv x.1
  allow t op x c := orderly t op x.1 ∧ recoverable t op x c

variable {cfg} {t u : ℕ} {m m' : Mem} {k : Continuation}

theorem Trying.holds (h : Trying t m) : Holds t m :=
  ⟨h.taken, fun b hb => by rw [h.victim] at hb; cases hb⟩

theorem Continues.writer (h : Continues k m) (he : m.slot.entry ≠ none) : Writer k.thread m := by
  rcases h.place with hp | hp | hp
  · exact .inl hp.holds
  · exact .inr hp
  · exact absurd hp.1 he

/-! ## Steps that write no state -/

/-- The operation leaves the owner map alone, and of the row what a continuation keeps. -/
@[simp] def Op.still : Op → Prop
  | .slot .lookup | .slot .stopped | .slot (.await _) => True
  | .slot _ => False
  | .store (.createSession _) | .store (.update _) | .store (.finishSession _ _) => False
  | .bind _ (.create _ _ _ _) | .bind _ .closeReady => False
  | _ => True

/-- What such a step leaves as it is. -/
structure Still (m m' : Mem) : Prop where
  slot : m'.slot = m.slot
  kept : m'.kept = m.kept
  status : m'.status = m.status
  ready : ∀ b, (m'.binds b).ready = (m.binds b).ready

theorem append_kept (d : Db) (turnId : String) (p : Payload) (podSeq : ℕ) :
    (d.append turnId p podSeq).row.map Row.kept = d.row.map Row.kept := by
  have hupdate (e : Db) : (e.update fun r => r.advancePodSeq podSeq).row.map Row.kept =
      e.row.map Row.kept := by
    unfold Db.update
    cases e.row <;> rfl
  unfold Db.append
  dsimp only
  split <;> split <;> first | rfl | exact hupdate _

theorem recordEvent_kept (d : Db) (turnId : String) (p : Payload) (podSeq : ℕ) (readOk ok : Bool) :
    (d.recordEvent turnId p podSeq readOk ok).2.row.map Row.kept = d.row.map Row.kept := by
  unfold Db.recordEvent
  split
  · rfl
  · split
    · exact append_kept ..
    · rfl

theorem recordEvent_still (m : Mem) (turnId : String) (p : Payload) (podSeq : ℕ)
    (readOk ok : Bool) : Still m (m.recordEvent turnId p podSeq readOk ok).2 :=
  ⟨rfl, recordEvent_kept .., recordEvent_status .., fun _ => rfl⟩

theorem StoreOp.perform_kept {op : StoreOp} {r : op.Res} (hop : Op.still (.store op))
    (h : op.perform t m c = some (r, m')) : m'.kept = m.kept := by
  cases op <;> simp only [Op.still] at hop <;> simp only [StoreOp.perform] at h
  case recordEvent turnId p =>
    cases h
    exact recordEvent_kept ..
  case nextTurnSeq =>
    split at h <;> cases h
    · cases hr : m.db.row <;> simp [Mem.kept, Db.nextTurnSeq, hr, Row.kept]
    · rfl
  case putCommand cmd =>
    split at h <;> cases h
    · simp only [Mem.kept, Db.putCommand]
      split <;> rfl
    · rfl
  all_goals (try split at h) <;> cases h <;> rfl

theorem StoreOp.perform_still {op : StoreOp} {r : op.Res} (hop : Op.still (.store op))
    (h : op.perform t m c = some (r, m')) : Still m m' := by
  cases op with
  | recordEvent turnId p =>
    cases h
    exact recordEvent_still ..
  | createSession templateSpec => cases hop
  | update u => cases hop
  | finishSession status events => cases hop
  | _ =>
    have hi := StoreOp.perform_idle (by trivial) h
    exact ⟨StoreOp.perform_slot h, StoreOp.perform_kept hop h, hi.status, hi.ready⟩

theorem ExtOp.perform_still {op : ExtOp} {r : op.Res} (h : op.perform t m c = some (r, m')) :
    Still m m' := by
  obtain ⟨pods, resolved, rfl⟩ := ExtOp.perform_eq h
  exact ⟨rfl, rfl, rfl, fun _ => rfl⟩

theorem release_db (m : Mem) (b : ℕ) : (m.release b).db = m.db := rfl

theorem reconcile_row (m : Mem) (b : ℕ) (st : AgentState) (cmds : List PodCommand)
    (keep : List String) : (m.reconcile b st cmds keep).db.row = m.db.row := by
  unfold Mem.reconcile
  dsimp only
  rw [release_db]
  exact (foldl_deleteCommand _ m.db).1

theorem BindOp.perform_kept {op : BindOp} {r : op.Res} (h : op.perform t m c b = some (r, m')) :
    m'.kept = m.kept := by
  cases op <;> simp only [BindOp.perform] at h
  case recordPod turnId p seq =>
    (repeat' split at h) <;> cases h
    · exact recordEvent_kept ..
    · rfl
  case record turnId p =>
    (repeat' split at h) <;> cases h
    · exact recordEvent_kept ..
    · rfl
  case advancePod seq =>
    (repeat' split at h) <;> cases h
    · cases hr : m.db.row <;> simp [Mem.kept, Db.update, Row.advancePodSeq, Row.kept, hr]
    · rfl
  case reconcile st cmds =>
    (repeat' split at h) <;> cases h
    simp only [Mem.kept, reconcile_row]
  all_goals (repeat' split at h) <;> cases h <;> rfl

theorem BindOp.perform_still {op : BindOp} {r : op.Res} (hop : Op.still (.bind b op))
    (h : op.perform t m c b = some (r, m')) : Still m m' := by
  cases op with
  | create claimName pod syncing turns => cases hop
  | closeReady => cases hop
  | recordPod turnId p seq | record turnId p =>
    simp only [BindOp.perform] at h
    (repeat' split at h) <;> cases h
    · exact recordEvent_still ..
    · exact ⟨rfl, rfl, rfl, fun _ => rfl⟩
  | _ =>
    have hi := BindOp.perform_idle (by trivial) h
    exact ⟨BindOp.perform_slot h, BindOp.perform_kept h, hi.status, hi.ready⟩

theorem perform_still (hop : op.still) (h : perform t op m c = some (r, m')) : Still m m' := by
  cases op with
  | slot op =>
    cases op <;> simp only [Op.still] at hop <;> simp only [perform, SlotOp.perform] at h
    · cases h; exact ⟨rfl, rfl, rfl, fun _ => rfl⟩
    · cases h; exact ⟨rfl, rfl, rfl, fun _ => rfl⟩
    · split at h <;> cases h
      exact ⟨rfl, rfl, rfl, fun _ => rfl⟩
  | store op => exact StoreOp.perform_still hop h
  | ext op => exact ExtOp.perform_still h
  | bind b op => exact BindOp.perform_still hop h
  | note op =>
    obtain ⟨boot, accepted, endOks, rfl⟩ := note_eq h
    exact ⟨rfl, rfl, rfl, fun _ => rfl⟩

theorem env_still {l : EnvStep} (h : env m l = some m') : Still m m' := by
  obtain ⟨now, pods, rfl⟩ := env_eq h
  exact ⟨rfl, rfl, rfl, fun _ => rfl⟩

theorem terminal_of_status (h : m'.status = m.status) : m'.db.terminal = m.db.terminal := by
  rw [Db.terminal_eq, Db.terminal_eq]
  exact congrArg _ h

theorem Continues.still (h : Continues k m) (hs : Still m m') : Continues k m' where
  readable := h.readable
  paused := h.paused
  revivable := h.revivable
  kept := hs.kept.trans h.kept
  running := (terminal_of_status hs.status).trans h.running
  place := by
    rcases h.place with hp | hp | ⟨he, hst⟩
    · left
      exact ⟨by rw [hs.slot]; exact hp.taken, by rw [hs.slot]; exact hp.victim,
        by rw [hs.slot]; exact hp.stored⟩
    · right; left
      exact ⟨by rw [hs.slot]; exact hp.1, by rw [hs.ready]; exact hp.2⟩
    · right; right
      exact ⟨by rw [hs.slot]; exact he, hs.status.trans hst⟩

/-! ## Steps on the owner map -/

theorem slot_db {op : SlotOp} {r : op.Res} (h : op.perform u m = some (r, m')) : m'.db = m.db := by
  obtain ⟨slot, binds, creator, rfl⟩ := SlotOp.perform_eq h
  rfl

/-- A part of the row that a continuation keeps changes only with the insert of the row and with
an update that changes it. -/
theorem perform_kept {τ : Type} (f : ℕ × String × String × String × TemplateSpec → τ)
    (hcreate : ∀ templateSpec, op ≠ .store (.createSession templateSpec))
    (hupdate : ∀ up, op = .store (.update up) → ∀ now row,
      f (Row.kept (up.apply now row)) = f (Row.kept row)) (h : perform t op m c = some (r, m')) :
    m'.kept.map f = m.kept.map f := by
  cases op with
  | slot op =>
    unfold Mem.kept
    rw [slot_db h]
  | store op =>
    cases op with
    | createSession templateSpec => exact absurd rfl (hcreate templateSpec)
    | update up =>
      simp only [perform, StoreOp.perform] at h
      split at h <;> cases h
      · unfold Mem.kept Db.update
        cases m.db.row with
        | none => rfl
        | some row => exact congrArg some (hupdate up rfl m.unix row)
      · rfl
    | finishSession status events =>
      simp only [perform, StoreOp.perform] at h
      split at h <;> cases h
      · unfold Mem.kept Db.finishSession
        split
        · rfl
        · rename_i row hrow
          split
          · rfl
          · rw [hrow]
            rfl
      · rfl
    | _ => rw [(perform_still (by trivial) h).kept]
  | bind b op => rw [BindOp.perform_kept h]
  | _ => rw [(perform_still (by trivial) h).kept]

/-- A `detach` that asks for no end changes the owner map only to take over a live owner. -/
theorem detach_unasked {want : Option ℕ} {spec : StopSpec} (h : ¬ asked want spec m) :
    (m.detach u want spec).2.slot = m.slot ∨
      ∃ o, m.slot.entry = some o ∧ (m.detach u want spec).2.slot = m.slot.hold u (some o) := by
  unfold Mem.detach
  split
  · exact .inl rfl
  · rename_i hwant
    have hmatch : want = none ∨ m.slot.entry = want := by
      cases want with
      | none => exact .inl rfl
      | some o =>
        refine .inr ?_
        by_contra hne
        exact hwant ⟨rfl, hne⟩
    split
    · rename_i he
      exact absurd ⟨hmatch, .inr he⟩ h
    · rename_i o he
      split
      · split
        · exact .inl rfl
        · exact .inr ⟨o, he, rfl⟩
      · have hsuspend : spec.suspend ≠ .unspecified := fun hx => h ⟨hmatch, .inl hx⟩
        left
        show (m.slot.detachOwned o spec).2 = m.slot
        simp [Slot.detachOwned, hsuspend]

/-- Stops are stored on an owner only when an end is asked for. -/
theorem slot_stored {op : SlotOp} {r : op.Res} (h : op.perform u m = some (r, m'))
    (hturns : ¬ Op.turns (.slot op) r m) (t : ℕ) :
    (m'.slot.hist t).stored = (m.slot.hist t).stored := by
  cases op with
  | claim cancel =>
    cases h
    have hfalse : (m.slot.claim u cancel).1 = false := by simpa [Op.turns] using hturns
    show ((m.slot.claim u cancel).2.hist t).stored = _
    cases he : m.slot.entry with
    | none =>
      rw [Slot.claim_of_none he] at hfalse
      cases hfalse
    | some o =>
      rw [Slot.claim_of_some he]
      rfl
  | detach want spec =>
    have hm : m' = (m.detach u want spec).2 := by rw [Option.some.inj h]
    subst hm
    rcases detach_unasked (u := u) hturns with hs | ⟨o, -, hs⟩
    · rw [hs]
    · rw [hs, Slot.hold_stored]
  | register => cases h; exact Slot.register_stored ..
  | takeStop => cases h; exact Slot.takeStop_stored ..
  | finish => cases h; exact Slot.finish_stored ..
  | ran => cases h; exact Slot.ran_stored ..
  | lookup | stopped => cases h; rfl
  | await o =>
    simp only [SlotOp.perform] at h
    split at h <;> cases h
    rfl

/-- A session that nobody has stays so until someone takes it. -/
theorem slot_free {op : SlotOp} {r : op.Res} (h : op.perform u m = some (r, m'))
    (hturns : ¬ Op.turns (.slot op) r m) (he : m.slot.entry = none) : m'.slot.entry = none := by
  cases op with
  | claim cancel =>
    cases h
    refine absurd ?_ hturns
    show (m.slot.claim u cancel).1 = true
    rw [Slot.claim_of_none he]
  | detach want spec =>
    have hm : m' = (m.detach u want spec).2 := by rw [Option.some.inj h]
    subst hm
    rcases detach_unasked (u := u) hturns with hs | ⟨o, ho, -⟩
    · rw [hs]
      exact he
    · rw [he] at ho
      cases ho
  | register => cases h; exact (Slot.register_entry ..).trans he
  | takeStop => cases h; exact (Slot.takeStop_entry ..).trans he
  | finish =>
    cases h
    show (m.slot.finish u).2.entry = none
    unfold Slot.finish
    split
    · exact he
    · simp [he]
  | ran | lookup | stopped => cases h; exact he
  | await o =>
    simp only [SlotOp.perform] at h
    split at h <;> cases h
    exact he

/-- A thread that is trying has no stop to take. -/
theorem Trying.stop (h : Trying t m) (hinv : m.slot.Inv) : (m.slot.owners t).stop = none := by
  have heq := hinv.stored_eq t
  rw [h.stored] at heq
  cases hs : (m.slot.owners t).stop with
  | none => rfl
  | some spec =>
    rw [hs] at heq
    simp at heq

/-- A continuation that has the session is trying. -/
theorem Continues.trying (h : Continues k m) (hinv : m.slot.Inv)
    (htaken : (m.slot.hist k.thread).taken = true) : Trying k.thread m := by
  obtain ⟨hentry, hlive⟩ := hinv.taken_entry _ htaken
  rcases h.place with hp | hp | ⟨he, -⟩
  · exact hp
  · rw [hp.1] at hlive
    cases hlive
  · rw [he] at hentry
    cases hentry

/-- The steps of a continuation's own thread on the owner map. -/
theorem Trying.own {op : SlotOp} {r : op.Res} (h : Trying t m) (hg : slotPre t m.slot op)
    (hinv : m.slot.Inv) (hpre : promise t k.row (.slot op) m)
    (hturns : ¬ Op.turns (.slot op) r m) (hdo : op.perform t m = some (r, m')) :
    Trying t m' ∨ Activating t m' ∨ (m'.slot.entry = none ∧ m'.status = some .suspended) := by
  have hstored := slot_stored hdo hturns t
  have hentry := (hinv.taken_entry t h.taken).1
  cases op with
  | claim cancel | detach want spec =>
    have := h.taken
    rw [hg.2.1] at this
    cases this
  | register =>
    right; left
    cases hdo
    have hready : (m.binds t).ready = false := hpre
    refine ⟨?_, hready⟩
    show ((m.slot.register t).2.owners t).live = true
    simp [Slot.register, hentry, h.stop hinv]
  | takeStop =>
    left
    cases hdo
    have hsame : m.slot.takeStop t = (none, m.slot) := by simp [Slot.takeStop, h.stop hinv]
    refine ⟨?_, ?_, hstored.trans h.stored⟩
    · show ((m.slot.takeStop t).2.hist t).taken = true
      rw [hsame]
      exact h.taken
    · show ((m.slot.takeStop t).2.hist t).victim = none
      rw [hsame]
      exact h.victim
  | finish =>
    right; right
    cases hdo
    refine ⟨?_, hpre⟩
    show (m.slot.finish t).2.entry = none
    simp [Slot.finish, h.stop hinv, hentry]
  | ran =>
    left
    cases hdo
    exact ⟨by simpa [Slot.ran] using h.taken, by simpa [Slot.ran] using h.victim,
      hstored.trans h.stored⟩
  | lookup | stopped => cases hdo; exact .inl h
  | await o =>
    simp only [SlotOp.perform] at hdo
    split at hdo <;> cases hdo
    exact .inl h

theorem Continues.slotOp {op : SlotOp} {r : op.Res} (h : Continues k m)
    (hg : (revivals cfg).given u (.slot op) (m, some k))
    (hpre : k.thread = u → promise u k.row (.slot op) m) (horderly : orderly u (.slot op) m)
    (hturns : ¬ Op.turns (.slot op) r m) (hdo : op.perform u m = some (r, m')) :
    Continues k m' := by
  have hdb := slot_db hdo
  obtain ⟨hprotocol, hledger, hinv⟩ := hg
  refine ⟨h.readable, h.paused, h.revivable, by rw [Mem.kept, hdb]; exact h.kept,
    by rw [hdb]; exact h.running, ?_⟩
  by_cases hu : k.thread = u
  · -- its own thread
    rcases h.place with hp | hp | ⟨he, hst⟩
    · rw [hu] at hp ⊢
      exact hp.own hprotocol hinv.slot (hpre hu) hturns hdo
    · rw [hu] at hp ⊢
      cases op with
      | claim cancel | detach want spec =>
        have := hp.1
        rw [hprotocol.1] at this
        cases this
      | register =>
        have := hp.1
        rw [hprotocol.1.live] at this
        cases this
      | takeStop | finish =>
        have := hp.1
        rw [hprotocol.live] at this
        cases this
      | ran | lookup | stopped => cases hdo; exact .inr (.inl hp)
      | await o =>
        simp only [SlotOp.perform] at hdo
        split at hdo <;> cases hdo
        exact .inr (.inl hp)
    · exact .inr (.inr ⟨slot_free hdo hturns he, by rw [Mem.status, hdb]; exact hst⟩)
  · -- another thread leaves the owner of the continuation alone
    have hkeeps : Keeps k.thread m m' :=
      slotOp_keeps hinv (Ne.symm hu) hprotocol horderly hdo
    rcases h.place with hp | hp | ⟨he, hst⟩
    · exact .inl ⟨hkeeps.taken.trans hp.taken, hkeeps.victim.trans hp.victim,
        (slot_stored hdo hturns _).trans hp.stored⟩
    · exact .inr (.inl ⟨hkeeps.own.trans hp.1, hkeeps.unready.trans hp.2⟩)
    · exact .inr (.inr ⟨slot_free hdo hturns he, by rw [Mem.status, hdb]; exact hst⟩)

/-! ## Every step -/

theorem Update.keeps.kept {x : Update} {row r : Row} (hx : x.keeps row)
    (hacp : ∀ id, x ≠ .acp id .running) (hr : r.kept = row.kept) (now : ℕ) :
    (x.apply now r).kept = row.kept := by
  simp only [Row.kept, Prod.mk.injEq] at hr ⊢
  obtain ⟨h1, h2, h3, h4, h5⟩ := hr
  cases x with
  | sandbox claimName sandboxName status => exact ⟨h1, hx, h3, h4, h5⟩
  | acp id status => exact absurd (by rw [show status = .running from hx]) (hacp id)
  | approver subject => cases hx
  | suspended suspendedAt => exact ⟨hx, h2, h3, h4, h5⟩
  | launched | run runId | link streamId podSeq => exact ⟨h1, h2, h3, h4, h5⟩

/-- A state write of the continuation itself. -/
theorem Continues.update {x : Update} {r : Bool} (h : Continues k m) (hinv : LedgerInv m)
    (hledger : ledgerPre u (.store (.update x)) m) (hx : x.keeps k.row)
    (hturns : ¬ Op.turns (.store (.update x)) r m)
    (hdo : StoreOp.perform u m c (.update x) = some (r, m')) : Continues k m' := by
  simp only [StoreOp.perform] at hdo
  split at hdo <;> cases hdo
  · obtain ⟨row, hrow, hkept⟩ := Option.map_eq_some_iff.mp h.kept
    have hacp : ∀ id, x ≠ .acp id .running := by
      rintro id rfl
      exact hturns rfl
    refine ⟨h.readable, h.paused, h.revivable, ?_, ?_, ?_⟩
    · simp [Mem.kept, Db.update, hrow, hx.kept hacp hkept]
    · have hopen : row.status.terminal = false := by
        have := h.running
        rwa [Db.terminal, hrow] at this
      simp only [Db.terminal, Db.update, hrow, Option.map_some, Option.any_some]
      rw [Update.apply_status]
      cases htarget : x.target with
      | none => exact hopen
      | some st => exact hledger.2.2 st htarget
    · rcases h.place with hp | hp | ⟨he, -⟩
      · exact .inl ⟨hp.taken, hp.victim, hp.stored⟩
      · exact .inr (.inl hp)
      · exact absurd he (hinv.writer_entry hledger.1)
  · exact h

/-- Only the thread of a continuation can write the state of the session. -/
theorem Continues.only_writer (h : Continues k m) (hinv : LedgerInv m) (hw : Writer u m) :
    k.thread = u :=
  hinv.writer_unique (h.writer (hinv.writer_entry hw)) hw

theorem Continues.storeOp {op : StoreOp} {r : op.Res} (h : Continues k m)
    (hg : (revivals cfg).given u (.store op) (m, some k))
    (hpre : k.thread = u → promise u k.row (.store op) m) (hturns : ¬ Op.turns (.store op) r m)
    (hdo : op.perform u m c = some (r, m')) : Continues k m' := by
  obtain ⟨-, hledger, hinv⟩ := hg
  cases op with
  | createSession templateSpec =>
    -- the session has a row
    obtain ⟨row, hrow, -⟩ := Option.map_eq_some_iff.mp h.kept
    simp only [StoreOp.perform, hrow] at hdo
    simp only [Option.isNone_some, Bool.and_false, Bool.false_eq_true, if_false] at hdo
    cases hdo
    exact h
  | update x => exact h.update hinv hledger (hpre (h.only_writer hinv hledger.1)) hturns hdo
  | finishSession status events => exact (hpre (h.only_writer hinv hledger.1)).elim
  | _ => exact h.still (StoreOp.perform_still (by trivial) hdo)

theorem Continues.bindOp {op : BindOp} {r : op.Res} (h : Continues k m)
    (hledger : ledgerPre u (.bind b op) m) (hpre : k.thread = u → promise u k.row (.bind b op) m)
    (hdo : op.perform u m c b = some (r, m')) : Continues k m' := by
  have hready (hslot : m'.slot = m.slot) (hdb : m'.db = m.db)
      (hlive : k.thread = u → (m.slot.owners u).live = false)
      (hothers : k.thread ≠ u → (m'.binds k.thread).ready = (m.binds k.thread).ready) :
      Continues k m' := by
    refine ⟨h.readable, h.paused, h.revivable, by rw [Mem.kept, hdb]; exact h.kept,
      by rw [hdb]; exact h.running, ?_⟩
    rcases h.place with hp | hp | ⟨he, hst⟩
    · left
      exact ⟨by rw [hslot]; exact hp.taken, by rw [hslot]; exact hp.victim,
        by rw [hslot]; exact hp.stored⟩
    · right; left
      have hu : k.thread ≠ u := by
        intro hu
        have := hp.1
        rw [hu, hlive hu] at this
        cases this
      exact ⟨by rw [hslot]; exact hp.1, (hothers hu).trans hp.2⟩
    · right; right
      exact ⟨by rw [hslot]; exact he, by rw [Mem.status, hdb]; exact hst⟩
  cases op with
  | create claimName pod syncing turns =>
    cases hdo
    obtain ⟨rfl, hlive⟩ := hledger
    exact hready rfl rfl (fun _ => hlive) fun hne => setBind_ready_other hne
  | closeReady =>
    cases hdo
    obtain ⟨rfl, -⟩ := hledger
    exact hready rfl rfl hpre fun hne => setBind_ready_other hne
  | _ => exact h.still (BindOp.perform_still (by trivial) hdo)

/-- A continuation goes on through every step that does not end it. -/
theorem Continues.act (h : Continues k m) (hg : (revivals cfg).given u op (m, some k))
    (hpre : k.thread = u → promise u k.row op m) (horderly : orderly u op m)
    (hturns : ¬ op.turns r m) (hdo : perform u op m c = some (r, m')) : Continues k m' := by
  cases op with
  | slot op => exact h.slotOp hg hpre horderly hturns hdo
  | store op => exact h.storeOp hg hpre hturns hdo
  | ext op => exact h.still (ExtOp.perform_still hdo)
  | bind b op => exact h.bindOp hg.2.1 hpre hdo
  | note op =>
    have hop : Op.still (.note op) := trivial
    exact h.still (perform_still (c := c) hop hdo)

theorem claim_entry {cancel : Bool}
    (hdo : SlotOp.perform t m (.claim cancel) = some (true, m')) : m.slot.entry = none := by
  simp only [SlotOp.perform, Option.some.injEq, Prod.mk.injEq] at hdo
  cases he : m.slot.entry with
  | none => rfl
  | some o =>
    rw [Slot.claim_of_some he] at hdo
    cases hdo.1

theorem claim_taken {cancel : Bool}
    (hdo : SlotOp.perform t m (.claim cancel) = some (true, m')) :
    (m'.slot.hist t).taken = true := by
  have he := claim_entry hdo
  simp only [SlotOp.perform, Option.some.injEq, Prod.mk.injEq] at hdo
  rw [← hdo.2]
  simp [Slot.claim_of_none he]

/-- A continuation starts. -/
theorem Continues.starts (hg : (revivals cfg).given k.thread (.slot (.claim true)) (m, none))
    (hrow : m.db.row = some k.row) (hres : resumable k.row = true)
    (hok : storedTemplate k.row = true ∧ k.row.suspendedAt ≠ 0)
    (hdo : SlotOp.perform k.thread m (.claim true) = some (true, m')) : Continues k m' := by
  have hhist : m.slot.hist k.thread = {} := hg.1.2.1
  have hsuspended : k.row.status = .suspended ∧ Service.revivable k.row = true := by
    simpa [resumable] using hres
  have hdb := slot_db hdo
  have he := claim_entry hdo
  refine ⟨hok.1, hok.2, hsuspended.2, by simp [Mem.kept, hdb, hrow], ?_, ?_⟩
  · simp only [Db.terminal, hdb, hrow, Option.any_some, hsuspended.1]
    rfl
  · have htaken := claim_taken hdo
    simp only [SlotOp.perform, Option.some.injEq, Prod.mk.injEq] at hdo
    rw [← hdo.2] at htaken ⊢
    exact .inl ⟨htaken, by simp [Slot.claim_of_none he, hhist],
      by simp [Slot.claim_of_none he, hhist]⟩

theorem continues_of_failed {f : Bool} (h : Continues { k with failed := f } m) : Continues k m :=
  ⟨h.readable, h.paused, h.revivable, h.kept, h.running, h.place⟩

theorem revivals_act (hinv : (revivals cfg).inv x) (hg : (revivals cfg).given u op x)
    (hpre : (revivals cfg).pre u op x) (hok : (revivals cfg).allow u op x c)
    (hdo : (observed cfg).perform u op x c = some (r, x')) : (revivals cfg).inv x' := by
  intro k hk
  obtain ⟨hm, hg'⟩ := observed_perform hdo
  rw [hg'] at hk
  cases mem_follow hk with
  | starts hop hturns hthread hfailed hrow hres =>
    subst hop hthread
    have hr : r = true := hturns
    rw [hr] at hm
    exact .starts hg hrow hres (hok.2 k.row hrow hres) hm
  | goes hturns hk _ => exact (hinv k hk).act hg (hpre k hk) hok.1 hturns hm
  | fails hturns hthread _ _ hk =>
    exact continues_of_failed ((hinv _ hk).act hg (hpre _ hk) hok.1 hturns hm)

theorem revivals_other (ho : (revivals cfg).Other t x x') : Keeps t x.1 x'.1 := by
  cases ho with
  | act u op c r hne hg hpre hok hdo =>
    have hm := (observed_perform hdo).1
    have ho : (ledger cfg).Other t x.1 x'.1 := .act u op c r hne hg.1 hg.2.1 hok.1 hm
    exact other_keeps hg.2.2 ho
  | env l _ hdo => exact (env_idle (observed_env hdo).1).keeps t
  | start u e v _ _ _ hsame => exact hsame ▸ (Idle.refl x.1).keeps t

/-- The others do not start, end or blame a continuation of thread `t`. -/
theorem other_follows (ho : (revivals cfg).Other t x x') (hk : k ∈ x'.2) (ht : k.thread = t) :
    k ∈ x.2 := by
  cases ho with
  | act u op c r hne hg hpre hok hdo =>
    rw [(observed_perform hdo).2] at hk
    cases mem_follow hk with
    | starts _ _ hthread => exact absurd (hthread.symm.trans ht) hne
    | goes _ hk => exact hk
    | fails _ hthread => exact absurd (hthread.symm.trans ht) hne
  | env l _ hdo =>
    rw [(observed_env hdo).2] at hk
    exact hk
  | start u e v _ _ _ hsame =>
    rw [hsame] at hk
    exact hk

end AgentOps.Service
