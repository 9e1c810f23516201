import AgentOps.Service.OwnerTheorems
import AgentOps.Service.Routine

/-!
# Every program follows the owner protocol

The first discipline: a thread claims or detaches only with an owner that was never used,
registers only if it took no stop, and gives the session up only as the one who holds it.
The programs are safe for it whatever fails around them, so the invariant of the owner map
holds in every run of the service.
-/

namespace AgentOps.Service

open AgentOps.Api AgentOps.Link AgentOps.Lib

variable {op : SlotOp} {r : op.Res} {A : Mem → Prop}

/-! ## What an operation changes -/

section Frame

variable {t b : ℕ} {m m' : Mem} {c : Choice}

theorem SlotOp.perform_eq (h : op.perform t m = some (r, m')) :
    ∃ slot binds creator, m' = { m with slot, binds, creator } := by
  cases op <;> simp only [SlotOp.perform] at h
  case detach want spec =>
    have hm : m' = (m.detach t want spec).2 := by rw [Option.some.inj h]
    subst hm
    unfold Mem.detach
    (repeat' split) <;> exact ⟨_, _, _, rfl⟩
  all_goals (try split at h) <;> cases h <;> exact ⟨_, _, _, rfl⟩

theorem StoreOp.perform_eq {op : StoreOp} {r : op.Res} (h : op.perform t m c = some (r, m')) :
    ∃ db creator faulty late, m' = { m with db, creator, faulty, late } := by
  cases op <;> simp only [StoreOp.perform] at h <;> (try split at h) <;> cases h <;>
    exact ⟨_, _, _, _, rfl⟩

theorem ExtOp.perform_eq {op : ExtOp} {r : op.Res} (h : op.perform t m c = some (r, m')) :
    ∃ pods resolved, m' = { m with pods, resolved } := by
  cases op <;> simp only [ExtOp.perform, Mem.awaitReady] at h <;> (repeat' split at h) <;>
    cases h <;> exact ⟨_, _, rfl⟩

theorem BindOp.perform_eq {op : BindOp} {r : op.Res} (h : op.perform t m c b = some (r, m')) :
    ∃ db binds pods faulty late, m' = { m with db, binds, pods, faulty, late } := by
  cases op <;> simp only [BindOp.perform] at h <;> (repeat' split at h) <;> cases h <;>
    exact ⟨_, _, _, _, _, rfl⟩

theorem note_eq {op : NoteOp} {r : Unit} (h : perform t (.note op) m c = some (r, m')) :
    ∃ boot accepted endOks, m' = { m with boot, accepted, endOks } := by
  simp only [perform, Option.map_eq_some_iff] at h
  obtain ⟨n, hn, heq⟩ := h
  cases heq
  cases op <;> simp only [NoteOp.perform] at hn <;> (try split at hn) <;> cases hn <;>
    exact ⟨_, _, _, rfl⟩

theorem StoreOp.perform_slot {op : StoreOp} {r : op.Res} (h : op.perform t m c = some (r, m')) :
    m'.slot = m.slot := by
  obtain ⟨db, creator, faulty, late, rfl⟩ := StoreOp.perform_eq h
  rfl

theorem ExtOp.perform_slot {op : ExtOp} {r : op.Res} (h : op.perform t m c = some (r, m')) :
    m'.slot = m.slot := by
  obtain ⟨pods, resolved, rfl⟩ := ExtOp.perform_eq h
  rfl

theorem BindOp.perform_slot {op : BindOp} {r : op.Res} (h : op.perform t m c b = some (r, m')) :
    m'.slot = m.slot := by
  obtain ⟨db, binds, pods, faulty, late, rfl⟩ := BindOp.perform_eq h
  rfl

theorem note_slot {op : NoteOp} {r : Unit} (h : perform t (.note op) m c = some (r, m')) :
    m'.slot = m.slot := by
  obtain ⟨boot, accepted, endOks, rfl⟩ := note_eq h
  rfl

/-- Only a note moves the boot or records an end that was reported. -/
theorem perform_unnoted {op : Op} {r : op.Res} (hop : ∀ n, op ≠ .note n)
    (h : perform t op m c = some (r, m')) : m'.boot = m.boot ∧ m'.endOks = m.endOks := by
  cases op with
  | slot op =>
    obtain ⟨slot, binds, creator, rfl⟩ := SlotOp.perform_eq h
    exact ⟨rfl, rfl⟩
  | store op =>
    obtain ⟨db, creator, faulty, late, rfl⟩ := StoreOp.perform_eq h
    exact ⟨rfl, rfl⟩
  | ext op =>
    obtain ⟨pods, resolved, rfl⟩ := ExtOp.perform_eq h
    exact ⟨rfl, rfl⟩
  | bind b op =>
    obtain ⟨db, binds, pods, faulty, late, rfl⟩ := BindOp.perform_eq h
    exact ⟨rfl, rfl⟩
  | note op => exact absurd rfl (hop op)

end Frame

theorem perform_slot {t : ℕ} {op : Op} {m m' : Mem} {c : Choice} {r : op.Res} (hop : op.offSlot)
    (h : perform t op m c = some (r, m')) : m'.slot = m.slot := by
  cases op with
  | slot op =>
    cases op <;> simp only [Op.offSlot] at hop <;> simp only [perform, SlotOp.perform] at h
    · cases h; rfl
    · cases h; rfl
    · split at h <;> cases h
      rfl
  | store op => exact StoreOp.perform_slot h
  | ext op => exact ExtOp.perform_slot h
  | bind b op => exact BindOp.perform_slot h
  | note op => exact note_slot h

/-- The environment moves the clock and the pods. -/
theorem env_eq {m m' : Mem} {l : EnvStep} (h : env m l = some m') :
    ∃ now pods, m' = { m with now, pods } := by
  cases l with
  | pushEvent p =>
    simp only [env] at h
    split at h
    · simp only [Option.map_eq_some_iff] at h
      obtain ⟨ev, -, rfl⟩ := h
      exact ⟨_, _, rfl⟩
    · cases h
  | tick n | lose p i | openStream p => cases h; exact ⟨_, _, rfl⟩
  | agent p l | deliver p i | pushState p =>
    simp only [env, Option.map_eq_some_iff] at h
    obtain ⟨x, -, rfl⟩ := h
    exact ⟨_, _, rfl⟩

theorem env_slot {m m' : Mem} {l : EnvStep} (h : env m l = some m') : m'.slot = m.slot := by
  obtain ⟨now, pods, rfl⟩ := env_eq h
  rfl

/-! ## The discipline -/

theorem detach_inv {m : Mem} {t : ℕ} (h : m.slot.Inv) (hu : m.slot.Unused t) (want : Option ℕ)
    (spec : StopSpec) : (m.detach t want spec).2.slot.Inv := by
  unfold Mem.detach
  split
  · exact h
  · split
    · rename_i hentry
      refine h.hold hu none fun o ho => ?_
      rw [hentry] at ho
      cases ho
    · rename_i o hentry
      split
      · rename_i hlive
        split
        · exact h
        · refine h.hold hu (some o) fun o' ho => ?_
          rw [hentry] at ho
          cases ho
          exact hlive
      · rename_i hlive
        exact h.detachOwned hentry (by simpa using hlive) spec

theorem detach_others (m : Mem) {t u : ℕ} (hne : u ≠ t) (want : Option ℕ) (spec : StopSpec) :
    m.slot.Others (m.detach u want spec).2.slot t := by
  unfold Mem.detach
  split
  · exact .refl ..
  · split
    · exact Slot.hold_others m.slot hne none
    · rename_i o hentry
      split
      · split
        · exact .refl ..
        · exact Slot.hold_others m.slot hne (some o)
      · exact Slot.detachOwned_others m.slot hentry spec

/-- The thread that gets a held owner from `detach` holds the session. -/
theorem detach_own {m : Mem} {t : ℕ} (hu : m.slot.Unused t) (want : Option ℕ) (spec : StopSpec)
    {b : Option ℕ} (h : (m.detach t want spec).1 = .held b) :
    (m.detach t want spec).2.slot.Own t := by
  unfold Mem.detach at h ⊢
  split at h
  · cases h
  · rename_i hwant
    rw [if_neg hwant]
    split at h
    · exact Slot.own_hold _ hu none
    · rename_i o hentry
      split at h
      · rename_i hlive
        simp only [hlive, if_true]
        split at h
        · cases h
        · exact Slot.own_hold _ hu (some o)
      · -- an owner that is not live is never handed over
        unfold Slot.detachOwned at h
        dsimp only at h
        split at h <;> split at h <;> cases h

/-- The thread owns its owner, and no stop was taken from it. -/
def Slot.Clean (s : Slot) (t : ℕ) : Prop := s.Own t ∧ (s.hist t).served = []

/-- What a thread promises when it works on the owner map. -/
def slotPre (t : ℕ) (s : Slot) : SlotOp → Prop
  | .claim _ | .detach _ _ => s.Unused t
  | .register => s.Clean t
  | .takeStop | .finish => s.Own t
  | .lookup | .stopped | .ran | .await _ => True

variable (cfg : Settings)

/-- The discipline of the owner map. -/
def protocol : Discipline (system cfg) where
  inv m := m.slot.Inv
  pre t op m := match op with
    | .slot op => slotPre t m.slot op
    | _ => True
  entry t e m := match e with
    | .settle _ => m.slot.Own t
    | _ => m.slot.Unused t
  fresh t m := m.slot.Unused t

theorem slot_inv {t : ℕ} {m m' : Mem} (h : m.slot.Inv) (hpre : slotPre t m.slot op)
    (hdo : op.perform t m = some (r, m')) : m'.slot.Inv := by
  cases op <;> simp only [SlotOp.perform] at hdo
  case claim cancel => cases hdo; exact h.claim hpre cancel
  case lookup => cases hdo; exact h
  case register => cases hdo; exact h.register hpre.1 hpre.2
  case stopped => cases hdo; exact h
  case takeStop => cases hdo; exact h.takeStop hpre.inHand
  case detach want spec =>
    have := detach_inv h hpre want spec
    rw [Option.some.inj hdo] at this
    exact this
  case finish => cases hdo; exact h.finish hpre
  case ran => cases hdo; exact h.ran
  case await o =>
    split at hdo <;> cases hdo
    exact h

theorem slot_others {t u : ℕ} {m m' : Mem} (hne : u ≠ t) (hdo : op.perform u m = some (r, m')) :
    m.slot.Others m'.slot t := by
  cases op <;> simp only [SlotOp.perform] at hdo
  case claim cancel => cases hdo; exact Slot.claim_others _ hne cancel
  case lookup => cases hdo; exact .refl ..
  case register => cases hdo; exact Slot.register_others _ hne
  case stopped => cases hdo; exact .refl ..
  case takeStop => cases hdo; exact Slot.takeStop_others _ hne
  case detach want spec =>
    have := detach_others m hne want spec
    rw [Option.some.inj hdo] at this
    exact this
  case finish => cases hdo; exact Slot.finish_others _ hne
  case ran => cases hdo; exact Slot.ran_others _ hne
  case await o =>
    split at hdo <;> cases hdo
    exact .refl ..

theorem perform_inv {t : ℕ} {op : Op} {m m' : Mem} {c : Choice} {r : op.Res} (h : m.slot.Inv)
    (hpre : (protocol cfg).pre t op m) (hdo : perform t op m c = some (r, m')) : m'.slot.Inv := by
  cases op with
  | slot op => exact slot_inv h hpre hdo
  | note op => rw [note_slot hdo]; exact h
  | _ =>
    have hslot : m'.slot = m.slot := perform_slot (by trivial) hdo
    rw [hslot]
    exact h

theorem perform_others {t u : ℕ} {op : Op} {m m' : Mem} {c : Choice} {r : op.Res} (hne : u ≠ t)
    (hdo : perform u op m c = some (r, m')) : m.slot.Others m'.slot t := by
  cases op with
  | slot op => exact slot_others hne hdo
  | note op => rw [note_slot hdo]; exact .refl ..
  | _ =>
    have hslot : m'.slot = m.slot := perform_slot (by trivial) hdo
    rw [hslot]
    exact .refl ..

theorem other_slot {D : Discipline (system cfg)} {t : ℕ} {m m' : Mem} (h : D.Other t m m') :
    m.slot.Others m'.slot t := by
  cases h with
  | act u op c r hne _ _ _ hdo => exact perform_others hne hdo
  | env l _ hdo => rw [env_slot hdo]; exact .refl ..
  | start u e v _ _ _ hsame => rw [hsame]; exact .refl ..

/-! ## Rules for the programs -/

variable {cfg} {t : ℕ} {α : Type}

/-- The owner of thread `t` was never used. -/
def Fresh (t : ℕ) (m : Mem) : Prop := m.slot.Unused t

/-- Thread `t` owns its owner. -/
def Owns (t : ℕ) (m : Mem) : Prop := m.slot.Own t

/-- Thread `t` owns its owner and took no stop from it. -/
def OwnsClean (t : ℕ) (m : Mem) : Prop := m.slot.Clean t

/-- Thread `t` runs a stop that `finish` gave it. -/
def Serves (t : ℕ) (m : Mem) : Prop := m.slot.Serving t

/-- `A` is about the owner map, and other threads cannot make it false. -/
def Steady (t : ℕ) (A : Mem → Prop) : Prop := ∀ m m', m.slot.Others m'.slot t → A m → A m'

theorem steady_fresh (t : ℕ) : Steady t (Fresh t) := fun _ _ ho h => Slot.Unused.others h ho

theorem steady_owns (t : ℕ) : Steady t (Owns t) := fun _ _ ho h => Slot.Own.others h ho

theorem steady_ownsClean (t : ℕ) : Steady t (OwnsClean t) :=
  fun _ _ ho h => ⟨h.1.others ho, ho.served.trans h.2⟩

theorem steady_serves (t : ℕ) : Steady t (Serves t) := fun _ _ ho h => Slot.Serving.others h ho

theorem Steady.stable (hA : Steady t A) : (protocol cfg).Stable t A :=
  fun _ _ _ _ ho h => hA _ _ (other_slot cfg ho) h

/-- A triple of the discipline. -/
abbrev Follows (cfg : Settings) (t : ℕ) (A : Mem → Prop) {α : Type} (p : P α)
    (Q : α → Mem → Prop) : Prop :=
  (protocol cfg).Triple t A p Q

theorem Steady.undisturbed (hA : Steady t A) : Undisturbed (protocol cfg) t A where
  stable := hA.stable
  pre op m hop _ _ _ := by
    cases op with
    | slot op => cases op <;> trivial
    | _ => trivial
  post op m c r m' hop _ _ hm _ hdo _ := by
    refine hA m m' ?_ hm
    rw [perform_slot hop hdo]
    exact .refl ..
  spawn e m u he _ _ _ hf := by
    cases e with
    | settle after => exact absurd rfl (he after)
    | _ => exact hf

theorem follows_quiet (hA : Steady t A) {p : P α} (hp : Quiet p) : Follows cfg t A p fun _ => A :=
  hA.undisturbed.quiet hp

/-- What was known about the owner map no longer matters. -/
theorem follows_rest {p : P α} (hp : Quiet p) : Follows cfg t A p fun _ _ => True :=
  (follows_quiet (A := fun _ => True) (fun _ _ _ _ => trivial) hp).of_imp fun _ _ _ => trivial

/-- The answer of `EndSession`. -/
theorem follows_endOk : Follows cfg t A (note .endOk) fun _ _ => True := by
  have hnote : Follows cfg t (fun _ => True) (note .endOk) fun _ _ => True :=
    .perform (fun _ _ _ _ _ _ => trivial) (fun _ _ _ _ => trivial)
      fun _ _ _ _ _ _ _ _ _ _ => trivial
  exact hnote.of_imp fun _ _ _ => trivial

/-- One function of the owner map. -/
theorem follows_slot {Q : op.Res → Mem → Prop} (hA : Steady t A)
    (hpre : ∀ m, A m → slotPre t m.slot op)
    (hpost : ∀ m r m', m.slot.Inv → A m → op.perform t m = some (r, m') → Q r m') :
    Follows cfg t A (slot op) Q :=
  .perform hA.stable (fun _ _ _ hm => hpre _ hm)
    fun m _ r m' hinv _ hm _ hdo _ => hpost m r m' hinv hm hdo

theorem follows_claim (cancel : Bool) :
    Follows cfg t (Fresh t) (slot (.claim cancel)) fun _ => OwnsClean t := by
  refine follows_slot (steady_fresh t) (fun _ h => h) fun m r m' _ hm hdo => ?_
  cases hdo
  exact Slot.Unused.own_claim hm cancel

theorem follows_register :
    Follows cfg t (OwnsClean t) (slot .register) fun r m => r = false → Owns t m := by
  refine follows_slot (steady_ownsClean t) (fun _ h => h) fun m r m' _ hm hdo hr => ?_
  cases hdo
  exact hm.1.register_false hr

theorem follows_takeStop : Follows cfg t (Owns t) (slot .takeStop) fun _ => Owns t := by
  refine follows_slot (steady_owns t) (fun _ h => h) fun m r m' _ hm hdo => ?_
  cases hdo
  exact Slot.Own.takeStop hm

theorem follows_finish :
    Follows cfg t (Owns t) (slot .finish) fun r m => ∀ spec, r = some spec → Serves t m := by
  refine follows_slot (steady_owns t) (fun _ h => h) fun m r m' hinv hm hdo spec hr => ?_
  cases hdo
  exact Slot.Own.serving_finish hm hinv hr

theorem follows_ran : Follows cfg t (Serves t) (slot .ran) fun _ => Owns t := by
  refine follows_slot (steady_serves t) (fun _ _ => trivial) fun m r m' _ hm hdo => ?_
  cases hdo
  exact Slot.Serving.own_ran hm

theorem follows_detach (want : Option ℕ) (spec : StopSpec) :
    Follows cfg t (Fresh t) (slot (.detach want spec)) fun r m => ∀ b, r = .held b → Owns t m := by
  refine follows_slot (steady_fresh t) (fun _ h => h) fun m r m' _ hm hdo b hr => ?_
  have hown := detach_own hm want spec (b := b)
  rw [Option.some.inj hdo] at hown
  exact hown hr

theorem follows_settle_jump (after : After) {Q : α → Mem → Prop} :
    Follows cfg t (Owns t) (.jump (.settle after)) Q :=
  .jump (steady_owns t).stable fun _ _ h => h

/-! ## The programs -/

theorem settle_follows (after : After) :
    Follows cfg t (Owns t) (settle after) fun _ _ => True := by
  refine follows_finish.bind fun r => ?_
  split
  · cases after with
    | nothing => exact follows_rest (quiet_pure _)
    | up => exact follows_rest (quiet_note .up trivial)
    | answer stopped =>
      show Follows cfg t _ (Prog.when _ _) _
      unfold Prog.when
      split
      · exact follows_endOk
      · exact follows_rest (quiet_pure _)
  · rename_i spec
    have hstop : Follows cfg t (Serves t) (stopDetached spec) fun _ => Serves t :=
      follows_quiet (steady_serves t) ((uses_stopDetached spec).quiet rfl)
    refine (hstop.of_imp fun _ _ h => h spec rfl).bind fun _ => ?_
    refine follows_ran.bind fun _ => ?_
    exact follows_settle_jump after

theorem stopOwned_follows (want : Option ℕ) (spec : StopSpec) (answers : Bool) :
    Follows cfg t (Fresh t) (stopOwned cfg want spec answers) fun _ _ => True := by
  refine (follows_detach want spec).bind fun r => ?_
  cases r with
  | nothing => exact follows_rest (quiet_pure _)
  | waits o => exact follows_rest (quiet_pure _)
  | held victim =>
    cases victim with
    | some b =>
      refine ((follows_quiet (steady_owns t) ((uses_stopLive ..).quiet rfl)).of_imp fun _ _ h =>
        h (some b) rfl).bind fun _ => ?_
      exact follows_settle_jump _
    | none =>
      refine ((follows_quiet (steady_owns t) ((uses_stopDetached spec).quiet rfl)).of_imp
        fun _ _ h => h none rfl).bind fun _ => ?_
      exact follows_settle_jump _

theorem failLaunch_follows (sess : Row) (opts : LaunchOpts) (claimName : String)
    (reason : EndReason) (detail : String) :
    Follows cfg t (Owns t) (failLaunch sess opts claimName reason detail) fun _ => Owns t := by
  refine follows_takeStop.bind fun r => ?_
  split
  · refine (follows_quiet (steady_owns t) ((uses_failTurn ..).quiet rfl)).bind fun _ => ?_
    exact follows_quiet (steady_owns t) ((uses_endLaunch ..).quiet rfl)
  · split
    · exact follows_quiet (steady_owns t) ((uses_failRevive ..).quiet rfl)
    · exact follows_quiet (steady_owns t) ((uses_endLaunch ..).quiet rfl)

theorem protocol_routine (t : ℕ) :
    Routine cfg (protocol cfg) t (Fresh t) (OwnsClean t) (Owns t) fun _ => True where
  all := Steady.undisturbed fun _ _ _ _ => trivial
  idle := (steady_fresh t).undisturbed
  held := (steady_ownsClean t).undisturbed
  left := (steady_owns t).undisturbed
  leave _ h := h.1
  ofIdle _ _ := trivial
  ofLeft _ _ := trivial
  self _ _ _ _ h := by cases h; rfl
  claim := follows_claim false
  register := follows_register.conseq (fun _ _ h => h) fun _ _ _ h => ⟨trivial, h⟩
  failLaunch := failLaunch_follows
  stop want spec := (stopOwned_follows want spec false).bind fun _ => follows_rest (quiet_pure _)
  settle _ _ _ _ h := h
  loop e m he _ h := by
    cases e with
    | settle after => exact absurd rfl (he after)
    | _ => exact h

theorem answerIfEnded_follows : Follows cfg t (fun _ => True) answerIfEnded fun _ _ => True := by
  refine (follows_rest (quiet_store _)).bind fun r => ?_
  split
  · exact follows_rest (quiet_pure _)
  · show Follows cfg t _ (Prog.when _ _) _
    unfold Prog.when
    split
    · exact follows_endOk
    · exact follows_rest (quiet_pure _)

theorem callEndSession_follows (reason : EndReason) :
    Follows cfg t (Fresh t) (callEndSession cfg reason) fun _ _ => True := by
  refine (follows_quiet (steady_fresh t) (quiet_store _)).bind fun r => ?_
  split
  · exact follows_rest (quiet_pure _)
  · split
    · exact follows_endOk
    · refine (stopOwned_follows ..).bind fun r => ?_
      split
      · exact follows_endOk
      · rename_i o
        refine (follows_rest (p := slot (.await o)) (.perform trivial)).bind fun _ => ?_
        exact answerIfEnded_follows

/-! ## Every run -/

theorem code_follows (e : Entry) :
    Follows cfg t ((protocol cfg).entry t e) (code cfg e) fun _ _ => True := by
  cases e with
  | settle after => exact settle_follows after
  | endSession reason => exact callEndSession_follows reason
  | _ => exact (protocol_routine t).code (follows_claim true) nofun nofun

theorem slot_inv_empty : ({} : Slot).Inv := by
  rw [Slot.inv_iff]
  intro t
  constructor <;> simp

theorem protocol_lawful : (protocol cfg).Lawful where
  inv_act h _ hpre _ hdo := perform_inv cfg h hpre hdo
  inv_env h _ hdo := by
    show Slot.Inv _
    rw [env_slot hdo]
    exact h
  inv_crash _ _ := slot_inv_empty
  fresh_other _ h ho := Slot.Unused.others h (other_slot cfg ho)
  fresh_crash _ _ _ := ⟨rfl, rfl, nofun⟩
  entry_start {_ e _} _ h _ hopen := by
    cases e with
    | settle after => cases hopen
    | _ => exact h
  entry_safe hinv h := (code_follows _).safe hinv h

/-- Any step is allowed. -/
abbrev anyStep {S : Sig} {σ χ ε : Type} (_ : Config S σ) (_ : ThreadLabel S χ ε) : Prop := True

theorem protocol_good {s : Config sig Mem} (h : Reach (system cfg).step anyStep init s) :
    (protocol cfg).Good s := by
  refine protocol_lawful.sound ?_ (fun _ _ _ _ _ _ => trivial) (h.mono ?_)
  · exact ⟨slot_inv_empty, fun t _ => ⟨⟨rfl, rfl, nofun⟩, rfl⟩, fun t p hp => by cases hp⟩
  · intro s l _
    cases l <;> first | exact fun _ _ _ => trivial | trivial

/-- The owner protocol, in every state of every run of any number of sessions: one thread at a
time is between taking the session and giving it up; an owner that is live never had a stop;
the stops that were stored on an owner that left the map were taken by its launch or run; and
a `settled` channel that was handed out is closed exactly when its owner left the map, with
its stops run. -/
theorem owner_protocol {ι : Type} [DecidableEq ι] (cfg : Settings) {s : ι → Config sig Mem}
    (h : Reach (family (system cfg).step) (fun _ _ => True) (fun _ => init) s) (i : ι) :
    let m := (s i).mem.slot
    (∀ t u, (m.hist t).taken = true → (m.hist u).taken = true → t = u) ∧
    (∀ t, (m.owners t).live = true → (m.owners t).stop = none ∧ (m.hist t).stored = []) ∧
    (∀ t, m.entry ≠ some t → (m.hist t).stored = (m.hist t).served) ∧
    (∀ t, (m.hist t).handed = true →
      ((m.hist t).closed = true ↔ m.entry ≠ some t) ∧
      ((m.hist t).closed = true → (m.hist t).stored = (m.hist t).served)) := by
  intro m
  have hinv : m.Inv := (protocol_good (h.member i fun _ _ _ => trivial)).inv
  refine ⟨fun t u => hinv.taken_unique, hinv.live_clean, fun t => hinv.served_of_left, ?_⟩
  intro t hhanded
  refine ⟨⟨hinv.closed_left t, fun hne => ?_⟩,
    fun hc => hinv.served_of_left (hinv.closed_left t hc)⟩
  by_contra hopen
  exact hne (hinv.settled_handed t (hinv.handed_open t hhanded (by simpa using hopen))).1

/-- Settings with every time limit switched off. -/
def noLimits : Settings := ⟨0, 0, 0, 0, 0⟩

/-- An end arrives while a session is launched: the launch takes it, ends the session and
leaves the map. -/
def endedLaunch : List (ThreadLabel sig Choice EnvStep) :=
  [.start (.createSession (.snapshot "") "" ""), .run 0 {}, .run 0 {}, .start (.endSession .ended),
    .run 1 {}, .run 1 {}, .run 0 {}, .run 0 {}, .run 0 {}, .run 0 {}, .run 0 {}, .run 0 {},
    .run 0 {}, .run 0 {}]

/-- The state after that run, of a family with one session. -/
def endedLaunchState : Unit → Config sig Mem :=
  (exec (family (system noLimits).step) (fun _ => init) (endedLaunch.map fun l => ((), l))).getD
    fun _ => init

theorem owner_protocol_endedLaunch :
    (endedLaunchState ()).mem.slot.entry = none ∧
    ((endedLaunchState ()).mem.slot.hist 0).stored = [{ ends := .ended }] ∧
    ((endedLaunchState ()).mem.slot.hist 0).served = [{ ends := .ended }] := by
  have hreach : Reach (family (system noLimits).step) (fun _ _ => True) (fun _ => init)
      endedLaunchState := Reach.of_exec_getD _ (by decide)
  have hserved := (owner_protocol noLimits hreach ()).2.2.1 0 (by decide)
  exact ⟨by decide, by decide, hserved.symm.trans (by decide)⟩

end AgentOps.Service
