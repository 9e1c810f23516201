import AgentOps.Service.EndCalls

/-!
# `EndSession` tells the truth

The programs keep the discipline of the answers of `EndSession`: a launch that took a stop ends
the session before it settles, the loop of `settle` runs the stops that it finds, and
`EndSession` answers OK only for a session that is over or whose end it left to an owner.
-/

namespace AgentOps.Service

open AgentOps.Api AgentOps.Link AgentOps.Lib

variable {A : Mem → Prop} {spec : StopSpec} {s : Config sig Mem}

variable {cfg : Settings} {t : ℕ} {α : Type} {m m' : Mem}

/-! ## Rules -/

/-- `A` is about the owner of thread `t` and the end of the session, and other threads cannot
make it false. -/
def Durable (t : ℕ) (A : Mem → Prop) : Prop :=
  ∀ m m', m.slot.Others m'.slot t → (Over m → Over m') → A m → A m'

theorem durable_true : Durable t fun _ => True := fun _ _ _ _ _ => trivial

theorem durable_over : Durable t Over := fun _ _ _ ho h => ho h

theorem durable_clear : Durable t (Clear t) :=
  fun _ _ hs ho h hserved => ho (h (by rw [← hs.served]; exact hserved))

theorem durable_pressed : Durable t (Pressed t) := by
  intro m m' hs _ h
  unfold Pressed
  rw [hs.served, hs.inHand]
  exact h

/-- Thread `t` has a stop in its hands that `finish` gave it. -/
def InHand (t : ℕ) (m : Mem) : Prop := (m.slot.hist t).inHand ≠ none

theorem durable_inHand : Durable t (InHand t) := by
  intro m m' hs _ h
  unfold InHand
  rw [hs.inHand]
  exact h

theorem Durable.and {B : Mem → Prop} (hA : Durable t A) (hB : Durable t B) :
    Durable t fun m => A m ∧ B m :=
  fun m m' hs ho h => ⟨hA m m' hs ho h.1, hB m m' hs ho h.2⟩

theorem Durable.imp {φ : Prop} (hA : Durable t A) : Durable t fun m => φ → A m :=
  fun m m' hs ho h hφ => hA m m' hs ho (h hφ)

theorem other_over (ho : (endCalls cfg).Other t m m') (hm : Over m) : Over m' := by
  cases ho with
  | act u op c r _ hg _ _ hdo => exact over_act hg hdo hm
  | env l _ hdo => exact over_of_status (env_idle hdo).status hm
  | start u e v _ _ _ hsame => exact hsame ▸ hm

theorem Durable.stable (hA : Durable t A) : (endCalls cfg).Stable t A :=
  fun m m' _ _ ho hm => hA m m' (other_slot cfg ho) (other_over ho) hm

/-- An answer that holds now holds later. -/
theorem answer_stable : (endCalls cfg).Stable t fun m => Over m ∨ Handed m := by
  intro m m' _ _ ho hm
  rcases hm with hm | ⟨o, he, hs⟩
  · exact .inl (other_over ho hm)
  · cases ho with
    | act u op c r _ hg hpre _ hdo =>
      exact (handed_act hg hpre hdo he hs).imp id fun hx => ⟨o, hx⟩
    | env l _ hdo =>
      right
      unfold Handed
      rw [env_slot hdo]
      exact ⟨o, he, hs⟩
    | start u e v _ _ _ hsame => exact hsame ▸ .inr ⟨o, he, hs⟩

theorem Durable.undisturbed (hA : Durable t A) : Undisturbed (endCalls cfg) t A where
  stable := hA.stable
  pre op m hop _ _ _ := by
    cases op with
    | slot op => cases op <;> trivial
    | note op => cases op <;> trivial
    | _ => trivial
  post op m c r m' hop _ hg hm _ hdo _ := by
    refine hA m m' ?_ (over_act hg hdo) hm
    rw [perform_slot hop hdo]
    exact .refl ..
  spawn e m u he _ _ _ hf := by
    have hclear : Clear u m := fun h => absurd (by rw [hf.2.1]) h
    cases e with
    | settle after => exact absurd rfl (he after)
    | _ => exact hclear

/-- A triple of the discipline. -/
abbrev Truthful (cfg : Settings) (t : ℕ) (A : Mem → Prop) {α : Type} (p : P α)
    (Q : α → Mem → Prop) : Prop :=
  (endCalls cfg).Triple t A p Q

theorem truthful_quiet (hA : Durable t A) {p : P α} (hp : Quiet p) :
    Truthful cfg t A p fun _ => A :=
  hA.undisturbed.quiet hp

theorem truthful_rest {p : P α} (hp : Quiet p) : Truthful cfg t A p fun _ _ => True :=
  (truthful_quiet durable_true hp).of_imp fun _ _ _ => trivial

/-- One function of the owner map that takes no stop. -/
theorem truthful_slot (op : SlotOp) (htake : op ≠ .takeStop) (hran : op ≠ .ran) :
    Truthful cfg t (Clear t) (slot op) fun _ => Clear t := by
  refine .perform durable_clear.stable (fun m _ _ hm => ?_) ?_
  · cases op <;> first | exact hm | trivial
  · intro m c r m' _ hg hm _ hdo _ hserved
    rw [slot_served op htake hran hg.1 hdo] at hserved
    exact over_act (c := c) hg hdo (hm hserved)

theorem truthful_endOk (hA : ∀ m, A m → Over m ∨ Handed m) :
    Truthful cfg t A (note .endOk) fun _ _ => True := by
  have hnote : Truthful cfg t (fun m => Over m ∨ Handed m) (note .endOk) fun _ _ => True :=
    .perform answer_stable (fun _ _ _ hm => hm) fun _ _ _ _ _ _ _ _ _ _ => trivial
  exact hnote.of_imp fun m _ => hA m

/-- A thread with a stop in its hands has the session, which then was created. -/
theorem InHand.row (h : InHand t m) (hl : LedgerInv m) : m.db.row ≠ none := by
  intro hrow
  have hentry := (hl.slot.taken_entry t (hl.slot.inHand_taken t h)).1
  rw [(hl.absent hrow).1] at hentry
  cases hentry

theorem truthful_getSession (hA : Durable t A) :
    Truthful cfg t A getSession fun r m => A m ∧
      (∀ row, r = some row → row.status.terminal = true → Over m) ∧ (InHand t m → r ≠ none) := by
  refine .perform hA.stable (fun _ _ _ _ => trivial) ?_
  intro m c r m' hinv hg hm hok hdo hinv'
  change StoreOp.perform t m c .getSession = some (r, m') at hdo
  simp only [StoreOp.perform] at hdo
  split at hdo <;> cases hdo
  · refine ⟨hm, fun row hr ht => ?_, fun hin => hin.row hg.2.2⟩
    unfold Over Db.terminal
    rw [hr]
    exact ht
  · rename_i hc
    refine ⟨hA m _ (.refl ..) id hm, fun row hr => (by cases hr), fun hin => ?_⟩
    exact absurd (hok.2 hin) hc

theorem truthful_teardown (hA : Durable t A) (claimName : String) :
    Truthful cfg t A (teardown claimName) fun ok m => A m ∧ (Pressed t m → ok = true) := by
  refine .perform hA.stable (fun _ _ _ _ => trivial) ?_
  intro m c r m' _ hg hm hok hdo _
  cases hdo
  exact ⟨hm, hok.2⟩

theorem truthful_finishSession (hA : Durable t A) (status : SessionState)
    (events : List (String × Payload)) :
    Truthful cfg t A (store (.finishSession status events)) fun r m => A m ∧
      (r ≠ .failed → Over m) ∧ (Pressed t m → r ≠ .failed) := by
  refine .perform hA.stable (fun _ _ _ _ => trivial) ?_
  intro m c r m' _ hg hm hok hdo _
  have hover : Over m → Over m' := over_act hg hdo
  change StoreOp.perform t m c (.finishSession status events) = some (r, m') at hdo
  have hslot := StoreOp.perform_slot hdo
  have hA' : A m' := by
    refine hA m m' ?_ hover hm
    rw [hslot]
    exact .refl ..
  have hpressed : Pressed t m' → Pressed t m := by
    unfold Pressed
    rw [hslot]
    exact id
  simp only [StoreOp.perform] at hdo
  split at hdo
  · obtain ⟨row, hrow⟩ := Option.isSome_iff_exists.mp (hg.2.2.writer_row hg.2.1.1)
    cases hdo
    cases hfinal : isFinal row.status with
    | true =>
      have hover : Over m := by
        unfold Over Db.terminal
        rw [hrow]
        exact isFinal.terminal hfinal
      simp only [Db.finishSession, hrow, hfinal, if_true]
      exact ⟨hA m _ (.refl ..) id hm, fun _ => hover, fun _ heq => by cases heq⟩
    | false =>
      have hover : Over { m with db := (m.db.finishSession m.unix status events).2 } := by
        unfold Over Db.terminal
        simp [Db.finishSession, hrow, hfinal, isFinal.terminal hg.2.1.2.final]
      refine ⟨hA', fun _ => hover, fun _ => ?_⟩
      simp [Db.finishSession, hrow, hfinal]
  · rename_i hc
    cases hdo
    exact ⟨hm, fun hx => absurd rfl hx, fun hp => absurd (hok.2 (hpressed hp)) hc⟩

/-! ## Ends -/

/-- What a program that ends the session leaves: the session is over if it says so, and it does
if the thread has an end to carry out. -/
def Ends (t : ℕ) (A : Mem → Prop) (ok : Bool) (m : Mem) : Prop :=
  A m ∧ (ok = true → Over m) ∧ (Pressed t m → ok = true)

theorem endSession_ends (hA : Durable t A) (old : SessionState) (reason : EndReason)
    (detail : String) (preface : List (String × Payload)) :
    Truthful cfg t A (endSession old reason detail preface) (Ends t A) := by
  refine (truthful_finishSession hA _ _).bind fun r => ?_
  cases r with
  | failed => exact .ret fun m _ hm => ⟨hm.1, nofun, fun hp => absurd rfl (hm.2.2 hp)⟩
  | done | conflict => exact .ret fun m _ hm => ⟨hm.1, fun _ => hm.2.1 nofun, fun _ => rfl⟩

/-- The workspace is torn down, and the session ended if that succeeds. -/
theorem tearDown_truthful (hA : Durable t A) (claimName : String) {p : P Bool}
    (hp : Truthful cfg t A p (Ends t A)) :
    Truthful cfg t A (do if ← teardown claimName then p else pure false) (Ends t A) := by
  refine (truthful_teardown hA claimName).bind fun ok => ?_
  split
  · exact hp.of_imp fun _ _ hm => hm.1
  · rename_i hok
    exact .ret fun m _ hm => ⟨hm.1, nofun, fun hpress => absurd (hm.2 hpress) hok⟩

/-- `stopDetached` ends the session if it says so, and if a stop was in the thread's hands. -/
theorem stopDetached_truthful (hA : Durable t A) (spec : StopSpec) :
    Truthful cfg t A (stopDetached spec) fun ok m => A m ∧ (ok = true ∨ InHand t m → Over m) := by
  refine (truthful_getSession hA).bind fun r => ?_
  have hend (sess : Row) : Truthful cfg t A (endSession sess.status spec.ends spec.detail)
      (Ends t A) := endSession_ends hA ..
  have hpost : ∀ ok m, Ends t A ok m → A m ∧ (ok = true ∨ InHand t m → Over m) := by
    intro ok m hm
    refine ⟨hm.1, fun hx => hm.2.1 ?_⟩
    exact hx.elim id fun hin => hm.2.2 (.inr hin)
  split
  · exact .ret fun m _ hm => ⟨hm.1, fun hx => absurd rfl (hm.2.2 (hx.resolve_left nofun))⟩
  · rename_i sess
    split
    · rename_i ht
      exact .ret fun m _ hm => ⟨hm.1, fun _ => hm.2.1 sess rfl ht⟩
    · have hrun : Truthful cfg t A
          (if sess.sandboxClaimName ≠ "" then do
            if ← teardown sess.sandboxClaimName then
              endSession sess.status spec.ends spec.detail
            else pure false
          else endSession sess.status spec.ends spec.detail) (Ends t A) := by
        split
        · exact tearDown_truthful hA _ (hend sess)
        · exact hend sess
      exact hrun.conseq (fun m _ hm => hm.1) fun ok m _ => hpost ok m

/-- `stopLive` that does not suspend ends the session if it says so. -/
theorem stopLive_truthful (hspec : spec.suspend = .unspecified) (b : ℕ) :
    Truthful cfg t (Clear t) (stopLive cfg b spec) (Ends t (Clear t)) := by
  refine (truthful_quiet durable_clear ((uses_drainBinding b).quiet rfl)).bind fun _ => ?_
  refine (truthful_quiet durable_clear (quiet_bind b _)).bind fun claimName => ?_
  rw [if_neg (fun h => h hspec)]
  refine tearDown_truthful durable_clear claimName ?_
  refine (truthful_quiet durable_clear ((uses_storedState _).quiet rfl)).bind fun old => ?_
  exact endSession_ends durable_clear ..

/-- A launch that took a stop ends the session. -/
theorem endLaunch_truthful (claimName : String) (reason : EndReason) (detail : String) :
    Truthful cfg t (Pressed t) (endLaunch claimName reason detail) fun _ => Over := by
  have hfinish : Truthful cfg t (Pressed t) (do
      let old ← storedState .launching
      let _ ← endSession old reason detail : P Unit) fun _ => Over := by
    refine (truthful_quiet durable_pressed ((uses_storedState _).quiet rfl)).bind fun old => ?_
    refine (endSession_ends durable_pressed ..).bind fun ok => ?_
    exact .ret fun m _ hm => hm.2.1 (hm.2.2 hm.1)
  unfold endLaunch
  dsimp only
  split
  · refine (truthful_teardown durable_pressed claimName).bind fun ok => ?_
    cases ok with
    | true => exact hfinish.of_imp fun _ _ hm => hm.1
    | false =>
      -- the teardown of an end that was left to the launch succeeds
      have hno : ∀ m, Pressed t m ∧ (Pressed t m → false = true) → False :=
        fun m hm => Bool.false_ne_true (hm.2 hm.1)
      exact ⟨fun m _ hm => (hno m hm).elim⟩
  · exact hfinish

theorem failLaunch_truthful (sess : Row) (opts : LaunchOpts) (claimName : String)
    (reason : EndReason) (detail : String) :
    Truthful cfg t (Clear t) (failLaunch sess opts claimName reason detail) fun _ => Clear t := by
  have htake : Truthful cfg t (Clear t) (slot .takeStop) fun r m =>
      if r.isSome then Pressed t m else Clear t m := by
    refine .perform durable_clear.stable (fun _ _ _ _ => trivial) ?_
    intro m c r m' _ hg hm _ hdo _
    cases hdo
    show if (m.slot.takeStop t).1.isSome = true then _ else _
    unfold Slot.takeStop
    split
    · exact hm
    · exact .inl (by simp)
  refine htake.bind fun r => ?_
  cases r with
  | some spec =>
    refine (truthful_quiet durable_pressed ((uses_failTurn ..).quiet rfl)).bind fun _ => ?_
    exact (endLaunch_truthful ..).conseq (fun _ _ hm => hm) fun _ _ _ hm _ => hm
  | none =>
    show Truthful cfg t (Clear t) (if _ then _ else _) _
    split
    · exact truthful_quiet durable_clear ((uses_failRevive ..).quiet rfl)
    · exact truthful_quiet durable_clear ((uses_endLaunch ..).quiet rfl)

theorem truthful_settle {after : After} {Q : α → Mem → Prop} :
    Truthful cfg t (fun m => Clear t m ∧ (after = .answer true → Over m))
      (.jump (.settle after)) Q :=
  .jump (durable_clear.and durable_over.imp).stable fun _ _ hm => hm

theorem settle_truthful (after : After) :
    Truthful cfg t (fun m => Clear t m ∧ (after = .answer true → Over m)) (settle after)
      fun _ _ => True := by
  have hfinish : Truthful cfg t (fun m => Clear t m ∧ (after = .answer true → Over m))
      (slot .finish) fun r m => (after = .answer true → Over m) ∧ (r ≠ none → InHand t m) := by
    refine .perform (durable_clear.and durable_over.imp).stable (fun _ _ _ hm => hm.1) ?_
    intro m c r m' _ hg hm _ hdo _
    refine ⟨fun ha => over_act (c := c) hg hdo (hm.2 ha), fun hr => ?_⟩
    cases hdo
    unfold InHand
    unfold Slot.finish at hr ⊢
    split at hr
    · simp
    · exact absurd rfl hr
  refine hfinish.bind fun r => ?_
  split
  · cases after with
    | nothing => exact truthful_rest (quiet_pure _)
    | up => exact truthful_rest (quiet_note .up trivial)
    | answer stopped =>
      show Truthful cfg t _ (Prog.when _ _) _
      unfold Prog.when
      split
      · rename_i hs
        exact truthful_endOk fun m hm => .inl (hm.1 (by rw [hs]))
      · exact truthful_rest (quiet_pure _)
  · rename_i spec
    have hstop : Truthful cfg t (fun m => (after = .answer true → Over m) ∧
        (some spec ≠ none → InHand t m)) (stopDetached spec) fun _ => Over := by
      refine (stopDetached_truthful durable_inHand spec).conseq (fun m _ hm => hm.2 nofun) ?_
      exact fun ok m _ hm => hm.2 (.inr hm.1)
    refine hstop.bind fun _ => ?_
    have hran : Truthful cfg t Over (slot .ran) fun _ => Over :=
      .perform durable_over.stable (fun _ _ _ _ => trivial)
        fun m c r m' _ hg hm _ hdo _ => over_act (c := c) hg hdo hm
    refine hran.bind fun _ => ?_
    exact truthful_settle.of_imp fun m _ hm => ⟨fun _ => hm, fun _ => hm⟩

/-! ## Stops -/

/-- `detach` of any owner with an end: if it returns nothing, the end is left to the owner in the
map. -/
theorem detach_handed (hinv : EndCallInv m) (hspec : spec.suspend = .unspecified)
    (hidle : spec.ifIdleFor = 0) (h : (m.detach t none spec).1 = .nothing) (hl : m.slot.Inv) :
    Handed (m.detach t none spec).2 := by
  unfold Mem.detach at h ⊢
  rw [if_neg (by simp)] at h ⊢
  cases he : m.slot.entry with
  | none =>
    rw [he] at h
    cases h
  | some o =>
    rw [he] at h
    dsimp only at h ⊢
    split at h
    · rename_i hlive
      -- a binding in the map is not closed, so `close` does not refuse
      have hopen : (m.binds o).closed = false := by
        by_contra hc
        exact (hinv.closed o (by simpa using hc)).2 he
      split at h
      · rename_i hclose
        simp [Binding.close, hopen, hidle] at hclose
      · cases h
    · rename_i hlive
      rw [if_neg hlive]
      refine ⟨o, (Slot.detachOwned_entry ..).trans he, ?_⟩
      unfold Slot.detachOwned
      dsimp only
      split
      · split <;> simp
      · rename_i hkeep
        have hstop : (m.slot.owners o).stop ≠ none := fun hn => hkeep ⟨hspec, hn⟩
        have hstored : (m.slot.hist o).stored ≠ [] := by
          rw [hl.stored_eq]
          simp [hstop]
        split
        · exact hstored
        · simpa using hstored

/-- `stopOwned` of an `EndSession`. -/
theorem stopOwned_truthful (hspec : spec.suspend = .unspecified) (hidle : spec.ifIdleFor = 0) :
    Truthful cfg t (Clear t) (stopOwned cfg none spec true) fun r m =>
      r = none → Over m ∨ Handed m := by
  have hdetach : Truthful cfg t (Clear t) (slot (.detach none spec)) fun r m =>
      Clear t m ∧ (r = .nothing → Handed m) := by
    refine .perform durable_clear.stable (fun _ _ _ _ => trivial) ?_
    intro m c r m' hinv hg hm _ hdo _
    refine ⟨fun hserved => ?_, fun hr => ?_⟩
    · rw [slot_served (.detach none spec) nofun nofun hg.1 hdo] at hserved
      exact over_act (c := c) hg hdo (hm hserved)
    · have heq := Option.some.inj hdo
      have := detach_handed (t := t) hinv hspec hidle (by rw [heq]; exact hr) hg.2.2.slot
      rw [heq] at this
      exact this
  refine hdetach.bind fun r => ?_
  cases r with
  | nothing => exact .ret fun m _ hm _ => .inr (hm.2 rfl)
  | waits o => exact .ret fun m _ _ hr => by cases hr
  | held victim =>
    cases victim with
    | some b =>
      have hstop : Truthful cfg t (Clear t) (stopLive cfg b spec) fun ok m =>
          Clear t m ∧ (ok = true → Over m) :=
        (stopLive_truthful hspec b).conseq (fun _ _ hm => hm) fun _ _ _ hm => ⟨hm.1, hm.2.1⟩
      refine (hstop.of_imp fun _ _ hm => hm.1).bind fun ok => ?_
      refine truthful_settle.of_imp fun m _ hm => ⟨hm.1, fun ha => hm.2 ?_⟩
      simpa using ha
    | none =>
      have hstop : Truthful cfg t (Clear t) (stopDetached spec) fun ok m =>
          Clear t m ∧ (ok = true → Over m) :=
        (stopDetached_truthful durable_clear spec).conseq (fun _ _ hm => hm)
          fun _ _ _ hm => ⟨hm.1, fun hok => hm.2 (.inl hok)⟩
      refine (hstop.of_imp fun _ _ hm => hm.1).bind fun ok => ?_
      refine truthful_settle.of_imp fun m _ hm => ⟨hm.1, fun ha => hm.2 ?_⟩
      simpa using ha

/-- A stop that nobody asks about. -/
theorem stop_truthful (want : Option ℕ) (spec : StopSpec) :
    Truthful cfg t (Clear t) (stop cfg want spec) fun _ _ => True := by
  have howned : Truthful cfg t (Clear t) (stopOwned cfg want spec false) fun _ _ => True := by
    refine (truthful_slot (.detach want spec) nofun nofun).bind fun r => ?_
    cases r with
    | nothing => exact truthful_rest (quiet_pure _)
    | waits o => exact truthful_rest (quiet_pure _)
    | held victim =>
      cases victim with
      | some b =>
        refine (truthful_quiet durable_clear ((uses_stopLive ..).quiet rfl)).bind fun ok => ?_
        exact truthful_settle.of_imp fun m _ hm => ⟨hm, fun heq => by cases heq⟩
      | none =>
        refine (truthful_quiet durable_clear ((uses_stopDetached spec).quiet rfl)).bind fun ok => ?_
        exact truthful_settle.of_imp fun m _ hm => ⟨hm, fun heq => by cases heq⟩
  exact howned.bind fun _ => truthful_rest (quiet_pure _)

theorem answerIfEnded_truthful :
    Truthful cfg t (fun _ => True) answerIfEnded fun _ _ => True := by
  refine (truthful_getSession durable_true).bind fun r => ?_
  split
  · exact truthful_rest (quiet_pure _)
  · rename_i current
    show Truthful cfg t _ (Prog.when _ _) _
    unfold Prog.when
    split
    · rename_i ht
      exact truthful_endOk fun m hm => .inl (hm.2.1 current rfl ht)
    · exact truthful_rest (quiet_pure _)

theorem callEndSession_truthful (reason : EndReason) :
    Truthful cfg t (Clear t) (callEndSession cfg reason) fun _ _ => True := by
  refine (truthful_getSession durable_clear).bind fun r => ?_
  split
  · exact truthful_rest (quiet_pure _)
  · rename_i sess
    split
    · rename_i ht
      exact truthful_endOk fun m hm => .inl (hm.2.1 sess rfl ht)
    · refine ((stopOwned_truthful rfl rfl).of_imp fun _ _ hm => hm.1).bind fun r => ?_
      split
      · exact truthful_endOk fun m hm => hm rfl
      · rename_i o
        refine (truthful_rest (p := slot (.await o)) (.perform trivial)).bind fun _ => ?_
        exact answerIfEnded_truthful

/-! ## Every run -/

theorem endCalls_routine (t : ℕ) :
    Routine cfg (endCalls cfg) t (Clear t) (Clear t) (Clear t) (Clear t) where
  all := durable_clear.undisturbed
  idle := durable_clear.undisturbed
  held := durable_clear.undisturbed
  left := durable_clear.undisturbed
  leave _ h := h
  ofIdle _ h := h
  ofLeft _ h := h
  self _ _ _ _ h := by cases h; rfl
  claim := truthful_slot (.claim false) nofun nofun
  register := (truthful_slot .register nofun nofun).conseq (fun _ _ h => h)
    fun _ _ _ h => ⟨h, fun _ => h⟩
  failLaunch := failLaunch_truthful
  stop := stop_truthful
  settle after _ ha _ h := ⟨h, fun hx => absurd hx (ha true)⟩
  loop e m he _ h := by
    cases e with
    | settle after => exact absurd rfl (he after)
    | _ => exact h

theorem code_truthful (e : Entry) :
    Truthful cfg t ((endCalls cfg).entry t e) (code cfg e) fun _ _ => True := by
  cases e with
  | settle after => exact settle_truthful after
  | endSession reason => exact callEndSession_truthful reason
  | _ => exact (endCalls_routine t).code (truthful_slot (.claim true) nofun nofun) nofun nofun

theorem endCalls_lawful : (endCalls cfg).Lawful where
  inv_act h hg hpre _ hdo := EndCallInv.act h hg hpre hdo
  inv_env h _ hdo := EndCallInv.env h hdo
  inv_crash _ _ := ⟨nofun, nofun⟩
  fresh_other _ h ho := Slot.Unused.others h (other_slot cfg ho)
  fresh_crash _ _ _ := ⟨rfl, rfl, nofun⟩
  entry_start {t e m} _ h _ hopen := by
    have hclear : Clear t m := fun hs => absurd (by rw [h.2.1]) hs
    cases e with
    | settle after => cases hopen
    | _ => exact hclear
  entry_safe hinv h := (code_truthful _).safe hinv h

/-- The steps of a run in which the calls succeed that carry out an end that was left to a
thread. -/
def unfailingStep (s : Config sig Mem) : ThreadLabel sig Choice EnvStep → Prop
  | .run t c => ∀ op ∈ System.pending s t, unfailing t op s.mem c
  | _ => True

instance (s : Config sig Mem) : (l : ThreadLabel sig Choice EnvStep) → Decidable (unfailingStep s l)
  | .run t c => inferInstanceAs (Decidable (∀ op ∈ System.pending s t, unfailing t op s.mem c))
  | .start _ | .env _ | .crash => inferInstanceAs (Decidable True)

theorem endCalls_ok {l : ThreadLabel sig Choice EnvStep} (ho : orderlyStep s l)
    (hu : unfailingStep s l) : (endCalls cfg).ok s l := by
  cases l with
  | run t c => exact fun op k hk => ⟨ho op (System.mem_pending hk), hu op (System.mem_pending hk)⟩
  | _ => trivial

theorem ledger_ok_of_endCalls {l : ThreadLabel sig Choice EnvStep} (h : (endCalls cfg).ok s l) :
    (ledger cfg).ok s l := by
  cases l with
  | run t c => exact fun op k hk => (h op k hk).1
  | _ => trivial

theorem endCalls_good (h : Reach (system cfg).step (endCalls cfg).ok init s) :
    (endCalls cfg).Good s := by
  refine endCalls_lawful.sound ?_ ?_ h
  · exact ⟨⟨nofun, nofun⟩, fun t _ => ⟨⟨rfl, rfl, nofun⟩, rfl⟩, fun t p hp => by cases hp⟩
  · intro s hs t op k hk
    have hprotocol := protocol_good (hs.mono fun _ _ _ => trivial)
    have hledger := ledger_good (hs.mono fun _ _ => ledger_ok_of_endCalls)
    have hpre := hprotocol.pre hk trivial
    exact ⟨hpre, hledger.pre hk hpre, hledger.inv⟩

/-- After each OK of `EndSession`, once the owner that had the session then has left the map, the
log has a SessionEnded and the stored status is a final one. -/
def EndsTold (m : Mem) : Prop :=
  ∀ e ∈ m.endOks, (∀ o ∈ e, m.slot.entry ≠ some o) →
    (∃ ev ∈ m.db.log.rows, ev.payload.isSessionEnded = true) ∧
    ∃ r, m.db.row = some r ∧ (r.status = .ended ∨ r.status = .interrupted)

/-- In every orderly run of any number of sessions in which the calls succeed that carry out an
end that was left to a thread, whatever else fails, `EndSession` tells the truth. -/
theorem endSession_truthful {ι : Type} [DecidableEq ι] (cfg : Settings) {s : ι → Config sig Mem}
    (h : Reach (family (system cfg).step)
      (fun a l => orderlyStep (a l.1) l.2 ∧ unfailingStep (a l.1) l.2) (fun _ => init) s) (i : ι) :
    EndsTold (s i).mem := by
  have hrun : Reach (system cfg).step (endCalls cfg).ok init (s i) :=
    h.member i fun _ _ hl => endCalls_ok hl.1 hl.2
  have hends := (ledger_good (hrun.mono fun _ _ => ledger_ok_of_endCalls)).inv.ends
  intro e he hleft
  have hover : (s i).mem.db.terminal = true := by
    rcases (endCalls_good hrun).inv.oks e he with hover | ⟨o, rfl, hentry, -⟩
    · exact hover
    · exact absurd hentry (hleft o rfl)
  exact ⟨hends.ended_iff.mpr hover, (terminal_iff_final hends).mp hover⟩

/-- A session is launched up to its workspace; then it is ended. -/
def endWhileLaunching : List (ThreadLabel sig Choice EnvStep) :=
  (.start (.createSession (.snapshot "") "" "") :: List.replicate 8 (.run 0 {}) : List Label) ++
    (.run 0 { claimName := "c" } :: List.replicate 2 (.run 0 {}) : List Label) ++
    (.start (.endSession .ended) :: List.replicate 3 (.run 1 {}) : List Label)

/-- The launch fails, takes the end, and cannot tear the workspace down. -/
def endLost : List (ThreadLabel sig Choice EnvStep) :=
  endWhileLaunching ++ ([.run 0 { ok := false }, .run 0 {}, .run 0 { ok := false }, .run 0 {},
    .run 0 {}, .run 0 {}] : List Label)

/-- The launch fails, takes the end and ends the session. -/
def endKept : List (ThreadLabel sig Choice EnvStep) :=
  endWhileLaunching ++ ([.run 0 { ok := false }, .run 0 {}, .run 0 {}, .run 0 {}, .run 0 {},
    .run 0 {}, .run 0 {}] : List Label)

/-- The owner has left the map and the session is still there, although `EndSession` answered OK. -/
theorem endSession_not_truthful : ¬ ∀ s : Unit → Config sig Mem,
    Reach (family (system noLimits).step) (fun a l => orderlyStep (a l.1) l.2) (fun _ => init) s →
      ∀ i, EndsTold (s i).mem := by
  intro h
  have hreach : Reach (family (system noLimits).step) (fun a l => orderlyStep (a l.1) l.2)
      (fun _ => init) (after noLimits endLost) := Reach.of_exec_guarded _ (by decide)
  obtain ⟨-, r, hr, hfinal⟩ := h _ hreach () (some 0) (by decide) (by decide)
  have hstatus : (after noLimits endLost ()).mem.status = some .launching := by decide
  simp only [Mem.status, hr, Option.map_some, Option.some.injEq] at hstatus
  rw [hstatus] at hfinal
  rcases hfinal with hfinal | hfinal <;> cases hfinal

theorem endSession_truthful_endKept :
    let m := (after noLimits endKept ()).mem
    m.endOks = [some 0] ∧ m.slot.entry = none ∧
      ∃ ev ∈ m.db.log.rows, ev.payload.isSessionEnded = true := by
  have hreach : Reach (family (system noLimits).step)
      (fun a l => orderlyStep (a l.1) l.2 ∧ unfailingStep (a l.1) l.2) (fun _ => init)
      (after noLimits endKept) := Reach.of_exec_guarded _ (by decide)
  have htold := endSession_truthful noLimits hreach () (some 0) (by decide) (by decide)
  exact ⟨by decide, by decide, htold.1⟩

end AgentOps.Service
