import AgentOps.Service.LedgerTheorems

/-!
# What an answer of `EndSession` promises

`EndSession` answers OK when it ended the session itself, when it finds it ended, and when it
left the end to the launch or the stop that has the session. This is the third discipline: an
end that was left to an owner is carried out before that owner leaves the map, as long as the
calls that carry it out succeed.
-/

namespace AgentOps.Service

open AgentOps.Api AgentOps.Link AgentOps.Lib

/-! ## The owner map -/

theorem detach_stored {m : Mem} {t u : ℕ} (want : Option ℕ) (spec : StopSpec)
    (h : (m.slot.hist u).stored ≠ []) : ((m.detach t want spec).2.slot.hist u).stored ≠ [] := by
  unfold Mem.detach
  split
  · exact h
  · split
    · show ((m.slot.hold t none).hist u).stored ≠ []
      rw [Slot.hold_stored]
      exact h
    · rename_i o _
      split
      · split
        · exact h
        · show ((m.slot.hold t (some o)).hist u).stored ≠ []
          rw [Slot.hold_stored]
          exact h
      · exact Slot.detachOwned_stored m.slot o u spec h

/-- `detach` leaves an entry with a stop in the map. -/
theorem detach_entry {m : Mem} {t o : ℕ} (hinv : m.slot.Inv) (he : m.slot.entry = some o)
    (hs : (m.slot.hist o).stored ≠ []) (want : Option ℕ) (spec : StopSpec) :
    (m.detach t want spec).2.slot.entry = some o := by
  unfold Mem.detach
  split
  · exact he
  · rw [he]
    dsimp only
    split
    · rename_i hlive
      exact absurd (hinv.live_clean o hlive).2 hs
    · show (m.slot.detachOwned o spec).2.entry = some o
      rw [Slot.detachOwned_entry, he]

/-- An owner with a stop leaves the map only by its own `finish`, when it was served the stop. -/
theorem slot_leaves {op : SlotOp} {m m' : Mem} {t o : ℕ} {r : op.Res} (hinv : m.slot.Inv)
    (hpre : slotPre t m.slot op) (hdo : op.perform t m = some (r, m')) (he : m.slot.entry = some o)
    (hs : (m.slot.hist o).stored ≠ []) :
    m'.slot.entry = some o ∧ (m'.slot.hist o).stored ≠ [] ∨
      op = .finish ∧ (m.slot.hist t).served ≠ [] := by
  cases op with
  | claim cancel =>
    left
    cases hdo
    rw [Slot.claim_of_some he]
    exact ⟨he, hs⟩
  | register =>
    left
    cases hdo
    refine ⟨(Slot.register_entry m.slot t).trans he, ?_⟩
    show ((m.slot.register t).2.hist o).stored ≠ []
    rw [Slot.register_stored]
    exact hs
  | takeStop =>
    left
    cases hdo
    refine ⟨(Slot.takeStop_entry m.slot t).trans he, ?_⟩
    show ((m.slot.takeStop t).2.hist o).stored ≠ []
    rw [Slot.takeStop_stored]
    exact hs
  | ran =>
    left
    cases hdo
    refine ⟨he, ?_⟩
    show ((m.slot.ran t).hist o).stored ≠ []
    rw [Slot.ran_stored]
    exact hs
  | detach want spec =>
    left
    have hm : m' = (m.detach t want spec).2 := by rw [Option.some.inj hdo]
    subst hm
    exact ⟨detach_entry hinv he hs want spec, detach_stored want spec hs⟩
  | finish =>
    cases hdo
    have hstored := Slot.finish_stored m.slot t o
    unfold Slot.finish at hstored ⊢
    cases hstop : (m.slot.owners t).stop with
    | some spec =>
      left
      simp only [hstop] at hstored ⊢
      exact ⟨he, by rw [hstored]; exact hs⟩
    | none =>
      by_cases hot : o = t
      · -- without a stop in the owner or in its thread's hands, all were served
        right
        subst hot
        refine ⟨rfl, fun hserved => hs ?_⟩
        rw [hinv.stored_eq, hserved, hpre.inHand, hstop]
        rfl
      · left
        have hne : m.slot.entry ≠ some t := by
          rw [he]
          exact fun h => hot (Option.some.inj h)
        simp only [hstop, if_neg hne] at hstored ⊢
        exact ⟨he, by rw [hstored]; exact hs⟩
  | lookup | stopped =>
    cases hdo
    exact .inl ⟨he, hs⟩
  | await o' =>
    simp only [SlotOp.perform] at hdo
    split at hdo <;> cases hdo
    exact .inl ⟨he, hs⟩

/-- A live owner stays live, and does not come back to the map. -/
theorem slot_live {op : SlotOp} {m m' : Mem} {t b : ℕ} {r : op.Res} (hpre : slotPre t m.slot op)
    (hdo : op.perform t m = some (r, m')) (hb : (m.slot.owners b).live = true) :
    (m'.slot.owners b).live = true ∧ (m'.slot.entry = some b → m.slot.entry = some b) := by
  by_cases hbt : t = b
  · subst hbt
    cases op with
    | claim cancel | detach want spec =>
      rw [hpre.1] at hb
      cases hb
    | register =>
      rw [hpre.1.live] at hb
      cases hb
    | takeStop | finish =>
      rw [hpre.live] at hb
      cases hb
    | ran | lookup | stopped =>
      cases hdo
      exact ⟨hb, id⟩
    | await o =>
      simp only [SlotOp.perform] at hdo
      split at hdo <;> cases hdo
      exact ⟨hb, id⟩
  · have ho := slot_others hbt hdo
    exact ⟨ho.live.trans hb, ho.entry⟩

/-- Only a launch and the loop of `settle` take stops from an owner. -/
theorem slot_served (op : SlotOp) {m m' : Mem} {t : ℕ} {r : op.Res} (htake : op ≠ .takeStop)
    (hran : op ≠ .ran) (hpre : slotPre t m.slot op) (hdo : op.perform t m = some (r, m')) :
    (m'.slot.hist t).served = (m.slot.hist t).served := by
  cases op with
  | claim cancel =>
    cases hdo
    rw [(Slot.Unused.own_claim hpre cancel).2, hpre.2.1]
  | register =>
    cases hdo
    exact Slot.register_served ..
  | takeStop => exact absurd rfl htake
  | ran => exact absurd rfl hran
  | detach want spec =>
    have hm : m' = (m.detach t want spec).2 := by rw [Option.some.inj hdo]
    subst hm
    unfold Mem.detach
    split
    · rfl
    · split
      · exact Slot.hold_served ..
      · rename_i o he
        split
        · split
          · rfl
          · exact Slot.hold_served ..
        · have hto : t ≠ o := fun h => hpre.2.2 (by rw [he, h])
          exact congrArg History.served ((Slot.detachOwned_touches m.slot o spec).hist t hto)
  | finish =>
    cases hdo
    exact Slot.finish_served ..
  | lookup | stopped => cases hdo; rfl
  | await o =>
    simp only [SlotOp.perform] at hdo
    split at hdo <;> cases hdo
    rfl

/-! ## Closed bindings -/

theorem setBind_closed {m : Mem} {b : ℕ} {f : Binding → Binding}
    (hf : (f (m.binds b)).closed = true → (m.binds b).closed = true) (u : ℕ)
    (h : ((m.setBind b f).binds u).closed = true) : (m.binds u).closed = true := by
  unfold Mem.setBind at h
  by_cases hu : u = b
  · subst hu
    simp only [Function.update_self] at h
    exact hf h
  · simpa [hu] using h

theorem release_closed (m : Mem) (b u : ℕ) (h : ((m.release b).binds u).closed = true) :
    (m.binds u).closed = true := by
  refine setBind_closed (m := m) (b := b) (f := fun _ => ((m.binds b).release).1) ?_ u h
  unfold Binding.release
  split <;> exact id

theorem BindOp.perform_closed {t : ℕ} {m m' : Mem} {c : Choice} {b u : ℕ} {op : BindOp} {r : op.Res}
    (h : op.perform t m c b = some (r, m')) (hu : (m'.binds u).closed = true) :
    (m.binds u).closed = true := by
  cases op <;> simp only [BindOp.perform] at h
  case hold p => cases h; exact setBind_closed id u (release_closed _ b u hu)
  case ungate =>
    split at h <;> cases h
    exact setBind_closed id u (release_closed _ b u hu)
  case reconcile st cmds =>
    split at h <;> cases h
    unfold Mem.reconcile at hu
    dsimp only at hu
    have hset := setBind_closed id u (release_closed _ b u hu)
    exact hset
  case enter turnId =>
    cases h
    refine setBind_closed ?_ u hu
    unfold Binding.enter
    split
    · exact id
    · dsimp only [Binding.touch]
      split <;> exact id
  case restore w =>
    cases h
    refine setBind_closed ?_ u hu
    split <;> exact id
  case create => cases h; exact setBind_closed (fun hc => by cases hc) u hu
  all_goals
    (repeat' split at h) <;> cases h <;> first | exact hu | exact setBind_closed id u hu

/-- Only `detach` closes a binding. -/
theorem perform_closed {t : ℕ} {op : Op} {m m' : Mem} {c : Choice} {r : op.Res} {u : ℕ}
    (hop : ∀ op', op ≠ .slot op') (h : perform t op m c = some (r, m'))
    (hu : (m'.binds u).closed = true) : (m.binds u).closed = true := by
  cases op with
  | slot op => exact absurd rfl (hop op)
  | store op =>
    obtain ⟨db, creator, faulty, late, rfl⟩ := StoreOp.perform_eq h
    exact hu
  | ext op =>
    obtain ⟨pods, resolved, rfl⟩ := ExtOp.perform_eq h
    exact hu
  | bind b op => exact BindOp.perform_closed h hu
  | note op =>
    obtain ⟨boot, accepted, endOks, rfl⟩ := note_eq h
    exact hu

/-! ## The discipline -/

/-- The session is over. -/
def Over (m : Mem) : Prop := m.db.terminal = true

/-- The stops that thread `t` took are carried out. -/
def Clear (t : ℕ) (m : Mem) : Prop := (m.slot.hist t).served ≠ [] → Over m

/-- Thread `t` has an end to carry out. -/
def Pressed (t : ℕ) (m : Mem) : Prop := (m.slot.hist t).served ≠ [] ∨ (m.slot.hist t).inHand ≠ none

/-- The end is left to the owner in the map. -/
def Handed (m : Mem) : Prop := ∃ o, m.slot.entry = some o ∧ (m.slot.hist o).stored ≠ []

structure EndCallInv (m : Mem) : Prop where
  closed : ∀ b, (m.binds b).closed = true → (m.slot.owners b).live = true ∧ m.slot.entry ≠ some b
  /-- After an OK the session is over, or its end is left to the owner that the map had then. -/
  oks : ∀ e ∈ m.endOks, Over m ∨
    ∃ o, e = some o ∧ m.slot.entry = some o ∧ (m.slot.hist o).stored ≠ []

/-- The calls succeed with which a thread carries out an end that was left to it: the teardown
of the workspace, the final write, and the read before them of an end that `finish` found. -/
def unfailing (t : ℕ) (op : Op) (m : Mem) (c : Choice) : Prop :=
  match op with
  | .ext (.teardown _) | .store (.finishSession _ _) => Pressed t m → c.ok = true
  | .store .getSession => (m.slot.hist t).inHand ≠ none → c.ok = true
  | _ => True

instance (t : ℕ) (m : Mem) : Decidable (Pressed t m) := by
  unfold Pressed
  infer_instance

instance (t : ℕ) (op : Op) (m : Mem) (c : Choice) : Decidable (unfailing t op m c) := by
  cases op with
  | ext op =>
    cases op with
    | teardown => exact inferInstanceAs (Decidable (Pressed t m → c.ok = true))
    | _ => exact inferInstanceAs (Decidable True)
  | store op =>
    cases op with
    | finishSession => exact inferInstanceAs (Decidable (Pressed t m → c.ok = true))
    | getSession => exact inferInstanceAs (Decidable ((m.slot.hist t).inHand ≠ none → c.ok = true))
    | _ => exact inferInstanceAs (Decidable True)
  | _ => exact inferInstanceAs (Decidable True)

variable (cfg : Settings)

/-- The discipline of the answers of `EndSession`. -/
def endCalls : Discipline (system cfg) where
  inv := EndCallInv
  pre t op m := match op with
    | .slot .finish => Clear t m
    | .note .endOk => Over m ∨ Handed m
    | _ => True
  entry t e m := match e with
    | .settle after => Clear t m ∧ (after = .answer true → Over m)
    | _ => Clear t m
  fresh t m := m.slot.Unused t
  given t op m := (protocol cfg).pre t op m ∧ ledgerPre t op m ∧ LedgerInv m
  allow t op m c := orderly t op m ∧ unfailing t op m c

variable {cfg} {t : ℕ} {m m' : Mem}

theorem over_of_status (h : m'.status = m.status) (hm : Over m) : Over m' := by
  unfold Over at *
  rw [Db.terminal_eq, show m'.db.row.map Row.status = m.db.row.map Row.status from h,
    ← Db.terminal_eq]
  exact hm

theorem over_act {op : Op} {c : Choice} {r : op.Res} (hg : (endCalls cfg).given t op m)
    (hdo : perform t op m c = some (r, m')) (hm : Over m) : Over m' :=
  over_of_status (act_final hg.2.2 hm hg.2.1 hdo) hm

/-- An end that was left to an owner stays with it until it is carried out. -/
theorem handed_act {op : Op} {c : Choice} {r : op.Res} {o : ℕ} (hg : (endCalls cfg).given t op m)
    (hpre : (endCalls cfg).pre t op m) (hdo : perform t op m c = some (r, m'))
    (he : m.slot.entry = some o) (hs : (m.slot.hist o).stored ≠ []) :
    Over m' ∨ m'.slot.entry = some o ∧ (m'.slot.hist o).stored ≠ [] := by
  cases op with
  | slot op =>
    rcases slot_leaves hg.2.2.slot hg.1 hdo he hs with h | ⟨rfl, h⟩
    · exact .inr h
    · exact .inl (over_act hg hdo (hpre h))
  | note op =>
    right
    rw [note_slot hdo]
    exact ⟨he, hs⟩
  | _ =>
    right
    rw [perform_slot (by trivial) hdo]
    exact ⟨he, hs⟩

/-- A binding that was closed is out of the map. -/
theorem closed_act {op : Op} {c : Choice} {r : op.Res} (hinv : EndCallInv m)
    (hg : (endCalls cfg).given t op m) (hdo : perform t op m c = some (r, m')) (b : ℕ)
    (hb : (m'.binds b).closed = true) :
    (m'.slot.owners b).live = true ∧ m'.slot.entry ≠ some b := by
  cases op with
  | slot op =>
    have hkeep (hc : (m.binds b).closed = true) :
        (m'.slot.owners b).live = true ∧ m'.slot.entry ≠ some b := by
      obtain ⟨hl, he⟩ := hinv.closed b hc
      have hlive := slot_live hg.1 hdo hl
      exact ⟨hlive.1, fun hx => he (hlive.2 hx)⟩
    cases op with
    | detach want spec =>
      have hm : m' = (m.detach t want spec).2 := by rw [Option.some.inj hdo]
      by_cases hc : (m.binds b).closed = true
      · exact hkeep hc
      · -- `detach` has just closed it, and took its place
        subst hm
        have hu : m.slot.Unused t := hg.1
        unfold Mem.detach at hb ⊢
        split at hb
        · exact absurd hb hc
        · rename_i hwant
          rw [if_neg hwant]
          split at hb
          · exact absurd hb hc
          · rename_i o he
            split at hb
            · rename_i hlive
              simp only [hlive, if_true]
              split at hb
              · exact absurd hb hc
              · have hbo : b = o := by
                  by_contra hne
                  simp only [Function.update_of_ne hne] at hb
                  exact hc hb
                subst hbo
                have hbt : b ≠ t := fun h => hu.2.2 (by rw [he, h])
                refine ⟨?_, fun h => hbt (Option.some.inj h).symm⟩
                simpa [Slot.hold, hbt] using hlive
            · exact absurd hb hc
    | await o =>
      have hc : (m.binds b).closed = true := by
        simp only [perform, SlotOp.perform] at hdo
        split at hdo <;> cases hdo
        exact hb
      exact hkeep hc
    | _ =>
      have hc : (m.binds b).closed = true := by
        cases hdo
        exact hb
      exact hkeep hc
  | note op =>
    rw [note_slot hdo]
    exact hinv.closed b (perform_closed (fun _ h => by cases h) hdo hb)
  | _ =>
    rw [perform_slot (by trivial) hdo]
    exact hinv.closed b (perform_closed (fun _ h => by cases h) hdo hb)

theorem perform_endOks {op : Op} {c : Choice} {r : op.Res} (hop : op ≠ .note .endOk)
    (h : perform t op m c = some (r, m')) : m'.endOks = m.endOks := by
  cases op with
  | note op =>
    simp only [perform, Option.map_eq_some_iff] at h
    obtain ⟨n, hn, heq⟩ := h
    cases heq
    cases op <;> simp only [NoteOp.perform] at hn <;> (try split at hn) <;> cases hn <;>
      first | rfl | exact absurd rfl hop
  | _ => exact (perform_unnoted (fun _ hn => by cases hn) h).2

theorem EndCallInv.act {op : Op} {c : Choice} {r : op.Res} (h : EndCallInv m)
    (hg : (endCalls cfg).given t op m) (hpre : (endCalls cfg).pre t op m)
    (hdo : perform t op m c = some (r, m')) : EndCallInv m' := by
  refine ⟨closed_act h hg hdo, fun e he => ?_⟩
  have hold : e ∈ m.endOks → Over m' ∨
      ∃ o, e = some o ∧ m'.slot.entry = some o ∧ (m'.slot.hist o).stored ≠ [] := by
    intro hmem
    rcases h.oks e hmem with hover | ⟨o, rfl, hentry, hs⟩
    · exact .inl (over_act hg hdo hover)
    · exact (handed_act hg hpre hdo hentry hs).imp id fun hx => ⟨o, rfl, hx⟩
  by_cases hop : op = .note .endOk
  · subst hop
    cases hdo
    rcases List.mem_append.mp he with hmem | hmem
    · exact hold hmem
    · rw [List.mem_singleton.mp hmem]
      exact hpre.imp id fun ⟨o, hentry, hs⟩ => ⟨o, hentry, hentry, hs⟩
  · rw [perform_endOks hop hdo] at he
    exact hold he

theorem EndCallInv.env {l : EnvStep} (h : EndCallInv m) (hdo : env m l = some m') :
    EndCallInv m' := by
  have hstatus := (env_idle hdo).status
  obtain ⟨now, pods, rfl⟩ := env_eq hdo
  refine ⟨h.closed, ?_⟩
  exact fun e he => (h.oks e he).imp (over_of_status hstatus) id

end AgentOps.Service
