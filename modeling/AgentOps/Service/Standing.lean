import AgentOps.Service.Footprint
import AgentOps.Service.Revival

/-!
# Observed runs that keep the ledger

A discipline over an observed service builds on the owner protocol and on the ledger: in every
orderly run they say who may write the session at each operation (`Standing`). Here is what
follows for any observer: who else can touch the row, the owners and the bindings.
-/

namespace AgentOps.Service

open AgentOps.Api AgentOps.Link AgentOps.Lib

variable {cfg : Settings} {t u : ℕ} {op : Op} {c : Choice} {r : op.Res} {m m' : Mem}

/-- What is known of an operation of an orderly run. -/
structure Standing (cfg : Settings) (t : ℕ) (op : Op) (m : Mem) : Prop where
  protocol : (protocol cfg).pre t op m
  promise : ledgerPre t op m
  inv : LedgerInv m

theorem standing_of_reach {γ : Type} {O : Observer sig Mem EnvStep γ} {g : γ}
    {ok : Config sig (Mem × γ) → ThreadLabel sig Choice EnvStep → Prop} {s : Config sig (Mem × γ)}
    (h : Reach ((system cfg).observe O).step ok { mem := (init.mem, g) } s)
    (hok : ∀ a l, ok a l → (ledger cfg).ok a.base l) {k : op.Res → P Unit}
    (hk : s.threads t = some (.act op k)) : Standing cfg t op s.mem.1 := by
  have hany : Reach (system cfg).step anyStep init s.base :=
    System.observe_reach h fun _ _ _ => trivial
  have horderly : Reach (system cfg).step (ledger cfg).ok init s.base :=
    System.observe_reach h hok
  have hpre := (protocol_good hany).pre (t := t) hk trivial
  exact ⟨hpre, (ledger_good horderly).pre hk hpre, (ledger_good horderly).inv⟩

theorem Standing.keeps (h : Standing cfg u op m) (hne : u ≠ t) (hok : orderly u op m)
    (hdo : perform u op m c = some (r, m')) : Keeps t m m' := by
  have hother : (ledger cfg).Other t m m' := .act u op c r hne h.protocol h.promise hok hdo
  exact other_keeps h.inv hother

/-- Thread `t` may write the session, or inserted its row and has not claimed it yet. -/
def Sole (t : ℕ) (m : Mem) : Prop := Writer t m ∨ m.creator = some t

theorem Sole.unique (h : Sole t m) (hinv : LedgerInv m) (hu : Writer u m) : u = t := by
  obtain h | h := h
  · exact hinv.writer_unique hu h
  · have hnone := hinv.writer_creator hu
    rw [h] at hnone
    cases hnone

theorem Sole.row (h : Sole t m) (hinv : LedgerInv m) : m.db.row ≠ none := by
  intro hnone
  obtain h | h := h
  · have hsome := hinv.writer_row h
    rw [hnone] at hsome
    cases hsome
  · rw [(hinv.absent hnone).2.1] at h
    cases h

/-! ## The owners and the bindings -/

theorem finish_live (s : Slot) (t b : ℕ) : ((s.finish t).2.owners b).live = (s.owners b).live := by
  by_cases hb : b = t
  · subst hb
    unfold Slot.finish
    split
    · simp
    · dsimp only
      split <;> simp
  · rw [(Slot.finish_touches s t).owners b hb]

/-- Only a `register` makes an owner live. -/
theorem Standing.live (h : Standing cfg t op m) (hok : orderly t op m) (hop : op ≠ .slot .register)
    (hdo : perform t op m c = some (r, m')) (b : ℕ) :
    (m'.slot.owners b).live = (m.slot.owners b).live := by
  cases op with
  | slot op =>
    cases op with
    | claim cancel =>
      cases hdo
      obtain hi | ht := claim_idle_or_takes h.inv h.protocol cancel hok rfl
      · exact hi.live b
      · exact ht.live_iff b
    | detach want spec =>
      have hm : m' = (m.detach t want spec).2 := by rw [Option.some.inj hdo]
      have hc : want = none → m.creator = none := by
        rintro rfl
        exact hok
      obtain hi | ht := detach_idle_or_takes h.inv h.protocol want spec hc
      · rw [hm]
        exact hi.live b
      · rw [hm]
        exact ht.live_iff b
    | register => exact absurd rfl hop
    | finish =>
      cases hdo
      exact finish_live ..
    | _ =>
      have hidle := perform_idle (by trivial) hdo
      exact hidle.live b
  | store op => rw [StoreOp.perform_slot hdo]
  | ext op => rw [ExtOp.perform_slot hdo]
  | bind n op => rw [BindOp.perform_slot hdo]
  | note op =>
    have hidle := perform_idle (by trivial) hdo
    exact hidle.live b

theorem StoreOp.perform_binds {op : StoreOp} {r : op.Res} (h : op.perform t m c = some (r, m')) :
    m'.binds = m.binds := by
  obtain ⟨db, creator, faulty, late, rfl⟩ := StoreOp.perform_eq h
  rfl

theorem ExtOp.perform_binds {op : ExtOp} {r : op.Res} (h : op.perform t m c = some (r, m')) :
    m'.binds = m.binds := by
  obtain ⟨pods, resolved, rfl⟩ := ExtOp.perform_eq h
  rfl

theorem note_binds {op : NoteOp} {r : Unit} (h : perform t (.note op) m c = some (r, m')) :
    m'.binds = m.binds := by
  obtain ⟨boot, accepted, endOks, rfl⟩ := note_eq h
  rfl

/-- Only a `create` and a `closeReady` change the readiness of a binding. -/
theorem Standing.ready (h : Standing cfg t op m) (hok : orderly t op m)
    (hcreate : ∀ b claimName pod syncing turns, op ≠ .bind b (.create claimName pod syncing turns))
    (hclose : ∀ b, op ≠ .bind b .closeReady) (hdo : perform t op m c = some (r, m')) (n : ℕ) :
    (m'.binds n).ready = (m.binds n).ready := by
  cases op with
  | slot op =>
    cases op with
    | claim cancel =>
      cases hdo
      rfl
    | detach want spec =>
      have hm : m' = (m.detach t want spec).2 := by rw [Option.some.inj hdo]
      have hc : want = none → m.creator = none := by
        rintro rfl
        exact hok
      obtain hi | ht := detach_idle_or_takes h.inv h.protocol want spec hc
      · rw [hm]
        exact hi.ready n
      · rw [hm]
        exact ht.ready n
    | register | finish =>
      cases hdo
      rfl
    | _ =>
      have hidle := perform_idle (by trivial) hdo
      exact hidle.ready n
  | store op => rw [StoreOp.perform_binds hdo]
  | ext op => rw [ExtOp.perform_binds hdo]
  | bind b op =>
    cases op with
    | create claimName pod syncing turns => exact absurd rfl (hcreate b claimName pod syncing turns)
    | closeReady => exact absurd rfl (hclose b)
    | _ => exact (perform_still (by trivial) hdo).ready n
  | note op => rw [note_binds hdo]

theorem setBind_claimName {b : ℕ} {f : Binding → Binding}
    (hf : (f (m.binds b)).claimName = (m.binds b).claimName) (n : ℕ) :
    ((m.setBind b f).binds n).claimName = (m.binds n).claimName := by
  unfold Mem.setBind
  by_cases hn : n = b
  · subst hn
    simpa using hf
  · simp [hn]

theorem release_claimName (m : Mem) (b n : ℕ) :
    ((m.release b).binds n).claimName = (m.binds n).claimName := by
  have hrelease : ((m.binds b).release).1.claimName = (m.binds b).claimName := by
    unfold Binding.release
    split <;> rfl
  exact setBind_claimName (m := m) (f := fun _ => ((m.binds b).release).1) hrelease n

theorem enter_claimName (b : Binding) (turnId : String) (now : ℕ) :
    (b.enter turnId now).2.claimName = b.claimName := by
  unfold Binding.enter
  split
  · rfl
  · dsimp only [Binding.touch]
    split <;> rfl

theorem reconcile_claimName (m : Mem) (b n : ℕ) (st : AgentState) (cmds : List PodCommand)
    (keep : List String) : ((m.reconcile b st cmds keep).binds n).claimName =
      (m.binds n).claimName := by
  unfold Mem.reconcile
  dsimp only
  rw [release_claimName]
  exact setBind_claimName (m := m) (b := b)
    (f := fun x => { x with turns := _, held := _, syncing := false }) rfl n

theorem BindOp.perform_claimName {b : ℕ} {op : BindOp} {r : op.Res}
    (hop : ∀ claimName pod syncing turns, op ≠ .create claimName pod syncing turns)
    (h : op.perform t m c b = some (r, m')) (n : ℕ) :
    (m'.binds n).claimName = (m.binds n).claimName := by
  cases op <;> simp only [BindOp.perform] at h
  case create claimName pod syncing turns => exact absurd rfl (hop claimName pod syncing turns)
  case hold p =>
    cases h
    rw [release_claimName]
    exact setBind_claimName (m := m) (f := fun x => { x with held := x.held ++ [p] }) rfl n
  case ungate =>
    split at h <;> cases h
    rw [release_claimName]
    exact setBind_claimName (m := m) (f := fun x => { x with gated := false }) rfl n
  case enter turnId =>
    cases h
    exact setBind_claimName (m := m) (f := fun _ => _) (enter_claimName ..) n
  case reconcile st cmds =>
    split at h <;> cases h
    exact reconcile_claimName ..
  case restore w =>
    cases h
    refine setBind_claimName ?_ n
    split <;> rfl
  all_goals
    (repeat' split at h) <;> cases h <;> first | rfl | exact setBind_claimName rfl n

theorem detach_claimName (m : Mem) (t : ℕ) (want : Option ℕ) (spec : StopSpec) (n : ℕ) :
    ((m.detach t want spec).2.binds n).claimName = (m.binds n).claimName := by
  unfold Mem.detach
  split
  · rfl
  · split
    · rfl
    · rename_i o _
      split
      · split
        · rfl
        · rename_i b hb
          have hclose : b.claimName = (m.binds o).claimName := by
            unfold Binding.close at hb
            split at hb
            · cases hb
            · split at hb <;> cases hb
              rfl
          by_cases hn : n = o
          · subst hn
            simpa using hclose
          · simp [hn]
      · rfl

/-- The claim of a binding is that of its `create`. -/
theorem perform_claimName
    (hop : ∀ b claimName pod syncing turns, op ≠ .bind b (.create claimName pod syncing turns))
    (h : perform t op m c = some (r, m')) (n : ℕ) :
    (m'.binds n).claimName = (m.binds n).claimName := by
  cases op with
  | slot op =>
    cases op with
    | detach want spec =>
      have hm : m' = (m.detach t want spec).2 := by rw [Option.some.inj h]
      rw [hm]
      exact detach_claimName ..
    | await o =>
      simp only [perform, SlotOp.perform] at h
      split at h <;> cases h
      rfl
    | _ => cases h; rfl
  | store op => rw [StoreOp.perform_binds h]
  | ext op => rw [ExtOp.perform_binds h]
  | bind b op => exact BindOp.perform_claimName (fun _ _ _ _ heq => hop b _ _ _ _ (by rw [heq])) h n
  | note op => rw [note_binds h]

end AgentOps.Service
