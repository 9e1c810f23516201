import AgentOps.Slackbot.Limited

/-!
# The last word on a message

An update waits while it is parked or in the hand of the worker. A guaranteed call that cancelled
leaves nothing of its message waiting, if the worker had nothing of it in hand, and what waits
later was submitted later.
-/

namespace AgentOps.Slackbot.Limited

open AgentOps.Lib

/-! ## What a step does -/

/-- The update is parked, or the worker has it in hand. -/
def Client.Waits (s : Client) (up : PendingUpdate) : Prop :=
  (∃ key, s.pending key = some up) ∨ s.worker.inHand = some up

/-- What a step does. -/
inductive Stepped (s t : Client) : Label → Prop
  | submit {m : Target} (h : t = s.updateMessageDebounced m) : Stepped s t (.submit m)
  | start {c : ℕ} {m : Target} {delete : Bool} (hnew : s.calls c = none)
      (h : t = { s with
        calls := Function.update s.calls c (some { target := m, delete })
        log := s.log ++ [.start m c] }) : Stepped s t (.start c m delete)
  | cancel {c : ℕ} {call : Call} (hcall : s.calls c = some call)
      (h : t = (s.cancelPending call.target.updateKey).setCall c call .cancelled) :
      Stepped s t (.cancel c)
  /-- A call that cancelled goes on, or returns success. -/
  | call {l : Label} {c : ℕ} {call : Call} {place : CallPlace} {sendMu : String → Option ℕ}
      {mutexes : ℕ} {holder : ℕ → Option Party} {log : List Event} (hcall : s.calls c = some call)
      (hplace : call.place ≠ .started) (hlater : place ≠ .started)
      (hlog : log = s.log ∨ log = s.log ++ [.done call.target c])
      (h : t = { s with
        sendMu, mutexes, holder, log
        calls := Function.update s.calls c (some { call with place }) }) : Stepped s t l
  | take {allows : List Bool} {worker : WorkerPlace}
      (hhand : worker.inHand = (Client.nextSendable s.order.length allows s).1)
      (h : t = { (Client.nextSendable s.order.length allows s).2 with worker }) :
      Stepped s t (.take allows)
  | send {ok : Bool} {up : PendingUpdate} {worker : WorkerPlace} (hup : s.worker.inHand = some up)
      (hhand : worker.inHand = some up)
      (h : t = { s with worker, log := s.log ++ [.send up.target up.number] }) :
      Stepped s t (.workerSend ok)
  | repark {up : PendingUpdate} (hup : s.worker.inHand = some up) (h : t = s.repark up) :
      Stepped s t .repark
  /-- The worker goes on or lets go of its update, or a send of a call is refused. -/
  | other {l : Label} {sendMu : String → Option ℕ} {mutexes : ℕ} {holder : ℕ → Option Party}
      {worker : WorkerPlace} (hhand : worker.inHand = s.worker.inHand ∨ worker.inHand = none)
      (h : t = { s with sendMu, mutexes, holder, worker }) : Stepped s t l

/-- `keyMu` changes the mutexes only. -/
theorem keyMu_eq (s : Client) (key : String) :
    ∃ sendMu mutexes, (s.keyMu key).2 = { s with sendMu, mutexes } := by
  unfold Client.keyMu
  split <;> exact ⟨_, _, rfl⟩

theorem clear_eq (s : Client) (key : String) (mu : ℕ) :
    ∃ sendMu, s.clear key mu = { s with sendMu } := by
  unfold Client.clear
  split <;> exact ⟨_, rfl⟩

/-- The update that `nextSendable` takes was parked and is no longer; the rest stays parked. -/
theorem nextSendable_spec (n : ℕ) (allows : List Bool) (s : Client) :
    ∃ order pending, (Client.nextSendable n allows s).2 = { s with order, pending } ∧
      (∀ key up, pending key = some up → s.pending key = some up) ∧
      ∀ up, (Client.nextSendable n allows s).1 = some up →
        ∃ key, s.pending key = some up ∧ pending key = none := by
  induction n generalizing allows s with
  | zero => exact ⟨_, _, rfl, fun _ _ h => h, nofun⟩
  | succ n ih =>
    rw [Client.nextSendable]
    split
    · exact ⟨_, _, rfl, fun _ _ h => h, nofun⟩
    · rename_i key order _
      split
      · exact ih allows { s with order }
      · rename_i up hup
        split
        · refine ⟨_, _, rfl, fun key' up' h => of_update_none h, fun up' h => ?_⟩
          cases h
          exact ⟨key, hup, Function.update_self ..⟩
        · exact ih allows.tail { s with order := order ++ [key] }

section

variable {s t : Client} {l : Label}

theorem callStep_inv {c : ℕ} {call : Call} (hcall : s.calls c = some call)
    (hl : ∀ c', l = .cancel c' → c' = c) (h : callStep s c call l = some t) : Stepped s t l := by
  unfold callStep at h
  split at h
  case h_1 c' =>
    split at h
    · cases h
      cases hl c' rfl
      exact .cancel hcall rfl
    · cases h
  case h_2 =>
    split at h
    · rename_i hplace
      cases h
      obtain ⟨sendMu, mutexes, heq⟩ := keyMu_eq s call.target.updateKey
      rw [heq]
      refine .call hcall (by rw [hplace]; simp) ?_ (.inl rfl) rfl
      simp
    · cases h
  case h_3 =>
    split at h
    · rename_i hplace
      split at h
      · cases h
        exact .call hcall (by rw [hplace]; simp) (by simp) (.inl rfl) rfl
      · cases h
    · cases h
  case h_4 =>
    split at h
    · rename_i hplace
      cases h
      split
      · exact .call hcall (by rw [hplace]; simp) (by simp) (.inl rfl) rfl
      · exact .other (.inl rfl) rfl
    · cases h
  case h_5 =>
    split at h
    · rename_i hplace
      cases h
      exact .call hcall (by rw [hplace]; simp) (by simp) (.inl rfl) rfl
    · cases h
  case h_6 =>
    split at h
    · rename_i mu hplace
      split at h
      · cases h
        obtain ⟨sendMu, heq⟩ := clear_eq s call.target.updateKey mu
        rw [heq]
        exact .call hcall (by rw [hplace]; simp) (by simp) (.inl rfl) rfl
      · cases h
    · cases h
  case h_7 =>
    split at h
    · rename_i hplace _
      cases h
      exact .call hcall (by rw [hplace]; simp) (by simp) (.inr rfl) rfl
    · rename_i hplace _
      cases h
      exact .call hcall (by rw [hplace]; simp) (by simp) (.inr rfl) rfl
    · cases h
  case h_8 => cases h

theorem workerStep_inv (h : workerStep s l = some t) : Stepped s t l := by
  unfold workerStep at h
  split at h
  case h_1 allows =>
    split at h
    · cases h
      refine .take ?_ rfl
      split <;> rename_i hr <;> rw [hr] <;> rfl
    · cases h
  case h_2 =>
    split at h
    · rename_i up hworker
      cases h
      obtain ⟨sendMu, mutexes, heq⟩ := keyMu_eq s up.target.updateKey
      rw [heq]
      exact .other (.inl (by rw [hworker]; rfl)) rfl
    · cases h
  case h_3 =>
    split at h
    · rename_i up mu hworker
      split at h
      · cases h
        exact .other (.inl (by rw [hworker]; rfl)) rfl
      · cases h
    · cases h
  case h_4 =>
    split at h
    · rename_i up mu hworker
      cases h
      exact .send (by rw [hworker]; rfl) rfl rfl
    · cases h
  case h_5 =>
    split at h
    · rename_i up mu ok hworker
      cases h
      refine .other ?_ rfl
      cases ok with
      | true => exact .inr rfl
      | false => exact .inl (by rw [hworker]; rfl)
    · cases h
  case h_6 =>
    split at h
    · rename_i up hworker
      cases h
      exact .repark (by rw [hworker]; rfl) rfl
    · cases h
  case h_7 => cases h

theorem step_inv (h : step s l = some t) : Stepped s t l := by
  cases l with
  | submit m =>
    cases h
    exact .submit rfl
  | start c m delete =>
    simp only [step] at h
    split at h
    · rename_i hnew
      cases h
      exact .start hnew rfl
    · cases h
  | take | workerMu | workerLock | workerSend | workerUnlock | repark => exact workerStep_inv h
  | cancel c | callMu c | callLock c | callSend c | giveUp c | clear c | ret c =>
    obtain ⟨call, hcall, h⟩ := Option.bind_eq_some_iff.mp h
    refine callStep_inv hcall ?_ h
    rintro c' ⟨⟩
    try rfl

end

/-! ## The invariant -/

/-- The last of some events in order is the one that was just written down, or all of them are
older. -/
theorem sublist_concat {α : Type} (xs : List α) {log : List α} {x e : α}
    (h : (xs ++ [x]).Sublist (log ++ [e])) :
    (xs ++ [x]).Sublist log ∨ x = e ∧ xs.Sublist log := by
  rw [← List.reverse_sublist, List.reverse_append, List.reverse_append, List.reverse_singleton,
    List.reverse_singleton] at h
  simp only [List.cons_append, List.nil_append] at h
  cases h with
  | cons _ h =>
    left
    rw [← List.reverse_sublist, List.reverse_append]
    exact h
  | cons_cons _ h => exact .inr ⟨rfl, List.reverse_sublist.mp h⟩

/-- The update was submitted before the call started. -/
def Before (log : List Event) (m : Target) (n c : ℕ) : Prop :=
  List.Sublist [.submit m n, .start m c] log

/-- What holds while every guaranteed call cancels with the worker free-handed. -/
structure Kept (s : Client) : Prop where
  keyed : ∀ key up, s.pending key = some up → up.target.updateKey = key
  numbered : ∀ m n, .submit m n ∈ s.log → n < s.submitted
  /-- What waits for the message of a call that cancelled was submitted after its start. -/
  later : ∀ c call, s.calls c = some call → call.place ≠ .started →
    ∀ up, s.Waits up → up.target = call.target → ¬ Before s.log call.target up.number c
  done : ∀ m c, .done m c ∈ s.log →
    ∃ call, s.calls c = some call ∧ call.place ≠ .started ∧ call.target = m
  kept : ¬ Overwritten s.log

theorem Kept.init : Kept {} where
  keyed := by intro key up h; cases h
  numbered := by intro m n h; cases h
  later := by intro c call h; cases h
  done := by intro m c h; cases h
  kept := by
    rintro ⟨m, n, c, h⟩
    cases h

/-- An event that is no send of a debounced update overwrites nothing. -/
theorem Overwritten.of_concat {log : List Event} {e : Event} (h : Overwritten (log ++ [e])) :
    Overwritten log ∨ ∃ m n c, e = .send m n ∧ Before log m n c ∧ .done m c ∈ log := by
  obtain ⟨m, n, c, h⟩ := h
  obtain hold | ⟨rfl, hpre⟩ := sublist_concat [Event.submit m n, .start m c, .done m c] h
  · exact .inl ⟨m, n, c, hold⟩
  · refine .inr ⟨m, n, c, rfl, ?_, hpre.subset (by simp)⟩
    have hprefix :
        List.Sublist [Event.submit m n, .start m c] [.submit m n, .start m c, .done m c] :=
      List.sublist_append_left [Event.submit m n, .start m c] [.done m c]
    exact hprefix.trans hpre

/-- A new event other than the start of the call leaves the order of the two as it is. -/
theorem Before.of_concat {log : List Event} {e : Event} {m : Target} {n c : ℕ}
    (he : e ≠ .start m c) (h : Before (log ++ [e]) m n c) : Before log m n c := by
  obtain h | ⟨rfl, -⟩ := sublist_concat [Event.submit m n] h
  · exact h
  · exact absurd rfl he

theorem Kept.submit {s : Client} (h : Kept s) (m : Target) : Kept (s.updateMessageDebounced m) := by
  have hpend : ∀ key up, (s.updateMessageDebounced m).pending key = some up →
      up = ⟨m, s.submitted⟩ ∧ key = m.updateKey ∨ s.pending key = some up := by
    intro key up hup
    obtain ⟨hkey, rfl⟩ | ⟨-, hup⟩ := update_eq_some hup
    · exact .inl ⟨rfl, hkey⟩
    · exact .inr hup
  refine ⟨fun key up hup => ?_, fun m' n hn => ?_, fun c call hc hplace up hup ht hb => ?_,
    fun m' c hc => ?_, fun hover => ?_⟩
  · obtain ⟨rfl, rfl⟩ | hup := hpend key up hup
    · rfl
    · exact h.keyed key up hup
  · show n < s.submitted + 1
    obtain hn | hn := List.mem_append.mp hn
    · exact Nat.lt_succ_of_lt (h.numbered m' n hn)
    · obtain ⟨rfl, rfl⟩ : m' = m ∧ n = s.submitted := by simpa using hn
      exact Nat.lt_succ_self _
  · have hb : Before s.log call.target up.number c := Before.of_concat (by simp) hb
    obtain ⟨key, hkey⟩ | hhand := hup
    · obtain ⟨rfl, -⟩ | hkey := hpend key up hkey
      · -- its number was not given out before
        have hmem : .submit call.target s.submitted ∈ s.log := hb.subset List.mem_cons_self
        exact absurd (h.numbered _ _ hmem) (Nat.lt_irrefl _)
      · exact h.later c call hc hplace up (.inl ⟨key, hkey⟩) ht hb
    · exact h.later c call hc hplace up (.inr hhand) ht hb
  · apply h.done m' c
    simpa [Client.updateMessageDebounced] using hc
  · obtain hover | ⟨_, _, _, he, -⟩ := Overwritten.of_concat hover
    · exact h.kept hover
    · cases he

theorem Kept.start {s : Client} (h : Kept s) {c : ℕ} (hnew : s.calls c = none) (m : Target)
    (delete : Bool) : Kept { s with
      calls := Function.update s.calls c (some { target := m, delete })
      log := s.log ++ [.start m c] } := by
  have hcalls : ∀ c' call, Function.update s.calls c (some { target := m, delete }) c' = some call →
      call.place ≠ .started → c' ≠ c ∧ s.calls c' = some call := by
    intro c' call hc hplace
    obtain ⟨-, rfl⟩ | hc := update_eq_some hc
    · exact absurd rfl hplace
    · exact hc
  refine ⟨h.keyed, fun m' n hn => ?_, fun c' call hc hplace up hup ht hb => ?_,
    fun m' c' hc => ?_, fun hover => ?_⟩
  · apply h.numbered m' n
    simpa using hn
  · obtain ⟨hne, hc⟩ := hcalls c' call hc hplace
    refine h.later c' call hc hplace up hup ht (Before.of_concat ?_ hb)
    simp [Ne.symm hne]
  · obtain ⟨call, hcall, hplace, ht⟩ := h.done m' c' (by simpa using hc)
    refine ⟨call, ?_, hplace, ht⟩
    have hne : c' ≠ c := by
      rintro rfl
      rw [hnew] at hcall
      cases hcall
    exact (Function.update_of_ne hne _ _).trans hcall
  · obtain hover | ⟨_, _, _, he, -⟩ := Overwritten.of_concat hover
    · exact h.kept hover
    · cases he

theorem cancelPending_frame (s : Client) (key : String) :
    (s.cancelPending key).pending key = none ∧
      (∀ key' up, (s.cancelPending key).pending key' = some up → s.pending key' = some up) ∧
      ∃ order pending, s.cancelPending key = { s with order, pending } := by
  unfold Client.cancelPending
  split
  · rename_i hnone
    exact ⟨hnone, fun _ _ h => h, _, _, rfl⟩
  · exact ⟨Function.update_self .., fun _ _ h => of_update_none h, _, _, rfl⟩

/-- Calls that returned stay known when a call moves on. -/
theorem done_update {f : ℕ → Option Call} {c c' : ℕ} {call : Call} {place : CallPlace} {m : Target}
    (hcall : f c = some call) (hlater : place ≠ .started)
    (h : ∃ call', f c' = some call' ∧ call'.place ≠ .started ∧ call'.target = m) :
    ∃ call', Function.update f c (some { call with place }) c' = some call' ∧
      call'.place ≠ .started ∧ call'.target = m := by
  obtain ⟨call', hcall', hplace, ht⟩ := h
  by_cases heq : c' = c
  · subst heq
    rw [hcall] at hcall'
    cases hcall'
    exact ⟨_, Function.update_self .., hlater, ht⟩
  · exact ⟨call', (Function.update_of_ne heq _ _).trans hcall', hplace, ht⟩

theorem Kept.cancel {s : Client} (h : Kept s) {c : ℕ} {call : Call} (hcall : s.calls c = some call)
    (hfree : ∀ up, s.worker.inHand = some up → up.target ≠ call.target) :
    Kept ((s.cancelPending call.target.updateKey).setCall c call .cancelled) := by
  obtain ⟨hgone, hpend, order, pending, heq⟩ := cancelPending_frame s call.target.updateKey
  rw [heq] at hgone hpend ⊢
  have hwaits : ∀ up, Client.Waits { s with order, pending } up →
      s.Waits up ∧ up.target ≠ call.target := by
    rintro up (⟨key, hkey⟩ | hhand)
    · refine ⟨.inl ⟨key, hpend key up hkey⟩, fun ht => ?_⟩
      have hk := h.keyed key up (hpend key up hkey)
      rw [ht] at hk
      subst hk
      cases hgone.symm.trans hkey
    · exact ⟨.inr hhand, hfree up hhand⟩
  refine ⟨fun key up hup => h.keyed key up (hpend key up hup), h.numbered,
    fun c' call' hc hplace up hup ht hb => ?_,
    fun m c' hc => done_update hcall (by simp) (h.done m c' hc), h.kept⟩
  obtain ⟨hup, hne⟩ := hwaits up hup
  obtain ⟨rfl, rfl⟩ | ⟨-, hc⟩ := update_eq_some hc
  · exact hne ht
  · exact h.later c' call' hc hplace up hup ht hb

/-- A call that cancelled goes on, or returns. -/
theorem Kept.call {s : Client} (h : Kept s) {c : ℕ} {call : Call} {place : CallPlace}
    {log : List Event} (hcall : s.calls c = some call) (hplace : call.place ≠ .started)
    (hlater : place ≠ .started) (hlog : log = s.log ∨ log = s.log ++ [.done call.target c])
    (sendMu : String → Option ℕ) (mutexes : ℕ) (holder : ℕ → Option Party) :
    Kept { s with
      sendMu, mutexes, holder, log
      calls := Function.update s.calls c (some { call with place }) } := by
  have hmem : ∀ e, e ∈ log → e ∈ s.log ∨ e = .done call.target c := by
    intro e he
    obtain rfl | rfl := hlog
    · exact .inl he
    · rwa [List.mem_append, List.mem_singleton] at he
  refine ⟨h.keyed, fun m n hn => ?_, fun c' call' hc hplace' up hup ht hb => ?_,
    fun m c' hc => ?_, fun hover => ?_⟩
  · obtain hn | hn := hmem _ hn
    · exact h.numbered m n hn
    · cases hn
  · have hbefore : Before s.log call'.target up.number c' := by
      obtain rfl | rfl := hlog
      · exact hb
      · exact Before.of_concat (by simp) hb
    obtain ⟨rfl, rfl⟩ | ⟨-, hc⟩ := update_eq_some hc
    · exact h.later c' call hcall hplace up hup ht hbefore
    · exact h.later c' call' hc hplace' up hup ht hbefore
  · apply done_update hcall hlater
    obtain hc | hc := hmem _ hc
    · exact h.done m c' hc
    · cases hc
      exact ⟨call, hcall, hplace, rfl⟩
  · obtain rfl | rfl := hlog
    · exact h.kept hover
    · obtain hover | ⟨_, _, _, he, -⟩ := Overwritten.of_concat hover
      · exact h.kept hover
      · cases he

/-- A step of the worker, perhaps with a send. -/
theorem Kept.worker {s t : Client} (h : Kept s) (hcalls : t.calls = s.calls)
    (hwaits : ∀ up, t.Waits up → s.Waits up)
    (hkey : ∀ key up, t.pending key = some up →
      s.pending key = some up ∨ up.target.updateKey = key)
    (hsub : t.submitted = s.submitted)
    (hlog : t.log = s.log ∨ ∃ up, s.worker.inHand = some up ∧
      t.log = s.log ++ [.send up.target up.number]) : Kept t := by
  have hmem : ∀ e, e ∈ t.log → e ∈ s.log ∨ ∃ m n, e = .send m n := by
    intro e he
    obtain heq | ⟨up, -, heq⟩ := hlog
    · exact .inl (heq ▸ he)
    · rw [heq, List.mem_append, List.mem_singleton] at he
      obtain he | he := he
      · exact .inl he
      · exact .inr ⟨_, _, he⟩
  refine ⟨fun key up hup => ?_, fun m n hn => ?_,
    fun c call hc hplace up hup ht hb => ?_, fun m c hc => ?_, fun hover => ?_⟩
  · obtain hup | hup := hkey key up hup
    · exact h.keyed key up hup
    · exact hup
  · rw [hsub]
    obtain hn | ⟨_, _, hn⟩ := hmem _ hn
    · exact h.numbered m n hn
    · cases hn
  · rw [hcalls] at hc
    have hb : Before s.log call.target up.number c := by
      obtain heq | ⟨_, -, heq⟩ := hlog
      · rwa [heq] at hb
      · rw [heq] at hb
        exact Before.of_concat (by simp) hb
    exact h.later c call hc hplace up (hwaits up hup) ht hb
  · rw [hcalls]
    obtain hc | ⟨_, _, hc⟩ := hmem _ hc
    · exact h.done m c hc
    · cases hc
  · obtain heq | ⟨up, hhand, heq⟩ := hlog
    · exact h.kept (heq ▸ hover)
    · rw [heq] at hover
      obtain hover | ⟨m, n, c, he, hbefore, hdone⟩ := Overwritten.of_concat hover
      · exact h.kept hover
      · -- the call that returned had cancelled, so the update in hand came later
        cases he
        obtain ⟨call, hcall, hplace, ht⟩ := h.done _ _ hdone
        rw [← ht] at hbefore
        exact h.later c call hcall hplace up (.inr hhand) ht.symm hbefore

theorem Kept.repark {s : Client} (h : Kept s) {up : PendingUpdate}
    (hup : s.worker.inHand = some up) : Kept (s.repark up) := by
  unfold Client.repark
  split
  · refine h.worker rfl ?_ (fun key up' hkey => ?_) rfl (.inl rfl)
    · rintro up' (⟨key, hkey⟩ | hhand)
      · obtain ⟨-, rfl⟩ | ⟨-, hkey⟩ := update_eq_some hkey
        · exact .inr hup
        · exact .inl ⟨key, hkey⟩
      · cases hhand
    · obtain ⟨rfl, rfl⟩ | ⟨-, hkey⟩ := update_eq_some hkey
      · exact .inr rfl
      · exact .inl hkey
  · exact h.worker rfl (fun _ hw => hw.imp id nofun) (fun _ _ hkey => .inl hkey) rfl (.inl rfl)

theorem Kept.step {s t : Client} {l : Label} (h : Kept s) (hfree : freeHanded s l)
    (hs : step s l = some t) : Kept t := by
  cases step_inv hs with
  | submit ht =>
    rw [ht]
    exact h.submit _
  | start hnew ht =>
    rw [ht]
    exact h.start hnew _ _
  | cancel hcall ht =>
    rw [ht]
    exact h.cancel hcall fun up hup => hfree _ hcall up hup
  | call hcall hplace hlater hlog ht =>
    rw [ht]
    exact h.call hcall hplace hlater hlog _ _ _
  | @take allows worker hhand ht =>
    obtain ⟨order, pending, heq, hless, htaken⟩ := nextSendable_spec s.order.length allows s
    rw [heq] at ht
    subst ht
    refine h.worker rfl ?_ (fun key up hkey => .inl (hless key up hkey)) rfl (.inl rfl)
    rintro up (⟨key, hkey⟩ | hup)
    · exact .inl ⟨key, hless key up hkey⟩
    · obtain ⟨key, hkey, -⟩ := htaken up (hhand.symm.trans hup)
      exact .inl ⟨key, hkey⟩
  | send hup hhand ht =>
    subst ht
    refine h.worker rfl (fun _ hw => hw.imp id fun hw => ?_) (fun _ _ hkey => .inl hkey) rfl
      (.inr ⟨_, hup, rfl⟩)
    exact hup.trans (hhand.symm.trans hw)
  | repark hup ht =>
    rw [ht]
    exact h.repark hup
  | other hhand ht =>
    subst ht
    refine h.worker rfl (fun up hw => hw.imp id fun hw => ?_) (fun _ _ hkey => .inl hkey) rfl
      (.inl rfl)
    obtain heq | hnone := hhand
    · exact heq.symm.trans hw
    · cases hnone.symm.trans hw

/-- No debounced update is sent after a guaranteed call that started after its submission has
returned success, in every run in which the worker has no update of a message in hand when a
guaranteed call for the message cancels. -/
theorem final_stands {s : Client} (h : Reach step freeHanded {} s) : ¬ Overwritten s.log :=
  (h.invariant Kept Kept.init Kept.step).kept

/-- An update that is parked is cancelled by a final update of its message, and a later one is
sent. -/
def cancelledRun : List Label :=
  let m : Target := ⟨"C1", "1"⟩
  [.submit m, .start 0 m false, .cancel 0, .callMu 0, .callLock 0, .callSend 0 false,
    .callSend 0 true, .ret 0, .submit m, .take [true], .workerMu, .workerLock, .workerSend true]

theorem final_stands_cancelledRun :
    ((exec step {} cancelledRun).getD {}).log.length = 5 ∧
      ¬ Overwritten ((exec step {} cancelledRun).getD {}).log :=
  ⟨by decide, final_stands (Reach.of_exec_guarded _ (by decide))⟩

/-- The worker takes the update before the final update cancels, and sends it behind it. -/
def overtakenRun : List Label :=
  let m : Target := ⟨"C1", "1"⟩
  [.submit m, .take [true], .start 0 m false, .cancel 0, .callMu 0, .callLock 0, .callSend 0 true,
    .ret 0, .workerMu, .workerLock, .workerSend true]

theorem final_overwritten :
    ∃ s, Reach step (fun _ _ => True) {} s ∧ Overwritten s.log := by
  refine ⟨_, Reach.of_exec_getD overtakenRun (by decide), ⟨"C1", "1"⟩, 0, 0, ?_⟩
  decide

end AgentOps.Slackbot.Limited
