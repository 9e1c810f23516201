import AgentOps.Service.Approval
import AgentOps.Service.Quota
import Mathlib.Data.Set.Card

/-!
# Quotas under concurrency

What `checkQuotas` counted bounds what there is until the holder of the lock has made its own
session count. A session that is counted by neither of the two reads is one that starts between
them, so the limits hold in every run in which the first write of a launch does not fall between the
two reads of an admission of the same client. Without that condition they do not: the sessions are
listed before the launches are counted, and a launch can be over by then.
-/

namespace AgentOps.Service.Admission

open AgentOps.Api AgentOps.Link AgentOps.Lib

variable {ι κ : Type} (client : ι → κ)

/-- The sessions of a client that are not over. -/
def liveSessions (k : κ) (s : Harness ι) : Set ι :=
  {i | client i = k ∧ isLive (s.sessions i).mem = true}

/-- The sessions of a client that are being launched in this process or are stored as pending,
launching or awaiting approval. -/
def pendingSessions (k : κ) (s : Harness ι) : Set ι :=
  {i | client i = k ∧ isPending (s.sessions i).mem = true}

/-- The sessions of a client are within its limits. -/
structure Within (k : κ) (q : Quotas) (s : Harness ι) : Prop where
  live : (liveSessions client k s).encard ≤ q.maxLiveSessions.toNat
  pending : (pendingSessions client k s).encard ≤ q.maxPendingApprovals.toNat

/-- Each session came about by orderly steps, and the store has its row. -/
structure Sound (cfg : Settings) (s : Harness ι) : Prop where
  runs : ∀ i, Reach (system cfg).step orderlyStep init (s.sessions i)
  rows : ∀ i, (s.sessions i).mem.status ≠ none → i ∈ s.rows

/-- The steps of a run in which nobody takes a session between the insert of its row and the claim
of the thread that inserted it, and in which no launch of a session that is not stored as pending
makes its first write between the two reads of an admission of the same client. -/
def steady (s : Harness ι) : Label ι → Prop
  | .run i l => orderlyStep (s.sessions i) l ∧
      ∀ a ∈ s.admission, a.phase.isListed = true → client a.session = client i →
        (acting (s.sessions i) l).any launches = true → storedPending (s.sessions i).mem = true
  | _ => True

/-! ## What the lock knows -/

/-- What the holder of the lock has found out about its client. -/
def Known (k : κ) (q : Quotas) (s : Harness ι) (a : Admit ι) : Prop :=
  match a.phase with
  | .locked => True
  | .listed live =>
    (∀ i ∈ liveSessions client k s, i ∈ live.map Prod.fst) ∧
    (∀ i, client i = k → storedPending (s.sessions i).mem = true →
      ∃ st, (i, st) ∈ live ∧ pendingStatus st = true) ∧
    (a.newSession = true → (live.length : ℤ) < q.maxLiveSessions)
  | .accepted =>
    (a.newSession = true →
      (insert a.session (liveSessions client k s)).encard ≤ q.maxLiveSessions.toNat) ∧
    (insert a.session (pendingSessions client k s)).encard ≤ q.maxPendingApprovals.toNat

/-- The invariant of a client with limits. -/
structure QuotaInv (cfg : Settings) (k : κ) (q : Quotas) (s : Harness ι) : Prop where
  sound : Sound cfg s
  within : Within client k q s
  known : ∀ a ∈ s.admission, client a.session = k → Known client k q s a

variable {client} {cfg : Settings} {k : κ} {q : Quotas} {s s' : Harness ι}

/-- A list with less than `n` entries leaves room for one more. -/
theorem encard_insert_le {X : Set ι} {l : List ι} {n : ℤ} (hX : ∀ i ∈ X, i ∈ l)
    (hl : (l.length : ℤ) < n) (a : ι) : (insert a X).encard ≤ n.toNat := by
  classical
  have hsub : insert a X ⊆ ((a :: l).toFinset : Set ι) := by
    intro i hi
    obtain rfl | hi := hi
    · simp
    · simp [hX i hi]
  have hcard : (a :: l).toFinset.card ≤ n.toNat := by
    have hle := List.toFinset_card_le (a :: l)
    rw [List.length_cons] at hle
    omega
  calc (insert a X).encard ≤ ((a :: l).toFinset : Set ι).encard := Set.encard_le_encard hsub
    _ = (a :: l).toFinset.card := Set.encard_coe_eq_coe_finsetCard _
    _ ≤ n.toNat := by exact_mod_cast hcard

/-! ## The reads -/

section

variable [DecidableEq κ]

theorem mem_listSessionsByClient {i : ι} (h : Sound cfg s) {st : SessionState} (hk : client i = k)
    (hst : (s.sessions i).mem.status = some st) (hlive : st.terminal = false) :
    (i, st) ∈ s.listSessionsByClient client k := by
  have hrow : i ∈ s.rows := h.rows i (by rw [hst]; exact Option.some_ne_none st)
  refine List.mem_filterMap.mpr ⟨i, hrow, ?_⟩
  simp [hk, hst, hlive]

theorem live_listed (h : Sound cfg s) :
    ∀ i ∈ liveSessions client k s, i ∈ (s.listSessionsByClient client k).map Prod.fst := by
  rintro i ⟨hk, hlive⟩
  unfold isLive at hlive
  cases hst : (s.sessions i).mem.status with
  | none => simp [hst] at hlive
  | some st =>
    have hterm : st.terminal = false := by simpa [hst] using hlive
    exact List.mem_map.mpr ⟨(i, st), mem_listSessionsByClient h hk hst hterm, rfl⟩

theorem pending_listed (h : Sound cfg s) {i : ι} (hk : client i = k)
    (hpending : storedPending (s.sessions i).mem = true) :
    ∃ st, (i, st) ∈ s.listSessionsByClient client k ∧ pendingStatus st = true := by
  unfold storedPending at hpending
  cases hst : (s.sessions i).mem.status with
  | none => simp [hst] at hpending
  | some st =>
    have hst' : pendingStatus st = true := by simpa [hst] using hpending
    have hterm : st.terminal = false := by cases st <;> first | rfl | cases hst'
    exact ⟨st, mem_listSessionsByClient h hk hst hterm, hst'⟩

/-- A session with an owner is in the store. -/
theorem mem_launchesOf (h : Sound cfg s) {i : ι} (hk : client i = k)
    (howned : launchOwned (s.sessions i).mem.slot = true) : i ∈ s.launchesOf client k := by
  have hinv := (ledger_good ((h.runs i).mono fun _ _ => orderlyStep_ok cfg)).inv
  have hrow : i ∈ s.rows := by
    apply h.rows
    intro hnone
    have hentry := (hinv.absent (Option.map_eq_none_iff.mp hnone)).1
    simp [launchOwned, hentry] at howned
  exact List.mem_filter.mpr ⟨hrow, by simp [hk, howned]⟩

variable [DecidableEq ι]

/-- Whoever is pending is in one of the two reads. -/
theorem mem_pendingOf (h : Sound cfg s) {live : List (ι × SessionState)}
    (hlive : ∀ i, client i = k → storedPending (s.sessions i).mem = true →
      ∃ st, (i, st) ∈ live ∧ pendingStatus st = true) :
    ∀ i ∈ pendingSessions client k s, i ∈ pendingOf (s.launchesOf client k) live := by
  rintro i ⟨hk, hpending⟩
  unfold pendingOf
  rw [List.mem_dedup, List.mem_append]
  rw [isPending, Bool.or_eq_true] at hpending
  obtain howned | hstored := hpending
  · exact .inl (mem_launchesOf h hk howned)
  · obtain ⟨st, hmem, hst⟩ := hlive i hk hstored
    exact .inr (List.mem_map.mpr ⟨(i, st), List.mem_filter.mpr ⟨hmem, hst⟩, rfl⟩)

end

theorem checkListed_eq {newSession rateOk listOk : Bool} {live : List (ι × SessionState)}
    {phase : Phase ι} (hlive : 0 < q.maxLiveSessions) (hpending : 0 < q.maxPendingApprovals)
    (h : checkListed (some q) newSession rateOk listOk live = some phase) :
    phase = .listed live ∧ (newSession = true → (live.length : ℤ) < q.maxLiveSessions) := by
  unfold checkListed at h
  dsimp only at h
  split at h
  · cases h
  · split at h
    · omega
    · split at h
      · cases h
      · split at h
        · cases h
        · rename_i hfull
          cases h
          refine ⟨rfl, fun hnew => ?_⟩
          by_contra hle
          exact hfull ⟨hnew, hlive, by omega⟩

theorem checkPending_eq {pending : List ι} {phase : Phase ι}
    (h : checkPending (some q) pending = some phase) :
    phase = .accepted ∧ (pending.length : ℤ) < q.maxPendingApprovals := by
  simp only [checkPending] at h
  split at h
  · cases h
  · cases h
    exact ⟨rfl, by omega⟩

/-! ## The holder of the lock -/

/-- The holder of the lock may add its session to the live ones of the client. -/
def MayInsert (client : ι → κ) (k : κ) (a : Admit ι) : Prop :=
  client a.session = k ∧ a.phase = .accepted ∧ a.newSession = true

/-- The holder of the lock may add its session to the pending ones of the client. -/
def MayClaim (client : ι → κ) (k : κ) (a : Admit ι) : Prop :=
  client a.session = k ∧ a.phase = .accepted

theorem QuotaInv.room_live (h : QuotaInv client cfg k q s) {a : Admit ι} (ha : a ∈ s.admission)
    (hmay : MayInsert client k a) :
    (insert a.session (liveSessions client k s)).encard ≤ q.maxLiveSessions.toNat := by
  have hknown := h.known a ha hmay.1
  unfold Known at hknown
  rw [hmay.2.1] at hknown
  exact hknown.1 hmay.2.2

theorem QuotaInv.room_pending (h : QuotaInv client cfg k q s) {a : Admit ι} (ha : a ∈ s.admission)
    (hmay : MayClaim client k a) :
    (insert a.session (pendingSessions client k s)).encard ≤ q.maxPendingApprovals.toNat := by
  have hknown := h.known a ha hmay.1
  unfold Known at hknown
  rw [hmay.2] at hknown
  exact hknown.2

/-- A set that only the holder of the lock adds to, and only itself. -/
theorem encard_le_of_holder {X X' : Set ι} {may : Admit ι → Prop} {n : ℕ∞}
    (hgrow : ∀ j ∈ X', j ∈ X ∨ ∃ a ∈ s.admission, a.session = j ∧ may a) (hX : X.encard ≤ n)
    (hroom : ∀ a ∈ s.admission, may a → (insert a.session X).encard ≤ n) : X'.encard ≤ n := by
  by_cases hmay : ∃ a ∈ s.admission, may a
  · obtain ⟨a, ha, hmay⟩ := hmay
    refine le_trans (Set.encard_le_encard fun j hj => ?_) (hroom a ha hmay)
    obtain hj | ⟨b, hb, rfl, -⟩ := hgrow j hj
    · exact .inr hj
    · exact .inl (congrArg Admit.session (Option.mem_unique hb ha))
  · refine le_trans (Set.encard_le_encard fun j hj => ?_) hX
    obtain hj | ⟨b, hb, -, hb'⟩ := hgrow j hj
    · exact hj
    · exact absurd ⟨b, hb, hb'⟩ hmay

/-- A step of `admit` changes nothing but the holder of the lock. -/
theorem QuotaInv.hold (h : QuotaInv client cfg k q s) {holder : Option (Admit ι)}
    (hknown : ∀ a ∈ holder, client a.session = k → Known client k q s a) :
    QuotaInv client cfg k q { s with admission := holder } :=
  ⟨⟨h.sound.runs, h.sound.rows⟩, ⟨h.within.live, h.within.pending⟩, hknown⟩

theorem inv_crash (h : QuotaInv client cfg k q s) : QuotaInv client cfg k q
    { s with
      sessions := fun i => ((system cfg).step (s.sessions i) .crash).getD (s.sessions i)
      admission := none } := by
  have hstep (i : ι) : (system cfg).step (s.sessions i) .crash =
      some (((system cfg).step (s.sessions i) .crash).getD (s.sessions i)) := rfl
  have hok (i : ι) : orderlyStep (s.sessions i) .crash := trivial
  have hadds (i : ι) := step_adds (h.sound.runs i) (hstep i)
  refine ⟨⟨fun i => (h.sound.runs i).tail (hok i) (hstep i), h.sound.rows⟩, ⟨?_, ?_⟩, nofun⟩
  · refine le_trans (Set.encard_le_encard ?_) h.within.live
    rintro i ⟨hk, hi⟩
    exact ⟨hk, ((hadds i).live hi).resolve_right nofun⟩
  · refine le_trans (Set.encard_le_encard ?_) h.within.pending
    rintro i ⟨hk, hi⟩
    exact ⟨hk, ((hadds i).pending hi).resolve_right nofun⟩

/-! ## The steps of a session -/

theorem inserts_spends {op : Option Op} (h : op.any inserts = true) : op.any spends = true := by
  cases op with
  | none => cases h
  | some op =>
    have hins : inserts op = true := h
    show spends op = true
    unfold inserts at hins
    split at hins
    · rfl
    · cases hins

section

variable [DecidableEq ι] {i : ι} {x : Config sig Mem} {l : ThreadLabel sig Choice EnvStep}

theorem move_self (s : Harness ι) (i : ι) (x : Config sig Mem) : (s.move i x).sessions i = x :=
  Function.update_self ..

theorem move_of_ne (s : Harness ι) {i j : ι} (h : j ≠ i) (x : Config sig Mem) :
    (s.move i x).sessions j = s.sessions j :=
  Function.update_of_ne h ..

/-- What a step of a session adds to a set of sessions is that session. -/
theorem move_subset {count : Mem → Bool} {adds : Prop}
    (h : count x.mem = true → count (s.sessions i).mem = true ∨ adds) {j : ι}
    (hj : count ((s.move i x).sessions j).mem = true) :
    count (s.sessions j).mem = true ∨ j = i ∧ adds := by
  by_cases hij : j = i
  · subst hij
    rw [move_self] at hj
    exact (h hj).imp_right fun ha => ⟨rfl, ha⟩
  · rw [move_of_ne s hij] at hj
    exact .inl hj

theorem sound_move (h : Sound cfg s) (hok : orderlyStep (s.sessions i) l)
    (hs : (system cfg).step (s.sessions i) l = some x) : Sound cfg (s.move i x) where
  runs j := by
    by_cases hij : j = i
    · subst hij
      rw [move_self]
      exact (h.runs j).tail hok hs
    · rw [move_of_ne s hij]
      exact h.runs j
  rows j hj := by
    show j ∈ if _ then _ else _
    by_cases hij : j = i
    · subst hij
      rw [move_self] at hj
      split
      · exact List.mem_append_right _ (List.mem_singleton_self j)
      · rename_i hnew
        apply h.rows
        intro hnone
        rw [hnone] at hnew
        exact hnew (by simpa [Option.isSome_iff_ne_none] using hj)
    · rw [move_of_ne s hij] at hj
      have hmem := h.rows j hj
      split
      · exact List.mem_append_left _ hmem
      · exact hmem

/-- A step that inserts or claims is one of the accepted holder of the lock. -/
theorem allows_spends (h : s.allows i l = true)
    (hop : (acting (s.sessions i) l).any spends = true) :
    ∃ a ∈ s.admission, a.session = i ∧ a.phase = .accepted ∧
      ((acting (s.sessions i) l).any inserts = true → a.newSession = true) := by
  cases l with
  | run t c =>
    unfold acting at hop ⊢
    unfold Harness.allows at h
    dsimp only at h hop ⊢
    cases hpend : System.pending (s.sessions i) t with
    | none => simp [hpend] at hop
    | some op =>
      have hspends : spends op = true := by simpa [hpend] using hop
      cases ha : s.admission with
      | none => simp [hpend, hspends, ha] at h
      | some a =>
        simp only [hpend, ha, Option.all_some, hspends, Bool.not_true, Bool.false_or,
          Option.any_some, Bool.and_eq_true, decide_eq_true_eq] at h
        obtain ⟨⟨⟨hi, -⟩, hphase⟩, hnew⟩ := h
        refine ⟨a, rfl, hi, ?_, fun hins => ?_⟩
        · cases hp : a.phase <;> first | rfl | (rw [hp] at hphase; cases hphase)
        · rw [Option.any_some] at hins
          rw [hins] at hnew
          exact hnew
  | _ => cases hop

theorem move_live (hadds : Adds (acting (s.sessions i) l) (s.sessions i).mem x.mem)
    (hallow : s.allows i l = true) {j : ι} (hj : j ∈ liveSessions client k (s.move i x)) :
    j ∈ liveSessions client k s ∨ ∃ a ∈ s.admission, a.session = j ∧ MayInsert client k a := by
  obtain hlive | ⟨rfl, hins⟩ := move_subset hadds.live hj.2
  · exact .inl ⟨hj.1, hlive⟩
  · obtain ⟨a, ha, rfl, hphase, hnew⟩ := allows_spends hallow (inserts_spends hins)
    exact .inr ⟨a, ha, rfl, hj.1, hphase, hnew hins⟩

theorem move_pending (hadds : Adds (acting (s.sessions i) l) (s.sessions i).mem x.mem)
    (hallow : s.allows i l = true) {j : ι} (hj : j ∈ pendingSessions client k (s.move i x)) :
    j ∈ pendingSessions client k s ∨ ∃ a ∈ s.admission, a.session = j ∧ MayClaim client k a := by
  obtain hpending | ⟨rfl, hop⟩ := move_subset hadds.pending hj.2
  · exact .inl ⟨hj.1, hpending⟩
  · obtain ⟨a, ha, rfl, hphase, -⟩ := allows_spends hallow hop
    exact .inr ⟨a, ha, rfl, hj.1, hphase⟩

theorem within_move (h : QuotaInv client cfg k q s)
    (hadds : Adds (acting (s.sessions i) l) (s.sessions i).mem x.mem)
    (hallow : s.allows i l = true) : Within client k q (s.move i x) where
  live := encard_le_of_holder (fun _ => move_live hadds hallow) h.within.live fun _ => h.room_live
  pending := encard_le_of_holder (fun _ => move_pending hadds hallow) h.within.pending
    fun _ => h.room_pending

/-- What the holder of the lock knows stays true: the sets shrink while it has not been accepted,
and grow by its own session only afterwards. -/
theorem known_move (h : QuotaInv client cfg k q s)
    (hadds : Adds (acting (s.sessions i) l) (s.sessions i).mem x.mem)
    (hallow : s.allows i l = true) (hsteady : steady client s (.run i l)) {a : Admit ι}
    (ha : a ∈ s.admission) (hk : client a.session = k) : Known client k q (s.move i x) a := by
  have hknown := h.known a ha hk
  have hholder {b : Admit ι} (hb : b ∈ s.admission) : b = a := Option.mem_unique hb ha
  unfold Known at hknown ⊢
  cases hphase : a.phase with
  | locked => trivial
  | listed live =>
    rw [hphase] at hknown
    obtain ⟨hlive, hstored, hroom⟩ := hknown
    have hnot {b : Admit ι} (hb : b ∈ s.admission) : b.phase ≠ .accepted := by
      rw [hholder hb, hphase]
      nofun
    refine ⟨fun j hj => ?_, fun j hj hpending => ?_, hroom⟩
    · obtain hj | ⟨b, hb, -, hmay⟩ := move_live hadds hallow hj
      · exact hlive j hj
      · exact absurd hmay.2.1 (hnot hb)
    · apply hstored j hj
      obtain hold | ⟨rfl, hins | hlaunches⟩ := move_subset hadds.stored hpending
      · exact hold
      · obtain ⟨b, hb, -, hb', -⟩ := allows_spends hallow (inserts_spends hins)
        exact absurd hb' (hnot hb)
      · -- The first write of a launch does not fall between the two reads.
        have hlisted : a.phase.isListed = true := by rw [hphase]; rfl
        exact hsteady.2 a ha hlisted (hk.trans hj.symm) hlaunches
  | accepted =>
    rw [hphase] at hknown
    refine ⟨fun hnew => ?_, ?_⟩
    · refine le_trans (Set.encard_le_encard ?_) (hknown.1 hnew)
      rintro j (rfl | hj)
      · exact .inl rfl
      · obtain hj | ⟨b, hb, rfl, -⟩ := move_live hadds hallow hj
        · exact .inr hj
        · exact .inl (congrArg Admit.session (hholder hb))
    · refine le_trans (Set.encard_le_encard ?_) hknown.2
      rintro j (rfl | hj)
      · exact .inl rfl
      · obtain hj | ⟨b, hb, rfl, -⟩ := move_pending hadds hallow hj
        · exact .inr hj
        · exact .inl (congrArg Admit.session (hholder hb))

/-! ## Every step -/

variable [DecidableEq κ] {binding : κ → Option Quotas}

theorem step_inv (hq : binding k = some q) (hlive : 0 < q.maxLiveSessions)
    (hpending : 0 < q.maxPendingApprovals) (h : QuotaInv client cfg k q s) {l : Label ι}
    (hok : steady client s l) (hs : step cfg client binding s l = some s') :
    QuotaInv client cfg k q s' := by
  cases l with
  | lock i t =>
    simp only [step] at hs
    split at hs
    · split at hs <;> cases hs
      refine h.hold ?_
      rintro a ⟨⟩ -
      trivial
    · cases hs
  | list rateOk listOk =>
    simp only [step] at hs
    split at hs <;> cases hs
    rename_i i t newSession ha
    refine h.hold fun a hmem hk => ?_
    obtain ⟨phase, hphase, rfl⟩ := Option.map_eq_some_iff.mp hmem
    have hk : client i = k := hk
    rw [hk, hq] at hphase
    obtain ⟨rfl, hroom⟩ := checkListed_eq hlive hpending hphase
    exact ⟨live_listed h.sound, fun j hj hst => pending_listed h.sound hj hst, hroom⟩
  | count =>
    simp only [step] at hs
    split at hs <;> cases hs
    rename_i i t newSession live ha
    refine h.hold fun a hmem hk => ?_
    obtain ⟨phase, hphase, rfl⟩ := Option.map_eq_some_iff.mp hmem
    have hk : client i = k := hk
    rw [hk, hq] at hphase
    obtain ⟨rfl, hroom⟩ := checkPending_eq hphase
    obtain ⟨hall, hstored, hnew⟩ := h.known _ ha hk
    refine ⟨fun hn => encard_insert_le hall ?_ i,
      encard_insert_le (mem_pendingOf h.sound hstored) hroom i⟩
    rw [List.length_map]
    exact hnew hn
  | unlock =>
    simp only [step] at hs
    split at hs
    · split at hs <;> cases hs
      exact h.hold nofun
    · cases hs
  | run i l =>
    simp only [step] at hs
    split at hs
    · rename_i hallow
      obtain ⟨x, hx, rfl⟩ := Option.map_eq_some_iff.mp hs
      have hadds := step_adds (h.sound.runs i) hx
      exact ⟨sound_move h.sound hok.1 hx, within_move h hadds hallow,
        fun a ha hk => known_move h hadds hallow hok ha hk⟩
    · cases hs
  | crash =>
    cases hs
    exact inv_crash h

/-- The limits of a client hold in every run, from any state in which they hold, as long as nobody
takes a session between the insert of its row and the claim of its creator, and no launch makes its
first write between the two reads of an admission of the client. -/
theorem quotas_hold (cfg : Settings) {client : ι → κ} {binding : κ → Option Quotas}
    (hstart : Sound cfg s) (hfree : s.admission = none)
    (hrun : Reach (step cfg client binding) (steady client) s s') (hq : binding k = some q)
    (hlive : 0 < q.maxLiveSessions) (hpending : 0 < q.maxPendingApprovals)
    (hwithin : Within client k q s) : Within client k q s' := by
  have hinv : QuotaInv client cfg k q s := by
    refine ⟨hstart, hwithin, fun a ha => ?_⟩
    rw [hfree] at ha
    cases ha
  refine (hrun.invariant (QuotaInv client cfg k q) hinv ?_).within
  intro a b l ha hok hs
  exact step_inv hq hlive hpending ha hok hs

end

/-! ## Two sessions of one client -/

instance [DecidableEq κ] (s : Harness ι) (l : Label ι) : Decidable (steady client s l) := by
  unfold steady
  split <;> infer_instance

/-- The steps of a run in which nobody takes a session between the insert of its row and the claim
of the thread that inserted it. -/
def orderlyLabel (s : Harness ι) : Label ι → Prop
  | .run i l => orderlyStep (s.sessions i) l
  | _ => True

instance (s : Harness ι) (l : Label ι) : Decidable (orderlyLabel s l) := by
  unfold orderlyLabel
  split <;> infer_instance

/-- A service without sessions. -/
def unstarted : Harness ι where
  sessions _ := init

theorem sound_unstarted : Sound cfg (unstarted : Harness ι) where
  runs _ := .refl
  rows _ hi := absurd rfl hi

theorem within_unstarted (client : ι → κ) (k : κ) (q : Quotas) : Within client k q unstarted := by
  have hlive : liveSessions client k (unstarted : Harness ι) = ∅ :=
    Set.eq_empty_of_forall_notMem fun i hi => nomatch hi.2
  have hpending : pendingSessions client k (unstarted : Harness ι) = ∅ :=
    Set.eq_empty_of_forall_notMem fun i hi => nomatch hi.2
  constructor
  · rw [hlive, Set.encard_empty]
    exact zero_le
  · rw [hpending, Set.encard_empty]
    exact zero_le

/-- Two live sessions, one of them pending. -/
def oneApproval : Quotas := { maxLiveSessions := 2, maxPendingApprovals := 1 }

/-- A thread gets the lock and lists the sessions. -/
def listing (i : Bool) (t : ℕ) : List (Label Bool) := [.lock i t, .list true true]

/-- A session is created, approved and paused. A prompt to continue it is admitted, and its launch
is about to make its first write. The call that creates a second session has listed the first one
as suspended. -/
def listedSuspended : List (Label Bool) := List.flatten
  [(pausing.take 1).map (.run false), listing false 0, [.count],
    ((pausing.drop 1).take 2).map (.run false), [.unlock], (pausing.drop 3).map (.run false),
    [.run false (.start (.prompt "p"))], (steps 4 1).map (.run false), listing false 4, [.count],
    (steps 4 1).map (.run false), [.unlock], (steps 4 6).map (.run false),
    [.run true (.start (.createSession (.snapshot "") "" ""))], listing true 0]

/-- The launch of the first session gets to `register`. -/
def registering : List (Label Bool) :=
  List.map (.run false) <| List.flatten
    [steps 4 13, [.env (.agent 4 (.opened "s" true)), .env (.pushEvent 4)], steps 4 7]

/-- The state after these steps, with one client. -/
def harnessAfter (ls : List (Label Bool)) : Harness Bool :=
  (exec (step idleLimit (fun _ => ()) fun _ => some oneApproval) unstarted ls).getD unstarted

/-- The second session is refused while the first one is pending. -/
theorem quotas_hold_refused :
    let s := harnessAfter (listedSuspended ++ [.count] ++ registering)
    Within (fun _ => ()) () oneApproval s ∧ s.admission.isNone = true ∧
      isPending (s.sessions false).mem = true := by
  have hrun : Reach (step idleLimit (fun _ => ()) fun _ => some oneApproval)
      (steady fun _ => ()) unstarted (harnessAfter (listedSuspended ++ [.count] ++ registering)) :=
    Reach.of_exec_guarded _ (by decide)
  refine ⟨?_, by decide, by decide⟩
  exact quotas_hold idleLimit sound_unstarted rfl hrun rfl (by decide) (by decide)
    (within_unstarted _ _ _)

/-- The launch of the first session makes its first write after the sessions were listed and
registers before the launches are counted, so it is in neither count, and the second session is
created beside it. -/
theorem pending_uncounted :
    let s := harnessAfter (listedSuspended ++ registering ++ [.count, .run true (.run 0 {})])
    Sound idleLimit (unstarted : Harness Bool) ∧
      Within (fun _ => ()) () oneApproval (unstarted : Harness Bool) ∧
      Reach (step idleLimit (fun _ => ()) fun _ => some oneApproval) orderlyLabel unstarted s ∧
      ¬ Within (fun _ => ()) () oneApproval s := by
  intro s
  refine ⟨sound_unstarted, within_unstarted _ _ _, Reach.of_exec_guarded _ (by decide), ?_⟩
  intro hwithin
  have hpending : ∀ i, isPending (s.sessions i).mem = true := by decide
  have hsub : ({false, true} : Set Bool) ⊆ pendingSessions (fun _ => ()) () s :=
    fun i _ => ⟨rfl, hpending i⟩
  have hle := (Set.encard_le_encard hsub).trans hwithin.pending
  rw [Set.encard_pair Bool.false_ne_true] at hle
  exact absurd hle (by decide)

end AgentOps.Service.Admission
