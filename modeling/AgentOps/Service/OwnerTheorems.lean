import AgentOps.Service.Owner

/-!
# What the owner map keeps

`Slot.Inv` is the invariant of the owner map: the thread that took the session is the one
whose owner is the entry, a stop stands only on the entry, an owner that is live never had
one, and what was stored on an owner is served in order. There is one lemma for each
function of `owner.go`; each says under which condition on the caller it keeps the invariant.
-/

namespace AgentOps.Service

open AgentOps.Api

variable {u o : ℕ} {s' : Slot}

namespace Slot

/-- The invariant of the owner map. -/
structure Inv (s : Slot) : Prop where
  taken_entry : ∀ t, (s.hist t).taken = true → s.entry = some t ∧ (s.owners t).live = false
  entry_taken : ∀ t, s.entry = some t → (s.owners t).live = false → (s.hist t).taken = true
  live_clean : ∀ t, (s.owners t).live = true → (s.owners t).stop = none ∧ (s.hist t).stored = []
  stop_entry : ∀ t, (s.owners t).stop ≠ none → s.entry = some t
  inHand_taken : ∀ t, (s.hist t).inHand ≠ none → (s.hist t).taken = true
  stored_eq : ∀ t, (s.hist t).stored =
    (s.hist t).served ++ (s.hist t).inHand.toList ++ (s.owners t).stop.toList
  settled_handed : ∀ t, (s.owners t).settled = true →
    s.entry = some t ∧ (s.hist t).handed = true ∧ (s.hist t).stored ≠ []
  handed_open : ∀ t, (s.hist t).handed = true → (s.hist t).closed = false →
    (s.owners t).settled = true
  closed_left : ∀ t, (s.hist t).closed = true → s.entry ≠ some t

/-- The owner of thread `t` was never used. -/
def Unused (s : Slot) (t : ℕ) : Prop := s.owners t = {} ∧ s.hist t = {} ∧ s.entry ≠ some t

/-- Thread `t` holds the session, or it goes on with an owner that never got into the map;
no stop is in its hands. -/
structure Own (s : Slot) (t : ℕ) : Prop where
  inHand : (s.hist t).inHand = none
  live : (s.owners t).live = false
  held : (s.hist t).taken = true ∨ s.entry ≠ some t ∧ (s.owners t).stop = none

/-- The functions touch the owner and the history of one thread, and the entry. -/
structure Touches (s s' : Slot) (t : ℕ) : Prop where
  owners : ∀ u, u ≠ t → s'.owners u = s.owners u
  hist : ∀ u, u ≠ t → s'.hist u = s.hist u

@[simp] theorem setOwner_other (s : Slot) {t : ℕ} (hu : u ≠ t) (f : Owner → Owner) :
    (s.setOwner t f).owners u = s.owners u := by simp [setOwner, Function.update_of_ne hu]

@[simp] theorem note_other (s : Slot) {t : ℕ} (hu : u ≠ t) (f : History → History) :
    (s.note t f).hist u = s.hist u := by simp [note, Function.update_of_ne hu]

@[simp] theorem setOwner_owner (s : Slot) (t : ℕ) (f : Owner → Owner) :
    (s.setOwner t f).owners t = f (s.owners t) := by simp [setOwner]

@[simp] theorem setOwner_entry (s : Slot) (t : ℕ) (f : Owner → Owner) :
    (s.setOwner t f).entry = s.entry := rfl

@[simp] theorem setOwner_hist (s : Slot) (t : ℕ) (f : Owner → Owner) :
    (s.setOwner t f).hist = s.hist := rfl

@[simp] theorem note_hist (s : Slot) (t : ℕ) (f : History → History) :
    (s.note t f).hist t = f (s.hist t) := by simp [note]

@[simp] theorem note_entry (s : Slot) (t : ℕ) (f : History → History) :
    (s.note t f).entry = s.entry := rfl

@[simp] theorem note_owners (s : Slot) (t : ℕ) (f : History → History) :
    (s.note t f).owners = s.owners := rfl

/-- What the invariant says of one owner. -/
structure OwnerInv (entry : Option ℕ) (o : Owner) (h : History) (t : ℕ) : Prop where
  taken_entry : h.taken = true → entry = some t ∧ o.live = false
  entry_taken : entry = some t → o.live = false → h.taken = true
  live_clean : o.live = true → o.stop = none ∧ h.stored = []
  stop_entry : o.stop ≠ none → entry = some t
  inHand_taken : h.inHand ≠ none → h.taken = true
  stored_eq : h.stored = h.served ++ h.inHand.toList ++ o.stop.toList
  settled_handed : o.settled = true → entry = some t ∧ h.handed = true ∧ h.stored ≠ []
  handed_open : h.handed = true → h.closed = false → o.settled = true
  closed_left : h.closed = true → entry ≠ some t

theorem inv_iff {s : Slot} : s.Inv ↔ ∀ t, OwnerInv s.entry (s.owners t) (s.hist t) t :=
  ⟨fun h t => ⟨h.taken_entry t, h.entry_taken t, h.live_clean t, h.stop_entry t,
      h.inHand_taken t, h.stored_eq t, h.settled_handed t, h.handed_open t, h.closed_left t⟩,
   fun h => ⟨fun t => (h t).taken_entry, fun t => (h t).entry_taken, fun t => (h t).live_clean,
      fun t => (h t).stop_entry, fun t => (h t).inHand_taken, fun t => (h t).stored_eq,
      fun t => (h t).settled_handed, fun t => (h t).handed_open, fun t => (h t).closed_left⟩⟩

/-- Only the owner of `t` changes, and the entry is not moved between other threads. -/
theorem Inv.of_touches {s : Slot} {t : ℕ} (h : s.Inv) (ht : s.Touches s' t)
    (hentry : ∀ u, u ≠ t → (s'.entry = some u ↔ s.entry = some u))
    (hown : OwnerInv s'.entry (s'.owners t) (s'.hist t) t) : s'.Inv := by
  rw [inv_iff]
  intro u
  by_cases hu : u = t
  · exact hu ▸ hown
  · have hold := inv_iff.mp h u
    rw [ht.owners u hu, ht.hist u hu]
    have he := hentry u hu
    exact ⟨fun hx => ⟨he.mpr (hold.taken_entry hx).1, (hold.taken_entry hx).2⟩,
      fun hx => hold.entry_taken (he.mp hx), hold.live_clean,
      fun hx => he.mpr (hold.stop_entry hx), hold.inHand_taken, hold.stored_eq,
      fun hx => ⟨he.mpr (hold.settled_handed hx).1, (hold.settled_handed hx).2⟩,
      hold.handed_open, fun hx => fun hn => hold.closed_left hx (he.mp hn)⟩

/-- A thread that took the session is the only one. -/
theorem Inv.taken_unique {s : Slot} (h : s.Inv) {t : ℕ} (ht : (s.hist t).taken = true)
    (hu : (s.hist u).taken = true) : t = u := by
  have := (h.taken_entry t ht).1.symm.trans (h.taken_entry u hu).1
  exact Option.some.inj this

/-- An owner that left the map was served every stop that was stored on it. -/
theorem Inv.served_of_left {s : Slot} (h : s.Inv) {t : ℕ} (ht : s.entry ≠ some t) :
    (s.hist t).stored = (s.hist t).served := by
  have hstop : (s.owners t).stop = none := by
    by_contra hs
    exact ht (h.stop_entry t hs)
  have hhand : (s.hist t).inHand = none := by
    by_contra hi
    exact ht (h.taken_entry t (h.inHand_taken t hi)).1
  rw [h.stored_eq t, hstop, hhand]
  simp

/-! ## The functions -/

variable {s : Slot} {t : ℕ}

theorem claim_of_none (hs : s.entry = none) (cancel : Bool) : s.claim t cancel =
    (true, ({ s.setOwner t (fun _ => { cancel }) with entry := some t }).note t fun h =>
      { h with taken := true }) := by
  simp [Slot.claim, hs]

theorem claim_of_some (hs : s.entry = some o) (cancel : Bool) :
    s.claim t cancel = (false, s.setOwner t fun _ => { cancel }) := by
  simp [Slot.claim, hs]

theorem claim_touches (s : Slot) (t : ℕ) (cancel : Bool) : s.Touches (s.claim t cancel).2 t := by
  constructor <;> intro u hu <;> unfold claim <;> cases h : s.entry <;> simp [h, hu]

theorem Inv.claim (h : s.Inv) (hu : s.Unused t) (cancel : Bool) : (s.claim t cancel).2.Inv := by
  obtain ⟨ho, hh, he⟩ := hu
  refine h.of_touches (claim_touches s t cancel) ?_ ?_
  · intro u hne
    unfold Slot.claim
    cases hs : s.entry with
    | none => simp [hs, Ne.symm hne]
    | some o => simp [hs]
  · unfold Slot.claim
    cases hs : s.entry with
    | none => constructor <;> simp [hs, hh]
    | some o =>
      have : o ≠ t := fun hot => he (by rw [hs, hot])
      constructor <;> simp [hs, hh, this]

theorem register_touches (s : Slot) (t : ℕ) : s.Touches (s.register t).2 t := by
  constructor <;> intro u hu <;> unfold register <;> split <;> simp [hu]

theorem register_entry (s : Slot) (t : ℕ) : (s.register t).2.entry = s.entry := by
  unfold register
  split <;> rfl

/-- A launch that took no stop may register. -/
theorem Inv.register (h : s.Inv) (hown : s.Own t) (hserved : (s.hist t).served = []) :
    (s.register t).2.Inv := by
  refine h.of_touches (register_touches s t) (fun u _ => by rw [register_entry]) ?_
  have hold := inv_iff.mp h t
  unfold Slot.register
  split
  · exact hold
  · rename_i hreg
    simp only [not_or, ne_eq, not_not, Bool.not_eq_true, Option.isSome_eq_false_iff,
      Option.isNone_iff_eq_none] at hreg
    have hstored : (s.hist t).stored = [] := by
      rw [hold.stored_eq, hserved, hown.inHand, hreg.2]
      rfl
    constructor <;> simp [hreg.1, hreg.2, hstored, hserved, hown.inHand]
    · by_contra hs
      exact (hold.settled_handed (by simpa using hs)).2.2 hstored
    · exact hold.handed_open
    · by_contra hc
      exact hold.closed_left (by simpa using hc) hreg.1

theorem takeStop_touches (s : Slot) (t : ℕ) : s.Touches (s.takeStop t).2 t := by
  constructor <;> intro u hu <;> unfold takeStop <;> split <;> simp [hu]

theorem takeStop_entry (s : Slot) (t : ℕ) : (s.takeStop t).2.entry = s.entry := by
  unfold takeStop
  split <;> rfl

theorem Inv.takeStop (h : s.Inv) (hhand : (s.hist t).inHand = none) : (s.takeStop t).2.Inv := by
  refine h.of_touches (takeStop_touches s t) (fun u _ => by rw [takeStop_entry]) ?_
  have hold := inv_iff.mp h t
  unfold Slot.takeStop
  split
  · exact hold
  · rename_i spec hstop
    have hentry := hold.stop_entry (by rw [hstop]; exact Option.some_ne_none _)
    have hlive : (s.owners t).live = false := by
      by_contra hl
      have := (hold.live_clean (by simpa using hl)).1
      rw [hstop] at this
      cases this
    constructor <;> simp [hentry, hlive, hhand]
    · exact hold.entry_taken hentry hlive
    · rw [hold.stored_eq, hhand, hstop]
      simp
    · exact fun hs => (hold.settled_handed hs).2
    · exact hold.handed_open
    · by_contra hc
      exact hold.closed_left (by simpa using hc) hentry

theorem finish_touches (s : Slot) (t : ℕ) : s.Touches (s.finish t).2 t := by
  constructor <;> intro u hu <;> unfold finish <;> split <;> by_cases he : s.entry = some t <;>
    simp [hu, he]

theorem Inv.finish (h : s.Inv) (hown : s.Own t) : (s.finish t).2.Inv := by
  have hold := inv_iff.mp h t
  refine h.of_touches (finish_touches s t) ?_ ?_
  · intro u hne
    unfold Slot.finish
    split
    · simp
    · by_cases he : s.entry = some t
      · simp [he, Ne.symm hne]
      · simp [he]
  · unfold Slot.finish
    split
    · rename_i spec hstop
      have hentry := hold.stop_entry (by rw [hstop]; exact Option.some_ne_none _)
      have htaken := hold.entry_taken hentry hown.live
      constructor <;> simp [hentry, hown.live, htaken]
      · rw [hold.stored_eq, hown.inHand, hstop]
        simp
      · exact fun hs => (hold.settled_handed hs).2
      · exact hold.handed_open
      · by_contra hc
        exact hold.closed_left (by simpa using hc) hentry
    · rename_i hstop
      have hstored : (s.hist t).stored = (s.hist t).served := by
        rw [hold.stored_eq, hown.inHand, hstop]
        simp
      by_cases he : s.entry = some t
      · constructor <;> simp [he, hown.live, hown.inHand, hstop, hstored]
        exact fun hh hc => hold.handed_open hh hc
      · constructor <;> simp [he, hown.live, hown.inHand, hstop, hstored]
        exact fun hh hc => hold.handed_open hh hc

theorem Inv.ran (h : s.Inv) : (s.ran t).Inv := by
  have hold := inv_iff.mp h t
  refine h.of_touches ⟨fun _ _ => rfl, fun u hu => note_other s hu _⟩ (fun _ _ => Iff.rfl) ?_
  unfold Slot.ran
  constructor <;> simp
  · exact hold.taken_entry
  · exact hold.entry_taken
  · exact hold.live_clean
  · exact hold.stop_entry
  · rw [hold.stored_eq]
    simp
  · exact hold.settled_handed
  · exact hold.handed_open
  · exact hold.closed_left

theorem detachOwned_touches (s : Slot) (o : ℕ) (spec : StopSpec) :
    s.Touches (s.detachOwned o spec).2 o := by
  constructor <;> intro u hu <;> unfold detachOwned <;> dsimp only <;> split <;> split <;>
    simp [hu]

theorem detachOwned_entry (s : Slot) (o : ℕ) (spec : StopSpec) :
    (s.detachOwned o spec).2.entry = s.entry := by
  unfold detachOwned
  dsimp only
  split <;> split <;> rfl

/-- A stop lands on the owner in the map. -/
theorem Inv.detachOwned (h : s.Inv) (he : s.entry = some o) (hlive : (s.owners o).live = false)
    (spec : StopSpec) : (s.detachOwned o spec).2.Inv := by
  refine h.of_touches (detachOwned_touches s o spec) (fun u _ => by rw [detachOwned_entry]) ?_
  have hold := inv_iff.mp h o
  have htaken := hold.entry_taken he hlive
  have hclosed : (s.hist o).closed = false := by
    by_contra hc
    exact hold.closed_left (by simpa using hc) he
  unfold Slot.detachOwned
  dsimp only
  split
  · rename_i hstore
    have hstored : (s.hist o).stored = (s.hist o).served ++ (s.hist o).inHand.toList := by
      rw [hold.stored_eq, hstore.2]
      simp
    split <;> constructor <;> simp [he, hlive, htaken, hclosed, hstored]
    · exact fun hs => (hold.settled_handed hs).2.1
    · exact fun hh => hold.handed_open hh hclosed
  · rename_i hkeep
    split
    · exact hold
    · rename_i hwait
      have hstop : (s.owners o).stop ≠ none :=
        fun hn => hkeep ⟨by simpa using (not_or.mp hwait).1, hn⟩
      have hstored : (s.hist o).stored ≠ [] := by
        rw [hold.stored_eq]
        simp [hstop]
      constructor <;> simp [he, hlive, htaken, hclosed, hstored]
      rw [hold.stored_eq, List.append_assoc]

/-- A thread whose owner was never used takes the place of a live owner or of none. -/
theorem Inv.hold (h : s.Inv) (hu : s.Unused t) (victim : Option ℕ)
    (hlive : ∀ o, s.entry = some o → (s.owners o).live = true) : (s.hold t victim).Inv := by
  obtain ⟨ho, hh, hne⟩ := hu
  rw [inv_iff]
  intro u
  by_cases hut : u = t
  · subst hut
    constructor <;> simp [Slot.hold, hh]
  · have hold := inv_iff.mp h u
    have howner : (s.hold t victim).owners u = s.owners u := by
      simp [Slot.hold, setOwner, Function.update_of_ne hut]
    have hhist : (s.hold t victim).hist u = s.hist u := by
      simp [Slot.hold, note, setOwner, Function.update_of_ne hut]
    have hent : (s.hold t victim).entry = some t := rfl
    rw [howner, hhist, hent]
    have hnt : some t ≠ some u := fun hx => hut (Option.some.inj hx).symm
    constructor
    · intro htaken
      have he := hold.taken_entry htaken
      rw [hlive u he.1] at he
      exact absurd he.2 (by simp)
    · exact fun hx => absurd hx hnt
    · exact hold.live_clean
    · intro hstop
      exact absurd ((hold.live_clean (hlive u (hold.stop_entry hstop))).1) hstop
    · exact hold.inHand_taken
    · exact hold.stored_eq
    · intro hs
      obtain ⟨he, _, hstored⟩ := hold.settled_handed hs
      exact absurd (hold.live_clean (hlive u he)).2 hstored
    · exact hold.handed_open
    · exact fun _ => hnt

/-! ## What other threads can do to an owner -/

/-- What a thread other than `t` can do to the owner of `t`: store a stop on it while it is in
the map, and take the session over from it once it is live. -/
structure Others (s s' : Slot) (t : ℕ) : Prop where
  live : (s'.owners t).live = (s.owners t).live
  taken : (s'.hist t).taken = (s.hist t).taken
  served : (s'.hist t).served = (s.hist t).served
  inHand : (s'.hist t).inHand = (s.hist t).inHand
  entry : s'.entry = some t → s.entry = some t
  out : s.entry ≠ some t → s'.owners t = s.owners t ∧ s'.hist t = s.hist t

theorem Others.refl (s : Slot) (t : ℕ) : s.Others s t :=
  ⟨rfl, rfl, rfl, rfl, id, fun _ => ⟨rfl, rfl⟩⟩

theorem Touches.others (h : s.Touches s' u) (hne : u ≠ t)
    (he : s'.entry = some t → s.entry = some t) : s.Others s' t := by
  have ho := h.owners t hne.symm
  have hh := h.hist t hne.symm
  exact ⟨by rw [ho], by rw [hh], by rw [hh], by rw [hh], he, fun _ => ⟨ho, hh⟩⟩

theorem claim_others (s : Slot) (hne : u ≠ t) (cancel : Bool) :
    s.Others (s.claim u cancel).2 t := by
  refine (claim_touches s u cancel).others hne ?_
  unfold Slot.claim
  cases h : s.entry <;> simp [h, hne]

theorem register_others (s : Slot) (hne : u ≠ t) : s.Others (s.register u).2 t :=
  (register_touches s u).others hne (by rw [register_entry]; exact id)

theorem takeStop_others (s : Slot) (hne : u ≠ t) : s.Others (s.takeStop u).2 t :=
  (takeStop_touches s u).others hne (by rw [takeStop_entry]; exact id)

theorem finish_others (s : Slot) (hne : u ≠ t) : s.Others (s.finish u).2 t := by
  refine (finish_touches s u).others hne ?_
  unfold Slot.finish
  split
  · exact id
  · by_cases he : s.entry = some u <;> simp [he]

theorem ran_others (s : Slot) (hne : u ≠ t) : s.Others (s.ran u) t :=
  Touches.others ⟨fun _ _ => rfl, fun _ hv => note_other s hv _⟩ hne id

theorem detachOwned_others (s : Slot) (he : s.entry = some o) (spec : StopSpec) :
    s.Others (s.detachOwned o spec).2 t := by
  by_cases hto : o = t
  · subst hto
    have hentry := detachOwned_entry s o spec
    unfold Slot.detachOwned at hentry ⊢
    dsimp only at hentry ⊢
    split <;> split <;> constructor <;> simp [he]
  · exact (detachOwned_touches s o spec).others hto (by rw [detachOwned_entry]; exact id)

theorem hold_others (s : Slot) (hne : u ≠ t) (victim : Option ℕ) :
    s.Others (s.hold u victim) t := by
  refine Touches.others (u := u) ⟨fun v hv => ?_, fun v hv => ?_⟩ hne ?_
  · simp [Slot.hold, hv]
  · simp [Slot.hold, hv]
  · intro h
    exact absurd (Option.some.inj h) hne

theorem Unused.others (h : s.Unused t) (ho : s.Others s' t) : s'.Unused t := by
  obtain ⟨h1, h2⟩ := ho.out h.2.2
  exact ⟨h1.trans h.1, h2.trans h.2.1, fun he => h.2.2 (ho.entry he)⟩

theorem Own.others (h : s.Own t) (ho : s.Others s' t) : s'.Own t where
  inHand := ho.inHand.trans h.inHand
  live := ho.live.trans h.live
  held := by
    rcases h.held with ht | ⟨hne, hstop⟩
    · exact .inl (ho.taken.trans ht)
    · exact .inr ⟨fun he => hne (ho.entry he), by rw [(ho.out hne).1]; exact hstop⟩

/-! ### The stops of an owner -/

theorem register_stored (s : Slot) (t u : ℕ) :
    ((s.register t).2.hist u).stored = (s.hist u).stored := by
  by_cases hu : u = t
  · subst hu
    unfold Slot.register
    split <;> simp
  · rw [(register_touches s t).hist u hu]

theorem register_served (s : Slot) (t : ℕ) :
    ((s.register t).2.hist t).served = (s.hist t).served := by
  unfold Slot.register
  split <;> simp

theorem takeStop_stored (s : Slot) (t u : ℕ) :
    ((s.takeStop t).2.hist u).stored = (s.hist u).stored := by
  by_cases hu : u = t
  · subst hu
    unfold Slot.takeStop
    split <;> simp
  · rw [(takeStop_touches s t).hist u hu]

theorem finish_stored (s : Slot) (t u : ℕ) :
    ((s.finish t).2.hist u).stored = (s.hist u).stored := by
  by_cases hu : u = t
  · subst hu
    unfold Slot.finish
    split <;> by_cases he : s.entry = some u <;> simp [he]
  · rw [(finish_touches s t).hist u hu]

theorem finish_served (s : Slot) (t : ℕ) : ((s.finish t).2.hist t).served = (s.hist t).served := by
  unfold Slot.finish
  split <;> by_cases he : s.entry = some t <;> simp [he]

theorem ran_stored (s : Slot) (t u : ℕ) : ((s.ran t).hist u).stored = (s.hist u).stored := by
  by_cases hu : u = t
  · subst hu
    simp [Slot.ran]
  · simp [Slot.ran, hu]

theorem hold_stored (s : Slot) (t u : ℕ) (victim : Option ℕ) :
    ((s.hold t victim).hist u).stored = (s.hist u).stored := by
  by_cases hu : u = t
  · subst hu
    simp [Slot.hold]
  · simp [Slot.hold, hu]

theorem hold_served (s : Slot) (t : ℕ) (victim : Option ℕ) :
    ((s.hold t victim).hist t).served = (s.hist t).served := by
  simp [Slot.hold]

/-- A stop that was stored stays stored. -/
theorem detachOwned_stored (s : Slot) (o u : ℕ) (spec : StopSpec) (h : (s.hist u).stored ≠ []) :
    ((s.detachOwned o spec).2.hist u).stored ≠ [] := by
  by_cases hu : u = o
  · subst hu
    unfold Slot.detachOwned
    dsimp only
    split <;> split <;> simp [h]
  · rw [(detachOwned_touches s o spec).hist u hu]
    exact h

/-! ### The caller's own view -/

/-- A thread that called `claim` owns its owner, in the map or not. -/
theorem Unused.own_claim (h : s.Unused t) (cancel : Bool) :
    (s.claim t cancel).2.Own t ∧ ((s.claim t cancel).2.hist t).served = [] := by
  obtain ⟨ho, hh, he⟩ := h
  cases hs : s.entry with
  | none =>
    rw [claim_of_none hs]
    exact ⟨⟨by simp [hh], by simp, .inl (by simp)⟩, by simp [hh]⟩
  | some o =>
    have hot : o ≠ t := fun hot => he (by rw [hs, hot])
    rw [claim_of_some hs]
    exact ⟨⟨by simp [hh], by simp, .inr ⟨by simp [hs, hot], by simp⟩⟩, by simp [hh]⟩

theorem Own.takeStop (h : s.Own t) : (s.takeStop t).2.Own t := by
  unfold Slot.takeStop
  split
  · exact h
  · rename_i spec hstop
    refine ⟨by simpa using h.inHand, by simpa using h.live, ?_⟩
    rcases h.held with ht | ⟨_, hs⟩
    · exact .inl (by simpa using ht)
    · rw [hstop] at hs
      cases hs

theorem Own.register_false (h : s.Own t) (hr : (s.register t).1 = false) :
    (s.register t).2.Own t := by
  unfold Slot.register at hr ⊢
  split at hr
  · rename_i hc
    rw [if_pos hc]
    exact h
  · cases hr

/-- `finish` gave the thread a stop to run. -/
structure Serving (s : Slot) (t : ℕ) : Prop where
  live : (s.owners t).live = false
  taken : (s.hist t).taken = true

theorem Own.serving_finish (h : s.Own t) (hinv : s.Inv) {spec : StopSpec}
    (hf : (s.finish t).1 = some spec) : (s.finish t).2.Serving t := by
  unfold Slot.finish at hf ⊢
  split at hf
  · rename_i spec' hstop
    have hentry := hinv.stop_entry t (by rw [hstop]; exact Option.some_ne_none _)
    have htaken := hinv.entry_taken t hentry h.live
    simp only
    exact ⟨by simpa using h.live, by simpa using htaken⟩
  · cases hf

theorem Serving.others (h : s.Serving t) (ho : s.Others s' t) : s'.Serving t :=
  ⟨ho.live.trans h.live, ho.taken.trans h.taken⟩

theorem Serving.own_ran (h : s.Serving t) : (s.ran t).Own t :=
  ⟨by simp [Slot.ran], h.live, .inl (by simpa [Slot.ran] using h.taken)⟩

theorem own_hold (s : Slot) (h : s.Unused t) (victim : Option ℕ) : (s.hold t victim).Own t :=
  ⟨by simp [Slot.hold, h.2.1], by simp [Slot.hold], .inl (by simp [Slot.hold])⟩

end Slot

end AgentOps.Service
