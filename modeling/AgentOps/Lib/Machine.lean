import Mathlib.Logic.Function.Basic

/-!
# Labelled machines and their runs

A machine is a partial step function `σ → ℓ → Option σ`: a label is one atomic step of
some party, with the choices that step makes, and `none` says that the step is not
enabled. Everything here is over arbitrary states and labels.

* `exec` runs a machine over a list of labels, so that a concrete run can be evaluated;
* `Reach` is reachability by steps that all meet a condition on the state before the
  step and its label;
* `Reach.invariant` is the one induction that every safety proof goes through;
* `family` is many copies of a machine that share nothing;
* `update_eq_some` is what a table of parties holds after one of them is set.
-/

namespace AgentOps.Lib

variable {σ ℓ : Type}

/-- What a table holds after one entry was set. -/
theorem update_eq_some {ι α : Type*} [DecidableEq ι] {f : ι → Option α} {i j : ι} {a b : α}
    (h : Function.update f i (some a) j = some b) : j = i ∧ b = a ∨ j ≠ i ∧ f j = some b := by
  by_cases hj : j = i
  · subst hj
    rw [Function.update_self] at h
    exact .inl ⟨rfl, (Option.some.inj h).symm⟩
  · rw [Function.update_of_ne hj] at h
    exact .inr ⟨hj, h⟩

/-- What a table holds after one entry was removed. -/
theorem of_update_none {ι α : Type*} [DecidableEq ι] {f : ι → Option α} {i j : ι} {b : α}
    (h : Function.update f i none j = some b) : f j = some b := by
  by_cases hj : j = i
  · subst hj
    rw [Function.update_self] at h
    cases h
  · rwa [Function.update_of_ne hj] at h

/-- The state after a list of steps, if each of them is enabled when its turn comes. -/
def exec (step : σ → ℓ → Option σ) (s : σ) : List ℓ → Option σ
  | [] => some s
  | l :: ls => (step s l).bind fun t => exec step t ls

/-- The machine that only takes steps that meet a condition. -/
def guarded (step : σ → ℓ → Option σ) (ok : σ → ℓ → Prop) [∀ s l, Decidable (ok s l)] (s : σ)
    (l : ℓ) : Option σ :=
  if ok s l then step s l else none

/-- `Reach step ok s t`: from `s` the machine gets to `t` by steps that all meet `ok`. -/
inductive Reach (step : σ → ℓ → Option σ) (ok : σ → ℓ → Prop) (s : σ) : σ → Prop
  | refl : Reach step ok s s
  | tail {t u : σ} {l : ℓ} : Reach step ok s t → ok t l → step t l = some u →
      Reach step ok s u

/-- A run of the guarded machine is a run. -/
theorem isSome_of_guarded {step : σ → ℓ → Option σ} {ok : σ → ℓ → Prop} [∀ s l, Decidable (ok s l)]
    {s : σ} {ls : List ℓ} (h : (exec (guarded step ok) s ls).isSome = true) :
    (exec step s ls).isSome = true := by
  induction ls generalizing s with
  | nil => rfl
  | cons l ls ih =>
    simp only [exec, guarded] at h ⊢
    split at h
    · cases hs : step s l with
      | none =>
        rw [hs] at h
        cases h
      | some t =>
        rw [hs, Option.bind_some] at h
        exact ih h
    · cases h

namespace Reach

variable {step : σ → ℓ → Option σ} {ok ok' : σ → ℓ → Prop} {s t u : σ}

theorem head {l : ℓ} (hok : ok s l) (hs : step s l = some t) (h : Reach step ok t u) :
    Reach step ok s u := by
  induction h with
  | refl => exact tail refl hok hs
  | tail _ hok' hs' ih => exact tail ih hok' hs'

theorem trans (h : Reach step ok s t) (h' : Reach step ok t u) : Reach step ok s u := by
  induction h' with
  | refl => exact h
  | tail _ hok hs ih => exact tail ih hok hs

/-- A property of the first state that every allowed step keeps holds in every state
that is reached. -/
theorem invariant (h : Reach step ok s t) (inv : σ → Prop) (h0 : inv s)
    (hstep : ∀ {a b : σ} {l : ℓ}, inv a → ok a l → step a l = some b → inv b) : inv t := by
  induction h with
  | refl => exact h0
  | tail _ hok hs ih => exact hstep ih hok hs

/-- A weaker condition on the steps reaches at least as much. -/
theorem mono (h : Reach step ok s t) (hle : ∀ a l, ok a l → ok' a l) :
    Reach step ok' s t := by
  induction h with
  | refl => exact refl
  | tail _ hok hs ih => exact tail ih (hle _ _ hok) hs

/-- A run that evaluates reaches its last state. -/
theorem of_exec {ls : List ℓ} (h : exec step s ls = some t) :
    Reach step (fun _ _ => True) s t := by
  induction ls generalizing s with
  | nil =>
    obtain rfl : s = t := by simpa [exec] using h
    exact refl
  | cons l ls ih =>
    simp only [exec, Option.bind_eq_some_iff] at h
    obtain ⟨a, ha, hrest⟩ := h
    exact head trivial ha (ih hrest)

/-- The state that a list of steps reaches when all of them are enabled. -/
theorem of_exec_getD (ls : List ℓ) (h : (exec step s ls).isSome = true) :
    Reach step (fun _ _ => True) s ((exec step s ls).getD s) := by
  obtain ⟨t, ht⟩ := Option.isSome_iff_exists.mp h
  rw [ht]
  exact of_exec ht

/-- The same for a run whose steps all meet a condition that can be evaluated. -/
theorem of_exec_guarded [∀ s l, Decidable (ok s l)] (ls : List ℓ)
    (h : (exec (guarded step ok) s ls).isSome = true) :
    Reach step ok s ((exec step s ls).getD s) := by
  induction ls generalizing s with
  | nil => exact refl
  | cons l ls ih =>
    simp only [exec, guarded] at h ⊢
    split at h
    · rename_i hok
      cases hs : step s l with
      | none =>
        rw [hs] at h
        cases h
      | some t =>
        rw [hs, Option.bind_some] at h
        obtain ⟨u, hu⟩ := Option.isSome_iff_exists.mp (isSome_of_guarded h)
        have hrest := ih h
        rw [hu] at hrest
        rw [Option.bind_some, hu]
        exact head hok hs hrest
    · cases h

end Reach

/-- A copy of the machine for each `i`; a step is a step of one of them. -/
def family {ι : Type} [DecidableEq ι] (step : σ → ℓ → Option σ) (s : ι → σ) (l : ι × ℓ) :
    Option (ι → σ) :=
  (step (s l.1) l.2).map (Function.update s l.1)

/-- A step of the family is a step of one copy. -/
theorem family_step {ι : Type} [DecidableEq ι] {step : σ → ℓ → Option σ} {s t : ι → σ} {l : ι × ℓ}
    (h : family step s l = some t) (i : ι) :
    i = l.1 ∧ step (s i) l.2 = some (t i) ∨ t i = s i := by
  simp only [family, Option.map_eq_some_iff] at h
  obtain ⟨x, hx, rfl⟩ := h
  by_cases hi : i = l.1
  · subst hi
    exact .inl ⟨rfl, by rw [hx, Function.update_self]⟩
  · exact .inr (Function.update_of_ne hi _ _)

/-- A run of the family is a run of each copy. -/
theorem Reach.member {ι : Type} [DecidableEq ι] {step : σ → ℓ → Option σ}
    {ok : (ι → σ) → ι × ℓ → Prop} {ok' : σ → ℓ → Prop} {s t : ι → σ}
    (h : Reach (family step) ok s t) (i : ι) (hok : ∀ a l, ok a (i, l) → ok' (a i) l) :
    Reach step ok' (s i) (t i) := by
  induction h with
  | refl => exact refl
  | @tail t u l _ hl hs ih =>
    obtain ⟨j, l⟩ := l
    obtain ⟨rfl, hx⟩ | hsame := family_step hs i
    · exact tail ih (hok _ _ hl) hx
    · rw [hsame]
      exact ih

end AgentOps.Lib
