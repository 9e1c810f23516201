import AgentOps.Lib.Threads

/-!
# Observed systems

A claim about a run may speak of what happened earlier in it: what a thread found when it
took a lock, or how many calls have failed since. An observer writes such things down beside
the memory. The programs and their steps do not change, so a run of the observed system is a
run of the system, and what is known of all runs of the system holds of it.
-/

namespace AgentOps.Lib

variable {S : Sig} {σ χ ε γ : Type}

/-- What is written down of the steps of a system. -/
structure Observer (S : Sig) (σ ε γ : Type) where
  /-- After an operation of a thread with its result, in the memory before it. -/
  act : ℕ → (op : S.Op) → S.Res op → σ → γ → γ
  env : ε → γ → γ := fun _ g => g
  crash : γ → γ
  /-- When a thread, or a call from outside, starts a program as a thread. -/
  started : Option ℕ → S.Entry → ℕ → γ → γ := fun _ _ _ g => g

/-- A configuration without what was written down. -/
def Config.base (s : Config S (σ × γ)) : Config S σ := ⟨s.mem.1, s.threads, s.next⟩

namespace System

variable (M : System S σ χ ε) (O : Observer S σ ε γ)

/-- The system with an observer. -/
def observe : System S (σ × γ) χ ε where
  perform t op x c := (M.perform t op x.1 c).map fun p => (p.1, p.2, O.act t op p.1 x.1 x.2)
  env x l := (M.env x.1 l).map fun m => (m, O.env l x.2)
  opens x := M.opens x.1
  crash x := (M.crash x.1, O.crash x.2)
  code := M.code
  started t e u x := (M.started t e u x.1, O.started t e u x.2)

variable {M O}

theorem observe_perform {t : ℕ} {op : S.Op} {x x' : σ × γ} {c : χ} {r : S.Res op}
    (h : (M.observe O).perform t op x c = some (r, x')) :
    M.perform t op x.1 c = some (r, x'.1) ∧ x'.2 = O.act t op r x.1 x.2 := by
  simp only [observe, Option.map_eq_some_iff] at h
  obtain ⟨p, hp, heq⟩ := h
  cases heq
  exact ⟨hp, rfl⟩

theorem observe_env {x x' : σ × γ} {l : ε} (h : (M.observe O).env x l = some x') :
    M.env x.1 l = some x'.1 ∧ x'.2 = O.env l x.2 := by
  simp only [observe, Option.map_eq_some_iff] at h
  obtain ⟨m, hm, rfl⟩ := h
  exact ⟨hm, rfl⟩

/-- A step of the observed system is a step of the system. -/
theorem observe_step {s s' : Config S (σ × γ)} {l : ThreadLabel S χ ε}
    (h : (M.observe O).step s l = some s') : M.step s.base l = some s'.base := by
  cases l with
  | run t c =>
    have hthreads : s.base.threads t = s.threads t := rfl
    simp only [step, hthreads] at h ⊢
    cases ht : s.threads t with
    | none => rw [ht] at h; cases h
    | some p =>
      rw [ht] at h
      cases p with
      | ret a => cases h
      | act op k =>
        simp only [Option.map_eq_some_iff] at h
        obtain ⟨⟨r, x⟩, hdo, rfl⟩ := h
        obtain ⟨hm, -⟩ := observe_perform hdo
        simp only [Config.base]
        rw [hm]
        rfl
      | spawn e k => cases h; rfl
      | jump e => cases h; rfl
  | start e =>
    simp only [step] at h ⊢
    split at h
    · rename_i hopen
      cases h
      exact if_pos hopen
    · cases h
  | env l =>
    simp only [step, Option.map_eq_some_iff] at h
    obtain ⟨x, hdo, rfl⟩ := h
    simp only [step]
    rw [show M.env s.base.mem l = some x.1 from (observe_env hdo).1]
    rfl
  | crash => cases h; rfl

/-- A run of the observed system is a run of the system. -/
theorem observe_reach {ok : Config S (σ × γ) → ThreadLabel S χ ε → Prop}
    {ok' : Config S σ → ThreadLabel S χ ε → Prop} {s t : Config S (σ × γ)}
    (h : Reach (M.observe O).step ok s t) (hok : ∀ a l, ok a l → ok' a.base l) :
    Reach M.step ok' s.base t.base := by
  induction h with
  | refl => exact .refl
  | tail _ hl hs ih => exact ih.tail (hok _ _ hl) (observe_step hs)

end System

end AgentOps.Lib
