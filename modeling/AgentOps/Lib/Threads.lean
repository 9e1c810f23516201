import AgentOps.Lib.Machine
import Mathlib.Data.Nat.Notation
import Mathlib.Logic.Function.Basic

/-!
# Programs that run as threads over a shared memory

A program is a tree of atomic operations. An operation is data, so that a condition on a
run can speak about what a thread is about to do; its meaning is given by the system. A
program may start another thread and may continue as another program, so a loop is a
program that continues as itself.
-/

namespace AgentOps.Lib

/-- The operations of the programs of a system, their results, and the names of the
programs that a thread can run. -/
structure Sig where
  Op : Type
  Res : Op → Type
  Entry : Type

/-- A program over the operations of `S` that returns an `α`. -/
inductive Prog (S : Sig) (α : Type) : Type
  | ret (a : α)
  /-- One atomic operation, then the rest with its result. -/
  | act (op : S.Op) (k : S.Res op → Prog S α)
  /-- Start a thread and go on. -/
  | spawn (e : S.Entry) (k : Prog S α)
  /-- Continue as another program; nothing returns here. -/
  | jump (e : S.Entry)

namespace Prog

variable {S : Sig} {α β : Type}

def bind : Prog S α → (α → Prog S β) → Prog S β
  | ret a, f => f a
  | act op k, f => act op fun r => (k r).bind f
  | spawn e k, f => spawn e (k.bind f)
  | jump e, _ => jump e

instance : Monad (Prog S) where
  pure := ret
  bind := bind

/-- A program that runs only if the condition holds. -/
def when (c : Prop) [Decidable c] (p : Prog S Unit) : Prog S Unit := if c then p else ret ()

/-- The program of one operation. -/
def perform (op : S.Op) : Prog S (S.Res op) := act op ret

/-- The program only performs operations with `N`, only starts programs with `E`, and only continues
as programs with `J`. -/
def Bounded (N : S.Op → Prop) (E J : S.Entry → Prop) : Prog S α → Prop
  | ret _ => True
  | act op k => N op ∧ ∀ r, (k r).Bounded N E J
  | spawn e k => E e ∧ k.Bounded N E J
  | jump e => J e

/-- The program returns. -/
abbrev Only (N : S.Op → Prop) (E : S.Entry → Prop) (p : Prog S α) : Prop :=
  p.Bounded N E fun _ => False

/-- The program only starts and continues as programs with `E`. -/
abbrev Within (N : S.Op → Prop) (E : S.Entry → Prop) (p : Prog S α) : Prop :=
  p.Bounded N E E

@[simp] theorem bind_ret (a : α) (f : α → Prog S β) : (ret a >>= f) = f a := rfl

@[simp] theorem pure_bind' (a : α) (f : α → Prog S β) : (pure a >>= f) = f a := rfl

@[simp] theorem pure_eq_ret (a : α) : (pure a : Prog S α) = ret a := rfl

@[simp] theorem bind_act (op : S.Op) (k : S.Res op → Prog S α) (f : α → Prog S β) :
    (act op k >>= f) = act op fun r => k r >>= f := rfl

@[simp] theorem perform_bind (op : S.Op) (f : S.Res op → Prog S β) :
    (perform op >>= f) = act op f := rfl

@[simp] theorem bind_spawn (e : S.Entry) (k : Prog S α) (f : α → Prog S β) :
    (spawn e k >>= f) = spawn e (k >>= f) := rfl

@[simp] theorem bind_jump (e : S.Entry) (f : α → Prog S β) : (jump e >>= f) = jump e := rfl

variable {N : S.Op → Prop} {E J : S.Entry → Prop}

theorem Bounded.bind {p : Prog S α} {f : α → Prog S β} (hp : p.Bounded N E J)
    (hf : ∀ a, (f a).Bounded N E J) : (p >>= f).Bounded N E J := by
  induction p with
  | ret a => exact hf a
  | act op k ih => exact ⟨hp.1, fun r => ih r (hp.2 r)⟩
  | spawn e k ih => exact ⟨hp.1, ih hp.2⟩
  | jump e => exact hp

theorem Bounded.mono {N' : S.Op → Prop} {E' J' : S.Entry → Prop} (hN : ∀ op, N op → N' op)
    (hE : ∀ e, E e → E' e) (hJ : ∀ e, J e → J' e) {p : Prog S α} (hp : p.Bounded N E J) :
    p.Bounded N' E' J' := by
  induction p with
  | ret a => trivial
  | act op k ih => exact ⟨hN op hp.1, fun r => ih r (hp.2 r)⟩
  | spawn e k ih => exact ⟨hE e hp.1, ih hp.2⟩
  | jump e => exact hJ e hp

theorem Bounded.perform {op : S.Op} (h : N op) : (Prog.perform op).Bounded N E J :=
  ⟨h, fun _ => trivial⟩

theorem Bounded.when {c : Prop} [Decidable c] {p : Prog S Unit} (h : p.Bounded N E J) :
    (Prog.when c p).Bounded N E J := by
  unfold Prog.when
  split
  · exact h
  · trivial

end Prog

/-- The meaning of the operations over a memory `σ`. A choice `χ` is what a step gets from
outside: whether a call fails, and what it answers. -/
structure System (S : Sig) (σ χ ε : Type) where
  /-- What thread `t` does with an operation; `none` if it has to wait. -/
  perform : ℕ → (op : S.Op) → σ → χ → Option (S.Res op × σ)
  /-- The steps of the environment. -/
  env : σ → ε → Option σ
  /-- The programs that a call from outside can start. -/
  opens : σ → S.Entry → Bool
  /-- What is left of the memory when the process dies. -/
  crash : σ → σ
  code : S.Entry → Prog S Unit
  /-- What is written down when a thread, or a call from outside, starts a program as
  thread `u`. -/
  started : Option ℕ → S.Entry → ℕ → σ → σ := fun _ _ _ m => m

/-- A memory with the threads that run over it. -/
structure Config (S : Sig) (σ : Type) where
  mem : σ
  threads : ℕ → Option (Prog S Unit) := fun _ => none
  /-- The number of the next thread. -/
  next : ℕ := 0

/-- A step of a configuration. -/
inductive ThreadLabel (S : Sig) (χ ε : Type)
  /-- Thread `t` makes its next step. -/
  | run (t : ℕ) (c : χ)
  /-- A call from outside starts a thread. -/
  | start (e : S.Entry)
  | env (l : ε)
  | crash

namespace System

variable {S : Sig} {σ χ ε : Type} (M : System S σ χ ε)

/-- One step. -/
def step (s : Config S σ) : ThreadLabel S χ ε → Option (Config S σ)
  | .run t c =>
    match s.threads t with
    | some (.act op k) => (M.perform t op s.mem c).map fun p =>
        { s with mem := p.2, threads := Function.update s.threads t (some (k p.1)) }
    | some (.spawn e k) => some
        { s with
          mem := M.started (some t) e s.next s.mem
          threads := Function.update (Function.update s.threads t (some k)) s.next (some (M.code e))
          next := s.next + 1 }
    | some (.jump e) => some { s with threads := Function.update s.threads t (some (M.code e)) }
    | _ => none
  | .start e =>
    if M.opens s.mem e then some
      { s with
        mem := M.started none e s.next s.mem
        threads := Function.update s.threads s.next (some (M.code e))
        next := s.next + 1 }
    else none
  | .env l => (M.env s.mem l).map fun m => { s with mem := m }
  | .crash => some { s with mem := M.crash s.mem, threads := fun _ => none }

/-- How a step changes the memory. -/
inductive StepMem (s s' : Config S σ) : ThreadLabel S χ ε → Prop
  | act {t : ℕ} {c : χ} {op : S.Op} {k : S.Res op → Prog S Unit} {r : S.Res op}
      (hk : s.threads t = some (.act op k)) (hdo : M.perform t op s.mem c = some (r, s'.mem)) :
      StepMem s s' (.run t c)
  | spawn {t : ℕ} {c : χ} {e : S.Entry} {k : Prog S Unit} (hk : s.threads t = some (.spawn e k))
      (hmem : s'.mem = M.started (some t) e s.next s.mem) : StepMem s s' (.run t c)
  | start {e : S.Entry} (hopen : M.opens s.mem e = true)
      (hmem : s'.mem = M.started none e s.next s.mem) : StepMem s s' (.start e)
  | silent {l : ThreadLabel S χ ε} (hmem : s'.mem = s.mem) : StepMem s s' l
  | env {l : ε} (hdo : M.env s.mem l = some s'.mem) : StepMem s s' (.env l)
  | crash (hmem : s'.mem = M.crash s.mem) : StepMem s s' .crash

variable {M} in
theorem step_mem {s s' : Config S σ} {l : ThreadLabel S χ ε} (h : M.step s l = some s') :
    M.StepMem s s' l := by
  cases l with
  | run t c =>
    simp only [step] at h
    split at h
    · rename_i op k hk
      simp only [Option.map_eq_some_iff] at h
      obtain ⟨⟨r, m⟩, hdo, rfl⟩ := h
      exact .act hk hdo
    · rename_i e k hk
      cases h
      exact .spawn hk rfl
    · cases h; exact .silent rfl
    · cases h
  | start e =>
    simp only [step] at h
    split at h
    · rename_i hopen
      cases h
      exact .start hopen rfl
    · cases h
  | env l =>
    simp only [step, Option.map_eq_some_iff] at h
    obtain ⟨m, hdo, rfl⟩ := h
    exact .env hdo
  | crash => cases h; exact .crash rfl

variable {M} in
/-- What a thread can do stays within what its program can do, as long as the programs it may
continue as stay within it too. -/
theorem within_of_reach {ok : Config S σ → ThreadLabel S χ ε → Prop} {N : S.Op → Prop}
    {E : S.Entry → Prop} (hcode : ∀ e, E e → (M.code e).Within N E) {s₀ s : Config S σ} {t : ℕ}
    (h : Reach M.step ok s₀ s) (ht : t < s₀.next)
    (h₀ : ∀ p, s₀.threads t = some p → p.Within N E) :
    t < s.next ∧ ∀ p, s.threads t = some p → p.Within N E := by
  induction h with
  | refl => exact ⟨ht, h₀⟩
  | @tail s s' l _ _ hs ih =>
    obtain ⟨hlt, hp⟩ := ih
    cases l with
    | run u c =>
      simp only [step] at hs
      cases hu : s.threads u with
      | none => rw [hu] at hs; cases hs
      | some q =>
        rw [hu] at hs
        cases q with
        | ret a => cases hs
        | act op k =>
          simp only [Option.map_eq_some_iff] at hs
          obtain ⟨r, -, rfl⟩ := hs
          refine ⟨hlt, fun p hq => ?_⟩
          obtain ⟨rfl, rfl⟩ | ⟨-, hq⟩ := update_eq_some hq
          · exact (hp _ hu).2 r.1
          · exact hp p hq
        | spawn e k =>
          cases hs
          refine ⟨by simp only; omega, fun p hq => ?_⟩
          -- the new thread has a number of its own
          have hnext : t ≠ s.next := by omega
          simp only [Function.update_of_ne hnext] at hq
          obtain ⟨rfl, rfl⟩ | ⟨-, hq⟩ := update_eq_some hq
          · exact (hp _ hu).2
          · exact hp p hq
        | jump e =>
          cases hs
          refine ⟨hlt, fun p hq => ?_⟩
          obtain ⟨rfl, rfl⟩ | ⟨-, hq⟩ := update_eq_some hq
          · exact hcode e (hp _ hu)
          · exact hp p hq
    | start e =>
      simp only [step] at hs
      split at hs
      · cases hs
        have hnext : t ≠ s.next := by omega
        refine ⟨by simp only; omega, fun p hq => ?_⟩
        simp only [Function.update_of_ne hnext] at hq
        exact hp p hq
      · cases hs
    | env l =>
      simp only [step, Option.map_eq_some_iff] at hs
      obtain ⟨m, -, rfl⟩ := hs
      exact ⟨hlt, hp⟩
    | crash =>
      cases hs
      exact ⟨hlt, nofun⟩

/-- The operation that a thread is about to perform. -/
def pending (s : Config S σ) (t : ℕ) : Option S.Op :=
  match s.threads t with
  | some (.act op _) => some op
  | _ => none

theorem mem_pending {s : Config S σ} {t : ℕ} {op : S.Op} {k : S.Res op → Prog S Unit}
    (h : s.threads t = some (.act op k)) : op ∈ pending s t := by
  unfold pending
  rw [h]
  rfl

theorem exists_of_pending {s : Config S σ} {t : ℕ} {op : S.Op} (h : op ∈ pending s t) :
    ∃ k, s.threads t = some (.act op k) := by
  unfold pending at h
  split at h
  · rename_i k hk
    cases h
    exact ⟨k, hk⟩
  · cases h

end System

end AgentOps.Lib
