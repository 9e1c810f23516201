import Mathlib.Logic.Basic

/-!
# Transactions that may fail at any statement

A program of statements over a database `σ`. Each statement takes the next of a list of faults and
fails if it is `true`; a database that has come to the end of the list has no more of them.
A transaction runs a program and commits: if any statement or the commit fails, the database is
the one before.

`Ends` forgets the faults: it says what a program can return, and what it leaves. Each construct has
a rule for it.
-/

namespace AgentOps.Lib

/-- A program of statements that returns an `α`. -/
def Tx (σ ε α : Type) := σ → List Bool → Except ε (α × σ × List Bool)

namespace Tx

variable {σ ε α β : Type}

def ret (a : α) : Tx σ ε α := fun s faults => .ok (a, s, faults)

def bind (p : Tx σ ε α) (f : α → Tx σ ε β) : Tx σ ε β := fun s faults =>
  match p s faults with
  | .ok (a, s', faults') => f a s' faults'
  | .error e => .error e

instance : Monad (Tx σ ε) where
  pure := ret
  bind := bind

/-- The program gives up. -/
def fail (e : ε) : Tx σ ε α := fun _ _ => .error e

/-- One statement; `fault` is the error of one that does not run. -/
def stmt (fault : ε) (f : σ → Except ε (α × σ)) : Tx σ ε α := fun s faults =>
  if faults.head? = some true then .error fault
  else (f s).map fun r => (r.1, r.2, faults.tail)

/-- The program where the condition holds. -/
def when (c : Prop) [Decidable c] (p : Tx σ ε α) : Tx σ ε Unit :=
  if c then p.bind fun _ => ret () else ret ()

/-- Another error in place of the program's. -/
def mapError (g : ε → ε) (p : Tx σ ε α) : Tx σ ε α := fun s faults => (p s faults).mapError g

/-- The transaction: the program and the commit, or nothing. -/
def inTx (fault : ε) (p : Tx σ ε α) (s : σ) (faults : List Bool) : Except ε α × σ :=
  match p.bind (fun a => (stmt fault fun s => .ok ((), s)).bind fun _ => ret a) s faults with
  | .ok (a, s', _) => (.ok a, s')
  | .error e => (.error e, s)

/-- The program can return `a` and leave `s'`. -/
def Ends (p : Tx σ ε α) (s : σ) (a : α) (s' : σ) : Prop :=
  ∃ faults faults', p s faults = .ok (a, s', faults')

variable {p : Tx σ ε α} {f : α → Tx σ ε β} {s s' : σ} {a : α} {b : β}

theorem Ends.of_ret {x : α} (h : Ends (ret x : Tx σ ε α) s a s') : a = x ∧ s' = s := by
  obtain ⟨faults, faults', h⟩ := h
  obtain ⟨ha, hs⟩ := Prod.mk.inj (Except.ok.inj h)
  exact ⟨ha.symm, (Prod.mk.inj hs).1.symm⟩

theorem Ends.of_bind (h : Ends (p.bind f) s b s') :
    ∃ a t, Ends p s a t ∧ Ends (f a) t b s' := by
  obtain ⟨faults, faults', h⟩ := h
  unfold bind at h
  split at h
  · next a t faults'' hp => exact ⟨a, t, ⟨faults, faults'', hp⟩, faults'', faults', h⟩
  · nomatch h

theorem Ends.of_fail {e : ε} (h : Ends (fail e : Tx σ ε α) s a s') : False := by
  obtain ⟨faults, faults', h⟩ := h
  nomatch h

theorem Ends.of_stmt {fault : ε} {g : σ → Except ε (α × σ)} (h : Ends (stmt fault g) s a s') :
    g s = .ok (a, s') := by
  obtain ⟨faults, faults', h⟩ := h
  unfold stmt at h
  split at h
  · nomatch h
  · cases hg : g s with
    | error e =>
      rw [hg] at h
      nomatch h
    | ok r =>
      rw [hg] at h
      obtain ⟨rfl, hs⟩ := Prod.mk.inj (Except.ok.inj h)
      obtain ⟨rfl, -⟩ := Prod.mk.inj hs
      rfl

theorem Ends.of_when {c : Prop} [Decidable c] {u : Unit} (h : Ends (when c p) s u s') :
    c ∧ (∃ a, Ends p s a s') ∨ ¬ c ∧ s' = s := by
  unfold when at h
  split at h
  · next hc =>
    obtain ⟨a, t, hp, hret⟩ := h.of_bind
    obtain ⟨-, rfl⟩ := hret.of_ret
    exact .inl ⟨hc, a, hp⟩
  · next hc => exact .inr ⟨hc, h.of_ret.2⟩

theorem Ends.of_mapError {g : ε → ε} (h : Ends (p.mapError g) s a s') : Ends p s a s' := by
  obtain ⟨faults, faults', h⟩ := h
  unfold mapError at h
  cases hp : p s faults with
  | error e =>
    rw [hp] at h
    nomatch h
  | ok r =>
    rw [hp] at h
    exact ⟨faults, faults', hp.trans (congrArg Except.ok (Except.ok.inj h))⟩

/-- A transaction that succeeds has run its program. -/
theorem ends_of_inTx {fault : ε} {faults : List Bool}
    (h : inTx fault p s faults = (.ok a, s')) : Ends p s a s' := by
  unfold inTx at h
  split at h
  · next a' t faults' hrun =>
    obtain ⟨ha, hs⟩ := Prod.mk.inj h
    obtain rfl := Except.ok.inj ha
    subst hs
    obtain ⟨b, u, hp, hcommit⟩ := Ends.of_bind ⟨_, _, hrun⟩
    obtain ⟨x, v, hstmt, hret⟩ := hcommit.of_bind
    obtain ⟨rfl, rfl⟩ := hret.of_ret
    obtain ⟨-, rfl⟩ := Prod.mk.inj (Except.ok.inj hstmt.of_stmt)
    exact hp
  · nomatch (Prod.mk.inj h).1

/-- A transaction that fails changes nothing. -/
theorem eq_of_inTx_error {fault e : ε} {faults : List Bool}
    (h : inTx fault p s faults = (.error e, s')) : s' = s := by
  unfold inTx at h
  split at h
  · nomatch (Prod.mk.inj h).1
  · exact (Prod.mk.inj h).2.symm

end Tx

end AgentOps.Lib
