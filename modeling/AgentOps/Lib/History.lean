import Mathlib.Data.List.Basic

/-!
# What holds of each entry of a log

A log grows at its end. A property of an entry and of what was there before it holds of every entry
of the log if it held of each when it was written.
-/

namespace AgentOps.Lib

variable {α : Type*}

/-- Each entry of the log is as `P` says, given what is before it. -/
def Each (P : List α → α → Prop) (log : List α) : Prop :=
  ∀ before e rest, log = before ++ e :: rest → P before e

theorem split_nil {before rest : List α} {e : α} : [] ≠ before ++ e :: rest :=
  (List.append_ne_nil_of_right_ne_nil before (List.cons_ne_nil e rest)).symm

/-- A split of a log with a last entry is before that entry or at it. -/
theorem split_concat {log before rest : List α} {x e : α} (h : log ++ [x] = before ++ e :: rest) :
    (before = log ∧ e = x ∧ rest = []) ∨ ∃ rest', rest = rest' ++ [x] ∧
      log = before ++ e :: rest' := by
  rcases List.eq_nil_or_concat rest with rfl | ⟨rest', last, rfl⟩
  · obtain ⟨hlog, hx⟩ := List.append_inj' h rfl
    exact .inl ⟨hlog.symm, (List.cons.inj hx).1.symm, rfl⟩
  · rw [List.concat_eq_append, ← List.cons_append, ← List.append_assoc] at h
    obtain ⟨hlog, hx⟩ := List.append_inj' h rfl
    right
    refine ⟨rest', ?_, hlog⟩
    rw [List.concat_eq_append, (List.cons.inj hx).1]

namespace Each

variable {P : List α → α → Prop} {log : List α} {x : α}

theorem nil : Each P [] := fun _ _ _ h => absurd h split_nil

theorem concat (h : Each P log) (hx : P log x) : Each P (log ++ [x]) := by
  intro before e rest hsplit
  rcases split_concat hsplit with ⟨rfl, rfl, -⟩ | ⟨rest', -, hlog⟩
  · exact hx
  · exact h before e rest' hlog

end Each

end AgentOps.Lib
