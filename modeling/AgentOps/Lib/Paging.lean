import Mathlib.Data.List.Nodup

/-!
# Reading a growing log by pages

The entries of a log have rising numbers. A read asks for the entries after a number and gets the
first ones of those that are there. Each read may see more of the log than the one before, and a
page may have any size.
-/

namespace AgentOps.Lib

variable {α : Type*} (seq : α → ℕ)

/-- What the reads get: how much of the log is there at each, and how long its page may be. -/
structure Pager where
  visible : ℕ → ℕ
  size : ℕ → ℕ
  mono : ∀ i, visible i ≤ visible (i + 1)
  pos : ∀ i, 0 < size i

/-- The page of the read `i` after the number `x`. -/
def Pager.page (g : Pager) (log : List α) (i x : ℕ) : List α :=
  ((log.take (g.visible i)).filter fun e => x < seq e).take (g.size i)

/-- The numbers rise and are positive. -/
structure Numbered (log : List α) : Prop where
  rising : log.Pairwise fun a b => seq a < seq b
  pos : ∀ e ∈ log, 0 < seq e

/-- The log is cut after the number `x`. -/
structure CutAt (log : List α) (x : ℕ) (done rest : List α) : Prop where
  eq : log = done ++ rest
  le : ∀ e ∈ done, seq e ≤ x
  lt : ∀ e ∈ rest, x < seq e

variable {seq} {log done rest : List α} {x : ℕ}

theorem Numbered.inj (h : Numbered seq log) {a b : α} (ha : a ∈ log) (hb : b ∈ log)
    (heq : seq a = seq b) : a = b :=
  List.inj_on_of_nodup_map (List.pairwise_map.mpr (h.rising.imp Nat.ne_of_lt)) ha hb heq

namespace CutAt

theorem zero (h : Numbered seq log) : CutAt seq log 0 [] log :=
  ⟨rfl, List.forall_mem_nil _, h.pos⟩

/-- The cut goes on to the next entry. -/
theorem next (h : Numbered seq log) {e : α} (hc : CutAt seq log x done (e :: rest)) :
    CutAt seq log (seq e) (done ++ [e]) rest := by
  have hrest := (List.pairwise_cons.mp (List.pairwise_append.mp (hc.eq ▸ h.rising)).2.1).1
  refine ⟨?_, ?_, hrest⟩
  · rw [List.append_assoc, hc.eq]
    rfl
  · intro e' he'
    rcases List.mem_append.mp he' with he' | he'
    · exact Nat.le_of_lt (Nat.lt_of_le_of_lt (hc.le e' he') (hc.lt e List.mem_cons_self))
    · exact Nat.le_of_eq (congrArg seq (List.mem_singleton.mp he'))

/-- A log is cut after any number. -/
theorem exists_done (h : log.Pairwise fun a b => seq a < seq b) (x : ℕ) :
    ∃ done, CutAt seq log x done (log.filter fun e => x < seq e) := by
  induction log with
  | nil => exact ⟨[], rfl, List.forall_mem_nil _, List.forall_mem_nil _⟩
  | cons e log ih =>
    obtain ⟨hfirst, hlog⟩ := List.pairwise_cons.mp h
    by_cases hle : seq e ≤ x
    · obtain ⟨done, hc⟩ := ih hlog
      refine ⟨e :: done, ?_, List.forall_mem_cons.mpr ⟨hle, hc.le⟩, ?_⟩
      · rw [List.filter_cons_of_neg (by simpa using hle), List.cons_append, ← hc.eq]
      · rw [List.filter_cons_of_neg (by simpa using hle)]
        exact hc.lt
    · -- the numbers rise, so that everything is after `x`
      have hall : ∀ e' ∈ e :: log, x < seq e' := by
        intro e' he'
        rcases List.mem_cons.mp he' with rfl | he'
        · omega
        · have := hfirst e' he'
          omega
      refine ⟨[], ?_, List.forall_mem_nil _, ?_⟩
      · rw [List.nil_append, List.filter_eq_self.mpr fun e' he' => decide_eq_true (hall e' he')]
      · exact fun e' he' => hall e' (List.mem_of_mem_filter he')

/-- What is after the number in a part of the log that has the first part of the cut. -/
theorem filter_take (hc : CutAt seq log x done rest) {v : ℕ} (hv : done.length ≤ v) :
    ((log.take v).filter fun e => x < seq e) = rest.take (v - done.length) := by
  have hdone : (done.filter fun e => x < seq e) = [] := by
    rw [List.filter_eq_nil_iff]
    intro e he
    simpa using hc.le e he
  have hrest : ((rest.take (v - done.length)).filter fun e => x < seq e) =
      rest.take (v - done.length) := by
    rw [List.filter_eq_self]
    intro e he
    exact decide_eq_true (hc.lt e (List.mem_of_mem_take he))
  rw [hc.eq, List.take_append, List.take_of_length_le hv, List.filter_append, hdone, hrest,
    List.nil_append]

theorem page_eq (hc : CutAt seq log x done rest) (g : Pager) {i : ℕ}
    (hv : done.length ≤ g.visible i) :
    g.page seq log i x = (rest.take (g.visible i - done.length)).take (g.size i) := by
  rw [Pager.page, hc.filter_take hv]

end CutAt

end AgentOps.Lib
