import AgentOps.Lib.Bytes

/-!
# Lines of a text

A text is its lines with newlines between them, and what contains no newline lies within one of
them.
-/

namespace AgentOps.Lib

/-- A list that does not contain a separator lies on one side of it. -/
theorem infix_append_cons {α : Type} {c : α} {w a b : List α} (hc : c ∉ w)
    (h : w <:+: a ++ c :: b) : w <:+: a ∨ w <:+: b := by
  obtain ⟨pre, post, h⟩ := h
  rw [List.append_assoc] at h
  obtain ⟨as, ha, hb⟩ | ⟨bs, ha, hb⟩ := List.append_eq_append_iff.mp h
  · obtain ⟨cs, has, -⟩ | ⟨cs, hw, hcs⟩ := List.append_eq_append_iff.mp hb
    · exact .inl ⟨pre, cs, by rw [ha, has, List.append_assoc]⟩
    · cases cs with
      | nil =>
        rw [List.append_nil] at hw
        exact .inl ⟨pre, [], by rw [ha, hw, List.append_nil]⟩
      | cons x cs =>
        obtain rfl := (List.cons.inj hcs).1
        exact absurd (by rw [hw]; simp) hc
  · cases bs with
    | nil =>
      cases w with
      | nil => exact .inl (List.nil_infix)
      | cons x w =>
        obtain rfl := (List.cons.inj hb).1
        exact absurd (by simp) hc
    | cons x bs =>
      have hb : b = bs ++ (w ++ post) := (List.cons.inj hb).2
      exact .inr ⟨bs, post, by rw [hb, List.append_assoc]⟩

/-- The same of a list that stands at a given position. -/
theorem prefix_drop_append_cons {α : Type} {c : α} {w a b : List α} {i : ℕ} (hc : c ∉ w)
    (h : w <+: (a ++ c :: b).drop i) :
    w <+: a.drop i ∨ a.length < i ∧ w <+: b.drop (i - a.length - 1) := by
  by_cases hi : i ≤ a.length
  · rw [List.drop_append_of_le_length hi] at h
    obtain ⟨t, ht⟩ := h
    obtain ⟨as, ha, -⟩ | ⟨bs, hw', hbs⟩ := List.append_eq_append_iff.mp ht
    · exact .inl ⟨as, ha.symm⟩
    · cases bs with
      | nil => exact .inl ⟨[], by rw [hw', List.append_nil, List.append_nil]⟩
      | cons x bs =>
        obtain rfl := (List.cons.inj hbs).1
        exact absurd (by rw [hw']; simp) hc
  · refine .inr ⟨by omega, ?_⟩
    rw [List.drop_append, List.drop_of_length_le (by omega), List.nil_append] at h
    obtain ⟨j, hj⟩ : ∃ j, i - a.length = j + 1 := ⟨i - a.length - 1, by omega⟩
    rw [hj] at h ⊢
    exact h

theorem takeWhile_append_cons {α : Type} {p : α → Bool} {c : α} (hc : p c = false)
    (a b : List α) : (a ++ c :: b).takeWhile p = a.takeWhile p := by
  induction a with
  | nil => simp [hc]
  | cons x a ih =>
    rw [List.cons_append, List.takeWhile_cons, List.takeWhile_cons, ih]

theorem dropWhile_append_cons {α : Type} {p : α → Bool} {c : α} (hc : p c = false)
    (a b : List α) : (a ++ c :: b).dropWhile p = a.dropWhile p ++ c :: b := by
  induction a with
  | nil => simp [hc]
  | cons x a ih =>
    rw [List.cons_append, List.dropWhile_cons, List.dropWhile_cons, ih]
    split <;> rfl

/-- The lines of a text, without their newlines. -/
def lines (s : Bytes) : List Bytes := s.splitOn 0x0A

/-- The text with the given lines. -/
def unlines (ls : List Bytes) : Bytes := [0x0A].intercalate ls

theorem unlines_lines (s : Bytes) : unlines (lines s) = s := List.intercalate_splitOn 0x0A

theorem lines_unlines {ls : List Bytes} (h : ∀ l ∈ ls, 0x0A ∉ l) (hne : ls ≠ []) :
    lines (unlines ls) = ls :=
  List.splitOn_intercalate 0x0A h hne

theorem lines_append (a b : Bytes) : lines (a ++ 0x0A :: b) = lines a ++ lines b :=
  List.splitOnP_append_cons a b (by decide)

theorem lines_of_notMem {l : Bytes} (h : 0x0A ∉ l) : lines l = [l] := by
  have : lines (unlines [l]) = [l] := lines_unlines (by simpa using h) (by simp)
  simpa [unlines] using this

theorem lines_ne_nil (s : Bytes) : lines s ≠ [] := List.splitOnP_ne_nil _ _

theorem unlines_cons (l : Bytes) {ls : List Bytes} (h : ls ≠ []) :
    unlines (l :: ls) = l ++ 0x0A :: unlines ls := by
  cases ls with
  | nil => exact absurd rfl h
  | cons l' ls => simp [unlines, List.intercalate, List.intersperse]

/-- Induction on the lines of a text. -/
@[elab_as_elim]
theorem lines_induction {motive : Bytes → Prop} (last : ∀ l, 0x0A ∉ l → motive l)
    (line : ∀ l r, 0x0A ∉ l → motive r → motive (l ++ 0x0A :: r)) (s : Bytes) : motive s := by
  have hgen : ∀ n, ∀ s : Bytes, s.length ≤ n → motive s := by
    intro n
    induction n with
    | zero =>
      intro s hs
      rw [List.length_eq_zero_iff.mp (Nat.le_zero.mp hs)]
      exact last [] (by simp)
    | succ n ih =>
      intro s hs
      by_cases hmem : 0x0A ∈ s
      · obtain ⟨l, r, rfl, hl⟩ := List.eq_append_cons_of_mem hmem
        exact line l r hl (ih r (by simp at hs; omega))
      · exact last s hmem
  exact hgen s.length s (Nat.le_refl _)

theorem notMem_of_mem_lines {s l : Bytes} (h : l ∈ lines s) : 0x0A ∉ l := by
  induction s using lines_induction with
  | last s hs =>
    rw [lines_of_notMem hs, List.mem_singleton] at h
    rwa [h]
  | line s r hs ih =>
    rw [lines_append, lines_of_notMem hs] at h
    obtain h | h := List.mem_cons.mp h
    · rwa [h]
    · exact ih h

theorem infix_of_mem_lines {s l : Bytes} (h : l ∈ lines s) : l <:+: s := by
  induction s using lines_induction with
  | last s hs =>
    rw [lines_of_notMem hs, List.mem_singleton] at h
    rw [h]
  | line s r hs ih =>
    rw [lines_append, lines_of_notMem hs] at h
    obtain rfl | h := List.mem_cons.mp h
    · exact ⟨[], 0x0A :: r, rfl⟩
    · exact (ih h).trans ⟨s ++ [0x0A], [], by simp⟩

/-- A text that is put behind the start of a line. -/
theorem lines_append_of_notMem {a : Bytes} (ha : 0x0A ∉ a) (s : Bytes) :
    ∃ l ls, lines s = l :: ls ∧ lines (a ++ s) = (a ++ l) :: ls := by
  induction s using lines_induction with
  | last s hs =>
    exact ⟨s, [], lines_of_notMem hs, lines_of_notMem (by simp [ha, hs])⟩
  | line s r hs ih =>
    refine ⟨s, lines r, by rw [lines_append, lines_of_notMem hs]; rfl, ?_⟩
    rw [← List.append_assoc, lines_append, lines_of_notMem (by simp [ha, hs])]
    rfl

end AgentOps.Lib
