import Mathlib.Data.List.Infix

/-!
# Cutting a text at a separator

`strings.Cut`, and where a separator cannot occur. An occurrence that ends in the text appended to
`x ++ u` ends in one of the non-empty beginnings `t` of that text, and then one of the separator and
`u ++ t` is the end of the other: a question about `u` and `t` alone.
-/

namespace AgentOps.Lib

variable {α : Type*} [DecidableEq α]

/-- The text before and after the first occurrence of `sep`. -/
def cut (sep : List α) : List α → Option (List α × List α)
  | [] => if sep = [] then some ([], []) else none
  | c :: s =>
    if sep <+: c :: s then some ([], (c :: s).drop sep.length)
    else (cut sep s).map fun p => (c :: p.1, p.2)

theorem cut_of_prefix {sep : List α} (b : List α) : cut sep (sep ++ b) = some ([], b) := by
  cases hs : sep ++ b with
  | nil =>
    obtain ⟨hsep, hb⟩ := List.append_eq_nil_iff.mp hs
    rw [cut, if_pos hsep, hb]
  | cons c s =>
    rw [cut, if_pos (hs ▸ List.prefix_append sep b), ← hs, List.drop_left]

/-- The cut is at the separator that is written, if none ends before its last element. -/
theorem cut_append {sep a : List α} (b : List α) (h : ¬ sep <:+: a ++ sep.dropLast) :
    cut sep (a ++ sep ++ b) = some (a, b) := by
  induction a with
  | nil => exact cut_of_prefix b
  | cons c a ih =>
    have hrest : ¬ sep <:+: a ++ sep.dropLast := fun hin =>
      h (hin.trans (List.suffix_cons c _).isInfix)
    -- a separator at the front would lie before the last element of the written one
    have hfront : ¬ sep <+: c :: (a ++ sep ++ b) := by
      intro hpre
      apply h
      have hlen : sep.length ≤ (c :: a ++ sep.dropLast).length := by
        rw [List.length_append, List.length_cons, List.length_dropLast]
        omega
      have hwhole : c :: a ++ sep.dropLast <+: c :: (a ++ sep ++ b) := by
        rw [List.cons_append, List.append_assoc]
        apply (List.prefix_cons_inj c).mpr
        exact (List.prefix_append_right_inj a).mpr
          ((List.dropLast_prefix sep).trans (List.prefix_append sep b))
      exact (List.prefix_of_prefix_length_le hpre hwhole hlen).isInfix
    show cut sep (c :: (a ++ sep ++ b)) = _
    rw [cut, if_neg hfront, ih hrest]
    rfl

theorem cut_eq_none {sep s : List α} (h : ¬ sep <:+: s) : cut sep s = none := by
  induction s with
  | nil =>
    rw [cut, if_neg]
    rintro rfl
    exact h (List.infix_refl _)
  | cons c s ih =>
    have hrest : ¬ sep <:+: s := fun hin => h (hin.trans (List.suffix_cons c _).isInfix)
    rw [cut, if_neg fun hpre => h hpre.isInfix, ih hrest]
    rfl

/-- What is cut off is in front of the separator. -/
theorem cut_eq_some {sep s a b : List α} (h : cut sep s = some (a, b)) : s = a ++ sep ++ b := by
  induction s generalizing a with
  | nil =>
    rw [cut] at h
    split at h
    · next hsep =>
      obtain ⟨rfl, rfl⟩ := Prod.mk.inj (Option.some.inj h)
      rw [hsep]
      rfl
    · cases h
  | cons c s ih =>
    rw [cut] at h
    split at h
    · next hpre =>
      obtain ⟨rfl, rfl⟩ := Prod.mk.inj (Option.some.inj h)
      obtain ⟨rest, hrest⟩ := hpre
      rw [← hrest, List.drop_left, List.nil_append]
    · obtain ⟨p, hp, heq⟩ := Option.map_eq_some_iff.mp h
      obtain ⟨rfl, rfl⟩ := Prod.mk.inj heq
      rw [ih hp]
      rfl

omit [DecidableEq α] in
/-- Text that does not complete a separator after `u` brings none in. -/
theorem not_infix_append {sep x u tail : List α} (hx : ¬ sep <:+: x ++ u)
    (h : ∀ t ∈ tail.inits, t ≠ [] → ¬ u ++ t <:+ sep ∧ ¬ sep <:+ u ++ t) :
    ¬ sep <:+: x ++ u ++ tail := by
  induction tail using List.reverseRecOn with
  | nil => rwa [List.append_nil]
  | append_singleton tail c ih =>
    rw [← List.append_assoc]
    intro hin
    obtain hend | hin := List.infix_concat_iff.mp hin
    · have hwhole : u ++ (tail ++ [c]) <:+ x ++ u ++ tail ++ [c] := by
        rw [List.append_assoc x u, List.append_assoc x, List.append_assoc u]
        exact List.suffix_append x _
      have hlast := h (tail ++ [c]) ((List.mem_inits _ _).mpr (List.prefix_refl _))
        (List.concat_ne_nil c tail)
      rcases List.suffix_or_suffix_of_suffix hend hwhole with hs | hs
      · exact hlast.2 hs
      · exact hlast.1 hs
    · refine ih (fun t ht => h t ?_) hin
      exact (List.mem_inits _ _).mpr (((List.mem_inits _ _).mp ht).trans (List.prefix_append _ _))

omit [DecidableEq α] in
/-- Two ends that are not ends of each other do not end one text. -/
theorem not_suffix_append (x : List α) {s s' : List α} (h : ¬ s <:+ s') (h' : ¬ s' <:+ s) :
    ¬ s' <:+ x ++ s := fun hs' =>
  (List.suffix_or_suffix_of_suffix hs' (List.suffix_append x s)).elim h' h

end AgentOps.Lib
