import Mathlib.Data.List.Basic
import Mathlib.Data.Nat.Notation

/-!
# Slices of a list that grows

`slice xs a b` are the elements of `xs` from place `a` on and before place `b`. A party that
passes a log on holds slices of it that meet: what it takes at one end and gives at the other
moves the ends by one, and the log grows past all of them.
-/

namespace AgentOps.Lib

variable {α : Type} {xs ys : List α} {x : α} {a b c : ℕ}

/-- The elements of a list from place `a` on and before place `b`. -/
def slice (xs : List α) (a b : ℕ) : List α := (xs.take b).drop a

theorem slice_self (xs : List α) (a : ℕ) : slice xs a a = [] := by
  unfold slice
  rw [List.drop_eq_nil_iff, List.length_take]
  omega

theorem slice_length (xs : List α) (a : ℕ) : slice xs a xs.length = xs.drop a := by
  unfold slice
  rw [List.take_length]

theorem length_slice (hb : b ≤ xs.length) : (slice xs a b).length = b - a := by
  unfold slice
  rw [List.length_drop, List.length_take, Nat.min_eq_left hb]

/-- What is appended to the list is past every slice that there was. -/
theorem slice_append_right (hb : b ≤ xs.length) : slice (xs ++ ys) a b = slice xs a b := by
  unfold slice
  rw [List.take_append_of_le_length hb]

/-- The slice gets longer at its end. -/
theorem slice_concat (hab : a ≤ b) (hx : xs[b]? = some x) :
    slice xs a (b + 1) = slice xs a b ++ [x] := by
  have hlt : b < xs.length := (List.getElem?_eq_some_iff.mp hx).1
  have hle : a ≤ (xs.take b).length := by rw [List.length_take]; omega
  unfold slice
  rw [List.take_add_one, hx, Option.toList_some, List.drop_append_of_le_length hle]

/-- The first element of a slice that is not empty. -/
theorem slice_cons (hab : a < b) (hx : xs[a]? = some x) :
    slice xs a b = x :: slice xs (a + 1) b := by
  have hlt : a < xs.length := (List.getElem?_eq_some_iff.mp hx).1
  have htake : (xs.take b)[a]? = some x := by rw [List.getElem?_take_of_lt hab, hx]
  obtain ⟨hlen, hget⟩ := List.getElem?_eq_some_iff.mp htake
  unfold slice
  rw [List.drop_eq_getElem_cons hlen, hget]

/-- What stands first in a slice is the element at its first place. -/
theorem slice_eq_cons (h : slice xs a b = x :: ys) :
    a < b ∧ xs[a]? = some x ∧ ys = slice xs (a + 1) b := by
  have hhead : (slice xs a b)[0]? = some x := by rw [h, List.getElem?_cons_zero]
  unfold slice at hhead
  rw [List.getElem?_drop, Nat.add_zero] at hhead
  have hab : a < b := by
    by_contra hge
    rw [List.getElem?_eq_none] at hhead
    · cases hhead
    · rw [List.length_take]
      omega
  rw [List.getElem?_take_of_lt hab] at hhead
  rw [slice_cons hab hhead] at h
  exact ⟨hab, hhead, (List.cons.inj h).2.symm⟩

end AgentOps.Lib
