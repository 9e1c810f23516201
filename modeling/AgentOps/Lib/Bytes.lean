import Mathlib.Data.List.Infix
import Mathlib.Data.Nat.Notation

/-!
# Byte strings

A Go string is a list of bytes that usually, but not by its type, is UTF-8. Lengths and cuts
count bytes, and a cut that has to keep runes whole goes back to the start of a rune.
-/

namespace AgentOps.Lib

abbrev Bytes := List UInt8

/-- The encoding of a text. -/
def utf8 (s : String) : Bytes := s.toList.flatMap String.utf8EncodeChar

theorem utf8_append (s t : String) : utf8 (s ++ t) = utf8 s ++ utf8 t := by
  unfold utf8
  rw [String.toList_append, List.flatMap_append]

theorem utf8_ofList_replicate (n : ℕ) (c : Char) :
    utf8 (String.ofList (List.replicate n c)) =
      (List.replicate n (String.utf8EncodeChar c)).flatten := by
  unfold utf8
  rw [String.toList_ofList, List.flatMap_def, List.map_replicate]

/-- A long text is evaluated by its characters. -/
theorem utf8_chars {P : Bytes → Prop} {cs : List Char} (h : P (cs.flatMap String.utf8EncodeChar)) :
    P (utf8 (String.ofList cs)) := by
  unfold utf8
  rwa [String.toList_ofList]

/-- `utf8.RuneStart`. -/
def runeStart (b : UInt8) : Bool := b &&& 0xC0 != 0x80

/-- The last position at or before `n` where a rune starts. -/
def backUp (s : Bytes) : ℕ → ℕ
  | 0 => 0
  | n + 1 => if s[n + 1]?.any runeStart then n + 1 else backUp s n

theorem backUp_le (s : Bytes) (n : ℕ) : backUp s n ≤ n := by
  induction n with
  | zero => exact Nat.le_refl 0
  | succ n ih =>
    rw [backUp]
    split
    · exact Nat.le_refl _
    · omega

end AgentOps.Lib
