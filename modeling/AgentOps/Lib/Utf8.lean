import AgentOps.Lib.Bytes

/-!
# Texts that are UTF-8

A byte string is valid when it is the encoding of some characters. Only the first byte of an
encoding starts a rune, so a valid text can be cut in front of any byte that starts one, and
such a byte is never more than three bytes away.
-/

namespace AgentOps.Lib

variable {s t : Bytes} {n k : ℕ}

/-- `utf8.ValidString`. -/
def ValidUtf8 (s : Bytes) : Prop := ∃ cs : List Char, s = cs.flatMap String.utf8EncodeChar

theorem validUtf8_nil : ValidUtf8 [] := ⟨[], rfl⟩

theorem validUtf8_utf8 (s : String) : ValidUtf8 (utf8 s) := ⟨s.toList, rfl⟩

theorem ValidUtf8.append (hs : ValidUtf8 s) (ht : ValidUtf8 t) : ValidUtf8 (s ++ t) := by
  obtain ⟨cs, rfl⟩ := hs
  obtain ⟨ds, rfl⟩ := ht
  exact ⟨cs ++ ds, List.flatMap_append.symm⟩

theorem validUtf8_flatten {ss : List Bytes} (h : ∀ s ∈ ss, ValidUtf8 s) : ValidUtf8 ss.flatten := by
  induction ss with
  | nil => exact validUtf8_nil
  | cons s ss ih =>
    rw [List.flatten_cons]
    apply ValidUtf8.append
    · exact h s List.mem_cons_self
    · exact ih fun t ht => h t (List.mem_cons_of_mem _ ht)

/-! ## The encoding of a character -/

theorem runeStart_lead (hn : n ≤ 127 ∨ 192 ≤ n ∧ n < 256) : runeStart (UInt8.ofNat n) = true := by
  have h : ∀ k : Fin 256, (k : ℕ) ≤ 127 ∨ 192 ≤ (k : ℕ) → runeStart (UInt8.ofNat k) = true := by
    decide +kernel
  apply h ⟨n, by omega⟩
  show n ≤ 127 ∨ 192 ≤ n
  omega

theorem runeStart_tail (n : ℕ) : runeStart (UInt8.ofNat (n % 64 + 128)) = false := by
  have h : ∀ k : Fin 64, runeStart (UInt8.ofNat ((k : ℕ) + 128)) = false := by decide
  exact h ⟨n % 64, Nat.mod_lt _ (by omega)⟩

/-- The first byte of an encoding starts a rune and no other does; there are at most three
others, and none when the first byte is an ASCII character. -/
theorem utf8EncodeChar_shape (c : Char) :
    ∃ b tail, String.utf8EncodeChar c = b :: tail ∧ runeStart b = true ∧
      (∀ x ∈ tail, runeStart x = false) ∧ tail.length ≤ 3 ∧ (b < 0x80 → tail = []) := by
  have hlead {n : ℕ} (hn : 192 ≤ n ∧ n < 256) : ¬ UInt8.ofNat n < 0x80 := by
    rw [UInt8.lt_iff_toNat_lt, UInt8.toNat_ofNat']
    show ¬ n % 256 < 128
    omega
  have hnil : (∀ x ∈ ([] : Bytes), runeStart x = false) = True := by simp
  rw [String.utf8EncodeChar.eq_1]
  split
  · exact ⟨_, [], rfl, runeStart_lead (by omega), by simp, by simp, fun _ => rfl⟩
  · split
    · refine ⟨_, _, rfl, runeStart_lead (by omega), ?_, by simp,
        fun h => absurd h (hlead (by omega))⟩
      simp only [List.forall_mem_cons, runeStart_tail, hnil, and_self]
    · split
      · refine ⟨_, _, rfl, runeStart_lead (by omega), ?_, by simp,
          fun h => absurd h (hlead (by omega))⟩
        simp only [List.forall_mem_cons, runeStart_tail, hnil, and_self]
      · refine ⟨_, _, rfl, runeStart_lead (by omega), ?_, by simp,
          fun h => absurd h (hlead (by omega))⟩
        simp only [List.forall_mem_cons, runeStart_tail, hnil, and_self]

/-! ## Cutting -/

/-- A text goes on with a whole rune, or not at all. -/
def AtRune (s : Bytes) : Prop := ∀ b ∈ s.head?, runeStart b = true

/-- A valid text that is cut in front of a rune gives two valid texts. -/
theorem ValidUtf8.cut (h : ValidUtf8 (s ++ t)) (ht : AtRune t) : ValidUtf8 s ∧ ValidUtf8 t := by
  obtain ⟨cs, hcs⟩ := h
  induction cs generalizing s with
  | nil =>
    obtain ⟨rfl, rfl⟩ := List.append_eq_nil_iff.mp hcs
    exact ⟨validUtf8_nil, validUtf8_nil⟩
  | cons c cs ih =>
    rw [List.flatMap_cons] at hcs
    obtain ⟨a, ha, hrest⟩ | ⟨a, ha, hrest⟩ := List.append_eq_append_iff.mp hcs
    · -- the cut is inside the first rune, so it is at one of its ends
      obtain ⟨b, tail, hc, hb, htail, -, -⟩ := utf8EncodeChar_shape c
      cases s with
      | nil =>
        rw [List.nil_append] at ha
        refine ⟨validUtf8_nil, c :: cs, ?_⟩
        rw [List.flatMap_cons, ha]
        exact hrest
      | cons x s =>
        rw [hc, List.cons_append, List.cons.injEq] at ha
        cases a with
        | nil =>
          rw [List.append_nil] at ha
          rw [List.nil_append] at hrest
          refine ⟨⟨[c], ?_⟩, cs, hrest⟩
          rw [List.flatMap_singleton, hc, ha.1, ha.2]
        | cons y a =>
          have hy : runeStart y = true := ht y (by rw [hrest]; rfl)
          have hmem : y ∈ tail := by rw [ha.2]; simp
          rw [htail y hmem] at hy
          cases hy
    · obtain ⟨hs, ht⟩ := ih hrest.symm
      refine ⟨?_, ht⟩
      rw [ha]
      exact ValidUtf8.append ⟨[c], by rw [List.flatMap_singleton]⟩ hs

/-- Behind an ASCII character a valid text goes on validly. -/
theorem ValidUtf8.tail_of_ascii {b : UInt8} (h : ValidUtf8 (b :: s)) (hb : b < 0x80) :
    ValidUtf8 s := by
  obtain ⟨cs, hcs⟩ := h
  cases cs with
  | nil => cases hcs
  | cons c cs =>
    obtain ⟨b', tail, hc, -, -, -, hascii⟩ := utf8EncodeChar_shape c
    rw [List.flatMap_cons, hc, List.cons_append, List.cons.injEq] at hcs
    obtain ⟨rfl, rfl⟩ := hcs
    rw [hascii hb]
    exact ⟨cs, rfl⟩

theorem ValidUtf8.atRune (h : ValidUtf8 s) : AtRune s := by
  obtain ⟨cs, rfl⟩ := h
  intro b hb
  cases cs with
  | nil => cases hb
  | cons c cs =>
    obtain ⟨b', tail, hc, hstart, -, -, -⟩ := utf8EncodeChar_shape c
    rw [List.flatMap_cons, hc] at hb
    obtain rfl : b' = b := by simpa using hb
    exact hstart

/-- Among four bytes in a row of a valid text one starts a rune. -/
theorem ValidUtf8.runeStart_near (h : ValidUtf8 s) {i : ℕ} (hi : i + 3 < s.length) :
    ∃ j, i ≤ j ∧ j ≤ i + 3 ∧ s[j]?.any runeStart = true := by
  obtain ⟨cs, rfl⟩ := h
  induction cs generalizing i with
  | nil => simp at hi
  | cons c cs ih =>
    obtain ⟨b, tail, hc, hb, -, hlen, -⟩ := utf8EncodeChar_shape c
    have hsize : (String.utf8EncodeChar c).length = tail.length + 1 := by rw [hc]; rfl
    rw [List.flatMap_cons] at hi ⊢
    rw [List.length_append] at hi
    by_cases hin : i < (String.utf8EncodeChar c).length
    · cases hi0 : i with
      | zero => exact ⟨0, Nat.le_refl _, by omega, by rw [hc]; simpa using hb⟩
      | succ k =>
        -- the next rune starts before the four bytes are over
        cases cs with
        | nil =>
          rw [List.flatMap_nil, List.length_nil] at hi
          omega
        | cons d ds =>
          obtain ⟨b', tail', hd, hb', -⟩ := utf8EncodeChar_shape d
          refine ⟨(String.utf8EncodeChar c).length, by omega, by omega, ?_⟩
          rw [List.getElem?_append_right (Nat.le_refl _), Nat.sub_self, List.flatMap_cons, hd]
          simpa using hb'
    · obtain ⟨j, hle, hle', hj⟩ := ih (i := i - (String.utf8EncodeChar c).length) (by omega)
      refine ⟨j + (String.utf8EncodeChar c).length, by omega, by omega, ?_⟩
      rw [List.getElem?_append_right (by omega), Nat.add_sub_cancel]
      exact hj

/-! ## Backing up to the start of a rune -/

theorem le_backUp {j : ℕ} (hj : j ≤ n) (hstart : s[j]?.any runeStart = true) : j ≤ backUp s n := by
  induction n with
  | zero => omega
  | succ n ih =>
    rw [backUp]
    split
    · exact hj
    · rename_i hne
      apply ih
      by_contra hlt
      obtain rfl : j = n + 1 := by omega
      exact hne hstart

theorem runeStart_backUp (h : 0 < backUp s n) : s[backUp s n]?.any runeStart = true := by
  induction n with
  | zero => exact absurd h (by rw [backUp]; omega)
  | succ n ih =>
    rw [backUp] at h ⊢
    split
    · assumption
    · rename_i hne
      rw [if_neg hne] at h
      exact ih h

theorem ValidUtf8.cut_backUp (h : ValidUtf8 s) (hpos : 0 < backUp s n) :
    ValidUtf8 (s.take (Lib.backUp s n)) ∧ ValidUtf8 (s.drop (Lib.backUp s n)) := by
  have hstart := runeStart_backUp hpos
  rw [← List.take_append_drop (Lib.backUp s n) s] at h
  apply h.cut
  intro b hb
  rw [List.head?_drop] at hb
  rw [hb] at hstart
  exact hstart

/-- In a valid text there is a rune to back up to, and the text can be cut there. -/
theorem ValidUtf8.backUp (h : ValidUtf8 s) (hn : 4 ≤ n) (hlen : n < s.length) :
    0 < backUp s n ∧ ValidUtf8 (s.take (Lib.backUp s n)) ∧ ValidUtf8 (s.drop (Lib.backUp s n)) := by
  obtain ⟨j, hle, hle', hj⟩ := h.runeStart_near (i := n - 3) (by omega)
  have hpos : 0 < Lib.backUp s n := by
    have := le_backUp (n := n) (by omega) hj
    omega
  exact ⟨hpos, h.cut_backUp hpos⟩

/-! ## The size of runes -/

/-- No rune of a text has more than `k` bytes: of `k` bytes in a row one starts a rune. -/
def RunesWithin (k : ℕ) (s : Bytes) : Prop :=
  ∀ i, i + k ≤ s.length → ∃ j, i ≤ j ∧ j < i + k ∧ s[j]?.any runeStart = true

theorem ValidUtf8.runesWithin (h : ValidUtf8 s) (hk : 4 ≤ k) : RunesWithin k s := by
  intro i hi
  obtain ⟨j, hle, hle', hj⟩ := h.runeStart_near (i := i) (by omega)
  exact ⟨j, hle, by omega, hj⟩

theorem ValidUtf8.runeStart_zero (h : ValidUtf8 s) (hs : 0 < s.length) :
    s[0]?.any runeStart = true := by
  cases s with
  | nil => cases hs
  | cons b s => exact h.atRune b rfl

theorem ValidUtf8.runesWithin_of_le (h : ValidUtf8 s) (hk : 1 ≤ k) (hlen : s.length ≤ k) :
    RunesWithin k s :=
  fun i hi => ⟨0, by omega, by omega, h.runeStart_zero (by omega)⟩

/-- The runes in front of a cut are no longer than the cut. -/
theorem ValidUtf8.runesWithin_drop (h : ValidUtf8 s) {c : ℕ} (hc : 0 < c) (hk : c ≤ k)
    (hstart : s[c]?.any runeStart = true) : RunesWithin k (s.drop c) ↔ RunesWithin k s := by
  constructor
  · intro hdrop i hi
    by_cases hic : c ≤ i
    · obtain ⟨j, hle, hlt, hj⟩ := hdrop (i - c) (by rw [List.length_drop]; omega)
      rw [List.getElem?_drop] at hj
      exact ⟨c + j, by omega, by omega, hj⟩
    · cases i with
      | zero => exact ⟨0, by omega, by omega, h.runeStart_zero (by omega)⟩
      | succ i => exact ⟨c, by omega, by omega, hstart⟩
  · intro hruns i hi
    rw [List.length_drop] at hi
    obtain ⟨j, hle, hlt, hj⟩ := hruns (c + i) (by omega)
    refine ⟨j - c, by omega, by omega, ?_⟩
    rwa [List.getElem?_drop, Nat.add_sub_cancel' (by omega)]

/-- A line end is a rune of its own. -/
theorem validUtf8_line : ValidUtf8 (s ++ 0x0A :: t) ↔ ValidUtf8 s ∧ ValidUtf8 t := by
  constructor
  · intro h
    obtain ⟨hs, ht⟩ := h.cut (t := 0x0A :: t) fun b hb => by
      obtain rfl := Option.some.inj hb
      decide
    exact ⟨hs, ht.tail_of_ascii (by decide)⟩
  · intro h
    rw [← List.singleton_append]
    exact h.1.append ((validUtf8_utf8 "\n").append h.2)

end AgentOps.Lib
