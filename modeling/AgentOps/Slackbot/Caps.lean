import AgentOps.Slackbot.Transcript
import AgentOps.Lib.Utf8
import Mathlib.Data.List.Chain
import Mathlib.Data.List.Forall2
import Mathlib.Algebra.BigOperators.Group.List.Basic

/-!
# What the caps keep

`capEntries` keeps the longest end of a list of messages that is within both caps, or a cut of
the last message when that alone is too long, and then merges neighbours of one role.
-/

namespace AgentOps.Slackbot

open AgentOps.Lib

variable {msgs kept : List Entry}

/-! ## The messages that are kept -/

/-- The bytes of text in some messages. -/
def textBytes (msgs : List Entry) : ℕ := (msgs.map fun m => m.text.length).sum

theorem textBytes_append (msgs msgs' : List Entry) :
    textBytes (msgs ++ msgs') = textBytes msgs + textBytes msgs' := by
  unfold textBytes
  rw [List.map_append, List.sum_append]

theorem textBytes_cons (m : Entry) (msgs : List Entry) :
    textBytes (m :: msgs) = m.text.length + textBytes msgs := by
  unfold textBytes
  rw [List.map_cons, List.sum_cons]

theorem textBytes_le_of_suffix {msgs' : List Entry} (h : msgs <:+ msgs') :
    textBytes msgs ≤ textBytes msgs' := by
  obtain ⟨front, rfl⟩ := h
  rw [textBytes_append]
  omega

/-- Some messages are within both caps. -/
def WithinCaps (msgs : List Entry) : Prop :=
  msgs.length ≤ transcriptMaxMessages ∧ textBytes msgs ≤ transcriptMaxChars

/-- The longest end of a list of messages that is within both caps. -/
structure Newest (msgs kept : List Entry) : Prop where
  suffix : kept <:+ msgs
  within : WithinCaps kept
  longest : ∀ other, other <:+ msgs → WithinCaps other → other.length ≤ kept.length

/-- A position in front of a rune of a text. -/
def RuneBoundary (text : Bytes) (p : ℕ) : Prop := p = 0 ∨ AtRune (text.drop p)

/-- The longest start of a text that has at most `limit` bytes and ends in front of a rune. -/
structure LongestCut (text : Bytes) (limit : ℕ) (cut : Bytes) : Prop where
  start : cut <+: text
  within : cut.length ≤ limit
  boundary : RuneBoundary text cut.length
  longest : ∀ p ≤ limit, RuneBoundary text p → p ≤ cut.length

/-- What the caps leave of a list of messages. -/
inductive Capped (msgs : List Entry) : List Entry → Prop
  | newest {kept : List Entry} :
      (∀ m ∈ msgs.getLast?, m.text.length ≤ transcriptMaxChars) → Newest msgs kept →
      Capped msgs kept
  | cut {m : Entry} {cut : Bytes} :
      msgs.getLast? = some m → transcriptMaxChars < m.text.length →
      LongestCut m.text transcriptMaxChars cut →
      Capped msgs [{ m with text := cut ++ utf8 "…" }]

theorem atRune_drop_iff {text : Bytes} {p : ℕ} (hp : p < text.length) :
    AtRune (text.drop p) ↔ text[p]?.any runeStart = true := by
  unfold AtRune
  rw [List.head?_drop, List.getElem?_eq_getElem hp]
  simp

theorem cutBytes_longest {text : Bytes} {limit : ℕ} (h : limit < text.length) :
    LongestCut text limit (cutBytes text limit) := by
  have hle := backUp_le text limit
  have hcut : cutBytes text limit = text.take (backUp text limit) := by
    rw [cutBytes, if_neg (by omega)]
  have hlen : (cutBytes text limit).length = backUp text limit := by
    rw [hcut, List.length_take]
    omega
  constructor
  · rw [hcut]
    exact List.take_prefix _ _
  · omega
  · rw [hlen]
    by_cases hzero : backUp text limit = 0
    · exact .inl hzero
    · right
      rw [atRune_drop_iff (by omega)]
      exact runeStart_backUp (by omega)
  · intro p hp hbound
    rw [hlen]
    obtain rfl | hrune := hbound
    · omega
    · rw [atRune_drop_iff (by omega)] at hrune
      exact le_backUp hp hrune

theorem WithinCaps.of_suffix {msgs' : List Entry} (hs : msgs <:+ msgs') (h : WithinCaps msgs') :
    WithinCaps msgs := by
  constructor
  · exact hs.length_le.trans h.1
  · exact (textBytes_le_of_suffix hs).trans h.2

/-- An end of the list is the longest one when one message more is not within the caps. -/
theorem newest_drop_succ {k : ℕ} (hwithin : WithinCaps (msgs.drop (k + 1)))
    (hnext : ¬ WithinCaps (msgs.drop k)) : Newest msgs (msgs.drop (k + 1)) := by
  constructor
  · exact List.drop_suffix _ _
  · exact hwithin
  · intro other hs hother
    by_contra hlt
    rw [List.length_drop] at hlt
    apply hnext
    apply hother.of_suffix
    apply List.suffix_of_suffix_length_le (List.drop_suffix k msgs) hs
    rw [List.length_drop]
    omega

theorem newest_self (h : WithinCaps msgs) : Newest msgs msgs :=
  ⟨List.suffix_refl _, h, fun _ hs _ => hs.length_le⟩

/-- The last message of an end that has few bytes is short. -/
theorem last_short (hs : kept <:+ msgs) (hne : kept ≠ [] ∨ msgs = [])
    (hle : textBytes kept ≤ transcriptMaxChars) :
    ∀ m ∈ msgs.getLast?, m.text.length ≤ transcriptMaxChars := by
  intro m hm
  obtain hne | rfl := hne
  · obtain ⟨front, rfl⟩ := hs
    rw [List.getLast?_append_of_ne_nil _ hne] at hm
    obtain ⟨init, rfl⟩ := List.getLast?_eq_some_iff.mp hm
    rw [textBytes_append, textBytes_cons] at hle
    omega
  · cases hm

/-- The three ways out of the loop: all messages fit, the ones behind `k` do and with `k` they
do not, or the last one alone does not. -/
theorem capFrom_cases (msgs : List Entry) (i : ℕ) (hi : i ≤ msgs.length)
    (hchars : textBytes (msgs.drop i) ≤ transcriptMaxChars) :
    textBytes msgs ≤ transcriptMaxChars ∧
        capFrom msgs i (textBytes (msgs.drop i)) = (msgs, false) ∨
      (∃ k, k + 1 < msgs.length ∧ textBytes (msgs.drop (k + 1)) ≤ transcriptMaxChars ∧
        transcriptMaxChars < textBytes (msgs.drop k) ∧
        capFrom msgs i (textBytes (msgs.drop i)) = (msgs.drop (k + 1), true)) ∨
      ∃ m, msgs.getLast? = some m ∧ transcriptMaxChars < m.text.length ∧
        capFrom msgs i (textBytes (msgs.drop i)) =
          ([{ m with text := cutBytes m.text transcriptMaxChars ++ utf8 "…" }], true) := by
  induction i with
  | zero => exact .inl ⟨hchars, rfl⟩
  | succ i ih =>
    have hget : msgs[i]? = some msgs[i] := List.getElem?_eq_getElem hi
    have hdrop : textBytes (msgs.drop i) = textBytes (msgs.drop (i + 1)) + msgs[i].text.length := by
      rw [List.drop_eq_getElem_cons hi, textBytes_cons]
      omega
    rw [capFrom, hget]
    simp only [← hdrop]
    split
    · rename_i hle
      exact ih (by omega) hle
    · rename_i hgt
      right
      split
      · rename_i hlt
        exact .inl ⟨i, hlt, hchars, by omega, rfl⟩
      · -- the loop is at the last message
        rename_i hend
        right
        have hlast : msgs.length = i + 1 := by omega
        refine ⟨msgs[i], ?_, ?_, rfl⟩
        · rw [List.getLast?_eq_getElem?, hlast]
          exact hget
        · rw [List.drop_of_length_le (by omega : msgs.length ≤ i + 1)] at hdrop
          have hnil : textBytes [] = 0 := rfl
          omega

/-- The first cap alone leaves the last messages, and some message if there is one. -/
theorem drop_first_cap {n : ℕ} (hn : n = msgs.length - transcriptMaxMessages) :
    (msgs.drop n).length ≤ transcriptMaxMessages ∧ (msgs.drop n ≠ [] ∨ msgs = []) := by
  have hpos : 0 < transcriptMaxMessages := by decide
  have hlen : (msgs.drop n).length = msgs.length - n := List.length_drop
  constructor
  · omega
  · cases msgs with
    | nil => exact .inr rfl
    | cons m msgs =>
      left
      rw [← List.length_pos_iff, hlen]
      rw [List.length_cons] at hn ⊢
      omega

theorem newest_first_cap {n : ℕ} (hn : n = msgs.length - transcriptMaxMessages)
    (hle : textBytes (msgs.drop n) ≤ transcriptMaxChars) : Newest msgs (msgs.drop n) := by
  have hwithin : WithinCaps (msgs.drop n) := ⟨(drop_first_cap hn).1, hle⟩
  cases n with
  | zero =>
    rw [List.drop_zero] at hwithin ⊢
    exact newest_self hwithin
  | succ k =>
    apply newest_drop_succ hwithin
    intro hnext
    have hlen := hnext.1
    rw [List.length_drop] at hlen
    omega

/-- The messages that the caps leave, before they are merged, and whether they took any away. -/
theorem capEntries_capped (msgs : List Entry) :
    ∃ kept, Capped msgs kept ∧ (capEntries msgs).1 = mergeRuns kept ∧
      ((capEntries msgs).2 = true ↔ kept.length < msgs.length ∨
        ∃ m, msgs.getLast? = some m ∧ transcriptMaxChars < m.text.length) := by
  obtain ⟨n, hn⟩ : ∃ n, n = msgs.length - transcriptMaxMessages := ⟨_, rfl⟩
  have hlen : (msgs.drop n).length = msgs.length - n := List.length_drop
  have hres : capEntries msgs = (mergeRuns (capFrom (msgs.drop n) (msgs.drop n).length 0).1,
      decide (transcriptMaxMessages < msgs.length) ||
        (capFrom (msgs.drop n) (msgs.drop n).length 0).2) := by
    rw [hn]
    rfl
  have hzero : textBytes ((msgs.drop n).drop (msgs.drop n).length) = 0 := by
    rw [List.drop_length]
    rfl
  have hcases := capFrom_cases (msgs.drop n) _ (Nat.le_refl _) (by omega)
  rw [hzero] at hcases
  obtain ⟨hsmall, hne⟩ := drop_first_cap hn
  obtain ⟨hle, heq⟩ | ⟨k, hk, hle, hgt, heq⟩ | ⟨m, hm, hgt, heq⟩ := hcases
  · have hlast := last_short (List.drop_suffix n msgs) hne hle
    refine ⟨msgs.drop n, .newest hlast (newest_first_cap hn hle), by rw [hres, heq], ?_⟩
    rw [hres, heq, Bool.or_false, decide_eq_true_iff]
    constructor
    · exact fun hlt => .inl (by omega)
    · rintro (hlt | ⟨m, hm, hlt⟩)
      · omega
      · have := hlast m hm
        omega
  · rw [List.drop_drop] at hle hgt heq
    have hend : msgs.drop (n + (k + 1)) ≠ [] := by
      rw [← List.length_pos_iff, List.length_drop]
      omega
    have hlast := last_short (List.drop_suffix _ msgs) (.inl hend) hle
    refine ⟨msgs.drop (n + (k + 1)), .newest hlast ?_, by rw [hres, heq], ?_⟩
    · apply newest_drop_succ (k := n + k)
      · constructor
        · rw [List.length_drop]
          omega
        · exact hle
      · intro hnext
        have := hnext.2
        omega
    · rw [hres, heq, List.length_drop]
      simp only [Bool.or_true, true_iff]
      left
      omega
  · have hm' : msgs.getLast? = some m := by
      obtain ⟨init, hinit⟩ := List.getLast?_eq_some_iff.mp hm
      rw [← List.take_append_drop n msgs, hinit, ← List.append_assoc]
      exact List.getLast?_concat
    refine ⟨_, .cut hm' hgt (cutBytes_longest hgt), by rw [hres, heq], ?_⟩
    rw [hres, heq]
    simp only [Bool.or_true, true_iff]
    exact .inr ⟨m, hm', hgt⟩

/-! ## The merge -/

/-- An entry stands for a run of messages: one role, the texts with an empty line between
them, and the counts added up. -/
structure StandsFor (run : List Entry) (e : Entry) : Prop where
  nonempty : run ≠ []
  role : ∀ m ∈ run, m.role = e.role
  text : e.text = (utf8 "\n\n").intercalate (run.map Entry.text)
  msgs : e.msgs = (run.map Entry.msgs).sum

theorem StandsFor.single (m : Entry) : StandsFor [m] m := by
  constructor
  · exact List.cons_ne_nil _ _
  · simp
  · simp [List.intercalate]
  · simp

theorem intercalate_concat (sep : Bytes) {texts : List Bytes} (h : texts ≠ []) (text : Bytes) :
    sep.intercalate (texts ++ [text]) = sep.intercalate texts ++ sep ++ text := by
  induction texts with
  | nil => exact absurd rfl h
  | cons t texts ih =>
    cases texts with
    | nil => simp [List.intercalate]
    | cons t' texts =>
      have htail := ih (List.cons_ne_nil _ _)
      unfold List.intercalate at htail ⊢
      simp only [List.cons_append, List.intersperse_cons_cons, List.flatten_cons,
        List.append_assoc] at htail ⊢
      rw [htail]

theorem StandsFor.snoc {run : List Entry} {last m : Entry} (h : StandsFor run last)
    (hrole : last.role = m.role) :
    StandsFor (run ++ [m])
      { last with text := last.text ++ utf8 "\n\n" ++ m.text, msgs := last.msgs + m.msgs } := by
  constructor
  · simp
  · intro x hx
    obtain hx | hx := List.mem_append.mp hx
    · exact h.role x hx
    · rw [List.mem_singleton] at hx
      rw [hx]
      exact hrole.symm
  · rw [List.map_append, List.map_singleton, intercalate_concat, ← h.text]
    exact fun hnil => h.nonempty (List.map_eq_nil_iff.mp hnil)
  · rw [List.map_append, List.sum_append, ← h.msgs]
    simp

theorem mergeRuns_concat (msgs : List Entry) (m : Entry) :
    mergeRuns (msgs ++ [m]) = match (mergeRuns msgs).getLast? with
      | some last =>
        if last.role = m.role then
          (mergeRuns msgs).dropLast ++ [{ last with
            text := last.text ++ utf8 "\n\n" ++ m.text, msgs := last.msgs + m.msgs }]
        else mergeRuns msgs ++ [m]
      | none => mergeRuns msgs ++ [m] := by
  unfold mergeRuns
  rw [List.foldl_append]
  rfl

/-- The merged entries stand for runs of the messages, in order, and no two neighbours have one
role. -/
structure Merged (msgs out : List Entry) : Prop where
  runs : ∃ runs : List (List Entry), msgs = runs.flatten ∧ List.Forall₂ StandsFor runs out
  apart : out.IsChain fun e e' => e.role ≠ e'.role

theorem forall₂_concat {α β : Type} {R : α → β → Prop} {xs : List α} {ys : List β} {y : β}
    (h : List.Forall₂ R xs (ys ++ [y])) :
    ∃ xs' x, xs = xs' ++ [x] ∧ List.Forall₂ R xs' ys ∧ R x y := by
  induction ys generalizing xs with
  | nil =>
    obtain ⟨x, _, hx, htail, rfl⟩ := List.forall₂_cons_right_iff.mp h
    cases htail
    exact ⟨[], x, rfl, .nil, hx⟩
  | cons y' ys ih =>
    obtain ⟨x, _, hx, htail, rfl⟩ := List.forall₂_cons_right_iff.mp h
    obtain ⟨xs', x', rfl, hinit, hlast⟩ := ih htail
    exact ⟨x :: xs', x', rfl, .cons hx hinit, hlast⟩

theorem mergeRuns_merged (msgs : List Entry) : Merged msgs (mergeRuns msgs) := by
  induction msgs using List.reverseRecOn with
  | nil => exact ⟨⟨[], rfl, .nil⟩, .nil⟩
  | append_singleton msgs m ih =>
    obtain ⟨⟨runs, hflat, hfor⟩, hchain⟩ := ih
    -- a message that starts a run of its own
    have halone (hrole : ∀ last ∈ (mergeRuns msgs).getLast?, last.role ≠ m.role) :
        Merged (msgs ++ [m]) (mergeRuns msgs ++ [m]) := by
      constructor
      · refine ⟨runs ++ [[m]], ?_, List.rel_append hfor (.cons (.single m) .nil)⟩
        rw [List.flatten_append, ← hflat]
        rfl
      · apply List.IsChain.append hchain (.singleton m)
        intro last hlast x hx
        obtain rfl : m = x := by simpa using hx
        exact hrole last hlast
    rw [mergeRuns_concat]
    cases hlast : (mergeRuns msgs).getLast? with
    | none =>
      apply halone
      rw [hlast]
      nofun
    | some last =>
      simp only
      split
      · rename_i hrole
        obtain ⟨init, hinit⟩ := List.getLast?_eq_some_iff.mp hlast
        rw [hinit] at hfor hchain ⊢
        obtain ⟨runs', run, rfl, hruns, hrun⟩ := forall₂_concat hfor
        rw [List.dropLast_concat]
        constructor
        · refine ⟨runs' ++ [run ++ [m]], ?_, List.rel_append hruns (.cons (hrun.snoc hrole) .nil)⟩
          rw [hflat]
          simp
        · rw [List.isChain_append] at hchain ⊢
          refine ⟨hchain.1, .singleton _, ?_⟩
          intro x hx y hy
          obtain rfl := Option.mem_some_iff.mp hy
          exact hchain.2.2 x hx last rfl
      · rename_i hrole
        apply halone
        rw [hlast]
        intro x hx
        obtain rfl := Option.mem_some_iff.mp hx
        exact hrole

theorem Merged.carriedMessages_eq {out : List Entry} (h : Merged msgs out) :
    carriedMessages out = carriedMessages msgs := by
  obtain ⟨runs, rfl, hfor⟩ := h.runs
  clear h
  unfold carriedMessages
  induction hfor with
  | nil => rfl
  | cons hrun _ ih =>
    rw [List.map_cons, List.sum_cons, ih, hrun.msgs, List.flatten_cons, List.map_append,
      List.sum_append]

theorem carriedMessages_ones (h : ∀ m ∈ msgs, m.msgs = 1) : carriedMessages msgs = msgs.length := by
  unfold carriedMessages
  rw [List.map_congr_left h, List.map_const', List.sum_replicate]
  simp

/-- The messages that the caps leave count as those they came from. -/
theorem Capped.ones (h : Capped msgs kept) (hones : ∀ m ∈ msgs, m.msgs = 1) :
    ∀ m ∈ kept, m.msgs = 1 := by
  intro m hm
  cases h with
  | newest _ hnew => exact hones m (hnew.suffix.subset hm)
  | @cut last _ hlast _ _ =>
    rw [List.mem_singleton] at hm
    rw [hm]
    exact hones last (List.mem_of_getLast? hlast)

/-- The caps leave something of what there is. -/
theorem Capped.ne_nil (h : Capped msgs kept) (hne : msgs ≠ []) : kept ≠ [] := by
  cases h with
  | newest hlast hnew =>
    obtain ⟨init, m, rfl⟩ := (List.eq_nil_or_concat' msgs).resolve_left hne
    have hone : WithinCaps [m] :=
      ⟨show 1 ≤ transcriptMaxMessages by decide, by simpa [textBytes] using hlast m (by simp)⟩
    have hle := hnew.longest [m] (List.suffix_append _ _) hone
    exact List.ne_nil_of_length_pos hle
  | cut => exact List.cons_ne_nil _ _

theorem capEntries_eq_nil : (capEntries msgs).1 = [] ↔ msgs = [] := by
  constructor
  · intro h
    obtain ⟨kept, hcapped, hout, -⟩ := capEntries_capped msgs
    obtain ⟨runs, hkept, hfor⟩ := (mergeRuns_merged kept).runs
    rw [← hout, h] at hfor
    cases hfor
    by_contra hne
    exact hcapped.ne_nil hne hkept
  · rintro rfl
    rfl

theorem Capped.length_eq {kept' : List Entry} (h : Capped msgs kept) (h' : Capped msgs kept') :
    kept.length = kept'.length := by
  cases h with
  | newest hlast hnew =>
    cases h' with
    | newest _ hnew' =>
      exact le_antisymm (hnew'.longest _ hnew.suffix hnew.within)
        (hnew.longest _ hnew'.suffix hnew'.within)
    | cut hm hlong => exact absurd (hlast _ hm) (not_le.mpr hlong)
  | cut hm hlong =>
    cases h' with
    | newest hlast => exact absurd (hlast _ hm) (not_le.mpr hlong)
    | cut => rfl

/-- The entries are counted as the messages that the caps leave. -/
theorem Capped.carriedMessages_eq (h : Capped msgs kept) (hones : ∀ m ∈ msgs, m.msgs = 1) :
    carriedMessages (capEntries msgs).1 = kept.length := by
  obtain ⟨kept', hcapped, hout, -⟩ := capEntries_capped msgs
  rw [hout, (mergeRuns_merged kept').carriedMessages_eq, carriedMessages_ones (hcapped.ones hones),
    hcapped.length_eq h]

/-- The caps keep the newest messages: what is left is the longest end of the messages within
both caps, or a cut of the last message. The entries stand for it, and the flag tells whether
anything was dropped or cut. -/
theorem capEntries_newest (msgs : List Entry) :
    ∃ kept, Capped msgs kept ∧ Merged kept (capEntries msgs).1 ∧
      ((∀ m ∈ msgs, m.msgs = 1) → carriedMessages (capEntries msgs).1 = kept.length) ∧
      ((capEntries msgs).2 = true ↔ kept.length < msgs.length ∨
        ∃ m, msgs.getLast? = some m ∧ transcriptMaxChars < m.text.length) := by
  obtain ⟨kept, hcapped, hout, hflag⟩ := capEntries_capped msgs
  have hmerged : Merged kept (capEntries msgs).1 := by
    rw [hout]
    exact mergeRuns_merged kept
  refine ⟨kept, hcapped, hmerged, ?_, hflag⟩
  intro hones
  rw [hmerged.carriedMessages_eq]
  exact carriedMessages_ones (hcapped.ones hones)

end AgentOps.Slackbot
