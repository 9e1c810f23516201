import AgentOps.Slackbot.Split
import Mathlib.Data.List.Chain
import Mathlib.Data.List.TakeWhile

/-!
# The parts of a message

The lines of a block are lines of the text, so a condition on the lines of a text reaches the
fences and the table headers that are written again in each part.
-/

namespace AgentOps.Slackbot

open AgentOps.Lib

variable {s rest line body l : Bytes} {g ls lines : List Bytes}

/-! ## Trimming -/

theorem dropSpace_ascii {b : UInt8} (hb : 0x09 ≤ b ∧ b ≤ 0x0D ∨ b = 0x20) (t : Bytes) :
    dropSpace (b :: t) = some t := by
  unfold dropSpace
  split
  case h_7 =>
    next heq =>
    obtain ⟨rfl, rfl⟩ := List.cons.inj heq
    exact if_pos hb
  case h_8 heq => nomatch heq
  all_goals
    next heq =>
    rw [(List.cons.inj heq).1] at hb
    exact absurd hb (by decide)

/-- A space is one byte, or bytes that are not ASCII, and it is dropped whatever is behind it. -/
theorem dropSpace_spec (h : dropSpace s = some rest) :
    ∃ space : Bytes, s = space ++ rest ∧ space ≠ [] ∧
      ((∃ b, space = [b]) ∨ space.all (fun b => 0x80 ≤ b) = true) ∧
      ∀ t, dropSpace (space ++ t) = some t := by
  unfold dropSpace at h
  split at h
  case h_6 b rest' =>
    split at h
    · next hb =>
      obtain rfl := Option.some.inj h
      refine ⟨[0xE2, 0x80, b], rfl, List.cons_ne_nil _ _, .inr ?_, fun t => if_pos hb⟩
      have hhigh : 0x80 ≤ b := by
        rcases hb with hb | rfl | rfl | rfl
        · exact hb.1
        all_goals decide
      show (true && (true && (decide (0x80 ≤ b) && true))) = true
      rw [decide_eq_true hhigh]
      rfl
    · nomatch h
  case h_7 b rest' _ _ _ _ _ _ =>
    split at h
    · next hb =>
      obtain rfl := Option.some.inj h
      exact ⟨[b], rfl, List.cons_ne_nil _ _, .inl ⟨b, rfl⟩, dropSpace_ascii hb⟩
    · nomatch h
  case h_8 => nomatch h
  all_goals obtain rfl := Option.some.inj h
  case h_1 => exact ⟨[0xC2, 0x85], rfl, List.cons_ne_nil _ _, .inr rfl, fun _ => rfl⟩
  case h_2 => exact ⟨[0xC2, 0xA0], rfl, List.cons_ne_nil _ _, .inr rfl, fun _ => rfl⟩
  case h_3 => exact ⟨[0xE1, 0x9A, 0x80], rfl, List.cons_ne_nil _ _, .inr rfl, fun _ => rfl⟩
  case h_4 => exact ⟨[0xE2, 0x81, 0x9F], rfl, List.cons_ne_nil _ _, .inr rfl, fun _ => rfl⟩
  case h_5 => exact ⟨[0xE3, 0x80, 0x80], rfl, List.cons_ne_nil _ _, .inr rfl, fun _ => rfl⟩

theorem suffix_of_dropSpace (h : dropSpace s = some rest) : rest <:+ s := by
  obtain ⟨space, rfl, -⟩ := dropSpace_spec h
  exact List.suffix_append space rest

theorem suffix_of_dropSpaceBack (h : dropSpaceBack s = some rest) : rest <:+ s := by
  unfold dropSpaceBack at h
  split at h
  case h_6 b rest' =>
    split at h
    · obtain rfl := Option.some.inj h
      exact List.suffix_append [b, 0x80, 0xE2] _
    · split at h
      · obtain rfl := Option.some.inj h
        exact List.suffix_cons b _
      · nomatch h
  case h_7 b rest' _ _ _ _ _ _ =>
    split at h
    · obtain rfl := Option.some.inj h
      exact List.suffix_cons b _
    · nomatch h
  case h_8 => nomatch h
  all_goals obtain rfl := Option.some.inj h
  case h_1 | h_2 => exact List.suffix_append [_, _] _
  all_goals exact List.suffix_append [_, _, _] _

theorem trimWith_suffix {drop : Bytes → Option Bytes}
    (hdrop : ∀ s rest, drop s = some rest → rest <:+ s) (n : ℕ) (s : Bytes) :
    trimWith drop n s <:+ s := by
  induction n generalizing s with
  | zero => exact List.suffix_refl s
  | succ n ih =>
    rw [trimWith]
    split
    · next rest h => exact (ih rest).trans (hdrop s rest h)
    · exact List.suffix_refl s

theorem infix_trimSpace (s : Bytes) : trimSpace s <:+: s := by
  have hstart := trimWith_suffix (fun _ _ => suffix_of_dropSpace) s.length s
  have hend := trimWith_suffix (fun _ _ => suffix_of_dropSpaceBack)
    (trimWith dropSpace s.length s).length (trimWith dropSpace s.length s).reverse
  have hpre : trimSpace s <+: trimWith dropSpace s.length s := by
    rw [← List.reverse_suffix]
    show (trimWith dropSpaceBack _ _).reverse.reverse <:+ _
    rwa [List.reverse_reverse]
  exact hpre.isInfix.trans hstart.isInfix

/-- What `trimLineEnd` takes away is line ends only. -/
theorem trimLineEnd_append (s : Bytes) :
    ∃ ends : Bytes, s = trimLineEnd s ++ ends ∧ ∀ b ∈ ends, b = 0x0D ∨ b = 0x0A := by
  refine ⟨(s.reverse.takeWhile fun b => b = 0x0D ∨ b = 0x0A).reverse, ?_, ?_⟩
  · unfold trimLineEnd
    rw [← List.reverse_append, List.takeWhile_append_dropWhile, List.reverse_reverse]
  · intro b hb
    rw [List.mem_reverse] at hb
    simpa using List.mem_takeWhile_imp hb

theorem validUtf8_trimLineEnd (h : ValidUtf8 s) : ValidUtf8 (trimLineEnd s) := by
  obtain ⟨ends, hs, hends⟩ := trimLineEnd_append s
  rw [hs] at h
  refine (h.cut fun b hb => ?_).1
  obtain rfl | rfl := hends b (List.mem_of_mem_head? hb)
  · decide
  · decide

/-! ## Fences -/

/-- A marker is a run of at least three of the same character. -/
theorem fenceMarker_eq {trimmed : Bytes} (h : fenceMarker trimmed ≠ []) :
    ∃ c : Char, ∃ n, (String.utf8EncodeChar c = [0x60] ∨ String.utf8EncodeChar c = [0x7E]) ∧
      fenceMarker trimmed = (List.replicate n c).flatMap String.utf8EncodeChar ∧
      3 ≤ n ∧ (fenceMarker trimmed).length = n := by
  have hrep (c : Char) (b : UInt8) (hc : String.utf8EncodeChar c = [b]) (n : ℕ) :
      List.replicate n b = (List.replicate n c).flatMap String.utf8EncodeChar := by
    rw [List.flatMap_def, List.map_replicate, hc, List.flatten_replicate_singleton]
  unfold fenceMarker at h ⊢
  split at h
  · rename_i hrun
    rw [if_pos hrun]
    exact ⟨'`', _, .inl (by decide), hrep _ _ (by decide) _, hrun, by simp⟩
  · rename_i hrun
    rw [if_neg hrun]
    split at h
    · rename_i hrun
      rw [if_pos hrun]
      exact ⟨'~', _, .inr (by decide), hrep _ _ (by decide) _, hrun, by simp⟩
    · exact absurd rfl h

theorem validUtf8_fenceMarker (trimmed : Bytes) : ValidUtf8 (fenceMarker trimmed) := by
  by_cases h : fenceMarker trimmed = []
  · rw [h]
    exact validUtf8_nil
  · obtain ⟨c, n, -, heq, -⟩ := fenceMarker_eq h
    exact ⟨_, heq⟩

theorem isClosingFence_nil (marker : Bytes) : isClosingFence (trimSpace []) marker = false := by
  cases marker with
  | nil => rfl
  | cons => rfl

/-- A line that closes a fence is itself a fence line. -/
theorem fenceMarker_of_closing {trimmed : Bytes} (hm : fenceMarker line ≠ [])
    (h : isClosingFence trimmed (fenceMarker line) = true) : fenceMarker trimmed ≠ [] := by
  obtain ⟨c, n, hc, heq, hn, hlen⟩ := fenceMarker_eq hm
  obtain ⟨k, rfl⟩ : ∃ k, n = k + 1 := ⟨n - 1, by omega⟩
  have hrun : ∀ b, String.utf8EncodeChar c = [b] →
      runLen trimmed b = trimmed.length ∧ k + 1 ≤ trimmed.length := by
    intro b hb
    have hcons : fenceMarker line = b :: (List.replicate k c).flatMap String.utf8EncodeChar := by
      rw [heq, List.replicate_succ, List.flatMap_cons, hb]
      rfl
    rw [hcons] at h hlen
    cases trimmed with
    | nil => cases h
    | cons x trimmed =>
      simp only [isClosingFence, Bool.and_eq_true, decide_eq_true_eq] at h
      exact ⟨h.1, by omega⟩
  unfold fenceMarker
  obtain hc | hc := hc
  · have := hrun _ hc
    rw [if_pos (by omega)]
    simp only [ne_eq, List.replicate_eq_nil_iff]
    omega
  · have := hrun _ hc
    split
    · simp only [ne_eq, List.replicate_eq_nil_iff]
      omega
    · rw [if_pos (by omega)]
      simp only [ne_eq, List.replicate_eq_nil_iff]
      omega

/-! ## Lines -/

/-- The lines of a text. -/
def linesOf (text : Bytes) : List Bytes := nonEmpty (splitAfter text)

/-- Lines of a text one after the other: only the last may lack its line end. -/
inductive WellCut : List Bytes → Prop
  | nil : WellCut []
  | last {body : Bytes} (h : 0x0A ∉ body) (hne : body ≠ []) : WellCut [body]
  | cons {body : Bytes} (h : 0x0A ∉ body) {ls : List Bytes} (hls : WellCut ls) :
      WellCut ((body ++ [0x0A]) :: ls)

theorem splitAfter_last (h : 0x0A ∉ body) : splitAfter body = [body] := by
  induction body with
  | nil => rfl
  | cons b body ih =>
    rw [List.mem_cons, not_or] at h
    rw [splitAfter, if_neg (Ne.symm h.1), ih h.2]

theorem splitAfter_line (h : 0x0A ∉ body) (s : Bytes) :
    splitAfter (body ++ 0x0A :: s) = (body ++ [0x0A]) :: splitAfter s := by
  induction body with
  | nil => rfl
  | cons b body ih =>
    rw [List.mem_cons, not_or] at h
    rw [List.cons_append, splitAfter, if_neg (Ne.symm h.1), ih h.2]
    rfl

/-- A text has no line end, or a first line that has one. -/
theorem line_cases (s : Bytes) :
    0x0A ∉ s ∨ ∃ body rest, s = body ++ 0x0A :: rest ∧ 0x0A ∉ body := by
  by_cases h : 0x0A ∈ s
  · exact .inr (List.eq_append_cons_of_mem h)
  · exact .inl h

theorem linesOf_line (h : 0x0A ∉ body) (rest : Bytes) :
    linesOf (body ++ 0x0A :: rest) = (body ++ [0x0A]) :: linesOf rest := by
  unfold linesOf nonEmpty
  rw [splitAfter_line h, List.filter_cons_of_pos (by simp)]

/-- The lines of a text are well cut and together are the text. -/
theorem linesOf_spec (s : Bytes) : WellCut (linesOf s) ∧ (linesOf s).flatten = s := by
  induction hn : s.length using Nat.strong_induction_on generalizing s with
  | _ n ih =>
    obtain h | ⟨body, rest, rfl, h⟩ := line_cases s
    · unfold linesOf nonEmpty
      rw [splitAfter_last h]
      by_cases hs : s = []
      · rw [hs]
        exact ⟨.nil, rfl⟩
      · rw [List.filter_cons_of_pos (by simpa using hs), List.filter_nil]
        exact ⟨.last h hs, by simp⟩
    · have hlt : rest.length < n := by
        rw [← hn, List.length_append, List.length_cons]
        omega
      obtain ⟨hcut, hflat⟩ := ih _ hlt rest rfl
      rw [linesOf_line h]
      refine ⟨.cons h hcut, ?_⟩
      rw [List.flatten_cons, hflat, List.append_assoc]
      rfl

/-- Splitting lines that were joined gives the lines back, and perhaps an empty one. -/
theorem WellCut.splitAfter (h : WellCut g) (hne : g ≠ []) :
    splitAfter g.flatten = g ∨ Slackbot.splitAfter g.flatten = g ++ [[]] := by
  induction h with
  | nil => exact absurd rfl hne
  | last h _ =>
    left
    rw [List.flatten_singleton]
    exact splitAfter_last h
  | @cons body h ls hls ih =>
    have hline : Slackbot.splitAfter ((body ++ [0x0A]) :: ls).flatten =
        (body ++ [0x0A]) :: Slackbot.splitAfter ls.flatten := by
      rw [List.flatten_cons, List.append_assoc]
      exact splitAfter_line h _
    rw [hline]
    by_cases hls' : ls = []
    · subst hls'
      exact .inr rfl
    · obtain heq | heq := ih hls'
      · exact .inl (by rw [heq])
      · exact .inr (by rw [heq]; rfl)

theorem WellCut.ne_nil (h : WellCut g) : ∀ l ∈ g, l ≠ [] := by
  induction h with
  | nil => simp
  | last _ hne => simpa using hne
  | cons _ _ ih =>
    intro l hl
    obtain rfl | hl := List.mem_cons.mp hl
    · simp
    · exact ih l hl

theorem WellCut.nonEmpty (h : WellCut g) : nonEmpty g = g := by
  apply List.filter_eq_self.mpr
  intro l hl
  simpa using h.ne_nil l hl

/-- The lines of lines that were joined. -/
theorem WellCut.linesOf (h : WellCut g) : linesOf g.flatten = g := by
  by_cases hne : g = []
  · rw [hne]
    rfl
  · unfold Slackbot.linesOf
    obtain heq | heq := h.splitAfter hne
    · rw [heq, h.nonEmpty]
    · have happ : Slackbot.nonEmpty (g ++ [[]]) = Slackbot.nonEmpty g := by
        unfold Slackbot.nonEmpty
        rw [List.filter_append]
        simp
      rw [heq, happ, h.nonEmpty]

theorem WellCut.right {a b : List Bytes} (h : WellCut (a ++ b)) : WellCut b := by
  induction a with
  | nil => exact h
  | cons l a ih =>
    rw [List.cons_append] at h
    generalize hg : l :: (a ++ b) = g at h
    cases h with
    | nil => cases hg
    | last h hne =>
      cases hg' : a ++ b with
      | nil =>
        rw [(List.append_eq_nil_iff.mp hg').2]
        exact .nil
      | cons =>
        rw [hg'] at hg
        cases hg
    | cons h hls =>
      cases hg
      exact ih hls

theorem WellCut.left {a b : List Bytes} (h : WellCut (a ++ b)) : WellCut a := by
  induction a with
  | nil => exact .nil
  | cons l a ih =>
    rw [List.cons_append] at h
    generalize hg : l :: (a ++ b) = g at h
    cases h with
    | nil => cases hg
    | last h hne =>
      cases a with
      | nil =>
        cases hg
        exact .last h hne
      | cons => cases hg
    | cons h hls =>
      cases hg
      exact .cons h (ih hls)

theorem WellCut.part (h : WellCut ls) (hg : g <:+: ls) : WellCut g := by
  obtain ⟨a, b, rfl⟩ := hg
  exact h.left.right

theorem WellCut.single (h : WellCut ls) (hl : l ∈ ls) : WellCut [l] := by
  obtain ⟨a, b, rfl⟩ := List.append_of_mem hl
  exact h.part ⟨a, b, List.append_assoc _ _ _⟩

/-- A line before another has its line end. -/
theorem WellCut.lineEnd (h : WellCut (l :: g)) (hg : g ≠ []) :
    ∃ body, l = body ++ [0x0A] ∧ 0x0A ∉ body := by
  cases h with
  | last hbody hne => exact absurd rfl hg
  | @cons body hbody ls hls => exact ⟨body, rfl, hbody⟩

theorem WellCut.firstLine (h : WellCut (l :: g)) : firstLine (l :: g).flatten = l := by
  have hbody : ∀ {body : Bytes}, 0x0A ∉ body → ∀ s, Slackbot.firstLine (body ++ 0x0A :: s) =
      body ++ [0x0A] := by
    intro body hb s
    induction body with
    | nil => rfl
    | cons b body ih =>
      rw [List.mem_cons, not_or] at hb
      rw [List.cons_append, Slackbot.firstLine, if_neg (Ne.symm hb.1), ih hb.2]
      rfl
  have hlast : ∀ {body : Bytes}, 0x0A ∉ body → Slackbot.firstLine body = body := by
    intro body hb
    induction body with
    | nil => rfl
    | cons b body ih =>
      rw [List.mem_cons, not_or] at hb
      rw [Slackbot.firstLine, if_neg (Ne.symm hb.1), ih hb.2]
  cases h with
  | last h _ =>
    rw [List.flatten_singleton]
    exact hlast h
  | cons h _ =>
    rw [List.flatten_cons, List.append_assoc]
    exact hbody h _

/-- The lines of a valid text are valid. -/
theorem WellCut.validUtf8 (h : WellCut g) (hv : ValidUtf8 g.flatten) : ∀ l ∈ g, ValidUtf8 l := by
  induction h with
  | nil => simp
  | last _ _ => simpa using hv
  | @cons body h ls _ ih =>
    rw [List.flatten_cons, List.append_assoc] at hv
    obtain ⟨hbody, hrest⟩ := validUtf8_line.mp hv
    exact List.forall_mem_cons.mpr ⟨hbody.append (validUtf8_utf8 "\n"), ih hrest⟩

/-! ## Blocks -/

/-- The marker of the fence that is open after a line. -/
def fenceStep : Option Bytes → Bytes → Option Bytes
  | none, line =>
    if fenceMarker (trimSpace line) ≠ [] then some (fenceMarker (trimSpace line)) else none
  | some marker, line => if isClosingFence (trimSpace line) marker then none else some marker

/-- The marker of the fence that is open after some lines. -/
def fenceAfter (marker : Option Bytes) (lines : List Bytes) : Option Bytes :=
  lines.foldl fenceStep marker

theorem fenceAfter_append (marker : Option Bytes) (a b : List Bytes) :
    fenceAfter marker (a ++ b) = fenceAfter (fenceAfter marker a) b :=
  List.foldl_append

/-- Lines that neither open nor close a fence leave it as it is. -/
theorem fenceAfter_of_still {marker : Option Bytes} (h : ∀ l ∈ lines, fenceStep marker l = marker) :
    fenceAfter marker lines = marker := by
  induction lines with
  | nil => rfl
  | cons l lines ih =>
    show fenceAfter (fenceStep marker l) lines = marker
    rw [h l List.mem_cons_self]
    exact ih fun l hl => h l (List.mem_cons_of_mem _ hl)

theorem fenceStep_none (h : fenceMarker (trimSpace line) = []) : fenceStep none line = none :=
  if_neg (not_not.mpr h)

theorem fenceStep_open (h : fenceMarker (trimSpace line) ≠ []) :
    fenceStep none line = some (fenceMarker (trimSpace line)) := if_pos h

theorem fenceStep_inside {marker : Bytes} (h : isClosingFence (trimSpace line) marker = false) :
    fenceStep (some marker) line = some marker := if_neg (ne_true_of_eq_false h)

theorem fenceStep_close {marker : Bytes} (h : isClosingFence (trimSpace line) marker = true) :
    fenceStep (some marker) line = none := if_pos h

/-- The lines of a block: lines outside every fence, or a fence line and what is behind it up to
the line that closes it. -/
inductive Block : List Bytes → Prop
  | plain {ls : List Bytes} (ne : ls ≠ []) (outside : ∀ l ∈ ls, fenceMarker (trimSpace l) = []) :
      Block ls
  | fenced {opening : Bytes} {inner tail : List Bytes}
      (opens : fenceMarker (trimSpace opening) ≠ [])
      (inside : ∀ l ∈ inner,
        isClosingFence (trimSpace l) (fenceMarker (trimSpace opening)) = false)
      (closes : tail = [] ∨ ∃ last, tail = [last] ∧
        isClosingFence (trimSpace last) (fenceMarker (trimSpace opening)) = true) :
      Block (opening :: (inner ++ tail))

theorem Block.ne_nil (h : Block g) : g ≠ [] := by
  cases h with
  | plain ne outside => exact ne
  | fenced opens inside closes => exact List.cons_ne_nil _ _

theorem fenceAfter_plain (h : ∀ l ∈ ls, fenceMarker (trimSpace l) = []) :
    fenceAfter none ls = none :=
  fenceAfter_of_still fun l hl => fenceStep_none (h l hl)

theorem fenceAfter_inside {opening : Bytes} {inner : List Bytes}
    (opens : fenceMarker (trimSpace opening) ≠ [])
    (inside : ∀ l ∈ inner, isClosingFence (trimSpace l) (fenceMarker (trimSpace opening)) = false) :
    fenceAfter none (opening :: inner) = some (fenceMarker (trimSpace opening)) := by
  show fenceAfter (fenceStep none opening) inner = _
  rw [fenceStep_open opens]
  exact fenceAfter_of_still fun l hl => fenceStep_inside (inside l hl)

theorem fenceAfter_fenced {opening last : Bytes} {inner : List Bytes}
    (opens : fenceMarker (trimSpace opening) ≠ [])
    (inside : ∀ l ∈ inner, isClosingFence (trimSpace l) (fenceMarker (trimSpace opening)) = false)
    (closes : isClosingFence (trimSpace last) (fenceMarker (trimSpace opening)) = true) :
    fenceAfter none (opening :: (inner ++ [last])) = none := by
  rw [← List.cons_append, fenceAfter_append, fenceAfter_inside opens inside]
  exact fenceStep_close closes

/-- The blocks are the lines in groups. If `closed` holds, no block leaves a fence open. -/
def Grouped (closed : Prop) (lines blks : List Bytes) : Prop :=
  ∃ gs : List (List Bytes), blks = gs.map List.flatten ∧ gs.flatten = lines ∧
    ∀ g ∈ gs, Block g ∧ (closed → fenceAfter none g = none)

theorem Grouped.nil (closed : Prop) : Grouped closed [] [] := ⟨[], rfl, rfl, List.forall_mem_nil _⟩

theorem Grouped.one {closed : Prop} (h : Block g) (hclosed : closed → fenceAfter none g = none) :
    Grouped closed g [g.flatten] :=
  ⟨[g], rfl, List.flatten_singleton, List.forall_mem_singleton.mpr ⟨h, hclosed⟩⟩

theorem Grouped.append {closed : Prop} {lines' blks blks' : List Bytes}
    (h : Grouped closed lines blks) (h' : Grouped closed lines' blks') :
    Grouped closed (lines ++ lines') (blks ++ blks') := by
  obtain ⟨gs, rfl, rfl, hgs⟩ := h
  obtain ⟨gs', rfl, rfl, hgs'⟩ := h'
  exact ⟨gs ++ gs', List.map_append.symm, List.flatten_append,
    List.forall_mem_append.mpr ⟨hgs, hgs'⟩⟩

/-- The lines that the builder of `blocks` holds. -/
inductive Held : Option Bytes → List Bytes → Prop
  | plain {g : List Bytes} (ne : ∀ l ∈ g, l ≠ [])
      (outside : ∀ l ∈ g, fenceMarker (trimSpace l) = []) : Held none g
  | fenced {opening : Bytes} {inner : List Bytes} (opens : fenceMarker (trimSpace opening) ≠ [])
      (inside : ∀ l ∈ inner,
        isClosingFence (trimSpace l) (fenceMarker (trimSpace opening)) = false) :
      Held (some (fenceMarker (trimSpace opening))) (opening :: inner)

theorem held_nil : Held none [] := .plain (List.forall_mem_nil _) (List.forall_mem_nil _)

theorem grouped_flush (closed : Prop) (ne : ∀ l ∈ g, l ≠ [])
    (outside : ∀ l ∈ g, fenceMarker (trimSpace l) = []) : Grouped closed g (flush g.flatten) := by
  cases g with
  | nil => exact .nil closed
  | cons l g =>
    have hne : (l :: g).flatten ≠ [] := by
      rw [List.flatten_cons]
      exact List.append_ne_nil_of_left_ne_nil (ne l List.mem_cons_self) _
    rw [flush, if_neg hne]
    exact .one (.plain (List.cons_ne_nil _ _) outside) fun _ => fenceAfter_plain outside

theorem blocksFrom_grouped (hlines : ∀ l ∈ lines, l ≠ []) {marker : Option Bytes}
    (h : Held marker g) :
    Grouped (fenceAfter marker lines = none) (g ++ lines) (blocksFrom lines marker g.flatten) := by
  induction lines generalizing marker g with
  | nil =>
    rw [List.append_nil]
    cases h with
    | plain ne outside =>
      rw [blocksFrom]
      exact grouped_flush _ ne outside
    | @fenced opening inner opens inside =>
      rw [blocksFrom, ← List.append_nil inner]
      exact .one (.fenced opens inside (.inl rfl)) nofun
  | cons line lines ih =>
    have ih {marker : Option Bytes} {g : List Bytes} (h : Held marker g) :=
      ih (fun l hl => hlines l (List.mem_cons_of_mem _ hl)) h
    have hgrown : (g ++ [line]).flatten = g.flatten ++ line := by
      rw [List.flatten_append, List.flatten_singleton]
    have hline := hlines line List.mem_cons_self
    have hcons : g ++ line :: lines = g ++ [line] ++ lines := List.append_cons g line lines
    show Grouped (fenceAfter (fenceStep marker line) lines = none) _ _
    cases h with
    | plain ne outside =>
      have hne : ∀ l ∈ g ++ [line], l ≠ [] :=
        List.forall_mem_append.mpr ⟨ne, List.forall_mem_singleton.mpr hline⟩
      rw [blocksFrom, if_neg hline]
      split
      · next hopen =>
        rw [fenceStep_open hopen]
        have hrest := ih (.fenced hopen (List.forall_mem_nil _))
        rw [List.flatten_singleton] at hrest
        exact (grouped_flush _ ne outside).append hrest
      · next hplain =>
        have hplain := not_not.mp hplain
        have houtside : ∀ l ∈ g ++ [line], fenceMarker (trimSpace l) = [] :=
          List.forall_mem_append.mpr ⟨outside, List.forall_mem_singleton.mpr hplain⟩
        rw [fenceStep_none hplain, hcons, ← hgrown]
        split
        · exact (grouped_flush _ hne houtside).append (ih held_nil)
        · exact ih (.plain hne houtside)
    | @fenced opening inner opens inside =>
      rw [blocksFrom, hcons, ← hgrown]
      split
      · next hclose =>
        rw [fenceStep_close hclose]
        refine Grouped.append (.one ?_ fun _ => ?_) (ih held_nil)
        · exact .fenced opens inside (.inr ⟨line, rfl, hclose⟩)
        · exact fenceAfter_fenced opens inside hclose
      · next hclose =>
        have hclose := Bool.not_eq_true _ ▸ hclose
        rw [fenceStep_inside hclose]
        refine ih (.fenced opens ?_)
        exact List.forall_mem_append.mpr ⟨inside, List.forall_mem_singleton.mpr hclose⟩

/-- `blocks` does not see empty lines. -/
theorem blocksFrom_nonEmpty (lines : List Bytes) (marker : Option Bytes) (cur : Bytes) :
    blocksFrom (nonEmpty lines) marker cur = blocksFrom lines marker cur := by
  induction lines generalizing marker cur with
  | nil => rfl
  | cons line lines ih =>
    by_cases hline : line = []
    · subst hline
      have hskip : nonEmpty ([] :: lines) = nonEmpty lines := rfl
      cases marker with
      | none => rw [hskip, ih, blocksFrom, if_pos rfl]
      | some marker =>
        rw [hskip, ih, blocksFrom, isClosingFence_nil, if_neg Bool.false_ne_true, List.append_nil]
    · have hkeep : nonEmpty (line :: lines) = line :: nonEmpty lines :=
        List.filter_cons_of_pos (decide_eq_true hline)
      rw [hkeep]
      cases marker with
      | none => simp only [blocksFrom, ih]
      | some marker => simp only [blocksFrom, ih]

theorem blocks_grouped (text : Bytes) :
    Grouped (fenceAfter none (linesOf text) = none) (linesOf text) (blocks text) := by
  have hlines := blocksFrom_grouped (linesOf_spec text).1.ne_nil held_nil
  unfold linesOf at hlines
  rwa [blocksFrom_nonEmpty] at hlines

theorem blocks_lines {text blk : Bytes} (h : blk ∈ blocks text) :
    ∃ g, g <:+: linesOf text ∧ WellCut g ∧ Block g ∧ blk = g.flatten := by
  obtain ⟨gs, hblks, hlines, hgs⟩ := blocks_grouped text
  rw [hblks] at h
  obtain ⟨g, hg, rfl⟩ := List.mem_map.mp h
  have hin : g <:+: linesOf text := hlines ▸ List.infix_of_mem_flatten hg
  exact ⟨g, hin, (linesOf_spec text).1.part hin, (hgs g hg).1, rfl⟩

/-! ## Splitting ends -/

theorem runeSplit_isSome {limit : ℕ} (hlimit : 1 ≤ limit) (rounds : ℕ) (s : Bytes)
    (h : s.length ≤ rounds) : (runeSplit limit rounds s).isSome = true := by
  induction rounds generalizing s with
  | zero =>
    rw [runeSplit, if_pos (by omega)]
    rfl
  | succ rounds ih =>
    rw [runeSplit]
    split
    · rfl
    · -- a round takes at least one byte
      rw [Option.isSome_map]
      apply ih
      rw [List.length_drop]
      split
      · omega
      · omega

theorem pack_isSome {limit : ℕ} {oversize : Bytes → Option (List Bytes)} {pieces : List Bytes}
    (h : ∀ piece ∈ pieces, (oversize piece).isSome = true) (cur : Bytes) :
    (pack limit oversize pieces cur).isSome = true := by
  induction pieces generalizing cur with
  | nil => rfl
  | cons piece pieces ih =>
    have hrest := ih fun p hp => h p (List.mem_cons_of_mem _ hp)
    rw [pack]
    split
    · obtain ⟨parts, hparts⟩ := Option.isSome_iff_exists.mp (h piece List.mem_cons_self)
      obtain ⟨rest, heq⟩ := Option.isSome_iff_exists.mp (hrest [])
      rw [hparts, heq]
      rfl
    · split
      · obtain ⟨rest, heq⟩ := Option.isSome_iff_exists.mp (hrest piece)
        rw [heq]
        rfl
      · exact hrest _

end AgentOps.Slackbot
