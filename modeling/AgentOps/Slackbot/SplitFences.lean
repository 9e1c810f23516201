import AgentOps.Slackbot.SplitLossless

/-!
# Fences in the parts

A part is scanned like the text: `fenceAfter` says which fence its lines leave open. A line that is
cut can have a fragment that is a fence line. If there is none (`Packing.Calm`), each part closes
the fences that it opens; if there is one, its part does not. A line without three backticks or
tildes in a row has none.
-/

namespace AgentOps.Slackbot

open AgentOps.Lib

variable {b : UInt8} {s l opening closing : Bytes} {parts : List Bytes}

/-! ## Trimming a line end -/

theorem isSpace_of_lineEnd (hb : b = 0x0D ∨ b = 0x0A) : 0x09 ≤ b ∧ b ≤ 0x0D ∨ b = 0x20 := by
  rcases hb with rfl | rfl <;> decide

/-- A line end does not complete a space. -/
theorem dropSpace_lineEnd (hb : b = 0x0D ∨ b = 0x0A) (hs : s ≠ []) :
    dropSpace (s ++ [b]) = (dropSpace s).map (· ++ [b]) := by
  cases hdrop : dropSpace s with
  | some rest =>
    obtain ⟨space, rfl, -, -, hspace⟩ := dropSpace_spec hdrop
    rw [List.append_assoc, hspace]
    rfl
  | none =>
    cases hend : dropSpace (s ++ [b]) with
    | none => rfl
    | some rest =>
      obtain ⟨space, heq, hne, hkind, hspace⟩ := dropSpace_spec hend
      have hlast : space = s ++ [b] := by
        rcases List.prefix_concat_iff.mp ⟨rest, heq.symm⟩ with hwhole | ⟨d, rfl⟩
        · exact hwhole
        · rw [hspace] at hdrop
          nomatch hdrop
      -- a space that ends with the line end is the line end
      rcases hkind with ⟨x, rfl⟩ | hhigh
      · exact absurd (List.append_eq_singleton_iff.mp hlast.symm) (by simp [hs])
      · have hmem : b ∈ space := hlast ▸ List.mem_append_right s List.mem_cons_self
        have hb' := List.all_eq_true.mp hhigh b hmem
        rcases hb with rfl | rfl
        · exact absurd hb' (by decide)
        · exact absurd hb' (by decide)

theorem trimWith_nil (n : ℕ) : trimWith dropSpace n [] = [] := by
  cases n with
  | zero => rfl
  | succ n => rfl

theorem trimWith_some {drop : Bytes → Option Bytes} {n : ℕ} {rest : Bytes}
    (h : drop s = some rest) : trimWith drop (n + 1) s = trimWith drop n rest := by
  rw [trimWith, h]

theorem trimWith_lineEnd (hb : b = 0x0D ∨ b = 0x0A) {n : ℕ} (hn : s.length ≤ n) :
    trimWith dropSpace (n + 1) (s ++ [b]) =
      if trimWith dropSpace n s = [] then [] else trimWith dropSpace n s ++ [b] := by
  induction n generalizing s with
  | zero =>
    obtain rfl := List.eq_nil_of_length_eq_zero (Nat.le_zero.mp hn)
    rw [List.nil_append, trimWith_some (dropSpace_ascii (isSpace_of_lineEnd hb) [])]
    rfl
  | succ n ih =>
    by_cases hs : s = []
    · rw [hs, List.nil_append, trimWith, dropSpace_ascii (isSpace_of_lineEnd hb), trimWith_nil,
        if_pos rfl]
      exact trimWith_nil _
    · rw [trimWith, trimWith, dropSpace_lineEnd hb hs]
      cases hdrop : dropSpace s with
      | none => exact (if_neg hs).symm
      | some rest =>
        obtain ⟨space, rfl, hne, -, -⟩ := dropSpace_spec hdrop
        have hpos := List.length_pos_of_ne_nil hne
        rw [List.length_append] at hn
        exact ih (by omega)

theorem dropSpaceBack_lineEnd (hb : b = 0x0D ∨ b = 0x0A) (t : Bytes) :
    dropSpaceBack (b :: t) = some t := by
  unfold dropSpaceBack
  split
  case h_6 heq =>
    obtain ⟨rfl, rfl⟩ := List.cons.inj heq
    rcases hb with rfl | rfl <;> rfl
  case h_7 heq =>
    obtain ⟨rfl, rfl⟩ := List.cons.inj heq
    exact if_pos (isSpace_of_lineEnd hb)
  case h_8 heq => nomatch heq
  all_goals
    next heq =>
    rw [(List.cons.inj heq).1] at hb
    exact absurd hb (by decide)

/-- A line end behind a text is trimmed. -/
theorem trimSpace_lineEnd (hb : b = 0x0D ∨ b = 0x0A) (s : Bytes) :
    trimSpace (s ++ [b]) = trimSpace s := by
  unfold trimSpace
  rw [List.length_append, List.length_singleton, trimWith_lineEnd hb (Nat.le_refl _)]
  split
  · next hnil => rw [hnil]
  · simp only [List.length_append, List.length_singleton, List.reverse_append,
      List.reverse_singleton, List.singleton_append, trimWith, dropSpaceBack_lineEnd hb]

theorem trimSpace_trimLineEnd (s : Bytes) : trimSpace (trimLineEnd s) = trimSpace s := by
  have hends (x ends : Bytes) (h : ∀ b ∈ ends, b = 0x0D ∨ b = 0x0A) :
      trimSpace (x ++ ends) = trimSpace x := by
    induction ends using List.reverseRecOn with
    | nil => rw [List.append_nil]
    | append_singleton ends b ih =>
      rw [List.forall_mem_append, List.forall_mem_singleton] at h
      rw [← List.append_assoc, trimSpace_lineEnd h.2, ih h.1]
  obtain ⟨ends, hs, h⟩ := trimLineEnd_append s
  conv_rhs => rw [hs]
  exact (hends _ _ h).symm

/-! ## Quiet texts -/

/-- The text has no three backticks and no three tildes in a row. -/
def Quiet (s : Bytes) : Prop := ¬ [0x60, 0x60, 0x60] <:+: s ∧ ¬ [0x7E, 0x7E, 0x7E] <:+: s

instance (s : Bytes) : Decidable (Quiet s) := inferInstanceAs (Decidable (_ ∧ _))

theorem Quiet.part {t : Bytes} (h : Quiet s) (ht : t <:+: s) : Quiet t :=
  ⟨fun hin => h.1 (hin.trans ht), fun hin => h.2 (hin.trans ht)⟩

theorem replicate_prefix_of_runLen {c : UInt8} (h : 3 ≤ runLen s c) : [c, c, c] <+: s := by
  have hrun : s.takeWhile (fun b => b = c) = List.replicate (runLen s c) c :=
    List.eq_replicate_iff.mpr ⟨rfl, fun b hb => by simpa using List.mem_takeWhile_imp hb⟩
  have hthree : List.replicate 3 c <+: List.replicate (runLen s c) c :=
    ⟨List.replicate (runLen s c - 3) c, by rw [← List.replicate_add, Nat.add_sub_cancel' h]⟩
  exact hthree.trans (hrun ▸ List.takeWhile_prefix _)

theorem Quiet.fenceMarker (h : Quiet s) : fenceMarker (trimSpace s) = [] := by
  have hrun (c : UInt8) (hc : ¬ [c, c, c] <:+: s) : ¬ 3 ≤ runLen (trimSpace s) c := fun hrun =>
    hc ((replicate_prefix_of_runLen hrun).isInfix.trans (infix_trimSpace s))
  unfold Slackbot.fenceMarker
  rw [if_neg (hrun _ h.1), if_neg (hrun _ h.2)]

theorem Quiet.isClosingFence {line : Bytes} (h : Quiet s)
    (hopen : Slackbot.fenceMarker (trimSpace line) ≠ []) :
    isClosingFence (trimSpace s) (Slackbot.fenceMarker (trimSpace line)) = false :=
  Bool.eq_false_iff.mpr fun hclose => fenceMarker_of_closing hopen hclose h.fenceMarker

/-! ## The lines of a text along the scan -/

/-- Which lines are outside every fence. -/
def outside : Option Bytes → List Bytes → List Bool
  | _, [] => []
  | marker, l :: ls =>
    (marker = none ∧ fenceStep marker l = none : Bool) :: outside (fenceStep marker l) ls

theorem outside_append (marker : Option Bytes) (a b : List Bytes) :
    outside marker (a ++ b) = outside marker a ++ outside (fenceAfter marker a) b := by
  induction a generalizing marker with
  | nil => rfl
  | cons l a ih => exact congrArg (List.cons _) (ih _)

theorem outside_of_still {lines : List Bytes} (hstill : ∀ l ∈ lines, fenceStep none l = none) :
    ∀ b ∈ outside none lines, b = true := by
  induction lines with
  | nil => exact List.forall_mem_nil _
  | cons l lines ih =>
    rw [List.forall_mem_cons] at hstill
    rw [outside, hstill.1, List.forall_mem_cons]
    exact ⟨rfl, ih hstill.2⟩

/-- Lines behind a fence that is open are not outside, up to the one that closes it. -/
theorem outside_inside {marker : Bytes} {inner : List Bytes}
    (inside : ∀ l ∈ inner, isClosingFence (trimSpace l) marker = false) (last : Bytes) :
    ∀ b ∈ outside (some marker) (inner ++ [last]), b = false := by
  induction inner with
  | nil => exact List.forall_mem_singleton.mpr rfl
  | cons l inner ih =>
    rw [List.forall_mem_cons] at inside
    rw [List.cons_append, outside, fenceStep_inside inside.1, List.forall_mem_cons]
    exact ⟨rfl, ih inside.2⟩

section Closed

variable {gs : List (List Bytes)} (hgs : ∀ g ∈ gs, fenceAfter none g = none)
include hgs

theorem fenceAfter_flatten : fenceAfter none gs.flatten = none := by
  induction gs with
  | nil => rfl
  | cons g gs ih =>
    rw [List.forall_mem_cons] at hgs
    rw [List.flatten_cons, fenceAfter_append, hgs.1, ih hgs.2]

theorem outside_flatten : outside none gs.flatten = (gs.map (outside none)).flatten := by
  induction gs with
  | nil => rfl
  | cons g gs ih =>
    rw [List.forall_mem_cons] at hgs
    rw [List.flatten_cons, outside_append, hgs.1, ih hgs.2]
    rfl

end Closed

/-! ## The lines of joined texts -/

theorem linesOf_last {body : Bytes} (h : 0x0A ∉ body) (hne : body ≠ []) :
    linesOf body = [body] := by
  have hlines := (WellCut.last h hne).linesOf
  rwa [List.flatten_singleton] at hlines

theorem linesOf_append (a b : Bytes) :
    linesOf (a ++ 0x0A :: b) = linesOf (a ++ [0x0A]) ++ linesOf b := by
  induction hn : a.length using Nat.strong_induction_on generalizing a with
  | _ n ih =>
    obtain h | ⟨body, rest, rfl, h⟩ := line_cases a
    · rw [linesOf_line h, linesOf_line h]
      rfl
    · have hlt : rest.length < n := by
        rw [← hn, List.length_append, List.length_cons]
        omega
      simp only [List.append_assoc, List.cons_append]
      rw [linesOf_line h, linesOf_line h, ih _ hlt rest rfl]
      rfl

/-! ## The parts of a block -/

theorem trimLineEnd_concat (s : Bytes) : trimLineEnd (s ++ [0x0A]) = trimLineEnd s := by
  unfold trimLineEnd
  rw [List.reverse_append]
  exact congrArg List.reverse (List.dropWhile_cons_of_pos (by decide))

/-- A line without its line end. -/
theorem WellCut.not_mem_trimLineEnd (h : WellCut [l]) : 0x0A ∉ trimLineEnd l := by
  have hsub (s : Bytes) (hs : 0x0A ∉ s) : 0x0A ∉ trimLineEnd s := fun hmem => by
    obtain ⟨ends, heq, -⟩ := trimLineEnd_append s
    exact hs (heq ▸ List.mem_append_left ends hmem)
  cases h with
  | last hbody hne => exact hsub _ hbody
  | @cons body hbody ls hls =>
    rw [trimLineEnd_concat]
    exact hsub body hbody

theorem fenceStep_lineEnd (marker : Option Bytes) (s : Bytes) :
    fenceStep marker (s ++ [0x0A]) = fenceStep marker s := by
  cases marker with
  | none => rw [fenceStep, fenceStep, trimSpace_lineEnd (.inr rfl)]
  | some m => rw [fenceStep, fenceStep, trimSpace_lineEnd (.inr rfl)]

theorem fenceStep_nil (marker : Option Bytes) : fenceStep marker [] = marker := by
  cases marker with
  | none => rfl
  | some m => exact fenceStep_inside (isClosingFence_nil m)

/-- A line end at the end of a text changes nothing. -/
theorem fenceAfter_lineEnd (marker : Option Bytes) (s : Bytes) :
    fenceAfter marker (linesOf (s ++ [0x0A])) = fenceAfter marker (linesOf s) := by
  induction hn : s.length using Nat.strong_induction_on generalizing marker s with
  | _ n ih =>
    obtain h | ⟨body, rest, rfl, h⟩ := line_cases s
    · have hone : fenceAfter marker (linesOf (s ++ [0x0A])) = fenceStep marker s := by
        rw [linesOf_line h, ← fenceStep_lineEnd]
        rfl
      rw [hone]
      by_cases hs : s = []
      · rw [hs]
        exact fenceStep_nil marker
      · rw [linesOf_last h hs]
        rfl
    · have hlt : rest.length < n := by
        rw [← hn, List.length_append, List.length_cons]
        omega
      rw [List.append_assoc, List.cons_append, linesOf_line h, linesOf_line h]
      exact ih _ hlt _ rest rfl

/-- The scan of a part of a fenced block. -/
theorem fenceAfter_refenced (chunk : Bytes) (hopen : ∃ body, opening = body ++ [0x0A] ∧ 0x0A ∉ body)
    (opens : fenceMarker (trimSpace opening) ≠ []) (hclosing : linesOf closing = [closing]) :
    fenceAfter none (linesOf (refenced opening closing chunk)) =
      fenceStep (fenceAfter (some (fenceMarker (trimSpace opening))) (linesOf chunk)) closing := by
  obtain ⟨body, hbody, hnl⟩ := hopen
  -- the chunk with its line end
  obtain ⟨inner, hinner, hscan⟩ : ∃ inner : Bytes,
      chunk ++ (if chunk.getLast? = some 0x0A then [] else [0x0A]) = inner ++ [0x0A] ∧
        ∀ marker, fenceAfter marker (linesOf (inner ++ [0x0A])) =
          fenceAfter marker (linesOf chunk) := by
    split
    · next hend =>
      obtain ⟨inner, rfl⟩ := List.getLast?_eq_some_iff.mp hend
      exact ⟨inner, List.append_nil _, fun _ => rfl⟩
    · exact ⟨chunk, rfl, fun marker => fenceAfter_lineEnd marker chunk⟩
  have hlines : linesOf (refenced opening closing chunk) =
      opening :: (linesOf (inner ++ [0x0A]) ++ [closing]) := by
    unfold refenced
    rw [List.append_assoc opening, hinner, hbody]
    simp only [List.append_assoc, List.cons_append, List.nil_append]
    rw [linesOf_line hnl, linesOf_append, hclosing]
  rw [hlines, ← hscan]
  show fenceAfter (fenceStep none opening) _ = _
  rw [fenceStep_open opens, fenceAfter_append]
  rfl

theorem fenceAfter_bare (hopen : ∃ body, opening = body ++ [0x0A] ∧ 0x0A ∉ body)
    (opens : fenceMarker (trimSpace opening) ≠ []) (hclosing : linesOf closing = [closing])
    (closes : isClosingFence (trimSpace closing) (fenceMarker (trimSpace opening)) = true) :
    fenceAfter none (linesOf (opening ++ closing)) = none := by
  obtain ⟨body, hbody, hnl⟩ := hopen
  have hlines : linesOf (opening ++ closing) = opening :: ([] ++ [closing]) := by
    rw [hbody, List.append_assoc]
    show linesOf (body ++ 0x0A :: closing) = _
    rw [linesOf_line hnl, hclosing]
    rfl
  rw [hlines]
  exact fenceAfter_fenced opens (List.forall_mem_nil _) closes

/-- The part closes its fences; it is the text itself, or the text has no line outside a fence, or
all lines of the part are outside. -/
def Keeps (s part : Bytes) : Prop :=
  fenceAfter none (linesOf part) = none ∧
    (part = s ∨ (∀ b ∈ outside none (linesOf s), b = false) ∨
      ∀ b ∈ outside none (linesOf part), b = true)

theorem keeps_of_still {part : Bytes} (s : Bytes)
    (h : ∀ l ∈ linesOf part, fenceStep none l = none) : Keeps s part :=
  ⟨fenceAfter_of_still h, .inr (.inr (outside_of_still h))⟩

/-- No fragment of a line that is cut opens or closes a fence. -/
def Packing.Calm (p : Packing) (limit : ℕ) : Prop :=
  ∀ l ∈ p.lines, p.budget limit < l.length → ∀ fragments, Fragments (p.budget limit) l fragments →
    ∀ f ∈ fragments, fenceStep p.fence f = p.fence

/-- A fragment of a line is a line of its own. -/
theorem WellCut.fragment {f : Bytes} (h : WellCut [l]) (hf : f <:+: l) (hne : f ≠ []) :
    WellCut [f] := by
  cases h with
  | last hbody _ => exact .last (fun hmem => hbody (hf.subset hmem)) hne
  | @cons body hbody ls hls =>
    obtain ⟨a, c, heq⟩ := hf
    rcases List.eq_nil_or_concat' c with rfl | ⟨c, b, rfl⟩
    · -- the fragment at the end of the line
      obtain ⟨front, b, rfl⟩ := (List.eq_nil_or_concat' f).resolve_left hne
      rw [List.append_nil, ← List.append_assoc] at heq
      obtain ⟨rfl, hb⟩ := List.append_inj' heq rfl
      rw [(List.cons.inj hb).1]
      exact .cons (fun hmem => hbody (List.mem_append_right a hmem)) .nil
    · rw [← List.append_assoc] at heq
      obtain ⟨rfl, -⟩ := List.append_inj' heq rfl
      exact .last (fun hmem => hbody (List.mem_append_left c (List.mem_append_right a hmem))) hne

theorem Fragments.ne_nil {limit : ℕ} (hlimit : 1 ≤ limit) (h : Fragments limit s parts) :
    ∀ part ∈ parts, part ≠ [] := by
  induction h with
  | short fits => exact fun part hpart => (mem_flush hpart).1 ▸ (mem_flush hpart).2
  | @long s rest long h ih =>
    refine List.forall_mem_cons.mpr ⟨?_, ih⟩
    have hpos := cutAt_pos hlimit s
    rw [ne_eq, List.take_eq_nil_iff, not_or]
    exact ⟨by omega, fun hs => by rw [hs, List.length_nil] at long; omega⟩

theorem Fragments.linesOf {limit : ℕ} (hlimit : 1 ≤ limit) {fragments : List Bytes}
    (h : Fragments limit l fragments) (hl : WellCut [l]) : ∀ f ∈ fragments, linesOf f = [f] := by
  intro f hf
  have hin : f <:+: l := h.flatten_eq ▸ List.infix_of_mem_flatten hf
  have hlines := (hl.fragment hin (h.ne_nil hlimit f hf)).linesOf
  rwa [List.flatten_singleton] at hlines

section Packs

variable {limit rounds : ℕ} {g chunks : List Bytes} {p : Packing}

theorem Packs.still (h : Packs limit g p) : ∀ l ∈ p.lines, fenceStep p.fence l = p.fence := by
  cases h with
  | plain outside => exact fun l hl => fenceStep_none (outside l hl)
  | table outside =>
    exact fun l hl =>
      fenceStep_none (outside l (List.mem_cons_of_mem _ (List.mem_cons_of_mem _ hl)))
  | fenced opens inside => exact fun l hl => fenceStep_inside (inside l hl)

/-- The line that closes the parts of a block that closes its fence. -/
theorem ClosedBy.closes {inner tail : List Bytes}
    (h : ClosedBy (fenceMarker (trimSpace opening)) tail closing)
    (hcut : WellCut (opening :: (inner ++ tail))) (opens : fenceMarker (trimSpace opening) ≠ [])
    (inside : ∀ l ∈ inner, isClosingFence (trimSpace l) (fenceMarker (trimSpace opening)) = false)
    (hclosed : fenceAfter none (opening :: (inner ++ tail)) = none) :
    (∃ body, opening = body ++ [0x0A] ∧ 0x0A ∉ body) ∧ linesOf closing = [closing] ∧
      isClosingFence (trimSpace closing) (fenceMarker (trimSpace opening)) = true ∧
      ∀ b ∈ outside none (opening :: (inner ++ tail)), b = false := by
  rcases h with ⟨rfl, -⟩ | ⟨last, rfl, closes, rfl⟩
  · rw [List.append_nil, fenceAfter_inside opens inside] at hclosed
    nomatch hclosed
  · have hlast : WellCut [last] := (hcut.right (a := [opening])).right
    rw [← trimSpace_trimLineEnd] at closes
    have hne : trimLineEnd last ≠ [] := fun hnil => by
      rw [hnil, isClosingFence_nil] at closes
      nomatch closes
    refine ⟨hcut.lineEnd (List.concat_ne_nil last inner),
      linesOf_last hlast.not_mem_trimLineEnd hne, closes, ?_⟩
    rw [outside, fenceStep_open opens]
    exact List.forall_mem_cons.mpr ⟨rfl, outside_inside inside last⟩

/-- Behind the header of a table are the lines of the chunk. -/
theorem linesOf_headed {line delimiter : Bytes} {rows : List Bytes}
    (hcut : WellCut (line :: delimiter :: rows)) (hrows : rows ≠ []) (chunk : Bytes) :
    linesOf (line ++ delimiter ++ chunk) = line :: delimiter :: linesOf chunk := by
  obtain ⟨body, rfl, hbody⟩ := hcut.lineEnd (List.cons_ne_nil _ _)
  obtain ⟨body', rfl, hbody'⟩ := (hcut.right (a := [body ++ [0x0A]])).lineEnd hrows
  simp only [List.append_assoc, List.cons_append, List.nil_append]
  rw [linesOf_line hbody, linesOf_line hbody']

theorem Packs.keeps_bare (h : Packs limit g p) (hcut : WellCut g)
    (hclosed : fenceAfter none g = none) : ∀ part ∈ p.bare, Keeps g.flatten part := by
  cases h with
  | plain => exact List.forall_mem_nil _
  | @table line delimiter rows outside row room =>
    have hlines := (hcut.left (a := [line, delimiter])).linesOf
    rw [List.flatten_cons, List.flatten_singleton] at hlines
    refine List.forall_mem_singleton.mpr
      (keeps_of_still _ fun l hl => fenceStep_none (outside l ?_))
    rw [hlines] at hl
    exact List.mem_append_left rows hl
  | fenced opens inside closed =>
    obtain ⟨hopen, hclosing, closes, hnone⟩ := closed.closes hcut opens inside hclosed
    rw [← hcut.linesOf] at hnone
    exact List.forall_mem_singleton.mpr
      ⟨fenceAfter_bare hopen opens hclosing closes, .inr (.inl hnone)⟩

theorem Packs.keeps_wrap (h : Packs limit g p) (hcut : WellCut g)
    (hclosed : fenceAfter none g = none) (hlines : p.lines ≠ []) {chunk : Bytes}
    (hstill : ∀ l ∈ linesOf chunk, fenceStep p.fence l = p.fence) :
    Keeps g.flatten (p.wrap chunk) := by
  cases h with
  | plain => exact keeps_of_still _ hstill
  | table outside row room =>
    refine keeps_of_still _ ?_
    rw [linesOf_headed hcut hlines, List.forall_mem_cons, List.forall_mem_cons]
    rw [List.forall_mem_cons, List.forall_mem_cons] at outside
    exact ⟨fenceStep_none outside.1, fenceStep_none outside.2.1, hstill⟩
  | fenced opens inside closed =>
    obtain ⟨hopen, hclosing, closes, hnone⟩ := closed.closes hcut opens inside hclosed
    rw [← hcut.linesOf] at hnone
    refine ⟨?_, .inr (.inl hnone)⟩
    rw [fenceAfter_refenced chunk hopen opens hclosing, fenceAfter_of_still hstill]
    exact fenceStep_close closes

/-- A fragment that opens or closes a fence leaves one open in its part: the line that is to close
the part opens another one. -/
theorem Packs.still_of_closes (h : Packs limit g p) (hcut : WellCut g)
    (hclosed : fenceAfter none g = none) (hlines : p.lines ≠ []) {f : Bytes}
    (hone : linesOf f = [f]) (hf : fenceAfter none (linesOf (p.wrap f)) = none) :
    fenceStep p.fence f = p.fence := by
  cases h with
  | plain =>
    change fenceAfter none (linesOf f) = none at hf
    rw [hone] at hf
    exact hf
  | @table line delimiter rows outside row room =>
    rw [List.forall_mem_cons, List.forall_mem_cons] at outside
    rw [linesOf_headed hcut hlines, hone] at hf
    change fenceStep (fenceStep (fenceStep none line) delimiter) f = none at hf
    rw [fenceStep_none outside.1, fenceStep_none outside.2.1] at hf
    exact hf
  | @fenced opening closing inner tail opens inside closed =>
    obtain ⟨hopen, hclosing, closes, -⟩ := closed.closes hcut opens inside hclosed
    rw [fenceAfter_refenced f hopen opens hclosing, hone] at hf
    by_cases hclose : isClosingFence (trimSpace f) (fenceMarker (trimSpace opening)) = true
    · change fenceStep (fenceStep (some (fenceMarker (trimSpace opening))) f) closing = none at hf
      rw [fenceStep_close hclose, fenceStep_open (fenceMarker_of_closing opens closes)] at hf
      nomatch hf
    · exact fenceStep_inside (Bool.eq_false_iff.mpr hclose)

theorem Packs.calm_of_closes (h : Packs limit g p) (hcut : WellCut g)
    (hclosed : fenceAfter none g = none) (hlimit : 2 ≤ limit)
    (hchunks : p.chunks rounds limit = some chunks)
    (hparts : ∀ part ∈ p.parts chunks, fenceAfter none (linesOf part) = none) : p.Calm limit := by
  have hlines := hcut.part h.infix_lines
  intro l hl hlong fragments hfragments f hf
  have hone := hfragments.linesOf (p.budget_pos hlimit) (hlines.single hl) f hf
  have hmem : f ∈ chunks :=
    (Packing.segmented hlines hchunks).subset Fragments.unique hl hlong hfragments hf
  exact h.still_of_closes hcut hclosed (List.ne_nil_of_mem hl) hone
    (((Packing.forall_parts hlines hchunks).mp hparts).2 f hmem)

theorem Packs.keeps_of_calm (h : Packs limit g p) (hcut : WellCut g)
    (hclosed : fenceAfter none g = none) (hlimit : 2 ≤ limit)
    (hchunks : p.chunks rounds limit = some chunks) (hcalm : p.Calm limit) :
    ∀ part ∈ p.parts chunks, Keeps g.flatten part := by
  have hlines := hcut.part h.infix_lines
  have hstill : ∀ chunk ∈ chunks, ∀ l ∈ linesOf chunk, fenceStep p.fence l = p.fence := by
    refine (Packing.segmented hlines hchunks).forall_mem (fun ls hls _ => ?_)
      fun l hl hlong fragments hfragments f hf => ?_
    · rw [(hlines.part hls).linesOf]
      exact fun l hl => h.still l (hls.subset hl)
    · rw [hfragments.linesOf (p.budget_pos hlimit) (hlines.single hl) f hf]
      exact List.forall_mem_singleton.mpr (hcalm l hl hlong fragments hfragments f hf)
  refine (Packing.forall_parts hlines hchunks).mpr
    ⟨fun _ => h.keeps_bare hcut hclosed, fun chunk hchunk => ?_⟩
  exact h.keeps_wrap hcut hclosed (Packing.lines_ne_nil hchunks (List.ne_nil_of_mem hchunk))
    (hstill chunk hchunk)

/-- A line without three backticks or tildes in a row has no fence line in it. -/
theorem Packs.calm_of_quiet (h : Packs limit g p)
    (hquiet : ∀ l ∈ p.lines, p.budget limit < l.length → Quiet l) : p.Calm limit := by
  intro l hl hlong fragments hfragments f hf
  have hin : f <:+: l := hfragments.flatten_eq ▸ List.infix_of_mem_flatten hf
  have hf := (hquiet l hl hlong).part hin
  cases h with
  | plain => exact fenceStep_none hf.fenceMarker
  | table => exact fenceStep_none hf.fenceMarker
  | fenced opens inside closed => exact fenceStep_inside (hf.isClosingFence opens)

end Packs

/-! ## The whole text -/

/-- The lines of blocks one after the other are the lines of each. -/
theorem linesOf_flatten {text : Bytes} {blks : List Bytes} (h : blks <:+: blocks text) :
    linesOf blks.flatten = (blks.map linesOf).flatten := by
  obtain ⟨gs, hblks, hlines, hgs⟩ := blocks_grouped text
  have hcut := (linesOf_spec text).1
  have hmap : (blocks text).map linesOf = gs := by
    rw [hblks, List.map_map]
    refine (List.map_congr_left fun g hg => ?_).trans (List.map_id gs)
    rw [← hlines] at hcut
    exact (hcut.part (List.infix_of_mem_flatten hg)).linesOf
  have hpart : WellCut (blks.map linesOf).flatten := by
    refine hcut.part ?_
    rw [← hlines, ← hmap]
    exact (h.map linesOf).flatten
  have hflat : (blks.map linesOf).flatten.flatten = blks.flatten := by
    rw [List.flatten_flatten, List.map_map]
    refine congrArg List.flatten ((List.map_congr_left fun blk _ => ?_).trans (List.map_id blks))
    exact (linesOf_spec blk).2
  rw [← hflat, hpart.linesOf]

section Text

variable {text : Bytes} {limit rounds : ℕ} (hclosed : fenceAfter none (linesOf text) = none)
include hclosed

/-- The blocks of a text that closes its fences. -/
theorem blocks_closed {blk : Bytes} (hblk : blk ∈ blocks text) :
    ∃ g, WellCut g ∧ Block g ∧ fenceAfter none g = none ∧ blk = g.flatten := by
  obtain ⟨gs, hblks, hlines, hgs⟩ := blocks_grouped text
  rw [hblks] at hblk
  obtain ⟨g, hg, rfl⟩ := List.mem_map.mp hblk
  have hin : g <:+: linesOf text := hlines ▸ List.infix_of_mem_flatten hg
  exact ⟨g, (linesOf_spec text).1.part hin, (hgs g hg).1, (hgs g hg).2 hclosed, rfl⟩

theorem fenceAfter_blocks {blks : List Bytes} (hblks : blks <:+: blocks text) :
    fenceAfter none (linesOf blks.flatten) = none := by
  rw [linesOf_flatten hblks]
  refine fenceAfter_flatten fun ls hls => ?_
  obtain ⟨blk, hblk, rfl⟩ := List.mem_map.mp hls
  obtain ⟨g, hcut, -, hg, rfl⟩ := blocks_closed hclosed (hblks.subset hblk)
  rwa [hcut.linesOf]

/-- The parts of a block that is too long. -/
theorem splitBlock_fences {blk : Bytes} (hblk : blk ∈ blocks text) (hlimit : 2 ≤ limit)
    (h : splitBlock rounds limit blk = some parts) :
    ((∀ part ∈ parts, fenceAfter none (linesOf part) = none) → (packing limit blk).Calm limit) ∧
      ((packing limit blk).Calm limit → ∀ part ∈ parts, Keeps blk part) := by
  obtain ⟨g, hcut, hblock, hg, rfl⟩ := blocks_closed hclosed hblk
  have hpacks := packing_packs hcut hblock limit
  rw [splitBlock_eq] at h
  obtain ⟨chunks, hchunks, rfl⟩ := Option.map_eq_some_iff.mp h
  exact ⟨hpacks.calm_of_closes hcut hg hlimit hchunks,
    hpacks.keeps_of_calm hcut hg hlimit hchunks⟩

end Text

/-- The parts close their fences and come from blocks one after the other. The lines of a part are
those of its blocks, or its block has no line outside a fence, or all its lines are outside. -/
def KeepsFences (limit : ℕ) (text : Bytes) (parts : List Bytes) : Prop :=
  (∀ part ∈ parts, fenceAfter none (linesOf part) = none) ∧
    ∃ segs : List (List Bytes × List Bytes), blocks text = (segs.map Prod.fst).flatten ∧
      parts = (segs.map Prod.snd).flatten ∧
      outside none (linesOf text) =
        (segs.map fun seg => outside none (linesOf seg.1.flatten)).flatten ∧
      ∀ seg ∈ segs, Segment limit (Cut limit) seg.1 seg.2 ∧
        ∀ part ∈ seg.2, Keeps seg.1.flatten part

theorem outside_segments {text : Bytes} (hclosed : fenceAfter none (linesOf text) = none)
    {segs : List (List Bytes × List Bytes)} (hblocks : blocks text = (segs.map Prod.fst).flatten) :
    outside none (linesOf text) =
      (segs.map fun seg => outside none (linesOf seg.1.flatten)).flatten := by
  have hrun : ∀ seg ∈ segs, seg.1 <:+: blocks text := fun seg hseg => by
    rw [hblocks]
    exact List.infix_of_mem_flatten (List.mem_map.mpr ⟨seg, hseg, rfl⟩)
  have htext : linesOf text = (segs.map fun seg => linesOf seg.1.flatten).flatten :=
    calc linesOf text = linesOf (blocks text).flatten := by rw [blocks_flatten]
      _ = ((blocks text).map linesOf).flatten := linesOf_flatten (List.infix_refl _)
      _ = (segs.map fun seg => (seg.1.map linesOf).flatten).flatten := by
        rw [hblocks, List.map_flatten, List.flatten_flatten, List.map_map, List.map_map]
        rfl
      _ = (segs.map fun seg => linesOf seg.1.flatten).flatten :=
        congrArg List.flatten (List.map_congr_left fun seg hseg =>
          (linesOf_flatten (hrun seg hseg)).symm)
  rw [htext, outside_flatten, List.map_map]
  · rfl
  · intro g hg
    obtain ⟨seg, hseg, rfl⟩ := List.mem_map.mp hg
    exact fenceAfter_blocks hclosed (hrun seg hseg)

theorem keepsFences_of_calm {text : Bytes} {limit rounds : ℕ} (hlimit : 2 ≤ limit)
    (hclosed : fenceAfter none (linesOf text) = none) (h : split rounds text limit = some parts)
    (hcalm : ∀ blk ∈ blocks text, limit < blk.length → (packing limit blk).Calm limit) :
    KeepsFences limit text parts := by
  obtain ⟨segs, hblocks, rfl, hsegs⟩ := (split_segmented (by omega) h).imp
    (fun blk ps => Cut limit blk ps ∧ ∀ part ∈ ps, Keeps blk part) fun blk hblk hlong ps hps =>
      ⟨splitBlock_cut_of_mem hblk hps,
        (splitBlock_fences hclosed hblk hlimit hps).2 (hcalm blk hblk hlong)⟩
  have hkeeps : ∀ seg ∈ segs, Segment limit (Cut limit) seg.1 seg.2 ∧
      ∀ part ∈ seg.2, Keeps seg.1.flatten part := by
    intro seg hseg
    have hrun : seg.1 <:+: blocks text := by
      rw [hblocks]
      exact List.infix_of_mem_flatten (List.mem_map.mpr ⟨seg, hseg, rfl⟩)
    obtain ⟨blks, ps⟩ := seg
    have hsegment : Segment limit _ blks ps := hsegs _ hseg
    cases hsegment with
    | whole fits =>
      exact ⟨.whole fits, List.forall_mem_singleton.mpr ⟨fenceAfter_blocks hclosed hrun, .inl rfl⟩⟩
    | oversize long hcut =>
      refine ⟨.oversize long hcut.1, ?_⟩
      rw [List.flatten_singleton]
      exact hcut.2
  refine ⟨fun part hpart => ?_, segs, hblocks, rfl, outside_segments hclosed hblocks, hkeeps⟩
  obtain ⟨ps, hps, hpart⟩ := List.mem_flatten.mp hpart
  obtain ⟨seg, hseg, rfl⟩ := List.mem_map.mp hps
  exact ((hkeeps seg hseg).2 part hpart).1

/-- The parts of a text that closes its fences keep them if and only if no line that is cut has a
fragment that is a fence line. That is so if the lines that are cut are quiet. -/
theorem split_closes (text : Bytes) (limit : ℕ) (hlimit : 2 ≤ limit)
    (hclosed : fenceAfter none (linesOf text) = none) (rounds : ℕ)
    (hrounds : text.length ≤ rounds) :
    ∃ parts, split rounds text limit = some parts ∧
      (KeepsFences limit text parts ↔
        ∀ blk ∈ blocks text, limit < blk.length → (packing limit blk).Calm limit) ∧
      ∀ blk ∈ blocks text, (∀ l ∈ (packing limit blk).lines,
        (packing limit blk).budget limit < l.length → Quiet l) →
        (packing limit blk).Calm limit := by
  obtain ⟨parts, hparts⟩ := Option.isSome_iff_exists.mp (split_isSome hlimit hrounds)
  refine ⟨parts, hparts, ⟨fun hkeeps blk hblk hlong => ?_,
    keepsFences_of_calm hlimit hclosed hparts⟩, fun blk hblk hquiet => ?_⟩
  · have hsome : (splitBlock rounds limit blk).isSome = true :=
      splitBlock_isSome hblk hlimit hrounds
    obtain ⟨ps, hps⟩ := Option.isSome_iff_exists.mp hsome
    refine (splitBlock_fences hclosed hblk hlimit hps).1 fun part hpart => hkeeps.1 part ?_
    exact (split_segmented (by omega) hparts).subset
      (fun hps hqs => Option.some.inj (hps.symm.trans hqs)) hblk hlong hps hpart
  · obtain ⟨g, hcut, hblock, -, rfl⟩ := blocks_closed hclosed hblk
    exact (packing_packs hcut hblock limit).calm_of_quiet hquiet

/-- Words outside a fence, and a fence that is too long for one part. -/
def quietText : Bytes := utf8 "a\n\n~~~\nxyxyxyxyxy\nzwzwzw\n~~~\n"

theorem split_closes_quietText :
    ∃ parts, split quietText.length quietText 16 = some parts ∧
      ∀ part ∈ parts, fenceAfter none (linesOf part) = none := by
  obtain ⟨parts, hparts, hkeeps, hquiet⟩ := split_closes quietText 16 (by decide) (by decide) _
    (Nat.le_refl quietText.length)
  refine ⟨parts, hparts, (hkeeps.mpr fun blk hblk _ => hquiet blk hblk ?_).1⟩
  revert blk
  decide

/-! ## A line that is cut before backticks -/

theorem pack_one {limit : ℕ} {oversize : Bytes → Option (List Bytes)} {piece : Bytes}
    (h : limit < piece.length) : pack limit oversize [piece] [] = oversize piece := by
  rw [pack, if_pos h]
  cases oversize piece with
  | none => rfl
  | some parts => exact congrArg some (List.append_nil parts)

/-- A text that is one block and too long. -/
theorem split_one {rounds limit : ℕ} {text : Bytes} (hlimit : 1 ≤ limit)
    (hlong : limit < text.length) (hblocks : blocks text = [text])
    (h : splitBlock rounds limit text = some parts) (hne : parts ≠ []) :
    split rounds text limit = some parts := by
  rw [split, if_neg (by omega), hblocks, pack_one hlong, h]
  exact congrArg some (if_neg hne)

/-- A line without a fence. -/
def cutLine : Bytes := utf8 "aaaaaaaaaaaaaaaa```b"

theorem split_cutLine :
    split cutLine.length cutLine 16 = some [utf8 "aaaaaaaaaaaaaaaa", utf8 "```b"] := by
  refine split_one (by decide) (by decide) (by decide) ?_ (List.cons_ne_nil _ _)
  have hmarker : fenceMarker (trimSpace (firstLine cutLine)) = [] := by decide
  have hlines : nonEmpty (splitAfter cutLine) = [cutLine] := by decide
  have htable : isTable cutLine = false := by decide
  simp only [splitBlock, hmarker, htable, packLines, hlines, ne_eq, not_true_eq_false, if_false,
    Bool.false_eq_true]
  rw [pack_one (by decide)]
  decide

/-- A fenced line with backticks at its end. -/
def cutFence : Bytes := utf8 "```\naaaaaaaa```\n```\n"

theorem split_cutFence :
    split cutFence.length cutFence 16 = some [utf8 "```\naaaaaaaa\n```", utf8 "```\n```\n```"] := by
  refine split_one (by decide) (by decide) (by decide) ?_ (List.cons_ne_nil _ _)
  have hmarker : fenceMarker (trimSpace (firstLine cutFence)) = utf8 "```" := by decide
  have hlines : splitAfter cutFence = [utf8 "```\n", utf8 "aaaaaaaa```\n", utf8 "```\n", []] := by
    decide
  have hclose : closeLine (utf8 "```") [utf8 "aaaaaaaa```\n", utf8 "```\n", []] =
      (utf8 "```", [utf8 "aaaaaaaa```\n"]) := by decide
  have hchunks : packLines cutFence.length [utf8 "aaaaaaaa```\n"] 8 =
      some [utf8 "aaaaaaaa", utf8 "```\n"] := by
    show pack 8 _ [utf8 "aaaaaaaa```\n"] [] = _
    rw [pack_one (by decide)]
    decide
  have hfence : utf8 "```" ≠ [] := by decide
  simp only [splitBlock, hmarker, if_pos hfence, splitCodeBlock, hlines, hclose]
  have hbudget : (if 16 ≤ (utf8 "```\n").length + (utf8 "```").length + 1 then 16 / 2
    else 16 - ((utf8 "```\n").length + (utf8 "```").length + 1)) = 8 := by decide
  rw [hbudget, hchunks]
  decide

/-- Both texts close their fences. In the second the fragment behind the cut closes the fence of its
part, and the line that is to close it opens another; in the first it is a fence line itself. -/
theorem split_opens :
    (fenceAfter none (linesOf cutLine) = none ∧
      ∃ parts, split cutLine.length cutLine 16 = some parts ∧
        ∃ part ∈ parts, fenceAfter none (linesOf part) ≠ none) ∧
    fenceAfter none (linesOf cutFence) = none ∧
      ∃ parts, split cutFence.length cutFence 16 = some parts ∧
        ∃ part ∈ parts, fenceAfter none (linesOf part) ≠ none := by
  constructor
  · exact ⟨by decide, _, split_cutLine, utf8 "```b", by decide, by decide⟩
  · exact ⟨by decide, _, split_cutFence, utf8 "```\n```\n```", by decide, by decide⟩

end AgentOps.Slackbot
