import AgentOps.Slackbot.SplitLossless

/-!
# The size of the parts

A part of a block that is too long repeats a header or two fence lines, and the lines that are
packed have the bytes that are left. A line that is longer than these is cut, and a rune is cut with
it exactly when it is longer itself. `Packing.Roomy` is what a block needs for parts that are valid
and within the limit, and the text needs it of each block that is too long.
-/

namespace AgentOps.Slackbot

open AgentOps.Lib

variable {opening closing chunk : Bytes}

/-- A part that Slack can be sent. -/
def Fits (limit : ℕ) (part : Bytes) : Prop := ValidUtf8 part ∧ part.length ≤ limit

/-! ## Lines that are cut -/

/-- A line is cut between runes if and only if none of its runes is longer than the limit. -/
theorem Fragments.validUtf8 {limit : ℕ} {s : Bytes} {parts : List Bytes}
    (h : Fragments limit s parts) (hlimit : 1 ≤ limit) (hs : ValidUtf8 s) :
    (∀ part ∈ parts, ValidUtf8 part) ↔ RunesWithin limit s := by
  induction h with
  | short fits =>
    exact iff_of_true (fun part hpart => (mem_flush hpart).1 ▸ hs)
      (hs.runesWithin_of_le hlimit fits)
  | @long s rest long h ih =>
    by_cases hzero : backUp s limit = 0
    · -- no rune starts in the bytes behind the first, up to the one at the cut
      have hnone : ∀ j, 1 ≤ j → j ≤ limit → ¬ s[j]?.any runeStart = true := by
        intro j hpos hle hstart
        have := le_backUp hle hstart
        omega
      refine iff_of_false (fun hparts => ?_) fun hruns => ?_
      · have hdrop : ValidUtf8 (s.drop limit) := by
          have hrest := validUtf8_flatten (List.forall_mem_cons.mp hparts).2
          rwa [h.flatten_eq, cutAt, if_pos hzero] at hrest
        have hstart := hdrop.runeStart_zero (by rw [List.length_drop]; omega)
        rw [List.getElem?_drop] at hstart
        exact hnone limit hlimit (Nat.le_refl _) hstart
      · obtain ⟨j, hle, hlt, hstart⟩ := hruns 1 (by omega)
        exact hnone j hle (by omega) hstart
    · have hpos : 0 < backUp s limit := by omega
      have hcut : cutAt limit s = backUp s limit := if_neg hzero
      obtain ⟨htake, hdrop⟩ := hs.cut_backUp hpos
      rw [hcut] at ih ⊢
      rw [List.forall_mem_cons,
        ← hs.runesWithin_drop hpos (backUp_le s limit) (runeStart_backUp hpos)]
      exact (and_iff_right htake).trans (ih hdrop)

/-! ## Chunks -/

namespace Packing

variable {p : Packing} {rounds limit : ℕ} {chunks : List Bytes}

/-- No line that is packed has a rune that is longer than the bytes that are left for it. Where none
is left, all lines are in one part: the line end that the overhead counts is then their own. -/
def Roomy (p : Packing) (limit : ℕ) : Prop :=
  if limit ≤ p.overhead then p.overhead + p.lines.flatten.length ≤ limit + 1
  else ∀ l ∈ p.lines, RunesWithin (limit - p.overhead) l

theorem length_of_mem_chunks (hcut : WellCut p.lines) (h : p.chunks rounds limit = some chunks) :
    ∀ chunk ∈ chunks, chunk.length ≤ p.budget limit :=
  (segmented hcut h).forall_mem (fun _ _ hle => hle) fun _ _ _ _ hps => hps.length_le

theorem validUtf8_chunks (hcut : WellCut p.lines) (hv : ∀ l ∈ p.lines, ValidUtf8 l)
    (hlimit : 2 ≤ limit) (h : p.chunks rounds limit = some chunks) :
    (∀ chunk ∈ chunks, ValidUtf8 chunk) ↔ ∀ l ∈ p.lines, RunesWithin (p.budget limit) l := by
  have hbudget := p.budget_pos hlimit
  rw [(segmented hcut h).forall_iff Fragments.unique fun g hg _ =>
    validUtf8_flatten fun l hl => hv l (hg.subset hl)]
  refine forall₂_congr fun l hl => ?_
  by_cases hlong : p.budget limit < l.length
  · obtain ⟨ps, hps⟩ := exists_fragments hbudget l
    rw [← hps.validUtf8 hbudget (hv l hl)]
    exact ⟨fun h => h hlong ps hps, fun h _ qs hqs => hps.unique hqs ▸ h⟩
  · exact iff_of_true (fun hlong' => absurd hlong' hlong)
      ((hv l hl).runesWithin_of_le hbudget (by omega))

end Packing

/-! ## The parts of a block -/

/-- What is behind a line end is valid by itself. -/
theorem validUtf8_behind {s t : Bytes} (hs : ValidUtf8 s) (hend : ∃ body, s = body ++ [0x0A]) :
    ValidUtf8 (s ++ t) ↔ ValidUtf8 t := by
  obtain ⟨body, rfl⟩ := hend
  rw [List.append_assoc, List.singleton_append, validUtf8_line]
  exact and_iff_right (validUtf8_line.mp hs).1

theorem validUtf8_before {s t : Bytes} (ht : ValidUtf8 t) : ValidUtf8 (s ++ t) ↔ ValidUtf8 s :=
  ⟨fun h => (h.cut ht.atRune).1, fun h => h.append ht⟩

theorem validUtf8_refenced (hopening : ValidUtf8 opening) (hend : ∃ body, opening = body ++ [0x0A])
    (hclosing : ValidUtf8 closing) :
    ValidUtf8 (refenced opening closing chunk) ↔ ValidUtf8 chunk := by
  have hline : ValidUtf8 (if chunk.getLast? = some 0x0A then [] else [0x0A]) := by
    split
    · exact validUtf8_nil
    · exact validUtf8_utf8 "\n"
  unfold refenced
  rw [validUtf8_before hclosing, validUtf8_before hline, validUtf8_behind hopening hend]

theorem length_refenced (opening closing chunk : Bytes) :
    (refenced opening closing chunk).length = opening.length + closing.length + chunk.length +
      if chunk.getLast? = some 0x0A then 0 else 1 := by
  unfold refenced
  simp only [List.length_append]
  split
  · rw [List.length_nil]
    omega
  · rw [List.length_singleton]
    omega

theorem ClosedBy.validUtf8 {tail : List Bytes}
    (h : ClosedBy (fenceMarker (trimSpace opening)) tail closing) (hv : ∀ l ∈ tail, ValidUtf8 l) :
    ValidUtf8 closing := by
  rcases h with ⟨-, rfl⟩ | ⟨last, rfl, -, rfl⟩
  · exact validUtf8_fenceMarker _
  · exact validUtf8_trimLineEnd (hv last List.mem_cons_self)

section Packs

variable {limit rounds : ℕ} {g chunks : List Bytes} {p : Packing}

theorem Packs.bare_fits (h : Packs limit g p) (hv : ∀ l ∈ g, ValidUtf8 l)
    (hroom : p.overhead ≤ limit + 1) : ∀ part ∈ p.bare, Fits limit part := by
  cases h with
  | plain => exact List.forall_mem_nil _
  | table outside row room =>
    rw [List.forall_mem_cons, List.forall_mem_cons] at hv
    exact List.forall_mem_singleton.mpr ⟨hv.1.append hv.2.1, room.le⟩
  | fenced opens inside closed =>
    rw [List.forall_mem_cons, List.forall_mem_append] at hv
    refine List.forall_mem_singleton.mpr ⟨hv.1.append (closed.validUtf8 hv.2.2), ?_⟩
    rw [List.length_append]
    exact Nat.le_of_succ_le_succ hroom

/-- A part is valid when its chunk is, and within the limit unless the chunk has more bytes than
are left. -/
theorem Packs.wrap_fits (h : Packs limit g p) (hcut : WellCut g) (hv : ∀ l ∈ g, ValidUtf8 l)
    (hlines : p.lines ≠ []) (hlen : chunk.length + p.overhead ≤ limit) :
    Fits limit (p.wrap chunk) ↔ ValidUtf8 chunk := by
  cases h with
  | plain => exact and_iff_left hlen
  | @table line delimiter rows outside row room =>
    rw [List.forall_mem_cons, List.forall_mem_cons] at hv
    obtain ⟨body, rfl, -⟩ := (hcut.right (a := [line])).lineEnd hlines
    refine (and_iff_left ?_).trans (validUtf8_behind (hv.1.append hv.2.1) ?_)
    · rw [List.length_append]
      dsimp only at hlen
      omega
    · exact ⟨line ++ body, (List.append_assoc _ _ _).symm⟩
  | @fenced opening closing inner tail opens inside closed =>
    rw [List.forall_mem_cons, List.forall_mem_append] at hv
    obtain ⟨body, hbody, -⟩ := hcut.lineEnd (List.append_ne_nil_of_left_ne_nil hlines tail)
    refine (and_iff_left ?_).trans
      (validUtf8_refenced hv.1 ⟨body, hbody⟩ (closed.validUtf8 hv.2.2))
    rw [length_refenced]
    dsimp only at hlen
    split
    · omega
    · omega

theorem pack_head {oversize : Bytes → Option (List Bytes)} {pieces parts : List Bytes} {cur : Bytes}
    (hcur : cur ≠ []) (h : pack limit oversize pieces cur = some parts) :
    ∃ more rest, parts = (cur ++ more) :: rest := by
  have hflush : flush cur = [cur ++ []] := by rw [flush, if_neg hcur, List.append_nil]
  induction pieces generalizing cur with
  | nil => exact ⟨[], [], (Option.some.inj h).symm.trans hflush⟩
  | cons piece pieces ih =>
    rw [pack] at h
    split at h
    · obtain ⟨ps, -, h⟩ := Option.bind_eq_some_iff.mp h
      obtain ⟨rest, -, h⟩ := Option.bind_eq_some_iff.mp h
      rw [hflush] at h
      exact ⟨[], ps ++ rest, (Option.some.inj h).symm⟩
    · split at h
      · obtain ⟨rest, -, h⟩ := Option.bind_eq_some_iff.mp h
        rw [hflush] at h
        exact ⟨[], rest, (Option.some.inj h).symm⟩
      · have hne : cur ++ piece ≠ [] := List.append_ne_nil_of_left_ne_nil hcur piece
        obtain ⟨more, rest, rfl⟩ := ih hne h (by rw [flush, if_neg hne, List.append_nil])
        exact ⟨piece ++ more, rest, by rw [List.append_assoc]⟩

/-- Lines of nothing but line ends are empty. -/
theorem WellCut.eq_lineEnd (h : WellCut g) (hends : ∀ b ∈ g.flatten, b = 0x0A) :
    ∀ l ∈ g, l = [0x0A] := by
  have hbody (body : Bytes) (hnl : 0x0A ∉ body) (hb : ∀ b ∈ body, b = 0x0A) : body = [] :=
    List.eq_nil_iff_forall_not_mem.mpr fun b hmem => hnl (hb b hmem ▸ hmem)
  induction h with
  | nil => exact List.forall_mem_nil _
  | @last body hnl hne =>
    rw [List.flatten_singleton] at hends
    exact absurd (hbody body hnl hends) hne
  | @cons body hnl ls hls ih =>
    rw [List.flatten_cons, List.forall_mem_append, List.forall_mem_append] at hends
    rw [hbody body hnl hends.1.1]
    exact List.forall_mem_cons.mpr ⟨rfl, ih hends.2⟩

/-- Where the fence lines leave no byte, a chunk has room only if it is a line end: that is the one
that the overhead counts. -/
theorem refenced_tight (htight : limit ≤ opening.length + closing.length + 1)
    (h : (refenced opening closing chunk).length ≤ limit) :
    (∀ b ∈ chunk, b = 0x0A) ∧ chunk.length ≤ 1 ∧ opening.length + closing.length + 1 ≤ limit := by
  rw [length_refenced] at h
  split at h
  · next hend =>
    obtain ⟨body, rfl⟩ := List.getLast?_eq_some_iff.mp hend
    rw [List.length_append, List.length_singleton] at h ⊢
    obtain rfl : body = [] := List.eq_nil_of_length_eq_zero (by omega)
    refine ⟨List.forall_mem_singleton.mpr rfl, Nat.le_refl _, ?_⟩
    rw [List.length_nil] at h
    omega
  · obtain rfl : chunk = [] := List.eq_nil_of_length_eq_zero (by omega)
    exact ⟨List.forall_mem_nil _, Nat.zero_le _, by omega⟩

/-- Two line ends are packed together, so that only a single one is in parts with room. -/
theorem length_of_refenced {inner : List Bytes} {oversize : Bytes → Option (List Bytes)}
    {budget : ℕ} (hbudget : 2 ≤ budget) (hcut : WellCut inner) (hne : inner ≠ [])
    (htight : limit ≤ opening.length + closing.length + 1)
    (hjoined : chunks.flatten = inner.flatten)
    (hchunks : pack budget oversize inner [] = some chunks)
    (h : ∀ chunk ∈ chunks, (refenced opening closing chunk).length ≤ limit) :
    opening.length + closing.length + 1 + inner.flatten.length ≤ limit + 1 := by
  have htiny := fun chunk hchunk => refenced_tight htight (h chunk hchunk)
  have hends : ∀ l ∈ inner, l = [0x0A] := by
    refine hcut.eq_lineEnd fun b hb => ?_
    rw [← hjoined] at hb
    obtain ⟨chunk, hchunk, hb⟩ := List.mem_flatten.mp hb
    exact (htiny chunk hchunk).1 b hb
  obtain ⟨l, inner, rfl⟩ := List.exists_cons_of_ne_nil hne
  obtain rfl := hends l List.mem_cons_self
  rw [pack, if_neg (by rw [List.length_singleton]; omega),
    if_neg (by simp only [List.length_nil, List.length_singleton]; omega)] at hchunks
  cases inner with
  | nil =>
    obtain ⟨more, rest, rfl⟩ := pack_head (List.cons_ne_nil _ _) hchunks
    have hroom := (htiny _ List.mem_cons_self).2.2
    exact Nat.succ_le_succ hroom
  | cons l inner =>
    obtain rfl := hends l (List.mem_cons_of_mem _ List.mem_cons_self)
    rw [pack, if_neg (by rw [List.length_singleton]; omega),
      if_neg (by simp only [List.nil_append, List.length_singleton]; omega)] at hchunks
    obtain ⟨more, rest, rfl⟩ := pack_head (List.cons_ne_nil _ _) hchunks
    have htwo := (htiny _ List.mem_cons_self).2.1
    rw [List.length_append] at htwo
    change 2 + more.length ≤ 1 at htwo
    omega

/-- A single byte between the fences of a block that is too long is a line end. -/
theorem eq_lineEnd_of_tight {marker l : Bytes} {inner tail : List Bytes}
    (hcut : WellCut (opening :: (l :: inner ++ tail))) (closed : ClosedBy marker tail closing)
    (hinner : inner.flatten = []) (hl : l.length = 1)
    (hlong : limit < (opening :: (l :: inner ++ tail)).flatten.length)
    (hroom : opening.length + closing.length + 1 ≤ limit) : l = [0x0A] := by
  by_cases htail : inner ++ tail = []
  · -- the block would be the opening line and the byte
    obtain ⟨rfl, rfl⟩ := List.append_eq_nil_iff.mp htail
    simp only [List.append_nil, List.flatten_cons, List.flatten_nil, List.length_append] at hlong
    omega
  · obtain ⟨body, rfl, -⟩ := (hcut.right (a := [opening])).lineEnd htail
    rw [List.length_append, List.length_singleton] at hl
    rw [List.eq_nil_of_length_eq_zero (l := body) (by omega)]
    rfl

theorem refenced_fits (hopening : ValidUtf8 opening) (hend : ∃ body, opening = body ++ [0x0A])
    (hclosing : ValidUtf8 closing) (hroom : opening.length + closing.length + 1 ≤ limit)
    (hchunk : chunk <:+: [0x0A]) : Fits limit (refenced opening closing chunk) := by
  have hcases : chunk = [] ∨ chunk = [0x0A] := by
    rcases List.infix_cons_iff.mp hchunk with hpre | hnil
    · rcases List.prefix_cons_iff.mp hpre with rfl | ⟨rest, rfl, hrest⟩
      · exact .inl rfl
      · rw [List.prefix_nil.mp hrest]
        exact .inr rfl
    · exact .inl (List.infix_nil.mp hnil)
  rw [Fits, validUtf8_refenced hopening hend hclosing, length_refenced]
  rcases hcases with rfl | rfl
  · exact ⟨validUtf8_nil, hroom⟩
  · exact ⟨validUtf8_utf8 "\n", hroom⟩

theorem Packs.tight_iff (h : Packs limit g p) (hcut : WellCut g) (hv : ∀ l ∈ g, ValidUtf8 l)
    (hlimit : 4 ≤ limit) (hlong : limit < g.flatten.length) (htight : limit ≤ p.overhead)
    (hchunks : p.chunks rounds limit = some chunks) :
    (∀ part ∈ p.parts chunks, Fits limit part) ↔
      p.overhead + p.lines.flatten.length ≤ limit + 1 := by
  have hlines := hcut.part h.infix_lines
  have hjoined := Packing.flatten_chunks hlines hchunks
  have hbare := h.bare_fits hv
  rw [Packing.forall_parts hlines hchunks]
  -- only the two lines of a fence can fill the limit
  cases h with
  | plain => exact absurd hlimit (by dsimp only at htight; omega)
  | table outside row room => exact absurd room (by dsimp only at htight; omega)
  | @fenced opening closing inner tail opens inside closed =>
    dsimp only at hbare hjoined hlines htight ⊢
    constructor
    · intro hfits
      by_cases hinner : inner = []
      · have hlen := (hfits.1 hinner _ (List.mem_singleton_self _)).2
        rw [List.length_append] at hlen
        rw [hinner, List.flatten_nil, List.length_nil]
        omega
      · refine length_of_refenced ?_ hlines hinner htight hjoined hchunks
          fun chunk hchunk => (hfits.2 chunk hchunk).2
        rw [Packing.budget, if_pos htight]
        omega
    · intro hroom
      refine ⟨fun _ => hbare (by omega), fun chunk hchunk => ?_⟩
      have hne := Packing.lines_ne_nil hchunks (List.ne_nil_of_mem hchunk)
      have hin : chunk <:+: inner.flatten := hjoined ▸ List.infix_of_mem_flatten hchunk
      obtain ⟨l, inner, rfl⟩ := List.exists_cons_of_ne_nil hne
      have hpos := List.length_pos_of_ne_nil (hlines.ne_nil l List.mem_cons_self)
      rw [List.flatten_cons, List.length_append] at hroom
      have hrest : inner.flatten = [] := List.eq_nil_of_length_eq_zero (by omega)
      have hl := eq_lineEnd_of_tight hcut closed hrest (by omega) hlong (by omega)
      rw [List.flatten_cons, hrest, hl, List.append_nil] at hin
      obtain ⟨body, hbody, -⟩ := hcut.lineEnd (List.cons_ne_nil _ _)
      rw [List.forall_mem_cons, List.forall_mem_append] at hv
      exact refenced_fits hv.1 ⟨body, hbody⟩ (closed.validUtf8 hv.2.2) (by omega) hin

theorem Packs.roomy_iff (h : Packs limit g p) (hcut : WellCut g) (hv : ∀ l ∈ g, ValidUtf8 l)
    (hlimit : 4 ≤ limit) (hlong : limit < g.flatten.length)
    (hchunks : p.chunks rounds limit = some chunks) :
    (∀ part ∈ p.parts chunks, Fits limit part) ↔ p.Roomy limit := by
  unfold Packing.Roomy
  split
  · next htight => exact h.tight_iff hcut hv hlimit hlong htight hchunks
  · next hroom =>
    have hbudget : p.budget limit = limit - p.overhead := if_neg hroom
    have hlines := hcut.part h.infix_lines
    have hsub := h.infix_lines.subset
    have hwrap : ∀ chunk ∈ chunks, Fits limit (p.wrap chunk) ↔ ValidUtf8 chunk := by
      intro chunk hchunk
      have hle := Packing.length_of_mem_chunks hlines hchunks chunk hchunk
      exact h.wrap_fits hcut hv (Packing.lines_ne_nil hchunks (List.ne_nil_of_mem hchunk))
        (by omega)
    rw [← hbudget, Packing.forall_parts hlines hchunks,
      ← Packing.validUtf8_chunks hlines (fun l hl => hv l (hsub hl)) (by omega) hchunks]
    exact (and_iff_right fun _ => h.bare_fits hv (by omega)).trans (forall₂_congr hwrap)

end Packs

/-! ## The whole text -/

theorem splitBlock_fits {text blk : Bytes} (hv : ∀ l ∈ linesOf text, ValidUtf8 l)
    (hblk : blk ∈ blocks text)
    {limit rounds : ℕ} (hlimit : 4 ≤ limit) (hlong : limit < blk.length)
    (hrounds : text.length ≤ rounds) :
    (∀ parts, splitBlock rounds limit blk = some parts → ∀ part ∈ parts, Fits limit part) ↔
      (packing limit blk).Roomy limit := by
  obtain ⟨parts, hparts⟩ := Option.isSome_iff_exists.mp
    (splitBlock_isSome hblk (by omega : 2 ≤ limit) hrounds)
  obtain ⟨g, hg, hcut, hblock, rfl⟩ := blocks_lines hblk
  have hpacks := packing_packs hcut hblock limit
  rw [splitBlock_eq] at hparts ⊢
  obtain ⟨chunks, hchunks, rfl⟩ := Option.map_eq_some_iff.mp hparts
  rw [hparts, ← hpacks.roomy_iff hcut (fun l hl => hv l (hg.subset hl)) hlimit hlong hchunks]
  exact ⟨fun h => h _ rfl, fun h parts hparts => Option.some.inj hparts ▸ h⟩

/-- From a limit of two bytes on the text is split. With a limit of four bytes or more, every part
is valid and within the limit if and only if the blocks that are too long are roomy. -/
theorem split_fits (text : Bytes) (hv : ValidUtf8 text) (limit : ℕ) (hlimit : 2 ≤ limit) :
    ∀ rounds, text.length ≤ rounds → ∃ parts, split rounds text limit = some parts ∧
      (4 ≤ limit → ((∀ part ∈ parts, ValidUtf8 part ∧ part.length ≤ limit) ↔
        ∀ blk ∈ blocks text, limit < blk.length → (packing limit blk).Roomy limit)) := by
  intro rounds hrounds
  obtain ⟨parts, hparts⟩ := Option.isSome_iff_exists.mp (split_isSome hlimit hrounds)
  refine ⟨parts, hparts, fun hfour => ?_⟩
  have hvalid : ∀ l ∈ linesOf text, ValidUtf8 l :=
    (linesOf_spec text).1.validUtf8 ((linesOf_spec text).2.symm ▸ hv)
  have hsome : ∀ {blk ps qs}, splitBlock rounds limit blk = some ps →
      splitBlock rounds limit blk = some qs → ps = qs := fun hps hqs =>
    Option.some.inj (hps.symm.trans hqs)
  have hblocks : ∀ blk ∈ blocks text, ValidUtf8 blk := by
    intro blk hblk
    obtain ⟨g, hg, -, -, rfl⟩ := blocks_lines hblk
    exact validUtf8_flatten fun l hl => hvalid l (hg.subset hl)
  -- a part of whole blocks fits, so that only the blocks that are cut count
  rw [(split_segmented (by omega) hparts).forall_iff hsome fun blks hblks hle =>
    ⟨validUtf8_flatten fun blk hblk => hblocks blk (hblks.subset hblk), hle⟩]
  exact forall₃_congr fun blk hblk hlong => splitBlock_fits hvalid hblk hfour hlong hrounds

/-- A table of which each part has a row with a rune of two bytes. -/
def narrowTable : Bytes := utf8 "|é|\n|-|\n|é|\n|é|\n"

theorem split_fits_narrowTable : ∃ parts, split narrowTable.length narrowTable 14 = some parts ∧
    ∀ part ∈ parts, ValidUtf8 part ∧ part.length ≤ 14 := by
  obtain ⟨parts, hparts, hfits⟩ := split_fits narrowTable (validUtf8_utf8 _) 14 (by decide) _
    (Nat.le_refl narrowTable.length)
  refine ⟨parts, hparts, (hfits (by decide)).mpr fun blk hblk _ => ?_⟩
  have hblocks : blocks narrowTable = [narrowTable] := by decide +kernel
  have hoverhead : (packing 14 narrowTable).overhead = 9 := by decide +kernel
  have hrows : (packing 14 narrowTable).lines = List.replicate 2 (utf8 "|é|\n") := by decide +kernel
  rw [hblocks] at hblk
  rw [List.mem_singleton.mp hblk, Packing.Roomy, hoverhead, hrows, if_neg (by decide)]
  intro l hl
  rw [List.eq_of_mem_replicate hl]
  exact (validUtf8_utf8 _).runesWithin (by decide)

/-- A code block behind a fence line that is longer than the limit, and one whose fences leave a
single byte. -/
def longFence : Bytes := utf8 "```aaaaaaaaaa\nx\n```\n"

def tightFence : Bytes := utf8 "```\né\n```\n"

/-- The part with the fence line is too long, and the rune between the fences is cut. -/
theorem split_exceeds :
    (ValidUtf8 longFence ∧ ∃ parts, split longFence.length longFence 8 = some parts ∧
      ∃ part ∈ parts, 8 < part.length) ∧
    ValidUtf8 tightFence ∧ ∃ parts, split tightFence.length tightFence 9 = some parts ∧
      ∃ part ∈ parts, ¬ ValidUtf8 part := by
  constructor
  · have hparts : split longFence.length longFence 8 = some [utf8 "```aaaaaaaaaa\nx\n```"] := by
      decide +kernel
    exact ⟨validUtf8_utf8 _, _, hparts, _, List.mem_singleton_self _, by decide +kernel⟩
  · have hparts : split tightFence.length tightFence 9 =
        some [[0x60, 0x60, 0x60, 0x0A, 0xC3, 0x0A, 0x60, 0x60, 0x60],
          [0x60, 0x60, 0x60, 0x0A, 0xA9, 0x0A, 0x60, 0x60, 0x60],
          [0x60, 0x60, 0x60, 0x0A, 0x0A, 0x60, 0x60, 0x60]] := by
      decide +kernel
    refine ⟨validUtf8_utf8 _, _, hparts, [0x60, 0x60, 0x60, 0x0A, 0xA9, 0x0A, 0x60, 0x60, 0x60], ?_,
      ?_⟩
    · exact List.mem_cons_of_mem _ List.mem_cons_self
    · intro h
      have htail : ValidUtf8 [0xA9, 0x0A, 0x60, 0x60, 0x60] :=
        (((h.tail_of_ascii (by decide)).tail_of_ascii (by decide)).tail_of_ascii
          (by decide)).tail_of_ascii (by decide)
      have hstart : runeStart 0xA9 = true := htail.atRune 0xA9 rfl
      exact absurd hstart (by decide)

end AgentOps.Slackbot
