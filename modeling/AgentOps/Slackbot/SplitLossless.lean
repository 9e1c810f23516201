import AgentOps.Slackbot.SplitTheorems

/-!
# The parts hold the text

The packing keeps its pieces in order: some of them whole in one part, or one that is too long in
parts of its own (`Segmented`). That holds of the blocks of a text and of the lines of a block. What
becomes of a block that is too long is `Cut`.
-/

namespace AgentOps.Slackbot

open AgentOps.Lib

variable {P : Bytes → Prop} {g rest : List Bytes} {text blk : Bytes}

/-! ## Packing -/

/-- Pieces that the packing keeps together, and the parts that it makes of them. -/
inductive Segment (limit : ℕ) (cut : Bytes → List Bytes → Prop) : List Bytes → List Bytes → Prop
  | whole {pieces : List Bytes} (fits : pieces.flatten.length ≤ limit) :
      Segment limit cut pieces [pieces.flatten]
  | oversize {piece : Bytes} {parts : List Bytes} (long : limit < piece.length)
      (h : cut piece parts) : Segment limit cut [piece] parts

def Segmented (limit : ℕ) (cut : Bytes → List Bytes → Prop) (pieces parts : List Bytes) : Prop :=
  ∃ segs : List (List Bytes × List Bytes), pieces = (segs.map Prod.fst).flatten ∧
    parts = (segs.map Prod.snd).flatten ∧ ∀ seg ∈ segs, Segment limit cut seg.1 seg.2

section Segmented

variable {limit : ℕ} {cut : Bytes → List Bytes → Prop} {pieces pieces' parts parts' : List Bytes}

theorem Segmented.nil : Segmented limit cut [] [] := ⟨[], rfl, rfl, List.forall_mem_nil _⟩

theorem Segmented.one (h : Segment limit cut pieces parts) : Segmented limit cut pieces parts :=
  ⟨[(pieces, parts)], List.flatten_singleton.symm, List.flatten_singleton.symm,
    List.forall_mem_singleton.mpr h⟩

theorem Segmented.append (h : Segmented limit cut pieces parts)
    (h' : Segmented limit cut pieces' parts') :
    Segmented limit cut (pieces ++ pieces') (parts ++ parts') := by
  obtain ⟨segs, rfl, rfl, hsegs⟩ := h
  obtain ⟨segs', rfl, rfl, hsegs'⟩ := h'
  refine ⟨segs ++ segs', ?_, ?_, List.forall_mem_append.mpr ⟨hsegs, hsegs'⟩⟩
  · rw [List.map_append, List.flatten_append]
  · rw [List.map_append, List.flatten_append]

/-- Pieces that are cut in one way are cut in another. -/
theorem Segmented.imp (h : Segmented limit cut pieces parts) (cut' : Bytes → List Bytes → Prop)
    (himp : ∀ piece ∈ pieces, limit < piece.length → ∀ ps, cut piece ps → cut' piece ps) :
    Segmented limit cut' pieces parts := by
  obtain ⟨segs, rfl, rfl, hsegs⟩ := h
  refine ⟨segs, rfl, rfl, fun seg hseg => ?_⟩
  have hmem : ∀ piece ∈ seg.1, piece ∈ (segs.map Prod.fst).flatten := fun piece hpiece =>
    List.mem_flatten.mpr ⟨seg.1, List.mem_map.mpr ⟨seg, hseg, rfl⟩, hpiece⟩
  obtain ⟨ps, qs⟩ := seg
  have hseg : Segment limit _ ps qs := hsegs _ hseg
  cases hseg with
  | whole fits => exact .whole fits
  | oversize long h => exact .oversize long (himp _ (hmem _ List.mem_cons_self) long _ h)

/-- Parts that join to the pieces that are cut join to all pieces. -/
theorem Segmented.flatten_eq (h : Segmented limit cut pieces parts)
    (hcut : ∀ piece ∈ pieces, limit < piece.length → ∀ ps, cut piece ps → ps.flatten = piece) :
    parts.flatten = pieces.flatten := by
  obtain ⟨segs, rfl, rfl, hsegs⟩ := h.imp (fun piece ps => ps.flatten = piece) hcut
  rw [List.flatten_flatten, List.flatten_flatten, List.map_map, List.map_map]
  refine congrArg List.flatten (List.map_congr_left fun seg hseg => ?_)
  obtain ⟨ps, qs⟩ := seg
  have hseg : Segment limit _ ps qs := hsegs _ hseg
  cases hseg with
  | whole fits => exact List.flatten_singleton
  | oversize long h => exact h.trans List.flatten_singleton.symm

/-- A piece that is not cut, or that its parts join to, is in the joined parts. -/
theorem Segmented.infix_flatten (h : Segmented limit cut pieces parts) {piece : Bytes}
    (hpiece : piece ∈ pieces)
    (hcut : limit < piece.length → ∀ ps, cut piece ps → ps.flatten = piece) :
    piece <:+: parts.flatten := by
  obtain ⟨segs, rfl, rfl, hsegs⟩ := h
  obtain ⟨ps, hps, hpiece⟩ := List.mem_flatten.mp hpiece
  obtain ⟨⟨ps, qs⟩, hseg, rfl⟩ := List.mem_map.mp hps
  have hqs : qs <:+: (segs.map Prod.snd).flatten :=
    List.infix_of_mem_flatten (List.mem_map.mpr ⟨_, hseg, rfl⟩)
  refine List.IsInfix.trans ?_ hqs.flatten
  have hseg : Segment limit cut ps qs := hsegs _ hseg
  cases hseg with
  | whole fits =>
    rw [List.flatten_singleton]
    exact List.infix_of_mem_flatten hpiece
  | oversize long h =>
    obtain rfl := List.mem_singleton.mp hpiece
    rw [hcut long _ h]

/-- The parts of a piece that is too long are parts. -/
theorem Segmented.subset (h : Segmented limit cut pieces parts)
    (hfun : ∀ {piece ps qs}, cut piece ps → cut piece qs → ps = qs) {piece : Bytes}
    (hpiece : piece ∈ pieces) (hlong : limit < piece.length) {ps : List Bytes}
    (hps : cut piece ps) : ps ⊆ parts := by
  obtain ⟨segs, rfl, rfl, hsegs⟩ := h
  obtain ⟨g, hg, hpiece⟩ := List.mem_flatten.mp hpiece
  obtain ⟨⟨g, qs⟩, hseg, rfl⟩ := List.mem_map.mp hg
  have hmem : qs ∈ segs.map Prod.snd := List.mem_map.mpr ⟨_, hseg, rfl⟩
  have hseg : Segment limit cut g qs := hsegs _ hseg
  cases hseg with
  | whole fits =>
    have hle : piece.length ≤ g.flatten.length := (List.sublist_flatten_of_mem hpiece).length_le
    omega
  | oversize long hqs =>
    obtain rfl := List.mem_singleton.mp hpiece
    rw [hfun hps hqs]
    exact (List.infix_of_mem_flatten hmem).subset

/-- What holds of pieces that are kept together and of the parts of a piece that is too long holds
of all parts. -/
theorem Segmented.forall_mem (h : Segmented limit cut pieces parts)
    (hwhole : ∀ g, g <:+: pieces → g.flatten.length ≤ limit → P g.flatten)
    (hover : ∀ piece ∈ pieces, limit < piece.length → ∀ ps, cut piece ps → ∀ part ∈ ps, P part) :
    ∀ part ∈ parts, P part := by
  obtain ⟨segs, rfl, rfl, hsegs⟩ := h
  intro part hpart
  obtain ⟨qs, hqs, hpart⟩ := List.mem_flatten.mp hpart
  obtain ⟨⟨g, qs⟩, hseg, rfl⟩ := List.mem_map.mp hqs
  have hin : g <:+: (segs.map Prod.fst).flatten :=
    List.infix_of_mem_flatten (List.mem_map.mpr ⟨_, hseg, rfl⟩)
  have hseg : Segment limit cut g qs := hsegs _ hseg
  cases hseg with
  | whole fits =>
    rw [List.mem_singleton.mp hpart]
    exact hwhole g hin fits
  | oversize long hqs => exact hover _ (hin.subset List.mem_cons_self) long _ hqs part hpart

theorem Segmented.forall_iff (h : Segmented limit cut pieces parts)
    (hfun : ∀ {piece ps qs}, cut piece ps → cut piece qs → ps = qs)
    (hwhole : ∀ g, g <:+: pieces → g.flatten.length ≤ limit → P g.flatten) :
    (∀ part ∈ parts, P part) ↔ ∀ piece ∈ pieces, limit < piece.length →
      ∀ ps, cut piece ps → ∀ part ∈ ps, P part :=
  ⟨fun hparts _ hpiece hlong _ hps part hpart =>
    hparts part (h.subset hfun hpiece hlong hps hpart), h.forall_mem hwhole⟩

/-- Without parts there are no pieces. -/
theorem Segmented.eq_nil (h : Segmented limit cut pieces [])
    (hcut : ∀ piece ∈ pieces, ∀ ps, cut piece ps → ps ≠ []) : pieces = [] := by
  obtain ⟨segs, rfl, hparts, hsegs⟩ := h.imp (fun _ ps => ps ≠ [])
    fun piece hpiece _ => hcut piece hpiece
  cases segs with
  | nil => rfl
  | cons seg segs =>
    obtain ⟨ps, qs⟩ := seg
    have hnil : qs = [] := (List.append_eq_nil_iff.mp hparts.symm).1
    have hseg : Segment limit _ ps qs := hsegs _ List.mem_cons_self
    cases hseg with
    | whole fits => nomatch hnil
    | oversize long h => exact absurd hnil h

end Segmented

theorem segmented_flush {limit : ℕ} {cut : Bytes → List Bytes → Prop}
    (hne : ∀ piece ∈ g, piece ≠ []) (hlen : g.flatten.length ≤ limit) :
    Segmented limit cut g (flush g.flatten) := by
  cases g with
  | nil => exact .nil
  | cons piece g =>
    have hflat : (piece :: g).flatten ≠ [] := by
      rw [List.flatten_cons]
      exact List.append_ne_nil_of_left_ne_nil (hne piece List.mem_cons_self) _
    rw [flush, if_neg hflat]
    exact .one (.whole hlen)

/-- `g` are the pieces that the builder holds. -/
theorem pack_segmented {limit : ℕ} {oversize : Bytes → Option (List Bytes)} {pieces : List Bytes}
    (hne : ∀ piece ∈ g ++ pieces, piece ≠ []) (hlen : g.flatten.length ≤ limit) {parts : List Bytes}
    (h : pack limit oversize pieces g.flatten = some parts) :
    Segmented limit (fun piece ps => oversize piece = some ps) (g ++ pieces) parts := by
  induction pieces generalizing g parts with
  | nil =>
    obtain rfl := Option.some.inj h
    rw [List.append_nil] at hne ⊢
    exact segmented_flush hne hlen
  | cons piece pieces ih =>
    have hg : ∀ p ∈ g, p ≠ [] := fun p hp => hne p (List.mem_append_left _ hp)
    have hrest : ∀ p ∈ piece :: pieces, p ≠ [] := fun p hp => hne p (List.mem_append_right _ hp)
    rw [pack] at h
    split at h
    · next hlong =>
      obtain ⟨ps, hps, h⟩ := Option.bind_eq_some_iff.mp h
      obtain ⟨rest, hpack, h⟩ := Option.bind_eq_some_iff.mp h
      obtain rfl := Option.some.inj h
      have htail := ih (g := []) (fun p hp => hrest p (List.mem_cons_of_mem _ hp)) (Nat.zero_le _)
        hpack
      rw [List.append_cons]
      exact ((segmented_flush hg hlen).append (.one (.oversize hlong hps))).append htail
    · next hshort =>
      split at h
      · obtain ⟨rest, hpack, h⟩ := Option.bind_eq_some_iff.mp h
        obtain rfl := Option.some.inj h
        rw [← List.flatten_singleton (l := piece)] at hpack
        have htail := ih (g := [piece]) hrest (by rw [List.flatten_singleton]; omega) hpack
        exact (segmented_flush hg hlen).append htail
      · next hroom =>
        have hgrown : (g ++ [piece]).flatten = g.flatten ++ piece := by
          rw [List.flatten_append, List.flatten_singleton]
        rw [← hgrown] at h
        rw [List.append_cons] at hne ⊢
        refine ih hne ?_ h
        rw [hgrown, List.length_append]
        omega

/-! ## Lines that are cut -/

/-- Where a line that is too long is cut: in front of a rune, if one starts within the limit. -/
def cutAt (limit : ℕ) (s : Bytes) : ℕ := if backUp s limit = 0 then limit else backUp s limit

/-- The pieces of a line. -/
inductive Fragments (limit : ℕ) : Bytes → List Bytes → Prop
  | short {s : Bytes} (fits : s.length ≤ limit) : Fragments limit s (flush s)
  | long {s : Bytes} {rest : List Bytes} (long : limit < s.length)
      (h : Fragments limit (s.drop (cutAt limit s)) rest) :
      Fragments limit s (s.take (cutAt limit s) :: rest)

theorem runeSplit_fragments {limit rounds : ℕ} {s : Bytes} {parts : List Bytes}
    (h : runeSplit limit rounds s = some parts) : Fragments limit s parts := by
  induction rounds generalizing s parts with
  | zero =>
    rw [runeSplit] at h
    split at h
    · next hshort =>
      obtain rfl := Option.some.inj h
      exact .short hshort
    · cases h
  | succ rounds ih =>
    rw [runeSplit] at h
    split at h
    · next hshort =>
      obtain rfl := Option.some.inj h
      exact .short hshort
    · next hlong =>
      obtain ⟨rest, hrest, rfl⟩ := Option.map_eq_some_iff.mp h
      exact .long (not_le.mp hlong) (ih hrest)

section Fragments

variable {limit : ℕ} {s : Bytes} {parts : List Bytes}

theorem exists_fragments (hlimit : 1 ≤ limit) (s : Bytes) : ∃ parts, Fragments limit s parts := by
  obtain ⟨parts, hparts⟩ := Option.isSome_iff_exists.mp
    (runeSplit_isSome hlimit s.length s (Nat.le_refl _))
  exact ⟨parts, runeSplit_fragments hparts⟩

theorem cutAt_le (limit : ℕ) (s : Bytes) : cutAt limit s ≤ limit := by
  unfold cutAt
  split
  · exact Nat.le_refl _
  · exact backUp_le s limit

theorem cutAt_pos (hlimit : 1 ≤ limit) (s : Bytes) : 0 < cutAt limit s := by
  unfold cutAt
  split
  · exact hlimit
  · next hpos => exact Nat.pos_of_ne_zero hpos

theorem Fragments.unique {parts' : List Bytes} (h : Fragments limit s parts)
    (h' : Fragments limit s parts') : parts = parts' := by
  induction h generalizing parts' with
  | short fits =>
    cases h' with
    | short fits' => rfl
    | long long h' => omega
  | long long h ih =>
    cases h' with
    | short fits' => omega
    | long long h' => rw [ih h']

theorem mem_flush {part : Bytes} (h : part ∈ flush s) : part = s ∧ s ≠ [] := by
  unfold flush at h
  split at h
  · nomatch h
  · next hs => exact ⟨List.mem_singleton.mp h, hs⟩

theorem Fragments.flatten_eq (h : Fragments limit s parts) : parts.flatten = s := by
  induction h with
  | @short s fits =>
    unfold flush
    split
    · next hs => rw [hs]; rfl
    · exact List.flatten_singleton
  | @long s rest long h ih => rw [List.flatten_cons, ih, List.take_append_drop]

theorem Fragments.length_le (h : Fragments limit s parts) :
    ∀ part ∈ parts, part.length ≤ limit := by
  induction h with
  | short fits => exact fun part hpart => (mem_flush hpart).1 ▸ fits
  | @long s rest long h ih =>
    exact List.forall_mem_cons.mpr ⟨(List.length_take_le _ _).trans (cutAt_le limit s), ih⟩

end Fragments

/-! ## A block that is too long -/

/-- The line that closes the parts of a fenced block whose lines end with `tail`. -/
def ClosedBy (marker : Bytes) (tail : List Bytes) (closing : Bytes) : Prop :=
  tail = [] ∧ closing = marker ∨
    ∃ last, tail = [last] ∧ isClosingFence (trimSpace last) marker = true ∧
      closing = trimLineEnd last

/-- A part of a fenced block: the chunk between the two fences, with a line end. -/
def refenced (opening closing chunk : Bytes) : Bytes :=
  opening ++ chunk ++ (if chunk.getLast? = some 0x0A then [] else [0x0A]) ++ closing

/-- What becomes of a block that is too long. The chunks of a fence or a table join to the lines
that are not written again. -/
inductive Cut (limit : ℕ) (blk : Bytes) : List Bytes → Prop
  | plain {parts : List Bytes} (fence : fenceMarker (trimSpace (firstLine blk)) = [])
      (table : isTable blk = false) (joined : parts.flatten = blk) : Cut limit blk parts
  | fenced {opening closing : Bytes} {inner tail chunks : List Bytes}
      (lines : linesOf blk = opening :: (inner ++ tail))
      (opens : fenceMarker (trimSpace opening) ≠ [])
      (inside : ∀ l ∈ inner,
        isClosingFence (trimSpace l) (fenceMarker (trimSpace opening)) = false)
      (closed : ClosedBy (fenceMarker (trimSpace opening)) tail closing)
      (joined : chunks.flatten = inner.flatten) :
      Cut limit blk
        (if chunks = [] then [opening ++ closing] else chunks.map (refenced opening closing))
  | table {line delimiter : Bytes} {rows chunks : List Bytes}
      (lines : linesOf blk = line :: delimiter :: rows)
      (fence : fenceMarker (trimSpace line) = []) (row : delimiterRow delimiter = true)
      (room : (line ++ delimiter).length < limit) (joined : chunks.flatten = rows.flatten) :
      Cut limit blk
        (if chunks = [] then [line ++ delimiter]
          else chunks.map fun chunk => line ++ delimiter ++ chunk)
  | wideTable {line delimiter : Bytes} {rows parts : List Bytes}
      (lines : linesOf blk = line :: delimiter :: rows)
      (fence : fenceMarker (trimSpace line) = []) (row : delimiterRow delimiter = true)
      (full : limit ≤ (line ++ delimiter).length) (joined : parts.flatten = blk) :
      Cut limit blk parts

/-- Splitting may add an empty line behind the last. -/
theorem dropWhile_reverse {ls : List Bytes} (hls : ∀ l ∈ ls, l ≠ [])
    (hrest : rest = ls ∨ rest = ls ++ [[]]) :
    (rest.reverse.dropWhile fun l => l = []) = ls.reverse := by
  have hkeep : (ls.reverse.dropWhile fun l => l = []) = ls.reverse := by
    cases hrev : ls.reverse with
    | nil => rfl
    | cons l rev =>
      have hl : l ∈ ls := List.mem_reverse.mp (hrev ▸ List.mem_cons_self)
      exact List.dropWhile_cons_of_neg (by simpa using hls l hl)
  rcases hrest with rfl | rfl
  · exact hkeep
  · rw [List.reverse_append]
    exact hkeep

theorem closeLine_fenced {marker : Bytes} {inner tail : List Bytes}
    (hls : ∀ l ∈ inner ++ tail, l ≠ [])
    (hrest : rest = inner ++ tail ∨ rest = inner ++ tail ++ [[]])
    (inside : ∀ l ∈ inner, isClosingFence (trimSpace l) marker = false)
    (closes : tail = [] ∨ ∃ last, tail = [last] ∧ isClosingFence (trimSpace last) marker = true) :
    ClosedBy marker tail (closeLine marker rest).1 ∧
      nonEmpty (closeLine marker rest).2 = inner := by
  have hnonEmpty : nonEmpty rest = inner ++ tail := by
    have hkeep : nonEmpty (inner ++ tail) = inner ++ tail :=
      List.filter_eq_self.mpr fun l hl => decide_eq_true (hls l hl)
    rcases hrest with rfl | rfl
    · exact hkeep
    · unfold nonEmpty at hkeep ⊢
      rw [List.filter_append, hkeep]
      exact List.append_nil _
  have hdrop := dropWhile_reverse hls hrest
  rcases closes with rfl | ⟨last, rfl, hlast⟩
  · unfold closeLine
    rw [hdrop]
    rw [List.append_nil] at hnonEmpty ⊢
    split
    · next last before heq =>
      have hmem : last ∈ inner := List.mem_reverse.mp (heq ▸ List.mem_cons_self)
      rw [if_neg (ne_true_of_eq_false (inside last hmem))]
      exact ⟨.inl ⟨rfl, rfl⟩, hnonEmpty⟩
    · exact ⟨.inl ⟨rfl, rfl⟩, hnonEmpty⟩
  · have hclose : closeLine marker rest = (trimLineEnd last, inner) := by
      unfold closeLine
      rw [hdrop, List.reverse_append]
      show (if isClosingFence (trimSpace last) marker then _ else _) = _
      rw [if_pos hlast]
      exact congrArg (Prod.mk _) (List.reverse_reverse inner)
    rw [hclose]
    refine ⟨.inr ⟨last, rfl, hlast, rfl⟩, ?_⟩
    exact List.filter_eq_self.mpr fun l hl => decide_eq_true (hls l (List.mem_append_left _ hl))

/-- How a block is packed: the fence that is open around the lines that are packed, these lines, the
bytes that are written again in each part, what is left without lines, and the part of a chunk. -/
structure Packing where
  fence : Option Bytes := none
  lines : List Bytes
  overhead : ℕ := 0
  bare : List Bytes := []
  wrap : Bytes → Bytes := id

namespace Packing

/-- The bytes of a part that are left for lines. -/
def budget (p : Packing) (limit : ℕ) : ℕ :=
  if limit ≤ p.overhead then limit / 2 else limit - p.overhead

def chunks (p : Packing) (rounds limit : ℕ) : Option (List Bytes) :=
  pack (p.budget limit) (runeSplit (p.budget limit) rounds) p.lines []

def parts (p : Packing) (chunks : List Bytes) : List Bytes :=
  if chunks = [] then p.bare else chunks.map p.wrap

end Packing

/-- The packing that `splitBlock` chooses. -/
def packing (limit : ℕ) (blk : Bytes) : Packing :=
  let marker := fenceMarker (trimSpace (firstLine blk))
  if marker ≠ [] then
    match splitAfter blk with
    | [] => { lines := [] }
    | opening :: rest =>
      let (closing, inner) := closeLine marker rest
      { fence := some marker
        lines := nonEmpty inner
        overhead := opening.length + closing.length + 1
        bare := [opening ++ closing]
        wrap := refenced opening closing }
  else
    match linesOf blk with
    | line :: delimiter :: rows =>
      if delimiterRow delimiter = true ∧ (line ++ delimiter).length < limit then
        { lines := nonEmpty rows
          overhead := (line ++ delimiter).length
          bare := [line ++ delimiter]
          wrap := fun chunk => line ++ delimiter ++ chunk }
      else { lines := line :: delimiter :: rows }
    | lines => { lines }

theorem Packing.bind_eq (p : Packing) (x : Option (List Bytes)) :
    (x.bind fun chunks => if chunks = [] then some p.bare else some (chunks.map p.wrap)) =
      x.map p.parts := by
  cases x with
  | none => rfl
  | some chunks => exact (apply_ite some _ _ _).symm

theorem splitBlock_eq (rounds limit : ℕ) (blk : Bytes) : splitBlock rounds limit blk =
    ((packing limit blk).chunks rounds limit).map (packing limit blk).parts := by
  have hplain (lines : List Bytes) : pack limit (runeSplit limit rounds) lines [] =
      (({ lines } : Packing).chunks rounds limit).map ({ lines } : Packing).parts := by
    have hbudget : ({ lines } : Packing).budget limit = limit := by
      simp only [Packing.budget]
      split <;> omega
    have hparts : ({ lines } : Packing).parts = id := by
      funext chunks
      cases chunks with
      | nil => rfl
      | cons chunk chunks => exact List.map_id _
    rw [Packing.chunks, hbudget, hparts, Option.map_id_fun, id]
  unfold splitBlock packing
  simp only
  split
  · unfold splitCodeBlock
    cases splitAfter blk with
    | nil => rfl
    | cons opening rest =>
      rw [← Packing.bind_eq]
      rfl
  · unfold isTable splitTable packLines linesOf
    cases nonEmpty (splitAfter blk) with
    | nil => exact hplain []
    | cons line lines =>
      cases lines with
      | nil => exact hplain [line]
      | cons delimiter rows =>
        simp only
        by_cases hrow : delimiterRow delimiter = true
        · by_cases hroom : (line ++ delimiter).length < limit
          · rw [if_pos hrow, if_neg (by omega), if_pos ⟨hrow, hroom⟩]
            have hbudget : limit - (line ++ delimiter).length =
              if limit ≤ (line ++ delimiter).length then limit / 2
              else limit - (line ++ delimiter).length := by rw [if_neg (by omega)]
            rw [hbudget, ← Packing.bind_eq]
            rfl
          · -- the header fills the limit: the table is packed like other lines
            rw [if_pos hrow, if_pos (by omega), if_neg fun h => hroom h.2]
            exact hplain _
        · rw [if_neg hrow, if_neg fun h => hrow h.1]
          exact hplain _

/-- What the packing of a block is. -/
inductive Packs (limit : ℕ) : List Bytes → Packing → Prop
  | plain {g : List Bytes} (outside : ∀ l ∈ g, fenceMarker (trimSpace l) = [])
      (wide : ∀ line delimiter rows, g = line :: delimiter :: rows → delimiterRow delimiter = true →
        limit ≤ (line ++ delimiter).length) : Packs limit g { lines := g }
  | table {line delimiter : Bytes} {rows : List Bytes}
      (outside : ∀ l ∈ line :: delimiter :: rows, fenceMarker (trimSpace l) = [])
      (row : delimiterRow delimiter = true) (room : (line ++ delimiter).length < limit) :
      Packs limit (line :: delimiter :: rows) {
        lines := rows
        overhead := (line ++ delimiter).length
        bare := [line ++ delimiter]
        wrap := fun chunk => line ++ delimiter ++ chunk }
  | fenced {opening closing : Bytes} {inner tail : List Bytes}
      (opens : fenceMarker (trimSpace opening) ≠ [])
      (inside : ∀ l ∈ inner,
        isClosingFence (trimSpace l) (fenceMarker (trimSpace opening)) = false)
      (closed : ClosedBy (fenceMarker (trimSpace opening)) tail closing) :
      Packs limit (opening :: (inner ++ tail)) {
        fence := some (fenceMarker (trimSpace opening))
        lines := inner
        overhead := opening.length + closing.length + 1
        bare := [opening ++ closing]
        wrap := refenced opening closing }

theorem packing_packs (hcut : WellCut g) (hblock : Block g) (limit : ℕ) :
    Packs limit g (packing limit g.flatten) := by
  unfold packing
  cases hblock with
  | @plain g ne outside =>
    have hfirst : fenceMarker (trimSpace (firstLine g.flatten)) = [] := by
      obtain ⟨first, g, rfl⟩ := List.exists_cons_of_ne_nil ne
      rw [hcut.firstLine]
      exact outside first List.mem_cons_self
    simp only [if_neg (not_not_intro hfirst), hcut.linesOf]
    split
    · next line delimiter rows =>
      split
      · next htable =>
        rw [(hcut.part (List.suffix_append [line, delimiter] rows).isInfix).nonEmpty]
        exact .table outside htable.1 htable.2
      · next htable =>
        refine .plain outside fun line' delimiter' rows' heq hrow => ?_
        obtain ⟨rfl, htail⟩ := List.cons.inj heq
        obtain ⟨rfl, -⟩ := List.cons.inj htail
        exact not_lt.mp fun hroom => htable ⟨hrow, hroom⟩
    · next hshort =>
      exact .plain outside fun line delimiter rows heq => absurd heq (hshort line delimiter rows)
  | @fenced opening inner tail opens inside closes =>
    have hls : ∀ l ∈ inner ++ tail, l ≠ [] := fun l hl => hcut.ne_nil l (List.mem_cons_of_mem _ hl)
    obtain ⟨rest, hlines, hrest⟩ : ∃ rest,
        splitAfter (opening :: (inner ++ tail)).flatten = opening :: rest ∧
          (rest = inner ++ tail ∨ rest = inner ++ tail ++ [[]]) := by
      rcases hcut.splitAfter (List.cons_ne_nil _ _) with heq | heq
      · exact ⟨_, heq, .inl rfl⟩
      · exact ⟨_, heq, .inr rfl⟩
    obtain ⟨hclosed, hinner⟩ := closeLine_fenced hls hrest inside closes
    simp only [hcut.firstLine, if_pos opens, hlines, hinner]
    exact .fenced opens inside hclosed

theorem Packs.infix_lines {limit : ℕ} {p : Packing} (h : Packs limit g p) : p.lines <:+: g := by
  cases h with
  | plain => exact List.infix_refl _
  | @table line delimiter rows => exact (List.suffix_append [line, delimiter] rows).isInfix
  | @fenced opening closing inner tail => exact ⟨[opening], tail, rfl⟩

section Packing

variable {p : Packing} {rounds limit : ℕ} {chunks : List Bytes}

theorem Packing.budget_pos (p : Packing) (hlimit : 2 ≤ limit) : 1 ≤ p.budget limit := by
  unfold budget
  split
  · omega
  · omega

theorem Packing.chunks_isSome (hlimit : 2 ≤ limit) (hrounds : ∀ l ∈ p.lines, l.length ≤ rounds) :
    (p.chunks rounds limit).isSome = true :=
  pack_isSome (fun l hl => runeSplit_isSome (p.budget_pos hlimit) rounds l (hrounds l hl)) []

/-- The lines that are packed are in the chunks. -/
theorem Packing.segmented (hcut : WellCut p.lines) (h : p.chunks rounds limit = some chunks) :
    Segmented (p.budget limit) (Fragments (p.budget limit)) p.lines chunks :=
  (pack_segmented (g := []) hcut.ne_nil (Nat.zero_le _) h).imp _ fun _ _ _ _ => runeSplit_fragments

theorem Packing.flatten_chunks (hcut : WellCut p.lines) (h : p.chunks rounds limit = some chunks) :
    chunks.flatten = p.lines.flatten :=
  (segmented hcut h).flatten_eq fun _ _ _ _ => Fragments.flatten_eq

theorem Packing.lines_ne_nil (h : p.chunks rounds limit = some chunks) (hne : chunks ≠ []) :
    p.lines ≠ [] := by
  intro hlines
  rw [Packing.chunks, hlines] at h
  exact hne (Option.some.inj h).symm

/-- There is no chunk exactly when there is no line. -/
theorem Packing.forall_parts (hcut : WellCut p.lines) (h : p.chunks rounds limit = some chunks) :
    (∀ part ∈ p.parts chunks, P part) ↔
      (p.lines = [] → ∀ part ∈ p.bare, P part) ∧ ∀ chunk ∈ chunks, P (p.wrap chunk) := by
  unfold parts
  split
  · next hnil =>
    have hlines : p.lines = [] :=
      (hnil ▸ segmented hcut h).eq_nil fun l hl ps hps hnil => hcut.ne_nil l hl (by
        rw [← hps.flatten_eq, hnil]
        rfl)
    rw [hnil]
    exact ⟨fun hbare => ⟨fun _ => hbare, List.forall_mem_nil _⟩, fun h => h.1 hlines⟩
  · next hne =>
    rw [List.forall_mem_map]
    exact ⟨fun hchunks => ⟨fun hnil => absurd hnil (lines_ne_nil h hne), hchunks⟩, And.right⟩

end Packing

theorem splitBlock_cut {rounds limit : ℕ} {parts : List Bytes} (hcut : WellCut g) (hblock : Block g)
    (h : splitBlock rounds limit g.flatten = some parts) : Cut limit g.flatten parts := by
  rw [splitBlock_eq] at h
  obtain ⟨chunks, hchunks, rfl⟩ := Option.map_eq_some_iff.mp h
  have hpacks := packing_packs hcut hblock limit
  have hjoined := Packing.flatten_chunks (hcut.part hpacks.infix_lines) hchunks
  clear hchunks h
  generalize packing limit g.flatten = p at *
  cases hpacks with
  | @plain g outside wide =>
    have hparts : ({ lines := g } : Packing).parts chunks = chunks := by
      cases chunks with
      | nil => rfl
      | cons chunk chunks => exact List.map_id _
    rw [hparts]
    have hfirst : fenceMarker (trimSpace (firstLine g.flatten)) = [] := by
      obtain ⟨first, g, rfl⟩ := List.exists_cons_of_ne_nil hblock.ne_nil
      rw [hcut.firstLine]
      exact outside first List.mem_cons_self
    by_cases htable : isTable g.flatten = true
    · unfold isTable at htable
      rw [show nonEmpty (splitAfter g.flatten) = g from hcut.linesOf] at htable
      split at htable
      · next line delimiter rows =>
        exact .wideTable hcut.linesOf (outside line List.mem_cons_self) htable
          (wide line delimiter rows rfl htable) hjoined
      · nomatch htable
    · exact .plain hfirst (Bool.not_eq_true _ ▸ htable) hjoined
  | table outside row room =>
    exact .table hcut.linesOf (outside _ List.mem_cons_self) row room hjoined
  | fenced opens inside closed => exact .fenced hcut.linesOf opens inside closed hjoined

/-! ## The whole text -/

theorem blocks_flatten (text : Bytes) : (blocks text).flatten = text := by
  obtain ⟨gs, hblks, hlines, -⟩ := blocks_grouped text
  rw [hblks, ← List.flatten_flatten, hlines, (linesOf_spec text).2]

theorem blocks_ne_nil (h : blk ∈ blocks text) : blk ≠ [] := by
  obtain ⟨g, -, hcut, hblock, rfl⟩ := blocks_lines h
  obtain ⟨l, g, rfl⟩ := List.exists_cons_of_ne_nil hblock.ne_nil
  have hl := hcut.ne_nil l List.mem_cons_self
  rw [List.flatten_cons]
  exact List.append_ne_nil_of_left_ne_nil hl _

theorem length_of_mem_blocks (h : blk ∈ blocks text) : blk.length ≤ text.length := by
  rw [← blocks_flatten text]
  exact (List.sublist_flatten_of_mem h).length_le

theorem splitBlock_isSome {rounds limit : ℕ} (hblk : blk ∈ blocks text) (hlimit : 2 ≤ limit)
    (h : text.length ≤ rounds) : (splitBlock rounds limit blk).isSome = true := by
  have hlen := (length_of_mem_blocks hblk).trans h
  obtain ⟨g, -, hcut, hblock, rfl⟩ := blocks_lines hblk
  have hin := (packing_packs hcut hblock limit).infix_lines
  rw [splitBlock_eq, Option.isSome_map]
  exact Packing.chunks_isSome hlimit fun l hl =>
    ((List.sublist_flatten_of_mem (hin.subset hl)).length_le).trans hlen

/-- From a limit of two bytes on, a round for each byte of the text is enough. -/
theorem split_isSome {rounds limit : ℕ} (hlimit : 2 ≤ limit) (h : text.length ≤ rounds) :
    (split rounds text limit).isSome = true := by
  unfold split
  split
  · rfl
  · rw [Option.isSome_map]
    exact pack_isSome (fun blk hblk => splitBlock_isSome hblk hlimit h) []

theorem splitBlock_cut_of_mem {rounds limit : ℕ} {parts : List Bytes} (hblk : blk ∈ blocks text)
    (h : splitBlock rounds limit blk = some parts) : Cut limit blk parts := by
  obtain ⟨g, -, hcut, hblock, rfl⟩ := blocks_lines hblk
  exact splitBlock_cut hcut hblock h

theorem Cut.ne_nil {limit : ℕ} {parts : List Bytes} (hblk : blk ≠ []) (h : Cut limit blk parts) :
    parts ≠ [] := by
  cases h with
  | plain fence table joined | wideTable lines fence row full joined =>
    rintro rfl
    exact hblk joined.symm
  | fenced lines opens inside closed joined | table lines fence row room joined =>
    split
    · exact List.cons_ne_nil _ _
    · next hchunks => exact List.map_eq_nil_iff.not.mpr hchunks

theorem firstLine_of_linesOf {opening : Bytes} (h : linesOf blk = opening :: rest) :
    firstLine blk = opening := by
  obtain ⟨hcut, hflat⟩ := linesOf_spec blk
  rw [h] at hcut hflat
  rw [← hflat]
  exact hcut.firstLine

theorem isTable_of_linesOf {line delimiter : Bytes} {rows : List Bytes}
    (h : linesOf blk = line :: delimiter :: rows) : isTable blk = delimiterRow delimiter := by
  unfold linesOf at h
  rw [isTable, h]

/-- A block that is neither a fence nor a table is cut without loss. -/
theorem Cut.flatten_eq {limit : ℕ} {parts : List Bytes} (h : Cut limit blk parts)
    (hplain : fenceMarker (trimSpace (firstLine blk)) = [] ∧ isTable blk = false) :
    parts.flatten = blk := by
  cases h with
  | plain fence table joined | wideTable lines fence row full joined => exact joined
  | fenced lines opens inside closed joined =>
    rw [firstLine_of_linesOf lines] at hplain
    exact absurd hplain.1 opens
  | table lines fence row room joined =>
    rw [isTable_of_linesOf lines, row] at hplain
    nomatch hplain.2

/-- The parts are the blocks of the text. -/
theorem split_segmented {rounds limit : ℕ} {parts : List Bytes} (hlimit : 1 ≤ limit)
    (h : split rounds text limit = some parts) :
    Segmented limit (fun blk ps => splitBlock rounds limit blk = some ps) (blocks text) parts := by
  unfold split at h
  split at h
  · obtain rfl := Option.some.inj h
    have hwhole : (blocks text).flatten.length ≤ limit := by
      rw [blocks_flatten]
      omega
    have hone : Segmented limit (fun blk ps => splitBlock rounds limit blk = some ps) (blocks text)
        [(blocks text).flatten] := .one (.whole hwhole)
    rwa [blocks_flatten] at hone
  · next hlong =>
    obtain ⟨packed, hpacked, rfl⟩ := Option.map_eq_some_iff.mp h
    have hsegs := pack_segmented (g := []) (fun _ => blocks_ne_nil) (Nat.zero_le _) hpacked
    split
    · next hnil =>
      -- no part at all would be no block, and an empty text is short
      rw [hnil] at hsegs
      have hblocks : blocks text = [] := hsegs.eq_nil fun blk hblk ps hps =>
        (splitBlock_cut_of_mem hblk hps).ne_nil (blocks_ne_nil hblk)
      have htext := blocks_flatten text
      rw [hblocks] at htext
      rw [← htext] at hlong
      exact absurd (.inr (Nat.zero_le _)) hlong
    · exact hsegs

/-- From a limit of two bytes on nothing of the text is lost. The text is its blocks, and the parts
are the blocks in their order: whole ones together in a part, and one that is too long as `Cut`
says. A block that is within the limit or neither a fence nor a table is in the joined parts, and if
there is no other, the joined parts are the text. -/
theorem split_lossless (text : Bytes) (limit : ℕ) (hlimit : 2 ≤ limit) (rounds : ℕ)
    (hrounds : text.length ≤ rounds) :
    ∃ parts, split rounds text limit = some parts ∧ (blocks text).flatten = text ∧
      Segmented limit (Cut limit) (blocks text) parts ∧
      (∀ blk ∈ blocks text, blk.length ≤ limit ∨
        fenceMarker (trimSpace (firstLine blk)) = [] ∧ isTable blk = false →
        blk <:+: parts.flatten) ∧
      ((∀ blk ∈ blocks text, blk.length ≤ limit ∨
        fenceMarker (trimSpace (firstLine blk)) = [] ∧ isTable blk = false) →
        parts.flatten = text) := by
  obtain ⟨parts, hparts⟩ := Option.isSome_iff_exists.mp (split_isSome hlimit hrounds)
  have hsegs := (split_segmented (by omega) hparts).imp (Cut limit)
    fun _ hblk _ _ => splitBlock_cut_of_mem hblk
  refine ⟨parts, hparts, blocks_flatten text, hsegs, fun blk hblk hplain => ?_, fun hplain => ?_⟩
  · refine hsegs.infix_flatten hblk fun hlong ps hcut => ?_
    exact hcut.flatten_eq (hplain.resolve_left (by omega))
  · rw [hsegs.flatten_eq fun blk hblk hlong ps hcut =>
      hcut.flatten_eq ((hplain blk hblk).resolve_left (by omega))]
    exact blocks_flatten text

/-- Two paragraphs that go together in a part, and a fence that is too long for one. -/
def mixedText : Bytes := utf8 "ab\n\ncd\n\n```\nxy\nzw\n```\n"

theorem split_lossless_mixedText :
    ∃ parts, split mixedText.length mixedText 12 = some parts ∧
      Segmented 12 (Cut 12) (blocks mixedText) parts ∧ utf8 "ab\n\n" <:+: parts.flatten := by
  obtain ⟨parts, hparts, -, hsegs, hkept, -⟩ :=
    split_lossless mixedText 12 (by decide) _ (Nat.le_refl mixedText.length)
  exact ⟨parts, hparts, hsegs, hkept (utf8 "ab\n\n") (by decide) (.inl (by decide))⟩

end AgentOps.Slackbot
