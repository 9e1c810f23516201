import AgentOps.Lib.Utf8
import AgentOps.Slackbot.Transcript

/-!
# Splitting a message into parts

`slackbot/internal/mdsplit`: a text goes to Slack in parts of at most `limit` bytes. Blocks are
packed whole; a block that is too long is cut at its lines, and a fence or a table header is
written again in each of its parts. A line that is too long is cut between runes.

`runeSplit` is the one loop of the source that need not end, so what uses it has a number of
rounds that it may take.
-/

namespace AgentOps.Slackbot

open AgentOps.Lib

/-! ## The functions -/

/-- `strings.SplitAfter(s, "\n")`. -/
def splitAfter : Bytes → List Bytes
  | [] => [[]]
  | b :: s =>
    if b = 0x0A then [b] :: splitAfter s
    else match splitAfter s with
      | [] => [[b]]
      | l :: ls => (b :: l) :: ls

/-- `nonEmpty`. -/
def nonEmpty (lines : List Bytes) : List Bytes := lines.filter fun l => l ≠ []

/-- `firstLine`. -/
def firstLine : Bytes → Bytes
  | [] => []
  | b :: s => if b = 0x0A then [b] else b :: firstLine s

/-- The rest before one rune that `unicode.IsSpace` accepts, both of them backwards. -/
def dropSpaceBack : Bytes → Option Bytes
  | 0x85 :: 0xC2 :: rest | 0xA0 :: 0xC2 :: rest | 0x80 :: 0x9A :: 0xE1 :: rest
  | 0x9F :: 0x81 :: 0xE2 :: rest | 0x80 :: 0x80 :: 0xE3 :: rest => some rest
  | b :: 0x80 :: 0xE2 :: rest =>
    if 0x80 ≤ b ∧ b ≤ 0x8A ∨ b = 0xA8 ∨ b = 0xA9 ∨ b = 0xAF then some rest
    else if 0x09 ≤ b ∧ b ≤ 0x0D ∨ b = 0x20 then some (0x80 :: 0xE2 :: rest)
    else none
  | b :: rest => if 0x09 ≤ b ∧ b ≤ 0x0D ∨ b = 0x20 then some rest else none
  | [] => none

/-- A text without the runes that `drop` takes from its start. -/
def trimWith (drop : Bytes → Option Bytes) : ℕ → Bytes → Bytes
  | 0, s => s
  | n + 1, s =>
    match drop s with
    | some rest => trimWith drop n rest
    | none => s

/-- `strings.TrimSpace`. -/
def trimSpace (s : Bytes) : Bytes :=
  let s := trimWith dropSpace s.length s
  (trimWith dropSpaceBack s.length s.reverse).reverse

/-- `strings.TrimRight(s, "\r\n")`. -/
def trimLineEnd (s : Bytes) : Bytes :=
  (s.reverse.dropWhile fun b => b = 0x0D ∨ b = 0x0A).reverse

/-- `runLen`. -/
def runLen (s : Bytes) (c : UInt8) : ℕ := (s.takeWhile fun b => b = c).length

/-- `fenceMarker`. -/
def fenceMarker (trimmed : Bytes) : Bytes :=
  if 3 ≤ runLen trimmed 0x60 then List.replicate (runLen trimmed 0x60) 0x60
  else if 3 ≤ runLen trimmed 0x7E then List.replicate (runLen trimmed 0x7E) 0x7E
  else []

/-- `isClosingFence`. -/
def isClosingFence (trimmed marker : Bytes) : Bool :=
  match marker, trimmed with
  | [], _ | _, [] => false
  | c :: _, _ => runLen trimmed c = trimmed.length && marker.length ≤ trimmed.length

/-- The row below the header of a table. -/
def delimiterRow (line : Bytes) : Bool :=
  let s := trimSpace line
  s.all (fun b => b = 0x2D ∨ b = 0x7C ∨ b = 0x3A ∨ b = 0x20 ∨ b = 0x09) && s.contains 0x2D

/-- `isTable`. -/
def isTable (blk : Bytes) : Bool :=
  match nonEmpty (splitAfter blk) with
  | _ :: line :: _ => delimiterRow line
  | _ => false

/-- What a builder adds to the parts when it is flushed. -/
def flush (cur : Bytes) : List Bytes := if cur = [] then [] else [cur]

/-- The loop of `blocks`: the marker of the fence that is open, and what the builder holds. -/
def blocksFrom : List Bytes → Option Bytes → Bytes → List Bytes
  | [], none, cur => flush cur
  | [], some _, cb => [cb]
  | line :: lines, some marker, cb =>
    if isClosingFence (trimSpace line) marker then (cb ++ line) :: blocksFrom lines none []
    else blocksFrom lines (some marker) (cb ++ line)
  | line :: lines, none, cur =>
    if line = [] then blocksFrom lines none cur
    else if fenceMarker (trimSpace line) ≠ [] then
      flush cur ++ blocksFrom lines (some (fenceMarker (trimSpace line))) line
    else if trimSpace line = [] then flush (cur ++ line) ++ blocksFrom lines none []
    else blocksFrom lines none (cur ++ line)

/-- `blocks`. -/
def blocks (text : Bytes) : List Bytes := blocksFrom (splitAfter text) none []

/-- `runeSplit`, in at most the given number of rounds. -/
def runeSplit (limit : ℕ) : ℕ → Bytes → Option (List Bytes)
  | rounds, s =>
    if s.length ≤ limit then some (flush s)
    else match rounds with
      | 0 => none
      | rounds + 1 =>
        let cut := if backUp s limit = 0 then limit else backUp s limit
        (runeSplit limit rounds (s.drop cut)).map fun parts => s.take cut :: parts

/-- Packing pieces into parts of at most `limit` bytes, and a piece that is longer as `oversize`
cuts it. -/
def pack (limit : ℕ) (oversize : Bytes → Option (List Bytes)) : List Bytes → Bytes →
    Option (List Bytes)
  | [], cur => some (flush cur)
  | piece :: pieces, cur =>
    if limit < piece.length then do
      let parts ← oversize piece
      let rest ← pack limit oversize pieces []
      some (flush cur ++ parts ++ rest)
    else if limit < cur.length + piece.length then do
      let rest ← pack limit oversize pieces piece
      some (flush cur ++ rest)
    else pack limit oversize pieces (cur ++ piece)

/-- `packLines`. -/
def packLines (rounds : ℕ) (lines : List Bytes) (limit : ℕ) : Option (List Bytes) :=
  pack limit (runeSplit limit rounds) (nonEmpty lines) []

/-- The line that closes each part of a code block, and the lines between the fences. -/
def closeLine (marker : Bytes) (rest : List Bytes) : Bytes × List Bytes :=
  match rest.reverse.dropWhile fun l => l = [] with
  | last :: before =>
    if isClosingFence (trimSpace last) marker then (trimLineEnd last, before.reverse)
    else (marker, rest)
  | [] => (marker, rest)

/-- `splitCodeBlock`. -/
def splitCodeBlock (rounds : ℕ) (blk marker : Bytes) (limit : ℕ) : Option (List Bytes) :=
  match splitAfter blk with
  | [] => some []
  | opening :: rest => do
    let (closing, inner) := closeLine marker rest
    let overhead := opening.length + closing.length + 1
    let budget := if limit ≤ overhead then limit / 2 else limit - overhead
    let chunks ← packLines rounds inner budget
    if chunks = [] then some [opening ++ closing]
    else some (chunks.map fun chunk =>
      opening ++ chunk ++ (if chunk.getLast? = some 0x0A then [] else [0x0A]) ++ closing)

/-- `splitTable`. -/
def splitTable (rounds : ℕ) (blk : Bytes) (limit : ℕ) : Option (List Bytes) :=
  match nonEmpty (splitAfter blk) with
  | line :: delimiter :: rows =>
    let header := line ++ delimiter
    if limit ≤ header.length then packLines rounds (splitAfter blk) limit
    else do
      let chunks ← packLines rounds rows (limit - header.length)
      if chunks = [] then some [header]
      else some (chunks.map fun chunk => header ++ chunk)
  | _ => packLines rounds (splitAfter blk) limit

/-- `splitBlock`. -/
def splitBlock (rounds : ℕ) (limit : ℕ) (blk : Bytes) : Option (List Bytes) :=
  let marker := fenceMarker (trimSpace (firstLine blk))
  if marker ≠ [] then splitCodeBlock rounds blk marker limit
  else if isTable blk then splitTable rounds blk limit
  else packLines rounds (splitAfter blk) limit

/-- `Split`; a limit that is negative is taken as `0`. -/
def split (rounds : ℕ) (text : Bytes) (limit : ℕ) : Option (List Bytes) :=
  if limit = 0 ∨ text.length ≤ limit then some [text]
  else (pack limit (splitBlock rounds limit) (blocks text) []).map fun parts =>
    if parts = [] then [[]] else parts

end AgentOps.Slackbot
