import AgentOps.Slackbot.SplitTheorems
import Mathlib.Logic.Function.Basic

/-!
# The answer of a turn in Slack

`renderer`, `showIntermediary` and `showFinal` of `slackbot/internal/app/render.go`: while a
turn runs its answer is one message that grows, and at its end the answer is cut into pieces,
each of them a message. A piece that has a message is edited and one that has none is posted,
so a retry after failed calls posts only what is missing.

A message's timestamp is its place in the thread. Every call of the poster gets its outcome:
a call that succeeds is applied at once and one that fails leaves no trace.
-/

namespace AgentOps.Slackbot

open AgentOps.Lib

variable {i : ℕ} {turnId : String}

def maxMessageChars : ℕ := 3900

/-- `messageContent`: the text, and whether it starts the answer. -/
structure Content where
  text : Bytes
  turnStart : Bool
deriving DecidableEq, Repr

/-- A message of an answer, with the turn and the piece that it was posted for. -/
structure Posted where
  turn : String
  piece : ℕ
  content : Content
deriving DecidableEq, Repr

/-- `renderer`, without the permission prompts. -/
structure Renderer where
  curTS : Option ℕ := none
  reacted : Bool := false
  turnId : String := ""
  pieceTS : ℕ → Option ℕ := fun _ => none
  text : Bytes := []
  broken : Bool := false
  finished : Bool := false

/-- A renderer and the thread that it writes to. -/
structure Answer where
  render : Renderer := {}
  messages : List Posted := []

variable {a : Answer}

/-- `mdsplit.Split(text, maxMessageChars)`. -/
def splitMessage (text : Bytes) : List Bytes := (split text.length text maxMessageChars).getD []

/-- `withEllipsis`. -/
def withEllipsis (text : Bytes) : Bytes :=
  let t := (text.reverse.dropWhile fun b => b = 0x20 ∨ b = 0x09 ∨ b = 0x0A).reverse
  if utf8 "…" <:+ t ∨ utf8 "..." <:+ t then t else t ++ utf8 " …"

/-- `UpdateMessage`, and `UpdateMessageDebounced` of a poster that does not wait. -/
def updateMessage (messages : List Posted) (ts : ℕ) (content : Content) (ok : Bool) : List Posted :=
  if ok then messages.modify ts fun m => { m with content } else messages

namespace Answer

/-- `beginTurn`. -/
def beginTurn (a : Answer) (turnId : String) : Answer :=
  if a.render.turnId = turnId then a else { a with render := { turnId } }

/-- `showIntermediary`. -/
def showIntermediary (a : Answer) (seg : Bytes) (ok : Bool) : Answer :=
  let content := ⟨withEllipsis ((splitMessage seg).headD []), true⟩
  match a.render.curTS with
  | some cur => { a with messages := updateMessage a.messages cur content ok }
  | none =>
    if ok then
      { render := { a.render with curTS := some a.messages.length, reacted := true },
        messages := a.messages ++ [⟨a.render.turnId, 0, content⟩] }
    else a

/-- The variables of the loop of `showFinal`. -/
structure Loop where
  messages : List Posted
  sent : ℕ → Option ℕ
  firstTS : Option ℕ := none
  delivered : Bool := true

/-- One round of the loop of `showFinal`. -/
def showPiece (turn : String) (cur : Option ℕ) (l : Loop) (i : ℕ) (piece : Bytes) (ok : Bool) :
    Loop :=
  let content := ⟨piece, i == 0⟩
  match if i = 0 then cur else l.sent i with
  | some known =>
    { l with
      messages := updateMessage l.messages known content ok
      delivered := l.delivered && ok
      firstTS := if i = 0 then some known else l.firstTS }
  | none =>
    if ok then
      { l with
        messages := l.messages ++ [⟨turn, i, content⟩]
        sent := Function.update l.sent i (some l.messages.length)
        firstTS := if i = 0 then some l.messages.length else l.firstTS }
    else { l with delivered := false }

/-- The loop of `showFinal` from piece `i` on; `ok` tells which calls succeed. -/
def showPieces (turn : String) (cur : Option ℕ) (ok : ℕ → Bool) : ℕ → List Bytes → Loop → Loop
  | _, [], l => l
  | i, piece :: rest, l => showPieces turn cur ok (i + 1) rest (showPiece turn cur l i piece (ok i))

/-- `showFinal`. -/
def showFinal (a : Answer) (seg : Bytes) (ok : ℕ → Bool) : Answer × Bool :=
  let l := showPieces a.render.turnId a.render.curTS ok 0 (splitMessage seg)
    { messages := a.messages, sent := a.render.pieceTS }
  let render := { a.render with
    curTS := l.firstTS.or a.render.curTS
    pieceTS := Function.update l.sent 0 none }
  ({ render, messages := l.messages }, l.delivered)

/-! ## The events of a turn -/

/-- `appendPart`. -/
def appendPart (a : Answer) (part : Bytes) : Answer :=
  let endsInSpace := (dropSpaceBack a.render.text.reverse).isSome
  let startsInSpace := (dropSpace part).isSome
  let text :=
    if a.render.broken && part ≠ [] && !endsInSpace && !startsInSpace then
      a.render.text ++ utf8 "\n\n"
    else a.render.text
  { a with render := { a.render with text := text ++ part, broken := false } }

/-- `finish`, without the text that it returns. -/
def finish (a : Answer) (turnId : String) : Option Answer :=
  if a.render.turnId ≠ turnId ∨ a.render.finished = true ∨ a.render.text = [] then none
  else some { a with render := { a.render with finished := true } }

/-- `unfinish`. -/
def unfinish (a : Answer) : Answer := { a with render := { a.render with finished := false } }

/-- The events that a turn's answer is made of, with the outcomes of the calls they lead to. -/
inductive TurnEvent
  | message (text : Bytes) (final : Bool) (ok : ℕ → Bool)
  | toolCall
  | ended (ok : ℕ → Bool)

/-- `renderEvent`, for the answer of a turn. -/
def renderEvent (a : Answer) (turnId : String) : TurnEvent → Answer
  | .message part final ok =>
    let a := (a.beginTurn turnId).appendPart part
    if final then
      let a := (a.finish turnId).getD a
      let shown := a.showFinal a.render.text ok
      if shown.2 then shown.1 else shown.1.unfinish
    else a.showIntermediary a.render.text (ok 0)
  | .toolCall => { a with render := { a.render with broken := a.render.text ≠ [] } }
  | .ended ok =>
    let a := match a.finish turnId with
      | some a => (a.showFinal a.render.text ok).1
      | none => a
    { a with render := { a.render with reacted := false } }

end Answer

/-! ## A table of messages

What the two functions come to: a message is kept for each piece that has one, and putting a
content in place of a piece edits that message or posts one. -/

/-- The messages of a thread, and the one that is kept for each piece of a turn's answer. -/
@[ext] structure Board where
  kept : ℕ → Option ℕ
  messages : List Posted

namespace Board

/-- Edit a message. -/
def edit (ts : ℕ) (content : Content) (b : Board) : Board :=
  { b with messages := updateMessage b.messages ts content true }

/-- Post a message and keep it for piece `i`. -/
def post (turn : String) (i : ℕ) (content : Content) (b : Board) : Board where
  kept := Function.update b.kept i (some b.messages.length)
  messages := b.messages ++ [⟨turn, i, content⟩]

/-- Put a content in place of piece `i`. -/
def put (turn : String) (i : ℕ) (content : Content) (ok : Bool) (b : Board) : Board :=
  if ok then
    match b.kept i with
    | some ts => b.edit ts content
    | none => b.post turn i content
  else b

/-- Put pieces in place, from piece `i` on. -/
def putAll (turn : String) (ok : ℕ → Bool) : ℕ → List Bytes → Board → Board
  | _, [], b => b
  | i, piece :: rest, b => putAll turn ok (i + 1) rest (b.put turn i ⟨piece, i == 0⟩ (ok i))

/-- The message kept for a piece is the one message that was posted for it. -/
structure Once (turn : String) (b : Board) : Prop where
  held : ∀ i ts, b.kept i = some ts →
    ∃ m, b.messages[ts]? = some m ∧ m.turn = turn ∧ m.piece = i
  all : ∀ ts m, b.messages[ts]? = some m → m.turn = turn → b.kept m.piece = some ts

/-- The message kept for piece `i` has a content. -/
def Shows (b : Board) (i : ℕ) (content : Content) : Prop :=
  ∃ ts m, b.kept i = some ts ∧ b.messages[ts]? = some m ∧ m.content = content

theorem getElem?_edit (b : Board) (ts : ℕ) (content : Content) (k : ℕ) :
    (b.edit ts content).messages[k]? =
      (b.messages[k]?).map fun m => if ts = k then { m with content } else m := by
  show (b.messages.modify ts _)[k]? = _
  rw [List.getElem?_modify]
  split <;> rfl

theorem getElem?_post (turn : String) (i : ℕ) (content : Content) (b : Board) (k : ℕ) :
    (b.post turn i content).messages[k]? =
      if k = b.messages.length then some ⟨turn, i, content⟩ else b.messages[k]? := by
  show (b.messages ++ [_])[k]? = _
  split
  · rename_i hk
    rw [hk]
    exact List.getElem?_concat_length
  · rename_i hk
    by_cases hlt : k < b.messages.length
    · exact List.getElem?_append_left hlt
    · -- neither list goes on behind the new message
      rw [List.getElem?_eq_none (by simp; omega), List.getElem?_eq_none (by omega)]

variable {turn : String} {b : Board}

/-- An edit keeps what a message was posted for. -/
theorem Once.edit (h : Once turn b) (ts : ℕ) (content : Content) :
    Once turn (b.edit ts content) := by
  have hsame (k : ℕ) (m : Posted) : (if ts = k then { m with content } else m).turn = m.turn ∧
      (if ts = k then { m with content } else m).piece = m.piece := by
    split <;> exact ⟨rfl, rfl⟩
  constructor
  · intro i k hk
    rcases h.held i k hk with ⟨m, hm, hturn, hpiece⟩
    rw [getElem?_edit, hm]
    exact ⟨_, rfl, (hsame k m).1.trans hturn, (hsame k m).2.trans hpiece⟩
  · intro k m hm hturn
    rw [getElem?_edit] at hm
    rcases Option.map_eq_some_iff.mp hm with ⟨m', hm', rfl⟩
    rw [(hsame k m').1] at hturn
    rw [(hsame k m').2]
    exact h.all k m' hm' hturn

/-- The message that is posted for a piece is its first one. -/
theorem Once.post (h : Once turn b) (hi : b.kept i = none) (content : Content) :
    Once turn (b.post turn i content) := by
  constructor
  · intro j k hk
    replace hk : Function.update b.kept i (some b.messages.length) j = some k := hk
    rw [getElem?_post]
    by_cases hj : j = i
    · rw [hj, Function.update_self] at hk
      rw [if_pos (Option.some.inj hk).symm]
      exact ⟨_, rfl, rfl, hj.symm⟩
    · rw [Function.update_of_ne hj] at hk
      rcases h.held j k hk with ⟨m, hm, hrest⟩
      have hlt := (List.getElem?_eq_some_iff.mp hm).1
      rw [if_neg (by omega)]
      exact ⟨m, hm, hrest⟩
  · intro k m hm hturn
    rw [getElem?_post] at hm
    show Function.update b.kept i (some b.messages.length) m.piece = some k
    split at hm
    · rename_i hk
      obtain rfl := Option.some.inj hm
      rw [hk]
      exact Function.update_self _ _ _
    · have hkept := h.all k m hm hturn
      have hne : m.piece ≠ i := by
        intro heq
        rw [heq, hi] at hkept
        cases hkept
      rw [Function.update_of_ne hne]
      exact hkept

theorem Once.put (h : Once turn b) (i : ℕ) (content : Content) (ok : Bool) :
    Once turn (b.put turn i content ok) := by
  unfold Board.put
  split
  · split
    · exact h.edit _ content
    · exact h.post ‹_› content
  · exact h

/-- What was put in place is shown. -/
theorem Once.shows_put (h : Once turn b) (i : ℕ) (content : Content) :
    Shows (b.put turn i content true) i content := by
  unfold Board.put
  rw [if_pos rfl]
  split
  · rename_i ts hts
    rcases h.held i ts hts with ⟨m, hm, -, -⟩
    refine ⟨ts, { m with content }, hts, ?_, rfl⟩
    rw [getElem?_edit, hm, Option.map_some, if_pos rfl]
  · refine ⟨b.messages.length, ⟨turn, i, content⟩, Function.update_self _ _ _, ?_, rfl⟩
    rw [getElem?_post, if_pos rfl]

/-- The other pieces are shown as before: they have messages of their own. -/
theorem Once.shows_put_of_ne (h : Once turn b) {j : ℕ} (hij : i ≠ j) {content : Content}
    (hj : Shows b j content) (content' : Content) (ok : Bool) :
    Shows (b.put turn i content' ok) j content := by
  rcases hj with ⟨ts, m, hts, hm, hcontent⟩
  unfold Board.put
  split
  · split
    · rename_i known hknown
      -- two pieces never share a message
      have hne : known ≠ ts := by
        rintro rfl
        rcases h.held i known hknown with ⟨mi, hmi, -, hi⟩
        rcases h.held j known hts with ⟨mj, hmj, -, hj⟩
        rw [hmi] at hmj
        obtain rfl := Option.some.inj hmj
        exact hij (hi.symm.trans hj)
      refine ⟨ts, m, hts, ?_, hcontent⟩
      rw [getElem?_edit, hm, Option.map_some, if_neg hne]
    · have hlt := (List.getElem?_eq_some_iff.mp hm).1
      refine ⟨ts, m, ?_, ?_, hcontent⟩
      · show Function.update b.kept i _ j = some ts
        rw [Function.update_of_ne hij.symm]
        exact hts
      · rw [getElem?_post, if_neg (by omega)]
        exact hm
  · exact ⟨ts, m, hts, hm, hcontent⟩

theorem Once.putAll (h : Once turn b) (ok : ℕ → Bool) (i : ℕ) (pieces : List Bytes) :
    Once turn (b.putAll turn ok i pieces) := by
  induction pieces generalizing i b with
  | nil => exact h
  | cons piece rest ih => exact ih (h.put i _ (ok i)) (i + 1)

/-- Pieces in front of those that are put in place are shown as before. -/
theorem Once.shows_putAll_of_lt (h : Once turn b) (ok : ℕ → Bool) {j : ℕ} (hj : j < i)
    (pieces : List Bytes) {content : Content} (hshow : Shows b j content) :
    Shows (b.putAll turn ok i pieces) j content := by
  induction pieces generalizing i b with
  | nil => exact hshow
  | cons piece rest ih =>
    apply ih (h.put i _ (ok i)) (by omega)
    exact h.shows_put_of_ne (by omega) hshow _ _

/-- When every call succeeds all pieces are shown. -/
theorem Once.shows_putAll (h : Once turn b) {ok : ℕ → Bool} {pieces : List Bytes}
    (hok : ∀ k < pieces.length, ok (i + k) = true) {k : ℕ} {piece : Bytes}
    (hk : pieces[k]? = some piece) :
    Shows (b.putAll turn ok i pieces) (i + k) ⟨piece, i + k == 0⟩ := by
  induction pieces generalizing i k b with
  | nil => cases hk
  | cons p rest ih =>
    have hnext := h.put i ⟨p, i == 0⟩ (ok i)
    cases k with
    | zero =>
      obtain rfl : p = piece := Option.some.inj hk
      have hfirst : ok i = true := hok 0 (Nat.zero_lt_succ _)
      apply hnext.shows_putAll_of_lt ok (Nat.lt_succ_self i)
      rw [hfirst]
      exact h.shows_put i _
    | succ k =>
      have hstep := ih hnext (i := i + 1) (k := k) (fun j hj => ?_) hk
      · rw [show i + (k + 1) = i + 1 + k by omega]
        exact hstep
      · rw [show i + 1 + j = i + (j + 1) by omega]
        apply hok
        rw [List.length_cons]
        omega

end Board

/-! ## The renderer keeps such a table -/

namespace Answer

/-- The first piece is kept in `curTS` and the others in `pieceTS`. -/
def board (a : Answer) : Board where
  kept i := if i = 0 then a.render.curTS else a.render.pieceTS i
  messages := a.messages

/-- The table while the loop of `showFinal` runs. -/
def Loop.board (cur : Option ℕ) (l : Loop) : Board where
  kept i := if i = 0 then l.firstTS.or cur else l.sent i
  messages := l.messages

/-- A table after a post, slot by slot. -/
theorem kept_post (turn : String) (i : ℕ) (content : Content) (b : Board) (j : ℕ) :
    (b.post turn i content).kept j = if j = i then some b.messages.length else b.kept j :=
  Function.update_apply _ _ _ _

theorem board_showIntermediary (a : Answer) (seg : Bytes) (ok : Bool) :
    (a.showIntermediary seg ok).board = a.board.put a.render.turnId 0
      ⟨withEllipsis ((splitMessage seg).headD []), true⟩ ok := by
  have hkept : a.board.kept 0 = a.render.curTS := rfl
  unfold showIntermediary Board.put
  rw [hkept]
  cases hcur : a.render.curTS with
  | some cur => cases ok <;> rfl
  | none =>
    cases ok with
    | false => rfl
    | true =>
      apply Board.ext
      · funext j
        show (if j = 0 then some a.messages.length else a.render.pieceTS j) =
          (a.board.post _ 0 _).kept j
        rw [kept_post]
        show _ = if j = 0 then some a.messages.length else if j = 0 then _ else a.render.pieceTS j
        split <;> rfl
      · rfl

theorem board_showPiece {cur : Option ℕ} {l : Loop} (hi : i = 0 → l.firstTS = none) (turn : String)
    (piece : Bytes) (ok : Bool) :
    (showPiece turn cur l i piece ok).board cur =
        (l.board cur).put turn i ⟨piece, i == 0⟩ ok ∧
      (showPiece turn cur l i piece ok).delivered = (l.delivered && ok) := by
  have hkept : (l.board cur).kept i = if i = 0 then cur else l.sent i := by
    show (if i = 0 then l.firstTS.or cur else l.sent i) = _
    split
    · rename_i hzero
      rw [hi hzero]
      rfl
    · rfl
  unfold showPiece Board.put
  rw [hkept]
  cases hknown : (if i = 0 then cur else l.sent i) with
  | some known =>
    refine ⟨?_, rfl⟩
    -- the loop notes the message of the first piece, which the table has already
    have hsame (j : ℕ) : (if j = 0 then (if i = 0 then some known else l.firstTS).or cur
        else l.sent j) = (l.board cur).kept j := by
      show _ = if j = 0 then l.firstTS.or cur else l.sent j
      split
      · split
        · rename_i hzero
          rw [if_pos hzero] at hknown
          rw [hi hzero, hknown]
          rfl
        · rfl
      · rfl
    cases ok with
    | true => exact Board.ext (funext hsame) rfl
    | false => exact Board.ext (funext hsame) rfl
  | none =>
    cases ok with
    | false => exact ⟨rfl, (Bool.and_false _).symm⟩
    | true =>
      refine ⟨?_, (Bool.and_true _).symm⟩
      apply Board.ext
      · funext j
        show (if j = 0 then (if i = 0 then some l.messages.length else l.firstTS).or cur
          else Function.update l.sent i (some l.messages.length) j) =
            ((l.board cur).post _ i _).kept j
        rw [kept_post, Function.update_apply]
        show _ = if j = i then some l.messages.length else if j = 0 then l.firstTS.or cur
          else l.sent j
        by_cases hj : j = 0
        · rw [if_pos hj, if_pos hj]
          by_cases hzero : i = 0
          · rw [if_pos hzero, if_pos (hj.trans hzero.symm)]
            rfl
          · rw [if_neg hzero, if_neg (by omega)]
        · rw [if_neg hj, if_neg hj]
      · rfl

/-- The loop puts the pieces in place, and tells whether all calls succeeded. -/
theorem board_showPieces (turn : String) (cur : Option ℕ) (ok : ℕ → Bool) (i : ℕ)
    (pieces : List Bytes) (l : Loop) (hi : i = 0 → l.firstTS = none) :
    (showPieces turn cur ok i pieces l).board cur = (l.board cur).putAll turn ok i pieces ∧
      ((showPieces turn cur ok i pieces l).delivered = true →
        l.delivered = true ∧ ∀ k < pieces.length, ok (i + k) = true) := by
  induction pieces generalizing i l with
  | nil => exact ⟨rfl, fun h => ⟨h, fun k hk => absurd hk (Nat.not_lt_zero k)⟩⟩
  | cons piece rest ih =>
    obtain ⟨hboard, hdelivered⟩ := board_showPiece hi turn piece (ok i)
    obtain ⟨hrest, hall⟩ := ih (i + 1) (showPiece turn cur l i piece (ok i)) (by omega)
    constructor
    · show (showPieces turn cur ok (i + 1) rest _).board cur = _
      rw [hrest, hboard]
      rfl
    · intro h
      obtain ⟨hfirst, hlater⟩ := hall h
      rw [hdelivered, Bool.and_eq_true] at hfirst
      refine ⟨hfirst.1, fun k hk => ?_⟩
      cases k with
      | zero => exact hfirst.2
      | succ k =>
        rw [List.length_cons] at hk
        rw [show i + (k + 1) = i + 1 + k by omega]
        exact hlater k (by omega)

theorem board_showFinal (a : Answer) (seg : Bytes) (ok : ℕ → Bool) :
    (a.showFinal seg ok).1.board = a.board.putAll a.render.turnId ok 0 (splitMessage seg) ∧
      ((a.showFinal seg ok).2 = true → ∀ k < (splitMessage seg).length, ok k = true) := by
  obtain ⟨hboard, hall⟩ := board_showPieces a.render.turnId a.render.curTS ok 0 (splitMessage seg)
    { messages := a.messages, sent := a.render.pieceTS } fun _ => rfl
  constructor
  · have hinit : Loop.board a.render.curTS { messages := a.messages, sent := a.render.pieceTS } =
        a.board := rfl
    rw [← hinit, ← hboard]
    apply Board.ext
    · funext j
      by_cases hj : j = 0
      · rw [hj]
        rfl
      · show (if j = 0 then _ else Function.update (_ : ℕ → Option ℕ) 0 none j) =
          if j = 0 then _ else _
        rw [if_neg hj, if_neg hj]
        exact Function.update_of_ne hj _ _
    · rfl
  · intro h k hk
    have := (hall h).2 k hk
    rwa [Nat.zero_add] at this

/-- A call for the answer of a turn, with the outcomes of the Slack calls that it makes. -/
inductive ShowCall
  | intermediary (seg : Bytes) (ok : Bool)
  | final (seg : Bytes) (ok : ℕ → Bool)

def call (a : Answer) : ShowCall → Answer
  | .intermediary seg ok => a.showIntermediary seg ok
  | .final seg ok => (a.showFinal seg ok).1

/-- The renderer is at a turn, and each piece has the one message that was posted for it. -/
structure Tabled (turnId : String) (a : Answer) : Prop where
  turn : a.render.turnId = turnId
  once : a.board.Once turnId

theorem turnId_showIntermediary (a : Answer) (seg : Bytes) (ok : Bool) :
    (a.showIntermediary seg ok).render.turnId = a.render.turnId := by
  unfold showIntermediary
  split
  · rfl
  · split <;> rfl

theorem Tabled.showIntermediary (h : Tabled turnId a) (seg : Bytes) (ok : Bool) :
    Tabled turnId (a.showIntermediary seg ok) := by
  constructor
  · rw [turnId_showIntermediary]
    exact h.turn
  · rw [board_showIntermediary, h.turn]
    exact h.once.put _ _ _

theorem Tabled.showFinal (h : Tabled turnId a) (seg : Bytes) (ok : ℕ → Bool) :
    Tabled turnId (a.showFinal seg ok).1 := by
  constructor
  · exact h.turn
  · rw [(board_showFinal a seg ok).1, h.turn]
    exact h.once.putAll _ _ _

/-- A new turn starts without messages. -/
theorem tabled_beginTurn (hnew : a.render.turnId ≠ turnId)
    (hmessages : ∀ m ∈ a.messages, m.turn ≠ turnId) : Tabled turnId (a.beginTurn turnId) := by
  have hbegin : a.beginTurn turnId = { a with render := { turnId } } := if_neg hnew
  rw [hbegin]
  refine ⟨rfl, ?_, ?_⟩
  · intro i ts hts
    replace hts : (if i = 0 then none else none : Option ℕ) = some ts := hts
    split at hts <;> cases hts
  · intro ts m hm hturn
    exact absurd hturn (hmessages m (List.mem_of_getElem? hm))

theorem Tabled.calls (h : Tabled turnId a) (cs : List ShowCall) :
    Tabled turnId (cs.foldl call a) := by
  induction cs generalizing a with
  | nil => exact h
  | cons c cs ih =>
    apply ih
    cases c with
    | intermediary seg ok => exact h.showIntermediary seg ok
    | final seg ok => exact h.showFinal seg ok

/-- Each piece of a turn's answer has at most one message. -/
def PostedOnce (turnId : String) (messages : List Posted) : Prop :=
  ∀ (ts ts' : ℕ) (m m' : Posted), messages[ts]? = some m → messages[ts']? = some m' →
    m.turn = turnId → m'.turn = turnId → m.piece = m'.piece → ts = ts'

/-- The messages that are kept hold the pieces of a text. -/
def ShowsText (a : Answer) (text : Bytes) : Prop :=
  ∀ i piece, (splitMessage text)[i]? = some piece → a.board.Shows i ⟨piece, i == 0⟩

theorem Tabled.postedOnce (h : Tabled turnId a) : PostedOnce turnId a.messages := by
  intro ts ts' m m' hm hm' hturn hturn' hpiece
  have hkept := h.once.all ts m hm hturn
  rw [hpiece, h.once.all ts' m' hm' hturn'] at hkept
  exact (Option.some.inj hkept).symm

theorem Tabled.showsText (h : Tabled turnId a) {seg : Bytes} {ok : ℕ → Bool}
    (hdelivered : (a.showFinal seg ok).2 = true) : (a.showFinal seg ok).1.ShowsText seg := by
  intro i piece hpiece
  obtain ⟨hboard, hall⟩ := board_showFinal a seg ok
  have hok : ∀ k < (splitMessage seg).length, ok (0 + k) = true := by
    intro k hk
    rw [Nat.zero_add]
    exact hall hdelivered k hk
  have hshow := h.once.shows_putAll hok hpiece
  rw [Nat.zero_add] at hshow
  rw [hboard, h.turn]
  exact hshow

/-- However often an answer is shown and whichever calls fail, each piece gets at most one
message, and when `showFinal` reports success the messages hold the pieces. -/
theorem answer_posted_once (a : Answer) (turnId : String) (hnew : a.render.turnId ≠ turnId)
    (hmessages : ∀ m ∈ a.messages, m.turn ≠ turnId) (cs : List ShowCall) :
    PostedOnce turnId (cs.foldl call (a.beginTurn turnId)).messages ∧
    ∀ seg ok, ((cs.foldl call (a.beginTurn turnId)).showFinal seg ok).2 = true →
      ((cs.foldl call (a.beginTurn turnId)).showFinal seg ok).1.ShowsText seg := by
  have h := (tabled_beginTurn hnew hmessages).calls cs
  exact ⟨h.postedOnce, fun seg ok hdelivered => h.showsText hdelivered⟩

/-- The answer is posted, and then an edit of it fails. -/
def retried : List ShowCall := [.intermediary (utf8 "a") true, .final (utf8 "ab") fun _ => false]

theorem answer_posted_once_retried :
    PostedOnce "t1" (retried.foldl call (beginTurn {} "t1")).messages ∧
    ∀ seg ok, ((retried.foldl call (beginTurn {} "t1")).showFinal seg ok).2 = true →
      ((retried.foldl call (beginTurn {} "t1")).showFinal seg ok).1.ShowsText seg :=
  answer_posted_once {} "t1" (by decide) (List.forall_mem_nil _) retried

/-! ## From the events of a turn -/

theorem Tabled.of_render {b : Answer} (h : Tabled turnId a)
    (hturn : b.render.turnId = a.render.turnId) (hboard : b.board = a.board) : Tabled turnId b := by
  constructor
  · exact hturn.trans h.turn
  · rw [hboard]
    exact h.once

theorem Tabled.finish {b : Answer} (h : Tabled turnId a) (hb : a.finish turnId = some b) :
    Tabled turnId b := by
  unfold Answer.finish at hb
  split at hb
  · cases hb
  · obtain rfl := Option.some.inj hb
    exact h.of_render rfl rfl

theorem Tabled.appendPart (h : Tabled turnId a) (part : Bytes) :
    Tabled turnId ((a.beginTurn turnId).appendPart part) := by
  have hbegin : a.beginTurn turnId = a := if_pos h.turn
  rw [hbegin]
  exact h.of_render rfl rfl

/-- The final part of an answer is a `showFinal` of the whole text, which is not finished
unless all calls succeed. -/
theorem Tabled.renderEvent_final (h : Tabled turnId a) (part : Bytes) (ok : ℕ → Bool) :
    ∃ b, Tabled turnId b ∧ a.renderEvent turnId (.message part true ok) =
      if (b.showFinal b.render.text ok).2 then (b.showFinal b.render.text ok).1
      else (b.showFinal b.render.text ok).1.unfinish := by
  have hpart := h.appendPart part
  refine ⟨_, ?_, rfl⟩
  cases hb : ((a.beginTurn turnId).appendPart part).finish turnId with
  | none => exact hpart
  | some b => exact hpart.finish hb

/-- An event of the turn shows the answer or leaves the messages alone. -/
theorem Tabled.renderEvent (h : Tabled turnId a) (e : TurnEvent) :
    Tabled turnId (a.renderEvent turnId e) := by
  cases e with
  | message part final ok =>
    cases final with
    | true =>
      obtain ⟨b, hb, heq⟩ := h.renderEvent_final part ok
      rw [heq]
      split
      · exact hb.showFinal _ ok
      · exact (hb.showFinal _ ok).of_render rfl rfl
    | false => exact (h.appendPart part).showIntermediary _ _
  | toolCall => exact h.of_render rfl rfl
  | ended ok =>
    unfold Answer.renderEvent
    dsimp only
    cases hb : a.finish turnId with
    | none => exact h.of_render rfl rfl
    | some b => exact ((h.finish hb).showFinal _ ok).of_render rfl rfl

/-- Over the events of a turn each piece of the answer gets at most one message, and an answer
whose final part counts as finished is in Slack as it is. -/
theorem events_posted_once (a : Answer) (turnId : String) (hnew : a.render.turnId ≠ turnId)
    (hmessages : ∀ m ∈ a.messages, m.turn ≠ turnId) (es : List TurnEvent) :
    let b := es.foldl (fun a e => a.renderEvent turnId e) (a.beginTurn turnId)
    PostedOnce turnId b.messages ∧ ∀ part ok,
      (b.renderEvent turnId (.message part true ok)).render.finished = true →
      (b.renderEvent turnId (.message part true ok)).ShowsText
        (b.renderEvent turnId (.message part true ok)).render.text := by
  have hrun : ∀ (es : List TurnEvent) {a : Answer}, Tabled turnId a →
      Tabled turnId (es.foldl (fun a e => a.renderEvent turnId e) a) := by
    intro es
    induction es with
    | nil => exact fun h => h
    | cons e es ih => exact fun h => ih (h.renderEvent e)
  intro b
  have hb : Tabled turnId b := hrun es (tabled_beginTurn hnew hmessages)
  refine ⟨hb.postedOnce, fun part ok hfinished => ?_⟩
  obtain ⟨d, hd, heq⟩ := hb.renderEvent_final part ok
  rw [heq] at hfinished ⊢
  split at hfinished
  · rename_i hdelivered
    rw [if_pos hdelivered]
    exact hd.showsText hdelivered
  · cases hfinished

/-- A part of an answer, a tool call, and the last part, whose edit fails. -/
def turnEvents : List TurnEvent := [.message (utf8 "a") false fun _ => true, .toolCall,
  .message (utf8 "b") true fun _ => false]

theorem events_posted_once_retried :
    PostedOnce "t1"
      (turnEvents.foldl (fun a e => a.renderEvent "t1" e) (beginTurn {} "t1")).messages :=
  (events_posted_once {} "t1" (by decide) (List.forall_mem_nil _) turnEvents).1

end Answer

end AgentOps.Slackbot
