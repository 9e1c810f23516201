import AgentOps.Api.Events
import AgentOps.Lib.Utf8
import Mathlib

/-!
# The aggregator of agent updates

`Aggregator` of `harness/internal/runner/acp.go`: the chunks of an ACP session are gathered in
two buffers, one for the reply and one for the reasoning, and go out as parts of bounded size.

Texts are byte strings. Each flush loop runs for a given number of rounds; a call whose loop
has not ended by then keeps the lock, and is an error that holds the aggregator as it is.
-/

namespace AgentOps.Runner

open AgentOps.Lib
open AgentOps.Api (Usage)

def partMax : ℕ := 256 * 2 ^ 10

/-- `cutPart`. -/
def cutPart (s : Bytes) : Bytes × Bytes :=
  if s.length ≤ partMax then (s, []) else s.splitAt (backUp s partMax)

/-- `agentlinkpb.ToolCall`. -/
structure ToolCall where
  id : String
  title : String := ""
  kind : String := ""
  status : String := ""
  rawInput : Bytes := []
  update : Bool := false
deriving DecidableEq, Repr

/-- The payloads of `agentlinkpb.AgentEvent` that an aggregator emits. -/
inductive Emission
  | message (partId : String) (text : Bytes) (final : Bool)
  | thought (text : Bytes)
  | toolCall (call : ToolCall)
  | usage (u : Usage)
deriving DecidableEq, Repr

/-- `acp.SessionUpdate`, with the kinds that `Update` looks at. A content block has a text or
not; a raw input is the JSON that `json.Marshal` makes of it, if it makes any; a cost is its
currency and the bit pattern of its amount. -/
inductive Update
  | messageChunk (content : Option Bytes)
  | thoughtChunk (content : Option Bytes)
  | toolCall (id title kind status : String) (rawInput : Option Bytes)
  | toolCallUpdate (id : String) (title kind status : Option String) (rawInput : Option Bytes)
  | usageUpdate (size used : ℤ) (cost : Option (String × UInt64))
  | other
deriving DecidableEq, Repr

/-- `contentText`. -/
def contentText (content : Option Bytes) : Bytes := content.getD []

/-- `rawJSON`. -/
def rawJSON (json : Option Bytes) : Bytes :=
  match json with
  | none => []
  | some b => if partMax < b.length then [] else b

/-- `strings.EqualFold(currency, "USD")`; `ſ` folds to `s`. -/
def isUSD (currency : String) : Bool :=
  currency.toList.map (fun c => if c = 'ſ' then 's' else c.toLower) = ['u', 's', 'd']

/-- `Aggregator`, with the events that it has emitted. -/
structure Aggregator where
  turnId : String := ""
  part : ℕ := 0
  buf : Bytes := []
  thought : Bytes := []
  titles : String → String := fun _ => ""
  emitted : List (String × Emission) := []

namespace Aggregator

def emit (a : Aggregator) (ev : Emission) : Aggregator :=
  { a with emitted := a.emitted ++ [(a.turnId, ev)] }

/-- The part ids of a turn. -/
def partId (turnId : String) (part : ℕ) : String :=
  (if turnId = "" then "t0" else turnId) ++ "." ++ toString part

/-- `emitPartLocked`. -/
def emitPart (a : Aggregator) (text : Bytes) (final : Bool) : Aggregator :=
  { a with part := a.part + 1 }.emit (.message (partId a.turnId (a.part + 1)) text final)

/-- `for text != ""`; `emit` is told whether the text is used up. -/
def flushLoop (emit : Aggregator → Bytes → Bool → Aggregator) :
    ℕ → Aggregator → Bytes → Except Aggregator Aggregator
  | _, a, [] => .ok a
  | 0, a, _ => .error a
  | n + 1, a, text =>
    let cut := cutPart text
    flushLoop emit n (emit a cut.1 cut.2.isEmpty) cut.2

/-- `flushThoughtLocked`. -/
def flushThought (rounds : ℕ) (a : Aggregator) : Except Aggregator Aggregator :=
  flushLoop (fun a part _ => a.emit (.thought part)) rounds { a with thought := [] } a.thought

/-- `flushMessageLocked`. -/
def flushMessage (rounds : ℕ) (final : Bool) (a : Aggregator) : Except Aggregator Aggregator :=
  flushLoop (fun a part last => a.emitPart part (final && last)) rounds { a with buf := [] } a.buf

/-- `for len(text) > partMax`, with the text that is left. -/
def splitLoop (emit : Aggregator → Bytes → Aggregator) :
    ℕ → Aggregator → Bytes → Except Aggregator (Aggregator × Bytes)
  | 0, a, text => if text.length ≤ partMax then .ok (a, text) else .error a
  | n + 1, a, text =>
    if text.length ≤ partMax then .ok (a, text)
    else splitLoop emit n (emit a (cutPart text).1) (cutPart text).2

/-- `splitFullLocked` on the reply. -/
def splitFullMessage (rounds : ℕ) (a : Aggregator) : Except Aggregator Aggregator :=
  if a.buf.length ≤ partMax then .ok a
  else do
    let (a, text) ← splitLoop (fun a part => a.emitPart part false) rounds
      { a with buf := [] } a.buf
    return { a with buf := a.buf ++ text }

/-- `splitFullLocked` on the reasoning. -/
def splitFullThought (rounds : ℕ) (a : Aggregator) : Except Aggregator Aggregator :=
  if a.thought.length ≤ partMax then .ok a
  else do
    let (a, text) ← splitLoop (fun a part => a.emit (.thought part)) rounds
      { a with thought := [] } a.thought
    return { a with thought := a.thought ++ text }

/-- The titles as `toolCallLocked` keeps them, and the call with the title it goes out with. -/
def named (a : Aggregator) (c : ToolCall) : (String → String) × ToolCall :=
  let title := if c.title = "" then a.titles c.id else c.title
  (if title = "" then a.titles else Function.update a.titles c.id title, { c with title })

/-- `toolCallLocked`. -/
def toolCall (rounds : ℕ) (a : Aggregator) (c : ToolCall) : Except Aggregator Aggregator := do
  let a ← a.flushThought rounds
  let (titles, c) := a.named c
  let a ← { a with titles }.flushMessage rounds false
  return a.emit (.toolCall c)

/-- `Update`. -/
def update (rounds : ℕ) (a : Aggregator) : Update → Except Aggregator Aggregator
  | .messageChunk content =>
    if contentText content = [] then .ok a
    else do
      let a ← a.flushThought rounds
      { a with buf := a.buf ++ contentText content }.splitFullMessage rounds
  | .thoughtChunk content =>
    { a with thought := a.thought ++ contentText content }.splitFullThought rounds
  | .toolCall id title kind status rawInput =>
    a.toolCall rounds { id, title, kind, status, rawInput := rawJSON rawInput }
  | .toolCallUpdate id title kind status rawInput =>
    a.toolCall rounds
      { id, title := title.getD "", kind := kind.getD "", status := status.getD "",
        rawInput := rawJSON rawInput, update := true }
  | .usageUpdate size used cost =>
    .ok (a.emit (.usage
      { contextWindow := size, contextUsed := used,
        costUsd := match cost with
          | some (currency, amount) => if isUSD currency then amount else 0
          | none => 0 }))
  | .other => .ok a

/-- `Begin`. -/
def begin_ (a : Aggregator) (turnId : String) : Aggregator :=
  { a with turnId, part := 0, buf := [], thought := [] }

/-- `End`. -/
def end_ (rounds : ℕ) (a : Aggregator) : Except Aggregator Aggregator := do
  let a ← a.flushThought rounds
  let a ← a.flushMessage rounds true
  return { a with turnId := "" }

/-- A call on the aggregator. -/
inductive Call
  | begin_ (turnId : String)
  | update (u : Update)
  | end_
deriving DecidableEq, Repr

def call (rounds : ℕ) (a : Aggregator) : Call → Except Aggregator Aggregator
  | .begin_ turnId => .ok (a.begin_ turnId)
  | .update u => a.update rounds u
  | .end_ => a.end_ rounds

/-- Calls one after another; the lock lets no call in beside another. -/
def calls (rounds : ℕ) (a : Aggregator) (cs : List Call) : Except Aggregator Aggregator :=
  cs.foldlM (call rounds) a

end Aggregator

end AgentOps.Runner
