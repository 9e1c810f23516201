import AgentOps.Slackbot.Caps
import AgentOps.Slackbot.Quotation

/-!
# What a quotation leaves out

Messages of a thread get lost on the way into a quotation at three places: `ThreadReplies` of
`slackbot/internal/slackclient/poster.go` keeps the last ones that Slack lists,
`transcriptMessages` takes those of the window, and `capEntries` bounds their number and size.
Only the last of them says so.
-/

namespace AgentOps.Slackbot

open AgentOps.Lib

variable {replies : List Message} {s : Bytes}

/-! ## Reading a thread -/

def threadPageSize : ℕ := 200

def maxThreadPages : ℕ := 15

def transcriptFetchMax : ℕ := 200

/-- An answer to `GetConversationRepliesContext`. -/
structure Page where
  messages : List Message
  hasMore : Bool
  next : String
deriving DecidableEq, Repr

/-- The answers of Slack by the cursor of the call; `none` is an error. -/
abbrev Listing := String → Option Page

/-- The last messages of a list, at most `max`. -/
def keepLast (max : ℕ) (out : List Message) : List Message := out.drop (out.length - max)

/-- The loop of `ThreadReplies`, for a number of pages. -/
def threadRepliesFrom (fetch : Listing) (max : ℕ) : ℕ → String → List Message →
    Option (List Message)
  | 0, _, _ => none
  | n + 1, cursor, out =>
    match fetch cursor with
    | none => none
    | some page =>
      let out := keepLast max (out ++ page.messages)
      if page.hasMore = false ∨ page.next = "" then some out
      else threadRepliesFrom fetch max n page.next out

/-- `ThreadReplies`; the error that the thread is too long is like every other one. -/
def threadReplies (fetch : Listing) (max : ℕ) : Option (List Message) :=
  threadRepliesFrom fetch max (Nat.max (max / threadPageSize + 1) maxThreadPages) "" []

/-- The pages from a cursor on hold these messages. -/
inductive Pages (fetch : Listing) : String → List Message → Prop
  | last {cursor : String} {page : Page} : fetch cursor = some page →
      page.hasMore = false ∨ page.next = "" → Pages fetch cursor page.messages
  | more {cursor : String} {page : Page} {rest : List Message} : fetch cursor = some page →
      ¬(page.hasMore = false ∨ page.next = "") → Pages fetch page.next rest →
      Pages fetch cursor (page.messages ++ rest)

theorem keepLast_append (max : ℕ) (a b : List Message) :
    keepLast max (keepLast max a ++ b) = keepLast max (a ++ b) := by
  unfold keepLast
  have hlen : (a.drop (a.length - max) ++ b).length = a.length - (a.length - max) + b.length := by
    simp
  rw [hlen, List.length_append]
  by_cases h : a.length ≤ max
  · rw [Nat.sub_eq_zero_of_le h]
    simp
  · have hdrop : a.drop (a.length - max) ++ b = (a ++ b).drop (a.length - max) := by
      rw [List.drop_append_of_le_length (by omega)]
    rw [hdrop, List.drop_drop]
    congr 1
    omega

/-- A read that succeeds gives the last messages of all pages. -/
theorem threadRepliesFrom_eq {fetch : Listing} {max n : ℕ} {cursor : String} {out : List Message}
    (h : threadRepliesFrom fetch max n cursor out = some replies) (hout : keepLast max out = out) :
    ∃ msgs, Pages fetch cursor msgs ∧ replies = keepLast max (out ++ msgs) := by
  induction n generalizing cursor out with
  | zero => cases h
  | succ n ih =>
    rw [threadRepliesFrom] at h
    split at h
    · cases h
    · rename_i page hpage
      split at h
      · rename_i hlast
        cases h
        exact ⟨page.messages, .last hpage hlast, rfl⟩
      · rename_i hmore
        have hidem : keepLast max (keepLast max (out ++ page.messages)) =
            keepLast max (out ++ page.messages) := by
          have := keepLast_append max (out ++ page.messages) []
          rwa [List.append_nil, List.append_nil] at this
        obtain ⟨msgs, hmsgs, hreplies⟩ := ih h hidem
        refine ⟨page.messages ++ msgs, .more hpage hmore hmsgs, ?_⟩
        rw [hreplies, keepLast_append, List.append_assoc]

theorem threadReplies_eq {fetch : Listing} {max : ℕ} (h : threadReplies fetch max = some replies) :
    ∃ msgs, Pages fetch "" msgs ∧ replies = keepLast max msgs := by
  obtain ⟨msgs, hmsgs, hreplies⟩ := threadRepliesFrom_eq h (by simp [keepLast])
  exact ⟨msgs, hmsgs, by rwa [List.nil_append] at hreplies⟩

/-! ## The time of the second read -/

/-- A sum of 64 bits. -/
def wrap64 (x : ℤ) : ℤ := x.bmod (2 ^ 64)

/-- `strconv.ParseInt(s, 10, 64)`. -/
def parseInt (s : List Char) : Option ℤ :=
  let (neg, digits) : Bool × List Char := match s with
    | '-' :: rest => (true, rest)
    | '+' :: rest => (false, rest)
    | _ => (false, s)
  if digits.isEmpty || !digits.all Char.isDigit then none
  else
    let n : ℕ := digits.foldl (fun n c => 10 * n + (c.toNat - '0'.toNat)) 0
    if neg then if n ≤ 2 ^ 63 then some (-n) else none
    else if n < 2 ^ 63 then some n else none

/-- Seconds from the zero time of Go to the Unix epoch. -/
def unixToInternal : ℤ := 62135596800

/-- The Unix seconds of `time.Unix(s, us*1000).Add(-d)`, for whole seconds `d`: the seconds are
counted from the zero time, and a sum that overflows stays at the least time. -/
def secondsBefore (s us d : ℤ) : ℤ :=
  let ext := wrap64 (wrap64 (if us < 0 then s - 1 else s) + unixToInternal)
  let sum := wrap64 (ext - d)
  wrap64 ((if ext < sum then -(2 ^ 63 - 1) else sum) - unixToInternal)

/-- `slackTS`, of seconds and microseconds. -/
def slackTS (secs us : ℤ) : String :=
  if secs < 0 then "0.000000"
  else toString secs ++ "." ++ String.ofList (List.replicate (6 - (toString us).length) '0') ++
    toString us

/-- `catchupLookback`, in seconds. -/
def catchupLookback : ℤ := 60 * 60

/-- `tsBefore`. -/
def tsBefore (ts : String) (d : ℤ) : String :=
  let secs := ts.toList.takeWhile (· ≠ '.')
  let micros := (ts.toList.dropWhile (· ≠ '.')).drop 1
  match parseInt secs with
  | none => ts
  | some s =>
    if micros = [] then slackTS (secondsBefore s 0 d) 0
    else
      match parseInt ((micros ++ List.replicate 6 '0').take 6) with
      | none => ts
      | some us => slackTS (secondsBefore s us d) (us % 1000000)

/-! ## The blocks -/

/-- A thread in Slack. Slack lists the messages from a time on, the whole thread if there is
none. -/
structure Slack where
  thread : List Message
  listed : String → Message → Bool
  fetch : String → Listing
  pages : ∀ since msgs, Pages (fetch since) "" msgs → msgs = thread.filter (listed since)

variable {slack : Slack}

def Slack.read (slack : Slack) (since : String) : Option (List Message) :=
  threadReplies (slack.fetch since) transcriptFetchMax

/-- What the bot quotes: the thread for a join, or what came since the cursor of a session. -/
inductive Quote
  | seed (before : String)
  | catchup (t : Thread) (before : String)

namespace Quote

/-- What a catch-up reads. -/
def reading (slack : Slack) (t : Thread) : Reading where
  replies := slack.read ""
  fallback := slack.read (tsBefore t.lastSeenTS catchupLookback)

/-- The block that is composed. -/
def block (slack : Slack) (botUserId : String) : Quote → Bytes
  | .seed before =>
    let carried := readCarryover botUserId before (slack.read "")
    composeJoinBlock carried.1 carried.2
  | .catchup t before => (Slackbot.catchup botUserId t before (reading slack t)).1

/-- The window. -/
def spec (botUserId : String) : Quote → CarrySpec
  | .seed before => seedCarry before botUserId
  | .catchup t before => t.carry botUserId before

/-- From when on the messages are read. -/
def since (slack : Slack) : Quote → String
  | .seed _ => ""
  | .catchup t _ =>
    if (slack.read "").isSome then "" else tsBefore t.lastSeenTS catchupLookback

/-- The messages that the read keeps. -/
def kept (slack : Slack) (q : Quote) : List Message :=
  keepLast transcriptFetchMax (slack.thread.filter (slack.listed (q.since slack)))

end Quote

/-- A block says that earlier messages were omitted. -/
def SaysOmitted (block : Bytes) : Prop := utf8 "[earlier messages omitted]" ∈ lines block

/-- A run of messages of one role in a quotation, with their whole texts. -/
def quoteRun (run : EntryRole × List Message) : Bytes :=
  labelFor run.1 ++ utf8 " " ++
    (utf8 "\n\n").intercalate (run.2.map fun msg => sanitizeCarried msg.text)

/-- A block quotes some messages, all of them and in their order: those of one role that follow each
other under one label, each with its whole text. -/
def Quotes (spec : CarrySpec) (msgs : List Message) (block : Bytes) : Prop :=
  ∃ framing, ∃ runs : List (EntryRole × List Message), runs.flatMap Prod.snd = msgs ∧
    (∀ run ∈ runs, ∀ msg ∈ run.2, (spec.entry msg).role = run.1) ∧
    block = framing ++ utf8 "\n\n" ++ (utf8 "<conversation>\n" ++
      (utf8 "\n---\n").intercalate (runs.map quoteRun) ++ utf8 "\n</conversation>")

/-! ## Sanitising goes by lines -/

theorem tagRest_newline (s r : Bytes) :
    tagRest (s ++ 0x0A :: r) = (tagRest s).map fun m => (m.1, m.2 ++ 0x0A :: r) := by
  have hor : ∀ x y : Option (Bytes × Bytes),
      (x.map fun m => (m.1, m.2 ++ 0x0A :: r)).orElse
        (fun _ => y.map fun m => (m.1, m.2 ++ 0x0A :: r)) =
      (x.orElse fun _ => y).map fun m => (m.1, m.2 ++ 0x0A :: r) := by
    intro x y
    cases x <;> rfl
  unfold tagRest
  rw [foldWord_newline (by decide), foldWord_newline (by decide), hor, Option.bind_map,
    Option.map_bind]
  congr 1
  funext m
  simp only [Function.comp, head?_append_cons_eq (show (0x3E : UInt8) ≠ 0x0A by decide)]
  split
  · rename_i h
    obtain ⟨y, hy⟩ := List.head?_eq_some_iff.mp h
    rw [hy]
    rfl
  · rfl

/-- A tag is not found across a newline. -/
theorem carriedBlock_newline (s r : Bytes) :
    carriedBlock (s ++ 0x0A :: r) = (carriedBlock s).map fun m => (m.1, m.2 ++ 0x0A :: r) := by
  rw [carriedBlock_eq, carriedBlock_eq]
  simp only [head?_append_cons_eq (show (0x3C : UInt8) ≠ 0x0A by decide)]
  split
  · rename_i h
    obtain ⟨x, rfl⟩ := List.head?_eq_some_iff.mp h
    rw [List.cons_append, List.tail_cons, List.tail_cons]
    simp only [head?_append_cons_eq (show (0x2F : UInt8) ≠ 0x0A by decide)]
    split
    · rename_i h'
      obtain ⟨y, rfl⟩ := List.head?_eq_some_iff.mp h'
      rw [List.cons_append, List.tail_cons, List.tail_cons, tagRest_newline, Option.map_map,
        Option.map_map]
      rfl
    · rw [tagRest_newline, Option.map_map, Option.map_map]
      rfl
  · rfl

theorem carriedBlock_shorter {m : Bytes × Bytes} (h : carriedBlock s = some m) :
    m.2.length < s.length := by
  obtain ⟨w, -, inner, hfold, -⟩ := carriedBlock_sound h
  rw [(foldWord_sound hfold).1]
  simp
  omega

/-- The first pass does not depend on its fuel, if it is enough. -/
theorem replaceAll_fuel {n k : ℕ} (hn : s.length ≤ n) (hk : s.length ≤ k) (start start' : Bool) :
    replaceAll carriedBlock false n start s = replaceAll carriedBlock false k start' s := by
  induction n generalizing k start start' s with
  | zero =>
    obtain rfl := List.length_eq_zero_iff.mp (Nat.le_zero.mp hn)
    rw [replaceAll_nil (tried_carriedBlock start []), replaceAll_nil (tried_carriedBlock start' [])]
  | succ n ih =>
    cases hmatch : carriedBlock s with
    | some m =>
      have hlen := carriedBlock_shorter hmatch
      obtain ⟨k, rfl⟩ : ∃ k', k = k' + 1 := ⟨k - 1, by omega⟩
      have hrest := ih (k := k) (s := m.2) (by omega) (by omega) false false
      rw [replaceAll_match ((tried_carriedBlock start s).trans hmatch),
        replaceAll_match ((tried_carriedBlock start' s).trans hmatch), hrest]
    | none =>
      have htried := (tried_carriedBlock start s).trans hmatch
      have htried' := (tried_carriedBlock start' s).trans hmatch
      cases s with
      | nil => rw [replaceAll_nil htried, replaceAll_nil htried']
      | cons b s =>
        obtain ⟨k, rfl⟩ : ∃ k', k = k' + 1 := ⟨k - 1, by simp at hk; omega⟩
        simp only [List.length_cons] at hn hk
        have hrest := ih (k := k) (s := s) (by omega) (by omega) (b == 0x0A) (b == 0x0A)
        rw [replaceAll_cons htried, replaceAll_cons htried', hrest]

theorem replaceAll_block_newline {n : ℕ} {start : Bool} {r : Bytes}
    (hn : (s ++ 0x0A :: r).length ≤ n) :
    replaceAll carriedBlock false n start (s ++ 0x0A :: r) =
      replaceAll carriedBlock false s.length true s ++
        0x0A :: replaceAll carriedBlock false r.length true r := by
  induction n generalizing start s with
  | zero => simp at hn
  | succ n ih =>
    have hnl := carriedBlock_newline s r
    simp only [List.length_append, List.length_cons] at hn ih
    cases hmatch : carriedBlock s with
    | some m =>
      have hlen := carriedBlock_shorter hmatch
      obtain ⟨k, hk⟩ : ∃ k, s.length = k + 1 := ⟨s.length - 1, by omega⟩
      have hrest := replaceAll_fuel (n := k) (s := m.2) (by omega) (Nat.le_refl _) false true
      rw [hmatch] at hnl
      rw [replaceAll_match ((tried_carriedBlock start _).trans hnl), ih (by omega), hk,
        replaceAll_match ((tried_carriedBlock true s).trans hmatch), hrest, List.append_assoc]
    | none =>
      rw [hmatch] at hnl
      have htried := (tried_carriedBlock start _).trans hnl
      cases s with
      | nil =>
        have hrest := replaceAll_fuel (n := n) (s := r) (by simpa using hn) (Nat.le_refl _)
          ((0x0A : UInt8) == 0x0A) true
        rw [List.nil_append] at htried ⊢
        rw [replaceAll_cons htried, replaceAll_nil ((tried_carriedBlock true []).trans hmatch),
          List.nil_append, hrest]
      | cons b s =>
        have hrest := replaceAll_fuel (n := s.length) (s := s) (Nat.le_refl _) (Nat.le_refl _)
          (b == 0x0A) true
        rw [List.cons_append] at htried ⊢
        simp only [List.length_cons] at hn
        rw [replaceAll_cons htried, ih (by omega), List.length_cons,
          replaceAll_cons ((tried_carriedBlock true _).trans hmatch), hrest]
        rfl

theorem sanitizeCarried_newline (s r : Bytes) :
    sanitizeCarried (s ++ 0x0A :: r) = sanitizeCarried s ++ 0x0A :: sanitizeCarried r := by
  rw [← unlines_lines (sanitizeCarried (s ++ 0x0A :: r)), lines_sanitizeCarried,
    replaceAll_block_newline (Nat.le_refl _), lines_append, List.map_append,
    ← lines_sanitizeCarried, ← lines_sanitizeCarried, ← lines_append, unlines_lines]

/-! ## Nothing is lost without a cut -/

theorem sanitizeCarried_intercalate {texts : List Bytes} (h : texts ≠ []) :
    sanitizeCarried ((utf8 "\n\n").intercalate texts) =
      (utf8 "\n\n").intercalate (texts.map sanitizeCarried) := by
  induction texts using List.reverseRecOn with
  | nil => exact absurd rfl h
  | append_singleton texts text ih =>
    by_cases hnil : texts = []
    · subst hnil
      simp [List.intercalate]
    · have hline (s : Bytes) : sanitizeCarried (s ++ utf8 "\n\n" ++ text) =
          sanitizeCarried s ++ utf8 "\n\n" ++ sanitizeCarried text := by
        rw [List.append_assoc, List.append_assoc,
          show utf8 "\n\n" = 0x0A :: ([] ++ [0x0A]) from rfl,
          List.cons_append, List.append_assoc, List.singleton_append, sanitizeCarried_newline,
          sanitizeCarried_newline]
        rfl
      rw [intercalate_concat _ hnil, hline, ih hnil, List.map_append, List.map_singleton,
        intercalate_concat _ (by simpa using hnil)]

/-- The entries that stand for runs of messages quote these. -/
theorem quoteRun_of_standsFor {spec : CarrySpec} {runs : List (List Entry)} {out : List Entry}
    (h : List.Forall₂ StandsFor runs out) {msgs : List Message}
    (hmsgs : msgs.map spec.entry = runs.flatten) :
    ∃ rs : List (EntryRole × List Message), rs.flatMap Prod.snd = msgs ∧
      (∀ run ∈ rs, ∀ msg ∈ run.2, (spec.entry msg).role = run.1) ∧
      out.map (fun e => labelFor e.role ++ utf8 " " ++ sanitizeCarried e.text) =
        rs.map quoteRun := by
  induction h generalizing msgs with
  | nil =>
    obtain rfl := List.map_eq_nil_iff.mp hmsgs
    exact ⟨[], rfl, List.forall_mem_nil _, rfl⟩
  | @cons run e runs out hrun _ ih =>
    obtain ⟨front, rest, rfl, rfl, hrest⟩ := List.map_eq_append_iff.mp hmsgs
    obtain ⟨rs, hflat, hroles, hquoted⟩ := ih hrest
    refine ⟨(e.role, front) :: rs, by rw [List.flatMap_cons, hflat], ?_, ?_⟩
    · refine List.forall_mem_cons.mpr ⟨fun msg hmsg => ?_, hroles⟩
      exact hrun.role _ (List.mem_map_of_mem hmsg)
    · have htexts : (front.map spec.entry).map Entry.text = front.map Message.text := by
        rw [List.map_map]
        rfl
      have hne : front.map Message.text ≠ [] := by simpa using hrun.nonempty
      rw [List.map_cons, List.map_cons, hquoted, hrun.text, htexts,
        sanitizeCarried_intercalate hne, List.map_map]
      rfl

/-- The caps took nothing away, if they do not say so. -/
theorem capEntries_all {msgs : List Entry} (h : (capEntries msgs).2 = false) :
    (capEntries msgs).1 = mergeRuns msgs := by
  obtain ⟨kept, hcapped, hout, hflag⟩ := capEntries_capped msgs
  rw [h] at hflag
  have hnone := not_or.mp fun hcut => Bool.false_ne_true (hflag.mpr hcut)
  rw [hout]
  cases hcapped with
  | newest _ hnew => rw [hnew.suffix.eq_of_length_le (not_lt.mp hnone.1)]
  | cut hm hlong => exact absurd ⟨_, hm, hlong⟩ hnone.2

/-- A quotation that is not cut has every eligible message. -/
theorem quotes_of_whole {spec : CarrySpec} (framing : Bytes)
    (h : (capEntries (transcriptMessages replies spec)).2 = false) :
    Quotes spec (replies.filter fun msg => Eligible spec msg) (framing ++ utf8 "\n\n" ++
      quoteConversation (capEntries (transcriptMessages replies spec)).1 false) := by
  rw [capEntries_all h, transcriptMessages_eq]
  obtain ⟨runs, hflat, hfor⟩ := (mergeRuns_merged ((replies.filter fun msg =>
    Eligible spec msg).map spec.entry)).runs
  obtain ⟨rs, hmsgs, hroles, hquoted⟩ := quoteRun_of_standsFor hfor hflat
  refine ⟨framing, rs, hmsgs, hroles, ?_⟩
  unfold quoteConversation List.intercalate
  rw [← hquoted]
  rfl

/-- A quotation that is cut says so. -/
theorem saysOmitted_framed (framing : Bytes) (entries : List Entry) :
    SaysOmitted (framing ++ utf8 "\n\n" ++ quoteConversation entries true) := by
  have hbody : utf8 "[earlier messages omitted]" ∈ lines (quotedBody entries true) := by
    show _ ∈ lines (utf8 "[earlier messages omitted]" ++ 0x0A ::
      (utf8 "---" ++ 0x0A :: quotedEntries entries))
    rw [lines_append, lines_of_notMem (l := utf8 "[earlier messages omitted]") (by decide)]
    exact List.mem_append_left _ (List.mem_singleton_self _)
  unfold SaysOmitted
  rw [lines_framed, lines_quoteConversation]
  exact List.mem_append_right _ (List.mem_cons_of_mem _
    (List.mem_cons_of_mem _ (List.mem_append_left _ hbody)))

/-! ## An omission is stated -/

theorem Slack.read_eq {since : String} (h : slack.read since = some replies) :
    replies = keepLast transcriptFetchMax (slack.thread.filter (slack.listed since)) := by
  obtain ⟨msgs, hmsgs, hreplies⟩ := threadReplies_eq h
  rw [hreplies, slack.pages since msgs hmsgs]

theorem composeJoinBlock_framed {entries : List Entry} {truncated : Bool}
    (h : composeJoinBlock entries truncated ≠ []) : composeJoinBlock entries truncated =
      utf8 joinFraming ++ utf8 "\n\n" ++ quoteConversation entries truncated := by
  unfold composeJoinBlock at h ⊢
  split at h
  · exact absurd rfl h
  · rename_i hne
    rw [if_neg hne]

theorem composeCatchupBlock_framed {entries : List Entry} {truncated : Bool}
    (h : composeCatchupBlock entries truncated ≠ []) : composeCatchupBlock entries truncated =
      utf8 catchupFraming ++ utf8 "\n\n" ++ quoteConversation entries truncated := by
  unfold composeCatchupBlock at h ⊢
  split at h
  · exact absurd rfl h
  · rename_i hne
    rw [if_neg hne]

/-- A catch-up that is not empty was read, and from where. -/
theorem Quote.reading_eq {botUserId before : String} {t : Thread}
    (h : (Slackbot.catchup botUserId t before (reading slack t)).1 ≠ []) :
    t.multiplayer = true ∧ t.lastSeenTS ≠ "" ∧
      ((reading slack t).replies.orElse fun _ => (reading slack t).fallback) =
        some ((Quote.catchup t before).kept slack) := by
  unfold Slackbot.catchup at h
  split at h
  · exact absurd rfl h
  · rename_i hmulti
    split at h
    · exact absurd rfl h
    · rename_i hcursor
      refine ⟨by simpa using hmulti, hcursor, ?_⟩
      cases hread : (reading slack t).replies.orElse fun _ => (reading slack t).fallback with
      | none =>
        rw [hread] at h
        exact absurd rfl h
      | some replies =>
        refine congrArg some ?_
        unfold reading at hread
        unfold kept since
        cases hwhole : slack.read "" with
        | some msgs =>
          rw [hwhole] at hread
          obtain rfl : msgs = replies := Option.some.inj hread
          exact Slack.read_eq hwhole
        | none =>
          rw [hwhole] at hread
          exact Slack.read_eq hread

/-- The block of a quote is composed of the messages that its read kept. -/
theorem Quote.block_eq {botUserId : String} {q : Quote} (h : q.block slack botUserId ≠ []) :
    ∃ framing, q.block slack botUserId = framing ++ utf8 "\n\n" ++
      quoteConversation (capEntries (transcriptMessages (q.kept slack) (q.spec botUserId))).1
        (capEntries (transcriptMessages (q.kept slack) (q.spec botUserId))).2 := by
  cases q with
  | seed before =>
    simp only [block] at h ⊢
    cases hread : slack.read "" with
    | none =>
      rw [hread] at h
      exact absurd rfl h
    | some replies =>
      rw [hread, Slack.read_eq hread] at h
      rw [Slack.read_eq hread]
      exact ⟨_, composeJoinBlock_framed h⟩
  | catchup t before =>
    simp only [block] at h ⊢
    obtain ⟨hmulti, hcursor, hread⟩ := Quote.reading_eq h
    rw [catchup_eq hmulti hcursor hread] at h ⊢
    simp only at h ⊢
    split at h
    · rename_i hstart
      rw [if_pos hstart]
      exact ⟨_, composeJoinBlock_framed h⟩
    · rename_i hstart
      rw [if_neg hstart]
      exact ⟨_, composeCatchupBlock_framed h⟩

/-- If a block does not say that something was omitted, it quotes every eligible message that the
read kept, in order and with its whole text. -/
theorem omission_stated {slack : Slack} {botUserId : String} {q : Quote}
    (hblock : q.block slack botUserId ≠ []) (hstated : ¬SaysOmitted (q.block slack botUserId)) :
    Quotes (q.spec botUserId) ((q.kept slack).filter fun msg => Eligible (q.spec botUserId) msg)
      (q.block slack botUserId) := by
  obtain ⟨framing, heq⟩ := Quote.block_eq hblock
  rw [heq] at hstated ⊢
  cases hcut : (capEntries (transcriptMessages (q.kept slack) (q.spec botUserId))).2 with
  | true =>
    rw [hcut] at hstated
    exact absurd (saysOmitted_framed _ _) hstated
  | false => exact quotes_of_whole framing hcut

/-- A listing in two pages. -/
def twoPages (msgs : List Message) : Listing := fun cursor =>
  if cursor = "" then
    some ⟨msgs.take threadPageSize, decide (threadPageSize < msgs.length), "2"⟩
  else some ⟨msgs.drop threadPageSize, false, ""⟩

theorem pages_twoPages {msgs out : List Message} (h : Pages (twoPages msgs) "" out) :
    out = msgs := by
  cases h with
  | last hpage hlast =>
    cases hpage
    have hle : msgs.length ≤ threadPageSize := by simpa using hlast
    exact List.take_of_length_le hle
  | more hpage hmore hrest =>
    cases hpage
    cases hrest with
    | last hpage hlast =>
      cases hpage
      exact List.take_append_drop _ _
    | more hpage hmore hrest =>
      cases hpage
      exact absurd (.inl rfl) hmore

/-- A thread of at most two pages, in a Slack that lists what is newer than a time. -/
def slackOf (thread : List Message) : Slack where
  thread := thread
  listed since msg := since = "" ∨ since < msg.timestamp
  fetch since := twoPages (thread.filter fun msg => since = "" ∨ since < msg.timestamp)
  pages _ _ h := pages_twoPages h

/-- The first message of a thread. -/
def firstMessage : Message where
  timestamp := "1000"
  user := "U1"
  text := utf8 "QQ"

/-- A thread with many status lines behind its first message. -/
def chromeThread : List Message :=
  firstMessage :: (List.range 199).map (fun i =>
    { timestamp := toString (1001 + i), user := "UBOT", botId := "B1", text := utf8 "status",
      eventType := .chrome }) ++ [{ timestamp := "1200", user := "U2", text := utf8 "last" }]

set_option maxRecDepth 20000 in
theorem joinFraming_noQ : 0x51 ∉ utf8 joinFraming := by
  unfold joinFraming
  exact utf8_chars (P := fun s => 0x51 ∉ s) (by decide)

set_option maxRecDepth 20000 in
theorem joinFraming_saysNothing : ¬SaysOmitted (utf8 joinFraming) := by
  unfold joinFraming
  exact utf8_chars (P := fun s => utf8 "[earlier messages omitted]" ∉ lines s) (by decide)

/-- The seed of this thread carries the last message only. -/
theorem block_chromeThread : (Quote.seed "1300").block (slackOf chromeThread) "UBOT" =
    utf8 joinFraming ++ utf8 "\n\n" ++
      quoteConversation [{ role := .request, text := utf8 "last" }] false := by
  have hcarried : readCarryover "UBOT" "1300" ((slackOf chromeThread).read "") =
      ([{ role := .request, text := utf8 "last" }], false) := by
    decide +kernel
  show composeJoinBlock (readCarryover "UBOT" "1300" ((slackOf chromeThread).read "")).1
    (readCarryover "UBOT" "1300" ((slackOf chromeThread).read "")).2 = _
  rw [hcarried]
  rfl

theorem chromeThread_saysNothing :
    ¬SaysOmitted ((Quote.seed "1300").block (slackOf chromeThread) "UBOT") := by
  intro hstated
  unfold SaysOmitted at hstated
  rw [block_chromeThread, lines_framed] at hstated
  obtain hstated | hstated := List.mem_append.mp hstated
  · exact joinFraming_saysNothing hstated
  · revert hstated
    decide

theorem omission_stated_chromeThread :
    Quotes (seedCarry "1300" "UBOT") [{ timestamp := "1200", user := "U2", text := utf8 "last" }]
      ((Quote.seed "1300").block (slackOf chromeThread) "UBOT") := by
  have hblock : (Quote.seed "1300").block (slackOf chromeThread) "UBOT" ≠ [] := by
    rw [block_chromeThread]
    exact framed_ne_nil _ _
  have hquotes := omission_stated hblock chromeThread_saysNothing
  have hkept : ((Quote.seed "1300").kept (slackOf chromeThread)).filter
      (fun msg => Eligible ((Quote.seed "1300").spec "UBOT") msg) =
        [{ timestamp := "1200", user := "U2", text := utf8 "last" }] := by
    decide +kernel
  rwa [hkept] at hquotes

/-- The read drops the first message, and nothing says so. -/
theorem omission_unstated :
    (Quote.seed "1300").block (slackOf chromeThread) "UBOT" ≠ [] ∧
      firstMessage ∈ (slackOf chromeThread).thread ∧
      Eligible ((Quote.seed "1300").spec "UBOT") firstMessage ∧
      ¬ sanitizeCarried firstMessage.text <:+:
        (Quote.seed "1300").block (slackOf chromeThread) "UBOT" ∧
      ¬SaysOmitted ((Quote.seed "1300").block (slackOf chromeThread) "UBOT") := by
  refine ⟨?_, List.mem_cons_self, by decide, fun hin => ?_, chromeThread_saysNothing⟩
  · rw [block_chromeThread]
    exact framed_ne_nil _ _
  · rw [block_chromeThread] at hin
    have hmem : 0x51 ∈ utf8 joinFraming ++ utf8 "\n\n" ++
        quoteConversation [{ role := .request, text := utf8 "last" }] false :=
      hin.subset (by decide)
    rw [List.mem_append, List.mem_append] at hmem
    obtain (hmem | hmem) | hmem := hmem
    · exact joinFraming_noQ hmem
    · exact absurd hmem (by decide)
    · exact absurd hmem (by decide)

end AgentOps.Slackbot
