import AgentOps.AgenticRun.RunClient
import AgentOps.Service.Approval
import AgentOps.Slackbot.Caps

/-!
# The prompts that the bot sends

`slackbot/internal/app/start.go` and `app.go`: the approval prompt of a start and of a join, and
the content of a turn, which becomes the approval prompt when the turn continues a paused
session. A text of the bot reaches the harness as the field of a call, and the harness creates
the run that the approver is asked about.
-/

namespace AgentOps.Slackbot

open AgentOps.Lib AgentOps.Service AgentOps.AgenticRun

variable {botUserId p : String}

/-- `originMention` and `originJoin`. -/
inductive OriginKind
  | mention
  | join
deriving DecidableEq, Repr

/-- `plural`. -/
def plural (n : ℕ) (noun : String) : String :=
  if n = 1 then "1 " ++ noun else toString n ++ " " ++ noun ++ "s"

/-- `approvalAsk`. -/
def approvalAsk : OriginKind → Bytes
  | .join => utf8 "Join a Slack thread with an agent session of my own."
  | .mention => utf8 "Start an agent session in this Slack thread."

/-- `provenanceClause`. -/
def provenanceClause (carried : ℕ) (link : Bytes) : Bytes :=
  utf8 " [continues another person's conversation: " ++ utf8 (plural carried "message") ++
    utf8 " carried" ++ (if link ≠ [] then utf8 ", " ++ link else []) ++ utf8 "]"

/-- The words of a request, or what stands for a request without words. -/
def requestWords (kind : OriginKind) (request : Bytes) : Bytes :=
  if blank request then approvalAsk kind else request

/-- `consentPrompt`. -/
def consentPrompt (request : Bytes) (kind : OriginKind) (carried : ℕ) (link : Bytes) : Bytes :=
  requestWords kind request ++ if 0 < carried then provenanceClause carried link else []

/-- The `ApprovalPrompt` of `startSession`. -/
def startApproval (kind : OriginKind) (approvalPrompt : Bytes) : Bytes :=
  requestWords kind approvalPrompt

/-- What a requester asks of the bot, as far as it can lead to a run: a mention that starts a
session, one that joins a thread, and a turn, with the trigger that bounds its catch-up. -/
inductive Ask
  | start (prompt : Bytes)
  | join (messageTS : String) (prompt : Bytes)
  | turn (thread : Thread) (triggerTS : String) (text : Bytes)
deriving DecidableEq, Repr

/-- The text that the bot sends: an `ApprovalPrompt`, or the content of a `Prompt`. -/
def Ask.text (botUserId : String) (r : Reading) : Ask → Bytes
  | .start prompt => startApproval .mention prompt
  | .join messageTS prompt => startApproval .join (consentPrompt prompt .join
      (carriedMessages (readCarryover botUserId messageTS r.replies).1) r.link)
  | .turn t triggerTS text => withCatchup (catchup botUserId t triggerTS r).1 text

/-- The call of the harness that carries a text of the bot. -/
inductive Ask.Calls (text : Bytes) : Ask → Service.Entry → Prop
  | start {prompt : Bytes} {templateSpec : TemplateSpec} {approvalPrompt initialPrompt : String}
      (h : utf8 approvalPrompt = text) :
      Calls text (.start prompt) (.createSession templateSpec approvalPrompt initialPrompt)
  | join {messageTS : String} {prompt : Bytes} {templateSpec : TemplateSpec}
      {approvalPrompt initialPrompt : String} (h : utf8 approvalPrompt = text) :
      Calls text (.join messageTS prompt) (.createSession templateSpec approvalPrompt initialPrompt)
  | turn {thread : Thread} {triggerTS : String} {words : Bytes} {content : String}
      (h : utf8 content = text) : Calls text (.turn thread triggerTS words) (.prompt content)

/-- A run with this prompt is created for the ask, in some state of some run of the harness. -/
def Ask.Creates (cfg : Settings) (botUserId : String) (r : Reading) (a : Ask) (p : String) : Prop :=
  ∃ e t s, a.Calls (a.text botUserId r) e ∧ Handles cfg e t s ∧ CreatesRun s t p

/-- The clause that the harness puts after the text. -/
def Ask.clause : Ask → Bytes
  | .turn .. => utf8 continuationClause
  | _ => []

/-- The prompt of a run that is created for an ask is the text that the bot sent, and for a
turn the clause of a continuation. -/
theorem Ask.Creates.prompt {cfg : Settings} {r : Reading} {a : Ask}
    (h : a.Creates cfg botUserId r p) : utf8 p = a.text botUserId r ++ a.clause := by
  obtain ⟨e, t, s, hcall, hserve, hrun⟩ := h
  cases hcall with
  | start h =>
    rw [createSession_asks hserve hrun, h]
    exact (List.append_nil _).symm
  | join h =>
    rw [createSession_asks hserve hrun, h]
    exact (List.append_nil _).symm
  | turn h =>
    rw [prompt_asks hserve hrun, utf8_append, h]
    rfl

/-- Dropping a space keeps an opening bracket. -/
theorem mem_of_dropSpace {s rest : Bytes} (h : dropSpace s = some rest) (hb : 0x5B ∈ s) :
    0x5B ∈ rest := by
  unfold dropSpace at h
  split at h
  case h_7 b tail _ _ _ _ _ _ =>
    split at h
    · rename_i hspace
      cases h
      obtain rfl | hb := List.mem_cons.mp hb
      · exact absurd hspace (by decide)
      · exact hb
    · cases h
  case h_6 b _ =>
    split at h
    · rename_i hspace
      cases h
      have hb : 0x5B = b ∨ 0x5B ∈ rest := by simpa using hb
      obtain rfl | hb := hb
      · exact absurd hspace (by decide)
      · exact hb
    · cases h
  case h_8 => cases h
  all_goals
    cases h
    simpa using hb

/-- A text with an opening bracket is not blank. -/
theorem blankFrom_of_mem (n : ℕ) : ∀ s : Bytes, 0x5B ∈ s → blankFrom n s = false := by
  induction n with
  | zero =>
    intro s hb
    cases s with
    | nil => cases hb
    | cons b s => rfl
  | succ n ih =>
    intro s hb
    have hne : s.isEmpty = false := by
      cases s with
      | nil => cases hb
      | cons b s => rfl
    rw [blankFrom, hne, Bool.false_or]
    split
    · rename_i rest hdrop
      exact ih rest (mem_of_dropSpace hdrop hb)
    · rfl

theorem provenanceClause_bracket (carried : ℕ) (link : Bytes) :
    0x5B ∈ provenanceClause carried link := by
  have h : 0x5B ∈ utf8 " [continues another person's conversation: " := by decide
  unfold provenanceClause
  simp only [List.append_assoc]
  exact List.mem_append_left _ h

/-- Words of a request are never blank. -/
theorem blank_requestWords (kind : OriginKind) (request : Bytes) :
    blank (requestWords kind request) = false := by
  unfold requestWords
  split
  · cases kind <;> decide
  · rename_i h
    simpa using h

/-- `startSession` leaves the approval prompt of a join as it is. -/
theorem startApproval_consentPrompt (request : Bytes) (kind : OriginKind) (carried : ℕ)
    (link : Bytes) : startApproval kind (consentPrompt request kind carried link) =
      consentPrompt request kind carried link := by
  have hblank : blank (consentPrompt request kind carried link) = false := by
    unfold consentPrompt
    split
    · apply blankFrom_of_mem
      exact List.mem_append_right _ (provenanceClause_bracket carried link)
    · rw [List.append_nil]
      exact blank_requestWords kind request
  show requestWords kind _ = _
  unfold requestWords
  rw [hblank]
  rfl

/-- The number of messages that a join carries. -/
def carriedBy (botUserId messageTS : String) (r : Reading) : ℕ :=
  carriedMessages (readCarryover botUserId messageTS r.replies).1

theorem text_join (botUserId messageTS : String) (prompt : Bytes) (r : Reading) :
    (Ask.join messageTS prompt).text botUserId r =
      consentPrompt prompt .join (carriedBy botUserId messageTS r) r.link :=
  startApproval_consentPrompt ..

/-! ## The clauses reach the authorization server -/

theorem suffix_sentPrompt {words clause : Bytes} (hp : utf8 p = words ++ clause)
    (hfits : (words ++ clause).length ≤ promptMaxBytes) : clause <:+ sentPrompt p := by
  unfold sentPrompt
  rw [hp, clampPrompt_of_le hfits]
  exact List.suffix_append _ _

/-- Behind what is cut there is the marker. -/
theorem fits_of_suffix {words clause : Bytes} (hp : utf8 p = words ++ clause)
    (hmarker : ¬ truncationMarker <:+ clause) (hlen : truncationMarker.length ≤ clause.length)
    (h : clause <:+ sentPrompt p) : (words ++ clause).length ≤ promptMaxBytes := by
  by_contra hlong
  unfold sentPrompt clampPrompt at h
  rw [hp, if_neg hlong] at h
  exact hmarker (List.suffix_of_suffix_length_le (List.suffix_append _ _) h hlen)

/-- The end of a provenance clause is not the marker, unless the link has it. -/
theorem marker_provenanceClause (carried : ℕ) {link : Bytes} (hlink : 0x5B ∉ link) :
    ¬ truncationMarker <:+ provenanceClause carried link := by
  intro h
  by_cases hnil : link = []
  · have hend : utf8 " carried]" <:+ provenanceClause carried link := by
      unfold provenanceClause
      rw [if_neg (not_not_intro hnil), List.append_nil, List.append_assoc]
      exact List.suffix_append _ _
    have := List.suffix_of_suffix_length_le hend h (by decide)
    revert this
    decide
  · have hend : utf8 ", " ++ link ++ utf8 "]" <:+ provenanceClause carried link := by
      unfold provenanceClause
      rw [if_pos hnil, List.append_assoc _ (utf8 ", " ++ link)]
      exact List.suffix_append _ _
    obtain hmarker | hmarker := List.suffix_or_suffix_of_suffix hend h
    · have hcomma : (0x2C : UInt8) ∈ utf8 ", " ++ link ++ utf8 "]" :=
        List.mem_append_left _ (List.mem_append_left _ (by decide))
      exact absurd (hmarker.subset hcomma) (by decide)
    · have hbracket := hmarker.subset (show (0x5B : UInt8) ∈ truncationMarker by decide)
      rw [List.mem_append, List.mem_append] at hbracket
      obtain (hbracket | hbracket) | hbracket := hbracket
      · exact absurd hbracket (by decide)
      · exact hlink hbracket
      · exact absurd hbracket (by decide)

theorem length_provenanceClause (carried : ℕ) (link : Bytes) :
    truncationMarker.length ≤ (provenanceClause carried link).length := by
  have h : truncationMarker.length ≤
      (utf8 " [continues another person's conversation: ").length := by decide
  unfold provenanceClause
  simp only [List.append_assoc]
  exact h.trans (List.prefix_append _ _).length_le

/-- The messages of a thread that a join may carry. -/
def eligibleEntries (botUserId messageTS : String) (replies : List Message) : List Entry :=
  (replies.filter fun msg => Eligible (seedCarry messageTS botUserId) msg).map
    (seedCarry messageTS botUserId).entry

theorem carriedBy_eq {messageTS : String} {r : Reading} {replies : List Message}
    (h : r.replies = some replies) {kept : List Entry}
    (hkept : Capped (eligibleEntries botUserId messageTS replies) kept) :
    carriedBy botUserId messageTS r = kept.length := by
  unfold carriedBy
  rw [h, readCarryover, transcriptMessages_eq]
  refine hkept.carriedMessages_eq fun m hm => ?_
  obtain ⟨msg, -, rfl⟩ := List.mem_map.mp hm
  rfl

/-- A run for a join that carries messages, which are those that the caps leave of the eligible
ones, sends the whole provenance clause with their number at the end of its prompt if and only if
its words and the clause fit into the limit of the run client. A run that continues a session so
sends the whole continuation clause. -/
theorem clauses_sent (cfg : Settings) (botUserId : String) (r : Reading) (p : String) :
    (∀ messageTS prompt replies kept, r.replies = some replies →
      Capped (eligibleEntries botUserId messageTS replies) kept → kept ≠ [] →
      (Ask.join messageTS prompt).Creates cfg botUserId r p →
      let words := requestWords .join prompt
      let clause := provenanceClause kept.length r.link
      ((words ++ clause).length ≤ promptMaxBytes → clause <:+ sentPrompt p) ∧
        (0x5B ∉ r.link → clause <:+ sentPrompt p → (words ++ clause).length ≤ promptMaxBytes)) ∧
    ∀ content t s, Handles cfg (.prompt content) t s → CreatesRun s t p →
      (utf8 continuationClause <:+ sentPrompt p ↔
        (utf8 content ++ utf8 continuationClause).length ≤ promptMaxBytes) := by
  constructor
  · intro messageTS prompt replies kept hread hkept hne h words clause
    have hp := h.prompt
    rw [show (Ask.join messageTS prompt).clause = [] from rfl, List.append_nil, text_join,
      carriedBy_eq hread hkept] at hp
    unfold consentPrompt at hp
    rw [if_pos (List.length_pos_iff.mpr hne)] at hp
    exact ⟨suffix_sentPrompt hp, fun hlink =>
      fits_of_suffix hp (marker_provenanceClause _ hlink) (length_provenanceClause _ _)⟩
  · intro content t s h hrun
    have hp : utf8 p = utf8 content ++ utf8 continuationClause := by
      rw [prompt_asks h hrun, utf8_append]
    exact ⟨fits_of_suffix hp (by decide) (by decide), suffix_sentPrompt hp⟩

/-- A thread in which another person wrote one message. -/
def oneMessage : Reading :=
  { replies := some [{ timestamp := "2", user := "o", text := utf8 "hi" }] }

theorem clauses_sent_short :
    provenanceClause 1 [] <:+
      sentPrompt "go [continues another person's conversation: 1 message carried]" ∧
    utf8 continuationClause <:+ sentPrompt ("go" ++ continuationClause) := by
  obtain ⟨t, s, hjoin, hjoins⟩ :=
    createSession_creates "go [continues another person's conversation: 1 message carried]"
  obtain ⟨t', s', hturn, hturns⟩ := prompt_creates "go"
  have hkept :
      Capped (eligibleEntries "" "3" [{ timestamp := "2", user := "o", text := utf8 "hi" }])
      [{ role := .request, text := utf8 "hi" }] :=
    .newest (by decide) (newest_self ⟨by decide, by decide⟩)
  exact ⟨((clauses_sent idleLimit "" oneMessage _).1 "3" (utf8 "go") _ _ rfl hkept (by decide)
      ⟨_, t, s, .join (by decide), hjoin, hjoins⟩).1 (by decide),
    ((clauses_sent idleLimit "" oneMessage _).2 "go" t' s' hturn hturns).2 (by decide)⟩

/-- A request as long as the limit. -/
def longRequest : String := String.ofList (List.replicate promptMaxBytes 'a')

theorem utf8_longRequest : utf8 longRequest = List.replicate promptMaxBytes 0x61 := by
  unfold longRequest
  rw [utf8_ofList_replicate, show String.utf8EncodeChar 'a' = [0x61] by decide,
    List.flatten_replicate_singleton]

theorem blank_longRequest : blank (utf8 longRequest) = false := by
  have hcons (s : Bytes) : blank (0x61 :: s) = false := rfl
  rw [utf8_longRequest, show promptMaxBytes = 4095 + 1 from rfl, List.replicate_succ]
  exact hcons _

/-- Behind such a request a clause is cut off: it has a letter that neither the request nor the
marker has. -/
theorem not_infix_sentPrompt {clause : Bytes} (hp : utf8 p = utf8 longRequest ++ clause)
    (hs : 0x73 ∈ clause) : ¬ clause <:+: sentPrompt p := by
  intro h
  have hmem : 0x73 ∈ clampPrompt (utf8 longRequest ++ clause) := by
    rw [← hp]
    exact h.subset hs
  rw [utf8_longRequest] at hmem
  obtain h | h := mem_clampPrompt (by rw [List.length_replicate]) (List.ne_nil_of_mem hs) hmem
  · exact absurd (List.eq_of_mem_replicate h) (by decide)
  · exact absurd h (by decide)

/-- Of a long request the approver sees neither clause. -/
theorem clauses_cut :
    (∃ messageTS prompt r p, 0 < carriedBy "" messageTS r ∧
      (Ask.join messageTS prompt).Creates idleLimit "" r p ∧
      ¬ provenanceClause (carriedBy "" messageTS r) r.link <:+: sentPrompt p) ∧
    ∃ content t s p, Handles idleLimit (.prompt content) t s ∧ CreatesRun s t p ∧
      ¬ utf8 continuationClause <:+: sentPrompt p := by
  have hclause : utf8 " [continues another person's conversation: 1 message carried]" =
      provenanceClause 1 [] := by decide
  constructor
  · obtain ⟨t, s, h, hrun⟩ := createSession_creates
      (longRequest ++ " [continues another person's conversation: 1 message carried]")
    have htext : (Ask.join "3" (utf8 longRequest)).text "" oneMessage =
        utf8 longRequest ++ provenanceClause 1 [] := by
      have hcarried : carriedBy "" "3" oneMessage = 1 := by decide
      rw [text_join, hcarried]
      unfold consentPrompt requestWords
      rw [blank_longRequest, if_neg Bool.false_ne_true, if_pos Nat.one_pos]
      rfl
    have hp :
        utf8 (longRequest ++ " [continues another person's conversation: 1 message carried]") =
        utf8 longRequest ++ provenanceClause 1 [] := by
      rw [utf8_append, hclause]
    exact ⟨"3", utf8 longRequest, oneMessage, _, by decide,
      ⟨_, t, s, .join (hp.trans htext.symm), h, hrun⟩, not_infix_sentPrompt hp (by decide)⟩
  · obtain ⟨t, s, h, hrun⟩ := prompt_creates longRequest
    exact ⟨longRequest, t, s, _, h, hrun, not_infix_sentPrompt (utf8_append ..) (by decide)⟩

/-! ## The approver is shown the words of the requester -/

/-- The provenance clause of an ask. -/
def Ask.provenance (botUserId : String) (r : Reading) : Ask → Bytes
  | .join messageTS _ =>
    if 0 < carriedBy botUserId messageTS r then
      provenanceClause (carriedBy botUserId messageTS r) r.link
    else []
  | _ => []

/-- Runs that are created for one ask in two threads have the same prompt, up to the provenance
clause. -/
def Ask.SameWords (cfg : Settings) (botUserId : String) (a : Ask) (r₁ r₂ : Reading) : Prop :=
  ∀ p₁ p₂, a.Creates cfg botUserId r₁ p₁ → a.Creates cfg botUserId r₂ p₂ →
    ∃ words, utf8 p₁ = words ++ a.provenance botUserId r₁ ∧
      utf8 p₂ = words ++ a.provenance botUserId r₂

/-- Nothing is carried into a turn with words: the thread is of one person, it has no cursor yet, or
no message that was read is one that the catch-up carries. -/
def Ask.Alone (botUserId : String) (r : Reading) : Ask → Prop
  | .turn t triggerTS text => text = [] ∨ t.multiplayer = false ∨ t.lastSeenTS = "" ∨
    ∀ replies, r.replies.orElse (fun _ => r.fallback) = some replies →
      ∀ msg ∈ replies, ¬Eligible (t.carry botUserId triggerTS) msg
  | _ => True

theorem framed_eq_nil_iff {framing : Bytes} {entries : List Entry} {truncated : Bool} :
    (if entries = [] then [] else
      framing ++ utf8 "\n\n" ++ quoteConversation entries truncated) = [] ↔ entries = [] := by
  split
  · next hnil => exact iff_of_true rfl hnil
  · next hne => exact iff_of_false (framed_ne_nil _ _) hne

theorem catchup_eq_nil_iff {triggerTS : String} {t : Thread} {r : Reading} :
    (catchup botUserId t triggerTS r).1 = [] ↔ t.multiplayer = false ∨ t.lastSeenTS = "" ∨
      ∀ replies, r.replies.orElse (fun _ => r.fallback) = some replies →
        ∀ msg ∈ replies, ¬Eligible (t.carry botUserId triggerTS) msg := by
  by_cases hmulti : t.multiplayer = false
  · simp [catchup, hmulti]
  by_cases hcursor : t.lastSeenTS = ""
  · simp [catchup, hcursor]
  rw [eq_false hmulti, eq_false hcursor, false_or, false_or]
  cases hread : r.replies.orElse fun _ => r.fallback with
  | none =>
    unfold catchup
    rw [if_neg hmulti, if_neg hcursor, hread]
    simp
  | some replies =>
    rw [catchup_eq (by simpa using hmulti) hcursor hread]
    simp only [Option.some.injEq, forall_eq', ← transcriptMessages_eq_nil]
    rw [← capEntries_eq_nil]
    split
    · exact framed_eq_nil_iff
    · exact framed_eq_nil_iff

/-- The words of the requester, or what stands for them. -/
def Ask.words : Ask → Bytes
  | .start prompt => requestWords .mention prompt
  | .join _ prompt => requestWords .join prompt
  | .turn _ _ text => text

/-- A prompt is the words of the requester and the clauses. -/
def Ask.WordsOnly (botUserId : String) (r : Reading) (a : Ask) (p : String) : Prop :=
  utf8 p = a.words ++ a.clause ++ a.provenance botUserId r

theorem Ask.wordsOnly_iff {cfg : Settings} {r : Reading} {a : Ask}
    (h : a.Creates cfg botUserId r p) : a.WordsOnly botUserId r p ↔ a.Alone botUserId r := by
  unfold Ask.WordsOnly
  rw [h.prompt]
  cases a with
  | start prompt => simp [Ask.text, Ask.clause, Ask.words, Ask.provenance, startApproval, Ask.Alone]
  | join messageTS prompt =>
    rw [text_join]
    simp [consentPrompt, Ask.clause, Ask.words, Ask.provenance, Ask.Alone]
  | turn t triggerTS text =>
    simp only [Ask.words, Ask.provenance, Ask.text, Ask.Alone, List.append_nil,
      ← catchup_eq_nil_iff, List.append_cancel_right_eq]
    unfold withCatchup
    split
    · next hnil => exact iff_of_true rfl hnil.symm
    · next hblock =>
      -- the block is in front of the words
      refine iff_of_false (fun heq => ?_) fun hnil => hblock hnil.symm
      have hlen := congrArg List.length heq
      simp only [List.length_append] at hlen
      exact hblock (.inl (List.length_eq_zero_iff.mp (by omega)))

/-- The prompt of a run that is created for an ask is the words of the requester and the clauses if
and only if no message is carried into a turn, and so two threads show the approver the same
words. -/
theorem wordsOnly_iff_alone (cfg : Settings) (botUserId : String) (a : Ask) :
    (∀ r p, a.Creates cfg botUserId r p → (a.WordsOnly botUserId r p ↔ a.Alone botUserId r)) ∧
    ∀ r₁ r₂, a.Alone botUserId r₁ → a.Alone botUserId r₂ → a.SameWords cfg botUserId r₁ r₂ :=
  ⟨fun _ _ h => Ask.wordsOnly_iff h, fun _ _ h₁ h₂ _ _ hp₁ hp₂ =>
    ⟨a.words ++ a.clause, (Ask.wordsOnly_iff hp₁).2 h₁, (Ask.wordsOnly_iff hp₂).2 h₂⟩⟩

/-- A thread without replies. -/
def noMessage : Reading := { replies := some [] }

/-- A thread of several people, with its cursor at the first message. -/
def roomThread : Thread :=
  { sessionId := "s", ownerUserId := "u", multiplayer := true, lastSeenTS := "1" }

/-- A status line, an answer of the session itself and a message without words. -/
def nothingNew : Reading where
  replies := some [{ timestamp := "2", botId := "b", text := utf8 "busy", eventType := .chrome },
    { timestamp := "2", botId := "b", text := utf8 "done", eventType := .content,
      sessionId := "s" },
    { timestamp := "2", user := "o", text := utf8 " " }]

theorem wordsOnly_nothingNew :
    (Ask.turn roomThread "3" (utf8 "go")).WordsOnly "" nothingNew ("go" ++ continuationClause) ∧
    (Ask.turn roomThread "3" (utf8 "go")).SameWords idleLimit "" nothingNew noMessage ∧
    (Ask.join "3" (utf8 "go")).SameWords idleLimit "" oneMessage noMessage := by
  have hnew : (Ask.turn roomThread "3" (utf8 "go")).Alone "" nothingNew := by
    refine .inr (.inr (.inr fun replies hread => ?_))
    obtain rfl := Option.some.inj hread
    decide
  have hno : (Ask.turn roomThread "3" (utf8 "go")).Alone "" noMessage := by
    refine .inr (.inr (.inr fun replies hread => ?_))
    obtain rfl := Option.some.inj hread
    decide
  have htext : (Ask.turn roomThread "3" (utf8 "go")).text "" nothingNew = utf8 "go" := by decide
  obtain ⟨t, s, h, hrun⟩ := prompt_creates "go"
  exact ⟨((wordsOnly_iff_alone idleLimit "" _).1 _ _ ⟨_, t, s, .turn htext.symm, h, hrun⟩).2 hnew,
    (wordsOnly_iff_alone idleLimit "" _).2 _ _ hnew hno,
    (wordsOnly_iff_alone idleLimit "" _).2 _ _ trivial trivial⟩

/-- What one person wrote in a thread. -/
def Reading.writtenBy (user : String) (r : Reading) : Reading where
  replies := r.replies.map fun msgs => msgs.filter fun msg => msg.user = user
  fallback := r.fallback.map fun msgs => msgs.filter fun msg => msg.user = user

/-- What a turn in `roomThread` quotes of the message of another person. -/
def quotedMessage : String :=
  "\n\n<conversation>\n[earlier message from another person] hi\n</conversation>\n\nThe request: go"

theorem text_roomThread : (Ask.turn roomThread "3" (utf8 "go")).text "" oneMessage =
    utf8 (catchupFraming ++ quotedMessage) := by
  let carried := capEntries (transcriptMessages
    [{ timestamp := "2", user := "o", text := utf8 "hi" }] (catchupCarry "1" "3" "" "s" "u"))
  have hentries : carried = ([{ role := .peer, text := utf8 "hi" }], false) := by decide
  have hblock : catchup "" roomThread "3" oneMessage =
      (composeCatchupBlock carried.1 carried.2, true) := rfl
  have hquoted : utf8 "\n\n" ++ quoteConversation [{ role := .peer, text := utf8 "hi" }] false ++
      (utf8 "\n\nThe request: " ++ utf8 "go") = utf8 quotedMessage := by decide
  show withCatchup (catchup "" roomThread "3" oneMessage).1 (utf8 "go") = _
  rw [hblock, hentries, utf8_append, ← hquoted]
  unfold composeCatchupBlock withCatchup
  rw [if_neg (List.cons_ne_nil _ _), if_neg]
  · simp only [List.append_assoc]
  · rintro (h | h)
    · have hquote := (List.append_eq_nil_iff.mp h).2
      exact absurd hquote (by decide)
    · exact absurd h (by decide)

/-- A turn that continues a paused session shows the approver what another person wrote. -/
theorem sameWords_fails : oneMessage.writtenBy "u" = noMessage.writtenBy "u" ∧
    ¬ (Ask.turn roomThread "3" (utf8 "go")).SameWords idleLimit "" oneMessage noMessage := by
  refine ⟨rfl, fun h => ?_⟩
  obtain ⟨t₁, s₁, h₁, hrun₁⟩ := prompt_creates (catchupFraming ++ quotedMessage)
  obtain ⟨t₂, s₂, h₂, hrun₂⟩ := prompt_creates "go"
  obtain ⟨words, hp₁, hp₂⟩ := h _ _ ⟨_, t₁, s₁, .turn text_roomThread.symm, h₁, hrun₁⟩
    ⟨_, t₂, s₂, .turn rfl, h₂, hrun₂⟩
  have hsame : utf8 (catchupFraming ++ quotedMessage ++ continuationClause) =
      utf8 ("go" ++ continuationClause) := hp₁.trans hp₂.symm
  rw [utf8_append, utf8_append, utf8_append] at hsame
  -- The quotation has a bracket that the words of the requester have not.
  have hquoted : 0x3C ∈ utf8 quotedMessage := by decide
  have hmem := List.mem_append_left (utf8 continuationClause)
    (List.mem_append_right (utf8 catchupFraming) hquoted)
  rw [hsame] at hmem
  exact absurd hmem (by decide)

end AgentOps.Slackbot
