import AgentOps.Runner.Aggregator
import Mathlib.Data.List.Nodup

/-!
# What an aggregator emits

A flush loop cuts its text into pieces that are not empty, valid and bounded, and that join to
the text; for valid texts the loop ends. From this follows what a call emits, and from that
what goes out between `Begin` and `End`.

The ids of the parts count up in a turn and carry the name of the turn. Outside a turn all
parts share one name and the count is not set back in the same places, so two of them can have
one id.
-/

namespace AgentOps.Runner

open AgentOps.Lib

variable {text m t : Bytes} {ps : List Bytes} {e : Emission} {es es' : List Emission} {u : Update}
  {id : String} {us : List Update}

/-! ## Pieces -/

/-- A text that may go out as one part. -/
structure SoundPart (p : Bytes) : Prop where
  nonempty : p ≠ []
  valid : ValidUtf8 p
  small : p.length ≤ partMax

theorem cutPart_append (s : Bytes) : (cutPart s).1 ++ (cutPart s).2 = s := by
  unfold cutPart
  split
  · exact List.append_nil s
  · rw [List.splitAt_eq]
    exact List.take_append_drop _ s

theorem cutPart_sound {s : Bytes} (hs : ValidUtf8 s) (hne : s ≠ []) :
    SoundPart (cutPart s).1 ∧ ValidUtf8 (cutPart s).2 := by
  unfold cutPart
  split
  · rename_i hle
    exact ⟨⟨hne, hs, hle⟩, validUtf8_nil⟩
  · rename_i hgt
    rw [List.splitAt_eq]
    have hfour : 4 ≤ partMax := by decide
    obtain ⟨hpos, hfront, hback⟩ := hs.backUp hfour (by omega)
    have hle := backUp_le s partMax
    have hlen : (s.take (backUp s partMax)).length = backUp s partMax := by
      rw [List.length_take]
      omega
    refine ⟨⟨?_, hfront, ?_⟩, hback⟩
    · rw [← List.length_pos_iff, hlen]
      exact hpos
    · show (s.take (backUp s partMax)).length ≤ partMax
      omega

/-- What a loop cuts off until at most `stop` bytes are left, and what is left. -/
def pieces (stop : ℕ) : ℕ → Bytes → List Bytes × Bytes
  | 0, text => ([], text)
  | n + 1, text =>
    if text.length ≤ stop then ([], text)
    else ((cutPart text).1 :: (pieces stop n (cutPart text).2).1,
      (pieces stop n (cutPart text).2).2)

theorem pieces_of_le {stop : ℕ} (h : text.length ≤ stop) (n : ℕ) :
    pieces stop n text = ([], text) := by
  cases n with
  | zero => rfl
  | succ n => exact if_pos h

theorem pieces_nil (stop n : ℕ) : pieces stop n [] = ([], []) :=
  pieces_of_le (Nat.zero_le stop) n

theorem pieces_join (stop n : ℕ) (text : Bytes) :
    (pieces stop n text).1.flatten ++ (pieces stop n text).2 = text := by
  induction n generalizing text with
  | zero => rfl
  | succ n ih =>
    rw [pieces]
    split
    · rfl
    · rw [List.flatten_cons, List.append_assoc, ih, cutPart_append]

theorem pieces_sound (stop n : ℕ) (h : ValidUtf8 text) :
    (∀ p ∈ (pieces stop n text).1, SoundPart p) ∧ ValidUtf8 (pieces stop n text).2 ∧
      (text.length ≤ n → (pieces stop n text).2.length ≤ stop) := by
  induction n generalizing text with
  | zero =>
    refine ⟨nofun, h, fun hle => ?_⟩
    show text.length ≤ stop
    omega
  | succ n ih =>
    rw [pieces]
    split
    · rename_i hle
      exact ⟨nofun, h, fun _ => hle⟩
    · rename_i hgt
      have hne : text ≠ [] := by
        rw [← List.length_pos_iff]
        omega
      obtain ⟨hsound, hrest⟩ := cutPart_sound h hne
      obtain ⟨hparts, hvalid, hend⟩ := ih hrest
      refine ⟨List.forall_mem_cons.mpr ⟨hsound, hparts⟩, hvalid, fun hle => hend ?_⟩
      -- a part is not empty, so the rest is shorter than the text
      have hlen := congrArg List.length (cutPart_append text)
      have hpos := List.length_pos_iff.mpr hsound.nonempty
      rw [List.length_append] at hlen
      omega

/-! ## Texts of emissions and updates -/

namespace Emission

/-- The text of the reply in an emission. -/
def messageText : Emission → Bytes
  | .message _ text _ => text
  | _ => []

/-- The text of the reasoning in an emission. -/
def thoughtText : Emission → Bytes
  | .thought text => text
  | _ => []

def isMessage : Emission → Bool
  | .message .. => true
  | _ => false

def isFinal : Emission → Bool
  | .message _ _ final => final
  | _ => false

def isToolCall : Emission → Bool
  | .toolCall _ => true
  | _ => false

/-- Each part and each thought of an emission may go out. -/
def Sound : Emission → Prop
  | .message _ text _ | .thought text => SoundPart text
  | _ => True

end Emission

namespace Update

def messageText : Update → Bytes
  | .messageChunk content => contentText content
  | _ => []

def thoughtText : Update → Bytes
  | .thoughtChunk content => contentText content
  | _ => []

/-- The id of a tool call that is made or updated. -/
def toolCallId : Update → Option String
  | .toolCall id .. | .toolCallUpdate id .. => some id
  | _ => none

end Update

namespace Aggregator

/-- The emissions of some pieces; the last of them is told so when the text is `done`. -/
def emitAll (emit : Aggregator → Bytes → Bool → Aggregator) (done : Bool) :
    Aggregator → List Bytes → Aggregator
  | a, [] => a
  | a, p :: ps => emitAll emit done (emit a p (done && ps.isEmpty)) ps

theorem flushLoop_eq (emit : Aggregator → Bytes → Bool → Aggregator) (n : ℕ) (a : Aggregator)
    (text : Bytes) :
    flushLoop emit n a text =
      if (pieces 0 n text).2 = [] then .ok (emitAll emit true a (pieces 0 n text).1)
      else .error (emitAll emit false a (pieces 0 n text).1) := by
  induction n generalizing a text with
  | zero =>
    cases text with
    | nil => rfl
    | cons b text => rfl
  | succ n ih =>
    cases text with
    | nil => rfl
    | cons b text =>
      have hcut : pieces 0 (n + 1) (b :: text) = ((cutPart (b :: text)).1 ::
          (pieces 0 n (cutPart (b :: text)).2).1, (pieces 0 n (cutPart (b :: text)).2).2) := by
        rw [pieces, if_neg (by simp)]
      show flushLoop emit n (emit a (cutPart (b :: text)).1 (cutPart (b :: text)).2.isEmpty)
        (cutPart (b :: text)).2 = _
      rw [ih, hcut]
      have hjoin := pieces_join 0 n (cutPart (b :: text)).2
      simp only [emitAll, Bool.true_and, Bool.false_and]
      split
      · -- nothing is left, so the text is used up when there is no other piece
        rename_i hend
        rw [hend, List.append_nil] at hjoin
        have hlast : (cutPart (b :: text)).2.isEmpty =
            (pieces 0 n (cutPart (b :: text)).2).1.isEmpty := by
          rw [Bool.eq_iff_iff, List.isEmpty_iff, List.isEmpty_iff]
          constructor
          · intro hnil
            rw [hnil, pieces_nil]
          · intro hnil
            rw [← hjoin, hnil]
            rfl
        rw [hlast]
      · rename_i hrest
        have hlast : (cutPart (b :: text)).2.isEmpty = false := by
          rw [List.isEmpty_eq_false_iff]
          intro hnil
          rw [hnil, pieces_nil] at hrest
          exact hrest rfl
        rw [hlast]

theorem splitLoop_eq (emit : Aggregator → Bytes → Aggregator) (n : ℕ) (a : Aggregator)
    (text : Bytes) :
    splitLoop emit n a text =
      if (pieces partMax n text).2.length ≤ partMax then
        .ok (emitAll (fun a p _ => emit a p) false a (pieces partMax n text).1,
          (pieces partMax n text).2)
      else .error (emitAll (fun a p _ => emit a p) false a (pieces partMax n text).1) := by
  induction n generalizing a text with
  | zero => rfl
  | succ n ih =>
    rw [splitLoop, pieces]
    split
    · rfl
    · rw [ih]
      rfl

/-- The emissions of some parts, the first of them with the number after `k`. -/
def parts (turnId : String) (final : Bool) : ℕ → List Bytes → List Emission
  | _, [] => []
  | k, p :: ps =>
    .message (partId turnId (k + 1)) p (final && ps.isEmpty) :: parts turnId final (k + 1) ps

/-- The aggregator once some emissions are out, `k` of them parts of the reply. -/
def sent (a : Aggregator) (k : ℕ) (es : List Emission) : Aggregator :=
  { a with part := a.part + k, emitted := a.emitted ++ es.map (Prod.mk a.turnId) }

theorem emitAll_thought (done : Bool) (a : Aggregator) (ps : List Bytes) :
    emitAll (fun a part _ => a.emit (.thought part)) done a ps = a.sent 0 (ps.map .thought) := by
  induction ps generalizing a with
  | nil => simp [emitAll, sent]
  | cons p ps ih =>
    rw [emitAll, ih]
    simp [sent, emit]

theorem emitAll_message (final done : Bool) (a : Aggregator) (ps : List Bytes) :
    emitAll (fun a part last => a.emitPart part (final && last)) done a ps =
      a.sent ps.length (parts a.turnId (final && done) a.part ps) := by
  induction ps generalizing a with
  | nil => simp [emitAll, sent, parts]
  | cons p ps ih =>
    rw [emitAll, ih]
    simp [sent, emit, emitPart, parts, Bool.and_assoc, Nat.add_assoc, Nat.add_comm 1]

@[simp] theorem sent_zero_nil (a : Aggregator) : a.sent 0 [] = a := by
  simp [sent]

/-! ## What the flushes emit, whatever the text -/

theorem flushThought_eq (rounds : ℕ) (a : Aggregator) :
    a.flushThought rounds =
      let cut := pieces 0 rounds a.thought
      let b := { a with thought := [] }.sent 0 (cut.1.map .thought)
      if cut.2 = [] then .ok b else .error b := by
  rw [flushThought, flushLoop_eq, emitAll_thought, emitAll_thought]

theorem flushMessage_eq (rounds : ℕ) (final : Bool) (a : Aggregator) :
    a.flushMessage rounds final =
      let cut := pieces 0 rounds a.buf
      let b := fun final => { a with buf := [] }.sent cut.1.length
        (parts a.turnId final a.part cut.1)
      if cut.2 = [] then .ok (b final) else .error (b false) := by
  rw [flushMessage, flushLoop_eq, emitAll_message, emitAll_message, Bool.and_true, Bool.and_false]

theorem splitFullMessage_eq (rounds : ℕ) (a : Aggregator) :
    a.splitFullMessage rounds =
      let cut := pieces partMax rounds a.buf
      let b := fun buf => { a with buf }.sent cut.1.length (parts a.turnId false a.part cut.1)
      if cut.2.length ≤ partMax then .ok (b cut.2) else .error (b []) := by
  rw [splitFullMessage]
  split
  · rename_i hle
    simp only [pieces_of_le hle, if_pos hle]
    exact congrArg Except.ok (sent_zero_nil a).symm
  · rw [splitLoop_eq]
    have hall := emitAll_message false false { a with buf := [] } (pieces partMax rounds a.buf).1
    simp only [Bool.false_and] at hall
    simp only [hall]
    split
    · simp [sent]
    · rfl

theorem splitFullThought_eq (rounds : ℕ) (a : Aggregator) :
    a.splitFullThought rounds =
      let cut := pieces partMax rounds a.thought
      let b := fun thought => { a with thought }.sent 0 (cut.1.map .thought)
      if cut.2.length ≤ partMax then .ok (b cut.2) else .error (b []) := by
  rw [splitFullThought]
  split
  · rename_i hle
    simp only [pieces_of_le hle, if_pos hle]
    exact congrArg Except.ok (sent_zero_nil a).symm
  · rw [splitLoop_eq]
    simp only [emitAll_thought]
    split
    · simp [sent]
    · rfl

/-! ## A turn loses nothing -/

theorem messageText_parts (turnId : String) (final : Bool) (k : ℕ) (ps : List Bytes) :
    (parts turnId final k ps).flatMap Emission.messageText = ps.flatten := by
  induction ps generalizing k with
  | nil => rfl
  | cons p ps ih =>
    rw [parts, List.flatMap_cons, ih]
    rfl

theorem mem_parts {turnId : String} {final : Bool} {k : ℕ} (he : e ∈ parts turnId final k ps) :
    ∃ id p last, e = .message id p (final && last) ∧ p ∈ ps := by
  induction ps generalizing k with
  | nil => cases he
  | cons p ps ih =>
    obtain rfl | he := List.mem_cons.mp he
    · exact ⟨_, p, ps.isEmpty, rfl, List.mem_cons_self⟩
    · obtain ⟨id, q, last, rfl, hq⟩ := ih he
      exact ⟨id, q, last, rfl, List.mem_cons_of_mem _ hq⟩

/-- Only the last part can be final. -/
theorem parts_dropLast (turnId : String) (final : Bool) (k : ℕ) (ps : List Bytes) :
    ∀ e ∈ (parts turnId final k ps).dropLast, e.isFinal = false := by
  induction ps generalizing k with
  | nil => exact List.forall_mem_nil _
  | cons p ps ih =>
    cases ps with
    | nil => exact List.forall_mem_nil _
    | cons q ps =>
      rw [parts, parts, List.dropLast_cons_cons]
      intro e he
      obtain rfl | he := List.mem_cons.mp he
      · exact Bool.and_false final
      · exact ih (k + 1) e he

/-- Some emissions with the texts of the reply and of the reasoning that they bring out. -/
structure Brings (es : List Emission) (message thought : Bytes) : Prop where
  message : es.flatMap Emission.messageText = message
  thought : es.flatMap Emission.thoughtText = thought
  sound : ∀ e ∈ es, e.Sound

theorem Brings.append {m' t' : Bytes} (h : Brings es m t) (h' : Brings es' m' t') :
    Brings (es ++ es') (m ++ m') (t ++ t') := by
  constructor
  · rw [List.flatMap_append, h.message, h'.message]
  · rw [List.flatMap_append, h.thought, h'.thought]
  · intro e he
    obtain he | he := List.mem_append.mp he
    · exact h.sound e he
    · exact h'.sound e he

theorem brings_thoughts (h : ∀ p ∈ ps, SoundPart p) : Brings (ps.map .thought) [] ps.flatten := by
  constructor
  · rw [List.flatMap_map]
    exact List.flatMap_eq_nil_iff.mpr fun _ _ => rfl
  · rw [List.flatMap_map]
    exact List.flatMap_id
  · intro e he
    obtain ⟨p, hp, rfl⟩ := List.mem_map.mp he
    exact h p hp

theorem brings_parts (turnId : String) (final : Bool) (k : ℕ) (h : ∀ p ∈ ps, SoundPart p) :
    Brings (parts turnId final k ps) ps.flatten [] := by
  constructor
  · exact messageText_parts turnId final k ps
  · rw [List.flatMap_eq_nil_iff]
    intro e he
    obtain ⟨id, p, last, rfl, -⟩ := mem_parts he
    rfl
  · intro e he
    obtain ⟨id, p, last, rfl, hp⟩ := mem_parts he
    exact h p hp

theorem countP_toolCall (h : ∀ e ∈ es, e.isToolCall = false) :
    es.countP Emission.isToolCall = 0 := by
  rw [List.countP_eq_zero]
  intro e he
  rw [h e he]
  exact Bool.false_ne_true

/-- Both buffers hold a valid text that fits in one part. -/
structure Buffered (a : Aggregator) : Prop where
  buf : ValidUtf8 a.buf
  thought : ValidUtf8 a.thought
  bufSmall : a.buf.length ≤ partMax
  thoughtSmall : a.thought.length ≤ partMax

theorem buffered_of_empty {a : Aggregator} (hbuf : a.buf = []) (hthought : a.thought = []) :
    Buffered a := by
  constructor
  · rw [hbuf]
    exact validUtf8_nil
  · rw [hthought]
    exact validUtf8_nil
  · rw [hbuf]
    exact Nat.zero_le _
  · rw [hthought]
    exact Nat.zero_le _

/-- From `a` to `b` the aggregator emits `es` and takes in `message` and `thought`. -/
structure Carries (a b : Aggregator) (es : List Emission) (message thought : Bytes) : Prop where
  turn : b.turnId = a.turnId
  emitted : b.emitted = a.emitted ++ es.map (Prod.mk a.turnId)
  brings : ∃ m t, Brings es m t ∧ m ++ b.buf = a.buf ++ message ∧
    t ++ b.thought = a.thought ++ thought
  open_ : ∀ e ∈ es, e.isFinal = false

theorem Carries.refl (a : Aggregator) : Carries a a [] [] [] :=
  ⟨rfl, (List.append_nil a.emitted).symm,
    ⟨[], [], ⟨rfl, rfl, List.forall_mem_nil _⟩, (List.append_nil a.buf).symm,
      (List.append_nil a.thought).symm⟩, List.forall_mem_nil _⟩

theorem Carries.trans {a b c : Aggregator} {m' t' : Bytes} (h : Carries a b es m t)
    (h' : Carries b c es' m' t') : Carries a c (es ++ es') (m ++ m') (t ++ t') := by
  obtain ⟨x, y, hb, hx, hy⟩ := h.brings
  obtain ⟨x', y', hb', hx', hy'⟩ := h'.brings
  constructor
  · rw [h'.turn, h.turn]
  · rw [h'.emitted, h.emitted, h.turn, List.map_append, List.append_assoc]
  · refine ⟨x ++ x', y ++ y', hb.append hb', ?_, ?_⟩
    · rw [List.append_assoc, hx', ← List.append_assoc, hx, List.append_assoc]
    · rw [List.append_assoc, hy', ← List.append_assoc, hy, List.append_assoc]
  · intro e he
    obtain he | he := List.mem_append.mp he
    · exact h.open_ e he
    · exact h'.open_ e he

/-- The emissions between two states are those by which their records differ. -/
theorem Carries.unique {a b : Aggregator} {m' t' : Bytes} (h : Carries a b es m t)
    (h' : Carries a b es' m' t') : es = es' := by
  have heq := h.emitted.symm.trans h'.emitted
  rw [List.append_cancel_left_eq] at heq
  exact List.map_injective_iff.mpr (fun _ _ h => (Prod.mk.inj h).2) heq

theorem kind_of_thought (he : e ∈ ps.map Emission.thought) :
    e.isFinal = false ∧ e.isToolCall = false ∧ e.isMessage = false := by
  obtain ⟨p, -, rfl⟩ := List.mem_map.mp he
  exact ⟨rfl, rfl, rfl⟩

theorem parts_open (turnId : String) (k : ℕ) (ps : List Bytes) :
    ∀ e ∈ parts turnId false k ps, e.isFinal = false := by
  intro e he
  obtain ⟨id, p, last, rfl, -⟩ := mem_parts he
  exact Bool.false_and last

/-- An event without a text. -/
theorem carries_emit (a : Aggregator) (he : e.messageText = [] ∧ e.thoughtText = [])
    (hsound : e.Sound) (hfinal : e.isFinal = false) : Carries a (a.emit e) [e] [] [] := by
  refine ⟨rfl, rfl, ⟨[], [], ⟨?_, ?_, ?_⟩, ?_, ?_⟩, ?_⟩
  · rw [List.flatMap_singleton]
    exact he.1
  · rw [List.flatMap_singleton]
    exact he.2
  · intro x hx
    rw [List.mem_singleton.mp hx]
    exact hsound
  · exact (List.append_nil a.buf).symm
  · exact (List.append_nil a.thought).symm
  · intro x hx
    rw [List.mem_singleton.mp hx]
    exact hfinal

/-- With both buffers empty everything has been brought out. -/
theorem Carries.all {a b : Aggregator} (h : Carries a b es m t) (hbuf : b.buf = [])
    (hthought : b.thought = []) : Brings es (a.buf ++ m) (a.thought ++ t) := by
  obtain ⟨x, y, hb, hx, hy⟩ := h.brings
  rw [hbuf, List.append_nil] at hx
  rw [hthought, List.append_nil] at hy
  rw [← hx, ← hy]
  exact hb

theorem flushThought_spec {n : ℕ} {a : Aggregator} (ha : Buffered a)
    (hn : partMax ≤ n) :
    ∃ b es, a.flushThought n = .ok b ∧ Carries a b es [] [] ∧ Buffered b ∧ b.buf = a.buf ∧
      b.thought = [] ∧ ∀ e ∈ es, e.isToolCall = false ∧ e.isMessage = false := by
  obtain ⟨hsound, -, hend⟩ := pieces_sound 0 n ha.thought
  have hnil := List.length_eq_zero_iff.mp (Nat.le_zero.mp (hend (ha.thoughtSmall.trans hn)))
  have hjoin := pieces_join 0 n a.thought
  rw [hnil] at hjoin
  generalize hps : (pieces 0 n a.thought).1 = ps at hjoin hsound
  refine ⟨{ a with thought := [] }.sent 0 (ps.map .thought), ps.map .thought, ?_, ?_, ?_, rfl, rfl,
    fun e he => (kind_of_thought he).2⟩
  · rw [flushThought_eq, ← hps]
    exact if_pos hnil
  · refine ⟨rfl, rfl, ⟨_, _, brings_thoughts hsound, ?_, ?_⟩, fun e he => (kind_of_thought he).1⟩
    · exact (List.append_nil a.buf).symm
    · rw [List.append_nil]
      exact hjoin
  · exact ⟨ha.buf, validUtf8_nil, ha.bufSmall, Nat.zero_le _⟩

/-- A flush of the reply, with the part that is final if one is. -/
theorem flushMessage_spec {n : ℕ} {a : Aggregator} (final : Bool) (ha : Buffered a)
    (hn : partMax ≤ n) :
    ∃ b ps, a.flushMessage n final = .ok b ∧ b.turnId = a.turnId ∧ b.buf = [] ∧
      b.thought = a.thought ∧
      b.emitted = a.emitted ++ (parts a.turnId final a.part ps).map (Prod.mk a.turnId) ∧
      Brings (parts a.turnId final a.part ps) a.buf [] := by
  obtain ⟨hsound, -, hend⟩ := pieces_sound 0 n ha.buf
  have hnil := List.length_eq_zero_iff.mp (Nat.le_zero.mp (hend (ha.bufSmall.trans hn)))
  have hjoin := pieces_join 0 n a.buf
  rw [hnil, List.append_nil] at hjoin
  generalize hps : (pieces 0 n a.buf).1 = ps at hjoin hsound
  have hbrings := brings_parts a.turnId final a.part hsound
  rw [hjoin] at hbrings
  refine ⟨{ a with buf := [] }.sent ps.length (parts a.turnId final a.part ps), ps, ?_, rfl, rfl,
    rfl, rfl, hbrings⟩
  rw [flushMessage_eq, ← hps]
  exact if_pos hnil

/-- Before a tool call goes out both buffers are flushed. -/
theorem toolCall_spec {n : ℕ} {a : Aggregator} (c : ToolCall) (ha : Buffered a)
    (hn : partMax ≤ n) :
    ∃ b front c', a.toolCall n c = .ok b ∧ Carries a b (front ++ [Emission.toolCall c']) [] [] ∧
      Brings front a.buf a.thought ∧ (∀ e ∈ front, e.isToolCall = false) ∧ c'.id = c.id ∧
      b.buf = [] ∧ b.thought = [] := by
  obtain ⟨b, es, hthought, hcarry, hb, hbuf, hnothought, hkind⟩ := flushThought_spec ha hn
  have hb' : Buffered { b with titles := (b.named c).1 } :=
    ⟨hb.buf, hb.thought, hb.bufSmall, hb.thoughtSmall⟩
  obtain ⟨d, ps, hmessage, hturn, hempty, hsame, hemitted, hbrings⟩ :=
    flushMessage_spec false hb' hn
  have hcarry' : Carries b d (parts b.turnId false b.part ps) [] [] := by
    refine ⟨hturn, hemitted, ⟨_, _, hbrings, ?_, ?_⟩, parts_open _ _ _⟩
    · rw [hempty]
    · rw [hsame, List.append_nil]
      rfl
  have hfront := (hcarry.trans hcarry').all hempty (hsame.trans hnothought)
  simp only [List.append_nil] at hfront
  refine ⟨d.emit (.toolCall (b.named c).2), _, (b.named c).2, ?_, ?_, hfront, ?_, rfl, hempty,
    hsame.trans hnothought⟩
  · rw [toolCall, hthought]
    show (do
      let a ← { b with titles := (b.named c).1 }.flushMessage n false
      return a.emit (.toolCall (b.named c).2)) = _
    rw [hmessage]
    rfl
  · exact (hcarry.trans hcarry').trans (carries_emit d ⟨rfl, rfl⟩ trivial rfl)
  · intro e he
    obtain he | he := List.mem_append.mp he
    · exact (hkind e he).1
    · obtain ⟨id, p, last, rfl, -⟩ := mem_parts he
      rfl

/-- An update that calls a tool is a call of `toolCallLocked`. -/
theorem update_toolCall (h : u.toolCallId = some id) :
    u.messageText = [] ∧ u.thoughtText = [] ∧
      ∃ c : ToolCall, c.id = id ∧ ∀ n a, update n a u = a.toolCall n c := by
  cases u with
  | toolCall | toolCallUpdate =>
    obtain rfl := Option.some.inj h
    exact ⟨rfl, rfl, _, rfl, fun _ _ => rfl⟩
  | messageChunk | thoughtChunk | usageUpdate | other => cases h

/-- `splitFullLocked` after a chunk of the reply. -/
theorem splitFullMessage_spec {n : ℕ} {a : Aggregator} (ha : Buffered a) (hvalid : ValidUtf8 text)
    (hn : partMax + text.length ≤ n) :
    ∃ b es, { a with buf := a.buf ++ text }.splitFullMessage n = .ok b ∧
      Carries a b es text [] ∧ Buffered b ∧ ∀ e ∈ es, e.isToolCall = false := by
  have hlen : (a.buf ++ text).length ≤ n := by
    rw [List.length_append]
    have := ha.bufSmall
    omega
  obtain ⟨hsound, hrest, hend⟩ := pieces_sound partMax n
    (ha.buf.append hvalid)
  have hjoin := pieces_join partMax n (a.buf ++ text)
  have heq := splitFullMessage_eq n { a with buf := a.buf ++ text }
  generalize pieces partMax n (a.buf ++ text) = cut at hsound hrest hend hjoin heq
  refine ⟨{ a with buf := cut.2 }.sent cut.1.length (parts a.turnId false a.part cut.1),
    parts a.turnId false a.part cut.1, ?_, ?_, ?_, ?_⟩
  · rw [heq]
    exact if_pos (hend hlen)
  · refine ⟨rfl, rfl, ⟨_, _, brings_parts _ _ _ hsound, hjoin, ?_⟩, parts_open _ _ _⟩
    exact (List.append_nil a.thought).symm
  · exact ⟨hrest, ha.thought, hend hlen, ha.thoughtSmall⟩
  · intro e he
    obtain ⟨id, p, last, rfl, -⟩ := mem_parts he
    rfl

/-- `splitFullLocked` after a chunk of the reasoning. -/
theorem splitFullThought_spec {n : ℕ} {a : Aggregator} (ha : Buffered a) (hvalid : ValidUtf8 text)
    (hn : partMax + text.length ≤ n) :
    ∃ b es, { a with thought := a.thought ++ text }.splitFullThought n = .ok b ∧
      Carries a b es [] text ∧ Buffered b ∧ ∀ e ∈ es, e.isToolCall = false := by
  have hlen : (a.thought ++ text).length ≤ n := by
    rw [List.length_append]
    have := ha.thoughtSmall
    omega
  obtain ⟨hsound, hrest, hend⟩ := pieces_sound partMax n
    (ha.thought.append hvalid)
  have hjoin := pieces_join partMax n (a.thought ++ text)
  have heq := splitFullThought_eq n { a with thought := a.thought ++ text }
  generalize pieces partMax n (a.thought ++ text) = cut at hsound hrest hend hjoin heq
  refine ⟨{ a with thought := cut.2 }.sent 0 (cut.1.map .thought), cut.1.map .thought,
    ?_, ?_, ?_, fun e he => (kind_of_thought he).2.1⟩
  · rw [heq]
    exact if_pos (hend hlen)
  · refine ⟨rfl, rfl, ⟨_, _, brings_thoughts hsound, ?_, hjoin⟩,
      fun e he => (kind_of_thought he).1⟩
    exact (List.append_nil a.buf).symm
  · exact ⟨ha.buf, hrest, ha.bufSmall, hend hlen⟩

/-- Rounds that are enough for the loops of an update. -/
def rounds (u : Update) : ℕ := partMax + u.messageText.length + u.thoughtText.length

/-- One update: what it takes in stays in a buffer or goes out, and it emits one tool call or
none. -/
theorem update_spec {n : ℕ} {a : Aggregator} (ha : Buffered a) (hm : ValidUtf8 u.messageText)
    (ht : ValidUtf8 u.thoughtText) (hrounds : rounds u ≤ n) :
    ∃ b es, a.update n u = .ok b ∧ Carries a b es u.messageText u.thoughtText ∧ Buffered b ∧
      es.countP Emission.isToolCall = u.toolCallId.toList.length := by
  unfold rounds at hrounds
  cases hid : u.toolCallId with
  | some id =>
    obtain ⟨hnom, hnot, c, -, hcall⟩ := update_toolCall hid
    obtain ⟨b, front, c', hok, hcarry, -, hkind, -, hbuf, hthought⟩ :=
      toolCall_spec c ha (n := n) (by omega)
    refine ⟨b, front ++ [Emission.toolCall c'], by rw [hcall, hok], ?_, ?_, ?_⟩
    · rw [hnom, hnot]
      exact hcarry
    · exact buffered_of_empty hbuf hthought
    · rw [List.countP_append, countP_toolCall hkind]
      rfl
  | none =>
    cases u with
    | toolCall | toolCallUpdate => cases hid
    | messageChunk content =>
      rw [update]
      split
      · rename_i hnil
        refine ⟨a, [], rfl, ?_, ha, rfl⟩
        show Carries a a [] (contentText content) []
        rw [hnil]
        exact .refl a
      · obtain ⟨b, es, hthought, hcarry, hb, -, -, hkind⟩ :=
          flushThought_spec ha (n := n) (by omega)
        obtain ⟨d, es', hsplit, hcarry', hd, hkind'⟩ :=
          splitFullMessage_spec hb hm (n := n) (by omega)
        refine ⟨d, es ++ es', by rw [hthought]; exact hsplit, hcarry.trans hcarry', hd, ?_⟩
        rw [List.countP_append, countP_toolCall fun e he => (hkind e he).1, countP_toolCall hkind']
        rfl
    | thoughtChunk content =>
      obtain ⟨b, es, hsplit, hcarry, hb, hkind⟩ :=
        splitFullThought_spec ha ht (n := n) (by omega)
      refine ⟨b, es, hsplit, hcarry, hb, ?_⟩
      rw [countP_toolCall hkind]
      rfl
    | usageUpdate size used cost =>
      exact ⟨_, _, rfl, carries_emit a ⟨rfl, rfl⟩ trivial rfl,
        ⟨ha.buf, ha.thought, ha.bufSmall, ha.thoughtSmall⟩, rfl⟩
    | other => exact ⟨a, [], rfl, .refl a, ha, rfl⟩

theorem calls_cons {n : ℕ} {a b : Aggregator} {c : Call} (cs : List Call)
    (h : a.call n c = .ok b) : a.calls n (c :: cs) = b.calls n cs := by
  unfold calls
  rw [List.foldlM_cons, h]
  rfl

theorem calls_append {n : ℕ} {a b : Aggregator} {cs : List Call} (cs' : List Call)
    (h : a.calls n cs = .ok b) : a.calls n (cs ++ cs') = b.calls n cs' := by
  unfold calls at h ⊢
  rw [List.foldlM_append, h]
  rfl

/-- The updates of a turn have valid texts and rounds enough. -/
structure Received (n : ℕ) (us : List Update) : Prop where
  message : ∀ u ∈ us, ValidUtf8 u.messageText
  thought : ∀ u ∈ us, ValidUtf8 u.thoughtText
  rounds : ∀ u ∈ us, rounds u ≤ n

theorem updates_spec {n : ℕ} {a : Aggregator} (ha : Buffered a) (hus : Received n us) :
    ∃ b es, a.calls n (us.map .update) = .ok b ∧
      Carries a b es (us.flatMap Update.messageText) (us.flatMap Update.thoughtText) ∧
      Buffered b ∧
      es.countP Emission.isToolCall = us.countP fun u => u.toolCallId.isSome := by
  induction us generalizing a with
  | nil => exact ⟨a, [], rfl, .refl a, ha, rfl⟩
  | cons u us ih =>
    have hmem : u ∈ u :: us := List.mem_cons_self
    obtain ⟨b, es, hok, hcarry, hb, hcount⟩ :=
      update_spec ha (hus.message u hmem) (hus.thought u hmem) (hus.rounds u hmem)
    obtain ⟨d, es', hok', hcarry', hd, hcount'⟩ := ih hb
      ⟨fun v hv => hus.message v (List.mem_cons_of_mem _ hv),
        fun v hv => hus.thought v (List.mem_cons_of_mem _ hv),
        fun v hv => hus.rounds v (List.mem_cons_of_mem _ hv)⟩
    refine ⟨d, es ++ es', ?_, hcarry.trans hcarry', hd, ?_⟩
    · rw [List.map_cons, calls_cons (c := .update u) _ hok, hok']
    · rw [List.countP_append, List.countP_cons, hcount, hcount']
      cases u.toolCallId with
      | none => simp
      | some id => simp [Nat.add_comm]

/-- `End` brings out what the buffers hold; only its last part is final. -/
theorem end_spec {n : ℕ} {a : Aggregator} (ha : Buffered a) (hn : partMax ≤ n) :
    ∃ b es, a.end_ n = .ok b ∧ b.emitted = a.emitted ++ es.map (Prod.mk a.turnId) ∧
      Brings es a.buf a.thought ∧ (∀ e ∈ es, e.isToolCall = false) ∧
      ∀ e ∈ (es.filter Emission.isMessage).dropLast, e.isFinal = false := by
  obtain ⟨b, es, hthought, hcarry, hb, hbuf, hnothought, hkind⟩ := flushThought_spec ha hn
  obtain ⟨d, ps, hmessage, hturn, hempty, hsame, hemitted, hbrings⟩ :=
    flushMessage_spec true hb hn
  obtain ⟨x, y, hes, hx, hy⟩ := hcarry.brings
  refine ⟨{ d with turnId := "" }, es ++ parts b.turnId true b.part ps, ?_, ?_, ?_, ?_, ?_⟩
  · rw [end_, hthought]
    show (do
      let a ← b.flushMessage n true
      return { a with turnId := "" }) = _
    rw [hmessage]
    rfl
  · show d.emitted = _
    rw [hemitted, hcarry.emitted, hcarry.turn, List.map_append, List.append_assoc]
  · have hall := hes.append hbrings
    rw [hnothought] at hy
    rw [hx, hy, List.append_nil, List.append_nil] at hall
    exact hall
  · intro e he
    obtain he | he := List.mem_append.mp he
    · exact (hkind e he).1
    · obtain ⟨id, p, last, rfl, -⟩ := mem_parts he
      rfl
  · have hparts : (es ++ parts b.turnId true b.part ps).filter Emission.isMessage =
        parts b.turnId true b.part ps := by
      rw [List.filter_append,
        List.filter_eq_nil_iff.mpr (by simpa using fun e he => (hkind e he).2),
        List.nil_append, List.filter_eq_self]
      intro e he
      obtain ⟨id, p, last, rfl, -⟩ := mem_parts he
      rfl
    rw [hparts]
    exact parts_dropLast _ _ _ _

/-- What an aggregator emits of the updates of a turn. -/
structure TurnKept (us : List Update) (es : List Emission) : Prop where
  message : es.flatMap Emission.messageText = us.flatMap Update.messageText
  thought : es.flatMap Emission.thoughtText = us.flatMap Update.thoughtText
  sound : ∀ e ∈ es, e.Sound
  /-- A tool call stands behind the text that came before it and in front of the text that came
  after it. -/
  toolCalls : ∀ pre u post id, us = pre ++ u :: post → u.toolCallId = some id →
    ∃ front c rest, es = front ++ Emission.toolCall c :: rest ∧ c.id = id ∧
      front.countP Emission.isToolCall = pre.countP (fun u => u.toolCallId.isSome) ∧
      front.flatMap Emission.messageText = pre.flatMap Update.messageText ∧
      front.flatMap Emission.thoughtText = pre.flatMap Update.thoughtText ∧
      rest.flatMap Emission.messageText = post.flatMap Update.messageText ∧
      rest.flatMap Emission.thoughtText = post.flatMap Update.thoughtText
  /-- A part that is not the last one of the turn is not final. -/
  final : ∀ e ∈ (es.filter Emission.isMessage).dropLast, e.isFinal = false

theorem Received.part {n : ℕ} (h : Received n us) (us' : List Update) (hsub : ∀ u ∈ us', u ∈ us) :
    Received n us' :=
  ⟨fun u hu => h.message u (hsub u hu), fun u hu => h.thought u (hsub u hu),
    fun u hu => h.rounds u (hsub u hu)⟩

/-- Where a tool call of the updates stands among the emissions, when the buffers are empty
before the first update. -/
theorem toolCall_between {n : ℕ} {a b : Aggregator} (hbuf : a.buf = []) (hthought : a.thought = [])
    (hus : Received n us) (hn : partMax ≤ n) (hok : a.calls n (us.map .update) = .ok b)
    (hes : Carries a b es m t) {pre post : List Update} (hsplit : us = pre ++ u :: post)
    (hid : u.toolCallId = some id) :
    ∃ front c rest, es = front ++ Emission.toolCall c :: rest ∧ c.id = id ∧
      front.countP Emission.isToolCall = pre.countP (fun u => u.toolCallId.isSome) ∧
      Brings front (pre.flatMap Update.messageText) (pre.flatMap Update.thoughtText) ∧
      ∃ x y, Brings rest x y ∧ x ++ b.buf = post.flatMap Update.messageText ∧
        y ++ b.thought = post.flatMap Update.thoughtText := by
  subst hsplit
  obtain ⟨b₁, es₁, hok₁, hcarry₁, hb₁, hcount₁⟩ :=
    updates_spec (buffered_of_empty hbuf hthought)
      (hus.part pre fun v hv => List.mem_append_left _ hv)
  obtain ⟨hnom, hnot, c, hc, hcall⟩ := update_toolCall hid
  obtain ⟨b₂, front, c', hok₂, hcarry₂, hfront, hkind, hc', hbuf₂, hthought₂⟩ :=
    toolCall_spec c hb₁ hn
  have hb₂ := buffered_of_empty hbuf₂ hthought₂
  obtain ⟨b₃, es₃, hok₃, hcarry₃, -, -⟩ := updates_spec hb₂ (hus.part post
    fun v hv => List.mem_append_right _ (List.mem_cons_of_mem _ hv))
  have hrun : a.calls n ((pre ++ u :: post).map .update) = .ok b₃ := by
    rw [List.map_append, calls_append _ hok₁, List.map_cons,
      calls_cons (c := .update u) _ ((hcall n b₁).trans hok₂), hok₃]
  obtain rfl : b₃ = b := Except.ok.inj (hrun.symm.trans hok)
  have hall := (hcarry₁.trans hcarry₂).trans hcarry₃
  obtain rfl := hall.unique hes
  refine ⟨es₁ ++ front, c', es₃, by simp, hc'.trans hc, ?_, ?_, ?_⟩
  · rw [List.countP_append, hcount₁, countP_toolCall hkind, Nat.add_zero]
  · obtain ⟨x, y, hb, hx, hy⟩ := hcarry₁.brings
    have hboth := hb.append hfront
    rw [hx, hy, hbuf, hthought] at hboth
    exact hboth
  · obtain ⟨x, y, hb, hx, hy⟩ := hcarry₃.brings
    rw [hbuf₂] at hx
    rw [hthought₂] at hy
    exact ⟨x, y, hb, hx, hy⟩

/-- Between `Begin` and `End` nothing is lost and nothing changes places, and each loop ends
in the rounds that its text needs. -/
theorem turn_kept (a : Aggregator) (turnId : String) (us : List Update) (n : ℕ)
    (hmessage : ∀ u ∈ us, ValidUtf8 u.messageText) (hthought : ∀ u ∈ us, ValidUtf8 u.thoughtText)
    (hn : partMax ≤ n) (hrounds : ∀ u ∈ us, rounds u ≤ n) :
    ∃ b es, a.calls n (.begin_ turnId :: us.map .update ++ [.end_]) = .ok b ∧
      b.emitted = a.emitted ++ es.map (Prod.mk turnId) ∧ TurnKept us es := by
  have hus : Received n us := ⟨hmessage, hthought, hrounds⟩
  obtain ⟨b, es, hok, hcarry, hb, -⟩ :=
    updates_spec (a := a.begin_ turnId) (buffered_of_empty rfl rfl) hus
  obtain ⟨d, es', hend, hemitted, hbrings, hkind, hfinal⟩ := end_spec hb hn
  obtain ⟨x, y, hes, hx, hy⟩ := hcarry.brings
  have hall := hes.append hbrings
  rw [hx, hy] at hall
  refine ⟨d, es ++ es', ?_, ?_, ?_⟩
  · rw [List.cons_append, calls_cons (c := .begin_ turnId) _ rfl, calls_append _ hok,
      calls_cons (c := .end_) _ hend]
    rfl
  · rw [hemitted, hcarry.emitted, hcarry.turn, List.map_append, List.append_assoc]
    rfl
  · constructor
    · exact hall.message
    · exact hall.thought
    · exact hall.sound
    · intro pre u post id hsplit hid
      obtain ⟨front, c, rest, rfl, hc, hcount, hfront, x', y', hrest, hx', hy'⟩ :=
        toolCall_between rfl rfl hus hn hok hcarry hsplit hid
      have hback := hrest.append hbrings
      rw [hx', hy'] at hback
      exact ⟨front, c, rest ++ es', by simp, hc, hcount, hfront.message, hfront.thought,
        hback.message, hback.thought⟩
    · rw [List.filter_append, List.dropLast_append]
      have hopen : ∀ e ∈ es.filter Emission.isMessage, e.isFinal = false :=
        fun e he => hcarry.open_ e (List.mem_of_mem_filter he)
      intro e he
      split at he
      · exact hopen e (List.mem_of_mem_dropLast he)
      · obtain he | he := List.mem_append.mp he
        · exact hopen e he
        · exact hfinal e he

/-- A turn with a thought, a reply around a tool call and a rune of three bytes. -/
def shortTurn : List Update :=
  [.thoughtChunk (some (utf8 "hm")), .messageChunk (some (utf8 "a€")),
    .toolCall "c1" "Read" "read" "pending" none, .messageChunk (some (utf8 "b"))]

theorem turn_kept_shortTurn :
    ∃ b es, calls (partMax + 8) {} (.begin_ "t1" :: shortTurn.map .update ++ [.end_]) = .ok b ∧
      b.emitted = [] ++ es.map (Prod.mk "t1") ∧ TurnKept shortTurn es := by
  apply turn_kept {} "t1" shortTurn (partMax + 8)
  · simp [shortTurn, Update.messageText, contentText, validUtf8_utf8, validUtf8_nil]
  · simp [shortTurn, Update.thoughtText, contentText, validUtf8_utf8, validUtf8_nil]
  · omega
  · decide

/-! ## The ids of the parts -/

/-- The ids of the parts that were emitted. -/
def partIds (emitted : List (String × Emission)) : List String :=
  emitted.filterMap fun e =>
    match e.2 with
    | .message id _ _ => some id
    | _ => none

/-- The turns that are begun in some calls. -/
def turnIds (cs : List Call) : List String :=
  cs.filterMap fun c =>
    match c with
    | .begin_ id => some id
    | _ => none

/-- Text of a reply comes only while a turn is open; `turn` is the one that is open before the
calls. -/
def repliesInTurns (turn : String) : List Call → Bool
  | [] => true
  | .begin_ id :: cs => repliesInTurns id cs
  | .update u :: cs => (u.messageText.isEmpty || turn != "") && repliesInTurns turn cs
  | .end_ :: cs => repliesInTurns "" cs

/-- The aggregator after some calls, also when one of them does not return. -/
def reached : Except Aggregator Aggregator → Aggregator
  | .ok a => a
  | .error a => a

/-- Text before the first turn, and text between two turns. -/
def textOutside : List Call :=
  [.update (.messageChunk (some (utf8 "a"))), .update (.toolCall "c1" "" "" "" none),
    .begin_ "t1", .end_, .update (.messageChunk (some (utf8 "b"))),
    .update (.toolCall "c2" "" "" "" none)]

/-- The parts that go out outside the turns have one name and `Begin` sets their number back. -/
theorem partIds_repeat :
    (turnIds textOutside).Nodup ∧ ∃ a, calls 1 {} textOutside = .ok a ∧
      partIds a.emitted = ["t0.1", "t0.1"] :=
  ⟨by decide, _, rfl, by decide⟩

theorem append_cons_inj {α : Type} {x : α} {xs xs' ys ys' : List α} (hy : x ∉ ys) (hy' : x ∉ ys')
    (h : xs ++ x :: ys = xs' ++ x :: ys') : xs = xs' ∧ ys = ys' := by
  obtain ⟨zs, rfl, hz⟩ | ⟨zs, rfl, hz⟩ := List.append_eq_append_iff.mp h
  · cases zs with
    | nil => exact ⟨(List.append_nil xs).symm, (List.cons.inj hz).2⟩
    | cons z zs =>
      rw [(List.cons.inj hz).2] at hy
      exact absurd (by simp) hy
  · cases zs with
    | nil => exact ⟨List.append_nil xs', (List.cons.inj hz).2.symm⟩
    | cons z zs =>
      rw [(List.cons.inj hz).2] at hy'
      exact absurd (by simp) hy'

/-- The id of a part tells its turn and its number: the number is what stands behind the last
point. -/
theorem partId_inj {t t' : String} {k k' : ℕ} (ht : t ≠ "") (ht' : t' ≠ "")
    (h : partId t k = partId t' k') : t = t' ∧ k = k' := by
  have hdigits (k : ℕ) : '.' ∉ k.repr.toList := by
    intro hmem
    rw [Nat.toList_repr] at hmem
    have := Nat.isDigit_of_mem_toDigits (by omega) (by omega) hmem
    revert this
    decide
  rw [partId, partId, if_neg ht, if_neg ht'] at h
  have hlist := congrArg String.toList h
  simp only [String.toList_append, Nat.toString_eq_repr, List.append_assoc] at hlist
  obtain ⟨hturn, hnum⟩ := append_cons_inj (hdigits k) (hdigits k') hlist
  refine ⟨String.toList_inj.mp hturn, ?_⟩
  rw [Nat.toList_repr, Nat.toList_repr] at hnum
  rw [← Nat.ofDigitChars_ten_toDigits (n := k), hnum, Nat.ofDigitChars_ten_toDigits]

/-- The parts have different ids, each with a number that its turn has reached. -/
structure Distinct (turns : List String) (a : Aggregator) : Prop where
  nodup : (partIds a.emitted).Nodup
  known : ∀ id ∈ partIds a.emitted, ∃ t ∈ turns, t ≠ "" ∧
    ∃ k, id = partId t k ∧ (t = a.turnId → k ≤ a.part)
  current : a.turnId = "" ∨ a.turnId ∈ turns

theorem partIds_append (es es' : List (String × Emission)) :
    partIds (es ++ es') = partIds es ++ partIds es' := List.filterMap_append

theorem partIds_thoughts (turnId : String) (ps : List Bytes) :
    partIds ((ps.map Emission.thought).map (Prod.mk turnId)) = [] := by
  unfold partIds
  rw [List.filterMap_eq_nil_iff]
  intro e he
  simp only [List.mem_map] at he
  obtain ⟨_, ⟨p, -, rfl⟩, rfl⟩ := he
  rfl

theorem partIds_parts (turnId : String) (final : Bool) (k : ℕ) (ps : List Bytes) :
    partIds ((parts turnId final k ps).map (Prod.mk turnId)) =
      (List.range' (k + 1) ps.length).map (partId turnId) := by
  induction ps generalizing k with
  | nil => rfl
  | cons p ps ih =>
    have hcons : partIds ((parts turnId final k (p :: ps)).map (Prod.mk turnId)) =
        partId turnId (k + 1) :: partIds ((parts turnId final (k + 1) ps).map (Prod.mk turnId)) :=
      rfl
    rw [hcons, ih, List.length_cons, List.range'_succ, List.map_cons]

/-- Emissions without a part. -/
theorem Distinct.sent {turns : List String} {a : Aggregator} (h : Distinct turns a)
    (hes : partIds (es.map (Prod.mk a.turnId)) = []) : Distinct turns (a.sent 0 es) := by
  have hids : partIds (a.sent 0 es).emitted = partIds a.emitted := by
    show partIds (a.emitted ++ _) = _
    rw [partIds_append, hes, List.append_nil]
  constructor
  · rw [hids]
    exact h.nodup
  · rw [hids]
    exact h.known
  · exact h.current

/-- The parts of an open turn. -/
theorem Distinct.sentParts {turns : List String} {a : Aggregator} (h : Distinct turns a)
    (final : Bool) (ps : List Bytes) (hps : a.turnId = "" → ps = []) :
    Distinct turns (a.sent ps.length (parts a.turnId final a.part ps)) := by
  by_cases hnil : ps = []
  · subst hnil
    exact h.sent rfl
  · have hturn : a.turnId ≠ "" := fun hempty => hnil (hps hempty)
    have hopen : a.turnId ∈ turns := h.current.resolve_left hturn
    have hids : partIds (a.sent ps.length (parts a.turnId final a.part ps)).emitted =
        partIds a.emitted ++ (List.range' (a.part + 1) ps.length).map (partId a.turnId) := by
      show partIds (a.emitted ++ _) = _
      rw [partIds_append, partIds_parts]
    constructor
    · rw [hids, List.nodup_append]
      refine ⟨h.nodup, ?_, ?_⟩
      · apply List.Nodup.map
        · exact fun k k' heq => (partId_inj hturn hturn heq).2
        · exact List.nodup_range'
      · -- a number that is new for the turn
        intro id hid id' hid' heq
        obtain ⟨k', hk', rfl⟩ := List.mem_map.mp hid'
        obtain ⟨t, -, ht, k, rfl, hk⟩ := h.known id hid
        obtain ⟨rfl, rfl⟩ := partId_inj ht hturn heq
        have hle := hk rfl
        have hgt := List.mem_range'_1.mp hk'
        omega
    · intro id hid
      rw [hids] at hid
      obtain hid | hid := List.mem_append.mp hid
      · obtain ⟨t, ht, hne, k, hk, hle⟩ := h.known id hid
        refine ⟨t, ht, hne, k, hk, fun heq => ?_⟩
        have := hle heq
        show k ≤ a.part + ps.length
        omega
      · obtain ⟨k, hk, rfl⟩ := List.mem_map.mp hid
        have hgt := List.mem_range'_1.mp hk
        refine ⟨a.turnId, hopen, hturn, k, rfl, fun _ => ?_⟩
        show k ≤ a.part + ps.length
        omega
    · exact h.current

/-- The ids are different, and outside a turn there is no text to emit. -/
structure Steady (turns : List String) (turn : String) (a : Aggregator) : Prop where
  turnId : a.turnId = turn
  distinct : Distinct turns a
  outside : turn = "" → a.buf = []

/-- A call that returns leaves the aggregator steady; one that does not has emitted different
ids. -/
def Keeps (turns : List String) (turn : String) : Except Aggregator Aggregator → Prop
  | .ok a => Steady turns turn a
  | .error a => Distinct turns a

theorem Keeps.bind {turns : List String} {turn turn' : String} {r : Except Aggregator Aggregator}
    {f : Aggregator → Except Aggregator Aggregator} (h : Keeps turns turn r)
    (hf : ∀ a, Steady turns turn a → Keeps turns turn' (f a)) : Keeps turns turn' (r >>= f) := by
  cases r with
  | error a => exact h
  | ok a => exact hf a h

/-- Only the turn, the number and the emissions matter for the ids. -/
theorem Distinct.same {turns : List String} {a b : Aggregator} (h : Distinct turns a)
    (hturn : b.turnId = a.turnId) (hpart : b.part = a.part) (hemitted : b.emitted = a.emitted) :
    Distinct turns b := by
  constructor
  · rw [hemitted]
    exact h.nodup
  · rw [hemitted, hturn, hpart]
    exact h.known
  · rw [hturn]
    exact h.current

theorem buf_of_flushMessage {n : ℕ} {final : Bool} {a b : Aggregator}
    (h : a.flushMessage n final = .ok b) : b.buf = [] := by
  rw [flushMessage_eq] at h
  dsimp only at h
  split at h
  · obtain rfl := Except.ok.inj h
    rfl
  · cases h

section

variable {turns : List String} {turn : String} {a : Aggregator} (h : Steady turns turn a) (n : ℕ)

include h

theorem Steady.flushThought : Keeps turns turn (a.flushThought n) := by
  have hdistinct := (h.distinct.same (b := { a with thought := [] }) rfl rfl rfl).sent
    (partIds_thoughts a.turnId (pieces 0 n a.thought).1)
  rw [flushThought_eq]
  dsimp only
  split
  · exact ⟨h.turnId, hdistinct, h.outside⟩
  · exact hdistinct

theorem Steady.flushMessage (final : Bool) : Keeps turns turn (a.flushMessage n final) := by
  have hdistinct (final : Bool) :=
    (h.distinct.same (b := { a with buf := [] }) rfl rfl rfl).sentParts
    final (pieces 0 n a.buf).1 fun hempty => by
      rw [h.outside (h.turnId.symm.trans hempty), pieces_nil]
  rw [flushMessage_eq]
  dsimp only
  split
  · exact ⟨h.turnId, hdistinct final, fun _ => rfl⟩
  · exact hdistinct false

theorem Steady.emit (he : e.isMessage = false) : Steady turns turn (a.emit e) := by
  refine ⟨h.turnId, ?_, h.outside⟩
  have hids : partIds ([e].map (Prod.mk a.turnId)) = [] := by
    cases e with
    | message => cases he
    | thought | toolCall | usage => rfl
  exact (h.distinct.sent hids).same rfl rfl rfl

theorem Steady.toolCall (c : ToolCall) : Keeps turns turn (a.toolCall n c) := by
  unfold Aggregator.toolCall
  apply (h.flushThought n).bind
  intro b hb
  have hb' : Steady turns turn { b with titles := (b.named c).1 } :=
    ⟨hb.turnId, hb.distinct.same rfl rfl rfl, hb.outside⟩
  apply (hb'.flushMessage n false).bind
  intro d hd
  exact hd.emit rfl

theorem Steady.splitFullThought (text : Bytes) :
    Keeps turns turn ({ a with thought := a.thought ++ text }.splitFullThought n) := by
  rw [splitFullThought_eq]
  have hdistinct (thought : Bytes) := (h.distinct.same (b := { a with thought }) rfl rfl rfl).sent
    (partIds_thoughts a.turnId (pieces partMax n (a.thought ++ text)).1)
  dsimp only
  split
  · exact ⟨h.turnId, hdistinct _, h.outside⟩
  · exact hdistinct _

theorem Steady.splitFullMessage (text : Bytes) (hturn : turn ≠ "") :
    Keeps turns turn ({ a with buf := a.buf ++ text }.splitFullMessage n) := by
  rw [splitFullMessage_eq]
  have hdistinct (buf : Bytes) := (h.distinct.same (b := { a with buf }) rfl rfl rfl).sentParts
    false (pieces partMax n (a.buf ++ text)).1 fun hempty =>
      absurd (h.turnId.symm.trans hempty) hturn
  dsimp only
  split
  · exact ⟨h.turnId, hdistinct _, fun hempty => absurd hempty hturn⟩
  · exact hdistinct _

theorem Steady.update (hu : u.messageText ≠ [] → turn ≠ "") : Keeps turns turn (a.update n u) := by
  cases u with
  | messageChunk content =>
    rw [Aggregator.update]
    split
    · exact h
    · rename_i hne
      apply (h.flushThought n).bind
      intro b hb
      exact hb.splitFullMessage n _ (hu hne)
  | thoughtChunk content => exact h.splitFullThought n _
  | toolCall | toolCallUpdate => exact h.toolCall n _
  | usageUpdate => exact h.emit rfl
  | other => exact h

theorem Steady.begin_ (hid : id ∉ turns) : Steady (turns ++ [id]) id (a.begin_ id) := by
  refine ⟨rfl, ⟨h.distinct.nodup, ?_, ?_⟩, fun _ => rfl⟩
  · intro x hx
    obtain ⟨t, ht, hne, k, hk, -⟩ := h.distinct.known x hx
    refine ⟨t, List.mem_append_left _ ht, hne, k, hk, ?_⟩
    rintro rfl
    exact absurd ht hid
  · exact .inr (List.mem_append_right _ (List.mem_singleton_self id))

theorem Steady.end_ : Keeps turns "" (a.end_ n) := by
  unfold Aggregator.end_
  apply (h.flushThought n).bind
  intro b hb
  have hflush := hb.flushMessage n true
  cases hr : b.flushMessage n true with
  | error d =>
    rw [hr] at hflush
    exact hflush
  | ok d =>
    rw [hr] at hflush
    have hbuf : d.buf = [] := buf_of_flushMessage hr
    refine ⟨rfl, ⟨hflush.distinct.nodup, ?_, .inl rfl⟩, fun _ => hbuf⟩
    intro x hx
    obtain ⟨t, ht, hne, k, hk, -⟩ := hflush.distinct.known x hx
    exact ⟨t, ht, hne, k, hk, fun hempty => absurd hempty hne⟩

end

/-- The run: every call keeps the ids apart. -/
theorem Steady.calls {turns : List String} {turn : String} {a : Aggregator}
    (h : Steady turns turn a) (n : ℕ) {cs : List Call} (hturns : (turns ++ turnIds cs).Nodup)
    (hin : repliesInTurns turn cs = true) :
    (partIds (reached (a.calls n cs)).emitted).Nodup := by
  induction cs generalizing turns turn a with
  | nil => exact h.distinct.nodup
  | cons c cs ih =>
    -- the first call keeps them apart, and so do the others if it returns
    have hnext {turns' : List String} {turn' : String} (hkeeps : Keeps turns' turn' (a.call n c))
        (hturns' : (turns' ++ turnIds cs).Nodup) (hin' : repliesInTurns turn' cs = true) :
        (partIds (reached (a.calls n (c :: cs))).emitted).Nodup := by
      cases hr : a.call n c with
      | error b =>
        rw [hr] at hkeeps
        have herr : a.calls n (c :: cs) = .error b := by
          unfold Aggregator.calls
          rw [List.foldlM_cons, hr]
          rfl
        rw [herr]
        exact hkeeps.nodup
      | ok b =>
        rw [hr] at hkeeps
        rw [calls_cons cs hr]
        exact ih hkeeps hturns' hin'
    cases c with
    | begin_ id =>
      have hsplit : turns ++ turnIds (.begin_ id :: cs) = turns ++ [id] ++ turnIds cs := by
        rw [List.append_assoc]
        rfl
      rw [hsplit] at hturns
      apply hnext (h.begin_ ?_) hturns hin
      intro hid
      have hboth := (List.nodup_append.mp hturns.of_append_left).2.2
      exact hboth id hid id (List.mem_singleton_self id) rfl
    | update u =>
      rw [repliesInTurns, Bool.and_eq_true] at hin
      apply hnext (h.update n ?_) hturns hin.2
      intro htext hempty
      rw [hempty] at hin
      exact htext (by simpa using hin.1)
    | end_ => exact hnext (h.end_ n) hturns hin

/-- No two parts of a session have one id, when text of the reply comes only in turns and the
turns have different ids. -/
theorem partIds_nodup (n : ℕ) (cs : List Call) (hturns : (turnIds cs).Nodup)
    (hin : repliesInTurns "" cs = true) : (partIds (reached (calls n {} cs)).emitted).Nodup := by
  have hinit : Steady [] "" {} := ⟨rfl, ⟨List.nodup_nil, nofun, .inl rfl⟩, fun _ => rfl⟩
  exact hinit.calls n hturns hin

/-- Two turns with a reply each, and a thought outside. -/
def twoTurns : List Call :=
  [.update (.thoughtChunk (some (utf8 "hm"))), .begin_ "t1",
    .update (.messageChunk (some (utf8 "a"))), .end_, .begin_ "t2",
    .update (.messageChunk (some (utf8 "b"))), .end_]

theorem partIds_nodup_twoTurns :
    partIds (reached (calls 2 {} twoTurns)).emitted = ["t1.1", "t2.1"] ∧
      (partIds (reached (calls 2 {} twoTurns)).emitted).Nodup :=
  ⟨by decide, partIds_nodup 2 twoTurns (by decide) (by decide)⟩

end Aggregator

end AgentOps.Runner
