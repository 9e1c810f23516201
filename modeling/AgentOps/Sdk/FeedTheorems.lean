import AgentOps.Sdk.Feed

/-!
# A feed survives its streams

`play` says what the events of a feed are for given streams, without a word about how a client reads
them. The step lemmas are about the stream and the events of a feed and serve all clients:

* `Stream`: what is still on its way is what the log has next;
* `Follows`: the log after the requested position is what the consumer has, followed by the log
  after the cursor;
* `goStep_follows` and `genStep_follows`: every step of a client keeps it.
-/

namespace AgentOps.Sdk

open AgentOps.Lib AgentOps.Api

variable {e : Event} {f : Frame} {l : Label}

/-! ## What a feed is for -/

/-- A feed after some streams. -/
structure Played where
  last : ℤ
  out : List Event := []

def Played.frame (p : Played) : Frame → Played
  | .keepalive => p
  | .event e => if p.last < e.seq then ⟨e.seq, p.out ++ [e]⟩ else p

def Played.stream (p : Played) (o : Outcome) : Played := o.frames.foldl Played.frame p

/-- The events of a feed, from the streams it is done with and what it saw of the last one. -/
def play (afterSeq : ℤ) (past : List Outcome) (seen : List Frame) : Played :=
  seen.foldl Played.frame (past.foldl Played.stream ⟨afterSeq, []⟩)

/-- A feed ended for a reason: it delivered `SessionEnded`, the last stream ended cleanly, or no
frame of the last stream came and the error was final. -/
def Finished (s : Line) : Prop :=
  (∃ e, s.out.getLast? = some e ∧ e.payload.isSessionEnded = true) ∨
  ∃ o, s.past.getLast? = some o ∧
    (o.ending = .clean ∨ o.frames = [] ∧ ∃ f, o.ending = .error f ∧ f.final = true)

/-- The events of the consumer are the first ones of the log after the requested position, and the
feed goes on unless it has a reason to end. -/
structure Survives (log : List Event) (afterSeq : ℤ) (s : Line) : Prop where
  whole : s.out <+: logAfter log afterSeq
  reason : s.place = .ended → Finished s

/-- The streams of a feed, as the client saw them. -/
def Line.outcomes (s : Line) : List Outcome × List Frame := (s.past, s.seen)

/-! ## The log -/

/-- The order of a log. -/
abbrev Ordered (log : List Event) : Prop := log.Pairwise fun a b => a.seq < b.seq

/-- Past its first event, the log after a position is the log after that event. -/
theorem logAfter_head {log : List Event} (hlog : Ordered log) {n : ℤ} {rest : List Event}
    (h : logAfter log n = e :: rest) : n < e.seq ∧ logAfter log e.seq = rest := by
  unfold logAfter at h ⊢
  induction log with
  | nil => cases h
  | cons a log ih =>
    obtain ⟨ha, hrest⟩ := List.pairwise_cons.mp hlog
    by_cases hn : n < a.seq
    · rw [List.filter_cons_of_pos (by simpa using hn)] at h
      obtain ⟨rfl, rfl⟩ := List.cons.inj h
      -- the events behind `a` are all past it, and past `n`
      have hall : ∀ b ∈ log, n < b.seq := fun b hb => Int.lt_trans hn (ha b hb)
      rw [List.filter_cons_of_neg (by simp), List.filter_eq_self.mpr (by simpa using ha),
        List.filter_eq_self.mpr (by simpa using hall)]
      exact ⟨hn, rfl⟩
    · rw [List.filter_cons_of_neg (by simpa using hn)] at h
      obtain ⟨hlt, hafter⟩ := ih hrest h
      rw [List.filter_cons_of_neg (by simp; omega)]
      exact ⟨hlt, hafter⟩

/-! ## The stream -/

/-- The event of a frame that was received. -/
def handed : Option Frame → List Event
  | some (.event e) => [e]
  | _ => []

/-- A stream and the cursor of its client: `pend` and the frame in hand are the next events of the
log. -/
def Stream (log : List Event) (w : Wire) (last : ℤ) (pend : List Event) : Prop :=
  ∃ got, w.sent = got ++ (pend ++ handed w.hand) ∧
    logAfter log w.after = got ++ logAfter log last ∧
    pend ++ handed w.hand <+: logAfter log last

namespace Stream

variable {log : List Event} {w u : Wire} {last : ℤ} {pend : List Event}

theorem opened : Stream log { after := last } last [] :=
  ⟨[], rfl, rfl, List.nil_prefix⟩

theorem send (h : Stream log w last pend) (hs : w.send log f = some u) :
    Stream log u last pend := by
  unfold Wire.send at hs
  split at hs
  · rename_i hfree
    obtain ⟨got, hsent, hafter, _⟩ := h
    rw [hfree.1, show handed none = [] from rfl, List.append_nil] at hsent
    cases f with
    | keepalive =>
      obtain rfl := Option.some.inj hs
      refine ⟨got, by rw [hsent]; simp [handed], hafter, ?_⟩
      show pend ++ [] <+: _
      rw [List.append_nil]
      rename_i hpre
      rwa [hfree.1, show handed none = [] from rfl, List.append_nil] at hpre
    | event e =>
      simp only at hs
      split at hs
      · rename_i hpre
        obtain rfl := Option.some.inj hs
        have hpre := List.isPrefixOf_iff_prefix.mp hpre
        rw [hsent, hafter, List.append_assoc] at hpre
        refine ⟨got, ?_, hafter, (List.prefix_append_right_inj got).mp hpre⟩
        show w.sent ++ [e] = got ++ (pend ++ [e])
        rw [hsent, List.append_assoc]
      · cases hs
  · cases hs

theorem cut {e : Ending} (h : Stream log w last pend) (hs : w.cut e = some u) :
    Stream log u last pend := by
  unfold Wire.cut at hs
  split at hs
  · obtain rfl := Option.some.inj hs
    exact h
  · cases hs

/-- The client takes the frame in hand. -/
theorem take (h : Stream log w last []) (hf : w.hand = some f) :
    Stream log { w with hand := none } last (handed (some f)) := by
  obtain ⟨got, hsent, hafter, hpre⟩ := h
  rw [hf, List.nil_append] at hsent hpre
  refine ⟨got, ?_, hafter, ?_⟩
  · show w.sent = got ++ (handed (some f) ++ [])
    rw [List.append_nil, hsent]
  · show handed (some f) ++ [] <+: _
    rwa [List.append_nil]

/-- The next event of a stream is the next event of the log. -/
theorem next (hlog : Ordered log) (h : Stream log w last (e :: pend)) :
    last < e.seq ∧ logAfter log last = e :: logAfter log e.seq ∧ Stream log w e.seq pend := by
  obtain ⟨got, hsent, hafter, rest, hrest⟩ := h
  obtain ⟨hlt, hnext⟩ := logAfter_head hlog hrest.symm
  have hcons : logAfter log last = e :: logAfter log e.seq := by rw [hnext, ← hrest]; rfl
  refine ⟨hlt, hcons, got ++ [e], ?_, ?_, ?_⟩
  · rw [hsent, List.append_assoc]; rfl
  · rw [hafter, hcons, List.append_assoc]; rfl
  · rw [hnext]
    exact List.prefix_append _ _

end Stream

/-! ## The feed -/

/-- No frame of the stream was looked at. -/
def Place.fresh : Place → Bool
  | .opening _ | .waiting => true
  | .reading | .handing _ | .ended | .failed => false

/-- What holds of a feed whose cursor is `last` and which took the events `pend` from its stream
that the consumer does not have. -/
structure Follows (log : List Event) (afterSeq : ℤ) (s : Line) (last : ℤ) (pend : List Event) :
    Prop where
  rest : logAfter log afterSeq = s.out ++ logAfter log last
  stream : s.place.open = true → Stream log s.wire last pend
  played : play afterSeq s.past s.seen = ⟨last, s.out⟩
  fresh : s.place.fresh = true → s.seen = []
  reason : s.place = .ended → Finished s

theorem play_note (afterSeq : ℤ) (past : List Outcome) (seen : List Frame) (f : Frame) :
    play afterSeq past (seen ++ [f]) = (play afterSeq past seen).frame f := by
  simp only [play, List.foldl_append, List.foldl_cons, List.foldl_nil]

/-- A stream that is done is played as before. -/
theorem play_done (afterSeq : ℤ) (past : List Outcome) (seen : List Frame) (e : Ending) :
    play afterSeq (past ++ [⟨seen, e⟩]) [] = play afterSeq past seen := by
  simp only [play, List.foldl_append, List.foldl_cons, List.foldl_nil, Played.stream]

namespace Follows

variable {log : List Event} {afterSeq last : ℤ} {s t : Line} {pend : List Event}

theorem init : Follows log afterSeq { wire := { after := afterSeq } } afterSeq [] where
  rest := rfl
  stream _ := Stream.opened
  played := rfl
  fresh _ := rfl
  reason h := by cases h

theorem survives (h : Follows log afterSeq s last pend) : Survives log afterSeq s where
  whole := by
    rw [h.rest]
    exact List.prefix_append _ _
  reason := h.reason

/-- The server does nothing but to the stream. -/
theorem serve (h : Follows log afterSeq s last pend) (hs : s.serve log l = some t) :
    t.place = s.place ∧ t.out = s.out ∧ Follows log afterSeq t last pend := by
  -- both steps replace the stream and keep what the client has
  have hwire : ∀ w, Stream log w last pend → t = { s with wire := w } →
      t.place = s.place ∧ t.out = s.out ∧ Follows log afterSeq t last pend := by
    rintro w hw rfl
    exact ⟨rfl, rfl, h.rest, fun _ => hw, h.played, h.fresh, h.reason⟩
  unfold Line.serve at hs
  split at hs
  all_goals try cases hs
  all_goals
    split at hs
    · obtain ⟨w, hw, rfl⟩ := Option.map_eq_some_iff.mp hs
      rename_i hopen
      first
        | exact hwire w ((h.stream hopen).send hw) rfl
        | exact hwire w ((h.stream hopen).cut hw) rfl
    · cases hs

/-- The frame in hand is taken. -/
theorem take (h : Follows log afterSeq s last []) (hopen : s.place.open = true)
    (hf : s.wire.hand = some f) :
    Follows log afterSeq { s with wire := { s.wire with hand := none } } last
      (handed (some f)) where
  rest := h.rest
  stream _ := (h.stream hopen).take hf
  played := h.played
  fresh := h.fresh
  reason := h.reason

theorem keepalive (h : Follows log afterSeq s last pend) (hopen : s.place.open = true) :
    Follows log afterSeq { s.note .keepalive with place := .reading } last pend where
  rest := h.rest
  stream _ := h.stream hopen
  played := by
    show play afterSeq s.past (s.seen ++ [.keepalive]) = _
    rw [play_note, h.played]
    rfl
  fresh hp := by cases hp
  reason hp := by cases hp

/-- The cursor is not past an event that the stream sent. -/
theorem lt_seq (hlog : Ordered log) (h : Follows log afterSeq s last (e :: pend))
    (hopen : s.place.open = true) : last < e.seq :=
  ((h.stream hopen).next hlog).1

/-- The consumer gets an event. -/
theorem event (hlog : Ordered log) (h : Follows log afterSeq s last (e :: pend))
    (hopen : s.place.open = true) (p : Place) (hp : p.fresh = false)
    (hend : p = .ended → e.payload.isSessionEnded = true) :
    Follows log afterSeq { s.note (.event e) with out := s.out ++ [e], place := p } e.seq pend := by
  obtain ⟨hlt, hcons, hstream⟩ := (h.stream hopen).next hlog
  refine ⟨?_, fun _ => hstream, ?_, ?_, fun hi => .inl ⟨e, ?_, hend hi⟩⟩
  · show logAfter log afterSeq = (s.out ++ [e]) ++ logAfter log e.seq
    rw [h.rest, hcons, List.append_assoc]
    rfl
  · show play afterSeq s.past (s.seen ++ [.event e]) = _
    rw [play_note, h.played]
    exact if_pos hlt
  · intro hi
    rw [show p.fresh = false from hp] at hi
    cases hi
  · exact List.getLast?_concat

/-- The client is done with a stream; what it took from it and did not hand over is lost, and sent
again by the next one. -/
theorem done (h : Follows log afterSeq s last pend) (e : Ending) (p : Place)
    (hp : p.open = false) (hend : p = .ended → e = .clean ∨
      s.seen = [] ∧ ∃ f, e = .error f ∧ f.final = true) :
    Follows log afterSeq (s.done e p) last [] where
  rest := h.rest
  stream hopen := by
    rw [show (s.done e p).place = p from rfl, hp] at hopen
    cases hopen
  played := by
    show play afterSeq (s.past ++ [⟨s.seen, e⟩]) [] = _
    rw [play_done, h.played]
    rfl
  fresh _ := rfl
  reason hi := .inr ⟨⟨s.seen, e⟩, List.getLast?_concat, hend hi⟩

/-- Opening a stream did not succeed. -/
theorem refused {initial : Bool} (h : Follows log afterSeq s last pend)
    (hp : s.place = .opening initial) (e : Ending) (f : Fault)
    (he : f.final = true → e = .error f) :
    Follows log afterSeq (s.done e (Sdk.refused initial f)) last [] := by
  apply h.done
  · unfold Sdk.refused
    split
    · rfl
    · split <;> rfl
  · unfold Sdk.refused
    intro hend
    split at hend
    · cases hend
    · split at hend
      · rename_i hfinal
        exact .inr ⟨h.fresh (by rw [hp]; rfl), f, he hfinal, hfinal⟩
      · cases hend

theorem retry (h : Follows log afterSeq s last pend) (hp : s.place = .waiting) :
    Follows log afterSeq { s with wire := { after := last }, place := .opening false } last [] where
  rest := h.rest
  stream _ := Stream.opened
  played := h.played
  fresh _ := h.fresh (by rw [hp]; rfl)
  reason hi := by cases hi

end Follows

/-! ## The Go client -/

/-- The event that `deliver` holds. -/
def Place.pending : Place → List Event
  | .handing e => [e]
  | _ => []

/-- The Go client: the cursor of `run` is behind the one of `drain` while a stream is read, and is
the same otherwise. -/
structure GoFollows (log : List Event) (afterSeq : ℤ) (s : GoFeed) : Prop where
  follows : Follows log afterSeq s.line s.last s.line.place.pending
  behind : s.afterSeq ≤ s.last
  level : s.line.place.fresh = true → s.afterSeq = s.last

namespace GoFollows

variable {log : List Event} {afterSeq : ℤ} {s t : GoFeed}

theorem init : GoFollows log afterSeq (.init afterSeq) :=
  ⟨Follows.init, Int.le_refl _, fun _ => rfl⟩

theorem serve {line : Line} (h : GoFollows log afterSeq s) (hs : s.line.serve log l = some line) :
    GoFollows log afterSeq { s with line := line } := by
  obtain ⟨hp, _, hf⟩ := h.follows.serve hs
  rw [← hp] at hf
  refine ⟨hf, h.behind, ?_⟩
  show line.place.fresh = true → _
  rw [hp]
  exact h.level

/-- `deliver` passes a keepalive over and holds an event for the consumer. -/
theorem deliver (hlog : Ordered log) (h : Follows log afterSeq s.line s.last (handed (some f)))
    (hopen : s.line.place.open = true) (hle : s.afterSeq ≤ s.last) :
    GoFollows log afterSeq (s.deliver f) := by
  cases f with
  | keepalive =>
    refine ⟨h.keepalive hopen, hle, ?_⟩
    intro hf
    cases hf
  | event e =>
    have hlt : s.last < e.seq := h.lt_seq hlog hopen
    unfold GoFeed.deliver
    simp only
    rw [if_neg (by omega)]
    refine ⟨⟨h.rest, fun _ => h.stream hopen, h.played, ?_, ?_⟩, hle, ?_⟩ <;>
    · intro hf
      cases hf

/-- The feed is done with a stream, and `run` has the cursor of `drain`. -/
theorem done (h : GoFollows log afterSeq s) (e : Ending) (p : Place) (hp : p.pending = [])
    (hdone : Follows log afterSeq (s.line.done e p) s.last [])
    (hlevel : p.fresh = true → s.afterSeq = s.last) :
    GoFollows log afterSeq { s with line := s.line.done e p } := by
  refine ⟨?_, h.behind, hlevel⟩
  show Follows log afterSeq (s.line.done e p) s.last p.pending
  rwa [hp]

theorem dropped (h : GoFollows log afterSeq s) (e : Ending) :
    GoFollows log afterSeq (s.dropped e) := by
  have hmax : max s.afterSeq s.last = s.last := by
    have hle := h.behind
    omega
  refine ⟨h.follows.done e .waiting rfl (by intro hp; cases hp), ?_, ?_⟩
  · show max s.afterSeq s.last ≤ s.last
    omega
  · intro _
    exact hmax

end GoFollows

theorem pending_refused (initial : Bool) (f : Fault) : (refused initial f).pending = [] := by
  unfold refused
  split
  · rfl
  · split <;> rfl

theorem goStep_follows {log : List Event} {afterSeq : ℤ} (hlog : Ordered log) {s t : GoFeed}
    (h : GoFollows log afterSeq s) (hs : goStep log s l = some t) : GoFollows log afterSeq t := by
  cases l with
  | send f =>
    obtain ⟨line, hline, rfl⟩ := Option.map_eq_some_iff.mp hs
    exact h.serve hline
  | cut e =>
    obtain ⟨line, hline, rfl⟩ := Option.map_eq_some_iff.mp hs
    exact h.serve hline
  | take =>
    simp only [goStep] at hs
    split at hs
    · cases hs
    · rename_i f hhand
      have hf := h.follows
      split at hs
      · rename_i initial hp
        obtain rfl := Option.some.inj hs
        rw [hp] at hf
        have hlevel : s.afterSeq = s.last := h.level (by rw [hp]; rfl)
        rw [hlevel]
        refine GoFollows.deliver hlog (hf.take (by rw [hp]; rfl) hhand) ?_ (Int.le_refl _)
        show s.line.place.open = true
        rw [hp]
        rfl
      · rename_i hp
        obtain rfl := Option.some.inj hs
        rw [hp] at hf
        refine GoFollows.deliver hlog (hf.take (by rw [hp]; rfl) hhand) ?_ h.behind
        show s.line.place.open = true
        rw [hp]
        rfl
      · cases hs
  | give =>
    simp only [goStep] at hs
    split at hs
    · rename_i e hp
      obtain rfl := Option.some.inj hs
      have hf := h.follows
      rw [hp] at hf
      have hopen : s.line.place.open = true := by rw [hp]; rfl
      have hlt : s.last < e.seq := hf.lt_seq hlog hopen
      have hle := h.behind
      by_cases hend : e.payload.isSessionEnded = true
      · rw [if_pos hend]
        refine ⟨hf.event hlog hopen .ended rfl fun _ => hend, ?_, ?_⟩
        · show s.afterSeq ≤ e.seq
          omega
        · intro hi
          cases hi
      · rw [if_neg hend]
        refine ⟨hf.event hlog hopen .reading rfl (by intro hi; cases hi), ?_, ?_⟩
        · show s.afterSeq ≤ e.seq
          omega
        · intro hi
          cases hi
    · cases hs
  | finish =>
    simp only [goStep] at hs
    split at hs
    · split at hs
      · obtain rfl := Option.some.inj hs
        exact h.done _ _ rfl (h.follows.done _ _ rfl fun _ => .inl rfl) (by intro hi; cases hi)
      · rename_i initial f hp _
        obtain rfl := Option.some.inj hs
        exact h.done _ _ (pending_refused initial f) (h.follows.refused hp _ f fun _ => rfl)
          fun _ => h.level (by rw [hp]; rfl)
      · obtain rfl := Option.some.inj hs
        exact h.done _ _ rfl (h.follows.done _ _ rfl fun _ => .inl rfl) (by intro hi; cases hi)
      · obtain rfl := Option.some.inj hs
        exact h.dropped _
      · cases hs
    · cases hs
  | silence =>
    simp only [goStep] at hs
    split at hs
    · rename_i initial hp
      obtain rfl := Option.some.inj hs
      exact h.done _ _ (pending_refused initial none)
        (h.follows.refused hp _ none (by intro hi; cases hi)) fun _ => h.level (by rw [hp]; rfl)
    · obtain rfl := Option.some.inj hs
      exact h.dropped _
    · cases hs
  | retry =>
    simp only [goStep] at hs
    split at hs
    · rename_i hp
      obtain rfl := Option.some.inj hs
      have hlevel : s.afterSeq = s.last := h.level (by rw [hp]; rfl)
      rw [hlevel]
      exact ⟨h.follows.retry hp, Int.le_refl _, fun _ => rfl⟩
    · cases hs

/-! ## The TypeScript and the Python client -/

/-- Such a client, whose cursor is past an event as soon as the consumer has it. -/
structure GenFollows (log : List Event) (afterSeq : ℤ) (s : GenFeed) : Prop where
  follows : Follows log afterSeq s.line s.last []
  given : ∀ e, s.line.place = .handing e → s.line.out.getLast? = some e

namespace GenFollows

variable {log : List Event} {afterSeq : ℤ} {s : GenFeed}

theorem init : GenFollows log afterSeq (.init afterSeq) where
  follows := Follows.init
  given _ hp := by cases hp

/-- A feed that is not at an event. -/
theorem of_follows (h : Follows log afterSeq s.line s.last [])
    (hp : s.line.place.pending = []) : GenFollows log afterSeq s := by
  refine ⟨h, ?_⟩
  intro e he
  rw [he] at hp
  cases hp

theorem serve {line : Line} (h : GenFollows log afterSeq s) (hs : s.line.serve log l = some line) :
    GenFollows log afterSeq { s with line := line } := by
  obtain ⟨hp, hout, hf⟩ := h.follows.serve hs
  refine ⟨hf, ?_⟩
  show ∀ e, line.place = .handing e → line.out.getLast? = some e
  rw [hp, hout]
  exact h.given

theorem deliver (hlog : Ordered log) (h : Follows log afterSeq s.line s.last (handed (some f)))
    (hopen : s.line.place.open = true) : GenFollows log afterSeq (s.deliver f) := by
  cases f with
  | keepalive => exact of_follows (h.keepalive hopen) rfl
  | event e =>
    have hlt : s.last < e.seq := h.lt_seq hlog hopen
    unfold GenFeed.deliver
    simp only
    rw [if_pos hlt]
    refine ⟨h.event hlog hopen (.handing e) rfl (by intro hi; cases hi), ?_⟩
    intro e' he
    obtain rfl := Place.handing.inj he
    exact List.getLast?_concat

/-- The consumer asks for the next event. -/
theorem give (h : GenFollows log afterSeq s) (hp : s.line.place = .handing e) (p : Place)
    (hpend : p.pending = []) (hfresh : p.fresh = false)
    (hend : p = .ended → e.payload.isSessionEnded = true) :
    GenFollows log afterSeq { s with line := { s.line with place := p } } := by
  have hf := h.follows
  refine of_follows ⟨hf.rest, fun _ => hf.stream (by rw [hp]; rfl), hf.played, ?_, ?_⟩ hpend
  · show p.fresh = true → _
    rw [hfresh]
    intro hi
    cases hi
  · intro hi
    exact .inl ⟨e, h.given e hp, hend hi⟩

end GenFollows

/-- No stream is cut after its first frame with an error after which the client does not open
another one. -/
def reopening (reopens : Fault → Bool) (s : GenFeed) (l : Label) : Bool :=
  match l, s.line.place, s.line.wire.closed with
  | .finish, .reading, some (.error f) => reopens f
  | _, _, _ => true

theorem genStep_follows {reopens : Fault → Bool} {log : List Event} {afterSeq : ℤ}
    (hlog : Ordered log) (hnone : reopens none = true) {s t : GenFeed}
    (h : GenFollows log afterSeq s) (hok : reopening reopens s l = true)
    (hs : genStep reopens log s l = some t) : GenFollows log afterSeq t := by
  have hf := h.follows
  cases l with
  | send f =>
    obtain ⟨line, hline, rfl⟩ := Option.map_eq_some_iff.mp hs
    exact h.serve hline
  | cut e =>
    obtain ⟨line, hline, rfl⟩ := Option.map_eq_some_iff.mp hs
    exact h.serve hline
  | take =>
    simp only [genStep] at hs
    split at hs
    · cases hs
    · rename_i f hhand
      split at hs
      all_goals try cases hs
      all_goals
        rename_i hp
        have hopen : s.line.place.open = true := by
          rw [show s.line.place = _ from hp]
          rfl
        exact GenFollows.deliver hlog (hf.take hopen hhand) hopen
  | give =>
    simp only [genStep] at hs
    split at hs
    · rename_i e hp
      obtain rfl := Option.some.inj hs
      by_cases hend : e.payload.isSessionEnded = true
      · rw [if_pos hend]
        exact h.give hp .ended rfl rfl fun _ => hend
      · rw [if_neg hend]
        exact h.give hp .reading rfl rfl (by intro hi; cases hi)
    · cases hs
  | finish =>
    simp only [genStep] at hs
    split at hs
    · split at hs
      · obtain rfl := Option.some.inj hs
        exact .of_follows (hf.done _ _ rfl fun _ => .inl rfl) rfl
      · rename_i initial f hp _
        obtain rfl := Option.some.inj hs
        exact .of_follows (hf.refused hp _ f fun _ => rfl) (pending_refused initial f)
      · obtain rfl := Option.some.inj hs
        exact .of_follows (hf.done _ _ rfl fun _ => .inl rfl) rfl
      · rename_i f hp hclosed
        obtain rfl := Option.some.inj hs
        have hreopens : reopens f = true := by
          unfold reopening at hok
          rwa [hp, hclosed] at hok
        rw [if_pos hreopens]
        exact .of_follows (hf.done _ _ rfl (by intro hi; cases hi)) rfl
      · cases hs
    · cases hs
  | silence =>
    simp only [genStep] at hs
    split at hs
    · rename_i initial hp
      obtain rfl := Option.some.inj hs
      exact .of_follows (hf.refused hp _ none (by intro hi; cases hi))
        (pending_refused initial none)
    · obtain rfl := Option.some.inj hs
      rw [if_pos hnone]
      exact .of_follows (hf.done _ _ rfl (by intro hi; cases hi)) rfl
    · cases hs
  | retry =>
    simp only [genStep] at hs
    split at hs
    · rename_i hp
      obtain rfl := Option.some.inj hs
      exact .of_follows (hf.retry hp) rfl
    · cases hs

/-! ## Every run -/

section Runs

variable {log : List Event} {afterSeq : ℤ}

theorem goFeed_follows (hlog : Ordered log) {g : GoFeed}
    (h : Reach (goStep log) (fun _ _ => True) (.init afterSeq) g) : GoFollows log afterSeq g :=
  h.invariant _ GoFollows.init fun ha _ hs => goStep_follows hlog ha hs

theorem genFeed_follows {reopens : Fault → Bool} (hlog : Ordered log)
    (hnone : reopens none = true) {s : GenFeed}
    (h : Reach (genStep reopens log) (fun s l => reopening reopens s l = true) (.init afterSeq) s) :
    GenFollows log afterSeq s :=
  h.invariant _ GenFollows.init fun ha hok hs => genStep_follows hlog hnone ha hok hs

theorem tsFeed_follows (hlog : Ordered log) {t : GenFeed}
    (h : Reach (genStep tsReopens log) (fun _ _ => True) (.init afterSeq) t) :
    GenFollows log afterSeq t := by
  apply genFeed_follows hlog rfl (h.mono _)
  intro s l _
  unfold reopening
  split <;> rfl

/-- The events of a feed are those of its streams. -/
theorem Follows.out_eq {s : Line} {last : ℤ} {pend : List Event}
    (h : Follows log afterSeq s last pend) :
    s.out = (play afterSeq s.outcomes.1 s.outcomes.2).out := by
  rw [show play afterSeq s.outcomes.1 s.outcomes.2 = _ from h.played]

end Runs

/-- Every feed of the three clients hands over the first events of the log after the requested
position and goes on until it has a reason to end, and the three have the same events for the same
streams. Of the Python client this is said for streams that are not cut after their first frame with
an error that is final for an attempt to open one. -/
theorem feeds_survive {log : List Event} (hlog : Ordered log) (afterSeq : ℤ) :
    (∀ g, Reach (goStep log) (fun _ _ => True) (.init afterSeq) g →
      Survives log afterSeq g.line) ∧
    (∀ t, Reach (genStep tsReopens log) (fun _ _ => True) (.init afterSeq) t →
      Survives log afterSeq t.line) ∧
    (∀ p, Reach (genStep pyReopens log) (fun s l => reopening pyReopens s l = true)
        (.init afterSeq) p →
      Survives log afterSeq p.line) ∧
    (∀ g t p, Reach (goStep log) (fun _ _ => True) (.init afterSeq) g →
      Reach (genStep tsReopens log) (fun _ _ => True) (.init afterSeq) t →
      Reach (genStep pyReopens log) (fun s l => reopening pyReopens s l = true)
        (.init afterSeq) p →
      (g.line.outcomes = t.line.outcomes → g.line.out = t.line.out) ∧
      (t.line.outcomes = p.line.outcomes → t.line.out = p.line.out) ∧
      (p.line.outcomes = g.line.outcomes → p.line.out = g.line.out)) := by
  refine ⟨fun g hg => (goFeed_follows hlog hg).follows.survives,
    fun t ht => (tsFeed_follows hlog ht).follows.survives,
    fun p hp => (genFeed_follows hlog rfl hp).follows.survives, ?_⟩
  intro g t p hg ht hp
  have hgo := (goFeed_follows hlog hg).follows.out_eq
  have hts := (tsFeed_follows hlog ht).follows.out_eq
  have hpy := (genFeed_follows hlog rfl hp).follows.out_eq
  refine ⟨fun h => ?_, fun h => ?_, fun h => ?_⟩
  · rw [hgo, hts, h]
  · rw [hts, hpy, h]
  · rw [hpy, hgo, h]

/-- A log of two events. -/
def shortLog : List Event :=
  [⟨1, "t1", .turnCompleted "end_turn"⟩, ⟨2, "", .sessionEnded .ended ""⟩]

/-- The Python client after a stream that is cut behind its first event. -/
def cutRun (f : Fault) : GenFeed :=
  (exec (genStep pyReopens shortLog) (.init 0)
    [.send (.event ⟨1, "t1", .turnCompleted "end_turn"⟩), .take, .give, .cut (.error f),
      .finish]).getD (.init 0)

/-- A stream that is cut as not found is the last one of the Python client. -/
theorem python_feed_gives_up :
    Reach (genStep pyReopens shortLog) (fun _ _ => True) (.init 0) (cutRun (some .notFound)) ∧
    (cutRun (some .notFound)).line.place = .ended ∧
    ¬ Survives shortLog 0 (cutRun (some .notFound)).line := by
  have hplace : (cutRun (some .notFound)).line.place = .ended := by decide
  have hout : (cutRun (some .notFound)).line.out = [⟨1, "t1", .turnCompleted "end_turn"⟩] := by
    decide
  have hpast : (cutRun (some .notFound)).line.past =
      [⟨[.event ⟨1, "t1", .turnCompleted "end_turn"⟩], .error (some .notFound)⟩] := by decide
  refine ⟨Reach.of_exec_getD _ (by decide), hplace, ?_⟩
  intro h
  -- no `SessionEnded` was delivered, and the one stream had an event and ended with an error
  rcases h.reason hplace with ⟨e, he, hend⟩ | ⟨o, ho, hend⟩
  · rw [hout] at he
    obtain rfl := Option.some.inj he
    cases hend
  · rw [hpast] at ho
    obtain rfl := Option.some.inj ho
    rcases hend with hend | ⟨hend, _⟩ <;> cases hend

/-- A stream that is cut as unavailable is followed by another one, which brings the rest. -/
theorem feeds_survive_secondStream :
    Ordered shortLog ∧
    ∃ p, Reach (genStep pyReopens shortLog) (fun s l => reopening pyReopens s l = true)
    (.init 0) p ∧
      p.line.out = shortLog ∧ Survives shortLog 0 p.line := by
  have hrun : Reach (genStep pyReopens shortLog) (fun s l => reopening pyReopens s l = true)
      (.init 0) _ := Reach.of_exec_guarded
    [.send (.event ⟨1, "t1", .turnCompleted "end_turn"⟩), .take, .give,
      .cut (.error (some .unavailable)), .finish, .retry, .send .keepalive, .take,
      .send (.event ⟨2, "", .sessionEnded .ended ""⟩), .take, .give] (by decide)
  exact ⟨by decide, _, hrun, by decide, (feeds_survive (by decide) 0).2.2.1 _ hrun⟩

end AgentOps.Sdk
