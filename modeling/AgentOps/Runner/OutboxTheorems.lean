import AgentOps.Lib.History
import AgentOps.Lib.Machine
import AgentOps.Runner.Outbox
import Mathlib.Data.List.Basic

/-!
# The outbox is a window

The events that the outbox holds are those from the first one that is not acked to the last one,
so that the differences of counters by which `ack` and `after` slice the list are in range.
-/

namespace AgentOps.Runner

open AgentOps.Lib AgentOps.Link

variable {o : Outbox}

/-- The maximum that `New` gives the outbox. -/
def outboxLimit (configured : ℤ) : ℕ := if configured ≤ 0 then outboxMax else configured.toNat

theorem outboxLimit_pos (configured : ℤ) : 0 < outboxLimit configured := by
  unfold outboxLimit
  split
  · decide
  · omega

/-! ## Slices -/

/-- `xs[:i]`; `none` where Go panics. -/
def sliceTo {α : Type} (xs : List α) (i : ℤ) : Option (List α) :=
  if 0 ≤ i ∧ i ≤ xs.length then some (xs.take i.toNat) else none

/-- `xs[i:]`; `none` where Go panics. -/
def sliceFrom {α : Type} (xs : List α) (i : ℤ) : Option (List α) :=
  if 0 ≤ i ∧ i ≤ xs.length then some (xs.drop i.toNat) else none

theorem sliceTo_sub {α : Type} {xs : List α} {m n : ℕ} (hmn : m ≤ n) (hn : n - m ≤ xs.length) :
    sliceTo xs ((n : ℤ) - m) = some (xs.take (n - m)) := by
  have hto : ((n : ℤ) - m).toNat = n - m := by omega
  unfold sliceTo
  rw [if_pos ⟨by omega, by omega⟩, hto]

theorem sliceFrom_sub {α : Type} {xs : List α} {m n : ℕ} (hmn : m ≤ n) (hn : n - m ≤ xs.length) :
    sliceFrom xs ((n : ℤ) - m) = some (xs.drop (n - m)) := by
  have hto : ((n : ℤ) - m).toNat = n - m := by omega
  unfold sliceFrom
  rw [if_pos ⟨by omega, by omega⟩, hto]

namespace Outbox

/-- `ack` with the slices as Go checks them. -/
def ackGo (o : Outbox) (n : ℕ) : Option Outbox :=
  if n ≤ o.acked ∨ o.last < n then some o
  else
    let drop : ℤ := n - o.acked
    (sliceTo o.events drop).bind fun dropped =>
      (sliceFrom o.events drop).map fun kept =>
        { o with
          size := o.size - (dropped.map AgentEvent.size).sum
          events := kept
          acked := n }

/-- How a round of the loop of `after` ends. -/
inductive Round
  | panics
  | waits
  | fails (e : ReplayError)
  | cancelled
  | returns (events : List AgentEvent)
deriving DecidableEq, Repr

/-- A round of the loop of `after`, with the slice as Go checks it; `done` tells whether the
context is. -/
def afterGo (o : Outbox) (cursor : ℕ) (done : Bool) : Round :=
  match o.check cursor with
  | .error e => .fails e
  | .ok () =>
    if cursor < o.last then
      match sliceFrom o.events ((cursor : ℤ) - o.acked) with
      | none => .panics
      | some events => .returns events
    else if done then .cancelled
    else .waits

/-! ## The window -/

/-- What the outbox holds. -/
structure Window (o : Outbox) : Prop where
  seqs : o.events.map AgentEvent.seq = List.range' (o.acked + 1) (o.last - o.acked)
  acked_le : o.acked ≤ o.last
  size : o.size = (o.events.map AgentEvent.size).sum

theorem Window.length (h : o.Window) : o.events.length = o.last - o.acked := by
  have hlen := congrArg List.length h.seqs
  rwa [List.length_map, List.length_range'] at hlen

/-- What is left after dropping up to an event that is not acked. -/
theorem Window.seqs_drop (h : o.Window) {n : ℕ} (hn : o.acked ≤ n) :
    (o.events.drop (n - o.acked)).map AgentEvent.seq = List.range' (n + 1) (o.last - n) := by
  have hfirst : o.acked + 1 + (n - o.acked) = n + 1 := by omega
  have hcount : o.last - o.acked - (n - o.acked) = o.last - n := by omega
  rw [List.map_drop, h.seqs, List.drop_range', Nat.mul_one, hfirst, hcount]

theorem window_new (max : ℕ) : Window { max } := ⟨rfl, Nat.le_refl 0, rfl⟩

theorem Window.append {o' : Outbox} (h : o.Window) {turnId : String} {payload : AgentPayload}
    {size : ℕ} {urgent : Bool} (ha : o.append turnId payload size urgent = some o') :
    o'.Window := by
  unfold Outbox.append at ha
  split at ha
  · nomatch ha
  · obtain rfl := Option.some.inj ha
    have hle := h.acked_le
    constructor
    · show (o.events ++ [_]).map AgentEvent.seq = List.range' (o.acked + 1) (o.last + 1 - o.acked)
      have hlen : o.last + 1 - o.acked = (o.last - o.acked) + 1 := by omega
      have hlast : o.acked + 1 + (o.last - o.acked) = o.last + 1 := by omega
      rw [List.map_append, h.seqs, hlen, List.range'_concat, Nat.one_mul, hlast]
      rfl
    · show o.acked ≤ o.last + 1
      omega
    · show o.size + size = ((o.events ++ [_]).map AgentEvent.size).sum
      rw [List.map_append, List.sum_append, h.size]
      rfl

theorem Window.ack (h : o.Window) (n : ℕ) : (o.ack n).Window := by
  unfold Outbox.ack
  split
  · exact h
  · rename_i hn
    have hle := h.acked_le
    constructor
    · exact h.seqs_drop (by omega)
    · show n ≤ o.last
      omega
    · show o.size - ((o.events.take (n - o.acked)).map AgentEvent.size).sum =
        ((o.events.drop (n - o.acked)).map AgentEvent.size).sum
      have hsplit : (o.events.map AgentEvent.size).sum =
          ((o.events.take (n - o.acked)).map AgentEvent.size).sum +
            ((o.events.drop (n - o.acked)).map AgentEvent.size).sum := by
        rw [← List.sum_append, ← List.map_append, List.take_append_drop]
      rw [h.size]
      omega

theorem Window.release (h : o.Window) : o.release.Window :=
  ⟨h.seqs, h.acked_le, h.size⟩

/-- The slices of `ack` are in range. -/
theorem Window.ackGo (h : o.Window) (n : ℕ) : o.ackGo n = some (o.ack n) := by
  unfold Outbox.ackGo Outbox.ack
  have hlen := h.length
  split
  · rfl
  · have hacked : o.acked ≤ n := by omega
    have hin : n - o.acked ≤ o.events.length := by omega
    dsimp only
    rw [sliceTo_sub hacked hin, sliceFrom_sub hacked hin]
    rfl

theorem le_ack (o : Outbox) (n : ℕ) : o.acked ≤ (o.ack n).acked := by
  unfold Outbox.ack
  split
  · exact Nat.le_refl _
  · show o.acked ≤ n
    omega

/-- `after` does not panic, and what it returns are the events after the cursor. -/
theorem Window.afterGo (h : o.Window) (cursor : ℕ) (done : Bool) :
    o.afterGo cursor done ≠ .panics ∧ ∀ events, o.afterGo cursor done = .returns events →
      events.map AgentEvent.seq = List.range' (cursor + 1) (o.last - cursor) ∧
        events <:+ o.events := by
  unfold Outbox.afterGo check
  have hlen := h.length
  split
  · exact ⟨nofun, nofun⟩
  · rename_i hcheck
    split at hcheck
    · nomatch hcheck
    · split
      · have hacked : o.acked ≤ cursor := by omega
        rw [sliceFrom_sub hacked (by omega)]
        refine ⟨nofun, fun events hev => ?_⟩
        obtain rfl := Round.returns.inj hev
        exact ⟨h.seqs_drop hacked, List.drop_suffix ..⟩
      · split <;> exact ⟨nofun, nofun⟩

end Outbox

/-! ## Runs -/

/-- An outbox and the numbers of the events that were urgent. -/
structure Held where
  out : Outbox
  urgent : List ℕ := []
deriving DecidableEq, Repr

variable {s t : Held}

/-- A call of the outbox. A call of `append` that has to wait is one that is made later, and a
call of `after` is one round of its loop. -/
inductive OutboxCall
  | append (turnId : String) (payload : AgentPayload) (size : ℕ) (urgent : Bool)
  | ack (n : ℕ)
  | release
  | after (cursor : ℕ) (done : Bool)
deriving DecidableEq, Repr

namespace Held

def init (configured : ℤ) : Held := { out := { max := outboxLimit configured } }

def step (s : Held) : OutboxCall → Option Held
  | .append turnId payload size urgent =>
    (s.out.append turnId payload size urgent).map fun out =>
      { out, urgent := if urgent then s.urgent ++ [out.last] else s.urgent }
  | .ack n => some { s with out := s.out.ack n }
  | .release => some { s with out := s.out.release }
  | .after _ _ => some s

def isUrgent (s : Held) (ev : AgentEvent) : Bool := ev.seq ∈ s.urgent

/-- The sizes of the urgent events that are held. -/
def urgentSize (s : Held) : ℕ := ((s.out.events.filter s.isUrgent).map AgentEvent.size).sum

/-- The size of the newest event that is held and not urgent. -/
def plainSize (s : Held) : ℕ :=
  ((s.out.events.reverse.find? fun ev => !s.isUrgent ev).map AgentEvent.size).getD 0

theorem window_step (h : s.out.Window) {c : OutboxCall} (hs : s.step c = some t) :
    t.out.Window := by
  cases c with
  | append turnId payload size urgent =>
    obtain ⟨out, ha, rfl⟩ := Option.map_eq_some_iff.1 hs
    exact h.append ha
  | ack n =>
    obtain rfl := Option.some.inj hs
    exact h.ack n
  | release =>
    obtain rfl := Option.some.inj hs
    exact h.release
  | after cursor done =>
    obtain rfl := Option.some.inj hs
    exact h

/-! ## The size before the release -/

/-- Before the release every event that is not urgent found the outbox below its maximum; what is
held before it has only become less since. -/
structure Admitted (s : Held) : Prop where
  positive : 0 < s.out.max
  below : s.out.opened = false → ∀ front ev rest, s.out.events = front ++ ev :: rest →
    s.isUrgent ev = false → (front.map AgentEvent.size).sum < s.out.max

theorem admitted_init (configured : ℤ) : (init configured).Admitted where
  positive := outboxLimit_pos configured
  below _ front ev rest hev := by
    have hnil : ([] : List AgentEvent) = front ++ ev :: rest := hev
    have := congrArg List.length hnil
    simp at this

theorem admitted_append (hw : s.out.Window) (h : s.Admitted) {turnId : String}
    {payload : AgentPayload} {size : ℕ} {urgent : Bool}
    (hs : s.step (.append turnId payload size urgent) = some t) : t.Admitted := by
  obtain ⟨out, ha, rfl⟩ := Option.map_eq_some_iff.1 hs
  unfold Outbox.append at ha
  split at ha
  · nomatch ha
  rename_i hfull
  obtain rfl := Option.some.inj ha
  refine ⟨h.positive, fun hopen front ev rest hev hplain => ?_⟩
  have hold : s.isUrgent ev = false := by
    unfold isUrgent at hplain ⊢
    simp only [decide_eq_false_iff_not] at hplain ⊢
    intro hmem
    apply hplain
    split
    · exact List.mem_append_left _ hmem
    · exact hmem
  -- the event is the new one, or it was held before
  rcases split_concat hev with ⟨rfl, hev', -⟩ | ⟨rest', -, hsplit⟩
  · cases urgent with
    | true =>
      unfold isUrgent at hplain
      simp only [hev', if_true, List.mem_append, List.mem_singleton, or_true, decide_true] at hplain
      nomatch hplain
    | false =>
      have hopen' : s.out.opened = false := hopen
      have hlt : ¬ s.out.max ≤ s.out.size := by simpa [hopen'] using hfull
      rw [← hw.size]
      show s.out.size < s.out.max
      omega
  · exact h.below hopen front ev rest' hsplit hold

theorem admitted_ack (h : s.Admitted) (n : ℕ) : Admitted { s with out := s.out.ack n } := by
  unfold Outbox.ack
  split
  · exact h
  · refine ⟨h.positive, fun hopen front ev rest hev hplain => ?_⟩
    have hsplit : s.out.events =
        (s.out.events.take (n - s.out.acked) ++ front) ++ ev :: rest := by
      have hev' : s.out.events.drop (n - s.out.acked) = front ++ ev :: rest := hev
      rw [List.append_assoc, ← hev', List.take_append_drop]
    have hlt := h.below hopen _ ev rest hsplit hplain
    rw [List.map_append, List.sum_append] at hlt
    show (front.map AgentEvent.size).sum < s.out.max
    omega

theorem admitted_step (hw : s.out.Window) (h : s.Admitted) {c : OutboxCall}
    (hs : s.step c = some t) : t.Admitted := by
  cases c with
  | append turnId payload size urgent => exact admitted_append hw h hs
  | ack n =>
    obtain rfl := Option.some.inj hs
    exact admitted_ack h n
  | release =>
    obtain rfl := Option.some.inj hs
    exact ⟨h.positive, nofun⟩
  | after cursor done =>
    obtain rfl := Option.some.inj hs
    exact h

theorem Admitted.size_lt (hw : s.out.Window) (h : s.Admitted) (hopen : s.out.opened = false) :
    s.out.size < s.out.max + s.plainSize + s.urgentSize := by
  have hpos := h.positive
  unfold plainSize urgentSize
  rw [hw.size]
  cases hfind : s.out.events.reverse.find? fun ev => !s.isUrgent ev with
  | none =>
    -- all that is held is urgent
    have hall : s.out.events.filter s.isUrgent = s.out.events := by
      rw [List.filter_eq_self]
      intro ev hev
      have := List.find?_eq_none.1 hfind ev (List.mem_reverse.2 hev)
      simpa using this
    rw [hall]
    show _ < s.out.max + 0 + _
    omega
  | some ev =>
    obtain ⟨hplain, later, earlier, hrev, hlater⟩ := List.find?_eq_some_iff_append.1 hfind
    have hsplit : s.out.events = earlier.reverse ++ ev :: later.reverse := by
      have := congrArg List.reverse hrev
      simpa using this
    have hbelow := h.below hopen _ _ _ hsplit (by simpa using hplain)
    have hurgent : later.reverse.filter s.isUrgent = later.reverse := by
      rw [List.filter_eq_self]
      intro ev' hev'
      simpa using hlater ev' (List.mem_reverse.1 hev')
    have hsum : (later.reverse.map AgentEvent.size).sum ≤
        ((s.out.events.filter s.isUrgent).map AgentEvent.size).sum := by
      rw [hsplit, List.filter_append, List.filter_cons_of_neg (by simpa using hplain), hurgent,
        List.map_append, List.sum_append]
      omega
    have htotal : (s.out.events.map AgentEvent.size).sum =
        (earlier.reverse.map AgentEvent.size).sum +
        (ev.size + (later.reverse.map AgentEvent.size).sum) := by
      rw [hsplit, List.map_append, List.sum_append, List.map_cons, List.sum_cons]
    show _ < s.out.max + ev.size + _
    omega

end Held

/-- In every run of calls on an outbox: what is held is the window from `acked + 1` to `last`, with
its size; no slice of `ack` and `after` is out of range; `acked` does not go down; `after` returns
what follows its cursor; and before the release an event that is not urgent is only admitted below
the maximum, which bounds what is held. -/
theorem outbox_window {configured : ℤ} {s : Held}
    (h : Reach Held.step (fun _ _ => True) (Held.init configured) s) :
    (s.out.events.map AgentEvent.seq = List.range' (s.out.acked + 1) (s.out.last - s.out.acked) ∧
      s.out.acked ≤ s.out.last ∧ s.out.size = (s.out.events.map AgentEvent.size).sum) ∧
    (∀ n, s.out.ackGo n = some (s.out.ack n)) ∧
    (∀ c t, s.step c = some t → s.out.acked ≤ t.out.acked) ∧
    (∀ cursor done, s.out.afterGo cursor done ≠ .panics ∧
      ∀ events, s.out.afterGo cursor done = .returns events →
        events.map AgentEvent.seq = List.range' (cursor + 1) (s.out.last - cursor) ∧
          events <:+ s.out.events) ∧
    (s.out.opened = false →
      (∀ turnId payload size, (s.out.append turnId payload size false).isSome = true →
        s.out.size < s.out.max) ∧
      s.out.size < s.out.max + s.plainSize + s.urgentSize) := by
  have hinv : s.out.Window ∧ s.Admitted := by
    apply h.invariant fun s => s.out.Window ∧ s.Admitted
    · exact ⟨Outbox.window_new _, Held.admitted_init configured⟩
    · intro a b c ha _ hs
      exact ⟨Held.window_step ha.1 hs, Held.admitted_step ha.1 ha.2 hs⟩
  obtain ⟨hw, ha⟩ := hinv
  refine ⟨⟨hw.seqs, hw.acked_le, hw.size⟩, hw.ackGo, ?_, hw.afterGo, fun hopen => ⟨?_, ?_⟩⟩
  · intro c t hs
    cases c with
    | append turnId payload size urgent =>
      obtain ⟨out, hout, rfl⟩ := Option.map_eq_some_iff.1 hs
      unfold Outbox.append at hout
      split at hout
      · nomatch hout
      · obtain rfl := Option.some.inj hout
        exact Nat.le_refl _
    | ack n =>
      obtain rfl := Option.some.inj hs
      exact Outbox.le_ack s.out n
    | release =>
      obtain rfl := Option.some.inj hs
      exact Nat.le_refl _
    | after cursor done =>
      obtain rfl := Option.some.inj hs
      exact Nat.le_refl _
  · intro turnId payload size hsome
    unfold Outbox.append at hsome
    rw [hopen] at hsome
    split at hsome
    · nomatch hsome
    · rename_i hfull
      have hlt : ¬ s.out.max ≤ s.out.size := by simpa using hfull
      omega
  · exact ha.size_lt hw hopen

/-- Two events, the first of which is acked, an urgent one and a replay. -/
def outboxCalls : List OutboxCall :=
  [.append "t" (.thought "a") 3 false, .append "t" (.thought "b") 4 false, .ack 1, .ack 9,
    .append "" (.exited 0) 2 true, .after 2 false]

theorem outbox_window_calls :
    ∃ s, Reach Held.step (fun _ _ => True) (Held.init 5) s ∧ s.out.acked = 1 ∧ s.out.last = 3 ∧
      s.out.size = 6 ∧ s.out.size < 5 + 4 + 2 := by
  have hrun : Reach Held.step (fun _ _ => True) (Held.init 5)
      ((exec Held.step (Held.init 5) outboxCalls).getD (Held.init 5)) :=
    .of_exec_getD outboxCalls (by decide)
  exact ⟨_, hrun, by decide, by decide, by decide, ((outbox_window hrun).2.2.2.2 (by decide)).2⟩

end AgentOps.Runner
