import AgentOps.Lib.Slice
import AgentOps.Runner.Turns

/-!
# The events of a runner as a stream

The events of a runner are numbered from one on, without a gap, and the outbox holds those that
are not acked.
-/

namespace AgentOps.Runner

open AgentOps.Link

/-- What a step does to the outbox and to the events. -/
inductive Appends (s t : Session) : Prop
  | nothing (hevents : t.out.events = s.out.events) (hacked : t.out.acked = s.out.acked)
      (hlast : t.out.last = s.out.last) (hemitted : t.emitted = s.emitted)
  | one (ev : AgentEvent) (hseq : ev.seq = s.out.last + 1)
      (hevents : t.out.events = s.out.events ++ [ev]) (hacked : t.out.acked = s.out.acked)
      (hlast : t.out.last = s.out.last + 1) (hemitted : t.emitted = s.emitted ++ [ev])

theorem emit_appends {s t : Session} {turnId : String} {payload : AgentPayload} {urgent : Bool}
    {size : ℕ} (h : s.emit turnId payload urgent size = some t) : Appends s t := by
  unfold Session.emit Outbox.append at h
  rw [Option.map_eq_some_iff] at h
  obtain ⟨out, hout, rfl⟩ := h
  split at hout
  · cases hout
  · obtain rfl := Option.some.inj hout
    exact .one ⟨s.out.last + 1, turnId, payload, size⟩ rfl rfl rfl rfl rfl

theorem step_appends {s t : Session} {l : Session.Label} (h : s.step l = some t) :
    Appends s t := by
  -- the place that a step sets before it emits is none of what is compared
  have hemit {s' : Session} (hs' : Appends s' t) (hout : s'.out = s.out)
      (hemitted : s'.emitted = s.emitted) : Appends s t := by
    cases hs' with
    | nothing h1 h2 h3 h4 =>
      exact .nothing (by rw [h1, hout]) (by rw [h2, hout]) (by rw [h3, hout]) (by rw [h4, hemitted])
    | one ev h0 h1 h2 h3 h4 =>
      exact .one ev (by rw [h0, hout]) (by rw [h1, hout]) (by rw [h2, hout]) (by rw [h3, hout])
        (by rw [h4, hemitted])
  have hquiet (hout : t.out = s.out ∨ t.out = s.out.release) (hemitted : t.emitted = s.emitted) :
      Appends s t := by
    rcases hout with hout | hout
    · exact .nothing (by rw [hout]) (by rw [hout]) (by rw [hout]) hemitted
    · exact .nothing (by rw [hout]; rfl) (by rw [hout]; rfl) (by rw [hout]; rfl) hemitted
  cases l with
  | opened | openFailed | usage | exitEvent | turnFinished | drain | update | emitPermission =>
    simp only [Session.step] at h
    split at h
    · exact hemit (emit_appends h) rfl rfl
    · cases h
  | returned | clear | begin | ask | addPermission =>
    simp only [Session.step] at h
    split at h
    · obtain rfl := Option.some.inj h
      exact hquiet (.inl rfl) rfl
    · cases h
  | finish =>
    simp only [Session.step] at h
    split at h
    · split at h
      · obtain rfl := Option.some.inj h
        exact hquiet (.inl rfl) rfl
      · cases h
    · cases h
  | nextTurn =>
    simp only [Session.step] at h
    split at h
    · split at h
      · obtain rfl := Option.some.inj h
        exact hquiet (.inl rfl) rfl
      · split at h
        · obtain rfl := Option.some.inj h
          exact hquiet (.inl rfl) rfl
        · cases h
    · cases h
  | exit =>
    obtain rfl := Option.some.inj h
    exact hquiet (.inr rfl) rfl
  | drained | dropPermission =>
    obtain rfl := Option.some.inj h
    exact hquiet (.inl rfl) rfl

/-- The outbox of a runner and the events that it emitted. -/
structure Session.Kept (s : Session) : Prop where
  events : s.out.events = s.emitted.drop s.out.acked
  acked_le : s.out.acked ≤ s.out.last
  last : s.out.last = s.emitted.length
  numbered : ∀ i ev, s.emitted[i]? = some ev → ev.seq = i + 1

namespace Session.Kept

variable {s t : Session}

theorem init : Kept {} := ⟨rfl, Nat.le_refl 0, rfl, by simp⟩

theorem appends (h : s.Kept) (ha : Appends s t) : t.Kept := by
  cases ha with
  | nothing hevents hacked hlast hemitted =>
    refine ⟨?_, ?_, ?_, ?_⟩
    · rw [hevents, hacked, hemitted, h.events]
    · rw [hacked, hlast]
      exact h.acked_le
    · rw [hlast, hemitted, h.last]
    · rw [hemitted]
      exact h.numbered
  | one ev hseq hevents hacked hlast hemitted =>
    have hle := h.acked_le
    have hlen := h.last
    refine ⟨?_, ?_, ?_, ?_⟩
    · rw [hevents, hacked, hemitted, h.events, List.drop_append_of_le_length (by omega)]
    · rw [hacked, hlast]
      omega
    · rw [hlast, hemitted, h.last, List.length_append, List.length_singleton]
    · intro i e hi
      rw [hemitted] at hi
      by_cases hlt : i < s.emitted.length
      · rw [List.getElem?_append_left hlt] at hi
        exact h.numbered i e hi
      · rw [List.getElem?_append_right (by omega)] at hi
        obtain ⟨hone, rfl⟩ := List.getElem?_eq_some_iff.mp hi
        rw [List.length_singleton] at hone
        rw [List.getElem_singleton, hseq]
        omega

theorem ack (h : s.Kept) (n : ℕ) : Session.Kept { s with out := s.out.ack n } := by
  refine ⟨?_, ?_, ?_, h.numbered⟩
  · show (s.out.ack n).events = s.emitted.drop (s.out.ack n).acked
    unfold Outbox.ack
    split
    · exact h.events
    · have hsum : s.out.acked + (n - s.out.acked) = n := by omega
      show s.out.events.drop (n - s.out.acked) = s.emitted.drop n
      rw [h.events, List.drop_drop, hsum]
  · show (s.out.ack n).acked ≤ (s.out.ack n).last
    unfold Outbox.ack
    split
    · exact h.acked_le
    · show n ≤ s.out.last
      omega
  · show (s.out.ack n).last = s.emitted.length
    rw [← h.last]
    unfold Outbox.ack
    split <;> rfl

theorem command (h : s.Kept) (c : Command) : (s.command c).Kept := by
  cases c with
  | prompt p =>
    simp only [Session.command, Session.prompt]
    split
    · exact h
    · split
      · exact h
      · exact ⟨h.events, h.acked_le, h.last, h.numbered⟩
  | permission d => exact ⟨h.events, h.acked_le, h.last, h.numbered⟩

theorem emitted_command (s : Session) (c : Command) : (s.command c).emitted = s.emitted := by
  cases c with
  | prompt p =>
    simp only [Session.command, Session.prompt]
    split
    · rfl
    · split <;> rfl
  | permission d => rfl

theorem out_command (s : Session) (c : Command) : (s.command c).out = s.out := by
  cases c with
  | prompt p =>
    simp only [Session.command, Session.prompt]
    split
    · rfl
    · split <;> rfl
  | permission d => rfl

theorem check (h : s.Kept) {cursor : ℕ} (hacked : s.out.acked ≤ cursor)
    (hlast : cursor ≤ s.emitted.length) : s.out.check cursor = .ok () := by
  unfold Outbox.check
  rw [if_neg (by omega), if_neg (by rw [h.last]; omega)]

/-- What `after` returns are the events after the cursor. -/
theorem after (h : s.Kept) {cursor : ℕ} (hacked : s.out.acked ≤ cursor)
    (hlast : cursor ≤ s.emitted.length) :
    s.out.after cursor = if cursor < s.emitted.length then
      some (.ok (Lib.slice s.emitted cursor s.emitted.length)) else none := by
  have hsum : s.out.acked + (cursor - s.out.acked) = cursor := by omega
  unfold Outbox.after
  rw [h.check hacked hlast]
  dsimp only
  rw [h.last, h.events, List.drop_drop, hsum, Lib.slice_length]

end Session.Kept

end AgentOps.Runner
