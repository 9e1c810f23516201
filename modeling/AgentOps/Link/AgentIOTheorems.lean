import AgentOps.Link.AgentIOInvariant

/-!
# The AgentIO link loses nothing

On every stream that the manager opens the sidecar sends one State and then the runner's events
from the number on that the stream was opened with, whatever the sidecar had in its channel from
earlier replays. So the manager never finds a gap, the runner never has to refuse a replay point,
and what the service records are the events of the pod in their order, each once, across drops of
streams, restarts of the sidecar and restarts of the harness.
-/

namespace AgentOps.Link.AgentIO

open AgentOps.Lib AgentOps.Runner

/-! ## The sidecar's side of a stream -/

namespace Good

variable {v : View} {j : ℕ} {x : IOStream}

/-- `relayCommands` ends. -/
theorem unrelay (g : Good v j x) : Good v j { x with relay := false, hand := none } :=
  { g with
    unopened := fun hn => by
      obtain ⟨hdown, hup, -, hoff⟩ := g.unopened hn
      exact ⟨hdown, hup, rfl, hoff⟩
    opening := fun hs => by
      obtain ⟨hup, -, hfirst⟩ := g.opening hs
      exact ⟨hup, rfl, hfirst⟩
    relayed := fun hr => by cases hr
    hand := fun f hf => by cases hf }

/-- The sidecar has no stream. -/
theorem unslot (g : Good v j x) :
    Good { v with slot := none, slotOpened := false } j { x with side := .ended } :=
  { g with
    opening := fun hs => by cases hs
    slotted := fun hs => absurd rfl hs
    run_eq := fun hj => by cases hj
    served := fun b hb => by cases hb
    others := fun _ ho => by cases ho }

/-- The sidecar sends a frame on the stream of its slot. -/
theorem sent (g : Good v j x) (hslot : v.slot = some j) {c : ℕ}
    (hc : x.openedAt = some c) {f : Frame} (hshape : Shape v.log c (x.up ++ [f]))
    (hahead : ∀ ev, f = .event ev → ∀ n ∈ v.sources, ev.seq ≤ n) :
    Good v j { x with side := .serving false, up := x.up ++ [f] } := by
  have hopen {q : Prop} (hn : x.openedAt = none) : q := by
    rw [hc] at hn
    cases hn
  exact { g with
    unopened := hopen
    opening := fun hs => by cases hs
    shape := fun c' hc' => by
      rw [hc] at hc'
      obtain rfl := Option.some.inj hc'
      exact hshape
    slotted := fun _ => hslot
    served := fun _ _ => hopen
    turn := fun hh => by
      obtain ⟨d, hd, hturn, hstage⟩ := g.turn hh
      exact ⟨d, hd, hturn, hstage.sent [f]⟩
    others := fun _ _ hne => absurd hslot hne
    ahead := fun hs n hn ev hev => by
      rcases List.mem_append.mp hev with hev | hev
      · exact g.ahead hs n hn ev hev
      · exact hahead ev (List.mem_singleton.mp hev).symm n hn }

end Good

/-! ## The service's books -/

namespace Store

variable {d : Store} {log : List AgentEvent} {streamId : String} {top : ℕ} {ev : AgentEvent}

theorem record_running (d : Store) (ev : AgentEvent) : (d.record ev).running = d.running := by
  unfold record
  split
  · split <;> rfl
  · rfl

theorem podSeq_record_le (d : Store) (ev : AgentEvent) : d.podSeq ≤ (d.record ev).podSeq := by
  unfold record
  split
  · split
    · exact Nat.le_refl _
    · exact Nat.le_max_left ..
  · exact Nat.le_max_left ..

/-- The next event of the pod is recorded, or passed over. -/
theorem Ok.record (h : d.Ok log streamId top) (hev : log[d.podSeq]? = some ev)
    (hseq : ev.seq = d.podSeq + 1) :
    (d.record ev).Ok log streamId top ∧ (d.record ev).podSeq = d.podSeq + 1 := by
  have hmax : max d.podSeq ev.seq = d.podSeq + 1 := by omega
  have hlt : d.podSeq < log.length := (List.getElem?_eq_some_iff.mp hev).1
  have htake : (log.take (d.podSeq + 1)).filter recorded = d.logged ++ [ev].filter recorded := by
    rw [List.take_add_one, hev, List.filter_append, ← h.logged]
    rfl
  unfold Store.record
  split
  next hrec =>
    rw [h.live, if_neg Bool.false_ne_true]
    refine ⟨{ h with le := ?_, logged := ?_, top_le := h.top_le.trans (Nat.le_max_left ..) }, hmax⟩
    · show max d.podSeq ev.seq ≤ log.length
      omega
    · show d.logged ++ [ev] = (log.take (max d.podSeq ev.seq)).filter recorded
      rw [hmax, htake, List.filter_cons_of_pos hrec]
      rfl
  next hrec =>
    refine ⟨{ h with le := ?_, logged := ?_, top_le := h.top_le.trans (Nat.le_max_left ..) }, hmax⟩
    · show max d.podSeq ev.seq ≤ log.length
      omega
    · show d.logged = (log.take (max d.podSeq ev.seq)).filter recorded
      rw [hmax, htake, List.filter_cons_of_neg hrec, List.filter_nil, List.append_nil]

end Store

section Inbox

variable {m : Run} {log : List AgentEvent} {d : Store} {streamId : String} {top : ℕ}
  {rest : List Frame} {p : ConsumerAt} {n : ℕ}

/-- The consumer takes a frame from the inbox, and is then at event `n`. -/
theorem Run.Ok.shift (h : m.Ok log d streamId top)
    (hfront : n + (rest.filterMap Frame.event?).length = m.front)
    (hinbox : rest.filterMap Frame.event? = slice log n m.front) (hle : m.taken ≤ n)
    (hplace : At log d streamId p n) :
    Run.Ok { m with inbox := rest, consumer := p, taken := n } log d streamId top ∧
      Run.desk { m with inbox := rest, consumer := p, taken := n } = m.desk := by
  change Run.front { m with inbox := rest, consumer := p, taken := n } = _ at hfront
  refine ⟨{ h with
    inbox := by rw [hfront]; exact hinbox
    front_le := by rw [hfront]; exact h.front_le
    place := hplace
    ready := fun k hk => ⟨(h.ready k hk).1.trans hle, (h.ready k hk).2⟩
    top_le := h.top_le.trans hle
    idle := fun hn => by rw [hfront]; exact h.idle hn }, ?_⟩
  show (⟨m.ioTurn, m.delivered, Run.front _⟩ : Desk) = _
  rw [hfront]
  rfl

/-- The consumer takes an event from the inbox. -/
theorem Run.Ok.take (h : m.Ok log d streamId top) {ev : AgentEvent}
    (hnum : ∀ n ev, log[n]? = some ev → ev.seq = n + 1) (hinbox : m.inbox = .event ev :: rest)
    (hplace : log[m.taken]? = some ev → ev.seq = m.taken + 1 →
      At log d streamId p (m.taken + 1)) :
    Run.Ok { m with inbox := rest, consumer := p, taken := ev.seq } log d streamId top ∧
      Run.desk { m with inbox := rest, consumer := p, taken := ev.seq } = m.desk := by
  have hcons : m.inbox.filterMap Frame.event? = ev :: rest.filterMap Frame.event? := by
    rw [hinbox]
    rfl
  have hslice := h.inbox
  rw [hcons] at hslice
  obtain ⟨-, hget, hrest⟩ := slice_eq_cons hslice.symm
  have hseq := hnum _ _ hget
  rw [hseq]
  refine h.shift ?_ hrest (Nat.le_succ _) (hplace hget hseq)
  show _ = m.taken + (m.inbox.filterMap Frame.event?).length
  rw [hcons, List.length_cons]
  omega

/-- The consumer takes a State from the inbox. -/
theorem Run.Ok.pass (h : m.Ok log d streamId top) {st : AgentState}
    (hinbox : m.inbox = .state st :: rest) :
    Run.Ok { m with inbox := rest } log d streamId top ∧
      Run.desk { m with inbox := rest } = m.desk := by
  have hsame : m.inbox.filterMap Frame.event? = rest.filterMap Frame.event? := by
    rw [hinbox]
    rfl
  exact h.shift (by rw [← hsame]; rfl) (hsame ▸ h.inbox) (Nat.le_refl _) h.place

end Inbox

namespace Inv

variable {s t : State} {m : Run}

/-! ### The runner -/

theorem unborn_update (h : Inv s) {r : ℕ} (hle : r ≤ s.client) (x : RunStream) (i : ℕ)
    (hi : s.client < i) : Function.update s.runs r x i = {} := by
  rw [Function.update_of_ne (by omega)]
  exact h.unborn i hi

theorem acks_update (h : Inv s) {r : ℕ} {x : RunStream} (hx : ∀ g ∈ x.toRunner, g.UpTo s.top)
    (i : ℕ) : ∀ g ∈ (Function.update s.runs r x i).toRunner, g.UpTo s.top := by
  by_cases hi : i = r
  · subst hi
    rw [Function.update_self]
    exact hx
  · rw [Function.update_of_ne hi]
    exact h.acks i

/-- A runner stream changes in which no replay is asked for. -/
theorem of_setRun (h : Inv s) {r : ℕ} {f : RunStream → RunStream} (hle : r ≤ s.client)
    (hacks : ∀ g ∈ (f (s.runs r)).toRunner, g.UpTo s.top)
    (hok : r = s.client → (f (s.runs r)).Ok s.runner.emitted s.floor)
    (hlive : r = s.client → ∀ b c up, Live s.runner.emitted (s.runs r) c b up →
      Live s.runner.emitted (f (s.runs r)) c b up)
    (hsources : r = s.client → ∀ n ∈ (f (s.runs r)).sources, ∃ k ∈ (s.runs r).sources, k ≤ n) :
    Inv (s.setRun r f) := by
  -- what the newest stream is after the step
  obtain ⟨x, hx, hnew⟩ : ∃ x, Function.update s.runs r (f (s.runs r)) s.client = x ∧
      (x = s.runs s.client ∨ r = s.client ∧ x = f (s.runs r)) := by
    by_cases hr : r = s.client
    · exact ⟨_, by rw [← hr, Function.update_self], .inr ⟨hr, rfl⟩⟩
    · exact ⟨_, Function.update_of_ne (Ne.symm hr) .., .inl rfl⟩
  exact { h with
    unborn := h.unborn_update hle _
    acks := h.acks_update hacks
    client := by
      show (Function.update s.runs r (f (s.runs r)) s.client).Ok s.runner.emitted s.floor
      rw [hx]
      rcases hnew with rfl | ⟨hr, rfl⟩
      · exact h.client
      · exact hok hr
    good := fun j => by
      have g := h.good j
      refine g.around (List.prefix_refl _) rfl (Nat.le_refl _) (Nat.le_refl _) (Nat.le_refl _)
        g.slotted g.run_eq (fun _ => rfl) g.others fun hs n hn ev hev => ?_
      change n ∈ (Function.update s.runs r (f (s.runs r)) s.client).sources at hn
      rw [hx] at hn
      rcases hnew with rfl | ⟨hr, rfl⟩
      · exact g.ahead hs n hn ev hev
      · obtain ⟨k, hk, hkn⟩ := hsources hr n hn
        exact (g.ahead hs k (by rw [hr] at hk; exact hk) ev hev).trans hkn
    slot := fun j hj => by
      refine { h.slot j hj with live := fun b c hs hc => ?_ }
      have hl := (h.slot j hj).live b c hs hc
      show Live s.runner.emitted (Function.update s.runs r (f (s.runs r)) s.client) c b _
      rw [hx]
      rcases hnew with rfl | ⟨hr, rfl⟩
      · exact hl
      · rw [← hr] at hl
        exact hlive hr b c _ hl }

/-- A runner stream changes in what the sidecar does not see. -/
theorem of_keeps (h : Inv s) {r : ℕ} {f : RunStream → RunStream} (hle : r ≤ s.client)
    (hacks : ∀ g ∈ (f (s.runs r)).toRunner, g.UpTo s.top) (hk : Keeps (s.runs r) (f (s.runs r)))
    (hfeed : r = s.client → ∀ g, (f (s.runs r)).feed = some g → g.Ok s.runner.emitted) :
    Inv (s.setRun r f) := by
  refine h.of_setRun hle hacks (fun hr => ?_) (fun _ b c up hl => hl.keeps hk)
    fun _ n hn => ⟨n, hk.sources.subset hn, Nat.le_refl n⟩
  have hclient := h.client
  rw [← hr] at hclient
  exact hclient.keeps hk (hfeed hr)

/-- The runner's session changes, and may emit events. -/
theorem of_runner (h : Inv s) {x : Session} (hkept : x.Kept) (hacked : x.out.acked ≤ s.top)
    (hgrow : s.runner.emitted <+: x.emitted) : Inv { s with runner := x } := by
  obtain ⟨more, hmore⟩ := hgrow
  have hlen : s.runner.emitted.length ≤ x.emitted.length := by
    rw [← hmore, List.length_append]
    omega
  exact { h with
    kept := hkept
    acked := hacked
    client := by
      show (s.runs s.client).Ok x.emitted s.floor
      rw [← hmore]
      exact h.client.grow
    good := fun j =>
      let g := h.good j
      g.around ⟨more, hmore⟩ rfl (Nat.le_refl _) (Nat.le_refl _) (Nat.le_refl _) g.slotted
        g.run_eq (fun _ => rfl) g.others g.ahead
    slot := fun j hj => by
      refine ⟨fun c hs hc => ?_, fun b c hs hc => ?_⟩
      · obtain ⟨hle, hc⟩ := (h.slot j hj).opens c hs hc
        exact ⟨hle, hc.trans hlen⟩
      · show Live x.emitted (s.runs s.client) c b _
        rw [← hmore]
        exact ((h.slot j hj).live b c hs hc).grow
    store := fun hrun => by
      have hd := h.store hrun
      refine { hd with le := hd.le.trans hlen, logged := ?_ }
      rw [← hmore, List.take_append_of_le_length hd.le]
      exact hd.logged
    run := fun m hm => by
      have hok := h.run m hm
      refine { hok with inbox := ?_, front_le := hok.front_le.trans hlen, place := ?_ }
      · rw [← hmore, slice_append_right hok.front_le]
        exact hok.inbox
      · rw [← hmore]
        exact hok.place.grow }

/-- A stream that was replaced returns quietly, and the newest one is not refused. -/
theorem of_refuse (h : Inv s) {r : ℕ} (hle : r ≤ s.client) (hne : r ≠ s.client) (e : ReplayError) :
    Inv (s.refuse r e) := by
  unfold State.refuse
  rw [if_neg hne]
  exact h.of_setRun hle (h.acks r) (fun hr => absurd hr hne) (fun hr => absurd hr hne)
    (fun hr => absurd hr hne)

/-- A runner stream with a feed or a frame was opened. -/
theorem le_client (h : Inv s) {r : ℕ} (hne : s.runs r ≠ {}) : r ≤ s.client := by
  by_contra hlt
  exact hne (h.unborn r (by omega))

/-- The loop of `Run` takes a frame that asks for no replay. -/
theorem of_taken (h : Inv s) {r : ℕ} {frame : ClientFrame} {rest : List ClientFrame}
    (hframe : frame.point = none) (hqueue : (s.runs r).toRunner = frame :: rest) :
    Inv (s.setRun r fun x => { x with toRunner := rest }) := by
  refine h.of_keeps (h.le_client fun hn => by rw [hn] at hqueue; cases hqueue) (fun g hg => ?_)
    (keeps_taken hframe hqueue) fun hr g hg => ?_
  · exact h.acks r g (by rw [hqueue]; exact List.mem_cons_of_mem _ hg)
  · subst hr
    exact h.client.feed g hg

theorem runner (h : Inv s) {l : RunnerLabel} (hs : runnerStep s l = some t) : Inv t := by
  have htop : s.runner.out.acked ≤ s.floor := h.acked.trans h.top_le
  -- where the feed of the newest stream is
  have hcursor {f : Feed} (hf : (s.runs s.client).feed = some f) :
      s.runner.out.after f.cursor = if f.cursor < s.runner.emitted.length then
        some (.ok (slice s.runner.emitted f.cursor s.runner.emitted.length)) else none := by
    obtain ⟨hfloor, hlen⟩ := h.client.sources f.cursor (by simp [RunStream.sources, hf])
    exact h.kept.after (htop.trans hfloor) hlen
  have hfed {r : ℕ} {f : Feed} (hf : (s.runs r).feed = some f) : r ≤ s.client :=
    h.le_client fun hn => by rw [hn] at hf; cases hf
  have hlooping {r after : ℕ} (hloop : (s.runs r).loop = .stopping after) : r ≤ s.client :=
    h.le_client fun hn => by rw [hn] at hloop; cases hloop
  -- the newest stream asks for nothing before the floor
  have hpoint {r after : ℕ} (hloop : (s.runs r).loop = .stopping after) (hr : r = s.client) :
      s.floor ≤ after ∧ after ≤ s.runner.emitted.length := by
    subst hr
    exact h.client.sources after (by simp [RunStream.sources, RunStream.points, hloop, Loop.points])
  revert hs
  fun_cases runnerStep s l <;> intro hs <;> try cases hs
  next l =>
    obtain ⟨x, hx, rfl⟩ := Option.map_eq_some_iff.mp hs
    have happends := step_appends hx
    refine h.of_runner (h.kept.appends happends) ?_ ?_
    · cases happends with
      | nothing _ hacked => rw [hacked]; exact h.acked
      | one _ _ _ hacked => rw [hacked]; exact h.acked
    · cases happends with
      | nothing _ _ _ hemitted => rw [hemitted]
      | one _ _ _ _ _ hemitted => rw [hemitted]; exact List.prefix_append _ _
  -- `receive` of a replay point, an ack and a command
  next r after rest hqueue hloop =>
    refine h.of_keeps (h.le_client fun hn => by rw [hn] at hqueue; cases hqueue) (fun g hg => ?_)
      (keeps_stopping hloop hqueue) fun hr g hg => ?_
    · exact h.acks r g (by rw [hqueue]; exact List.mem_cons_of_mem _ hg)
    · subst hr
      obtain ⟨f, hf, rfl⟩ := Option.map_eq_some_iff.mp hg
      exact { h.client.feed f hf with }
  next r n rest hqueue hloop =>
    have hn : n ≤ s.top := h.acks r (.ack n) (by rw [hqueue]; exact List.mem_cons_self)
    refine (h.of_taken rfl hqueue).of_runner (h.kept.ack n) ?_ (List.prefix_refl _)
    show (s.runner.out.ack n).acked ≤ s.top
    unfold Outbox.ack
    split
    · exact h.acked
    · exact hn
  next r c rest hqueue hloop =>
    refine (h.of_taken rfl hqueue).of_runner (h.kept.command c) ?_ ?_
    · rw [Session.Kept.out_command]
      exact h.acked
    · rw [Session.Kept.emitted_command]
      exact List.prefix_refl _
  -- `replay`: the point is never refused on the newest stream
  next r after hfeed hloop hcheck =>
    refine h.of_keeps (hlooping hloop) (h.acks r) (keeps_fed hloop hfeed) fun hr g hg => ?_
    obtain rfl := Option.some.inj hg
    exact ⟨(slice_self _ _).symm, (hpoint hloop hr).2, fun _ => rfl⟩
  next r after hfeed hloop e hcheck =>
    refine h.of_refuse (hlooping hloop) (fun hr => ?_) e
    rw [h.kept.check (htop.trans (hpoint hloop hr).1) (hpoint hloop hr).2] at hcheck
    cases hcheck
  -- `skip`, on a stream that was replaced
  next r after hloop hne =>
    exact h.of_setRun (hlooping hloop) (h.acks r) (fun hr => absurd hr hne)
      (fun hr => absurd hr hne) (fun hr => absurd hr hne)
  next r f hfeed hstart =>
    refine h.of_keeps (hfed hfeed) (h.acks r)
      (keeps_start hfeed (Bool.not_eq_true _ ▸ hstart) _) fun hr g hg => ?_
    subst hr
    obtain rfl := Option.some.inj hg
    exact { h.client.feed f hfeed with unstarted := fun hn => by cases hn }
  -- `read`: the feed is cancelled, refused, or has a batch
  next r f hfeed hcond hafter hcancelled =>
    exact h.of_keeps (hfed hfeed) (h.acks r) (keeps_feedEnd hfeed hcond.1) fun _ g hg => by cases hg
  next r f hfeed hcond e hafter hcancelled =>
    exact h.of_keeps (hfed hfeed) (h.acks r) (keeps_feedEnd hfeed hcond.1) fun _ g hg => by cases hg
  next r f hfeed hcond e hafter hcancelled =>
    refine h.of_refuse (hfed hfeed) (fun hr => ?_) e
    subst hr
    rw [hcursor hfeed] at hafter
    split at hafter <;> cases hafter
  next r f hfeed hcond events hafter =>
    refine h.of_keeps (hfed hfeed) (h.acks r) (keeps_read hfeed events) fun hr g hg => ?_
    subst hr
    obtain rfl := Option.some.inj hg
    rw [hcursor hfeed] at hafter
    split at hafter
    · injection hafter with hafter
      injection hafter with hafter
      rw [← hafter]
      exact (h.client.feed f hfeed).read hcond.1
    · cases hafter
  next r f hfeed ev rest hbatch =>
    have hseq (hr : r = s.client) : ev.seq = f.cursor + 1 := by
      subst hr
      exact h.kept.numbered _ _ ((h.client.feed f hfeed).head hbatch).1
    refine h.of_setRun (hfed hfeed) (h.acks r) (fun hr => ?_) (fun hr b c up hl => ?_)
      fun hr n hn => ?_
    · subst hr
      exact h.client.send hfeed hbatch (hseq rfl)
    · subst hr
      exact hl.send h.client hfeed hbatch (hseq rfl)
    · rcases List.mem_cons.mp (show n ∈ ev.seq :: (s.runs r).points from hn) with rfl | hn
      · exact ⟨f.cursor, by simp [RunStream.sources, hfeed], by have := hseq hr; omega⟩
      · exact ⟨n, List.mem_append_right _ hn, Nat.le_refl n⟩
  next r hle =>
    refine h.of_setRun hle (h.acks r) (fun hr => ?_) (fun hr b c up hl => ?_)
      fun _ n hn => ⟨n, (sources_leave _).subset hn, Nat.le_refl n⟩
    · subst hr
      exact h.client.leave
    · subst hr
      exact hl.leave h.client

/-! ### The sidecar -/

/-- The sidecar has no stream. -/
theorem of_unslotted (h : Inv s) {ios : ℕ → IOStream} (alive : Bool)
    (hgood : ∀ j, Good { s.view with slot := none, slotOpened := false } j (ios j)) :
    Inv { s with ios := ios, slot := none, alive := alive } :=
  { h with
    alive := fun _ => rfl
    good := hgood
    slot := fun j hj => by cases hj }

/-- The sidecar asks for a replay or takes a frame of the newest runner stream, and changes the
stream of its slot. -/
theorem of_slotted (h : Inv s) {j : ℕ} {x : RunStream} {y : IOStream} (hslot : s.slot = some j)
    (hacks : ∀ g ∈ x.toRunner, g.UpTo s.top) (hok : x.Ok s.runner.emitted s.floor)
    (hopened : y.openedAt = (s.ios j).openedAt) (hserving : y.side ≠ .opening)
    (hlive : ∀ b c, y.side = .serving b → y.openedAt = some c →
      Live s.runner.emitted x c b y.up)
    (hgood : Good { s.view with sources := x.sources } j y)
    (hahead : ∀ i, i ≠ j → (s.ios i).handler.serves = true → ∀ n ∈ x.sources, ∀ ev,
      .event ev ∈ (s.ios i).up → ev.seq ≤ n) :
    Inv { s with
      runs := Function.update s.runs s.client x
      ios := Function.update s.ios j y } := by
  have hself : Function.update s.runs s.client x s.client = x := Function.update_self ..
  have hview : State.view { s with
      runs := Function.update s.runs s.client x
      ios := Function.update s.ios j y } = { s.view with sources := x.sources } := by
    simp only [State.view, hself, hslot, Option.any_some, Function.update_self, hopened]
  exact { h with
    unborn := h.unborn_update (Nat.le_refl _) x
    acks := h.acks_update hacks
    client := by
      show (Function.update s.runs s.client x s.client).Ok s.runner.emitted s.floor
      rw [hself]
      exact hok
    good := by
      rw [hview]
      refine update_good hgood fun i hi => ?_
      have g := h.good i
      exact g.around (List.prefix_refl _) rfl (Nat.le_refl _) (Nat.le_refl _) (Nat.le_refl _)
        g.slotted g.run_eq (fun _ => rfl) g.others (hahead i hi)
    slot := fun i hi => by
      rw [show s.slot = some i from hi] at hslot
      obtain rfl := Option.some.inj hslot
      show Slotted _ _ (Function.update s.runs s.client x s.client) (Function.update s.ios i y i)
      rw [hself, Function.update_self]
      exact ⟨fun c hs => absurd hs hserving, hlive⟩ }

/-- A stream that the sidecar serves is that of its slot. -/
theorem slotted (h : Inv s) {j : ℕ} (hside : (s.ios j).side ≠ .ended) :
    s.slot = some j ∧ (s.ios j).run = s.client :=
  ⟨(h.good j).slotted hside, (h.good j).run_eq ((h.good j).slotted hside)⟩

theorem of_connect (h : Inv s) (halive : s.alive = true) (hslot : s.slot = none) :
    Inv { s with
      ios := Function.update s.ios s.nextIO { run := s.client, side := .opening, handler := .fresh }
      nextIO := s.nextIO + 1
      slot := some s.nextIO } := by
  have hview : State.view { s with
      ios := Function.update s.ios s.nextIO { run := s.client, side := .opening, handler := .fresh }
      nextIO := s.nextIO + 1
      slot := some s.nextIO } = { s.view with
        slot := some s.nextIO, slotOpened := false, nextIO := s.nextIO + 1 } := by
    simp only [State.view, Option.any_some, Function.update_self, Option.isSome_none]
  have hends (i : ℕ) (hside : (s.ios i).side ≠ .ended) : False := by
    have hi := (h.good i).slotted hside
    change s.slot = some i at hi
    rw [hslot] at hi
    cases hi
  exact { h with
    alive := fun ha => by
      change s.alive = false at ha
      rw [halive] at ha
      cases ha
    good := by
      rw [hview]
      refine update_good (.new _ (fun b hb => by cases hb) (fun _ => rfl)
        (fun _ => Nat.lt_succ_self _) rfl (.inr rfl) (Nat.le_refl _)) fun i hi => ?_
      have g := h.good i
      exact g.around (List.prefix_refl _) rfl (Nat.le_refl _) (Nat.le_refl _) (Nat.le_succ _)
        (fun hside => (hends i hside).elim) (fun hs => absurd (Option.some.inj hs).symm hi)
        (fun _ => rfl) (fun _ ho => by cases ho) g.ahead
    slot := fun i hi => by
      obtain rfl := Option.some.inj hi
      show Slotted _ _ _ (Function.update s.ios s.nextIO _ s.nextIO)
      rw [Function.update_self]
      exact ⟨fun c _ hc => (by cases hc), fun b c hs => by cases hs⟩ }

/-- The sidecar's stream ends. -/
theorem of_close (h : Inv s) {j : ℕ} (hside : (s.ios j).side ≠ .ended) :
    Inv { s.setStream j (fun x => { x with side := .ended }) with slot := none } := by
  have hends : Function.update s.ios j { s.ios j with side := .ended } =
      fun i => { s.ios i with side := .ended } := by
    funext i
    by_cases hi : i = j
    · subst hi
      rw [Function.update_self]
    · rw [Function.update_of_ne hi]
      -- only the stream of the slot has not ended
      have hended : (s.ios i).side = .ended := by
        by_contra hne
        have hslot := (h.slotted hside).1
        rw [(h.slotted hne).1] at hslot
        exact hi (Option.some.inj hslot)
      rw [← hended]
  have hinv := h.of_unslotted s.alive fun i => (h.good i).unslot
  rw [← hends] at hinv
  exact hinv

theorem of_die (h : Inv s) :
    Inv { s with
      alive := false
      slot := none
      ios := fun j => { s.ios j with side := .ended, relay := false, hand := none } } :=
  h.of_unslotted false fun i => (h.good i).unslot.unrelay

/-- The next sidecar joins the agent, on a runner stream of its own. -/
theorem of_join (h : Inv s) (halive : s.alive = false) :
    Inv { s with alive := true, client := s.client + 1 } := by
  have hslot := h.alive halive
  have hnew : s.runs (s.client + 1) = {} := h.unborn _ (Nat.lt_succ_self _)
  exact { h with
    unborn := fun r hr => h.unborn r (by have hr' : s.client + 1 < r := hr; omega)
    alive := fun ha => by cases ha
    client := by
      show (s.runs (s.client + 1)).Ok s.runner.emitted s.floor
      rw [hnew]
      exact .new _ _
    good := fun j => by
      have g := h.good j
      refine g.around (List.prefix_refl _) rfl (Nat.le_refl _) (Nat.le_succ _) (Nat.le_refl _)
        g.slotted (fun hj => ?_) (fun _ => rfl) g.others fun _ n hn => ?_
      · rw [show s.slot = none from hslot] at hj
        cases hj
      · change n ∈ (s.runs (s.client + 1)).sources at hn
        rw [hnew] at hn
        cases hn
    slot := fun j hj => by
      rw [hslot] at hj
      cases hj }

/-- `agentIO` gets the manager's Open and asks for a replay. -/
theorem of_opened (h : Inv s) {j c : ℕ} {streamId : String} {rest : List ManagerFrame}
    (hside : (s.ios j).side = .opening) (hdown : (s.ios j).down = .opened streamId c :: rest) :
    streamId = s.streamId ∧
      Inv ((s.setStream j fun x =>
          { x with down := rest, side := .serving true, relay := true }).setRun (s.ios j).run
        (RunStream.ask · c)) := by
  have g := h.good j
  obtain ⟨hslot, hrun⟩ := h.slotted (j := j) (by rw [hside]; intro hs; cases hs)
  obtain ⟨hup, -, hfirst⟩ := g.opening hside
  -- the manager sent it, since nothing comes on a stream that it did not open
  obtain ⟨n, hn⟩ : ∃ n, (s.ios j).openedAt = some n := by
    cases hopened : (s.ios j).openedAt with
    | none =>
      have hnil := (g.unopened hopened).1
      rw [hdown] at hnil
      cases hnil
    | some n => exact ⟨n, rfl⟩
  obtain ⟨rest', hrest, hno⟩ := hfirst n hn
  rw [hdown] at hrest
  obtain ⟨hframe, rfl⟩ := List.cons.inj hrest
  injection hframe with hid hcn
  subst hcn
  refine ⟨hid, ?_⟩
  obtain ⟨hfloor, hlen⟩ := (h.slot j hslot).opens c hside hn
  rw [hrun]
  -- whatever is served meanwhile has sent nothing
  have hnil (i : ℕ) (hi : i ≠ j) (hs : (s.ios i).handler.serves = true) : (s.ios i).up = [] := by
    refine (h.good i).others hs ?_ ?_
    · show (s.slot.any fun k => (s.ios k).openedAt.isSome) = true
      rw [hslot, Option.any_some, hn]
      rfl
    · show s.slot ≠ some i
      rw [hslot]
      exact fun hj => hi (Option.some.inj hj).symm
  have hopen {q : Prop} (hnone : (s.ios j).openedAt = none) : q := by
    rw [hn] at hnone
    cases hnone
  refine h.of_slotted hslot (fun f hf => ?_) (h.client.ask hfloor hlen) rfl (fun hs => by cases hs)
    (fun b c' hb hc' => ?_) ?_ fun i hi hs _ _ ev hev => ?_
  · rcases List.mem_append.mp hf with hf | hf
    · exact h.acks _ f hf
    · rw [List.mem_singleton.mp hf]
      trivial
  · cases hb
    change (s.ios j).openedAt = some c' at hc'
    rw [hn] at hc'
    obtain rfl := Option.some.inj hc'
    show Live _ _ _ true (s.ios j).up
    rw [hup]
    exact Live.ask _ hlen
  · exact { g with
      unopened := hopen
      opening := fun hs => by cases hs
      relayed := fun _ => hno
      down := fun f hf => g.down f (by rw [hdown]; exact List.mem_cons_of_mem _ hf)
      slotted := fun _ => hslot
      served := fun _ _ => hopen
      ahead := fun _ _ _ ev hev => by
        rw [show (s.ios j).up = [] from hup] at hev
        cases hev }
  · rw [hnil i hi hs] at hev
    cases hev

/-- The stream that the sidecar serves. -/
theorem served (h : Inv s) {j : ℕ} {b : Bool} (hside : (s.ios j).side = .serving b) :
    s.slot = some j ∧ (s.ios j).run = s.client ∧ ∃ c, (s.ios j).openedAt = some c ∧
      Live s.runner.emitted (s.runs s.client) c b (s.ios j).up := by
  obtain ⟨hslot, hrun⟩ := h.slotted (j := j) (by rw [hside]; intro hs; cases hs)
  obtain ⟨c, hc⟩ := Option.ne_none_iff_exists'.mp ((h.good j).served b hside)
  exact ⟨hslot, hrun, c, hc, (h.slot j hslot).live b c hside hc⟩

/-- The sidecar passes a frame of the runner on. -/
theorem of_forward (h : Inv s) {j c : ℕ} {b : Bool} {x : RunStream} {f : Frame}
    (hside : (s.ios j).side = .serving b) (hc : (s.ios j).openedAt = some c)
    (hlive : Live s.runner.emitted x c false ((s.ios j).up ++ [f]))
    (hok : x.Ok s.runner.emitted s.floor) (hacks : x.toRunner = (s.runs s.client).toRunner)
    (hsources : x.sources = (s.runs s.client).sources)
    (hahead : ∀ ev, f = .event ev → ∀ n ∈ x.sources, ev.seq ≤ n) :
    Inv { s with
      runs := Function.update s.runs s.client x
      ios := Function.update s.ios j
        { s.ios j with side := .serving false, up := (s.ios j).up ++ [f] } } := by
  obtain ⟨hslot, -⟩ := h.served hside
  have hview : ({ s.view with sources := x.sources } : View) = s.view := by rw [hsources]; rfl
  refine h.of_slotted hslot ?_ hok rfl (fun hs => by cases hs) (fun b c' hb hc' => ?_) ?_ ?_
  · rw [hacks]
    exact h.acks _
  · cases hb
    change (s.ios j).openedAt = some c' at hc'
    rw [hc] at hc'
    obtain rfl := Option.some.inj hc'
    exact hlive
  · rw [hview]
    rw [hsources] at hahead
    exact (h.good j).sent hslot hc hlive.shape hahead
  · intro i _ hs
    rw [hsources]
    exact (h.good i).ahead hs

/-- `relayCommands` receives a frame. -/
theorem of_hand (h : Inv s) {j : ℕ} (hrelay : (s.ios j).relay = true) {f : ManagerFrame}
    {x : ClientFrame} {rest : List ManagerFrame} (hdown : (s.ios j).down = f :: rest)
    (hx : x.point = none) (htop : f.UpTo s.top → x.UpTo s.top) :
    Inv (s.setStream j fun y => { y with down := rest, hand := some x }) := by
  have g := h.good j
  have hmem (f' : ManagerFrame) (hf' : f' ∈ rest) : f' ∈ (s.ios j).down := by
    rw [hdown]
    exact List.mem_cons_of_mem _ hf'
  refine h.of_setStream _ { g with
    unopened := fun hn => ?_
    opening := fun hside => ?_
    relayed := fun hr f' hf' => g.relayed hr f' (hmem f' hf')
    down := fun f' hf' => g.down f' (hmem f' hf')
    hand := fun f' hf' => ?_ } rfl rfl rfl
  · have hno := (g.unopened hn).2.2.1
    rw [hrelay] at hno
    cases hno
  · have hno := (g.opening hside).2.1
    rw [hrelay] at hno
    cases hno
  · obtain rfl := Option.some.inj hf'
    exact ⟨hx, htop (g.down f (by rw [hdown]; exact List.mem_cons_self))⟩

theorem sidecar (h : Inv s) {l : SidecarLabel} (hs : sidecarStep s l = some t) : Inv t := by
  revert hs
  fun_cases sidecarStep s l <;> intro hs <;> try cases hs
  next hcond => exact h.of_connect hcond.1 hcond.2.1
  next j consumed rest hside hdown => exact (h.of_opened hside hdown).2
  next j streamId consumed rest hdown hside hne => exact absurd (h.of_opened hside hdown).1 hne
  next j f rest hno hdown hside =>
    -- the manager's first frame is its Open
    obtain ⟨-, -, hfirst⟩ := (h.good j).opening hside
    cases hopened : (s.ios j).openedAt with
    | none =>
      have hnil := ((h.good j).unopened hopened).1
      rw [hdown] at hnil
      cases hnil
    | some n =>
      obtain ⟨rest', hrest, -⟩ := hfirst n hopened
      rw [hdown] at hrest
      exact (hno _ _ (List.cons.inj hrest).1).elim
  -- `forward` of a `ReplayStart`, of an earlier replay or the last one
  next j r b st rest hqueue hside s' hlt =>
    have hr : r = s.client := (h.served hside).2.1
    rw [hr] at hqueue hlt
    rw [← Option.some.inj hs, show s' = s.setRun r _ from rfl, hr]
    exact h.of_setRun (Nat.le_refl _) (h.acks _) (fun _ => h.client.popStart hqueue)
      (fun _ b c up hl => hl.skipStart hqueue hlt) fun _ n hn => ⟨n, hn, Nat.le_refl n⟩
  next j r b st rest hqueue hside s' hge =>
    obtain ⟨hslot, hr, c, hc, hlive⟩ := h.served hside
    change r = s.client at hr
    rw [hr] at hqueue hge
    rw [show s' = s.setRun r _ from rfl, hr]
    exact h.of_forward hside hc (hlive.forwardStart h.client hqueue hge)
      (h.client.popStart hqueue) rfl rfl fun ev hev => by cases hev
  -- `forward` of an event, before the State or after it
  next j r ev rest hqueue s' hside =>
    obtain ⟨hslot, hr, c, hc, hlive⟩ := h.served hside
    change r = s.client at hr
    rw [hr] at hqueue
    rw [← Option.some.inj hs, show s' = s.setRun r _ from rfl, hr]
    have hinv := h.of_slotted (x := (s.runs s.client).popEvent rest) (y := s.ios j)
      hslot (h.acks _) (h.client.popEvent hqueue) rfl (by rw [hside]; intro hs; cases hs)
      (fun b c' hb hc' => ?_) (h.good j) fun i _ => (h.good i).ahead
    · rw [Function.update_eq_self] at hinv
      exact hinv
    · rw [hside] at hb
      cases hb
      rw [hc] at hc'
      obtain rfl := Option.some.inj hc'
      exact hlive.skipEvent hqueue
  next j r b ev rest hqueue hside s' hb =>
    obtain ⟨hslot, hr, c, hc, hlive⟩ := h.served hside
    change r = s.client at hr
    obtain rfl : b = false := Bool.not_eq_true _ ▸ hb
    rw [hr] at hqueue
    rw [show s' = s.setRun r _ from rfl, hr]
    obtain ⟨hnext, k, hget, hcursor⟩ := hlive.forwardEvent hqueue
    have hinv := h.of_forward hside hc hnext (h.client.popEvent hqueue) rfl rfl
      fun ev' hev n hn => ?_
    · rw [← hside] at hinv
      exact hinv
    · injection hev with hev
      rw [← hev, h.kept.numbered _ _ hget]
      exact hcursor n hn
  next j hside => exact h.of_close hside
  -- `relayReceive`: no Open comes after the first one
  next j hcond n rest hdown => exact h.of_hand hcond.1 hdown rfl id
  next j hcond c rest hdown => exact h.of_hand hcond.1 hdown rfl id
  next j hcond streamId n rest hdown =>
    have hno := (h.good j).relayed hcond.1 _ (by rw [hdown]; exact List.mem_cons_self)
    cases hno
  next j f hhand =>
    have g := h.good j
    obtain ⟨hpoint, htop⟩ := g.hand f hhand
    have hinv := h.of_setStream (fun x => { x with hand := none })
      { g with hand := fun f' hf' => by cases hf' } rfl rfl rfl
    refine hinv.of_keeps g.run_le (fun f' hf' => ?_) (keeps_sent hpoint) fun hr g' hg' => ?_
    · rcases List.mem_append.mp hf' with hf' | hf'
      · exact h.acks _ f' hf'
      · rw [List.mem_singleton.mp hf']
        exact htop
    · rw [hr] at hg'
      exact h.client.feed g' hg'
  next j => exact h.of_setStream _ (h.good j).unrelay rfl rfl rfl
  next => exact h.of_die
  next hdead => exact h.of_join (Bool.not_eq_true _ ▸ hdead)

/-! ### The service -/

/-- The service writes, acks and takes frames from the inbox. -/
theorem of_books (h : Inv s) (hm : s.run = some m) {m' : Run} {d : Store} {top : ℕ}
    (hok : m'.Ok s.runner.emitted d s.streamId top) (hdesk : m'.desk = m.desk)
    (htop : s.top ≤ top) (hstore : d.running = true → d.Ok s.runner.emitted s.streamId top) :
    Inv { s with run := some m', store := d, top := top } := by
  have hfront : m'.front = m.front := congrArg Desk.front hdesk
  have hfloor : State.floor { s with run := some m', store := d, top := top } = s.floor := by
    rw [floor_some hm]
    exact hfront
  exact { h with
    acks := fun r f hf => (h.acks r f hf).mono htop
    acked := h.acked.trans htop
    top_le := hok.top_le.trans m'.taken_le_front
    client := by rw [hfloor]; exact h.client
    good := fun j => by
      have g := h.good j
      refine g.around (List.prefix_refl _) rfl htop (Nat.le_refl _) (Nat.le_refl _) g.slotted
        g.run_eq (fun _ => ?_) g.others g.ahead
      rw [view_desk hm, ← hdesk]
      rfl
    slot := by rw [hfloor]; exact h.slot
    store := hstore
    run := fun m'' hm'' => by
      obtain rfl := Option.some.inj hm''
      exact hok }

/-- The service acks an event that the consumer took and that is in the store. -/
theorem of_ack (h : Inv s) (hm : s.run = some m) {seq : ℕ} {p : ConsumerAt} {ready : Option ℕ}
    (hseq : seq ≤ m.taken) (hstored : s.store.running = true → seq ≤ s.store.podSeq)
    (hplace : At s.runner.emitted s.store s.streamId p m.taken)
    (hready : ∀ n, ready = some n → m.readyAck = some n) :
    Inv { s with
      run := some { m.ack seq with consumer := p, readyAck := ready }
      top := max s.top seq } := by
  have hok := h.run m hm
  have hle := hok.top_le
  have hacked : max m.acked seq ≤ max s.top seq := by have := hok.acked; omega
  exact h.of_books hm { hok with
    place := hplace
    acked := hacked
    ready := fun n hn => hok.ready n (hready n hn)
    top_le := Nat.max_le.mpr ⟨hle, hseq⟩ } rfl (Nat.le_max_left ..) fun hrun =>
      { h.store hrun with top_le := Nat.max_le.mpr ⟨(h.store hrun).top_le, hstored hrun⟩ }

/-- The first event of the pod is in the store when the session starts to run. -/
theorem linked (h : Inv s) (hm : s.run = some m) {seq : ℕ} (hcons : m.consumer = .linking seq) :
    seq = m.taken ∧
      ((s.store.link m.streamId seq).start).Ok s.runner.emitted s.streamId s.top ∧
      (s.store.link m.streamId seq).podSeq = seq ∧ s.store.running = false := by
  have hok := h.run m hm
  have hplace := hok.place
  have htop := hok.top_le
  rw [hcons] at hplace
  generalize m.taken = n at hplace htop
  cases hplace with
  | linking ev hfirst hready hrun hid hlog =>
    have hone : (s.store.link m.streamId 1).podSeq = 1 := by
      show (if s.store.streamId = m.streamId then _ else _) = _
      rw [hok.id, if_neg hid]
    have htake : s.runner.emitted.take 1 = [ev] := by
      rw [List.take_add_one, hfirst]
      rfl
    refine ⟨rfl, ⟨hok.id, rfl, ?_, ?_, ?_⟩, hone, hrun⟩
    · show (s.store.link m.streamId 1).podSeq ≤ _
      rw [hone]
      exact (List.getElem?_eq_some_iff.mp hfirst).1
    · show s.store.logged = (s.runner.emitted.take (s.store.link m.streamId 1).podSeq).filter
        recorded
      rw [hone, htake, List.filter_cons_of_neg (by rw [hready]; exact Bool.false_ne_true), hlog]
      rfl
    · show s.top ≤ (s.store.link m.streamId 1).podSeq
      rw [hone]
      exact htop

theorem service (h : Inv s) (hm : s.run = some m) {l : ServiceLabel}
    (hs : serviceStep s m l = some t) : Inv t := by
  have hok := h.run m hm
  have hplace := hok.place
  revert hs
  fun_cases serviceStep s m l <;> intro hs <;> try cases hs
  next c => exact h.of_run hm { hok with } rfl
  next st rest hinbox hcons => exact h.of_run hm (hok.pass hinbox).1 (hok.pass hinbox).2
  next st rest hinbox hcons => exact h.of_run hm (hok.pass hinbox).1 (hok.pass hinbox).2
  -- the first event goes to `awaitReady`, the others to the log
  next ev rest hinbox hcons =>
    rw [hcons] at hplace
    have htake := hok.take h.kept.numbered hinbox fun hev hseq => hplace.ready hev hseq
    exact h.of_run hm htake.1 htake.2
  next ev rest hinbox hcons =>
    rw [hcons] at hplace
    have htake := hok.take (p := .recording ev) h.kept.numbered hinbox fun hev _ => ?_
    · exact h.of_run hm htake.1 htake.2
    · generalize m.taken = n at hplace hev ⊢
      cases hplace with
      | idle n hn => exact .recording ev n hev hn
  next ev hcons =>
    rw [hcons] at hplace
    obtain ⟨k, htaken, hev, hpod⟩ : ∃ k, m.taken = k + 1 ∧ s.runner.emitted[k]? = some ev ∧
        (s.store.running = true → s.store.podSeq = k) := by
      generalize m.taken = n at hplace
      cases hplace with
      | recording ev n hev hn => exact ⟨n, rfl, hev, hn⟩
    have hseq := h.kept.numbered _ _ hev
    have hrecord (hrun : (s.store.record ev).running = true) :
        (s.store.record ev).Ok s.runner.emitted s.streamId s.top ∧
          (s.store.record ev).podSeq = k + 1 := by
      rw [Store.record_running] at hrun
      have hk := hpod hrun
      subst hk
      exact (h.store hrun).record hev hseq
    refine h.of_books hm { hok with place := ?_, ready := fun n hn => ?_ } rfl (Nat.le_refl _)
      fun hrun => (hrecord hrun).1
    · show At _ _ _ (.acking ev.seq) m.taken
      rw [hseq, htaken]
      exact .acking (k + 1) fun hrun => (hrecord hrun).2
    · refine ⟨(hok.ready n hn).1, fun hrun => ?_⟩
      rw [Store.record_running] at hrun
      exact ((hok.ready n hn).2 hrun).trans (Store.podSeq_record_le ..)
  next seq hcons =>
    rw [hcons] at hplace
    obtain ⟨rfl, hpod⟩ : seq = m.taken ∧ (s.store.running = true → s.store.podSeq = m.taken) := by
      generalize m.taken = n at hplace
      cases hplace with
      | acking n hn => exact ⟨rfl, hn⟩
    exact h.of_ack hm (Nat.le_refl _) (fun hrun => (hpod hrun).ge) (.idle _ hpod) fun n hn => hn
  next seq hcons =>
    rw [hcons] at hplace
    obtain ⟨rfl, hno⟩ : seq = m.taken ∧ s.store.running = false := by
      generalize m.taken = n at hplace
      cases hplace with
      | failed n hrun => exact ⟨rfl, hrun⟩
    have hnever {q : Prop} (hrun : s.store.running = true) : q := by
      rw [hno] at hrun
      cases hrun
    exact h.of_ack hm (Nat.le_refl _) hnever (.stopped _ hnever) fun n hn => hn
  -- `link`: neither write, the first, or both succeed
  next seq hcons =>
    obtain ⟨-, -, -, hno⟩ := h.linked hm hcons
    refine h.of_run hm { hok with place := .idle _ fun hrun => ?_ } rfl
    rw [hno] at hrun
    cases hrun
  next seq hcons =>
    obtain ⟨-, -, -, hno⟩ := h.linked hm hcons
    have hnever {q : Prop} (hrun : (s.store.link m.streamId seq).running = true) : q := by
      change s.store.running = true at hrun
      rw [hno] at hrun
      cases hrun
    exact h.of_books hm { hok with
      place := .idle _ hnever
      ready := fun n hn => ⟨(hok.ready n hn).1, hnever⟩ } rfl (Nat.le_refl _) hnever
  next seq hcons =>
    obtain ⟨hseq, hd, hpod, -⟩ := h.linked hm hcons
    refine h.of_books hm { hok with
      place := .idle _ fun _ => hpod.trans hseq
      ready := fun n hn => ?_ } rfl (Nat.le_refl _) fun _ => hd
    obtain rfl := Option.some.inj hn
    exact ⟨hseq.le, fun _ => hpod.ge⟩
  next =>
    obtain ⟨seq, hseq, rfl⟩ := Option.map_eq_some_iff.mp hs
    obtain ⟨hle, hstored⟩ := hok.ready seq hseq
    exact h.of_ack hm hle hstored hplace fun n hn => by cases hn
  next => exact h.of_run hm { hok with place := .stopped _ hplace.podSeq_le } rfl
  next => exact h.of_run hm { hok with } rfl
  next terminal =>
    have hinv := h.of_books (d := { s.store with
        running := false, ended := s.store.ended || terminal }) hm { hok with
      place := hplace.leave rfl rfl rfl
      ready := fun n hn => ⟨(hok.ready n hn).1, fun hr => by cases hr⟩ } rfl (Nat.le_refl _)
      fun hr => by cases hr
    rw [← hm] at hinv
    exact hinv

/-! ### The harness goes and comes back -/

theorem floor_none (hm : s.run = none) :
    s.floor = if s.store.running then s.store.podSeq else s.top := by
  unfold State.floor
  rw [hm]

/-- What the harness has in its memory is of no account: it is asked for again. -/
theorem floor_crash_le (h : Inv s) (ios : ℕ → IOStream) :
    State.floor { s with run := none, ios := ios } ≤ s.floor := by
  cases hm : s.run with
  | none =>
    rw [floor_none hm]
    exact Nat.le_refl _
  | some m =>
    have hok := h.run m hm
    rw [floor_some hm]
    refine Nat.le_trans ?_ m.taken_le_front
    show (if s.store.running then s.store.podSeq else s.top) ≤ m.taken
    split
    next hrun => exact hok.place.podSeq_le hrun
    next => exact hok.top_le

theorem of_crash (h : Inv s) : Inv { s with run := none, ios := fun j => (s.ios j).orphan } := by
  have hfloor := h.floor_crash_le fun j => (s.ios j).orphan
  exact { h with
    top_le := by
      show s.top ≤ if s.store.running then s.store.podSeq else s.top
      split
      next hrun => exact (h.store hrun).top_le
      next => exact Nat.le_refl _
    client := h.client.move fun n hn => hfloor.trans (h.client.sources n hn).1
    good := fun j => by
      have g := h.good j
      exact { g with
        unopened := fun hn => by
          obtain ⟨hdown, hup, hrelay, -, hreceived⟩ := g.unopened hn
          exact ⟨hdown, hup, hrelay, rfl, hreceived⟩
        sender := trivial
        born := fun hb => by cases hb
        before := fun hb => by cases hb
        turn := fun hh => by cases hh
        others := fun hs => by cases hs
        ahead := fun hs => by cases hs }
    slot := fun j hj => by
      refine { h.slot j hj with opens := fun c hs hc => ?_ }
      obtain ⟨hle, hlen⟩ := (h.slot j hj).opens c hs hc
      exact ⟨hfloor.trans hle, hlen⟩
    run := fun m hm => by cases hm }

/-- The next harness starts where the store is. -/
theorem of_adopt (h : Inv s) (hm : s.run = none) (hrun : s.store.running = true) :
    Inv { s with
      run := some {
        streamId := s.store.streamId
        delivered := s.store.podSeq
        acked := s.store.podSeq
        consumer := .idle
        taken := s.store.podSeq }
      top := max s.top s.store.podSeq } := by
  have hd := h.store hrun
  have htop : max s.top s.store.podSeq = s.store.podSeq := Nat.max_eq_right hd.top_le
  have hfloor : s.floor = s.store.podSeq := by
    rw [floor_none hm, if_pos hrun]
  have hdesk : s.view.desk = none := by
    show s.run.map Run.desk = none
    rw [hm]
    rfl
  exact { h with
    acks := fun r f hf => (h.acks r f hf).mono (Nat.le_max_left ..)
    acked := h.acked.trans (Nat.le_max_left ..)
    top_le := htop.le
    client := by
      have hclient := h.client
      rw [hfloor] at hclient
      exact hclient
    good := fun j => by
      have g := h.good j
      refine g.around (List.prefix_refl _) rfl (Nat.le_max_left ..) (Nat.le_refl _) (Nat.le_refl _)
        g.slotted g.run_eq (fun hh => ?_) g.others g.ahead
      obtain ⟨e, he, -⟩ := g.turn hh
      rw [hdesk] at he
      cases he
    slot := fun j hj => by
      have hslot := h.slot j hj
      rw [hfloor] at hslot
      exact hslot
    store := fun _ => { hd with top_le := htop.le }
    run := fun m' hm' => by
      obtain rfl := Option.some.inj hm'
      exact {
        id := hd.id
        inbox := (slice_self _ _).symm
        front_le := hd.le
        place := .idle _ fun _ => rfl
        acked := Nat.le_max_right ..
        ready := fun n hn => by cases hn
        top_le := htop.le
        idle := fun _ => rfl } }

/-! ### Every run -/

theorem of_step (h : Inv s) {l : Label} (hs : step s l = some t) : Inv t := by
  cases l with
  | runner l => exact h.runner hs
  | sidecar l => exact h.sidecar hs
  | manager l =>
    obtain ⟨m, hm, hs⟩ := Option.bind_eq_some_iff.mp hs
    exact h.manager hm hs
  | service l =>
    obtain ⟨m, hm, hs⟩ := Option.bind_eq_some_iff.mp hs
    exact h.service hm hs
  | crash =>
    obtain rfl := Option.some.inj hs
    exact h.of_crash
  | adopt =>
    simp only [step] at hs
    split at hs
    next hcond =>
      obtain rfl := Option.some.inj hs
      exact h.of_adopt hcond.1 hcond.2
    next => cases hs

theorem of_init {streamId old : String} (podSeq : ℕ) (hne : old ≠ streamId) :
    Inv (init streamId old podSeq) where
  kept := Session.Kept.init
  ok := rfl
  unborn _ _ := rfl
  alive h := by cases h
  acks r f hf := absurd hf List.not_mem_nil
  acked := Nat.le_refl _
  top_le := Nat.le_refl _
  client := .new _ _
  good j := .new _ (fun b hb => by cases hb) (fun hs => absurd rfl hs) (fun hb => by cases hb) rfl
    (.inr rfl) (Nat.le_refl _)
  slot j hj := by cases hj
  store h := by cases h
  run m hm := by
    obtain rfl := Option.some.inj hm
    exact {
      id := rfl
      inbox := rfl
      front_le := Nat.le_refl _
      place := .opening rfl hne rfl
      acked := Nat.le_refl _
      ready := fun n hn => by cases hn
      top_le := Nat.le_refl _
      idle := fun _ => rfl }

theorem of_reach {streamId old : String} {podSeq : ℕ} (hne : old ≠ streamId)
    (h : Reach step (fun _ _ => True) (init streamId old podSeq) s) : Inv s :=
  h.invariant Inv (.of_init podSeq hne) fun hinv _ hs => hinv.of_step hs

end Inv

/-! ## Nothing is lost -/

/-- The link never breaks. The agent was spawned with a stream id that is not the one that the row
had before; then in no run does the manager see a gap, an id that is not its own, or a frame out of
place, and in none does the runner refuse a replay point on the newest runner stream. On every
stream the manager gets a State, and then the events after the number that it opened the stream
with. -/
theorem link_never_breaks {streamId old : String} {podSeq : ℕ} {s : State} (hne : old ≠ streamId)
    (h : Reach step (fun _ _ => True) (init streamId old podSeq) s) :
    s.failures = [] ∧
      ∀ j c, (s.ios j).openedAt = some c → Shape s.runner.emitted c (s.ios j).up := by
  have hinv := Inv.of_reach hne h
  exact ⟨hinv.ok, fun j c hc => (hinv.good j).shape c hc⟩

/-- A pod opens its session, is launched, and has an event recorded. -/
def launchRun : List Label := [
  .runner (.agent (.opened "acp" true)), .sidecar .connect,
  .manager (.first 0), .manager (.claim 0), .manager (.closePrev 0), .manager (.turn 0),
  .manager (.look 0), .manager (.resume 0), .manager (.openStream 0), .sidecar (.opened 0),
  .runner (.receive 0), .runner (.replay 0), .runner (.start 0), .runner (.read 0),
  .runner (.send 0), .sidecar (.forward 0), .sidecar (.forward 0),
  .manager (.receive 0), .manager (.push 0), .service .receive,
  .manager (.receive 0), .manager (.push 0), .manager (.setDelivered 0),
  .service .receive, .service (.link true true), .service .ackReady,
  .runner (.agent (.update (.thought "a plan") 1)), .runner (.read 0), .runner (.send 0),
  .sidecar (.forward 0), .manager (.receive 0), .manager (.push 0), .manager (.setDelivered 0),
  .service .receive, .service .record]

def launched : State := (exec step (init "stream" "" 0) launchRun).getD (init "stream" "" 0)

theorem reach_launched : Reach step (fun _ _ => True) (init "stream" "" 0) launched :=
  Reach.of_exec_getD launchRun (by decide +kernel)

theorem link_never_breaks_launched :
    launched.failures = [] ∧ Shape launched.runner.emitted 0 (launched.ios 0).up := by
  obtain ⟨hok, hshape⟩ := link_never_breaks (by decide) reach_launched
  exact ⟨hok, hshape 0 0 (by decide +kernel)⟩

/-- While the session runs, its log has the events of the pod up to a number, in their order and
each once, and the runner keeps the others. -/
theorem events_recorded_once {streamId old : String} {podSeq : ℕ} {s : State} (hne : old ≠ streamId)
    (h : Reach step (fun _ _ => True) (init streamId old podSeq) s)
    (hrun : s.store.running = true) :
    s.store.logged = (s.runner.emitted.take s.store.podSeq).filter recorded ∧
      s.runner.emitted.drop s.store.podSeq <:+ s.runner.out.events := by
  have hinv := Inv.of_reach hne h
  have hd := hinv.store hrun
  refine ⟨hd.logged, ?_⟩
  rw [hinv.kept.events]
  exact List.drop_suffix_drop_left _ (hinv.acked.trans hd.top_le)

theorem events_recorded_once_launched :
    launched.store.running = true ∧
      launched.store.logged =
        (launched.runner.emitted.take launched.store.podSeq).filter recorded ∧
      launched.runner.emitted.drop launched.store.podSeq <:+ launched.runner.out.events := by
  have hrun : launched.store.running = true := by decide +kernel
  exact ⟨hrun, events_recorded_once (by decide) reach_launched hrun⟩

end AgentOps.Link.AgentIO
