import AgentOps.Lib.Machine
import Mathlib.Data.Nat.Notation

/-!
# The tunnel-lost timer

`Attach`, `claim`, `serveAttach` and `release` of `agentlink/server.go`, `notifyAttached` of
`run.go`, and the callbacks of `sandbox/orchestrator.go` that start and cancel the grace timer,
for one run and any number of control streams. A stream is served by one goroutine, and its attach
notification runs in another one; `run.mu` is held for single steps only, and `notifyMu` over a
notification and over a release. The loop of a stream may end at any time: the reasons for it are
left out.
-/

namespace AgentOps.Link.Grace

open AgentOps.Lib

variable {i : ℕ} {mu : Option ℕ}

/-- Where the attach notification of a stream is. -/
inductive Notify
  /-- The hello ack was not sent. -/
  | none
  /-- The goroutine waits for `notifyMu`. -/
  | waiting
  | inside
  /-- `OnAttached` returned. -/
  | called
  | done
deriving DecidableEq

/-- Where the goroutine that serves a stream is. -/
inductive Serve
  | serving
  /-- The loop of `serveAttach` was left. -/
  | ended
  /-- `release` waits for `notifyMu`. -/
  | closing
  | locked
  /-- The stream was the live one, and `OnLost` comes next. -/
  | lost
  | leaving
  | released
deriving DecidableEq

/-- `attachStream`, with the goroutines that belong to it. -/
structure Stream where
  lastRecv : ℕ
  notify : Notify := .none
  serve : Serve := .serving
deriving DecidableEq

variable {x : Stream}

/-- How far `Attachment.Forget` came. -/
inductive Forget
  | none
  | marked
  | cancelled
  | finished
deriving DecidableEq

/-- `attachedRun` and its `Attachment`. `armed` says that there is a grace timer. -/
structure Run where
  hbInterval : ℕ
  adopted : Bool
  now : ℕ := 0
  live : Option ℕ := none
  notifyMu : Option ℕ := none
  streams : ℕ → Option Stream := fun _ => none
  armed : Bool := false
  attached : Bool := false
  forget : Forget := .none

variable {s t : Run}

/-- The run when it is expected: an adopted one starts with the timer. -/
def Run.init (hbInterval : ℕ) (adopted : Bool) : Run where
  hbInterval := hbInterval
  adopted := adopted
  armed := adopted

def Run.setStream (s : Run) (i : ℕ) (x : Stream) : Run :=
  { s with streams := Function.update s.streams i (some x) }

/-- The steps. -/
inductive Label
  | tick (n : ℕ)
  | claim (i : ℕ)
  | recv (i : ℕ)
  /-- The hello ack was sent. -/
  | ack (i : ℕ)
  | notifyLock (i : ℕ)
  | onAttached (i : ℕ)
  | notifyUnlock (i : ℕ)
  /-- The loop ends. -/
  | leave (i : ℕ)
  /-- `serveAttach` returns, and `release` closes the stream. -/
  | close (i : ℕ)
  | releaseLock (i : ℕ)
  | drop (i : ℕ)
  /-- `OnLost`, unless the run is done. -/
  | onLost (i : ℕ)
  | unlock (i : ℕ)
  | forget
  | cancel
  | finish
deriving DecidableEq

variable {l : Label}

/-- The stream that a claim finds is in its way. -/
def Run.taken (s : Run) : Bool :=
  match s.live.bind s.streams with
  | some prev => decide (s.now - prev.lastRecv < s.hbInterval)
  | none => false

/-- A step of stream `i`. -/
def streamStep (s : Run) (i : ℕ) (x : Stream) : Label → Option Run
  | .recv _ =>
    if x.serve = .serving then some (s.setStream i { x with lastRecv := s.now }) else none
  | .ack _ =>
    if x.serve = .serving ∧ x.notify = .none then
      some (s.setStream i { x with notify := .waiting })
    else none
  | .notifyLock _ =>
    if x.notify = .waiting ∧ s.notifyMu = none then
      some { s.setStream i { x with notify := .inside } with notifyMu := some i }
    else none
  | .onAttached _ =>
    if x.notify = .inside then
      some { s.setStream i { x with notify := .called } with attached := true, armed := false }
    else none
  | .notifyUnlock _ =>
    if x.notify = .called then
      some { s.setStream i { x with notify := .done } with notifyMu := none }
    else none
  | .leave _ =>
    if x.serve = .serving then some (s.setStream i { x with serve := .ended }) else none
  | .close _ =>
    -- the notification is waited for, if there is one
    if x.serve = .ended ∧ (x.notify = .none ∨ x.notify = .done) then
      some (s.setStream i { x with serve := .closing })
    else none
  | .releaseLock _ =>
    if x.serve = .closing ∧ s.notifyMu = none then
      some { s.setStream i { x with serve := .locked } with notifyMu := some i }
    else none
  | .drop _ =>
    if x.serve = .locked then
      if s.live = some i then
        some { s.setStream i { x with serve := .lost } with live := none }
      else some (s.setStream i { x with serve := .leaving })
    else none
  | .onLost _ =>
    if x.serve = .lost then
      if s.forget = .finished then some (s.setStream i { x with serve := .leaving })
      else some { s.setStream i { x with serve := .leaving } with armed := true }
    else none
  | .unlock _ =>
    if x.serve = .leaving then
      some { s.setStream i { x with serve := .released } with notifyMu := none }
    else none
  | _ => none

/-- One step. -/
def step (s : Run) (l : Label) : Option Run :=
  match l with
  | .tick n => some { s with now := s.now + n }
  | .claim i =>
    if s.streams i = none ∧ s.forget ≠ .finished ∧ s.taken = false then
      some { s.setStream i { lastRecv := s.now } with live := some i }
    else none
  | .forget => if s.forget = .none then some { s with forget := .marked } else none
  | .cancel =>
    if s.forget = .marked then some { s with forget := .cancelled, armed := false } else none
  | .finish =>
    if s.forget = .cancelled then some { s with forget := .finished, live := none } else none
  | .recv i | .ack i | .notifyLock i | .onAttached i | .notifyUnlock i | .leave i | .close i
  | .releaseLock i | .drop i | .onLost i | .unlock i =>
    (s.streams i).bind fun x => streamStep s i x l

/-! ## The timer is armed when it must be -/

/-- No stream is between its claim and its notification or release, and none inside release. -/
def Quiescent (s : Run) : Prop :=
  ∀ i x, s.streams i = some x → x.serve = .released ∨
    x.notify = .done ∧ (x.serve = .serving ∨ x.serve = .ended)

/-- The timer is armed exactly if the run has no live stream. -/
def Supervised (s : Run) : Prop :=
  (s.adopted = true ∨ s.attached = true) → s.forget = .none → Quiescent s →
    (s.armed = true ↔ s.live = none)

/-- A notification of the stream may still come. -/
def Stream.pending (x : Stream) : Bool :=
  match x.notify with
  | .none => x.serve == .serving
  | .waiting | .inside => true
  | .called | .done => false

/-- A claim evicts only a stream that has no notification before it. -/
def calmEviction (s : Run) : Label → Prop
  | .claim _ => ∀ prev ∈ s.live.bind s.streams, prev.pending = false
  | _ => True

instance (s : Run) (l : Label) : Decidable (calmEviction s l) :=
  match l with
  | .claim _ => inferInstanceAs (Decidable (∀ prev ∈ s.live.bind s.streams, prev.pending = false))
  | .tick _ | .recv _ | .ack _ | .notifyLock _ | .onAttached _ | .notifyUnlock _ | .leave _
  | .close _ | .releaseLock _ | .drop _ | .onLost _ | .unlock _ | .forget | .cancel | .finish =>
    instDecidableTrue

/-- `OnAttached` was called for the stream. -/
def Stream.notified (x : Stream) : Prop := x.notify = .called ∨ x.notify = .done

/-- The stream may be the live one. -/
def Serve.keeps : Serve → Bool
  | .serving | .ended | .closing | .locked => true
  | .lost | .leaving | .released => false

/-- A goroutine of the stream holds `notifyMu`. -/
def Stream.holdsMu (x : Stream) : Prop :=
  x.notify = .inside ∨ x.notify = .called ∨ x.serve = .locked ∨ x.serve = .lost ∨
    x.serve = .leaving

/-- No stream is about to start the timer. -/
def Run.noneLost (s : Run) : Prop := ∀ j y, s.streams j = some y → y.serve ≠ .lost

/-- What holds of a stream. -/
structure Ok (s : Run) (i : ℕ) (x : Stream) : Prop where
  pending : x.pending = true → s.live = some i
  holds : x.holdsMu → s.notifyMu = some i
  order : x.serve = .serving ∨ x.serve = .ended ∨ x.notify = .none ∨ x.notify = .done
  keeps : s.live = some i → x.serve.keeps = true
  quiet : s.live = some i → x.notified → s.armed = false ∧ s.noneLost

/-- What holds of a run that is not forgotten. -/
structure Inv (s : Run) : Prop where
  ok : ∀ i x, s.streams i = some x → Ok s i x
  claimed : ∀ i, s.live = some i → ∃ x, s.streams i = some x
  unarmed : s.live = none → s.armed = true ∨ (∃ j y, s.streams j = some y ∧ y.serve = .lost) ∨
    s.adopted = false ∧ ∀ i, s.streams i = none
  attached : s.attached = true → ∃ i x, s.streams i = some x

theorem Inv.init (hbInterval : ℕ) (adopted : Bool) : Inv (Run.init hbInterval adopted) where
  ok := by intro i x h; cases h
  claimed := by intro i h; cases h
  unarmed := by
    intro _
    cases adopted with
    | true => exact .inl rfl
    | false => exact .inr (.inr ⟨rfl, fun _ => rfl⟩)
  attached := by intro h; cases h

theorem Inv.supervised (h : Inv s) : Supervised s := by
  intro hstarted _ hquiet
  constructor
  · intro harmed
    cases hlive : s.live with
    | none => rfl
    | some i =>
      obtain ⟨x, hx⟩ := h.claimed i hlive
      have hok := h.ok i x hx
      obtain hreleased | ⟨hdone, -⟩ := hquiet i x hx
      · have hkeeps := hok.keeps hlive
        rw [hreleased] at hkeeps
        cases hkeeps
      · rw [(hok.quiet hlive (.inr hdone)).1] at harmed
        cases harmed
  · intro hlive
    obtain harmed | ⟨j, y, hy, hlost⟩ | ⟨hadopted, hnone⟩ := h.unarmed hlive
    · exact harmed
    · obtain hreleased | ⟨-, hserve | hserve⟩ := hquiet j y hy
      · rw [hlost] at hreleased
        cases hreleased
      · rw [hlost] at hserve
        cases hserve
      · rw [hlost] at hserve
        cases hserve
    · obtain hadopted' | hattached := hstarted
      · rw [hadopted] at hadopted'
        cases hadopted'
      · obtain ⟨i, x, hx⟩ := h.attached hattached
        rw [hnone i] at hx
        cases hx

/-- A stream moves, with `notifyMu`, and neither becomes nor stops being about to start the
timer. -/
theorem Inv.move (h : Inv s) {y : Stream} (hx : s.streams i = some x)
    (hlost : y.serve = .lost ↔ x.serve = .lost)
    (hmu : ∀ j z, s.streams j = some z → j ≠ i → z.holdsMu → mu = some j)
    (hpending : y.pending = true → x.pending = true) (hholds : y.holdsMu → mu = some i)
    (horder : y.serve = .serving ∨ y.serve = .ended ∨ y.notify = .none ∨ y.notify = .done)
    (hkeeps : s.live = some i → y.serve.keeps = true) (hquiet : y.notified → x.notified) :
    Inv { s.setStream i y with notifyMu := mu } := by
  have hnone : s.noneLost → ({ s.setStream i y with notifyMu := mu } : Run).noneLost := by
    intro hn j z hz
    obtain ⟨rfl, rfl⟩ | ⟨-, hz⟩ := update_eq_some hz
    · exact fun hl => hn j x hx (hlost.mp hl)
    · exact hn j z hz
  have hox := h.ok i x hx
  refine ⟨fun j z hz => ?_, fun j hj => ?_, fun hlive => ?_,
    fun _ => ⟨i, y, Function.update_self ..⟩⟩
  · obtain ⟨rfl, rfl⟩ | ⟨hj, hz⟩ := update_eq_some hz
    · exact ⟨fun hp => hox.pending (hpending hp), hholds, horder, hkeeps,
        fun hl hn => ⟨(hox.quiet hl (hquiet hn)).1, hnone (hox.quiet hl (hquiet hn)).2⟩⟩
    · have hoz := h.ok j z hz
      exact ⟨hoz.pending, hmu j z hz hj, hoz.order, hoz.keeps,
        fun hl hn => ⟨(hoz.quiet hl hn).1, hnone (hoz.quiet hl hn).2⟩⟩
  · by_cases hji : j = i
    · exact ⟨y, by rw [hji]; exact Function.update_self ..⟩
    · obtain ⟨z, hz⟩ := h.claimed j hj
      exact ⟨z, (Function.update_of_ne hji _ _).trans hz⟩
  · obtain harmed | ⟨j, z, hz, hl⟩ | ⟨-, hempty⟩ := h.unarmed hlive
    · exact .inl harmed
    · refine .inr (.inl ?_)
      by_cases hji : j = i
      · subst hji
        obtain rfl : x = z := Option.some.inj (hx.symm.trans hz)
        exact ⟨j, y, Function.update_self .., hlost.mpr hl⟩
      · exact ⟨j, z, (Function.update_of_ne hji _ _).trans hz, hl⟩
    · rw [hempty i] at hx
      cases hx

/-- Nobody else holds `notifyMu`, if it is free or held by the stream. -/
theorem Inv.alone (h : Inv s) (hmu : s.notifyMu = none ∨ s.notifyMu = some i) {j : ℕ} {z : Stream}
    (hz : s.streams j = some z) (hj : j ≠ i) : ¬z.holdsMu := by
  intro hholds
  have hheld := (h.ok j z hz).holds hholds
  obtain hmu | hmu := hmu
  · rw [hmu] at hheld
    cases hheld
  · rw [hmu] at hheld
    exact hj (Option.some.inj hheld).symm

/-- The notification of a stream cancels the timer: only the live one has a notification before
it, so the run has a live stream, and nobody is about to start the timer. -/
theorem Inv.onAttached (h : Inv s) (hx : s.streams i = some x) (hin : x.notify = .inside) :
    Inv { s.setStream i { x with notify := .called } with attached := true, armed := false } := by
  have hox := h.ok i x hx
  have hlive : s.live = some i := hox.pending (by simp [Stream.pending, hin])
  have hmu := hox.holds (.inl hin)
  have hserve : x.serve = .serving ∨ x.serve = .ended := by
    obtain ho | ho | ho | ho := hox.order
    · exact .inl ho
    · exact .inr ho
    · rw [hin] at ho
      cases ho
    · rw [hin] at ho
      cases ho
  have hnone : ∀ j z, Function.update s.streams i (some { x with notify := .called }) j = some z →
      z.serve ≠ .lost := by
    intro j z hz
    obtain ⟨rfl, rfl⟩ | ⟨hj, hz⟩ := update_eq_some hz
    · obtain ho | ho := hserve
      · simp [ho]
      · simp [ho]
    · exact fun hl => h.alone (.inr hmu) hz hj (.inr (.inr (.inr (.inl hl))))
  refine ⟨fun j z hz => ?_, fun j hj => ?_, fun hl => ?_, fun _ => ⟨i, _, Function.update_self ..⟩⟩
  · obtain ⟨rfl, rfl⟩ | ⟨hj, hz⟩ := update_eq_some hz
    · refine ⟨fun hp => ?_, fun _ => hmu, ?_, hox.keeps, fun _ _ => ⟨rfl, hnone⟩⟩
      · cases hp
      · obtain ho | ho := hserve
        · exact .inl ho
        · exact .inr (.inl ho)
    · have hoz := h.ok j z hz
      exact ⟨hoz.pending, hoz.holds, hoz.order, hoz.keeps, fun _ _ => ⟨rfl, hnone⟩⟩
  · by_cases hji : j = i
    · exact ⟨_, by rw [hji]; exact Function.update_self ..⟩
    · obtain ⟨z, hz⟩ := h.claimed j hj
      exact ⟨z, (Function.update_of_ne hji _ _).trans hz⟩
  · have hl : s.live = none := hl
    rw [hlive] at hl
    cases hl

/-- The live stream gives the run up. -/
theorem Inv.drop (h : Inv s) (hx : s.streams i = some x) (hlocked : x.serve = .locked)
    (hlive : s.live = some i) :
    Inv { s.setStream i { x with serve := .lost } with live := none } := by
  have hox := h.ok i x hx
  have hmu := hox.holds (.inr (.inr (.inl hlocked)))
  have horder : x.notify = .none ∨ x.notify = .done := by
    obtain ho | ho | ho := hox.order
    · rw [hlocked] at ho
      cases ho
    · rw [hlocked] at ho
      cases ho
    · exact ho
  refine ⟨fun j z hz => ?_, fun j hj => ?_, fun _ => ?_, fun _ => ⟨i, _, Function.update_self ..⟩⟩
  · obtain ⟨rfl, rfl⟩ | ⟨hj, hz⟩ := update_eq_some hz
    · refine ⟨fun hp => ?_, fun _ => hmu, .inr (.inr horder), fun hl => ?_, fun hl => ?_⟩
      · obtain ho | ho := horder
        · simp [Stream.pending, ho] at hp
        · simp [Stream.pending, ho] at hp
      · cases hl
      · cases hl
    · have hoz := h.ok j z hz
      refine ⟨fun hp => ?_, hoz.holds, hoz.order, fun hl => ?_, fun hl => ?_⟩
      · have hl := hoz.pending hp
        rw [hlive] at hl
        exact absurd (Option.some.inj hl).symm hj
      · cases hl
      · cases hl
  · cases hj
  · exact .inr (.inl ⟨i, _, Function.update_self .., rfl⟩)

/-- The timer starts: no notification came since the stream gave the run up, as it would need
`notifyMu`. -/
theorem Inv.onLost (h : Inv s) (hx : s.streams i = some x) (hlost : x.serve = .lost) :
    Inv { s.setStream i { x with serve := .leaving } with armed := true } := by
  have hox := h.ok i x hx
  have hmu := hox.holds (.inr (.inr (.inr (.inl hlost))))
  have hnew : ∀ j z, s.streams j = some z → s.live = some j → ¬z.notified :=
    fun j z hz hl hn => ((h.ok j z hz).quiet hl hn).2 i x hx hlost
  refine ⟨fun j z hz => ?_, fun j hj => ?_, fun _ => .inl rfl,
    fun _ => ⟨i, _, Function.update_self ..⟩⟩
  · obtain ⟨rfl, rfl⟩ | ⟨hj, hz⟩ := update_eq_some hz
    · have hkeeps : s.live ≠ some j := by
        intro hl
        have := hox.keeps hl
        rw [hlost] at this
        cases this
      refine ⟨fun hp => ?_, fun _ => hmu, ?_, fun hl => absurd hl hkeeps,
        fun hl => absurd hl hkeeps⟩
      · refine hox.pending ?_
        unfold Stream.pending at hp ⊢
        cases hn : x.notify <;> simp [hn] at hp ⊢
      · obtain ho | ho | ho := hox.order
        · rw [hlost] at ho
          cases ho
        · rw [hlost] at ho
          cases ho
        · exact .inr (.inr ho)
    · have hoz := h.ok j z hz
      exact ⟨hoz.pending, hoz.holds, hoz.order, hoz.keeps, fun hl hn => absurd hn (hnew j z hz hl)⟩
  · by_cases hji : j = i
    · exact ⟨_, by rw [hji]; exact Function.update_self ..⟩
    · obtain ⟨z, hz⟩ := h.claimed j hj
      exact ⟨z, (Function.update_of_ne hji _ _).trans hz⟩

/-- A claim that meets the condition. -/
theorem Inv.claim (h : Inv s) (hnew : s.streams i = none)
    (hcalm : ∀ prev ∈ s.live.bind s.streams, prev.pending = false) :
    Inv { s.setStream i { lastRecv := s.now } with live := some i } := by
  refine ⟨fun j z hz => ?_, fun j hj => ?_, fun hl => ?_, fun _ => ⟨i, _, Function.update_self ..⟩⟩
  · obtain ⟨rfl, rfl⟩ | ⟨hj, hz⟩ := update_eq_some hz
    · refine ⟨fun _ => rfl, ?_, .inl rfl, fun _ => rfl, ?_⟩
      · simp [Stream.holdsMu]
      · simp [Stream.notified]
    · have hoz := h.ok j z hz
      have hne : (some i : Option ℕ) ≠ some j := fun heq => hj (Option.some.inj heq).symm
      refine ⟨fun hp => ?_, hoz.holds, hoz.order, fun hl => absurd hl hne, fun hl => absurd hl hne⟩
      have hprev := hcalm z (by rw [hoz.pending hp]; exact hz)
      rw [hprev] at hp
      cases hp
  · obtain rfl := Option.some.inj hj
    exact ⟨_, Function.update_self ..⟩
  · cases hl

/-- The notification goroutine takes or gives back `notifyMu`. -/
theorem Inv.moveNotify (h : Inv s) (hx : s.streams i = some x) {n : Notify}
    (hmu : s.notifyMu = none ∨ s.notifyMu = some i)
    (hn : n = .inside ∧ x.notify = .waiting ∧ mu = some i ∨
      n = .done ∧ x.notify = .called ∧ mu = none) :
    Inv { s.setStream i { x with notify := n } with notifyMu := mu } := by
  have hox := h.ok i x hx
  have hserve : x.serve = .serving ∨ x.serve = .ended := by
    obtain ho | ho | ho | ho := hox.order
    · exact .inl ho
    · exact .inr ho
    · rw [ho] at hn
      simp at hn
    · rw [ho] at hn
      simp at hn
  refine h.move hx Iff.rfl (fun j z hz hj hh => absurd hh (h.alone hmu hz hj)) ?_ ?_ ?_ hox.keeps ?_
  · obtain ⟨rfl, hw, -⟩ | ⟨rfl, -, -⟩ := hn
    · exact fun _ => by simp [Stream.pending, hw]
    · intro hp
      cases hp
  · obtain ⟨rfl, -, rfl⟩ | ⟨rfl, -, -⟩ := hn
    · exact fun _ => rfl
    · obtain ho | ho := hserve
      · simp [Stream.holdsMu, ho]
      · simp [Stream.holdsMu, ho]
  · obtain ho | ho := hserve
    · exact .inl ho
    · exact .inr (.inl ho)
  · obtain ⟨rfl, -, -⟩ | ⟨rfl, hc, -⟩ := hn
    · simp [Stream.notified]
    · exact fun _ => .inl hc

/-- The goroutine of a stream moves on in `release`, or to it. -/
theorem Inv.moveServe (h : Inv s) (hx : s.streams i = some x) {v : Serve} (hlost : v ≠ .lost)
    (hlost' : x.serve ≠ .lost) (hmu : mu = s.notifyMu ∨ s.notifyMu = none ∨ s.notifyMu = some i)
    (hserving : v ≠ .serving) (hnotify : v = .ended ∨ x.notify = .none ∨ x.notify = .done)
    (hholds : x.notify = .inside ∨ x.notify = .called ∨ v = .locked ∨ v = .leaving → mu = some i)
    (hkeeps : s.live = some i → v.keeps = true) :
    Inv { s.setStream i { x with serve := v } with notifyMu := mu } := by
  refine h.move hx (iff_of_false hlost hlost') (fun j z hz hj hh => ?_) (fun hp => ?_)
    (fun hh => ?_) ?_ hkeeps id
  · obtain rfl | hmu := hmu
    · exact (h.ok j z hz).holds hh
    · exact absurd hh (h.alone hmu hz hj)
  · unfold Stream.pending at hp ⊢
    cases hn : x.notify <;> simp [hn, hserving] at hp ⊢
  · obtain hh | hh | hh | hh | hh := hh
    · exact hholds (.inl hh)
    · exact hholds (.inr (.inl hh))
    · exact hholds (.inr (.inr (.inl hh)))
    · exact absurd hh hlost
    · exact hholds (.inr (.inr (.inr hh)))
  · obtain rfl | hn := hnotify
    · exact .inr (.inl rfl)
    · exact .inr (.inr hn)

theorem streamStep_forget (hs : streamStep s i x l = some t) : t.forget = s.forget := by
  unfold streamStep at hs
  repeat' split at hs
  all_goals cases hs
  all_goals rfl

theorem Inv.streamStep (h : Inv s) (hforget : s.forget = .none) (hx : s.streams i = some x)
    (hs : streamStep s i x l = some t) : Inv t := by
  have hox := h.ok i x hx
  have hrelease : ∀ {v : Serve}, x.serve = v → v ≠ .serving → v ≠ .ended →
      x.notify = .none ∨ x.notify = .done := by
    rintro v rfl hv hv'
    obtain ho | ho | ho := hox.order
    · exact absurd ho hv
    · exact absurd ho hv'
    · exact ho
  unfold Grace.streamStep at hs
  split at hs
  · split at hs
    · rename_i hserve
      cases hs
      exact h.move hx Iff.rfl (fun j z hz _ => (h.ok j z hz).holds) id hox.holds hox.order
        hox.keeps id
    · cases hs
  · split at hs
    · rename_i hc
      cases hs
      refine h.move hx Iff.rfl (fun j z hz _ => (h.ok j z hz).holds) (fun _ => ?_) ?_ (.inl hc.1)
        hox.keeps ?_
      · simp [Stream.pending, hc.1, hc.2]
      · simp [Stream.holdsMu, hc.1]
      · simp [Stream.notified]
    · cases hs
  · split at hs
    · rename_i hc
      cases hs
      exact h.moveNotify hx (.inl hc.2) (.inl ⟨rfl, hc.1, rfl⟩)
    · cases hs
  · split at hs
    · rename_i hc
      cases hs
      exact h.onAttached hx hc
    · cases hs
  · split at hs
    · rename_i hc
      cases hs
      exact h.moveNotify hx (.inr (hox.holds (.inr (.inl hc)))) (.inr ⟨rfl, hc, rfl⟩)
    · cases hs
  · split at hs
    · rename_i hserve
      cases hs
      refine h.moveServe (v := .ended) hx (by simp) (by simp [hserve]) (.inl rfl)
        (by simp) (.inl rfl) (fun hh => ?_) (fun _ => rfl)
      obtain hh | hh | hh | hh := hh
      · exact hox.holds (.inl hh)
      · exact hox.holds (.inr (.inl hh))
      · cases hh
      · cases hh
    · cases hs
  · split at hs
    · rename_i hc
      cases hs
      refine h.moveServe (v := .closing) hx (by simp) (by simp [hc.1]) (.inl rfl)
        (by simp) (.inr hc.2) (fun hh => ?_) (fun _ => rfl)
      obtain hn | hn := hc.2
      · simp [hn] at hh
      · simp [hn] at hh
    · cases hs
  · split at hs
    · rename_i hc
      cases hs
      exact h.moveServe (v := .locked) hx (by simp) (by simp [hc.1]) (.inr (.inl hc.2)) (by simp)
        (.inr (hrelease hc.1 (by simp) (by simp))) (fun _ => rfl) (fun _ => rfl)
    · cases hs
  · split at hs
    · rename_i hlocked
      split at hs
      · rename_i hlive
        cases hs
        exact h.drop hx hlocked hlive
      · rename_i hlive
        cases hs
        have hmu := hox.holds (.inr (.inr (.inl hlocked)))
        exact h.moveServe (v := .leaving) hx (by simp) (by simp [hlocked]) (.inl rfl) (by simp)
          (.inr (hrelease hlocked (by simp) (by simp))) (fun _ => hmu) (fun hl => absurd hl hlive)
    · cases hs
  · split at hs
    · rename_i hlost
      rw [if_neg (by simp [hforget])] at hs
      cases hs
      exact h.onLost hx hlost
    · cases hs
  · split at hs
    · rename_i hleaving
      cases hs
      have hmu := hox.holds (.inr (.inr (.inr (.inr hleaving))))
      have hn := hrelease hleaving (by simp) (by simp)
      refine h.moveServe (v := .released) hx (by simp) (by simp [hleaving])
        (.inr (.inr hmu)) (by simp) (.inr hn) (fun hh => ?_) (fun hl => ?_)
      · obtain hn | hn := hn
        · simp [hn] at hh
        · simp [hn] at hh
      · have := hox.keeps hl
        rw [hleaving] at this
        cases this
    · cases hs
  · cases hs

theorem Inv.step (h : s.forget = .none → Inv s) (hok : calmEviction s l) (hs : step s l = some t) :
    t.forget = .none → Inv t := by
  intro hforget
  cases l with
  | tick n =>
    cases hs
    have h := h hforget
    exact ⟨fun i x hx => ⟨(h.ok i x hx).pending, (h.ok i x hx).holds, (h.ok i x hx).order,
      (h.ok i x hx).keeps, (h.ok i x hx).quiet⟩, h.claimed, h.unarmed, h.attached⟩
  | claim i =>
    simp only [Grace.step] at hs
    split at hs
    · rename_i hc
      cases hs
      exact (h hforget).claim hc.1 hok
    · cases hs
  | forget =>
    simp only [Grace.step] at hs
    split at hs
    · cases hs
      cases hforget
    · cases hs
  | cancel =>
    simp only [Grace.step] at hs
    split at hs
    · cases hs
      cases hforget
    · cases hs
  | finish =>
    simp only [Grace.step] at hs
    split at hs
    · cases hs
      cases hforget
    · cases hs
  | recv i | ack i | notifyLock i | onAttached i | notifyUnlock i | leave i | close i
  | releaseLock i | drop i | onLost i | unlock i =>
    obtain ⟨x, hx, hs⟩ := Option.bind_eq_some_iff.mp hs
    have hkept : s.forget = .none := (streamStep_forget hs).symm.trans hforget
    exact (h hkept).streamStep hkept hx hs

/-- In every run of any number of streams in which a claim evicts only a stream that has no
notification before it, the timer is armed exactly when it must be. -/
theorem timer_supervises {hbInterval : ℕ} {adopted : Bool} {s : Run}
    (h : Reach step calmEviction (Run.init hbInterval adopted) s) : Supervised s := by
  intro hstarted hforget hquiet
  have hinv := h.invariant (fun s => s.forget = .none → Inv s)
    (fun _ => Inv.init hbInterval adopted) fun ha hok hs => Inv.step ha hok hs
  exact (hinv hforget).supervised hstarted hforget hquiet

/-- A stream attaches, is evicted, and the one that evicted it is lost. -/
def replacedRun : List Label :=
  [.claim 0, .ack 0, .notifyLock 0, .onAttached 0, .notifyUnlock 0, .tick 10, .claim 1, .leave 0,
    .close 0, .releaseLock 0, .drop 0, .unlock 0, .ack 1, .notifyLock 1, .onAttached 1,
    .notifyUnlock 1, .leave 1, .close 1, .releaseLock 1, .drop 1, .onLost 1, .unlock 1]

theorem timer_supervises_replacedRun :
    ((exec step (Run.init 10 false) replacedRun).getD (Run.init 10 false)).armed = true ∧
      Supervised ((exec step (Run.init 10 false) replacedRun).getD (Run.init 10 false)) :=
  ⟨by decide, timer_supervises (Reach.of_exec_guarded _ (by decide))⟩

theorem streamStep_streams (hs : streamStep s i x l = some t) :
    ∃ y, t.streams = Function.update s.streams i (some y) := by
  unfold streamStep at hs
  repeat' split at hs
  all_goals cases hs
  all_goals exact ⟨_, rfl⟩

/-- A stream comes into being by its claim. -/
theorem streams_eq_none {ls : List Label} (h : exec step s ls = some t) (hi : s.streams i = none)
    (hl : .claim i ∉ ls) : t.streams i = none := by
  induction ls generalizing s with
  | nil =>
    cases h
    exact hi
  | cons l ls ih =>
    obtain ⟨u, hu, h⟩ := Option.bind_eq_some_iff.mp h
    obtain ⟨hne, hl⟩ := not_or.mp (List.mem_cons.not.mp hl)
    refine ih h ?_ hl
    cases l with
    | tick n =>
      cases hu
      exact hi
    | claim j =>
      simp only [step] at hu
      split at hu
      · cases hu
        exact (Function.update_of_ne (fun hj => hne (by rw [hj])) _ _).trans hi
      · cases hu
    | forget | cancel | finish =>
      simp only [step] at hu
      split at hu
      · cases hu
        exact hi
      · cases hu
    | recv j | ack j | notifyLock j | onAttached j | notifyUnlock j | leave j | close j
    | releaseLock j | drop j | onLost j | unlock j =>
      obtain ⟨x, hx, hu⟩ := Option.bind_eq_some_iff.mp hu
      obtain ⟨y, hy⟩ := streamStep_streams hu
      have hj : i ≠ j := by
        rintro rfl
        rw [hi] at hx
        cases hx
      rw [hy, Function.update_of_ne hj, hi]

/-- The ack of a stream is sent late: the stream was evicted, and the one that evicted it was lost,
when its notification cancels the timer. -/
def lateNotifyRun : List Label :=
  [.claim 0, .tick 10, .claim 1, .ack 1, .notifyLock 1, .onAttached 1, .notifyUnlock 1, .leave 1,
    .close 1, .releaseLock 1, .drop 1, .onLost 1, .unlock 1, .ack 0, .notifyLock 0, .onAttached 0,
    .notifyUnlock 0, .leave 0, .close 0, .releaseLock 0, .drop 0, .unlock 0]

/-- The state after it. -/
def lateNotified : Run := (exec step (Run.init 10 false) lateNotifyRun).getD (Run.init 10 false)

theorem quiescent_lateNotified : Quiescent lateNotified := by
  intro i x hx
  by_cases h0 : i = 0
  · have hstream : lateNotified.streams 0 = some ⟨0, .done, .released⟩ := by decide
    rw [h0, hstream] at hx
    cases hx
    exact .inl rfl
  by_cases h1 : i = 1
  · have hstream : lateNotified.streams 1 = some ⟨10, .done, .released⟩ := by decide
    rw [h1, hstream] at hx
    cases hx
    exact .inl rfl
  have hrun : (exec step (Run.init 10 false) lateNotifyRun).isSome = true := by decide
  obtain ⟨t, ht⟩ := Option.isSome_iff_exists.mp hrun
  have hnone : t.streams i = none :=
    streams_eq_none ht rfl (by simp [lateNotifyRun, h0, h1])
  have heq : lateNotified = t := by
    unfold lateNotified
    rw [ht]
    rfl
  rw [heq, hnone] at hx
  cases hx

theorem timer_cancelled_late :
    Reach step (fun _ _ => True) (Run.init 10 false) lateNotified ∧ ¬Supervised lateNotified := by
  refine ⟨Reach.of_exec_getD _ (by decide), fun h => ?_⟩
  have hsupervised := h (.inr (by decide)) (by decide) quiescent_lateNotified
  exact absurd (hsupervised.mpr (by decide)) (by decide)

end AgentOps.Link.Grace
