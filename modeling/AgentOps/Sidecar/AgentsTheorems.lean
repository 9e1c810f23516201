import AgentOps.Sidecar.Agents

/-!
# One agent in a pod, and none left behind

The runner starts one process. The client has one spawn in progress at most, since a spawn that
has failed keeps its place, and a join is over before the first spawn. After the client is
stopped, a session that a spawn brings is stopped; one that a join brings is only closed.
-/

namespace AgentOps.Sidecar

open AgentOps.Lib

variable {c d : Client} {k : ℕ} {l : Label} {p q : Pod}

namespace Client

/-! ## One spawn and one agent -/

/-- A join is over before the first spawn starts; a spawn that started keeps the client from
starting another one; and an agent is held only when no spawn can bring another. -/
structure Single (c : Client) : Prop where
  early : c.run.early = true → c.joined = false
  late : c.run = .attached → c.joined = true
  unspawned : c.joined = false → c.spawns = []
  alone : c.joined = false → c.run ≠ .mark → c.agent = none
  one : c.spawns.length ≤ 1
  spoken : c.spawns ≠ [] → c.spawn.isSome = true ∨ c.agent.isSome = true ∨ c.stopped = true
  busy : ∀ w ∈ c.spawns, w ≠ .finished → c.agent = none
  released : c.stopped = true → c.agent = none

theorem single_init : Single {} where
  early := nofun
  late := nofun
  unspawned _ := rfl
  alone _ _ := rfl
  one := Nat.zero_le _
  spoken h := absurd rfl h
  busy _ hw := nomatch hw
  released _ := rfl

/-- A spawn goroutine that goes on changes nothing but its own place. -/
theorem Single.advance (h : c.Single) {i : ℕ} {w : SpawnAt} (hw : c.spawns[i]? = some w)
    (hbusy : w ≠ .finished) (v : SpawnAt) (ss : List Session) :
    Single { c with spawns := c.spawns.set i v, sessions := ss } := by
  have hagent : c.agent = none := h.busy w (List.mem_of_getElem? hw) hbusy
  have hne : c.spawns ≠ [] := by
    intro hnil
    rw [hnil] at hw
    nomatch hw
  constructor
  · exact h.early
  · exact h.late
  · intro hj
    exact absurd (h.unspawned hj) hne
  · exact h.alone
  · show (c.spawns.set i v).length ≤ 1
    rw [List.length_set]
    exact h.one
  · intro _
    exact h.spoken hne
  · intro _ _ _
    exact hagent
  · exact h.released

theorem Single.release (h : c.Single) : c.stopAgent.Single where
  early := h.early
  late := h.late
  unspawned := h.unspawned
  alone _ _ := rfl
  one := h.one
  spoken _ := .inr (.inr rfl)
  busy _ _ _ := rfl
  released _ := rfl

/-- The goroutine of `Run` moves to a place outside the join. -/
theorem Single.leave (h : c.Single) (r : RunAt) (hr : r.early = false)
    (hj : r = .attached → c.joined = true) (ha : c.joined = false → c.agent = none) :
    Single { c with run := r } where
  early he := by
    rw [hr] at he
    nomatch he
  late := hj
  unspawned := h.unspawned
  alone hj _ := ha hj
  one := h.one
  spoken := h.spoken
  busy := h.busy
  released := h.released

/-- The goroutine of `Run` moves on within the join. -/
theorem Single.within (h : c.Single) (r : RunAt) (ss : List Session) (hj : c.joined = false)
    (hr : r ≠ .attached) (ha : r ≠ .mark → c.agent = none) :
    Single { c with run := r, sessions := ss } where
  early _ := hj
  late hatt := absurd hatt hr
  unspawned := h.unspawned
  alone _ hm := ha hm
  one := h.one
  spoken := h.spoken
  busy := h.busy
  released := h.released

theorem Single.adoptJoined (h : c.Single) (hrun : c.run = .got k) (hs : c.stopped = false) :
    Single { c.adopt k with run := .mark } := by
  have hj : c.joined = false := h.early (by rw [hrun]; rfl)
  have hnil : c.spawns = [] := h.unspawned hj
  constructor
  · exact fun _ => hj
  · exact fun hatt => nomatch hatt
  · exact h.unspawned
  · exact fun _ hm => absurd rfl hm
  · exact h.one
  · exact fun hne => absurd hnil hne
  · intro w hw
    rw [show ({ c.adopt k with run := .mark } : Client).spawns = [] from hnil] at hw
    nomatch hw
  · intro hs'
    rw [show ({ c.adopt k with run := .mark } : Client).stopped = false from hs] at hs'
    nomatch hs'

theorem Single.adoptSpawned (h : c.Single) {i : ℕ} (hw : c.spawns[i]? = some (.got k))
    (hs : c.stopped = false) : Single { c.adopt k with spawns := c.spawns.set i .finished } := by
  have hlt : i < c.spawns.length := (List.getElem?_eq_some_iff.1 hw).1
  have hjoined : c.joined ≠ false := by
    intro hj
    rw [h.unspawned hj] at hlt
    nomatch hlt
  -- the spawn is the only one, so after it no goroutine is left that could bring an agent
  have hall : ∀ w ∈ c.spawns.set i .finished, w = .finished := by
    intro w hmem
    have hone := h.one
    obtain ⟨j, hj⟩ := List.getElem?_of_mem hmem
    have hjlt : j < (c.spawns.set i SpawnAt.finished).length := (List.getElem?_eq_some_iff.1 hj).1
    rw [List.length_set] at hjlt
    obtain rfl : j = i := by omega
    rw [List.getElem?_set_self hlt] at hj
    exact (Option.some.inj hj).symm
  constructor
  · exact h.early
  · exact h.late
  · exact fun hj => absurd hj hjoined
  · exact fun hj => absurd hj hjoined
  · show (c.spawns.set i .finished).length ≤ 1
    rw [List.length_set]
    exact h.one
  · exact fun _ => .inr (.inl rfl)
  · exact fun w hmem hne => absurd (hall w hmem) hne
  · intro hs'
    rw [show ({ c.adopt k with spawns := c.spawns.set i .finished } : Client).stopped = false
      from hs] at hs'
    nomatch hs'

theorem Single.spawnStart (h : c.Single) (hrun : c.run = .attached) (ha : c.agent = none)
    (hp : c.spawn = none) (hs : c.stopped = false) :
    Single { c with spawn := some c.spawns.length, spawns := c.spawns ++ [SpawnAt.calling] } := by
  have hnil : c.spawns = [] := by
    by_contra hne
    rcases h.spoken hne with hsp | hag | hst
    · rw [hp] at hsp
      nomatch hsp
    · rw [ha] at hag
      nomatch hag
    · rw [hs] at hst
      nomatch hst
  constructor
  · exact h.early
  · exact h.late
  · intro hj'
    rw [show c.joined = true from h.late hrun] at hj'
    nomatch hj'
  · exact h.alone
  · show (c.spawns ++ [SpawnAt.calling]).length ≤ 1
    rw [hnil]
    exact Nat.le_refl 1
  · exact fun _ => .inl rfl
  · exact fun _ _ _ => ha
  · exact h.released

theorem Single.step (h : c.Single) (hs : c.step l = some d) : d.Single := by
  cases move_of_step hs with
  | look hrun =>
    have hagent (hj : c.joined = false) : c.agent = none :=
      h.alone hj (by rw [hrun]; exact nofun)
    by_cases hj : c.joined = true
    · rw [if_pos hj]
      exact h.leave .attached rfl (fun _ => hj) hagent
    · rw [if_neg hj]
      have hj' : c.joined = false := eq_false_of_ne_true hj
      exact h.within .joining c.sessions hj' nofun fun _ => hagent hj'
  | joinSession hrun =>
    have hj : c.joined = false := h.early (by rw [hrun]; rfl)
    exact h.within (.got c.sessions.length) _ hj nofun
      fun _ => h.alone hj (by rw [hrun]; exact nofun)
  | joinNoAgent hrun =>
    have hj : c.joined = false := h.early (by rw [hrun]; rfl)
    exact h.within .mark c.sessions hj nofun fun hm => absurd rfl hm
  | joinError hrun =>
    have hj : c.joined = false := h.early (by rw [hrun]; rfl)
    exact h.within .join c.sessions hj nofun fun _ => h.alone hj (by rw [hrun]; exact nofun)
  | adoptJoined hrun hst => exact h.adoptJoined hrun hst
  | @refuseJoined k hrun hst =>
    have hj : c.joined = false := h.early (by rw [hrun]; rfl)
    exact h.within (.refused k) c.sessions hj nofun fun _ => h.released hst
  | closeRefused hrun =>
    have hj : c.joined = false := h.early (by rw [hrun]; rfl)
    exact h.within .mark _ hj nofun fun hm => absurd rfl hm
  | mark hrun =>
    exact {
      early := fun he => nomatch he
      late := fun _ => rfl
      unspawned := fun hj => nomatch hj
      alone := fun hj => nomatch hj
      one := h.one
      spoken := h.spoken
      busy := h.busy
      released := h.released }
  | spawnNothing hrun => exact h
  | spawnStart hrun ha hp hst => exact h.spawnStart hrun ha hp hst
  | shutdown hrun => exact h.release.leave .done rfl nofun fun _ => rfl
  | reattach hrun =>
    exact h.leave .join rfl nofun fun hj => h.alone hj (by rw [hrun]; exact nofun)
  | ends hrun =>
    refine h.leave .done rfl nofun fun hj => h.alone hj ?_
    rcases hrun with hrun | hrun <;> rw [hrun] <;> exact nofun
  | spawnOk hw => exact h.advance hw nofun _ _
  | spawnFail hw => exact h.advance hw nofun _ c.sessions
  | adoptSpawned hw hst => exact h.adoptSpawned hw hst
  | refuseSpawned hw hst => exact h.advance hw nofun _ c.sessions
  | stopRefused hw => exact h.advance hw nofun _ _
  | close => exact h.release
  | sendStop hk =>
    exact ⟨h.early, h.late, h.unspawned, h.alone, h.one, h.spoken, h.busy, h.released⟩

theorem stopped_of_step (hs : c.step l = some d) (hst : c.stopped = true) : d.stopped = true := by
  cases move_of_step hs with
  | shutdown hrun => rfl
  | close => rfl
  | _ => exact hst

/-- An agent that is held stays until the client is stopped. -/
theorem Single.held (h : c.Single) (hs : c.step l = some d) (hk : c.agent = some k) :
    d.agent = some k ∨ d.agent = none ∧ d.stopped = true := by
  have hfull : c.agent ≠ none := by
    rw [hk]
    exact fun hn => nomatch hn
  cases move_of_step hs with
  | adoptJoined hrun =>
    have hj : c.joined = false := h.early (by rw [hrun]; rfl)
    exact absurd (h.alone hj (by rw [hrun]; exact nofun)) hfull
  | adoptSpawned hw =>
    exact absurd (h.busy _ (List.mem_of_getElem? hw) nofun) hfull
  | shutdown hrun => exact .inr ⟨rfl, rfl⟩
  | close => exact .inr ⟨rfl, rfl⟩
  | _ => exact .inl hk

/-! ## No agent left behind -/

/-- The Stop has been sent on session `k`. -/
def sent (c : Client) (k : ℕ) : Bool := (c.sessions[k]?).any (·.stopSent)

/-- Session `k` is in somebody's hands, so that it can still be stopped. -/
inductive Held (c : Client) (k : ℕ) : Prop
  | taken (h : k ∈ c.stopping)
  | agent (h : c.agent = some k)
  | joined (h : c.run = .got k)
  | spawned {w : SpawnAt} (hw : w ∈ c.spawns) (h : w.has k = true)

theorem sent_obtain (c : Client) (hk : k < c.sessions.length) : c.obtain_.sent k = c.sent k := by
  unfold sent obtain_
  rw [List.getElem?_append_left hk]

theorem sent_stop_self (c : Client) (hk : k < c.sessions.length) : (c.stop k).sent k = true := by
  unfold sent stop
  rw [List.getElem?_modify_eq, List.getElem?_eq_getElem hk]
  rfl

theorem sent_stop_ne (c : Client) {j : ℕ} (hne : j ≠ k) : (c.stop j).sent k = c.sent k := by
  unfold sent stop
  rw [List.getElem?_modify_ne _ _ hne]

theorem any_stopSent_modify (ss : List Session) (j k : ℕ) :
    ((ss.modify j fun s => { s with closed := true })[k]?).any (·.stopSent) =
      (ss[k]?).any (·.stopSent) := by
  rcases eq_or_ne j k with rfl | hne
  · rw [List.getElem?_modify_eq]
    cases ss[j]? <;> rfl
  · rw [List.getElem?_modify_ne _ _ hne]

theorem sent_stop (c : Client) {j : ℕ} (hk : k < c.sessions.length) (hheld : j = k → c.Held k) :
    k < (c.stop j).sessions.length ∧ (c.sent k = true → (c.stop j).sent k = true) ∧
      (¬ c.Held k → (c.stop j).sent k = c.sent k) := by
  have hlen : (c.stop j).sessions.length = c.sessions.length := List.length_modify ..
  rw [hlen]
  rcases eq_or_ne j k with rfl | hne
  · exact ⟨hk, fun _ => sent_stop_self c hk, fun hn => absurd (hheld rfl) hn⟩
  · rw [sent_stop_ne c hne]
    exact ⟨hk, id, fun _ => rfl⟩

/-- A Stop that is sent stays sent, and one is sent only on a session that somebody holds. -/
theorem sent_of_step (hs : c.step l = some d) (hk : k < c.sessions.length) :
    k < d.sessions.length ∧ (c.sent k = true → d.sent k = true) ∧
      (¬ c.Held k → d.sent k = c.sent k) := by
  have hmore : k < c.obtain_.sessions.length := by
    unfold obtain_
    rw [List.length_append]
    omega
  have hsame := sent_obtain c hk
  cases move_of_step hs with
  | joinSession hrun => exact ⟨hmore, fun h => hsame.trans h, fun _ => hsame⟩
  | spawnOk hw => exact ⟨hmore, fun h => hsame.trans h, fun _ => hsame⟩
  | closeRefused hrun =>
    have hclosed := any_stopSent_modify c.sessions
    refine ⟨?_, fun h => (hclosed _ k).trans h, fun _ => hclosed _ k⟩
    show k < (c.sessions.modify _ _).length
    rw [List.length_modify]
    exact hk
  | stopRefused hw =>
    exact sent_stop c hk fun heq => .spawned (List.mem_of_getElem? hw) (beq_iff_eq.2 heq)
  | sendStop hmem => exact sent_stop c hk fun heq => .taken (heq ▸ hmem)
  | _ => exact ⟨hk, id, fun _ => rfl⟩

/-- A session that nobody holds is in nobody's hands later either. -/
theorem held_of_step (hs : c.step l = some d) (hk : k < c.sessions.length) (hd : d.Held k) :
    c.Held k := by
  have hstop (h : k ∈ c.stopAgent.stopping) : c.Held k := by
    rcases List.mem_append.1 h with h | h
    · exact .taken h
    · exact .agent (Option.mem_toList.1 h)
  have hset {i : ℕ} {u v w : SpawnAt} (hw : c.spawns[i]? = some w) (hu : u ∈ c.spawns.set i v)
      (h : u.has k = true) (hv : v.has k = true → w.has k = true) : c.Held k := by
    rcases List.mem_or_eq_of_mem_set hu with hu | rfl
    · exact .spawned hu h
    · exact .spawned (List.mem_of_getElem? hw) (hv h)
  cases hd with
  | taken h =>
    cases move_of_step hs with
    | shutdown hrun => exact hstop h
    | close => exact hstop h
    | sendStop hmem => exact .taken (List.mem_of_mem_erase h)
    | _ => exact .taken h
  | agent h =>
    cases move_of_step hs with
    | adoptJoined hrun => exact .joined (Option.some.inj h ▸ hrun)
    | adoptSpawned hw =>
      exact .spawned (List.mem_of_getElem? hw) (beq_iff_eq.2 (Option.some.inj h))
    | shutdown hrun => nomatch h
    | close => nomatch h
    | _ => exact .agent h
  | joined h =>
    cases move_of_step hs with
    | look hrun =>
      dsimp only at h
      split at h <;> nomatch h
    | joinSession hrun =>
      have : c.sessions.length = k := RunAt.got.inj h
      omega
    | _ => first | exact .joined h | nomatch h
  | spawned hu h =>
    cases move_of_step hs with
    | spawnStart hrun =>
      rcases List.mem_append.1 hu with hu | hu
      · exact .spawned hu h
      · rw [List.mem_singleton.1 hu] at h
        nomatch h
    | spawnOk hw =>
      refine hset hw hu h fun hv => ?_
      have : c.sessions.length = k := beq_iff_eq.1 hv
      omega
    | spawnFail hw => exact hset hw hu h nofun
    | adoptSpawned hw => exact hset hw hu h nofun
    | refuseSpawned hw => exact hset hw hu h id
    | stopRefused hw => exact hset hw hu h nofun
    | _ => exact .spawned hu h

/-- A session stays in somebody's hands until the Stop is sent on it, unless the client is
stopped while a join has brought a session. -/
theorem held_or_sent (h : c.Single) (hfresh : ∀ j, c.run = .got j → c.stopped = false ∧ l ≠ .close)
    (hs : c.step l = some d) (hk : k < c.sessions.length) (hc : c.Held k) :
    d.Held k ∨ d.sent k = true := by
  have hset {i : ℕ} {u w : SpawnAt} (hw : c.spawns[i]? = some w) (hu : u ∈ c.spawns)
      (hhas : u.has k = true) (v : SpawnAt) :
      w.has k = true ∨ ∃ u' ∈ c.spawns.set i v, u'.has k = true := by
    obtain ⟨j, hj⟩ := List.getElem?_of_mem hu
    rcases eq_or_ne i j with rfl | hne
    · rw [hw] at hj
      exact .inl (Option.some.inj hj ▸ hhas)
    · have hj' : (c.spawns.set i v)[j]? = some u := by
        rw [List.getElem?_set_ne hne]
        exact hj
      exact .inr ⟨u, List.mem_of_getElem? hj', hhas⟩
  cases hc with
  | taken hmem =>
    cases move_of_step hs with
    | shutdown hrun => exact .inl (.taken (List.mem_append_left _ hmem))
    | close => exact .inl (.taken (List.mem_append_left _ hmem))
    | @sendStop j hj =>
      rcases eq_or_ne k j with rfl | hne
      · exact .inr (sent_stop_self c hk)
      · exact .inl (.taken ((List.mem_erase_of_ne hne).2 hmem))
    | _ => exact .inl (.taken hmem)
  | agent ha =>
    cases move_of_step hs with
    | adoptJoined hrun =>
      have hj : c.joined = false := h.early (by rw [hrun]; rfl)
      rw [h.alone hj (by rw [hrun]; exact nofun)] at ha
      nomatch ha
    | adoptSpawned hw =>
      rw [h.busy _ (List.mem_of_getElem? hw) nofun] at ha
      nomatch ha
    | shutdown hrun =>
      exact .inl (.taken (List.mem_append_right _ (Option.mem_toList.2 ha)))
    | close => exact .inl (.taken (List.mem_append_right _ (Option.mem_toList.2 ha)))
    | _ => exact .inl (.agent ha)
  | joined hgot =>
    obtain ⟨hlive, hopen⟩ := hfresh k hgot
    cases move_of_step hs with
    | adoptJoined hrun =>
      rw [hgot] at hrun
      exact .inl (.agent (congrArg some (RunAt.got.inj hrun).symm))
    | refuseJoined hrun hst =>
      rw [hlive] at hst
      nomatch hst
    | close => exact absurd rfl hopen
    | ends hrun => rcases hrun with hrun | hrun <;> nomatch hgot.symm.trans hrun
    | look hrun | joinSession hrun | joinNoAgent hrun | joinError hrun
    | closeRefused hrun | mark hrun | shutdown hrun | reattach hrun =>
      have hno := hgot.symm.trans hrun
      nomatch hno
    | _ => exact .inl (.joined hgot)
  | spawned hu hhas =>
    cases move_of_step hs with
    | spawnStart hrun => exact .inl (.spawned (List.mem_append_left _ hu) hhas)
    | spawnOk hw =>
      obtain hw' | ⟨u, hu, hhas⟩ := hset hw hu hhas (.got c.sessions.length)
      · nomatch hw'
      · exact .inl (.spawned hu hhas)
    | spawnFail hw =>
      obtain hw' | ⟨u, hu, hhas⟩ := hset hw hu hhas .finished
      · nomatch hw'
      · exact .inl (.spawned hu hhas)
    | adoptSpawned hw =>
      obtain hw' | ⟨u, hu, hhas⟩ := hset hw hu hhas .finished
      · exact .inl (.agent (congrArg some (beq_iff_eq.1 hw')))
      · exact .inl (.spawned hu hhas)
    | @refuseSpawned i j hw =>
      obtain hw' | ⟨u, hu, hhas⟩ := hset hw hu hhas (.refused j)
      · exact .inl (.spawned (List.mem_set (List.getElem?_eq_some_iff.1 hw).1 _) hw')
      · exact .inl (.spawned hu hhas)
    | stopRefused hw =>
      obtain hw' | ⟨u, hu, hhas⟩ := hset hw hu hhas .finished
      · refine .inr ?_
        rw [beq_iff_eq.1 hw']
        exact sent_stop_self c hk
      · exact .inl (.spawned hu hhas)
    | _ => exact .inl (.spawned hu hhas)

/-- A session that a step brings is in somebody's hands. -/
theorem held_of_new (hs : c.step l = some d) (hk : k < d.sessions.length) :
    k < c.sessions.length ∨ d.Held k := by
  have hnew (h : k < c.obtain_.sessions.length) :
      k < c.sessions.length ∨ c.sessions.length = k := by
    unfold obtain_ at h
    rw [List.length_append, List.length_singleton] at h
    omega
  cases move_of_step hs with
  | joinSession hrun => exact (hnew hk).imp_right fun h => .joined (congrArg RunAt.got h)
  | spawnOk hw =>
    have hlt := (List.getElem?_eq_some_iff.1 hw).1
    exact (hnew hk).imp_right fun h => .spawned (List.mem_set hlt _) (beq_iff_eq.2 h)
  | closeRefused hrun => exact .inl (List.length_modify .. ▸ hk)
  | stopRefused hw => exact .inl (List.length_modify .. ▸ hk)
  | sendStop hmem => exact .inl (List.length_modify .. ▸ hk)
  | _ => exact .inl hk

/-- The steps after which the Stop is sent on session `k`, for the goroutine that has it once
the client is stopped. -/
inductive Due (c : Client) (k : ℕ) : List Label → Prop
  | sent (h : c.sent k = true) : Due c k []
  | taken (h : k ∈ c.stopping) : Due c k [.sendStop k]
  | refused {i : ℕ} (h : c.spawns[i]? = some (.refused k)) : Due c k [.stopRefused i]
  | got {i : ℕ} (h : c.spawns[i]? = some (.got k)) : Due c k [.adoptSpawned i, .stopRefused i]

theorem due_of_held (h : c.Single) (hst : c.stopped = true)
    (hfresh : ∀ j, c.run = .got j → c.stopped = false) (hk : c.Held k) : ∃ ls, c.Due k ls := by
  cases hk with
  | taken hmem => exact ⟨_, .taken hmem⟩
  | agent ha =>
    rw [h.released hst] at ha
    nomatch ha
  | joined hgot =>
    rw [hfresh k hgot] at hst
    nomatch hst
  | @spawned w hw hhas =>
    obtain ⟨i, hi⟩ := List.getElem?_of_mem hw
    cases w with
    | got j => exact ⟨_, .got (beq_iff_eq.1 hhas ▸ hi)⟩
    | refused j => exact ⟨_, .refused (beq_iff_eq.1 hhas ▸ hi)⟩
    | calling => nomatch hhas
    | finished => nomatch hhas

/-- The steps that are due can be made, and they send the Stop. -/
theorem sent_of_due (hst : c.stopped = true) (hk : k < c.sessions.length) {ls : List Label}
    (h : c.Due k ls) : ∃ d, exec step c ls = some d ∧ d.sent k = true := by
  cases h with
  | sent h => exact ⟨c, rfl, h⟩
  | taken h =>
    refine ⟨{ c.stop k with stopping := c.stopping.erase k }, ?_, sent_stop_self c hk⟩
    simp only [exec, step, if_pos h, Option.bind_some]
  | @refused i h =>
    refine ⟨{ c.stop k with spawns := c.spawns.set i .finished }, ?_, sent_stop_self c hk⟩
    simp only [exec, step, h, Option.bind_some]
  | @got i h =>
    have hlt : i < c.spawns.length := (List.getElem?_eq_some_iff.1 h).1
    let d : Client := { c with spawns := c.spawns.set i (.refused k) }
    have hrefuse : c.step (.adoptSpawned i) = some d := by simp only [step, h, if_pos hst, d]
    have hstop : d.step (.stopRefused i) =
        some { d.stop k with spawns := d.spawns.set i .finished } := by
      simp only [step, d, List.getElem?_set_self hlt]
    refine ⟨{ d.stop k with spawns := d.spawns.set i .finished }, ?_, sent_stop_self d hk⟩
    simp only [exec, hrefuse, hstop, Option.bind_some]

end Client

/-! ## The pod over whole runs -/

/-- A step of the pod is one of the runner or one of the client. -/
theorem client_of_step {l : PodLabel} (hs : p.step l = some q) :
    q.client = p.client ∧ (p.runner.One → q.runner.One) ∨
      ∃ m, l = .client m ∧ p.client.step m = some q.client ∧ q.runner = p.runner := by
  cases l with
  | open_ first starts =>
    obtain rfl := Option.some.inj hs
    exact .inl ⟨rfl, fun h => h.open_ first starts⟩
  | closeRunner =>
    obtain rfl := Option.some.inj hs
    exact .inl ⟨rfl, id⟩
  | client m =>
    simp only [Pod.step] at hs
    split at hs
    · nomatch hs
    · obtain ⟨d, hd, rfl⟩ := Option.map_eq_some_iff.1 hs
      exact .inr ⟨m, rfl, hd, rfl⟩

structure Orderly (p : Pod) : Prop where
  one : p.runner.One
  single : p.client.Single

theorem Orderly.step (h : Orderly p) {l : PodLabel} (hs : p.step l = some q) : Orderly q := by
  rcases client_of_step hs with ⟨hc, hr⟩ | ⟨m, -, hc, hr⟩
  · exact ⟨hr h.one, hc ▸ h.single⟩
  · exact ⟨hr ▸ h.one, h.single.step hc⟩

theorem orderly_of_reach {ok : Pod → PodLabel → Prop} (h : Reach Pod.step ok {} p) : Orderly p :=
  h.invariant Orderly ⟨rfl, Client.single_init⟩ fun hp _ hs => hp.step hs

/-- A stopped client stays stopped, so it never holds an agent again. -/
theorem agent_of_stopped (ho : Orderly p) (hst : p.client.stopped = true)
    (h : Reach Pod.step (fun _ _ => True) p q) : q.client.agent = none := by
  have hboth : Orderly q ∧ q.client.stopped = true := by
    refine h.invariant (fun q => Orderly q ∧ q.client.stopped = true) ⟨ho, hst⟩ ?_
    intro a b l ha _ hs
    refine ⟨ha.1.step hs, ?_⟩
    rcases client_of_step hs with ⟨hsame, -⟩ | ⟨m, -, hm, -⟩
    · exact hsame ▸ ha.2
    · exact Client.stopped_of_step hm ha.2
  exact hboth.1.single.released hboth.2

/-- No join brings a session to a client that is stopped: `Close` does not come between a join's
reply and its adoption, and no reply with a session comes after `Close`. -/
def joinsInTime (p : Pod) : PodLabel → Bool
  | .client .close =>
    match p.client.run with
    | .got _ => false
    | _ => true
  | .client (.joinReply .session) => !p.client.stopped
  | _ => true

/-- Every session is in somebody's hands or has been sent the Stop. -/
structure Covered (p : Pod) : Prop where
  fresh : ∀ k, p.client.run = .got k → p.client.stopped = false
  all : ∀ k < p.client.sessions.length, p.client.sent k = true ∨ p.client.Held k

theorem fresh_of_step {m : Label} (h : ∀ k, p.client.run = .got k → p.client.stopped = false)
    (hok : joinsInTime p (.client m) = true) (hs : p.client.step m = some d) (k : ℕ)
    (hgot : d.run = .got k) : d.stopped = false := by
  cases Client.move_of_step hs with
  | look hrun =>
    dsimp only at hgot
    split at hgot <;> nomatch hgot
  | joinSession hrun =>
    simp only [joinsInTime, Bool.not_eq_true'] at hok
    exact hok
  | close =>
    replace hgot : p.client.run = .got k := hgot
    simp only [joinsInTime, hgot] at hok
    nomatch hok
  | _ => first | exact h k hgot | nomatch hgot

theorem Covered.step (h : Covered p) (ho : Orderly p) {l : PodLabel} (hok : joinsInTime p l = true)
    (hs : p.step l = some q) : Covered q := by
  rcases client_of_step hs with ⟨hc, -⟩ | ⟨m, rfl, hc, -⟩
  · exact ⟨hc ▸ h.fresh, hc ▸ h.all⟩
  refine ⟨fresh_of_step h.fresh hok hc, fun k hk => ?_⟩
  rcases Client.held_of_new hc hk with hold | hheld
  · have hopen (j : ℕ) (hgot : p.client.run = .got j) : m ≠ .close := by
      rintro rfl
      simp only [joinsInTime, hgot] at hok
      nomatch hok
    rcases h.all k hold with hsent | hheld
    · exact .inl ((Client.sent_of_step hc hold).2.1 hsent)
    · have hfresh (j : ℕ) (hgot : p.client.run = .got j) :=
        And.intro (h.fresh j hgot) (hopen j hgot)
      exact (Client.held_or_sent ho.single hfresh hc hold hheld).symm
  · exact .inr hheld

theorem covered_of_reach (h : Reach Pod.step (joinsInTime · · = true) {} p) : Covered p := by
  have hboth : Orderly p ∧ Covered p := by
    refine h.invariant (fun p => Orderly p ∧ Covered p) ?_ ?_
    · exact ⟨⟨rfl, Client.single_init⟩, nofun, nofun⟩
    · intro _ _ _ hp hok hs
      exact ⟨hp.1.step hs, hp.2.step hp.1 hok hs⟩
  exact hboth.2

/-- The runner starts one process at most. The client has one spawn in progress at most, and an
agent that it holds stays until the client is stopped. A stopped client holds no agent and takes
none, and every session that it has obtained has been sent the Stop or is sent it by the next
steps of the goroutine that has it, if no join brings a session to a client that is stopped. -/
theorem agents_single {p : Pod} (h : Reach Pod.step (joinsInTime · · = true) {} p) :
    p.runner.started ≤ 1 ∧
    (p.client.spawns.filter (· ≠ .finished)).length ≤ 1 ∧
    (∀ l q k, p.step l = some q → p.client.agent = some k →
      q.client.agent = some k ∨ q.client.agent = none ∧ q.client.stopped = true) ∧
    (p.client.stopped = true →
      (∀ q, Reach Pod.step (fun _ _ => True) p q → q.client.agent = none) ∧
      ∀ k < p.client.sessions.length, ∃ ls d, p.client.Due k ls ∧
        exec Client.step p.client ls = some d ∧ d.sent k = true) := by
  have ho := orderly_of_reach h
  have hc := covered_of_reach h
  refine ⟨ho.one.started_le, Nat.le_trans (List.length_filter_le _ _) ho.single.one, ?_, ?_⟩
  · intro l q k hs hk
    rcases client_of_step hs with ⟨hsame, -⟩ | ⟨m, -, hm, -⟩
    · exact .inl (hsame ▸ hk)
    · exact ho.single.held hm hk
  · intro hst
    refine ⟨?_, fun k hk => ?_⟩
    · exact fun q hq => agent_of_stopped ho hst hq
    · have hdue : ∃ ls, p.client.Due k ls := by
        rcases hc.all k hk with hsent | hheld
        · exact ⟨[], .sent hsent⟩
        · exact Client.due_of_held ho.single hst hc.fresh hheld
      obtain ⟨ls, hls⟩ := hdue
      obtain ⟨d, hd⟩ := Client.sent_of_due hst hk hls
      exact ⟨ls, d, hls, hd⟩

/-- The manager's Spawn starts the agent; the Shutdown comes before the spawn's reply is adopted. -/
def stoppedSpawn : List PodLabel :=
  [.client .look, .client (.joinReply .noAgent), .client .mark, .client .spawnDirective,
    .open_ (.spawn "s") true, .client (.spawnReply 0 true), .client .shutdown]

theorem agents_single_stoppedSpawn :
    ∃ p, Reach Pod.step (joinsInTime · · = true) {} p ∧ p.runner.started = 1 ∧
      p.client.stopped = true ∧ p.client.sent 0 = false ∧
      ∃ ls d, p.client.Due 0 ls ∧ exec Client.step p.client ls = some d ∧ d.sent 0 = true := by
  have hrun :
      Reach Pod.step (joinsInTime · · = true) {} ((exec Pod.step {} stoppedSpawn).getD {}) :=
    .of_exec_guarded stoppedSpawn (by decide)
  refine ⟨_, hrun, by decide, by decide, by decide, ?_⟩
  exact ((agents_single hrun).2.2.2 (by decide)).2 0 (by decide)

/-- A sidecar that has restarted joins the agent that runs; the client is closed while the join
is under way. -/
def stoppedJoin : List PodLabel :=
  [.open_ (.spawn "s") true, .client .look, .client .close, .client (.joinReply .session),
    .client .adoptJoined, .client .closeRefused]

/-- Nobody has session `k` any more, and no Stop was sent on it. -/
structure Lost (p : Pod) (k : ℕ) : Prop where
  known : k < p.client.sessions.length
  unsent : p.client.sent k = false
  unheld : ¬ p.client.Held k

theorem Lost.step (h : Lost p k) {l : PodLabel} (hs : p.step l = some q) : Lost q k := by
  rcases client_of_step hs with ⟨hsame, -⟩ | ⟨m, -, hm, -⟩
  · exact ⟨hsame ▸ h.known, hsame ▸ h.unsent, hsame ▸ h.unheld⟩
  · obtain ⟨hknown, -, hsent⟩ := Client.sent_of_step hm h.known
    refine ⟨hknown, (hsent h.unheld).trans h.unsent, fun hheld => ?_⟩
    exact h.unheld (Client.held_of_step hm h.known hheld)

/-- The session of the join is closed without a Stop, and none is sent on it later: the agent
goes on without a client. -/
theorem agent_left_running :
    ∃ p, Reach Pod.step (fun _ _ => True) {} p ∧ p.runner.started = 1 ∧
      p.client.stopped = true ∧ p.client.sessions = [{ closed := true }] ∧
      ∀ q, Reach Pod.step (fun _ _ => True) p q → q.client.sent 0 = false := by
  have hrun : Reach Pod.step (fun _ _ => True) {} ((exec Pod.step {} stoppedJoin).getD {}) :=
    .of_exec_getD stoppedJoin (by decide)
  refine ⟨_, hrun, by decide, by decide, by decide, fun q hq => ?_⟩
  have hlost : Lost ((exec Pod.step {} stoppedJoin).getD {}) 0 := by
    refine ⟨by decide, by decide, fun hheld => ?_⟩
    cases hheld with
    | taken h => nomatch h
    | agent h => nomatch h
    | joined h => nomatch h
    | spawned hw => nomatch hw
  exact (hq.invariant (Lost · 0) hlost fun hp _ hs => hp.step hs).unsent

end AgentOps.Sidecar
