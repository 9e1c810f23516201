import AgentOps.Slackbot.LimitedTheorems

/-!
# The queue of the parked updates

The client keeps the parked updates twice: `order` has the keys in the order in which the worker
looks at them, and `pending` the newest update of each key. The two are changed together in every
section under `Limited.mu`. For each key the worker sends the updates in the order in which they
were submitted.
-/

namespace AgentOps.Slackbot.Limited

open AgentOps.Lib

/-! ## The two views -/

/-- `order` has the keys of `pending`, each of them once. -/
structure Views (order : List String) (pending : String → Option PendingUpdate) : Prop where
  nodup : order.Nodup
  keys : ∀ key, key ∈ order ↔ (pending key).isSome = true

section

variable {order : List String} {pending : String → Option PendingUpdate} {key : String}

/-- A key that is not parked is parked at the end. -/
theorem Views.park (h : Views order pending) (hnew : pending key = none) (up : PendingUpdate) :
    Views (order ++ [key]) (Function.update pending key (some up)) := by
  have hout : key ∉ order := by
    rw [h.keys, hnew]
    exact Bool.false_ne_true
  constructor
  · rw [(List.perm_append_singleton key order).nodup_iff, List.nodup_cons]
    exact ⟨hout, h.nodup⟩
  · intro key'
    rw [List.mem_append, List.mem_singleton, h.keys]
    rcases eq_or_ne key' key with rfl | hne
    · simp
    · rw [Function.update_of_ne hne]
      simp [hne]

/-- A newer update takes the place of the one that is parked. -/
theorem Views.replace (h : Views order pending) (hold : pending key ≠ none) (up : PendingUpdate) :
    Views order (Function.update pending key (some up)) := by
  refine ⟨h.nodup, fun key' => ?_⟩
  rw [h.keys]
  rcases eq_or_ne key' key with rfl | hne
  · rw [Function.update_self]
    simpa [Option.isSome_iff_ne_none] using hold
  · rw [Function.update_of_ne hne]

theorem Views.cancel (h : Views order pending) (key : String) :
    Views (order.erase key) (Function.update pending key none) := by
  refine ⟨h.nodup.erase key, fun key' => ?_⟩
  rw [h.nodup.mem_erase_iff, h.keys]
  rcases eq_or_ne key' key with rfl | hne
  · simp
  · rw [Function.update_of_ne hne]
    simp [hne]

/-- The key at the front goes to the end. -/
theorem Views.rotate (h : Views (key :: order) pending) : Views (order ++ [key]) pending := by
  have hperm := List.perm_append_singleton key order
  constructor
  · rw [hperm.nodup_iff]
    exact h.nodup
  · intro key'
    rw [hperm.mem_iff]
    exact h.keys key'

theorem Views.pop (h : Views (key :: order) pending) :
    Views order (Function.update pending key none) := by
  have := h.cancel key
  rwa [List.erase_cons_head] at this

/-- A key at the front is parked. -/
theorem Views.head (h : Views (key :: order) pending) : pending key ≠ none := by
  have := (h.keys key).1 List.mem_cons_self
  rwa [Option.isSome_iff_ne_none] at this

end

theorem views_nextSendable (n : ℕ) (allows : List Bool) (s : Client) (h : Views s.order s.pending) :
    Views (Client.nextSendable n allows s).2.order (Client.nextSendable n allows s).2.pending := by
  induction n generalizing allows s with
  | zero => exact h
  | succ n ih =>
    rw [Client.nextSendable]
    split
    · exact h
    · rename_i key order horder
      rw [horder] at h
      split
      · rename_i hnone
        exact absurd hnone h.head
      · split
        · exact h.pop
        · exact ih allows.tail _ h.rotate

theorem views_step {s t : Client} {l : Label} (h : Views s.order s.pending)
    (hs : step s l = some t) : Views t.order t.pending := by
  cases step_inv hs with
  | @submit m ht =>
    rw [ht]
    unfold Client.updateMessageDebounced
    dsimp only
    split
    · rename_i hnew
      exact h.park hnew _
    · rename_i hold
      exact h.replace hold _
  | @cancel c call _ ht =>
    rw [ht]
    unfold Client.setCall Client.cancelPending
    split
    · exact h
    · exact h.cancel call.target.updateKey
  | take _ ht =>
    rw [ht]
    exact views_nextSendable _ _ s h
  | @repark up _ ht =>
    rw [ht]
    unfold Client.repark
    split
    · rename_i hnew
      exact h.park hnew up
    · exact h
  | start _ ht | call _ _ _ _ ht | send _ _ ht | other _ ht =>
    rw [ht]
    exact h

/-! ## The order of the sends -/

/-- The numbers of the updates that were sent for a key. -/
def sentFor (key : String) : List Event → List ℕ
  | [] => []
  | .send m n :: log => if m.updateKey = key then n :: sentFor key log else sentFor key log
  | _ :: log => sentFor key log

theorem sentFor_append (key : String) (log log' : List Event) :
    sentFor key (log ++ log') = sentFor key log ++ sentFor key log' := by
  induction log with
  | nil => rfl
  | cons e log ih =>
    rw [List.cons_append]
    cases e with
    | send m n =>
      simp only [sentFor]
      split
      · rw [ih, List.cons_append]
      · exact ih
    | submit | start | done => exact ih

theorem sentFor_concat_send (key : String) (log : List Event) (m : Target) (n : ℕ) :
    sentFor key (log ++ [Event.send m n]) =
      if m.updateKey = key then sentFor key log ++ [n] else sentFor key log := by
  rw [sentFor_append]
  simp only [sentFor]
  split
  · rfl
  · exact List.append_nil _

/-- Whatever is sent for a key later was submitted no earlier than what was sent for it: this
goes for what is parked and for what the worker has in hand, which is older than what is parked. -/
structure InOrder (s : Client) : Prop where
  keyed : ∀ key up, s.pending key = some up → up.target.updateKey = key
  parkedNew : ∀ key up, s.pending key = some up → up.number < s.submitted
  handNew : ∀ up, s.worker.inHand = some up → up.number < s.submitted
  sentNew : ∀ key, ∀ n ∈ sentFor key s.log, n < s.submitted
  parked : ∀ key up, s.pending key = some up → ∀ n ∈ sentFor key s.log, n ≤ up.number
  hand : ∀ up, s.worker.inHand = some up →
    ∀ n ∈ sentFor up.target.updateKey s.log, n ≤ up.number
  older : ∀ up, s.worker.inHand = some up →
    ∀ up', s.pending up.target.updateKey = some up' → up.number ≤ up'.number
  sorted : ∀ key, (sentFor key s.log).Pairwise (· ≤ ·)

theorem inOrder_init : InOrder {} where
  keyed _ _ h := nomatch h
  parkedNew _ _ h := nomatch h
  handNew _ h := nomatch h
  sentNew _ _ h := nomatch h
  parked _ _ h := nomatch h
  hand _ h := nomatch h
  older _ h := nomatch h
  sorted _ := .nil

/-- Fewer updates are parked, and the worker has the same in hand or nothing. -/
theorem InOrder.less {s t : Client} (h : InOrder s)
    (hpend : ∀ key up, t.pending key = some up → s.pending key = some up)
    (hhand : ∀ up, t.worker.inHand = some up → s.worker.inHand = some up)
    (hsub : t.submitted = s.submitted) (hlog : ∀ key, sentFor key t.log = sentFor key s.log) :
    InOrder t where
  keyed key up hup := h.keyed key up (hpend key up hup)
  parkedNew key up hup := hsub ▸ h.parkedNew key up (hpend key up hup)
  handNew up hup := hsub ▸ h.handNew up (hhand up hup)
  sentNew key n hn := by
    rw [hlog] at hn
    exact hsub ▸ h.sentNew key n hn
  parked key up hup n hn := by
    rw [hlog] at hn
    exact h.parked key up (hpend key up hup) n hn
  hand up hup n hn := by
    rw [hlog] at hn
    exact h.hand up (hhand up hup) n hn
  older up hup up' hup' := h.older up (hhand up hup) up' (hpend _ _ hup')
  sorted key := by
    rw [hlog]
    exact h.sorted key

theorem InOrder.submit {s : Client} (h : InOrder s) (m : Target) :
    InOrder (s.updateMessageDebounced m) := by
  have hlog (key : String) : sentFor key (s.updateMessageDebounced m).log = sentFor key s.log := by
    show sentFor key (s.log ++ [_]) = _
    rw [sentFor_append]
    exact List.append_nil _
  have hpend {key : String} {up : PendingUpdate}
      (hup : (s.updateMessageDebounced m).pending key = some up) :
      key = m.updateKey ∧ up = ⟨m, s.submitted⟩ ∨ s.pending key = some up :=
    (update_eq_some hup).imp id And.right
  have hnext : (s.updateMessageDebounced m).submitted = s.submitted + 1 := rfl
  constructor
  · intro key up hup
    rcases hpend hup with ⟨rfl, rfl⟩ | hup
    · rfl
    · exact h.keyed key up hup
  · intro key up hup
    rw [hnext]
    rcases hpend hup with ⟨rfl, rfl⟩ | hup
    · exact Nat.lt_succ_self _
    · have := h.parkedNew key up hup
      omega
  · intro up hup
    rw [hnext]
    have := h.handNew up hup
    omega
  · intro key n hn
    rw [hlog] at hn
    rw [hnext]
    have := h.sentNew key n hn
    omega
  · intro key up hup n hn
    rw [hlog] at hn
    rcases hpend hup with ⟨rfl, rfl⟩ | hup
    · exact Nat.le_of_lt (h.sentNew _ n hn)
    · exact h.parked key up hup n hn
  · intro up hup n hn
    rw [hlog] at hn
    exact h.hand up hup n hn
  · intro up hup up' hup'
    rcases hpend hup' with ⟨-, rfl⟩ | hup'
    · exact Nat.le_of_lt (h.handNew up hup)
    · exact h.older up hup up' hup'
  · intro key
    rw [hlog]
    exact h.sorted key

theorem InOrder.take {s : Client} (h : InOrder s) {allows : List Bool} {worker : WorkerPlace}
    (hhand : worker.inHand = (Client.nextSendable s.order.length allows s).1) :
    InOrder { (Client.nextSendable s.order.length allows s).2 with worker } := by
  obtain ⟨order, pending, heq, hless, htaken⟩ := nextSendable_spec s.order.length allows s
  rw [heq]
  rw [← hhand] at htaken
  constructor
  · exact fun key up hup => h.keyed key up (hless key up hup)
  · exact fun key up hup => h.parkedNew key up (hless key up hup)
  · intro up hup
    obtain ⟨key, hold, -⟩ := htaken up hup
    exact h.parkedNew key up hold
  · exact h.sentNew
  · exact fun key up hup => h.parked key up (hless key up hup)
  · intro up hup
    obtain ⟨key, hold, -⟩ := htaken up hup
    rw [h.keyed key up hold]
    exact h.parked key up hold
  · intro up hup up' hup'
    -- the key of the update that was taken is free
    obtain ⟨key, hold, hfree⟩ := htaken up hup
    rw [h.keyed key up hold] at hup'
    nomatch hfree.symm.trans hup'
  · exact h.sorted

theorem InOrder.send {s : Client} (h : InOrder s) {up : PendingUpdate} {worker : WorkerPlace}
    (hup : s.worker.inHand = some up) (hhand : worker.inHand = some up) :
    InOrder { s with worker, log := s.log ++ [.send up.target up.number] } := by
  have hmem {key : String} {n : ℕ}
      (hn : n ∈ sentFor key (s.log ++ [.send up.target up.number])) :
      n ∈ sentFor key s.log ∨ up.target.updateKey = key ∧ n = up.number := by
    rw [sentFor_concat_send] at hn
    split at hn
    · rename_i hkey
      rcases List.mem_append.1 hn with hn | hn
      · exact .inl hn
      · exact .inr ⟨hkey, List.mem_singleton.1 hn⟩
    · exact .inl hn
  have hsame {up' : PendingUpdate} (hup' : worker.inHand = some up') : up' = up :=
    Option.some.inj (hup'.symm.trans hhand)
  constructor
  · exact h.keyed
  · exact h.parkedNew
  · intro up' hup'
    obtain rfl := hsame hup'
    exact h.handNew up' hup
  · intro key n hn
    rcases hmem hn with hn | ⟨-, rfl⟩
    · exact h.sentNew key n hn
    · exact h.handNew up hup
  · intro key up' hup' n hn
    rcases hmem hn with hn | ⟨rfl, rfl⟩
    · exact h.parked key up' hup' n hn
    · exact h.older up hup up' hup'
  · intro up' hup' n hn
    obtain rfl := hsame hup'
    rcases hmem hn with hn | ⟨-, rfl⟩
    · exact h.hand up' hup n hn
    · exact Nat.le_refl _
  · intro up' hup'
    obtain rfl := hsame hup'
    exact h.older up' hup
  · intro key
    rw [sentFor_concat_send]
    split
    · rename_i hkey
      rw [List.pairwise_append]
      refine ⟨h.sorted key, List.pairwise_singleton .., fun n hn m hm => ?_⟩
      rw [List.mem_singleton.1 hm]
      exact h.hand up hup n (hkey ▸ hn)
    · exact h.sorted key

theorem InOrder.repark {s : Client} (h : InOrder s) {up : PendingUpdate}
    (hup : s.worker.inHand = some up) : InOrder (s.repark up) := by
  unfold Client.repark
  split
  · have hpend {key : String} {up' : PendingUpdate}
        (hup' : Function.update s.pending up.target.updateKey (some up) key = some up') :
        key = up.target.updateKey ∧ up' = up ∨ s.pending key = some up' :=
      (update_eq_some hup').imp id And.right
    constructor
    · intro key up' hup'
      rcases hpend hup' with ⟨rfl, rfl⟩ | hup'
      · rfl
      · exact h.keyed key up' hup'
    · intro key up' hup'
      rcases hpend hup' with ⟨-, rfl⟩ | hup'
      · exact h.handNew up' hup
      · exact h.parkedNew key up' hup'
    · exact nofun
    · exact h.sentNew
    · intro key up' hup'
      rcases hpend hup' with ⟨rfl, rfl⟩ | hup'
      · exact h.hand up' hup
      · exact h.parked key up' hup'
    · exact nofun
    · exact nofun
    · exact h.sorted
  · exact h.less (fun _ _ h => h) nofun rfl fun _ => rfl

theorem inOrder_step {s t : Client} {l : Label} (h : InOrder s) (hs : step s l = some t) :
    InOrder t := by
  cases step_inv hs with
  | @submit m ht => exact ht ▸ h.submit m
  | start _ ht =>
    subst ht
    refine h.less (fun _ _ hup => hup) (fun _ hup => hup) rfl fun key => ?_
    rw [sentFor_append]
    exact List.append_nil _
  | @cancel c call _ ht =>
    obtain ⟨-, hpend, order, pending, heq⟩ := cancelPending_frame s call.target.updateKey
    rw [heq] at ht hpend
    exact ht ▸ h.less hpend (fun _ hup => hup) rfl fun _ => rfl
  | call _ _ _ hlog ht =>
    subst ht
    refine h.less (fun _ _ hup => hup) (fun _ hup => hup) rfl fun key => ?_
    rcases hlog with rfl | rfl
    · rfl
    · rw [sentFor_append]
      exact List.append_nil _
  | take hhand ht => exact ht ▸ h.take hhand
  | send hup hhand ht => exact ht ▸ h.send hup hhand
  | repark hup ht => exact ht ▸ h.repark hup
  | other hhand ht =>
    subst ht
    refine h.less (fun _ _ hup => hup) (fun up hup => ?_) rfl fun _ => rfl
    rcases hhand with hhand | hhand
    · exact hhand ▸ hup
    · nomatch hhand.symm.trans hup

/-! ## One call of `nextSendable` -/

/-- The keys that the loop of `nextSendable` looks at. -/
def looks : ℕ → List Bool → Client → List String
  | 0, _, _ => []
  | n + 1, allows, s =>
    match s.order with
    | [] => []
    | key :: order =>
      key :: match s.pending key with
        | none => looks n allows { s with order }
        | some _ =>
          if allows.head? = some true then []
          else looks n allows.tail { s with order := order ++ [key] }

/-- What the loop does with the keys in front, when those that it refused are behind them. -/
structure Round (s : Client) (front refused : List String) (looked : List String)
    (r : Option PendingUpdate × Client) : Prop where
  inFront : looked <+: front
  none : r.1 = none → looked = front ∧ r.2.order = refused ++ looked
  some : ∀ up, r.1 = some up → ∃ before key, looked = before ++ [key] ∧ s.pending key = some up ∧
    r.2.order = front.drop looked.length ++ (refused ++ before)

theorem nextSendable_round (front : List String) (allows : List Bool) (s : Client)
    (refused : List String) (horder : s.order = front ++ refused)
    (hparked : ∀ key ∈ front, s.pending key ≠ none) :
    Round s front refused (looks front.length allows s)
      (Client.nextSendable front.length allows s) := by
  induction front generalizing allows s refused with
  | nil =>
    refine ⟨List.nil_prefix, fun _ => ⟨rfl, ?_⟩, fun _ h => by cases h⟩
    show s.order = refused ++ []
    rw [List.append_nil]
    exact horder
  | cons key front ih =>
    obtain ⟨up, hup⟩ := Option.ne_none_iff_exists'.1 (hparked key List.mem_cons_self)
    rw [List.cons_append] at horder
    simp only [List.length_cons, Client.nextSendable, looks, horder, hup]
    split
    · refine ⟨⟨front, rfl⟩, (fun h => by cases h), fun up' h => ⟨[], key, rfl, ?_, ?_⟩⟩
      · rw [hup]
        exact h
      · simp
    · have hround := ih allows.tail { s with order := front ++ refused ++ [key] } (refused ++ [key])
        (List.append_assoc ..) fun key' hkey' => hparked key' (List.mem_cons_of_mem _ hkey')
      refine ⟨?_, fun hnone => ?_, fun up' hsome => ?_⟩
      · obtain ⟨rest, hrest⟩ := hround.inFront
        exact ⟨rest, by rw [List.cons_append, hrest]⟩
      · obtain ⟨hlooked, hafter⟩ := hround.none hnone
        refine ⟨by rw [hlooked], ?_⟩
        rw [hafter, List.append_assoc, List.singleton_append]
      · obtain ⟨before, key', hlooked, hkey', hafter⟩ := hround.some up' hsome
        refine ⟨key :: before, key', by rw [hlooked, List.cons_append], hkey', ?_⟩
        rw [hafter, List.length_cons, List.drop_succ_cons]
        simp

/-- Whenever the lock is free, `order` has the keys of `pending` and no key twice; for each key the
updates were sent in the order of their submission; and `nextSendable` looks at the keys from the
front, at each of them once, and puts those that it refuses behind the others in their order. -/
theorem queue_views {s : Client} (h : Reach step (fun _ _ => True) {} s) :
    (s.order.Nodup ∧ ∀ key, key ∈ s.order ↔ (s.pending key).isSome = true) ∧
    (∀ key, (sentFor key s.log).Pairwise (· ≤ ·)) ∧
    ∀ allows, (looks s.order.length allows s).Nodup ∧
      Round s s.order [] (looks s.order.length allows s)
        (Client.nextSendable s.order.length allows s) := by
  have hinv : Views s.order s.pending ∧ InOrder s := by
    apply h.invariant fun s => Views s.order s.pending ∧ InOrder s
    · refine ⟨⟨List.nodup_nil, fun key => ?_⟩, inOrder_init⟩
      exact iff_of_false List.not_mem_nil Bool.false_ne_true
    · intro a b l ha _ hs
      exact ⟨views_step ha.1 hs, inOrder_step ha.2 hs⟩
  obtain ⟨hviews, horder⟩ := hinv
  refine ⟨⟨hviews.nodup, hviews.keys⟩, horder.sorted, fun allows => ?_⟩
  have hround := nextSendable_round s.order allows s [] (List.append_nil _).symm fun key hkey =>
    Option.isSome_iff_ne_none.1 ((hviews.keys key).1 hkey)
  exact ⟨hviews.nodup.sublist hround.inFront.sublist, hround⟩

/-- Two messages are parked, the first one twice; the worker is refused for the first one and sends
the second one, which fails. -/
def parkedTwice : List Label :=
  [.submit ⟨"c", "1"⟩, .submit ⟨"c", "2"⟩, .submit ⟨"c", "1"⟩, .take [false, true], .workerMu,
    .workerLock, .workerSend false, .workerUnlock, .repark]

theorem queue_views_parkedTwice :
    ∃ s, Reach step (fun _ _ => True) {} s ∧ s.order = ["c|1", "c|2"] ∧ s.order.Nodup ∧
      sentFor "c|2" s.log = [1] := by
  have hrun : Reach step (fun _ _ => True) {} ((exec step {} parkedTwice).getD {}) :=
    .of_exec_getD parkedTwice (by decide)
  exact ⟨_, hrun, by decide, (queue_views hrun).1.1, by decide⟩

end AgentOps.Slackbot.Limited
