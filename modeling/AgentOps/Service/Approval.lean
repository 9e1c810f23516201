import AgentOps.Service.Footprint

/-!
# What a call asks the approver

The prompt of the run that a call creates: the prompt of `CreateSession`, or the content of
`Prompt` with the clause for a continuation. It is read off the programs, so it holds of a call
in whatever company it runs.
-/

namespace AgentOps.Service

open AgentOps.Api AgentOps.Link AgentOps.Lib

/-- The operation creates a run with no other prompt than this one. -/
def Op.asks (prompt : String) (op : Op) : Prop :=
  ∀ p subject servers, op = .ext (.createRun p subject servers) → p = prompt

/-- A program that a launch starts or continues as. -/
def Entry.inner (e : Entry) : Prop := e.kind ∈ [Kind.settle, .consume, .watchRun, .stop]

theorem asks_of_kind {prompt : String} {op : Op} (h : op.kind ≠ .createRun) : op.asks prompt := by
  rintro p subject servers rfl
  exact absurd rfl h

theorem inner_of_kind {e : Entry} (h : e.kind ≠ .call) : e.inner := by
  cases e <;> first | exact absurd rfl h | simp [Entry.inner, Entry.kind]

/-- A program without `CreateRun`. -/
theorem Uses.asks {α : Type} {kinds : List Kind} {p : P α} {prompt : String} (hp : Uses kinds p)
    (hrun : kinds.elem .createRun = false) (hcall : kinds.elem .call = false) :
    p.Within (Op.asks prompt) Entry.inner := by
  have hnot {ρ σ : Kind} (hρ : ρ ∈ kinds) (hσ : kinds.elem σ = false) : ρ ≠ σ := by
    rintro rfl
    rw [List.elem_iff.mpr hρ] at hσ
    cases hσ
  exact hp.within (fun op hop => asks_of_kind (hnot hop hrun))
    fun e he => inner_of_kind (hnot he hcall)

theorem launchWithin_asks (approvalPrompt : String) (revive : Bool) :
    LaunchWithin (Op.asks approvalPrompt) Entry.inner approvalPrompt revive where
  ops op hop := by
    apply asks_of_kind
    intro heq
    rw [heq] at hop
    exact absurd (List.elem_iff.mpr hop) (by decide)
  entries e he := by
    apply inner_of_kind
    intro heq
    rw [heq] at he
    exact absurd (List.elem_iff.mpr he) (by decide)
  createRun sess p subject servers h := by
    cases h
    rfl

variable (cfg : Settings)

/-- Thread `t` serves the call `e` in a state of some run, from the call on. -/
def Handles (e : Entry) (t : ℕ) (s : Config sig Mem) : Prop :=
  ∃ s₀ s₁, s₀.next = t ∧ (system cfg).step s₀ (.start e) = some s₁ ∧
    Reach (system cfg).step (fun _ _ => True) s₁ s

/-- Thread `t` creates a run with this prompt as its next step. -/
def CreatesRun (s : Config sig Mem) (t : ℕ) (prompt : String) : Prop :=
  ∃ subject servers, System.pending s t = some (.ext (.createRun prompt subject servers))

variable {cfg} {s : Config sig Mem} {t : ℕ} {p : String}

/-- The operations of a call stay within what its program can do. -/
theorem Handles.asks {e : Entry} {prompt : String} (h : Handles cfg e t s)
    (he : (code cfg e).Within (Op.asks prompt) Entry.inner) (hrun : CreatesRun s t p) :
    p = prompt := by
  obtain ⟨s₀, s₁, rfl, hstart, hreach⟩ := h
  have hcode : ∀ e : Entry, e.inner →
      ((system cfg).code e).Within (Op.asks prompt) Entry.inner := by
    intro e he
    have hunl : Uses unlaunchedKinds (code cfg e) := by
      refine uses_code cfg ?_ ?_ <;> rintro - <;> intros <;> rintro rfl <;>
        simp [Entry.inner, Entry.kind] at he
    exact hunl.asks rfl rfl
  simp only [System.step] at hstart
  split at hstart
  · cases hstart
    have h₀ : ∀ q, Function.update s₀.threads s₀.next (some (code cfg e)) s₀.next = some q →
        q.Within (Op.asks prompt) Entry.inner := by
      intro q hq
      rw [Function.update_self] at hq
      cases hq
      exact he
    have hw := System.within_of_reach hcode hreach (Nat.lt_succ_self _) h₀
    obtain ⟨subject, servers, hpend⟩ := hrun
    obtain ⟨k, hthread⟩ := System.exists_of_pending hpend
    exact (hw.2 _ hthread).1 _ _ _ rfl
  · cases hstart

/-- `CreateSession` asks with its approval prompt. -/
theorem createSession_asks {templateSpec : TemplateSpec} {approvalPrompt initialPrompt : String}
    (h : Handles cfg (.createSession templateSpec approvalPrompt initialPrompt) t s)
    (hrun : CreatesRun s t p) : p = approvalPrompt :=
  h.asks ((launchWithin_asks approvalPrompt false).createSession templateSpec initialPrompt
    (asks_of_kind nofun)) hrun

/-- `Prompt` asks with its content and the clause for a continuation. -/
theorem prompt_asks {content : String} (h : Handles cfg (.prompt content) t s)
    (hrun : CreatesRun s t p) : p = content ++ continuationClause :=
  h.asks (launchWithin_asks (content ++ continuationClause) true).prompt hrun

/-! ## Calls that create a run -/

/-- A state in which a call has just come in. -/
def called (cfg : Settings) (s : Config sig Mem) (e : Entry) : Config sig Mem :=
  { s with threads := Function.update s.threads s.next (some (code cfg e)), next := s.next + 1 }

theorem handles_called {e : Entry} (hopen : opens s.mem e = true)
    (ls : List (ThreadLabel sig Choice EnvStep))
    (h : (exec (system cfg).step (called cfg s e) ls).isSome = true) :
    Handles cfg e s.next ((exec (system cfg).step (called cfg s e) ls).getD (called cfg s e)) := by
  refine ⟨s, called cfg s e, rfl, ?_, Reach.of_exec_getD ls h⟩
  simp only [System.step, show (system cfg).opens s.mem e = true from hopen, if_true]
  rfl

/-- The steps of a launch up to its run. -/
def launching : List (ThreadLabel sig Choice EnvStep) :=
  List.flatten [steps 0 8, steps 0 1 { claimName := "c" }, steps 0 2]

/-- Whatever its prompt, `CreateSession` can get to create a run. -/
theorem createSession_creates (approvalPrompt : String) :
    ∃ t s, Handles idleLimit (.createSession (.snapshot "") approvalPrompt "") t s ∧
      CreatesRun s t approvalPrompt :=
  ⟨0, _, handles_called (s := init) rfl launching rfl, "", [], rfl⟩

/-- A session is launched and approved, is idle, and is suspended. -/
def pausing : List (ThreadLabel sig Choice EnvStep) := List.flatten
  [[.start (.createSession (.snapshot "") "" "")], launching, steps 0 8,
    [.env (.agent 0 (.opened "s" true)), .env (.pushEvent 0)],
    steps 0 15 { run := { approverSubject := "u" } },
    [.env (.tick (5 * 10 ^ 9)), .start .sweepIdle],
    steps 3 4, steps 1 2 { ok := false }, steps 3 19]

/-- A paused session. -/
def paused : Config sig Mem := (exec (system idleLimit).step init pausing).getD init

/-- A branch that is decided leaves the thread with the rest of the program. -/
theorem reach_of_branch {c : Prop} [Decidable c] (hc : ¬ c) {α : Type} {p q : P α} {k : α → P Unit}
    {s' : Config sig Mem} (h : s.threads t = some ((if c then p else q) >>= k))
    (hreach : Reach (system cfg).step (fun _ _ => True)
      { s with threads := Function.update s.threads t (some (q >>= k)) } s') :
    Reach (system cfg).step (fun _ _ => True) s s' := by
  rw [if_neg hc] at h
  rw [← h, Function.update_eq_self] at hreach
  exact hreach

/-- A `Prompt` of a paused session has got to its launch. -/
def continuing (content : String) : Config sig Mem :=
  (exec (system idleLimit).step (called idleLimit paused (.prompt content)) (steps 4 7)).getD
    (called idleLimit paused (.prompt content))

/-- Whatever its content, a `Prompt` of a paused session can get to create a run. -/
theorem prompt_creates (content : String) :
    ∃ t s, Handles idleLimit (.prompt content) t s ∧
      CreatesRun s t (content ++ continuationClause) := by
  obtain ⟨s₀, s₁, ht, hstart, hreach⟩ :=
    handles_called (s := paused) (e := .prompt content) rfl (steps 4 7) rfl
  -- The launch has a turn already. An evaluation stops here, since the content is open.
  have hturn : ¬ (content ≠ "" ∧ "t1" = "") := by simp
  have hrest : Reach (system idleLimit).step (fun _ _ => True) (continuing content) _ :=
    reach_of_branch (t := 4) hturn rfl (Reach.of_exec_getD (steps 4 6) rfl)
  refine ⟨4, _, ⟨s₀, s₁, ht, hstart, hreach.trans hrest⟩, "u", [], ?_⟩
  rfl

end AgentOps.Service
