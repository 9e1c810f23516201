import AgentOps.Service.Pending

/-!
# The programs keep the discipline of the pending statuses

A launch owns the session from its claim to its `register`, its first write makes the stored status
a pending one, and nobody else writes the status until the session runs. What one step can do to
what is counted follows (`step_adds`): in any orderly run a session becomes live only by the insert
of its row, it becomes pending only by that insert or by the claim of a launch, and its stored
status becomes pending only by the insert or by the first write of a launch.
-/

namespace AgentOps.Service.Admission

open AgentOps.Api AgentOps.Link AgentOps.Lib

variable {x : Update} {st : SessionState} {s : Config sig Mem}

variable {cfg : Settings} {t u : ℕ} {op : Op} {c : Choice} {r : op.Res} {m m' : Mem}
  {A : Mem → Prop} {α : Type}

/-! ## Launches -/

theorem update_pending {r : Bool} (hx : x.target = some st) (hst : pendingStatus st = true)
    (hrow : m.db.row.isSome = true) (hdo : perform t (.store (.update x)) m c = some (r, m'))
    (h : r = true ∨ storedPending m = true) : storedPending m' = true := by
  simp only [perform, StoreOp.perform] at hdo
  split at hdo
  · cases hdo
    obtain ⟨row, hrow⟩ := Option.isSome_iff_exists.mp hrow
    have hstatus : ({ m with db := m.db.update (x.apply m.unix) } : Mem).status = some st := by
      show (m.db.update (x.apply m.unix)).row.map Row.status = _
      rw [update_status_target, hx, hrow]
      rfl
    unfold storedPending
    rw [hstatus]
    exact hst
  · cases hdo
    obtain h | h := h
    · cases h
    · exact h

theorem update_owning {r : Bool} (h : Owning t m)
    (hdo : perform t (.store (.update x)) m c = some (r, m')) : Owning t m' := by
  have hslot : m'.slot = m.slot := perform_slot (by trivial) hdo
  exact ⟨by rw [hslot]; exact h.taken, by rw [hslot]; exact h.victim, by rw [hslot]; exact h.cancel⟩

/-- A write of a pending status over a pending one. -/
theorem update_begun (hx : x.target = some st) (hst : pendingStatus st = true)
    (hl : x ≠ .launched) : Pends cfg t (Begun t) (store (.update x)) fun _ => Begun t := by
  refine .perform private_begun.stable ?_ ?_
  · intro m _ _ hm
    show grounded x m
    cases x <;> first | exact fun _ _ _ => hm.2 | exact absurd rfl hl
  · intro m c r m' _ hgiven hm _ hdo _
    have hrow := hgiven.inv.writer_row hm.1.writer
    exact ⟨update_owning hm.1 hdo, update_pending (t := t) hx hst hrow hdo (.inr hm.2)⟩

/-- The first write of a launch. -/
theorem update_launched : Pends cfg t (Owning t) (store (.update .launched)) fun r m =>
    Owning t m ∧ (r = true → storedPending m = true) := by
  refine .perform private_owning.stable ?_ ?_
  · intro m _ hgiven hm
    exact hm.launchOwned hgiven.inv
  · intro m c r m' _ hgiven hm _ hdo _
    have hrow := hgiven.inv.writer_row hm.writer
    have hlaunched : Update.launched.target = some .launching := rfl
    exact ⟨update_owning hm hdo,
      fun hr => update_pending (t := t) hlaunched rfl hrow hdo (.inl hr)⟩

theorem write_pends {update : P Bool} {Q : Bool → Mem → Prop} (hA : Private t A)
    (h : Pends cfg t A update Q) (hno : ∀ m, A m → Q false m) : Pends cfg t A (write update) Q := by
  refine (hA.uses uses_getSession rfl).bind fun r => ?_
  split
  · exact .ret fun m _ hm => hno m hm
  · split
    · exact .ret fun m _ hm => hno m hm
    · exact h

theorem failLaunch_pends (sess : Row) (opts : LaunchOpts) (claimName : String) (reason : EndReason)
    (detail : String) :
    Pends cfg t A (failLaunch sess opts claimName reason detail >>= fun _ => pure false)
      fun _ _ => True :=
  (pends_rest (uses_failLaunch ..) rfl).bind fun _ => pends_done

theorem recordLink_pends (b : ℕ) (claimName sandboxName acpSessionId : String) (readySeq : ℕ) :
    Pends cfg t (Registered t) (recordLink b claimName sandboxName acpSessionId readySeq)
      fun _ _ => True := by
  have hsandbox : Pends cfg t (Registered t)
      (store (.update (.sandbox claimName sandboxName .awaitingApproval))) fun _ _ => True := by
    refine .perform private_registered.stable ?_ fun _ _ _ _ _ _ _ _ _ _ => trivial
    intro m _ _ hm _ _ _
    exact hm.2
  have hacp : Pends cfg t (fun _ => True) (store (.update (.acp acpSessionId .running)))
      fun _ _ => True := by
    refine .perform private_true.stable ?_ fun _ _ _ _ _ _ _ _ _ _ => trivial
    rintro m _ _ _ st ⟨⟩ hst
    cases hst
  have hlink : Uses [.link] (store (.update (.link b readySeq))) := .act _ rfl
  refine write_pends private_registered ?_ fun _ _ => trivial
  refine hsandbox.bind fun ok => ?_
  split
  · refine (pends_rest hlink rfl).bind fun ok => ?_
    split
    · exact hacp
    · exact pends_done
  · exact pends_done

theorem runRegistered_pends (b : ℕ) (opts : LaunchOpts) (opening : Bool)
    (claimName sandboxName : String) (ready : String × ℕ) :
    Pends cfg t (Registered t) (runRegistered b opts opening claimName sandboxName ready)
      fun _ _ => True := by
  have hready : Uses [.closeReady] (onBinding b .closeReady) := .act _ rfl
  refine (recordLink_pends ..).bind fun linked => ?_
  have hrun : Pends cfg t (fun _ => True)
      (if linked then runLinked b opts opening else stopUnlinked b opts opening : P Unit)
      fun _ _ => True := by
    split
    · exact pends_rest (uses_runLinked ..) rfl
    · exact pends_rest (uses_stopUnlinked ..) rfl
  refine .spawn private_true.stable (fun _ _ _ _ _ _ => trivial) (hrun.bind fun _ => ?_)
  exact pends_rest hready rfl

/-- A launch that registers is the owner until then, and nobody else writes the status. -/
theorem register_pends : Pends cfg t (Bound t) (slot .register) fun r m =>
    r = true → Registered t m := by
  refine .perform private_bound.stable (fun _ _ _ _ => trivial) ?_
  intro m c r m' _ hgiven hm _ hdo _ hr
  have hm' : m' = { m with slot := (m.slot.register t).2 } := by cases hdo; rfl
  have hr' : (m.slot.register t).1 = true := by
    cases hdo
    exact hr
  unfold Slot.register at hr' hm'
  split at hr'
  · cases hr'
  · rename_i hentry
    rw [if_neg hentry] at hm'
    rw [hm']
    exact ⟨⟨by simp, hm.2⟩, hm.1.2⟩

theorem bindSession_pends (sess : Row) (opts : LaunchOpts) (claimName sandboxName : String)
    (ready : String × ℕ) :
    Pends cfg t (Begun t) (bindSession t sess opts claimName sandboxName ready)
      fun _ _ => True := by
  have hcreate : Pends cfg t (Begun t) (onBinding t (.create claimName t false []))
      fun _ => Bound t := by
    refine .perform private_begun.stable (fun _ _ _ _ => trivial) ?_
    intro m c r m' _ _ hm _ hdo _
    cases hdo
    refine ⟨⟨⟨hm.1.taken, hm.1.victim, hm.1.cancel⟩, hm.2⟩, ?_⟩
    simp [Mem.setBind]
  refine hcreate.bind fun _ => ?_
  refine (private_bound.uses (uses_saveOpening ..) rfl).bind fun opening => ?_
  refine register_pends.bind fun ok => ?_
  split
  · rename_i hok
    refine ((runRegistered_pends ..).of_imp fun m _ hm => hm hok).bind fun _ => pends_done
  · have hclose : Uses (.closeConsumed :: .closeSession :: .closeReady :: failKinds) (do
        onBinding t .closeConsumed
        onBinding t .closeSession
        failLaunch sess opts claimName .launchFailed ""
        onBinding t .closeReady
        pure false : P Bool) := by
      refine Uses.bind (.act (.bind t .closeConsumed) rfl) fun _ => ?_
      refine Uses.bind (.act (.bind t .closeSession) rfl) fun _ => ?_
      refine ((uses_failLaunch ..).mono rfl).bind fun _ => ?_
      exact Uses.bind (.act (.bind t .closeReady) rfl) fun _ => .pure _
    exact pends_rest hclose rfl

theorem activateAndRun_pends (sess : Row) (opts : LaunchOpts) (claimName sandboxName : String) :
    Pends cfg t (Begun t) (activateAndRun sess opts claimName sandboxName) fun _ _ => True := by
  have hself : Pends cfg t (Begun t) (ext .self) fun n m => n = t ∧ Begun t m := by
    refine .perform private_begun.stable (fun _ _ _ _ => trivial) ?_
    intro m c r m' _ _ hm _ hdo _
    cases hdo
    exact ⟨rfl, hm⟩
  have hspawn : Uses [.spawnAgent] (ext .spawnAgent) := .act _ rfl
  have hready : Uses [.awaitReady] (ext .awaitReady) := .act _ rfl
  have hfail (err : ActivateError) : Pends cfg t (Begun t)
      (activateFailed sess opts claimName err >>= fun _ => pure false) fun _ _ => True :=
    (pends_rest (uses_activateFailed ..) rfl).bind fun _ => pends_done
  refine hself.bind fun n => .of_fact ?_
  rintro rfl
  refine (private_begun.uses hspawn rfl).bind fun ok => ?_
  split
  · refine (private_begun.uses hready rfl).bind fun r => ?_
    split
    · exact bindSession_pends ..
    · exact hfail _
  · exact hfail _

theorem launchRun_pends (sess : Row) (opts : LaunchOpts) (claimName sandboxName : String) :
    Pends cfg t (Begun t) (launchRun sess opts claimName sandboxName) fun _ _ => True := by
  have hcreate : Uses [.createRun] (ext (.createRun opts.approvalPrompt
      (expectedSubject sess opts.revive) sess.templateSpec.mcpServers)) := .act _ rfl
  have hexpect : Uses [.expect] (ext .expect) := .act _ rfl
  refine (private_begun.uses hcreate rfl).bind fun r => ?_
  split
  · exact failLaunch_pends ..
  · rename_i res
    refine (private_begun.uses hexpect rfl).bind fun ok => ?_
    split
    · have hrun : Pends cfg t (Begun t) (store (.update (.run res.runId))) fun _ => Begun t :=
        update_begun (show _ = some .awaitingApproval from rfl) rfl nofun
      refine (write_pends private_begun hrun fun _ hm => hm).bind fun ok => ?_
      split
      · refine (private_begun.uses (uses_emit _ (.stateChanged ..)) rfl).bind fun _ => ?_
        refine (private_begun.uses (uses_emit _ (.approvalRequired ..)) rfl).bind fun _ => ?_
        exact activateAndRun_pends ..
      · exact failLaunch_pends ..
    · exact failLaunch_pends ..

theorem beginLaunch_pends (old : SessionState) (reason : Reason) :
    Pends cfg t (Owning t) (beginLaunch old reason) fun ok m => ok = true → Begun t m := by
  have hwrite : Pends cfg t (Owning t) (write (store (.update .launched))) fun r m =>
      Owning t m ∧ (r = true → storedPending m = true) :=
    write_pends private_owning update_launched fun m hm => ⟨hm, nofun⟩
  refine hwrite.bind fun ok => ?_
  split
  · rename_i hok
    refine ((private_begun.uses (uses_emit _ (.stateChanged ..)) rfl).of_imp
      fun m _ hm => ⟨hm.1, hm.2 hok⟩).bind fun _ => ?_
    exact .ret fun _ _ hm _ => hm
  · exact .ret fun _ _ _ => nofun

theorem launchSession_pends (sess : Row) (opts : LaunchOpts) :
    Pends cfg t (Owning t) (launchSession sess opts) fun _ _ => True := by
  unfold launchSession
  split
  · refine (beginLaunch_pends ..).bind fun ok => ?_
    split
    · rename_i hok
      refine ((private_begun.uses (uses_workspace ..) rfl).of_imp fun _ _ hm => hm hok).bind
        fun r => ?_
      split
      · exact failLaunch_pends ..
      · rename_i claimName sandboxName
        have hsandbox : Pends cfg t (Begun t)
            (store (.update (.sandbox claimName sandboxName .launching))) fun _ => Begun t :=
          update_begun (show _ = some .launching from rfl) rfl nofun
        refine (write_pends private_begun hsandbox fun _ hm => hm).bind fun ok => ?_
        split
        · exact launchRun_pends ..
        · exact failLaunch_pends ..
    · exact failLaunch_pends ..
  · exact (pends_rest (uses_endSession ..) rfl).bind fun _ => pends_done

theorem launchBody_pends (opts : LaunchOpts) :
    Pends cfg t (Owning t) (launchBody opts) fun _ _ => True := by
  refine (private_owning.uses uses_getSession rfl).bind fun r => ?_
  split
  · exact (pends_rest (uses_failTurn ..) rfl).bind fun _ => pends_done
  · rename_i sess
    have hstopped : Uses [.stopped] (slot .stopped) := .act _ rfl
    refine (private_owning.uses hstopped rfl).bind fun r => ?_
    split
    · exact failLaunch_pends ..
    · split
      · refine (private_owning.uses uses_nextTurn rfl).bind fun r => ?_
        split
        · exact failLaunch_pends ..
        · rename_i turnId turnSeq
          have hnote : Uses [.accepted] (note (.accepted turnId)) := .act _ rfl
          refine (private_owning.uses hnote rfl).bind fun _ => ?_
          exact launchSession_pends sess { opts with turnId, turnSeq }
      · exact launchSession_pends sess opts

theorem launch_pends (opts : LaunchOpts) :
    Pends cfg t (Owning t) (launch opts) fun _ _ => True := by
  refine (launchBody_pends opts).bind fun r => ?_
  split
  · have hself : Uses [.self] (ext .self) := .act _ rfl
    refine (pends_rest hself rfl).bind fun b => ?_
    exact .spawn private_true.stable (fun _ _ _ _ _ _ => trivial) pends_done
  · exact .jump private_true.stable fun _ _ _ => trivial

/-! ## The calls that launch -/

theorem claim_owning (hu : m.slot.Unused t) (he : m.slot.entry = none) {m' : Mem}
    (hm : m'.slot = (m.slot.claim t true).2) : Owning t m' := by
  rw [Slot.claim_of_none he] at hm
  refine ⟨by rw [hm]; simp, ?_, by rw [hm]; simp⟩
  rw [hm]
  simp [hu.2.1]

theorem createSession_pends (templateSpec : TemplateSpec) (approvalPrompt initialPrompt : String) :
    Pends cfg t (fun _ => True) (createSession templateSpec approvalPrompt initialPrompt)
      fun _ _ => True := by
  have hcreator : (pendings cfg).Stable t fun m => m.creator = some t :=
    fun _ _ _ _ ho hm => (other_spares ho).creator hm
  have hinsert : Pends cfg t (fun _ => True) (store (.createSession templateSpec))
      fun r m => r = true → m.creator = some t := by
    refine .perform private_true.stable (fun _ _ _ _ => trivial) ?_
    intro m c r m' _ _ _ _ hdo _ hr
    simp only [system, perform, StoreOp.perform] at hdo
    split at hdo
    · cases hdo
      rfl
    · cases hdo
      cases hr
  -- The row is pending and nobody owns it, so the claim succeeds.
  have hclaim : Pends cfg t (fun m => m.creator = some t) (slot (.claim true))
      fun _ => Owning t := by
    refine .perform hcreator (fun _ _ _ _ => trivial) ?_
    intro m c r m' _ hgiven hm _ hdo _
    have he : m.slot.entry = none :=
      (hgiven.inv.created (by rw [hm]; exact Option.some_ne_none t)).1
    cases hdo
    exact claim_owning hgiven.protocol he rfl
  refine hinsert.bind fun r => ?_
  split
  · rename_i hr
    refine (hclaim.of_imp fun _ _ hm => hm hr).bind fun _ => ?_
    refine (private_owning.uses (uses_emit _ (.stateChanged ..)) rfl).bind fun _ => ?_
    exact launch_pends { approvalPrompt, agentPrompt := initialPrompt }
  · exact pends_done

theorem promptSuspended_pends (content : String) :
    Pends cfg t (fun _ => True) (promptSuspended content) fun _ _ => True := by
  have hclaim : Pends cfg t (fun _ => True) (slot (.claim true))
      fun r m => r = true → Owning t m := by
    refine .perform private_true.stable (fun _ _ _ _ => trivial) ?_
    intro m c r m' _ hgiven _ _ hdo _ hr
    have hentry : m.slot.entry = none := by
      cases hdo
      exact claim_true hr
    cases hdo
    exact claim_owning hgiven.protocol hentry rfl
  have hsettle : Pends cfg t (Owning t) (.jump (.settle .nothing)) fun (_ : Unit) _ => True :=
    .jump private_owning.stable fun _ _ _ => trivial
  refine hclaim.bind fun r => ?_
  split
  · rename_i hr
    refine ((private_owning.uses uses_getSession rfl).of_imp fun _ _ hm => hm hr).bind fun r => ?_
    split
    · exact hsettle
    · split
      · exact hsettle
      · refine (private_owning.uses uses_nextTurn rfl).bind fun r => ?_
        split
        · exact hsettle
        · rename_i turnId turnSeq
          have hnote : Uses [.accepted] (note (.accepted turnId)) := .act _ rfl
          refine (private_owning.uses hnote rfl).bind fun _ => ?_
          exact launch_pends { revive := true, approvalPrompt := content ++ continuationClause,
                               agentPrompt := content, turnId, turnSeq }
  · exact pends_done

theorem prompt_pends (content : String) :
    Pends cfg t (fun _ => True) (prompt content) fun _ _ => True := by
  refine (private_true.uses uses_getSession rfl).bind fun r => ?_
  split
  · exact pends_done
  · split
    · have hlookup : Uses [.lookup] (slot .lookup) := .act _ rfl
      refine (private_true.uses hlookup rfl).bind fun r => ?_
      split
      · exact pends_done
      · exact pends_rest (uses_promptRunning ..) rfl
    · split
      · exact promptSuspended_pends content
      · exact pends_done

/-! ## Every run -/

theorem code_pends (e : Entry) :
    Pends cfg t ((pendings cfg).entry t e) (code cfg e) fun _ _ => True := by
  cases e with
  | createSession templateSpec approvalPrompt initialPrompt => exact createSession_pends ..
  | prompt content => exact prompt_pends content
  | _ =>
    refine pends_rest (uses_code cfg ?_ ?_) rfl
    all_goals nofun

theorem pendings_lawful : (pendings cfg).Lawful where
  inv_act _ _ _ _ _ := trivial
  inv_env _ _ _ := trivial
  inv_crash _ _ := trivial
  fresh_other _ _ _ := trivial
  fresh_crash _ _ _ := trivial
  entry_start _ _ _ _ := trivial
  entry_safe hinv h := (code_pends _).safe hinv h

theorem standing_of_orderly (h : Reach (system cfg).step orderlyStep init s) {k : op.Res → P Unit}
    (hk : s.threads t = some (.act op k)) : Standing cfg t op s.mem := by
  have hledger := ledger_good (h.mono fun _ _ => orderlyStep_ok cfg)
  have hpre := (protocol_good (h.mono fun _ _ _ => trivial)).pre (t := t) hk trivial
  exact ⟨hpre, hledger.pre hk hpre, hledger.inv⟩

theorem pendings_good (h : Reach (system cfg).step orderlyStep init s) : (pendings cfg).Good s := by
  have hok (a : Config sig Mem) (l : ThreadLabel sig Choice EnvStep) (hl : orderlyStep a l) :
      (pendings cfg).ok a l := by
    cases l with
    | run t c => exact fun op k hk => hl op (System.mem_pending hk)
    | _ => trivial
  have hback (a : Config sig Mem) (l : ThreadLabel sig Choice EnvStep)
      (hl : (pendings cfg).ok a l) : orderlyStep a l := by
    cases l with
    | run t c =>
      intro op hop
      obtain ⟨k, hk⟩ := System.exists_of_pending hop
      exact hl op k hk
    | _ => trivial
  refine pendings_lawful.sound ?_ ?_ (h.mono hok)
  · exact ⟨trivial, fun _ _ => ⟨trivial, rfl⟩, nofun⟩
  · intro s hs t op k hk
    exact standing_of_orderly (hs.mono hback) hk

/-! ## What a step can do -/

/-- The insert of a row. -/
def inserts : Op → Bool
  | .store (.createSession _) => true
  | _ => false

/-- The operations that `accept` performs inside `admit`: the insert of a row and the claim of a
launch. -/
def spends : Op → Bool
  | .store (.createSession _) | .slot (.claim true) => true
  | _ => false

/-- The first write of a launch. -/
def launches : Op → Bool
  | .store (.update .launched) => true
  | _ => false

/-- What a step can add to what is counted. -/
structure Adds (op : Option Op) (m m' : Mem) : Prop where
  live : isLive m' = true → isLive m = true ∨ op.any inserts = true
  stored : storedPending m' = true →
    storedPending m = true ∨ op.any inserts = true ∨ op.any launches = true
  pending : isPending m' = true → isPending m = true ∨ op.any spends = true

theorem Adds.of_eq (hslot : launchOwned m'.slot = true → launchOwned m.slot = true)
    (hstatus : m'.status = m.status) {op : Option Op} : Adds op m m' := by
  have hstored := storedPending_congr hstatus
  refine ⟨fun h => ?_, fun h => ?_, fun h => ?_⟩
  · left
    unfold isLive at h ⊢
    rw [hstatus] at h
    exact h
  · left
    rw [hstored] at h
    exact h
  · left
    unfold isPending at h ⊢
    rw [Bool.or_eq_true, hstored] at h
    rw [Bool.or_eq_true]
    exact h.imp_left hslot

/-- A final status counts for nothing. -/
theorem pendingStatus_of_final (h : isFinal st = true) :
    pendingStatus st = false ∧ st.terminal = true := by
  cases st <;> first | exact ⟨rfl, rfl⟩ | cases h

/-- A status is written over one that is not final. -/
theorem isLive_of_update (hs : Standing cfg t (.store (.update x)) m) : isLive m = true := by
  obtain ⟨hw, hterm, -⟩ := hs.promise
  obtain ⟨row, hrow⟩ := Option.isSome_iff_exists.mp (hs.inv.writer_row hw)
  rw [Db.terminal_eq, hrow] at hterm
  unfold isLive Mem.status
  rw [hrow]
  simpa using hterm

/-- A status that is written is not a pending one, or takes the place of one, or is the first of a
launch. -/
theorem updated_adds (hx : x.target = some st) (hs : Standing cfg t (.store (.update x)) m)
    (hpre : grounded x m) (hslot : m'.slot = m.slot)
    (hstatus : m'.status = m.status.map fun _ => st) : Adds (some (.store (.update x))) m m' := by
  have hpending (h : storedPending m' = true) : pendingStatus st = true := by
    unfold storedPending at h
    rw [hstatus] at h
    cases hm : m.status with
    | none => simp [hm] at h
    | some old => simpa [hm] using h
  refine ⟨fun _ => .inl (isLive_of_update hs), fun h => ?_, fun h => ?_⟩
  · cases x with
    | launched => exact .inr (.inr rfl)
    | _ => exact .inl (hpre st hx (hpending h))
  · left
    unfold isPending at h ⊢
    rw [Bool.or_eq_true, hslot] at h
    rw [Bool.or_eq_true]
    obtain h | h := h
    · exact .inl h
    · cases x with
      | launched => exact .inl hpre
      | _ => exact .inr (hpre st hx (hpending h))

theorem perform_adds (hs : Standing cfg t op m) (hpre : pendingPre op m)
    (hdo : perform t op m c = some (r, m')) : Adds (some op) m m' := by
  have hslot (hop : op ≠ .slot (.claim true)) := launchOwned_perform hs.protocol hop hdo
  cases perform_status hdo with
  | same hstatus =>
    by_cases hop : op = .slot (.claim true)
    · subst hop
      -- The claim is counted from here on, and nothing else changes.
      have hsame : Adds none { m with slot := m'.slot } m' := by
        apply Adds.of_eq
        · exact id
        · exact hstatus
      exact ⟨fun h => (hsame.live h).imp_right nofun, fun h => (hsame.stored h).imp_right nofun,
        fun _ => .inr rfl⟩
    · exact .of_eq (hslot hop) hstatus
  | created templateSpec => exact ⟨fun _ => .inr rfl, fun _ => .inr (.inl rfl), fun _ => .inr rfl⟩
  | updated x st hx hstatus =>
    exact updated_adds hx hs hpre (perform_slot (by trivial) hdo) hstatus
  | finished st events hstatus =>
    obtain ⟨hpending, hterm⟩ := pendingStatus_of_final hs.promise.2.final
    have hstored : storedPending m' = false := by
      unfold storedPending
      rw [hstatus]
      exact hpending
    refine ⟨fun h => ?_, fun h => ?_, fun h => ?_⟩
    · simp [isLive, hstatus, hterm] at h
    · rw [hstored] at h
      cases h
    · left
      rw [isPending, hstored, Bool.or_false] at h
      rw [isPending, hslot nofun h, Bool.true_or]

/-- The operation of a step. -/
def acting (s : Config sig Mem) : ThreadLabel sig Choice EnvStep → Option Op
  | .run t _ => System.pending s t
  | _ => none

theorem step_adds {s' : Config sig Mem} {l : ThreadLabel sig Choice EnvStep}
    (h : Reach (system cfg).step orderlyStep init s) (hs : (system cfg).step s l = some s') :
    Adds (acting s l) s.mem s'.mem := by
  cases System.step_mem hs with
  | @act t c op k r hk hdo =>
    have hop : acting s (.run t c) = some op := System.mem_pending hk
    rw [hop]
    have hstanding := standing_of_orderly h hk
    exact perform_adds hstanding ((pendings_good h).pre hk hstanding) hdo
  | spawn _ hmem | start _ hmem | silent hmem =>
    rw [hmem]
    exact .of_eq id rfl
  | env hdo =>
    have hstill := env_still hdo
    exact .of_eq (by rw [hstill.slot]; exact id) hstill.status
  | crash hmem =>
    -- Nobody owns a session after a crash.
    have hslot : launchOwned s'.mem.slot = false := by
      rw [hmem]
      rfl
    have hstatus : s'.mem.status = s.mem.status := by
      rw [hmem]
      rfl
    exact .of_eq (by rw [hslot]; exact nofun) hstatus

end AgentOps.Service.Admission
