import Mistral.Engine.CompletionEffects

/-! The moves of the handlers, and of every step of the engine. -/

namespace Mistral

variable {sc : Scope} {spec : WorkflowSpec} {ls : ListSort} {o : Oracle} {t : TaskId}

/-! ### Task handlers -/

theorem kept_forceFailTask (hown : sc.own = some t) (msg : String) : Kept sc (forceFailTask o t msg) :=
  .bind (kept_setState_completed hown rfl) fun _ => kept_stopWorkflow o _ _

theorem kept_checkAffectedTasks (task : Task) : Kept sc (checkAffectedTasks spec task) := by
  refine .bind (kept_taskEx _) fun e => ?_
  split
  · exact .pure _
  refine .bind .get fun s => ?_
  split
  · exact .pure _
  · exact .modify fun _ => .of_eq rfl (fun _ => rfl) rfl rfl rfl

/-- The shared part of the handlers adds to what the body does. -/
theorem evolves_handling {lib : Bool} {what : String} {task : Task} {body : M Unit} {s : Engine} (hown : sc.own = some task.id)
    (hbody : Ends body s (fun _ => Evolves sc s) fun _ => Evolves sc s) :
    Ends (handling spec o lib what task body) s (fun _ => Evolves sc s) fun _ => Evolves sc s := by
  unfold handling
  have hthen : ∀ {s'}, Evolves sc s s' → ∀ {m : M Unit}, Kept sc m →
      Ends m s' (fun _ => Evolves sc s) fun _ => Evolves sc s := fun h _ hm =>
    (hm _).mono (fun _ _ => h.trans) fun _ _ => h.trans
  rw [Ends.bind_iff, Ends.tryCatch_iff]
  simp only [Ends.bind_iff, Ends.pure_iff, if_true]
  refine hbody.mono (fun _ s' h => hthen h (kept_checkAffectedTasks task)) fun e s' h => ?_
  split
  · simp only [Ends.bind_iff, Ends.pure_iff, Bool.false_eq_true, if_false]
    exact hthen h (kept_forceFailTask hown _)
  · exact h

theorem kept_handling {lib : Bool} {what : String} {task : Task} {body : M Unit} (hown : sc.own = some task.id)
    (hbody : Kept sc body) : Kept sc (handling spec o lib what task body) := fun s => evolves_handling hown (hbody s)

/-- A task that is built for `t` has the id `t`. -/
theorem kept_bind_buildTask {α : Type} {f : Task → M α} (h : ∀ task : Task, task.id = t → Kept sc (f task)) :
    Kept sc (buildTask spec t >>= f) := by
  unfold buildTask
  rw [bind_assoc]
  refine .bind (kept_taskSpecOf spec t) fun ts => ?_
  rw [pure_bind]
  exact h _ rfl

/-- The handler of a start request: unless it is for the first run, it reopens the task. -/
theorem evolves_runTask {m : StartTask} (hown : sc.own = some m.taskEx) {s : Engine}
    (h : m.firstRun = false → ∀ v, s.view m.taskEx = some v → v.state ≠ .success → v.state.isCompleted →
      v.processed = false → sc.loses) :
    Ends (runTask spec ls o m) s (fun _ => Evolves sc s) fun _ => Evolves sc s := by
  unfold runTask taskSpecOf
  simp only [bind_assoc]
  rw [Ends.bind_iff, taskEx_iff]
  refine ⟨fun e he => ?_, fun _ => .refl s⟩
  split
  · simp only [pure_bind, Bool.false_and, Bool.false_eq_true, if_false]
    exact evolves_handling hown (evolves_run hown h)
  · exact .refl s

theorem kept_skipTaskHandler (hown : sc.own = some t) : Kept sc (skipTaskHandler spec ls o t) :=
  kept_bind_buildTask fun task hid =>
    .bind (kept_complete (by rw [hown, hid]) nofun) fun _ => kept_checkAffectedTasks task

theorem kept_onActionComplete (hown : sc.own = some t) (i : Nat) : Kept sc (onActionComplete spec ls o t i) := by
  refine kept_bind_buildTask fun task hid => .bind (kept_taskEx t) fun e => ?_
  split
  · exact .pure _
  · exact kept_handling (by rw [hown, hid]) (kept_taskOnActionComplete (by rw [hown, hid]) _)

theorem kept_scheduleOnActionComplete (hown : sc.own = some t) (i : Nat) :
    Kept sc (scheduleOnActionComplete spec ls o t i) := by
  refine .bind (kept_taskSpecOf spec t) fun ts => ?_
  split
  · exact kept_schedule hown
  · exact kept_onActionComplete hown i

/-- `continue_task` does not ask whether the task is completed. -/
theorem evolves_continueTask (hown : sc.own = some t) {s : Engine}
    (h : ∀ v, s.view t = some v → v.state.isCompleted → sc.revives) :
    Ends (continueTask spec ls o t) s (fun _ => Evolves sc s) fun _ => Evolves sc s := by
  unfold continueTask buildTask taskSpecOf
  simp only [bind_assoc]
  rw [Ends.bind_iff, taskEx_iff]
  refine ⟨fun e he => ?_, fun _ => .refl s⟩
  split
  · simp only [pure_bind]
    refine evolves_handling hown (Kept.of_bind (setState_moves fun v hv => ?_) fun _ s' ⟨v, hv, hr⟩ => ?_)
    case refine_2 =>
      refine evolves_run hown fun _ v' hv' _ hdone => ?_
      obtain rfl := Option.some.inj (hv.symm.trans hv')
      simp [hr] at hdone
    by_cases hdone : v.state.isCompleted
    · exact .revive hown (h v hv hdone)
    · exact .change hown (fun h => absurd h hdone) nofun
  · exact .refl s

theorem kept_completeTask (hown : sc.own = some t) {state : State} {info : Option String} (hw : state ≠ .waiting) :
    Kept sc (completeTask spec ls o t state info) :=
  kept_bind_buildTask fun task hid =>
    kept_handling (by rw [hown, hid]) (kept_complete (by rw [hown, hid]) hw)

theorem kept_failTaskIfIncomplete (hown : sc.own = some t) (timeout : Nat) :
    Kept sc (failTaskIfIncomplete spec ls o t timeout) := by
  refine .bind (kept_taskEx t) fun e => ?_
  split
  · exact kept_completeTask hown nofun
  · exact .pure _

theorem evolves_applyLogicalState (hown : sc.own = some t) {s : Engine} (logical : LogicalState)
    (h : ∀ v, s.view t = some v → ¬v.state.isCompleted) :
    Ends (applyLogicalState spec ls o t logical) s (fun _ => Evolves sc s) fun _ => Evolves sc s := by
  simp only [applyLogicalState, setRow, Ends.bind_iff, Ends.modify_iff]
  have hview : ∀ u, (s.setRow t fun x =>
      x.mapContext fun c => { c with triggeredBy := some logical.triggeredBy }).view u = s.view u :=
    fun u => Engine.view_setRow_quiet fun _ => rfl
  have hset : Evolves sc s (s.setRow t fun x =>
      x.mapContext fun c => { c with triggeredBy := some logical.triggeredBy }) := .of_eq rfl hview rfl rfl rfl
  split
  · refine (evolves_continueTask hown fun v hv hdone => absurd hdone (h v (hview t ▸ hv))).mono (fun _ _ => hset.trans)
      fun _ _ => hset.trans
  · exact (kept_completeTask hown (by decide) _).mono (fun _ _ => hset.trans) fun _ _ => hset.trans
  · exact hset
  · exact hset

theorem kept_refreshTaskState (hown : sc.own = some t) : Kept sc (refreshTaskState spec ls o t) := by
  intro s
  unfold refreshTaskState
  rw [Ends.bind_iff, taskEx_iff]
  refine ⟨fun e he => ?_, fun _ => .refl s⟩
  split
  · exact .refl s
  next hopen =>
  rw [Ends.bind_iff, Ends.get_iff]
  split
  · exact .refl s
  have hstate : ∀ v, s.view t = some v → ¬v.state.isCompleted := by
    intro v hv
    obtain rfl := Option.some.inj ((Engine.view_of_row he).symm.trans hv)
    simp only [Bool.or_eq_true, decide_eq_true_eq, not_or] at hopen
    exact hopen.1
  unfold taskSpecOf
  rw [bind_assoc, Ends.bind_iff, taskEx_iff]
  refine ⟨fun e' _ => ?_, fun _ => .refl s⟩
  split
  · rw [pure_bind, Ends.bind_iff, ofExcept_iff]
    exact ⟨fun logical _ => evolves_applyLogicalState hown logical hstate, fun _ _ => .refl s⟩
  · exact .refl s

theorem kept_completeAction (i : Nat) (result : ActionResult) : Kept sc (completeAction t i result) := by
  refine .bind (kept_taskEx t) fun e => ?_
  split
  · exact .throw _
  split
  · exact .throw _
  · exact kept_setRow fun _ => by rfl

theorem kept_refuseResult (hown : sc.own = some t) (i : Nat) : Kept sc (refuseResult o t i) := by
  refine .bind (kept_taskEx t) fun e => ?_
  split
  · exact .bind (kept_setRow fun _ => by rfl) fun _ => kept_forceFailTask hown _
  · exact .throw _

theorem kept_onActionResult (hown : sc.own = some t) (i : Nat) (result : ActionResult) :
    Kept sc (onActionResult spec ls o t i result) := by
  unfold onActionResult
  split
  · exact kept_refuseResult hown i
  · exact .bind (kept_completeAction i result) fun _ => kept_scheduleOnActionComplete hown i

theorem kept_subworkflowCompleted (i : Nat) (result : ActionResult) : Kept sc (subworkflowCompleted t i result) := by
  refine .bind (kept_completeAction i result) fun _ => ?_
  exact .modify fun _ => .of_eq rfl (fun _ => rfl) rfl rfl rfl

/-! ### Workflow handlers -/

theorem kept_startWorkflow (hwhole : sc.whole) (hown : sc.own = none) : Kept sc (startWorkflow spec ls o) := by
  refine .bind (kept_setWfState fun _ => hwhole) fun _ => .bind .get fun s₀ s => ?_
  rw [Ends.bind_iff, ofExcept_iff]
  refine ⟨fun cmds hcmds => ?_, fun _ _ => .refl s⟩
  refine Kept.bind (kept_dispatchWorkflowCommands spec o ls (fun t ht => ?_) (cmdOk_continueWholeWorkflow hcmds))
    (fun _ => kept_checkAndComplete spec o) s
  rw [hown] at ht
  cases ht

/-- Where every completed task is processed, the loop of `_continue_workflow` does nothing. -/
theorem markIfUnprocessed_settled (dispatched : Bool) (t : TaskId) :
    Ends.Keeps (fun s s' => s.Settled → s' = s) (markIfUnprocessed dispatched t) := by
  intro s
  unfold markIfUnprocessed
  rw [Ends.bind_iff, taskEx_iff]
  refine ⟨fun e he => ?_, fun _ _ => rfl⟩
  split
  next hc =>
    simp only [Bool.and_eq_true, Bool.not_eq_eq_eq_not, Bool.not_true] at hc
    refine .of_forall (fun _ _ h => ?_) fun _ _ h => ?_ <;>
    · have := h t _ (Engine.view_of_row he) hc.1
      simp [TaskEx.view, hc.2] at this
  · exact fun _ => rfl

theorem kept_markIfUnprocessed {dispatched : Bool} (hwhole : sc.whole) (h : dispatched = false → sc.marks) (t : TaskId) :
    Kept sc (markIfUnprocessed dispatched t) := by
  intro s
  unfold markIfUnprocessed
  rw [Ends.bind_iff, taskEx_iff]
  refine ⟨fun e he => ?_, fun _ => .refl s⟩
  split
  next hc =>
    simp only [Bool.and_eq_true, Bool.not_eq_eq_eq_not, Bool.not_true] at hc
    exact evolves_setProcessed (fun _ => .inr ⟨hwhole, hc.1⟩) (fun hd => ⟨h hd, hc⟩) he
  · exact .refl s

theorem evolves_continueWorkflowWith {dispatched : Bool} {cmds : List Cmd} {s : Engine} (hwhole : sc.whole)
    (h : dispatched = false → sc.marks ∨ s.Settled) (hcmds : ∀ cmd ∈ cmds, sc.CmdOk cmd) :
    Ends (continueWorkflowWith spec ls o dispatched cmds) s (fun _ => Evolves sc s) fun _ => Evolves sc s := by
  have hloop : Ends ((List.range s.tasks.length).forM (markIfUnprocessed dispatched)) s (fun _ => Evolves sc s)
      fun _ => Evolves sc s := by
    by_cases hm : dispatched = false → sc.marks
    · exact Kept.forM (fun t _ => kept_markIfUnprocessed hwhole hm t) s
    · simp only [Classical.not_imp] at hm
      have hs := (h hm.1).resolve_left hm.2
      have hid : Ends.Keeps (fun s s' => s.Settled → s' = s)
          ((List.range s.tasks.length).forM (markIfUnprocessed dispatched)) :=
        Ends.Keeps.forM (fun _ _ => rfl) (fun h h' hs => by
          obtain rfl := h hs
          exact h' hs) fun t _ => markIfUnprocessed_settled dispatched t
      have hrefl : ∀ {s'}, (s.Settled → s' = s) → Evolves sc s s' := fun h => by
        rw [h hs]
        exact .refl s
      exact (hid s).mono (fun _ _ => hrefl) fun _ _ => hrefl
  unfold continueWorkflowWith
  dsimp only
  rw [Ends.bind_iff, Ends.get_iff]
  refine Ends.bind hloop (fun _ s' h' => ?_) fun _ _ h => h
  have hrest : Kept sc (do
      if cmds.filter (!·.isPause) = [] ∧ (← get).wf.backlog = [] then checkAndCompleteWorkflow spec o
      else dispatchWorkflowCommands spec o ls (skipTaskHandler spec ls o) (cmds.filter (!·.isPause))) := by
    refine .bind .get fun s => ?_
    split
    · exact kept_checkAndCompleteWorkflow spec o
    · exact kept_dispatchWorkflowCommands spec o ls (fun t ht => kept_skipTaskHandler ht)
        fun cmd hcmd => hcmds cmd (List.mem_filter.mp hcmd).1
  exact (hrest s').mono (fun _ _ => h'.trans) fun _ _ => h'.trans

theorem kept_selectUnprocessed : Kept sc (selectUnprocessed spec o) :=
  .bind .get fun _ => .forM fun _ _ => kept_emit rfl

theorem kept_resumeWorkflow (hwhole : sc.whole) : Kept sc (resumeWorkflow spec ls o) := by
  refine .bind .get fun s => ?_
  split
  · refine .bind (kept_setWfState fun _ => hwhole) fun _ => .bind .get fun s₀ s => ?_
    rw [Ends.bind_iff, ofExcept_iff]
    refine ⟨fun cmds hcmds => Kept.bind kept_selectUnprocessed (fun _ s => ?_) s, fun _ _ => .refl s⟩
    exact evolves_continueWorkflowWith hwhole nofun (cmdOk_continueWholeWorkflow hcmds)
  · exact .pure _

theorem cmdOk_rerunTask {s : Engine} {own : TaskSpec} {e : TaskEx} {reset : Bool} (hreruns : sc.reruns = some t) :
    ∀ cmd ∈ rerunTask s own t e reset, sc.CmdOk cmd := by
  intro cmd hcmd
  unfold rerunTask at hcmd
  split at hcmd
  · cases hcmd
  · obtain rfl := List.mem_singleton.mp hcmd
    exact cmdOk_configureIfJoin _ fun _ => hreruns

theorem cmdOk_skipTask {s : Engine} {own : TaskSpec} {e : TaskEx} (hown : sc.own = some t) :
    ∀ cmd ∈ skipTask s own t e, sc.CmdOk cmd := by
  intro cmd hcmd
  unfold skipTask at hcmd
  split at hcmd
  · cases hcmd
  · obtain rfl := List.mem_singleton.mp hcmd
    exact hown

/-- No task execution changes in the view. -/
abbrev Quiet (s s' : Engine) : Prop := ∀ t, s'.view t = s.view t

theorem quiet_setWfState (st : State) (info : Option String) : Ends.Keeps Quiet (setWfState st info) := by
  intro s
  simp only [setWfState, emit, Ends.bind_iff, Ends.get_iff, Ends.ite_iff, Ends.modify_iff, Ends.throw_iff]
  exact ⟨fun _ _ => rfl, fun _ _ => rfl⟩

theorem quiet_pauseWorkflow (msg : Option String) : Ends.Keeps Quiet (pauseWorkflow msg) := by
  refine Ends.Keeps.bind (fun h h' u => (h' u).trans (h u)) (fun _ _ => rfl) fun s₀ => ?_
  split
  · exact fun _ _ => rfl
  · exact quiet_setWfState _ _

theorem quiet_taskSpecOf : Ends.Keeps Quiet (taskSpecOf spec t) := by
  intro s
  unfold taskSpecOf
  rw [Ends.bind_iff, taskEx_iff]
  refine ⟨fun _ _ => ?_, fun _ _ => rfl⟩
  split <;> exact fun _ => rfl

/-- A quiet part of a rerun, which does not unsettle the tasks. -/
theorem Kept.quiet_bind {α β : Type} {m : M α} {f : α → M β} {s : Engine} (hm : Kept sc m) (hq : Ends.Keeps Quiet m)
    (h : sc.marks ∨ s.Settled)
    (hf : ∀ a s', (sc.marks ∨ s'.Settled) → Ends (f a) s' (fun _ => Evolves sc s') fun _ => Evolves sc s') :
    Ends (m >>= f) s (fun _ => Evolves sc s) fun _ => Evolves sc s := by
  refine Kept.of_bind (((hm s).and (hq s)).mono (fun _ s' ⟨he, hv⟩ => ⟨he, ?_⟩) fun _ _ h => h.1) hf
  exact h.imp_right fun hs t v ht => hs t v (hv t ▸ ht)

theorem kept_requestRerun (hown : sc.own = some t) (skip : Bool) : Kept sc (requestRerun t skip) := by
  unfold requestRerun
  split
  · exact .pure _
  · exact .modify fun s => .of_move (w := [.rerunRequested t]) (.requested hown) (by simp [Event.task]) rfl
      (fun _ _ => rfl) rfl rfl rfl

theorem quiet_requestRerun (skip : Bool) : Ends.Keeps Quiet (requestRerun t skip) := by
  unfold requestRerun
  split <;> exact fun _ _ => rfl

theorem evolves_rerunWorkflow (hwhole : sc.whole) (hown : sc.own = some t) (hreruns : sc.reruns = some t)
    {reset skip : Bool} {s : Engine} (h : s.wf.state ≠ .paused → sc.marks ∨ s.Settled) :
    Ends (rerunWorkflow spec ls o t reset skip) s (fun _ => Evolves sc s) fun _ => Evolves sc s := by
  have hrow : ∀ {f : TaskEx → TaskEx}, (∀ e, (f e).view = e.view) → Ends.Keeps Quiet (setRow t f) :=
    fun hf _ _ => Engine.view_setRow_quiet hf
  unfold rerunWorkflow
  rw [Ends.bind_iff, Ends.get_iff]
  split
  · exact .refl s
  next hne =>
  refine Kept.quiet_bind (kept_setWfState fun _ => hwhole) (quiet_setWfState _ _) (h hne) fun _ s₁ h => ?_
  refine Kept.quiet_bind (kept_requestRerun hown skip) (quiet_requestRerun skip) h fun _ s₂ h => ?_
  rw [Ends.bind_iff, Ends.get_iff, Ends.bind_iff, taskEx_iff]
  refine ⟨fun e he => ?_, fun _ => .refl _⟩
  refine Kept.quiet_bind (kept_taskSpecOf spec t) quiet_taskSpecOf h fun own s₃ h => ?_
  dsimp only
  have hcmds : ∀ cmd ∈ if skip = true then skipTask s₂ own t e else rerunTask s₂ own t e reset, sc.CmdOk cmd := by
    split
    · exact cmdOk_skipTask hown
    · exact cmdOk_rerunTask hreruns
  generalize (if skip = true then skipTask s₂ own t e else rerunTask s₂ own t e reset) = cmds at hcmds
  split
  · exact Kept.quiet_bind (kept_setRow fun _ => by rfl) (hrow fun _ => by rfl) h fun _ _ h =>
      evolves_continueWorkflowWith hwhole (fun _ => h) hcmds
  · exact evolves_continueWorkflowWith hwhole (fun _ => h) hcmds

theorem evolves_rerunInSubworkflow (hwhole : sc.whole) (hown : sc.own = some t) (i : Nat) {s : Engine}
    (h : ∀ v, s.view t = some v → v.state.isCompleted → v.processed = false → sc.loses) :
    Ends (rerunInSubworkflow t i) s (fun _ => Evolves sc s) fun _ => Evolves sc s := by
  have hquiet : ∀ {f : TaskEx → TaskEx}, (∀ e, (f e).view = e.view) →
      Ends.Keeps Quiet (do setRow t f; setWfState .running none) := fun hf =>
    Ends.Keeps.bind (fun h h' u => (h' u).trans (h u)) (fun _ _ => Engine.view_setRow_quiet hf) fun _ =>
      quiet_setWfState _ _
  have hkept : ∀ {f : TaskEx → TaskEx}, (∀ e, (f e).view = e.view) →
      Kept sc (do setRow t f; setWfState .running none) := fun hf =>
    .bind (kept_setRow hf) fun _ => kept_setWfState fun _ => hwhole
  unfold rerunInSubworkflow
  rw [← bind_assoc]
  refine Kept.of_bind (((hkept fun _ => by rfl) s).and ((hquiet fun _ => by rfl) s) |>.mono (fun _ _ h => h)
    fun _ _ h => h.1) fun _ s' hq => ?_
  exact (setState_reopens hown fun v hv => h v (hq t ▸ hv)).mono (fun _ _ h => h.1) fun _ _ h => h

/-! ### Updates of executions -/

theorem kept_onActionUpdate (hwhole : sc.whole) (hown : sc.own = some t) (i : Nat) :
    Kept sc (onActionUpdate spec ls o t i) := by
  refine kept_bind_buildTask fun task hid => .bind (kept_taskEx t) fun e => ?_
  split
  · exact .pure _
  next x _ =>
  have hupdate : Kept sc (updateTask t x.state) := kept_updateTask hown _
  refine kept_handling (by rw [hown, hid]) (.bind hupdate fun _ => ?_)
  have hresume : Kept sc (do
      if x.state.isRunning && !(← get).tasks.any (·.state.isPaused) then resumeWorkflow spec ls o) := by
    refine .bind .get fun s => ?_
    split
    · exact kept_resumeWorkflow hwhole
    · exact .pure _
  dsimp only
  split
  · exact .bind (kept_pauseWorkflow none) fun _ => hresume
  · exact hresume

theorem kept_onExecutionUpdate (hwhole : sc.whole) (hown : sc.own = some t) (i : Nat) (paused : Bool) :
    Kept sc (onExecutionUpdate spec ls o t i paused) := by
  unfold onExecutionUpdate
  obtain ⟨st, hst⟩ := updatedState paused
  refine .bind (kept_taskEx t) fun e => ?_
  split
  · exact .throw _
  split
  · refine .bind (kept_setRow fun _ => by rfl) fun _ => .bind (kept_taskSpecOf spec t) fun ts => ?_
    split
    · exact kept_schedule hown
    · exact kept_onActionUpdate hwhole hown i
  · exact .throw _

/-! ### Steps -/

/-- The task that a request is about. -/
def Request.task : Request → Option TaskId
  | .startTask m => some m.taskEx
  | .actionResult t _ _ | .executionUpdate t _ _ | .subworkflowStarted t _ | .subworkflowCompleted t _ _
  | .subworkflowResult t _ | .scheduleIfNeeded t _ | .rerun t _ _ | .rerunInSubworkflow t _ => some t
  | .runJob j =>
    match j with
    | .refreshTaskState t | .continueTask t | .completeTask t _ _ | .failTaskIfIncomplete t _ | .onActionComplete t _
    | .onActionUpdate t _ => some t
  | _ => none

/-- A request that may start, resume or reopen the workflow. -/
def Request.IsWhole : Request → Prop
  | .start | .executionUpdate _ _ _ | .runJob (.onActionUpdate _ _) | .resume | .rerun _ _ _
  | .rerunInSubworkflow _ _ => True
  | _ => False

/-- A delayed job that continues a task which is completed in `s`. -/
def Request.Revives (s : Engine) : Request → Prop
  | .runJob (.continueTask t) => ∃ v, s.view t = some v ∧ v.state.isCompleted
  | _ => False

/-- A request that reopens a task which is completed and not processed in `s`. Restarting a task in `SUCCESS`
    is an error. -/
def Request.Loses (s : Engine) : Request → Prop
  | .startTask m => m.firstRun = false ∧
      ∃ v, s.view m.taskEx = some v ∧ v.state ≠ .success ∧ v.state.isCompleted ∧ v.processed = false
  | .rerunInSubworkflow t _ => ∃ v, s.view t = some v ∧ v.state.isCompleted ∧ v.processed = false
  | _ => False

/-- A rerun while a completed task is not processed. It is ignored while the workflow is paused. -/
def Request.Marks (s : Engine) : Request → Prop
  | .rerun _ _ _ => s.wf.state ≠ .paused ∧ ¬s.Settled
  | _ => False

/-- The task that a request asks to rerun. -/
def Request.reruns : Request → Option TaskId
  | .rerun t _ _ => some t
  | _ => none

/-- What the step of the request `r` from `s` is about. -/
def scopeOf (s : Engine) (r : Request) : Scope where
  own := r.task
  revives := r.Revives s
  loses := r.Loses s
  whole := r.IsWhole
  marks := r.Marks s
  reruns := r.reruns

theorem evolves_handle (s : Engine) (r : Request)
    (hjob : ∀ t st info, r = .runJob (.completeTask t st info) → st ≠ .waiting) :
    Ends (handle spec ls o r) s (fun _ => Evolves (scopeOf s r) s) fun _ => Evolves (scopeOf s r) s := by
  cases r with
  | start => exact kept_startWorkflow trivial rfl s
  | startTask m => exact evolves_runTask rfl fun hf v hv hs hdone hp => ⟨hf, v, hv, hs, hdone, hp⟩
  | actionResult t i result => exact kept_onActionResult rfl i result s
  | executionUpdate t i paused => exact kept_onExecutionUpdate trivial rfl i paused s
  | subworkflowStarted t i => exact kept_setRow (fun _ => by rfl) s
  | subworkflowCompleted t i result => exact kept_subworkflowCompleted i result s
  | subworkflowResult t i => exact kept_scheduleOnActionComplete rfl i s
  | runJob j =>
    cases j with
    | refreshTaskState t => exact kept_refreshTaskState rfl s
    | continueTask t => exact evolves_continueTask rfl fun v hv hdone => ⟨v, hv, hdone⟩
    | completeTask t st info => exact kept_completeTask rfl (hjob t st info rfl) s
    | failTaskIfIncomplete t timeout => exact kept_failTaskIfIncomplete rfl timeout s
    | onActionComplete t i => exact kept_onActionComplete rfl i s
    | onActionUpdate t i => exact kept_onActionUpdate trivial rfl i s
  | scheduleIfNeeded t jobsExist =>
    cases jobsExist with
    | true => exact .refl s
    | false => exact kept_scheduleRefreshTaskState t s
  | checkAndComplete => exact kept_checkAndComplete spec o s
  | pause => exact kept_pauseWorkflow none s
  | resume => exact kept_resumeWorkflow trivial s
  | stop state msg => exact kept_stopWorkflow o state msg s
  | rerun t reset skip =>
    refine evolves_rerunWorkflow trivial rfl rfl fun hne => ?_
    exact (Classical.em s.Settled).symm.imp_left fun h => ⟨hne, h⟩
  | rerunInSubworkflow t i => exact evolves_rerunInSubworkflow trivial rfl i fun v hv hdone hp => ⟨v, hv, hdone, hp⟩

end Mistral
