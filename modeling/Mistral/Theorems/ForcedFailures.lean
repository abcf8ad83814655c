import Mistral.Engine.HandlerEffects

/-! Structural errors: what the handlers of tasks do about a `MistralException`. -/

namespace Mistral

/-- The handlers of tasks that catch a `MistralException`. Nobody completes a task as `WAITING`. -/
inductive EntryPoint
  | runTask (m : StartTask)
  | onActionComplete (t : TaskId) (i : Nat)
  | continueTask (t : TaskId)
  | completeTask (t : TaskId) (state : { st : State // st ≠ .waiting }) (stateInfo : Option String)

namespace EntryPoint

/-- The task that the handler is about. -/
def task : EntryPoint → TaskId
  | runTask m => m.taskEx
  | onActionComplete t _ | continueTask t | completeTask t _ _ => t

section
variable (spec : WorkflowSpec) (ls : ListSort) (o : Oracle)

/-- The handler of the entry point. -/
def call : EntryPoint → M Unit
  | runTask m => Mistral.runTask spec ls o m
  | onActionComplete t i => Mistral.onActionComplete spec ls o t i
  | continueTask t => Mistral.continueTask spec ls o t
  | completeTask t state info => Mistral.completeTask spec ls o t state info

/-- The handler up to its `except` clause: the task is built, and the body of `try` runs. -/
def attempt : EntryPoint → M Unit
  | runTask m => do
    let task : Task :=
      { id := m.taskEx, spec := ← taskSpecOf spec m.taskEx, waiting := false, triggeredBy := m.triggeredBy,
        rerun := m.rerun, resetFlag := m.reset }
    if task.waiting && task.rerun then
      setState task.id .waiting "Task is waiting."
      scheduleRefreshTaskState task.id
    run spec ls o task m.firstRun
  | onActionComplete t i => do
    let task ← buildTask spec t
    match (← taskEx t).executions[i]? with
    | none => return
    | some x => taskOnActionComplete spec ls o task x
  | continueTask t => do
    let task ← buildTask spec t
    setState t .running none
    run spec ls o task false
  | completeTask t state info => do
    let task ← buildTask spec t
    complete spec ls o task state info

end

/-- Whether the handler catches the exceptions of `mistral_lib` too. -/
def catchesLib : EntryPoint → Bool
  | continueTask _ => false
  | _ => true

end EntryPoint

/-- The task had failed in a completed workflow. -/
def Engine.Failed (s : Engine) (t : TaskId) : Prop :=
  (∃ e, s.tasks[t]? = some e ∧ e.state = .error) ∧ s.wf.state.isCompleted

/-- What is promised about an exception that the handler of `t` meets in `s'`, when its transaction ends in `f`: the
    task is in `ERROR`, the workflow is in `ERROR` or in the completed state that it had, and no later request to
    resume the workflow fails. -/
structure FailsTaskAndWorkflow (spec : WorkflowSpec) (ls : ListSort) (t : TaskId) (s' f : Engine) : Prop where
  task : ∃ e, f.tasks[t]? = some e ∧ e.state = .error
  workflow : f.wf.state = .error ∨ s'.wf.state.isCompleted ∧ f.wf.state = s'.wf.state
  resumes : ∀ o g, g.wf.state = f.wf.state → Ends (resumeWorkflow spec ls o) g (fun _ _ => True) fun _ _ => False

variable {spec : WorkflowSpec} {ls : ListSort} {o : Oracle} {t : TaskId} {s s' : Engine} {msg : String} {x : Exc}
  {lib : Bool}

/-! ### The forced failure -/

/-- An exception of the body that is caught fails the task by force, from the state that the body left. -/
theorem handling_of_raise {what : String} {task : Task} {body : M Unit} (h : body s = .error x s')
    (hx : x.caught? lib = some msg) :
    handling spec o lib what task body s = forceFailTask o task.id (what ++ msg) s' := by
  simp only [handling, bind, EStateM.bind, Ends.tryCatch_apply, h, hx, pure, EStateM.pure]
  cases forceFailTask o task.id (what ++ msg) s' <;> rfl

/-- Nobody handles an exception that is not caught. -/
theorem handling_of_not_caught {what : String} {task : Task} {body : M Unit} (h : body s = .error x s')
    (hx : x.caught? lib = none) : handling spec o lib what task body s = .error x s' := by
  simp only [handling, bind, EStateM.bind, Ends.tryCatch_apply, h, hx, pure]
  rfl

/-- A running workflow fails, unless its output is too large. -/
theorem ends_failWorkflow (info : Option String) (h : s.wf.state = .running ∨ s.wf.state.isPausedOrCompleted) :
    Ends (failWorkflow o info) s
      (fun _ f => f.tasks = s.tasks ∧ (f.wf.state = if s.wf.state.isPausedOrCompleted then s.wf.state else .error) ∧
        (s.wf.state = .running → o.raises .storeOutput = false))
      fun _ _ => s.wf.state = .running ∧ o.raises .storeOutput := by
  unfold failWorkflow
  rw [Ends.bind_iff, Ends.get_iff]
  split
  next hdone => exact ⟨rfl, rfl, fun hrun => by simp [hrun, State.isPausedOrCompleted, State.isPaused] at hdone⟩
  next hdone =>
    have hrun : s.wf.state = .running := h.resolve_right hdone
    simp only [setWfState, emit, Ends.bind_iff, Ends.get_iff, Ends.ite_iff, Ends.modify_iff, Ends.throw_iff, hrun]
    refine ⟨fun _ => storeOutput_iff.mpr ?_, fun hv => absurd rfl hv⟩
    split
    next hlarge => exact ⟨trivial, hlarge⟩
    next hstored =>
      have hstored : o.raises .storeOutput = false := eq_false_of_ne_true hstored
      exact ⟨fun _ => ⟨rfl, rfl, fun _ => hstored⟩, fun _ => ⟨rfl, rfl, fun _ => hstored⟩⟩

/-- The task is in `ERROR` after `force_fail_task`, and so is a workflow that was running. It raises an exception where the
    output of the workflow is too large. -/
theorem ends_forceFailTask (o : Oracle) (msg : String) {e : TaskEx} (he : s.tasks[t]? = some e)
    (h : s.wf.state = .running ∨ s.wf.state.isPausedOrCompleted) :
    Ends (forceFailTask o t msg) s
      (fun _ f => (∃ e', f.tasks[t]? = some e' ∧ e'.state = .error) ∧
        (f.wf.state = if s.wf.state.isPausedOrCompleted then s.wf.state else .error) ∧
        (s.wf.state = .running → o.raises .storeOutput = false))
      fun _ _ => s.wf.state = .running ∧ o.raises .storeOutput := by
  unfold forceFailTask
  rw [Ends.bind_iff, setState_iff]
  refine ⟨fun e' he' _ => ?_, fun e' he' hsame => ?_, fun hnone => by simp [he] at hnone⟩
  · have hwf : ((s.setRow t (·.withState .error msg none)).emit (.taskState t e'.state .error)).wf = s.wf := rfl
    refine (ends_failWorkflow msg (hwf ▸ h)).mono (fun _ f hf => ?_) fun _ _ => id
    refine ⟨⟨e'.withState .error msg none, ?_, rfl⟩, hf.2⟩
    simp [hf.1, Engine.emit, Engine.setRow, he']
  · refine (ends_failWorkflow msg h).mono (fun _ f hf => ?_) fun _ _ => id
    simp only [TaskEx.differs, Bool.or_eq_true, bne_iff_ne, ne_eq, not_or, not_not] at hsame
    exact ⟨⟨e', by rw [hf.1, he'], hsame.1⟩, hf.2⟩

/-! ### Where the exception is met -/

theorem taskSpecOf_cases (spec : WorkflowSpec) (t : TaskId) (s : Engine) :
    (∃ ts, taskSpecOf spec t s = .ok ts s ∧ ∃ e, s.tasks[t]? = some e) ∨
      ∃ msg, taskSpecOf spec t s = .error (.other msg) s := by
  have h : Ends (taskSpecOf spec t) s (fun _ f => f = s ∧ ∃ e, s.tasks[t]? = some e)
      fun e f => f = s ∧ ∃ msg, e = .other msg := by
    unfold taskSpecOf
    rw [Ends.bind_iff, taskEx_iff]
    refine ⟨fun e he => ?_, fun _ => ⟨rfl, _, rfl⟩⟩
    split
    · exact ⟨rfl, e, he⟩
    · exact ⟨rfl, _, rfl⟩
  unfold Ends at h
  cases hr : taskSpecOf spec t s with
  | ok ts f =>
    rw [hr] at h
    obtain ⟨rfl, hrow⟩ := h
    exact .inl ⟨ts, rfl, hrow⟩
  | error e f =>
    rw [hr] at h
    obtain ⟨rfl, m, rfl⟩ := h
    exact .inr ⟨m, rfl⟩

theorem taskEx_eq {e : TaskEx} (he : s.tasks[t]? = some e) : taskEx t s = .ok e s := by
  have hget : (get : M Engine) s = .ok s s := rfl
  simp [taskEx, bind, EStateM.bind, hget, he, pure, EStateM.pure]

/-- What a handler does about an exception `x` that its attempt left in `s'`. -/
def EntryPoint.Handles (e : EntryPoint) (o : Oracle) (x : Exc) (s' : Engine) (r : EStateM.Result Exc Engine Unit) : Prop :=
  (∀ msg, x.caught? e.catchesLib = some msg → ∃ msg', r = forceFailTask o e.task msg' s') ∧
    (x.caught? e.catchesLib = none → r = .error x s')

theorem EntryPoint.handles_handling {e : EntryPoint} {what : String} {task : Task} {body : M Unit}
    (htask : task.id = e.task) (hlib : e.catchesLib = lib) (h : body s = .error x s') :
    e.Handles o x s' (handling spec o lib what task body s) := by
  subst hlib
  exact ⟨fun msg hx => ⟨_, htask ▸ handling_of_raise h hx⟩, handling_of_not_caught h⟩

/-- Every handler starts with the specification of its task, and handles what the rest of its attempt raises. -/
theorem EntryPoint.attempt_eq (spec : WorkflowSpec) (ls : ListSort) (o : Oracle) (e : EntryPoint) : ∃ f g : TaskSpec → M Unit,
    e.attempt spec ls o = taskSpecOf spec e.task >>= f ∧ e.call spec ls o = taskSpecOf spec e.task >>= g ∧
      ∀ ts s s' x, (∃ row, s.tasks[e.task]? = some row) → f ts s = .error x s' → e.Handles o x s' (g ts s) := by
  cases e with
  | runTask m => exact ⟨_, _, rfl, rfl, fun ts s s' x _ h => handles_handling rfl rfl h⟩
  | continueTask t => exact ⟨_, _, bind_assoc .., bind_assoc .., fun ts s s' x _ h => handles_handling rfl rfl h⟩
  | completeTask t state info =>
    exact ⟨_, _, bind_assoc .., bind_assoc .., fun ts s s' x _ h => handles_handling rfl rfl h⟩
  | onActionComplete t i =>
    refine ⟨_, _, bind_assoc .., bind_assoc .., fun ts s s' x hrow h => ?_⟩
    obtain ⟨row, hrow⟩ : ∃ row, s.tasks[t]? = some row := hrow
    simp only [pure_bind] at h ⊢
    simp only [bind, EStateM.bind, taskEx_eq hrow] at h ⊢
    cases hx : row.executions[i]? with
    | none => simp [hx, pure, EStateM.pure] at h
    | some x =>
      rw [hx] at h
      exact handles_handling rfl rfl h

/-- The scope of every move of `t`, in which the workflow is neither started nor resumed. -/
def Scope.all (t : TaskId) : Scope := ⟨some t, True, True, False, True, some t⟩

theorem EntryPoint.kept_attempt (spec : WorkflowSpec) (ls : ListSort) (o : Oracle) (e : EntryPoint) :
    Kept (.all e.task) (e.attempt spec ls o) := by
  cases e with
  | runTask m =>
    refine .bind (kept_taskSpecOf spec _) fun ts s => ?_
    simp only [Bool.false_and, Bool.false_eq_true, if_false]
    exact evolves_run rfl fun _ _ _ _ _ _ => trivial
  | onActionComplete t i =>
    refine kept_bind_buildTask fun task hid => .bind (kept_taskEx t) fun row => ?_
    split
    · exact .pure _
    · exact kept_taskOnActionComplete (by rw [hid]; rfl) _
  | continueTask t =>
    refine kept_bind_buildTask fun task hid s => ?_
    refine Kept.of_bind (setState_moves fun v _ => .revive rfl trivial) fun _ s' _ => ?_
    exact evolves_run (by rw [hid]; rfl) fun _ _ _ _ _ _ => trivial
  | completeTask t state info => exact kept_bind_buildTask fun task hid => kept_complete (by rw [hid]; rfl) state.2

/-- The row of the task is there before and when an exception is met, a completed workflow is as it was, and the handler
    handles the exception. -/
theorem EntryPoint.call_of_raise {e : EntryPoint} (h : e.attempt spec ls o s = .error x s') (hx : x.caught? true ≠ none) :
    (∃ row, s'.tasks[e.task]? = some row) ∧ (s.wf.state.isCompleted → s'.wf.state = s.wf.state) ∧
      e.Handles o x s' (e.call spec ls o s) := by
  obtain ⟨f, g, hf, hg, hraise⟩ := e.attempt_eq spec ls o
  have hkept := e.kept_attempt spec ls o s
  rw [Ends, h] at hkept
  rw [hf] at h
  rw [hg]
  rcases taskSpecOf_cases spec e.task s with ⟨ts, hts, row, hrow⟩ | ⟨m, hts⟩
  · simp only [bind, EStateM.bind, hts] at h ⊢
    refine ⟨?_, fun hdone => (hkept.done hdone).resolve_right id, hraise ts s s' x ⟨row, hrow⟩ h⟩
    obtain ⟨es, -, hpath⟩ := hkept.events
    obtain ⟨v, hv, -⟩ := (hpath e.task).keeps_name (Engine.view_of_row hrow)
    obtain ⟨row', hrow', -⟩ := Engine.row_of_view hv
    exact ⟨row', hrow'⟩
  · simp only [bind, EStateM.bind, hts, EStateM.Result.error.injEq] at h
    exact absurd rfl (h.1 ▸ hx)

/-- A request to resume a workflow that is neither paused nor idle does nothing. -/
theorem ends_resumeWorkflow_of_not {g : Engine} (h : ¬g.wf.state.isPausedOrIdle) :
    Ends (resumeWorkflow spec ls o) g (fun _ _ => True) fun _ _ => False := by
  unfold resumeWorkflow
  rw [Ends.bind_iff, Ends.get_iff, if_neg h]
  trivial

/-- A completed workflow that is not touched is not resumed. -/
theorem not_isPausedOrIdle_of_completed {st : State} (h : st.isCompleted) : ¬st.isPausedOrIdle := by
  rcases State.isCompleted_iff.mp h with hd | hd | hd | hd <;> simp [hd, State.isPausedOrIdle, State.isPaused, State.isIdle]

/-- Where the exception is not caught, the transaction is undone. -/
theorem failsTaskAndWorkflow_undone (hsame : s.wf.state.isCompleted → s'.wf.state = s.wf.state) :
    FailsTaskAndWorkflow spec ls t s' s ↔ s.Failed t := by
  constructor
  · intro h
    refine ⟨h.task, ?_⟩
    rcases h.workflow with herr | ⟨hdone, heq⟩
    · rw [herr]
      rfl
    · rwa [heq]
  · intro ⟨htask, hdone⟩
    exact ⟨htask, .inr ⟨by rwa [hsame hdone], (hsame hdone).symm⟩, fun o g hg =>
      ends_resumeWorkflow_of_not (hg ▸ not_isPausedOrIdle_of_completed hdone)⟩

/-- An exception that is caught fails the task and the workflow exactly where it does not find the workflow paused. -/
theorem failsTaskAndWorkflow_forced {f : Engine} (hwf : s'.wf.state = .running ∨ s'.wf.state = .paused ∨ s'.wf.state.isCompleted)
    (htask : ∃ e, f.tasks[t]? = some e ∧ e.state = .error)
    (hstate : f.wf.state = if s'.wf.state.isPausedOrCompleted then s'.wf.state else .error) :
    FailsTaskAndWorkflow spec ls t s' f ↔ s'.wf.state ≠ .paused := by
  constructor
  · intro hfails hpaused
    rw [hpaused] at hstate
    rcases hfails.workflow with herr | ⟨hdone, -⟩
    · simp [hstate, State.isPausedOrCompleted, State.isPaused] at herr
    · simp [hpaused] at hdone
  · intro hne
    have hworkflow : f.wf.state = .error ∨ s'.wf.state.isCompleted ∧ f.wf.state = s'.wf.state := by
      rcases hwf with hrun | hpaused | hdone
      · exact .inl (by rw [hstate, hrun]; rfl)
      · exact absurd hpaused hne
      · exact .inr ⟨hdone, by rw [hstate, if_pos (by simp [State.isPausedOrCompleted, hdone])]⟩
    refine ⟨htask, hworkflow, fun o' g hg => ends_resumeWorkflow_of_not (hg ▸ ?_)⟩
    rcases hworkflow with herr | ⟨hdone, hsame⟩
    · simp [herr, State.isPausedOrIdle, State.isPaused, State.isIdle]
    · exact hsame ▸ not_isPausedOrIdle_of_completed hdone

/-- What a forced failure needs of the state of the workflow: it is not paused, and the output of a running one can be
    stored. -/
def Oracle.Fails (o : Oracle) (st : State) : Prop := st ≠ .paused ∧ (st = .running → o.raises .storeOutput = false)

/-- A `MistralException` fails the task and the workflow exactly where the handler catches it, it does not find the workflow
    paused, and the output of a workflow that it finds running can be stored. One that is not caught undoes the
    transaction: there they are failed only if they were before. -/
theorem raise_fails_task_and_workflow_iff (spec : WorkflowSpec) (ls : ListSort) (o : Oracle) (e : EntryPoint)
    (s s' : Engine) (x : Exc) (hx : x.caught? true ≠ none) (h : e.attempt spec ls o s = .error x s')
    (hwf : s'.wf.state = .running ∨ s'.wf.state = .paused ∨ s'.wf.state.isCompleted) :
    FailsTaskAndWorkflow spec ls e.task s' (transaction (e.call spec ls o) s) ↔
      if x.caught? e.catchesLib = none then s.Failed e.task else o.Fails s'.wf.state := by
  obtain ⟨⟨row, hrow⟩, hsame, hcaught, huncaught⟩ := EntryPoint.call_of_raise h hx
  split
  next hnone => rw [transaction, huncaught hnone, failsTaskAndWorkflow_undone hsame]
  next hsome =>
    obtain ⟨msg, hmsg⟩ := Option.ne_none_iff_exists'.mp hsome
    obtain ⟨msg', hcall⟩ := hcaught msg hmsg
    have hforced := ends_forceFailTask o msg' hrow (by
      rcases hwf with hwf | hwf | hwf <;> simp [State.isPausedOrCompleted, State.isPaused, hwf])
    simp only [transaction, hcall]
    cases hf : forceFailTask o e.task msg' s' with
    | error y f =>
      rw [Ends, hf] at hforced
      obtain ⟨hrun, hlarge⟩ := hforced
      -- The transaction is undone, and the workflow was not completed before it.
      have hnot : ¬s.Failed e.task := by
        intro hfailed
        have hdone := hfailed.2
        rw [← hsame hdone, hrun] at hdone
        cases hdone
      have hlost : ¬o.Fails s'.wf.state := by
        intro hfails
        simp [hfails.2 hrun] at hlarge
      exact (failsTaskAndWorkflow_undone hsame).trans (iff_of_false hnot hlost)
    | ok u f =>
      rw [Ends, hf] at hforced
      obtain ⟨htask, hstate, hstored⟩ := hforced
      exact (failsTaskAndWorkflow_forced hwf htask hstate).trans (and_iff_left hstored).symm

/-- A task whose `on-complete` clause can not be evaluated. -/
def brokenSpec : WorkflowSpec where
  tasks := [{ name := "a", onComplete := [{ name := "b" }] }, { name := "b" }]

/-- The oracle that raises where the transitions of the task are evaluated. -/
def brokenTransitions : Oracle where
  raises site := site = .transitions 0

/-- The action of the task is done. With `paused`, the workflow was paused while it ran. -/
def actionDone (paused : Bool) : Engine :=
  let s := (engine brokenSpec default).run (.initial "w" false)
    [(.start, {}), (.startTask ⟨0, true, false, none, false, false⟩, {})]
  transaction (completeAction 0 0 (.success none)) (if paused then transaction (pauseWorkflow none) s else s)

/-- The handler of the result of the action. -/
def actionCompletion : EntryPoint := .onActionComplete 0 0

theorem raise_fails_task_and_workflow_running : ∃ s',
    FailsTaskAndWorkflow brokenSpec default actionCompletion.task s'
        (transaction (actionCompletion.call brokenSpec default brokenTransitions) (actionDone false)) ↔
      if (Exc.mistral "Can not evaluate expression").caught? actionCompletion.catchesLib = none then
        (actionDone false).Failed actionCompletion.task
      else brokenTransitions.Fails s'.wf.state :=
  ⟨_, raise_fails_task_and_workflow_iff brokenSpec default brokenTransitions actionCompletion (actionDone false) _
    (.mistral "Can not evaluate expression") (by simp [Exc.caught?]) rfl (.inl rfl)⟩

/-- The exception meets a paused workflow. It stays paused with its failed task, and it can not be resumed. -/
theorem paused_workflow_not_failed :
    (∃ s' msg, actionCompletion.attempt brokenSpec default brokenTransitions (actionDone true) = .error (.mistral msg) s' ∧
      s'.wf.state = .paused ∧
      ¬FailsTaskAndWorkflow brokenSpec default actionCompletion.task s'
        (transaction (actionCompletion.call brokenSpec default brokenTransitions) (actionDone true))) ∧
    Ends (resumeWorkflow brokenSpec default brokenTransitions)
      (transaction (actionCompletion.call brokenSpec default brokenTransitions) (actionDone true))
      (fun _ _ => False) fun _ _ => True := by
  refine ⟨⟨_, "Can not evaluate expression", rfl, rfl, fun h => ?_⟩, ?_⟩
  · rcases h.workflow with herr | ⟨hdone, -⟩
    · exact State.noConfusion herr
    · exact Bool.noConfusion hdone
  · exact trivial

end Mistral
