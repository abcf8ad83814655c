import Mistral.Engine.HandlerEffects
import Mistral.Engine.Rearranging
import Mistral.Engine.Step

/-! A resumed workflow goes on: a task is left to complete, the workflow stops again, or a check of its completion
    is due. -/

namespace Mistral

variable {spec : WorkflowSpec} {ls : ListSort} {o : Oracle} {skip : TaskId → M Unit} {s : Engine}

/-- A task execution is incomplete, the workflow is completed or paused, or a completion check is registered. -/
def Engine.GoesOn (s : Engine) : Prop :=
  (∃ e ∈ s.tasks, ¬e.state.isCompleted) ∨ s.wf.state.isPausedOrCompleted ∨ 0 < s.completionChecks

instance (s : Engine) : Decidable s.GoesOn := inferInstanceAs (Decidable (_ ∨ _ ∨ _))

/-- The commands of the backlog. -/
def backlogCommands (spec : WorkflowSpec) (s : Engine) : List Cmd :=
  match restoreBacklog spec s.wf.backlog with
  | .ok cmds => cmds
  | .error _ => []

/-- The commands that the controller selects for the workflow, without those that pause it. -/
def selectedCommands (spec : WorkflowSpec) (o : Oracle) (s : Engine) : List Cmd :=
  match findNextCommands spec o s with
  | .ok cmds => cmds.filter (!·.isPause)
  | .error _ => []

/-- There is something to go on with: an incomplete task, a completion check, no command at all, or a command that is
    not a `Noop`. -/
def Engine.Resumable (spec : WorkflowSpec) (o : Oracle) (s : Engine) : Prop :=
  (∃ e ∈ s.tasks, ¬e.state.isCompleted) ∨ 0 < s.completionChecks ∨
    (selectedCommands spec o s = [] ∧ s.wf.backlog = []) ∨
    ∃ cmd ∈ backlogCommands spec s ++ selectedCommands spec o s, cmd.isNoop = false

/-! ### Commands that let a workflow go on -/

/-- Where `m` returns from `s`, the workflow goes on. -/
abbrev EndsOn {α : Type} (m : M α) (s : Engine) : Prop := Ends m s (fun _ s' => s'.GoesOn) fun _ _ => True

theorem goesOn_of_row {t : TaskId} {e : TaskEx} (he : s.tasks[t]? = some e) (ho : ¬e.state.isCompleted) : s.GoesOn :=
  .inl ⟨e, List.mem_of_getElem? he, ho⟩

theorem endsOn_createTaskExecution {b : CmdBase} {st : State} {info key : Option String} (hst : ¬st.isCompleted) :
    EndsOn (createTaskExecution b st info key) s := by
  simp only [EndsOn, createTaskExecution, emit, Ends.bind_iff, Ends.get_iff, Ends.modify_iff, Ends.pure_iff]
  exact .inl ⟨_, List.mem_append_right _ (List.mem_singleton_self _), hst⟩

theorem endsOn_setState_waiting {t : TaskId} {info : Option String} : EndsOn (setState t .waiting info) s := by
  refine setState_iff.mpr ⟨fun e he _ => ?_, fun e he hd => ?_, fun _ => trivial⟩
  · refine goesOn_of_row (t := t) (e := e.withState .waiting info none) ?_ nofun
    simp [Engine.emit, Engine.setRow, he]
  · simp only [TaskEx.differs, Bool.or_eq_true, bne_iff_ne, ne_eq, not_or, not_not] at hd
    exact goesOn_of_row he (by simp [hd.1])

theorem endsOn_createTask {b : CmdBase} {wait : Bool} {key : Option String} : EndsOn (createTask b wait key) s := by
  unfold createTask
  split
  case isFalse => exact endsOn_createTaskExecution (by rintro ⟨⟩)
  unfold defer
  rw [EndsOn, Ends.bind_iff, Ends.get_iff]
  split
  next t e hfind =>
    obtain ⟨he, hw⟩ := findRow_eq_some hfind
    simp only [Bool.and_eq_true, State.isWaiting, beq_iff_eq] at hw
    exact goesOn_of_row he (by simp [hw.2])
  split
  · exact endsOn_createTaskExecution (by rintro ⟨⟩)
  next t e hfind =>
    obtain ⟨he, -⟩ := findRow_eq_some hfind
    simp only [emit, Ends.bind_iff, Ends.ite_iff, Ends.modify_iff, Ends.pure_iff]
    exact ⟨fun _ => endsOn_setState_waiting, fun hw => goesOn_of_row he (by simp [not_not.mp hw])⟩

/-- Where a workflow goes on, a `RunExistingTask` changes nothing about that. -/
theorem endsOn_createExistingTask {t : TaskId} {rerun : Bool} (hs : s.GoesOn) : EndsOn (createExistingTask t rerun) s := by
  unfold createExistingTask
  rw [EndsOn, Ends.bind_iff, taskEx_iff]
  refine ⟨fun e _ => ?_, fun _ => trivial⟩
  dsimp only
  split
  · refine Ends.bind endsOn_setState_waiting (fun _ s' h => ?_) fun _ _ h => h
    simp only [scheduleRefreshTaskState, schedule, Ends.bind_iff, Ends.modify_iff, Ends.pure_iff]
    exact h
  · exact hs

theorem ends_setWfState {st : State} {info : Option String} :
    Ends (setWfState st info) s (fun _ s' => s'.wf.state = st ∧ s'.tasks = s.tasks ∧ s'.completionChecks = s.completionChecks ∧
      s'.wf.backlog = s.wf.backlog ∧ s'.wf.id = s.wf.id) fun _ _ => True := by
  simp only [setWfState, emit, Ends.bind_iff, Ends.get_iff, Ends.ite_iff, Ends.modify_iff, Ends.throw_iff]
  exact ⟨fun _ => ⟨rfl, rfl, rfl, rfl, rfl⟩, fun _ => trivial⟩

/-- A workflow that stops in a state. -/
theorem endsOn_stop {st : State} {info : Option String} (hst : st.isPausedOrCompleted) :
    EndsOn (do setWfState st info; sendResult st) s := by
  refine Ends.bind ends_setWfState (fun _ s' h => ?_) fun _ _ h => h
  have hs : s'.GoesOn := .inr (.inl (by rw [h.1]; exact hst))
  simp only [sendResult, emit, Ends.bind_iff, Ends.get_iff, Ends.ite_iff, Ends.modify_iff, Ends.pure_iff]
  exact ⟨fun _ => hs, fun _ => hs⟩

/-- A workflow that completes with an output. -/
theorem endsOn_finish {st : State} {info : Option String} (hst : st.isPausedOrCompleted) :
    EndsOn (do setWfState st info; storeOutput o st) s := by
  refine Ends.bind ends_setWfState (fun _ s' h => ?_) fun _ _ h => h
  have hs : s'.GoesOn := .inr (.inl (by rw [h.1]; exact hst))
  refine storeOutput_iff.mpr ?_
  split
  · trivial
  · exact ⟨fun _ => hs, fun _ => hs⟩

theorem endsOn_succeedWorkflow {msg : Option String} : EndsOn (succeedWorkflow o msg) s := by
  unfold succeedWorkflow evaluateAt
  rw [EndsOn, Ends.bind_iff]
  split
  · trivial
  · exact endsOn_finish rfl

theorem endsOn_failWorkflow {msg : Option String} : EndsOn (failWorkflow o msg) s := by
  unfold failWorkflow
  rw [EndsOn, Ends.bind_iff, Ends.get_iff]
  split
  next h => exact .inr (.inl h)
  · exact endsOn_finish rfl

theorem endsOn_cancelWorkflow {msg : Option String} : EndsOn (cancelWorkflow msg) s := by
  unfold cancelWorkflow
  rw [EndsOn, Ends.bind_iff, Ends.get_iff]
  split
  next h => exact .inr (.inl (by simp [State.isPausedOrCompleted, h]))
  · exact endsOn_stop rfl

theorem endsOn_setWorkflowState {kind : StateCmd} {msg : Option String} : EndsOn (setWorkflowState o kind msg) s := by
  cases kind with
  | fail => exact endsOn_failWorkflow
  | succeed => exact endsOn_succeedWorkflow
  | pause =>
    simp only [setWorkflowState, pauseWorkflow, EndsOn]
    rw [Ends.bind_iff, Ends.get_iff]
    split
    next h => exact .inr (.inl (by simp [State.isPausedOrCompleted, h]))
    · exact ends_setWfState.mono (fun _ s' h => .inr (.inl (by rw [h.1]; rfl))) fun _ _ h => h

theorem endsOn_processCommand {cmd : Cmd} (hnoop : cmd.isNoop = false) (hskip : cmd.isSkipTask = false)
    (hs : cmd.isExisting → s.GoesOn) : EndsOn (processCommand o skip cmd) s := by
  have hmessage : ∀ {s' : Engine} {m : StartTask}, s'.GoesOn → EndsOn (addMessage m) s' := fun h => h
  cases cmd with
  | noop => cases hnoop
  | skipTask => cases hskip
  | runTask b wait key => exact Ends.bind endsOn_createTask (fun _ _ h => hmessage h) fun _ _ h => h
  | runExistingTask b t reset key rerun =>
    exact Ends.bind (endsOn_createExistingTask (hs rfl)) (fun _ _ h => hmessage h) fun _ _ h => h
  | setWorkflowState kind b msg => exact endsOn_setWorkflowState

/-- A list of commands for a workflow that goes on, or the first of which makes it go on. -/
theorem endsOn_processEach {cmds : List Cmd} (hcmds : ∀ c ∈ cmds, c.isNoop = false ∧ c.isSkipTask = false)
    (hs : cmds = [] ∨ (∃ c ∈ cmds, c.isExisting) → s.GoesOn) : EndsOn (processEach o skip cmds) s := by
  induction cmds generalizing s with
  | nil => exact hs (.inl rfl)
  | cons cmd cmds ih =>
    have ih := fun (s' : Engine) (h : s'.GoesOn) => ih (s := s') (fun c hc => hcmds c (List.mem_cons_of_mem cmd hc)) fun _ => h
    unfold processEach
    rw [EndsOn, Ends.bind_iff, Ends.get_iff]
    dsimp only
    split
    next h => exact .inr (.inl (by simp [State.isPausedOrCompleted, h]))
    split
    next h =>
      have hpaused : (s.setWf { s.wf with backlog := s.wf.backlog ++ [cmd.toDict] }).GoesOn := by
        refine .inr (.inl ?_)
        simp [Engine.setWf, h, State.isPausedOrCompleted, State.isPaused]
      simp only [saveCommandToBacklog, Ends.bind_iff, Ends.modify_iff]
      exact ih _ hpaused
    · obtain ⟨hnoop, hskip⟩ := hcmds cmd List.mem_cons_self
      refine Ends.bind (endsOn_processCommand hnoop hskip fun he => hs (.inr ⟨cmd, List.mem_cons_self, he⟩)) (fun _ s' h => ?_)
        fun _ _ h => h
      exact ih s' h

theorem endsOn_processCommands {cmds : List Cmd} (hskip : ∀ c ∈ cmds, c.isSkipTask = false)
    (hs : (∀ c ∈ cmds, c.isNoop) ∨ (∃ c ∈ cmds, c.isExisting) → s.GoesOn) : EndsOn (processCommands o ls skip cmds) s := by
  refine endsOn_processEach (fun c hc => ⟨isNoop_of_mem_rearrange hc, hskip c (mem_rearrangeCommands hc)⟩) fun h => hs ?_
  refine h.imp rearrange_eq_nil_iff.mp ?_
  rintro ⟨c, hc, he⟩
  exact ⟨c, mem_rearrangeCommands hc, he⟩

/-- Commands that are all `Noop` do nothing. -/
theorem processCommands_noop {cmds : List Cmd} (h : ∀ c ∈ cmds, c.isNoop) : processCommands o ls skip cmds = pure () := by
  rw [processCommands, rearrange_eq_nil_iff.mpr h]
  rfl

/-! ### The commands of a resumed workflow -/

theorem skip_of_cmdOk {cmd : Cmd} (h : Scope.CmdOk {} cmd) : cmd.isSkipTask = false := by
  cases cmd <;> first | rfl | cases h

theorem isExisting_nextCommand {wfId : String} {t : TaskId} {own : TaskSpec} {ctx : Ctx} {next : NextTask} {cmd : Cmd}
    (h : nextCommand spec wfId t own ctx next = .ok cmd) : cmd.isExisting = false := by
  have hcreate : ∀ name ts ctx msg trig he, (configureIfJoin wfId (createCommand name ts ctx msg trig he)).isExisting = false := by
    intro name ts ctx msg trig he
    unfold createCommand
    split
    · rfl
    · rfl
    · simp only [configureIfJoin]
      split <;> rfl
  unfold nextCommand at h
  split at h <;> cases h <;> exact hcreate ..

/-- A selected command for an existing task is for an idle one. -/
theorem idle_of_findNextCommands {cmds : List Cmd} (h : findNextCommands spec o s = .ok cmds) {cmd : Cmd} (hcmd : cmd ∈ cmds)
    (he : cmd.isExisting) : ∃ e ∈ s.tasks, ¬e.state.isCompleted := by
  unfold findNextCommands at h
  simp only [bind, Except.bind, pure, Except.pure] at h
  split at h
  · cases h
    obtain ⟨ts, -, rfl⟩ := List.mem_map.mp hcmd
    cases he
  split at h
  · cases h
  next next hnext =>
  cases h
  rcases List.mem_append.mp hcmd with hcmd | hcmd
  · obtain ⟨⟨t, e⟩, hmem, -⟩ := List.mem_filterMap.mp hcmd
    obtain ⟨hrow, hidle⟩ := List.mem_filter.mp hmem
    simp only [State.isIdle, beq_iff_eq] at hidle
    exact ⟨e, List.mem_of_getElem? (mem_rows.mp hrow), by simp [hidle]⟩
  · obtain ⟨l, hl, hcmd⟩ := List.mem_flatten.mp hcmd
    obtain ⟨⟨t, e⟩, -, hx⟩ := mapM_ok_mem hnext l hl
    unfold findNextCommandsForTask at hx
    simp only [bind, Except.bind] at hx
    split at hx
    · cases hx
    split at hx
    · cases hx
    obtain ⟨next, -, hn⟩ := mapM_ok_mem hx cmd hcmd
    rw [isExisting_nextCommand hn] at he
    cases he

theorem findNextCommands_congr {s' : Engine} (htasks : s'.tasks = s.tasks) (hid : s'.wf.id = s.wf.id) :
    findNextCommands spec o s' = findNextCommands spec o s := by
  simp [findNextCommands, Engine.unprocessed, Engine.rows, htasks, hid]

theorem endsOn_checkAndCompleteWorkflow : EndsOn (checkAndCompleteWorkflow spec o) s := by
  have heval : ∀ {m : M Unit} {s : Engine}, EndsOn m s → EndsOn (do evaluateAt o .finalContext; m) s := fun h => by
    unfold evaluateAt
    rw [EndsOn, Ends.bind_iff]
    split
    · trivial
    · exact h
  unfold checkAndCompleteWorkflow
  rw [EndsOn, Ends.bind_iff, Ends.get_iff]
  split
  next h => exact .inr (.inl h)
  split
  next h =>
    obtain ⟨e, he, hst⟩ := List.countP_pos_iff.mp h
    refine .inl ⟨e, he, fun hdone => ?_⟩
    rcases State.isCompleted_iff.mp hdone with h | h | h | h <;> simp [h] at hst
  split
  · exact endsOn_cancelWorkflow
  split
  · exact heval endsOn_succeedWorkflow
  · exact heval endsOn_failWorkflow

/-- The workflow, the completion checks and the states of the tasks are the same. -/
def SameStates (s s' : Engine) : Prop :=
  s'.wf = s.wf ∧ s'.completionChecks = s.completionChecks ∧ s'.tasks.map (·.state) = s.tasks.map (·.state)

theorem SameStates.trans {s s' s'' : Engine} (h : SameStates s s') (h' : SameStates s' s'') : SameStates s s'' :=
  ⟨h'.1.trans h.1, h'.2.1.trans h.2.1, h'.2.2.trans h.2.2⟩

theorem incomplete_iff (s : Engine) :
    (∃ e ∈ s.tasks, ¬e.state.isCompleted) ↔ ∃ st ∈ s.tasks.map (·.state), ¬State.isCompleted st := by
  simp

/-- Marking tasks as processed. -/
theorem same_markIfUnprocessed (dispatched : Bool) (t : TaskId) : Ends.Keeps SameStates (markIfUnprocessed dispatched t) := by
  intro s
  unfold markIfUnprocessed
  rw [Ends.bind_iff, taskEx_iff]
  refine ⟨fun e _ => ?_, fun _ => ⟨rfl, rfl, rfl⟩⟩
  split
  · simp only [setProcessed, emit, setRow, Ends.bind_iff, Ends.get_iff, Ends.modify_iff]
    refine ⟨rfl, rfl, List.ext_getElem? fun i => ?_⟩
    simp only [Engine.setRow, Engine.emit, List.getElem?_map, List.getElem?_modify]
    cases s.tasks[i]? with
    | none => rfl
    | some e => by_cases h : t = i <;> simp [h]
  · exact ⟨rfl, rfl, rfl⟩

theorem same_markLoop (dispatched : Bool) (ts : List TaskId) :
    Ends.Keeps SameStates (ts.forM (markIfUnprocessed dispatched)) :=
  .forM (fun _ => ⟨rfl, rfl, rfl⟩) .trans fun t _ => same_markIfUnprocessed dispatched t

theorem same_selectUnprocessed : Ends.Keeps SameStates (selectUnprocessed spec o) := by
  intro s
  unfold selectUnprocessed
  rw [Ends.bind_iff, Ends.get_iff]
  refine Ends.Keeps.forM (R := SameStates) (fun _ => ⟨rfl, rfl, rfl⟩) .trans ?_ s
  rintro ⟨t, e⟩ - s'
  simp only [emit, Ends.modify_iff]
  exact ⟨rfl, rfl, rfl⟩

/-- Dispatching the commands of the backlog and the selected ones. -/
theorem ends_dispatch {cmds : List Cmd} (hskip : ∀ c ∈ cmds, c.isSkipTask = false)
    (hidle : (∃ c ∈ cmds, c.isExisting) → s.GoesOn) :
    Ends (dispatchWorkflowCommands spec o ls skip cmds) s
      (fun _ s' => s'.GoesOn ↔ s.GoesOn ∨ ∃ c ∈ backlogCommands spec s ++ cmds, c.isNoop = false) fun _ _ => True := by
  unfold dispatchWorkflowCommands pollCommandsFromBacklog
  simp only [emit, Ends.bind_iff, Ends.get_iff, Ends.modify_iff, ofExcept_iff]
  refine ⟨fun b hb => ?_, fun _ _ => trivial⟩
  have hbacklog : backlogCommands spec s = b := by
    change restoreBacklog spec s.wf.backlog = .ok b at hb
    rw [backlogCommands, hb]
  have hnew : ∀ c ∈ b, c.isSkipTask = false ∧ c.isExisting = false := fun c hc => by
    refine ⟨skip_of_cmdOk (cmdOk_restoreBacklog hb c hc), ?_⟩
    obtain ⟨d, -, hd⟩ := mapM_ok_mem hb c hc
    cases hres : restoreCommandFromDict spec d with
    | error e =>
      rw [hres] at hd
      cases hd
    | ok c' =>
      rw [hres] at hd
      cases hd
      obtain ⟨ts, msg, rfl⟩ := restoreCommandFromDict_ok hres
      unfold createCommand
      split <;> rfl
  have hgoes : ((s.emit (.dispatched cmds)).setWf { s.wf with backlog := [] }).GoesOn ↔ s.GoesOn := Iff.rfl
  have hrest : ∀ s' : Engine, s'.GoesOn → EndsOn (processCommands o ls skip cmds) s' := fun s' h =>
    endsOn_processCommands hskip fun _ => h
  rw [hbacklog]
  by_cases hb' : s.GoesOn ∨ ∃ c ∈ b, c.isNoop = false
  · have hall : EndsOn (processCommands o ls skip b) ((s.emit (.dispatched cmds)).setWf { s.wf with backlog := [] }) := by
      refine endsOn_processCommands (fun c hc => (hnew c hc).1) fun h => ?_
      rcases hb' with hb' | ⟨c, hc, hn⟩
      · exact hb'
      rcases h with h | ⟨c', hc', he⟩
      · simp [h c hc] at hn
      · simp [(hnew c' hc').2] at he
    refine hall.mono (fun _ s' h => (hrest s' h).mono (fun _ s'' h' => ⟨fun _ => ?_, fun _ => h'⟩) fun _ _ h => h) fun _ _ h => h
    rcases hb' with h | ⟨c, hc, hn⟩
    · exact .inl h
    · exact .inr ⟨c, List.mem_append_left _ hc, hn⟩
  · simp only [not_or, not_exists, not_and, Bool.not_eq_false] at hb'
    rw [processCommands_noop hb'.2, Ends.pure_iff]
    by_cases hc : ∃ c ∈ cmds, c.isNoop = false
    · obtain ⟨c, hc, hn⟩ := hc
      refine (endsOn_processCommands hskip fun h => ?_).mono (fun _ s' h => ⟨fun _ => ?_, fun _ => h⟩) fun _ _ h => h
      · rcases h with h | h
        · simp [h c hc] at hn
        · exact hidle h
      · exact .inr ⟨c, List.mem_append_right _ hc, hn⟩
    · simp only [not_exists, not_and, Bool.not_eq_false] at hc
      rw [processCommands_noop hc, Ends.pure_iff]
      refine ⟨fun h => absurd (hgoes.mp h) hb'.1, fun h => ?_⟩
      rcases h with h | ⟨c, hmem, hn⟩
      · exact h
      · rcases List.mem_append.mp hmem with hmem | hmem
        · simp [hb'.2 c hmem] at hn
        · simp [hc c hmem] at hn

/-- A paused workflow that is resumed goes on if and only if there is something to go on with. A request that raises
    leaves it paused. -/
theorem resumed_workflow_goes_on (spec : WorkflowSpec) (ls : ListSort) (o : Oracle) (s : Engine)
    (hs : s.wf.state = .paused) :
    Ends (resume spec ls o) s (fun _ s' => s'.GoesOn ↔ s.Resumable spec o) fun _ _ => s.GoesOn := by
  have hgoes : s.GoesOn := .inr (.inl (by simp [hs, State.isPausedOrCompleted, State.isPaused]))
  unfold resume
  refine Ends.bind ends_setWfState (fun _ s₁ ⟨hrun, htasks, hchecks, hback, hid⟩ => ?_) fun _ _ _ => hgoes
  have hnext : continueWholeWorkflow spec o s₁ = findNextCommands spec o s := by
    rw [continueWholeWorkflow, findNextCommands_congr htasks hid, hrun]
    rfl
  rw [Ends.bind_iff, Ends.get_iff, Ends.bind_iff, ofExcept_iff, hnext]
  refine ⟨fun cmds hcmds => ?_, fun _ _ => hgoes⟩
  have hselected : selectedCommands spec o s = cmds.filter (!·.isPause) := by rw [selectedCommands, hcmds]
  refine Ends.bind (same_selectUnprocessed s₁) (fun _ s₁' hselect => ?_) fun _ _ _ => hgoes
  unfold continueWorkflowWith
  dsimp only
  rw [← hselected, Ends.bind_iff, Ends.get_iff]
  refine Ends.bind (same_markLoop true _ s₁') (fun _ s₂ hloop => ?_) fun _ _ _ => hgoes
  have h₂ := hselect.trans hloop
  have hopen : (∃ e ∈ s₂.tasks, ¬e.state.isCompleted) ↔ ∃ e ∈ s.tasks, ¬e.state.isCompleted := by
    rw [incomplete_iff, incomplete_iff, h₂.2.2, htasks]
  have hstate : s₂.wf.state = .running := h₂.1 ▸ hrun
  have hgoes₂ : s₂.GoesOn ↔ (∃ e ∈ s.tasks, ¬e.state.isCompleted) ∨ 0 < s.completionChecks := by
    have hrunning : s₂.wf.state.isPausedOrCompleted = false := by rw [hstate]; rfl
    rw [Engine.GoesOn, hopen, hrunning, h₂.2.1, hchecks]
    simp only [Bool.false_eq_true, false_or]
  have hback₂ : s₂.wf.backlog = s.wf.backlog := by rw [h₂.1, hback]
  rw [Ends.bind_iff, Ends.get_iff]
  split
  next h =>
    refine endsOn_checkAndCompleteWorkflow.mono (fun _ _ h' => ⟨fun _ => ?_, fun _ => h'⟩) fun _ _ _ => hgoes
    exact .inr (.inr (.inl ⟨h.1, hback₂ ▸ h.2⟩))
  next hne =>
    have hskip : ∀ c ∈ selectedCommands spec o s, c.isSkipTask = false := fun c hc => by
      rw [hselected] at hc
      exact skip_of_cmdOk (cmdOk_findNextCommands hcmds c (List.mem_filter.mp hc).1)
    have hidle : (∃ c ∈ selectedCommands spec o s, c.isExisting) → s₂.GoesOn := fun ⟨c, hc, he⟩ => by
      rw [hselected] at hc
      exact hgoes₂.mpr (.inl (idle_of_findNextCommands hcmds (List.mem_filter.mp hc).1 he))
    refine (ends_dispatch hskip hidle).mono (fun _ s' h => h.trans ?_) fun _ _ _ => hgoes
    have hcommands : backlogCommands spec s₂ = backlogCommands spec s := by rw [backlogCommands, hback₂, backlogCommands]
    rw [hback₂] at hne
    rw [hgoes₂, hcommands, Engine.Resumable]
    rw [or_assoc]
    exact or_congr Iff.rfl (or_congr Iff.rfl (by rw [or_iff_right hne]))

/-! ### A task that selects nothing but noop -/

def noopSpec : WorkflowSpec where
  tasks := [{ name := "a", onSuccess := [{ name := "noop" }] }]

/-- The task succeeds while the workflow is paused. -/
def pausedAfterNoop : Engine :=
  (engine noopSpec default).run (.initial "w" false)
    [(.start, {}), (.startTask ⟨0, true, false, none, false, false⟩, {}), (.pause, {}), (.actionResult 0 0 (.success none), {})]

theorem resumed_workflow_goes_on_noop :
    Ends (resume noopSpec default {}) pausedAfterNoop (fun _ s' => s'.GoesOn ↔ pausedAfterNoop.Resumable noopSpec {})
      fun _ _ => pausedAfterNoop.GoesOn :=
  resumed_workflow_goes_on noopSpec default {} pausedAfterNoop (by decide)

/-- The resumed workflow is left running, with its task completed and no check to come. -/
theorem noop_strands_resumed_workflow :
    ¬∀ s s', s.wf.state = .paused → resume noopSpec default {} s = .ok () s' → s'.GoesOn := by
  intro h
  have := h pausedAfterNoop _ (by decide) rfl
  revert this
  decide

end Mistral
