import Mistral.Engine.Runs

/-! What the on-clauses of a task select is what the dispatcher gets for it: one lemma for each function of the
    engine. -/

namespace Mistral

/-! ### Accounts of the commands of a task -/

/-- The command comes from a transition of `t`. -/
def Cmd.isFrom (t : TaskId) (cmd : Cmd) : Bool := (cmd.base.triggeredBy.getD []).any (·.taskId == t)

/-- The commands that do not pause the workflow. A resumed workflow skips those that do. -/
def withoutPauses (cmds : List Cmd) : List Cmd := cmds.filter (!·.isPause)

/-- The commands of `t` that the dispatcher gets in an event. -/
def Event.sent (t : TaskId) : Event → List Cmd
  | .dispatched cmds => withoutPauses (cmds.filter (·.isFrom t))
  | _ => []

/-- The commands of `t` that the dispatcher gets, in their order. -/
def sent (t : TaskId) (w : List Event) : List Cmd := w.flatMap (·.sent t)

/-- The commands that the on-clauses of `t` selected last. -/
def lastSelected (t : TaskId) (last : List Cmd) : List Event → List Cmd
  | [] => last
  | .selected u cmds :: w => lastSelected t (if u = t then cmds else last) w
  | _ :: w => lastSelected t last w

/-- The commands that are due to the dispatcher: every time that `t` is continued, those that its on-clauses selected
    last. -/
def owed (t : TaskId) (last : List Cmd) : List Event → List Cmd
  | [] => []
  | .selected u cmds :: w => owed t (if u = t then cmds else last) w
  | .continued u _ _ _ :: w => (if u = t then withoutPauses last else []) ++ owed t last w
  | _ :: w => owed t last w

/-- Whatever was selected for `t` before, the dispatcher gets in these events the commands that are due. -/
def Balanced (t : TaskId) (w : List Event) : Prop := ∀ last, owed t last w = sent t w

/-- The events between two states are balanced. -/
def Delivers (t : TaskId) (s s' : Engine) : Prop := ∃ w, s'.trace = s.trace ++ w ∧ Balanced t w

@[simp] theorem sent_append (t : TaskId) (w w' : List Event) : sent t (w ++ w') = sent t w ++ sent t w' :=
  List.flatMap_append

@[simp] theorem withoutPauses_append (cmds cmds' : List Cmd) :
    withoutPauses (cmds ++ cmds') = withoutPauses cmds ++ withoutPauses cmds' := List.filter_append ..

theorem withoutPauses_idem (cmds : List Cmd) : withoutPauses (withoutPauses cmds) = withoutPauses cmds := by
  simp [withoutPauses]

theorem withoutPauses_filter (p : Cmd → Bool) (cmds : List Cmd) :
    (withoutPauses cmds).filter p = withoutPauses (cmds.filter p) := by
  simp [withoutPauses, Bool.and_comm]

theorem owed_append (t : TaskId) (last : List Cmd) (w w' : List Event) :
    owed t last (w ++ w') = owed t last w ++ owed t (lastSelected t last w) w' := by
  induction w generalizing last with
  | nil => rfl
  | cons ev w ih => cases ev <;> simp [owed, lastSelected, ih]

theorem Balanced.append {t : TaskId} {w w' : List Event} (h : Balanced t w) (h' : Balanced t w') : Balanced t (w ++ w') :=
  fun last => by rw [owed_append, sent_append, h last, h' _]

theorem Delivers.refl {t : TaskId} (s : Engine) : Delivers t s s := ⟨[], (List.append_nil _).symm, fun _ => rfl⟩

theorem Delivers.of_events {t : TaskId} {s s' : Engine} (w : List Event) (h : s'.trace = s.trace ++ w)
    (hw : Balanced t w := by exact fun _ => rfl) : Delivers t s s' := ⟨w, h, hw⟩

theorem Delivers.of_trace {t : TaskId} {s s' : Engine} (h : s'.trace = s.trace) : Delivers t s s' :=
  .of_events [] (by simpa using h)

theorem Delivers.trans {t : TaskId} {s s' s'' : Engine} (h : Delivers t s s') (h' : Delivers t s' s'') :
    Delivers t s s'' := by
  obtain ⟨w, htrace, hw⟩ := h
  obtain ⟨w', htrace', hw'⟩ := h'
  exact ⟨w ++ w', by rw [htrace', htrace, List.append_assoc], hw.append hw'⟩

/-- However `m` ends, the dispatcher got for `t` what was due. -/
abbrev Delivered {α : Type} (t : TaskId) (m : M α) : Prop := Ends.Keeps (Delivers t) m

variable {α β : Type} {a t : TaskId}

namespace Delivered

protected theorem pure (x : α) : Delivered a (pure x) := Ends.Keeps.pure Delivers.refl x

protected theorem throw (e : Exc) : Delivered a (throw e : M α) := Ends.Keeps.throw Delivers.refl e

protected theorem bind {m : M α} {f : α → M β} (hm : Delivered a m) (hf : ∀ x, Delivered a (f x)) :
    Delivered a (m >>= f) := Ends.Keeps.bind Delivers.trans hm hf

protected theorem get : Delivered a (get : M Engine) := fun s => Delivers.refl s

protected theorem forM {ι : Type} {l : List ι} {g : ι → M PUnit} (hg : ∀ i ∈ l, Delivered a (g i)) :
    Delivered a (l.forM g) := Ends.Keeps.forM Delivers.refl Delivers.trans hg

protected theorem ite {c : Prop} [Decidable c] {m m' : M α} (hm : Delivered a m) (hm' : Delivered a m') :
    Delivered a (if c then m else m') := Ends.Keeps.ite hm hm'

protected theorem tryCatch {m : M α} {h : Exc → M α} (hm : Delivered a m) (hh : ∀ e, Delivered a (h e)) :
    Delivered a (tryCatch m h) := Ends.Keeps.tryCatch (fun h h' => h.trans h') hm hh

/-- An update that leaves the trace as it is. -/
protected theorem modify {f : Engine → Engine} (h : ∀ s, (f s).trace = s.trace) : Delivered a (modify f : M PUnit) :=
  fun s => .of_trace (h s)

end Delivered

/-! ### Reading and writing -/

theorem delivered_taskEx : Delivered a (taskEx t) := fun s => taskEx_iff.mpr ⟨fun _ _ => .refl s, fun _ => .refl s⟩

theorem delivered_ofExcept {x : Except Exc α} : Delivered a (ofExcept x) := fun s =>
  ofExcept_iff.mpr ⟨fun _ _ => .refl s, fun _ _ => .refl s⟩

theorem delivered_evaluateAt (o : Oracle) (site : Site) : Delivered a (evaluateAt o site) := by
  unfold evaluateAt
  exact .ite (.throw _) (.pure _)

theorem delivered_taskSpecOf (spec : WorkflowSpec) : Delivered a (taskSpecOf spec t) := by
  refine .bind delivered_taskEx fun e => ?_
  split
  · exact .pure _
  · exact .throw _

theorem delivered_setRow {f : TaskEx → TaskEx} : Delivered a (setRow t f) := .modify fun _ => rfl

theorem delivered_schedule {j : Job} : Delivered a (schedule j) := .modify fun _ => rfl

/-- An event that is neither a selection, a continuation nor a dispatch. -/
theorem delivered_emit {ev : Event} (h : Balanced a [ev] := by exact fun _ => rfl) : Delivered a (emit ev) :=
  fun _ => .of_events [ev] rfl h

theorem delivered_setState {st : State} {info : Option String} {p : Option Bool} : Delivered a (setState t st info p) :=
  .bind delivered_taskEx fun _ => .ite (.bind delivered_setRow fun _ => delivered_emit) (.pure _)

theorem delivered_createTaskExecution {b : CmdBase} {st : State} {info key : Option String} :
    Delivered a (createTaskExecution b st info key) :=
  .bind .get fun _ => .bind (.modify fun _ => rfl) fun _ => .bind delivered_emit fun _ => .pure _

theorem delivered_defer {b : CmdBase} {key : Option String} : Delivered a (defer b key) := by
  refine .bind .get fun s => ?_
  split
  · exact .pure _
  split
  · exact delivered_createTaskExecution
  · exact .ite (.bind delivered_emit fun _ => .bind delivered_setState fun _ => .pure _) (.pure _)

theorem delivered_registerWorkflowCompletionCheck : Delivered a (registerWorkflowCompletionCheck t) :=
  .bind delivered_taskEx fun _ => .ite (.modify fun _ => rfl) (.pure _)

theorem delivered_updateTask {st : State} : Delivered a (updateTask t st) := by
  refine .bind delivered_taskEx fun e => .ite (.pure _) (.ite (.pure _) ?_)
  refine .bind delivered_setState fun _ => .bind delivered_taskEx fun _ => ?_
  exact .ite delivered_registerWorkflowCompletionCheck (.pure _)

theorem delivered_updateInboundContext (spec : WorkflowSpec) (o : Oracle) (task : Task) :
    Delivered a (updateInboundContext spec o task) :=
  .bind .get fun _ => .ite (.throw _) delivered_setRow

theorem delivered_updateTriggeredBy (task : Task) : Delivered a (updateTriggeredBy task) := by
  unfold updateTriggeredBy
  split
  · exact .pure _
  · exact .pure _
  · exact delivered_setRow

/-! ### The workflow -/

section
variable (spec : WorkflowSpec) (o : Oracle)

theorem delivered_setWfState {st : State} {info : Option String} : Delivered a (setWfState st info) :=
  .bind .get fun _ => .ite (.bind (.modify fun _ => rfl) fun _ => delivered_emit) (.throw _)

theorem delivered_sendResult {st : State} : Delivered a (sendResult st) :=
  .bind .get fun _ => .ite delivered_emit (.pure _)

theorem delivered_storeOutput {st : State} : Delivered a (storeOutput o st) :=
  .bind (delivered_evaluateAt o _) fun _ => delivered_sendResult

theorem delivered_succeedWorkflow {msg : Option String} : Delivered a (succeedWorkflow o msg) :=
  .bind (delivered_evaluateAt o _) fun _ => .bind delivered_setWfState fun _ => delivered_storeOutput o

theorem delivered_failWorkflow {msg : Option String} : Delivered a (failWorkflow o msg) :=
  .bind .get fun _ => .ite (.pure _) (.bind delivered_setWfState fun _ => delivered_storeOutput o)

theorem delivered_cancelWorkflow {msg : Option String} : Delivered a (cancelWorkflow msg) :=
  .bind .get fun _ => .ite (.pure _) (.bind delivered_setWfState fun _ => delivered_sendResult)

theorem delivered_stopWorkflow {st : State} {msg : Option String} : Delivered a (stopWorkflow o st msg) := by
  unfold stopWorkflow
  split
  · exact delivered_succeedWorkflow o
  · exact delivered_failWorkflow o
  · exact delivered_cancelWorkflow
  · exact .pure _

theorem delivered_pauseWorkflow {msg : Option String} : Delivered a (pauseWorkflow msg) :=
  .bind .get fun _ => .ite (.pure _) delivered_setWfState

theorem delivered_setWorkflowState {kind : StateCmd} {msg : Option String} :
    Delivered a (setWorkflowState o kind msg) := by
  unfold setWorkflowState
  split
  · exact delivered_pauseWorkflow
  · exact delivered_stopWorkflow o

theorem delivered_checkAndCompleteWorkflow : Delivered a (checkAndCompleteWorkflow spec o) := by
  refine .bind .get fun s => .ite (.pure _) (.ite (.pure _) (.ite delivered_cancelWorkflow (.ite ?_ ?_)))
  · exact .bind (delivered_evaluateAt o _) fun _ => delivered_succeedWorkflow o
  · exact .bind (delivered_evaluateAt o _) fun _ => delivered_failWorkflow o

theorem delivered_checkAndComplete : Delivered a (checkAndComplete spec o) := by
  refine .bind .get fun s => .ite (.pure _) ?_
  refine .tryCatch (delivered_checkAndCompleteWorkflow spec o) fun e => ?_
  split
  · exact delivered_stopWorkflow o
  · exact .throw _

end

/-! ### Policies -/

section
variable (o : Oracle) (task : Task)

theorem delivered_policyBeforeTaskStart (p : Policy) : Delivered a (p.beforeTaskStart o task) := by
  unfold Policy.beforeTaskStart
  split
  · exact .pure _
  refine .bind (delivered_evaluateAt o _) fun _ => ?_
  split
  · exact .ite (.bind delivered_setState fun _ => delivered_pauseWorkflow) (.pure _)
  · refine .ite (.pure _) (.bind delivered_taskEx fun e => .ite delivered_setState (.ite ?_ (.pure _)))
    exact .bind delivered_setRow fun _ => .bind delivered_setState fun _ => delivered_schedule
  · exact .ite delivered_schedule (.pure _)
  · exact .ite delivered_setRow (.pure _)
  · exact .pure _

theorem delivered_startRetry (r : RetrySpec) : Delivered a (startRetry o task r) := by
  refine .bind .get fun s => .ite ?_ ?_
  · exact .bind delivered_emit fun _ => .bind delivered_setState fun _ => delivered_schedule
  · exact .bind delivered_emit fun _ => .bind delivered_setState fun _ => delivered_schedule

theorem delivered_policyAfterTaskComplete (p : Policy) : Delivered a (p.afterTaskComplete o task) := by
  refine .bind (delivered_evaluateAt o _) fun _ => ?_
  split
  · refine .ite (.pure _) (.bind delivered_taskEx fun e => .ite (.pure _) ?_)
    exact .bind delivered_setRow fun _ => .bind delivered_setState fun _ => delivered_schedule
  · exact .bind delivered_taskEx fun e => .ite (.pure _) (.ite delivered_setState (.pure _))
  · refine .ite (.pure _) (.bind delivered_taskEx fun e => .ite (.pure _) ?_)
    exact .ite (.pure _) (.bind delivered_setRow fun _ => delivered_startRetry o task _)
  · exact .pure _

end

/-! ### The dispatcher -/

section
variable (spec : WorkflowSpec) (ls : ListSort) (o : Oracle) {skip : TaskId → M Unit}

theorem delivered_createExistingTask {rerun : Bool} : Delivered a (createExistingTask t rerun) := by
  refine .bind delivered_taskEx fun e => .ite ?_ (.pure _)
  exact .bind delivered_setState fun _ => .bind delivered_schedule fun _ => .pure _

theorem delivered_processCommand (hskip : ∀ t, Delivered a (skip t)) (cmd : Cmd) :
    Delivered a (processCommand o skip cmd) := by
  cases cmd with
  | noop b => exact .throw _
  | runTask b wait key =>
    refine .bind ?_ fun t => .modify fun _ => rfl
    exact .ite delivered_defer delivered_createTaskExecution
  | runExistingTask b t reset key rerun => exact .bind delivered_createExistingTask fun _ => .modify fun _ => rfl
  | skipTask b t key => exact hskip t
  | setWorkflowState kind b msg => exact delivered_setWorkflowState o

theorem delivered_processEach (hskip : ∀ t, Delivered a (skip t)) (cmds : List Cmd) :
    Delivered a (processEach o skip cmds) := by
  induction cmds with
  | nil => exact .pure _
  | cons cmd cmds ih =>
    refine .bind .get fun s => .ite (.pure _) (.ite ?_ ?_)
    · exact .bind (.modify fun _ => rfl) fun _ => ih
    · exact .bind (delivered_processCommand o hskip cmd) fun _ => ih

/-- The commands go to the dispatcher; while it processes them, it gets what is due. -/
theorem ends_dispatchWorkflowCommands (hskip : ∀ t, Delivered a (skip t)) (cmds : List Cmd) (s : Engine) :
    Ends (dispatchWorkflowCommands spec o ls skip cmds) s (fun _ => Delivers a (s.emit (.dispatched cmds)))
      fun _ => Delivers a (s.emit (.dispatched cmds)) := by
  have hpoll : Delivered a (pollCommandsFromBacklog spec) :=
    .bind .get fun _ => .bind (.modify fun _ => rfl) fun _ => delivered_ofExcept
  unfold dispatchWorkflowCommands
  rw [emit, Ends.bind_iff, Ends.modify_iff]
  refine Delivered.bind hpoll (fun backlog => .bind ?_ fun _ => ?_) _
  · exact delivered_processEach o hskip _
  · exact delivered_processEach o hskip _

/-- Commands that are from no transition of `a` owe it nothing. -/
theorem delivered_dispatchWorkflowCommands (hskip : ∀ t, Delivered a (skip t)) {cmds : List Cmd}
    (h : ∀ cmd ∈ cmds, cmd.isFrom a = false) : Delivered a (dispatchWorkflowCommands spec o ls skip cmds) := by
  intro s
  have hsent : Balanced a [.dispatched cmds] := fun last => by
    have hnone : cmds.filter (·.isFrom a) = [] := List.filter_eq_nil_iff.mpr fun cmd hcmd => by simp [h cmd hcmd]
    simp only [owed, sent, List.flatMap_cons, Event.sent, hnone]
    rfl
  have hstart : Delivers a s (s.emit (.dispatched cmds)) := .of_events [.dispatched cmds] rfl hsent
  exact (ends_dispatchWorkflowCommands spec ls o hskip cmds s).mono (fun _ _ => hstart.trans) fun _ _ => hstart.trans

/-! ### Completion -/

theorem base_configureIfJoin (wfId : String) (cmd : Cmd) : (configureIfJoin wfId cmd).base = cmd.base := by
  unfold configureIfJoin
  split
  · split <;> rfl
  · rfl
  · rfl

theorem triggeredBy_createCommand (name : String) (ts : TaskSpec) (ctx : Ctx) (msg : Option String)
    (trig : Option (List Trigger)) (he : Bool) : (createCommand name ts ctx msg trig he).base.triggeredBy = trig := by
  unfold createCommand
  split <;> rfl

/-- Every command that the on-clauses of `t` select is from `t`. -/
theorem isFrom_findNextCommandsForTask {wfId : String} {e : TaskEx} {cmds : List Cmd}
    (h : findNextCommandsForTask spec o wfId t e = .ok cmds) : ∀ cmd ∈ cmds, cmd.isFrom a = (t == a) := by
  unfold findNextCommandsForTask at h
  simp only [bind, Except.bind] at h
  split at h
  · cases h
  split at h
  · cases h
  intro cmd hcmd
  obtain ⟨next, _, hnext⟩ := mapM_ok_mem h cmd hcmd
  unfold nextCommand at hnext
  split at hnext <;> cases hnext <;>
    simp [Cmd.isFrom, base_configureIfJoin, triggeredBy_createCommand]

/-- Of the commands that `t` selects, all are from `t` and none from another task. -/
theorem filter_findNextCommandsForTask {wfId : String} {e : TaskEx} {cmds : List Cmd}
    (h : findNextCommandsForTask spec o wfId t e = .ok cmds) :
    cmds.filter (·.isFrom a) = if t = a then cmds else [] := by
  split
  next hta => exact List.filter_eq_self.mpr fun cmd hcmd => by simp [isFrom_findNextCommandsForTask spec o h cmd hcmd, hta]
  next hta =>
    exact List.filter_eq_nil_iff.mpr fun cmd hcmd => by simp [isFrom_findNextCommandsForTask spec o h cmd hcmd, hta]

theorem filter_continueWorkflow {s : Engine} {e : TaskEx} {cmds : List Cmd}
    (h : continueWorkflow spec o s t e = .ok cmds) : cmds.filter (·.isFrom a) = if t = a then cmds else [] := by
  unfold continueWorkflow at h
  split at h
  · cases h
    simp
  · exact filter_findNextCommandsForTask spec o h

/-- A task that is continued right after its on-clauses selected commands delivers them. -/
theorem balanced_continued {cmds : List Cmd} {st wf : State} {p : Bool}
    (h : cmds.filter (·.isFrom a) = if t = a then cmds else []) :
    Balanced a [.selected t cmds, .continued t st p wf, .dispatched cmds] := by
  intro last
  by_cases hta : t = a
  · simp only [owed, hta, if_true, List.append_nil, sent, List.flatMap_cons, List.flatMap_nil, Event.sent, List.nil_append]
    rw [h, if_pos hta]
  · simp only [owed, hta, if_false, List.append_nil, sent, List.flatMap_cons, List.flatMap_nil, Event.sent,
      List.nil_append]
    rw [h, if_neg hta]
    rfl

theorem ends_setProcessed {s : Engine} {e : TaskEx} {E : Exc → Engine → Prop} :
    Ends (setProcessed true t e) s (fun _ s' => s' = (s.emit (.continued t e.state e.processed s.wf.state)).setRow t
      fun e => { e with processed := true }) E := by
  simp only [setProcessed, emit, setRow, Ends.bind_iff, Ends.get_iff, Ends.modify_iff, if_true]

/-- What is dispatched next: the events between are the continuation of `t` and the commands. -/
theorem ends_dispatchNext {cmds : List Cmd} {s : Engine} :
    Ends (dispatchNext spec ls o t cmds) s
      (fun _ s' => ∃ st p wf u, u.trace = s.trace ++ [.continued t st p wf, .dispatched cmds] ∧ Delivers a u s')
      fun _ s' => s' = s ∨
        ∃ st p wf u, u.trace = s.trace ++ [.continued t st p wf, .dispatched cmds] ∧ Delivers a u s' := by
  unfold dispatchNext
  rw [Ends.bind_iff, taskEx_iff]
  refine ⟨fun e he => ?_, fun _ => .inl rfl⟩
  refine Ends.bind (ends_setProcessed (E := fun _ _ => False)) ?_ fun _ _ h => h.elim
  rintro - s' rfl
  have hrest : ∀ s₁ : Engine, s₁.trace = s.trace ++ [.continued t e.state e.processed s.wf.state] →
      Ends (dispatchWorkflowCommands spec o ls noSkip cmds) s₁
        (fun _ s' => ∃ st p wf u, u.trace = s.trace ++ [.continued t st p wf, .dispatched cmds] ∧ Delivers a u s')
        fun _ s' => s' = s ∨
          ∃ st p wf u, u.trace = s.trace ++ [.continued t st p wf, .dispatched cmds] ∧ Delivers a u s' := fun s₁ htrace => by
    have hu : (s₁.emit (.dispatched cmds)).trace =
        s.trace ++ [.continued t e.state e.processed s.wf.state, .dispatched cmds] := by simp [Engine.emit, htrace]
    exact (ends_dispatchWorkflowCommands spec ls o (fun _ => .throw _) cmds s₁).mono
      (fun _ _ h => ⟨_, _, _, _, hu, h⟩) fun _ _ h => .inr ⟨_, _, _, _, hu, h⟩
  -- The row of `t` is still there, so that nothing is raised before the commands are dispatched.
  rw [registerWorkflowCompletionCheck, bind_assoc, Ends.bind_iff, taskEx_iff]
  refine ⟨fun e' _ => ?_, fun hnone => ?_⟩
  · split
    · rw [Ends.bind_iff, Ends.modify_iff]
      exact hrest _ rfl
    · exact hrest _ rfl
  · rw [getElem?_setRow (by exact he)] at hnone
    cases hnone

/-- Where the on-clauses are evaluated, the commands that they select are dispatched, unless the workflow is paused. -/
theorem delivered_continueAfterCompletion : Delivered a (continueAfterCompletion spec ls o t) := by
  refine .bind delivered_taskEx fun e => .ite (.pure _) (.bind .get fun s₀ s => ?_)
  rw [Ends.bind_iff, ofExcept_iff]
  refine ⟨fun cmds hcmds => ?_, fun _ _ => .refl s⟩
  have hfrom := filter_continueWorkflow (a := a) spec o hcmds
  rw [emit, Ends.bind_iff, Ends.modify_iff, setRow, Ends.bind_iff, Ends.modify_iff, Ends.bind_iff, Ends.get_iff]
  have hselected : Delivers a s ((s.emit (.selected t cmds)).setRow t (·.withNextTasks cmds)) :=
    .of_events [.selected t cmds] rfl
  split
  · exact hselected
  have hdispatched : ∀ {s'}, (∃ st p wf u, u.trace = ((s.emit (.selected t cmds)).setRow t (·.withNextTasks cmds)).trace ++
      [.continued t st p wf, .dispatched cmds] ∧ Delivers a u s') → Delivers a s s' := by
    rintro s' ⟨st, p, wf, u, hu, h⟩
    refine .trans (.of_events [.selected t cmds, .continued t st p wf, .dispatched cmds] ?_ (balanced_continued hfrom)) h
    simp [hu, Engine.emit, Engine.setRow]
  refine (ends_dispatchNext spec ls o).mono (fun _ _ => hdispatched) fun _ s' h => ?_
  obtain rfl | h := h
  · exact hselected
  · exact hdispatched h

variable {task : Task}

theorem delivered_enterState {state : State} {info : Option String} : Delivered a (enterState spec o task state info) := by
  refine .bind delivered_setState fun _ => .bind (delivered_updateInboundContext spec o task) fun _ =>
    .bind (delivered_evaluateAt o _) fun _ => ?_
  have hpolicies : Delivered a (if !state.isSkipped then afterTaskComplete spec o task else pure ()) :=
    .ite (.forM fun p _ => delivered_policyAfterTaskComplete o task p) (.pure _)
  exact .ite (.bind delivered_setRow fun _ => hpolicies) hpolicies

theorem delivered_complete {state : State} {info : Option String} : Delivered a (complete spec ls o task state info) :=
  .bind delivered_taskEx fun _ => .ite (.pure _)
    (.bind (delivered_enterState spec o) fun _ => delivered_continueAfterCompletion spec ls o)

/-! ### Running -/

theorem delivered_scheduleAction (i : Nat) : Delivered a (scheduleAction o task i) :=
  .bind delivered_emit fun _ => .ite (.modify fun _ => rfl) delivered_setRow

theorem delivered_scheduleFailed (i : Nat) : Delivered a (scheduleFailed spec ls o task i) :=
  .ite (.throw _) (delivered_complete spec ls o)

theorem delivered_scheduleItems (is : List Nat) : Delivered a (scheduleItems spec ls o task is) := by
  induction is with
  | nil => exact .pure _
  | cons i is ih =>
    refine .ite (delivered_scheduleFailed spec ls o i) (.bind (delivered_scheduleAction o i) fun _ => ?_)
    refine .bind delivered_taskEx fun e => ?_
    split
    · exact .throw _
    · exact .bind delivered_setRow fun _ => ih

theorem delivered_scheduleWithItems : Delivered a (scheduleWithItems spec ls o task) := by
  refine .bind (delivered_evaluateAt o _) fun _ => .bind delivered_setRow fun _ => .bind delivered_taskEx fun e => ?_
  split
  · exact delivered_complete spec ls o
  · exact delivered_scheduleItems spec ls o _

theorem delivered_scheduleActions : Delivered a (scheduleActions spec ls o task) :=
  .ite (delivered_scheduleWithItems spec ls o) (.bind (delivered_evaluateAt o _) fun _ =>
    .ite (delivered_scheduleFailed spec ls o 0) (delivered_scheduleAction o 0))

theorem delivered_beforeTaskStart : Delivered a (beforeTaskStart spec o task) :=
  .forM fun p _ => delivered_policyBeforeTaskStart o task p

theorem delivered_run {firstRun : Bool} : Delivered a (run spec ls o task firstRun) := by
  refine .ite ?_ ?_
  · refine .ite (.pure _) (.bind delivered_taskEx fun e => .ite ?_ (.pure _))
    refine .bind delivered_setState fun _ => .bind (delivered_beforeTaskStart spec o) fun _ => ?_
    exact .bind delivered_taskEx fun _ => .ite (.pure _) (delivered_scheduleActions spec ls o)
  · have hrestart : Delivered a (restartActions spec ls o task) :=
      .bind (delivered_updateInboundContext spec o task) fun _ => .bind (delivered_updateTriggeredBy task) fun _ =>
        .bind delivered_setRow fun _ => delivered_scheduleActions spec ls o
    refine .ite (.pure _) (.bind delivered_taskEx fun e => .ite (.throw _) (.bind delivered_setState fun _ => ?_))
    refine .ite (.bind (delivered_beforeTaskStart spec o) fun _ => .bind delivered_taskEx fun _ => ?_) hrestart
    exact .ite (.pure _) hrestart

theorem delivered_taskOnActionComplete (x : Execution) : Delivered a (taskOnActionComplete spec ls o task x) := by
  refine .ite (.bind delivered_taskEx fun _ => .ite (.pure _) ?_) (delivered_complete spec ls o)
  refine .bind delivered_setRow fun _ => .bind delivered_taskEx fun _ => ?_
  exact .ite (delivered_complete spec ls o) (.ite (delivered_scheduleWithItems spec ls o) (.pure _))

/-! ### Handlers -/

theorem delivered_forceFailTask {msg : String} : Delivered a (forceFailTask o t msg) :=
  .bind delivered_setState fun _ => delivered_stopWorkflow o

theorem delivered_checkAffectedTasks : Delivered a (checkAffectedTasks spec task) :=
  .bind delivered_taskEx fun _ => .ite (.pure _) (.bind .get fun _ => .ite (.pure _) (.modify fun _ => rfl))

theorem delivered_handling {lib : Bool} {what : String} {body : M Unit} (hbody : Delivered a body) :
    Delivered a (handling spec o lib what task body) := by
  refine .bind (.tryCatch (.bind hbody fun _ => .pure _) fun e => ?_) fun done =>
    .ite (delivered_checkAffectedTasks spec) (.pure _)
  split
  · exact .bind (delivered_forceFailTask o) fun _ => .pure _
  · exact .throw _

theorem delivered_buildTask : Delivered a (buildTask spec t) := .bind (delivered_taskSpecOf spec) fun _ => .pure _

theorem delivered_runTask (m : StartTask) : Delivered a (runTask spec ls o m) := by
  refine .bind (delivered_taskSpecOf spec) fun ts => delivered_handling spec o (.ite ?_ (delivered_run spec ls o))
  exact .bind delivered_setState fun _ => .bind delivered_schedule fun _ => delivered_run spec ls o

theorem delivered_skipTaskHandler : Delivered a (skipTaskHandler spec ls o t) :=
  .bind (delivered_buildTask spec) fun _ => .bind (delivered_complete spec ls o) fun _ =>
    delivered_checkAffectedTasks spec

theorem delivered_onActionComplete {i : Nat} : Delivered a (onActionComplete spec ls o t i) := by
  refine .bind (delivered_buildTask spec) fun task => .bind delivered_taskEx fun e => ?_
  split
  · exact .pure _
  · exact delivered_handling spec o (delivered_taskOnActionComplete spec ls o _)

theorem delivered_scheduleOnActionComplete {i : Nat} : Delivered a (scheduleOnActionComplete spec ls o t i) :=
  .bind (delivered_taskSpecOf spec) fun _ => .ite delivered_schedule (delivered_onActionComplete spec ls o)

theorem delivered_continueTask : Delivered a (continueTask spec ls o t) :=
  .bind (delivered_buildTask spec) fun _ => delivered_handling spec o
    (.bind delivered_setState fun _ => delivered_run spec ls o)

theorem delivered_completeTask {state : State} {info : Option String} :
    Delivered a (completeTask spec ls o t state info) :=
  .bind (delivered_buildTask spec) fun _ => delivered_handling spec o (delivered_complete spec ls o)

theorem delivered_refreshTaskState : Delivered a (refreshTaskState spec ls o t) := by
  refine .bind delivered_taskEx fun e => .ite (.pure _) (.bind .get fun s => .ite (.pure _) ?_)
  refine .bind (delivered_taskSpecOf spec) fun ts => .bind delivered_ofExcept fun logical => ?_
  refine .bind delivered_setRow fun _ => ?_
  split
  · exact delivered_continueTask spec ls o
  · exact delivered_completeTask spec ls o
  · exact .pure _
  · exact .throw _

theorem delivered_completeAction {i : Nat} {result : ActionResult} : Delivered a (completeAction t i result) := by
  refine .bind delivered_taskEx fun e => ?_
  split
  · exact .throw _
  · exact .ite (.throw _) delivered_setRow

theorem delivered_onActionResult {i : Nat} {result : ActionResult} : Delivered a (onActionResult spec ls o t i result) := by
  refine .ite (.bind delivered_taskEx fun e => .ite ?_ (.throw _)) ?_
  · exact .bind delivered_setRow fun _ => delivered_forceFailTask o
  · exact .bind delivered_completeAction fun _ => delivered_scheduleOnActionComplete spec ls o

/-! ### Workflow handlers -/

/-- The event with which the loop of `_continue_workflow` continues a task. -/
def Event.continuedIn (wf : State) (r : TaskId × TaskEx) : Event := .continued r.1 r.2.state r.2.processed wf

/-- The loop of `_continue_workflow` over some of the task executions continues those that are not processed yet. -/
theorem ends_markIfUnprocessed (rows : List (TaskId × TaskEx)) (hnodup : (rows.map (·.1)).Nodup) {s : Engine}
    (hrows : ∀ r ∈ rows, s.tasks[r.1]? = some r.2) :
    Ends ((rows.map (·.1)).forM (markIfUnprocessed true)) s
      (fun _ s' => s'.trace = s.trace ++
        (rows.filter fun r => r.2.state.isCompleted && !r.2.processed).map (.continuedIn s.wf.state))
      fun _ _ => False := by
  induction rows generalizing s with
  | nil => simp
  | cons r rows ih =>
    rw [List.map_cons, List.nodup_cons] at hnodup
    have hr := hrows r List.mem_cons_self
    rw [List.map_cons, List.forM, markIfUnprocessed, bind_assoc, Ends.bind_iff, taskEx_iff]
    refine ⟨fun e he => ?_, fun hnone => by simp [hr] at hnone⟩
    obtain rfl := Option.some.inj (hr.symm.trans he)
    split
    next hdue =>
      refine Ends.bind (ends_setProcessed (E := fun _ _ => False)) ?_ fun _ _ h => h.elim
      rintro - s' rfl
      refine (ih hnodup.2 fun r' hr' => ?_).mono (fun _ s' h => ?_) fun _ _ h => h
      · have hne : r.1 ≠ r'.1 := fun heq => hnodup.1 (heq ▸ List.mem_map_of_mem hr')
        simpa [Engine.setRow, Engine.emit, hne] using hrows r' (List.mem_cons_of_mem r hr')
      · rw [h, List.filter_cons_of_pos (by exact hdue)]
        simp [Engine.setRow, Engine.emit, Event.continuedIn]
    next hdue =>
      refine (ih hnodup.2 fun r' hr' => hrows r' (List.mem_cons_of_mem r hr')).mono (fun _ s' h => ?_) fun _ _ h => h
      rw [h, List.filter_cons_of_neg (by exact hdue)]

/-- The event with which a resumed workflow evaluates the on-clauses of a task. -/
def Event.selectedBy (g : TaskId × TaskEx → List Cmd) (r : TaskId × TaskEx) : Event := .selected r.1 (g r)

theorem owed_selectedBy (g : TaskId × TaskEx → List Cmd) (last : List Cmd) (rows : List (TaskId × TaskEx)) :
    owed a last (rows.map (.selectedBy g)) = [] := by
  induction rows generalizing last with
  | nil => rfl
  | cons r rows ih => exact ih _

theorem owed_continuedIn (wf : State) (last : List Cmd) (rows : List (TaskId × TaskEx)) :
    owed a last (rows.map (.continuedIn wf)) = rows.flatMap fun r => if r.1 = a then withoutPauses last else [] := by
  induction rows with
  | nil => rfl
  | cons r rows ih => rw [List.flatMap_cons, ← ih]; rfl

theorem sent_selectedBy (g : TaskId × TaskEx → List Cmd) (rows : List (TaskId × TaskEx)) :
    sent a (rows.map (.selectedBy g)) = [] := by
  simp [sent, List.flatMap_map, Event.selectedBy, Event.sent]

theorem sent_continuedIn (wf : State) (rows : List (TaskId × TaskEx)) : sent a (rows.map (.continuedIn wf)) = [] := by
  simp [sent, List.flatMap_map, Event.continuedIn, Event.sent]

/-- Where all rows of a task select the same commands, these are the ones that it selected last. -/
theorem lastSelected_selectedBy {g : TaskId × TaskEx → List Cmd} {cmds : List Cmd} {rows : List (TaskId × TaskEx)}
    (h : ∀ r ∈ rows, r.1 = a → g r = cmds) (hmem : ∃ r ∈ rows, r.1 = a) (last : List Cmd) :
    lastSelected a last (rows.map (.selectedBy g)) = cmds := by
  have hif : ∀ rows : List (TaskId × TaskEx), (∀ r ∈ rows, r.1 = a → g r = cmds) → ∀ last,
      lastSelected a last (rows.map (.selectedBy g)) = if ∃ r ∈ rows, r.1 = a then cmds else last := by
    intro rows h
    induction rows with
    | nil => simp [lastSelected]
    | cons r rows ih =>
      intro last
      rw [List.map_cons, Event.selectedBy, lastSelected, ih fun r' hr' => h r' (List.mem_cons_of_mem r hr')]
      by_cases hr : r.1 = a
      · simp [hr, h r List.mem_cons_self hr]
      · rw [if_neg hr]
        simp only [List.exists_mem_cons_iff, hr, false_or]
  rw [hif rows h, if_pos hmem]

/-- A resumed workflow delivers what its tasks owe: they select, they are continued, and all of their commands are
    dispatched together, without those that pause the workflow. -/
theorem balanced_resumed {g : TaskId × TaskEx → List Cmd} {idle : List Cmd} {rows : List (TaskId × TaskEx)} (wf : State)
    (hsame : ∀ r ∈ rows, ∀ r' ∈ rows, r.1 = r'.1 → g r = g r')
    (hfrom : ∀ r ∈ rows, (g r).filter (·.isFrom a) = if r.1 = a then g r else [])
    (hidle : ∀ cmd ∈ idle, cmd.isFrom a = false) :
    Balanced a (rows.map (.selectedBy g) ++ rows.map (.continuedIn wf) ++
      [.dispatched (withoutPauses (idle ++ rows.flatMap g))]) := by
  intro last
  have hnone : idle.filter (·.isFrom a) = [] := List.filter_eq_nil_iff.mpr fun cmd hcmd => by simp [hidle cmd hcmd]
  have hown : (idle ++ rows.flatMap g).filter (·.isFrom a) = rows.flatMap fun r => if r.1 = a then g r else [] := by
    rw [List.filter_append, hnone, List.nil_append, List.filter_flatMap]
    exact List.flatMap_congr hfrom
  have hsent : sent a [.dispatched (withoutPauses (idle ++ rows.flatMap g))] =
      rows.flatMap fun r => if r.1 = a then withoutPauses (g r) else [] := by
    rw [sent, List.flatMap_singleton, Event.sent, withoutPauses_filter, hown, withoutPauses_idem, withoutPauses,
      List.filter_flatMap]
    exact List.flatMap_congr fun r _ => by split <;> rfl
  rw [owed_append, owed_append, owed_selectedBy, owed_continuedIn, sent_append, sent_append, sent_selectedBy,
    sent_continuedIn, hsent, List.nil_append, List.nil_append, List.nil_append]
  refine (List.append_nil _).trans (List.flatMap_congr fun r hr => ?_)
  split
  next hra =>
    rw [lastSelected_selectedBy (fun r' hr' hra' => hsame r' hr' r hr (hra'.trans hra.symm)) ⟨r, hr, hra⟩]
  · rfl

/-- Nothing is due where no command is there to be dispatched. -/
theorem Balanced.of_dispatched_nil {w : List Event} (h : Balanced a (w ++ [.dispatched []])) : Balanced a w := by
  intro last
  have := h last
  rw [owed_append, sent_append] at this
  simpa [owed, sent, Event.sent, withoutPauses] using this

/-- The commands that the on-clauses of a task select; none where their evaluation fails. -/
def selectedFor (wfId : String) (r : TaskId × TaskEx) : List Cmd :=
  (findNextCommandsForTask spec o wfId r.1 r.2).toOption.getD []

theorem filter_selectedFor {wfId : String} (r : TaskId × TaskEx) :
    (selectedFor spec o wfId r).filter (·.isFrom a) = if r.1 = a then selectedFor spec o wfId r else [] := by
  unfold selectedFor
  cases h : findNextCommandsForTask spec o wfId r.1 r.2 with
  | error e => simp [Except.toOption]
  | ok cmds => exact filter_findNextCommandsForTask spec o h

/-- What a workflow goes on with: the commands of the tasks that are not processed yet, after others that are from no
    transition. -/
theorem findNextCommands_split {s : Engine} {cmds : List Cmd} (h : findNextCommands spec o s = .ok cmds) :
    ∃ idle, cmds = idle ++ s.unprocessed.flatMap (selectedFor spec o s.wf.id) ∧ ∀ cmd ∈ idle, cmd.isFrom a = false := by
  unfold findNextCommands at h
  simp only [bind, Except.bind, pure, Except.pure] at h
  split at h
  next htasks =>
    cases h
    refine ⟨findStartCommands spec o, by simp [Engine.unprocessed, Engine.rows, htasks], fun cmd hcmd => ?_⟩
    obtain ⟨ts, _, rfl⟩ := List.mem_map.mp hcmd
    rfl
  split at h
  · cases h
  next next hnext =>
  cases h
  refine ⟨_, congrArg _ ?_, fun cmd hcmd => ?_⟩
  · have hall : next = s.unprocessed.map (selectedFor spec o s.wf.id) := by
      have hforall := mapM_ok.mp hnext
      clear hnext
      generalize s.unprocessed = rows at hforall
      induction hforall with
      | nil => rfl
      | cons hr _ ih => rw [List.map_cons, ← ih, selectedFor, hr]; rfl
    rw [hall, List.flatMap_def]
  · obtain ⟨_, _, hx⟩ := List.mem_filterMap.mp hcmd
    obtain ⟨own, _, rfl⟩ := Option.map_eq_some_iff.mp hx
    rfl

theorem ids_rows (s : Engine) : s.rows.map (·.1) = List.range s.tasks.length := by
  rw [Engine.rows, List.map_map, List.range_eq_range']
  exact List.zipIdx_map_snd 0 s.tasks

theorem ends_forM_emit {ι : Type} (f : ι → Event) (l : List ι) {s : Engine} {E : Exc → Engine → Prop} :
    Ends (l.forM fun i => emit (f i)) s (fun _ s' => s' = { s with trace := s.trace ++ l.map f }) E := by
  induction l generalizing s with
  | nil => simp
  | cons i l ih =>
    rw [List.forM, emit, Ends.bind_iff, Ends.modify_iff]
    refine ih.mono (fun _ s' h => ?_) fun _ _ h => h
    rw [h]
    simp [Engine.emit]

theorem ends_selectUnprocessed {s : Engine} {E : Exc → Engine → Prop} :
    Ends (selectUnprocessed spec o) s
      (fun _ s' => s' = { s with trace := s.trace ++ s.unprocessed.map (.selectedBy (selectedFor spec o s.wf.id)) }) E := by
  unfold selectUnprocessed
  rw [Ends.bind_iff, Ends.get_iff]
  exact ends_forM_emit _ _

/-- The rest of `_continue_workflow`: without commands and without a backlog there is only the check. -/
theorem delivers_dispatchOrCheck {s₀ s : Engine} (w : List Event) {cmds : List Cmd} (htrace : s.trace = s₀.trace ++ w)
    (hw : Balanced a (w ++ [.dispatched cmds])) :
    Ends (do
        if cmds = [] ∧ (← get).wf.backlog = [] then checkAndCompleteWorkflow spec o
        else dispatchWorkflowCommands spec o ls (skipTaskHandler spec ls o) cmds) s
      (fun _ => Delivers a s₀) fun _ => Delivers a s₀ := by
  rw [Ends.bind_iff, Ends.get_iff]
  split
  next hnone =>
    have hw : Balanced a w := .of_dispatched_nil (hnone.1 ▸ hw)
    have hstart : Delivers a s₀ s := .of_events w htrace hw
    exact (delivered_checkAndCompleteWorkflow spec o s).mono (fun _ _ => hstart.trans) fun _ _ => hstart.trans
  · have hstart : Delivers a s₀ (s.emit (.dispatched cmds)) :=
      .of_events (w ++ [.dispatched cmds]) (by simp [Engine.emit, htrace]) hw
    exact (ends_dispatchWorkflowCommands spec ls o (fun _ => delivered_skipTaskHandler spec ls o) cmds s).mono
      (fun _ _ => hstart.trans) fun _ _ => hstart.trans

/-- The tasks that a resumed workflow goes on from are continued with the events `w` before them. -/
theorem delivers_continueResumed (s₀ : Engine) {s : Engine} (w : List Event) {cmds : List Cmd} (htrace : s.trace = s₀.trace ++ w)
    (hw : Balanced a (w ++ s.unprocessed.map (.continuedIn s.wf.state) ++ [.dispatched (withoutPauses cmds)])) :
    Ends (continueWorkflowWith spec ls o true cmds) s (fun _ => Delivers a s₀) fun _ => Delivers a s₀ := by
  unfold continueWorkflowWith
  dsimp only
  rw [Ends.bind_iff, Ends.get_iff, ← ids_rows]
  have hnodup : (s.rows.map (·.1)).Nodup := ids_rows s ▸ List.nodup_range
  refine Ends.bind (ends_markIfUnprocessed s.rows hnodup fun r hr => mem_rows.mp hr) (fun _ s' h => ?_) fun _ _ h => h.elim
  exact delivers_dispatchOrCheck spec ls o _ (by rw [h, htrace, List.append_assoc]; rfl) hw

theorem delivered_resume : Delivered a (resume spec ls o) := by
  intro s
  have hset : Ends (setWfState .running none) s (fun _ s' => Delivers a s s' ∧ s'.wf.state = .running)
      fun _ => Delivers a s := by
    simp only [setWfState, emit, Ends.bind_iff, Ends.get_iff, Ends.ite_iff, Ends.modify_iff, Ends.throw_iff]
    exact ⟨fun _ => ⟨.of_events _ rfl, rfl⟩, fun _ => .refl s⟩
  unfold resume
  refine Ends.bind hset (fun _ s₁ h => ?_) fun _ _ h => h
  obtain ⟨hs₁, hrunning⟩ := h
  rw [Ends.bind_iff, Ends.get_iff, Ends.bind_iff, ofExcept_iff]
  refine ⟨fun cmds hcmds => ?_, fun _ _ => hs₁⟩
  rw [continueWholeWorkflow, if_neg (by rw [hrunning]; decide)] at hcmds
  obtain ⟨idle, rfl, hidle⟩ := findNextCommands_split spec o hcmds
  refine Ends.bind (ends_selectUnprocessed spec o (E := fun _ _ => False)) ?_ fun _ _ h => h.elim
  rintro - s₂ rfl
  have hsame : ∀ r ∈ s₁.unprocessed, ∀ r' ∈ s₁.unprocessed, r.1 = r'.1 →
      selectedFor spec o s₁.wf.id r = selectedFor spec o s₁.wf.id r' := by
    rintro ⟨t, e⟩ hr ⟨t', e'⟩ hr' (rfl : t = t')
    have he := mem_rows.mp (List.mem_filter.mp hr).1
    obtain rfl := Option.some.inj (he.symm.trans (mem_rows.mp (List.mem_filter.mp hr').1))
    rfl
  refine (delivers_continueResumed spec ls o s₁ _ rfl ?_).mono (fun _ _ => hs₁.trans) fun _ _ => hs₁.trans
  exact balanced_resumed _ hsame (fun r _ => filter_selectedFor spec o r) hidle

theorem delivered_resumeWorkflow : Delivered a (resumeWorkflow spec ls o) :=
  .bind .get fun _ => .ite (delivered_resume spec ls o) (.pure _)

/-- A workflow that starts has no task yet. -/
theorem delivers_startWorkflow {s : Engine} (htasks : s.tasks = []) :
    Ends (startWorkflow spec ls o) s (fun _ => Delivers a s) fun _ => Delivers a s := by
  have hset : Ends (setWfState .running none) s (fun _ s' => Delivers a s s' ∧ s'.tasks = []) fun _ => Delivers a s := by
    simp only [setWfState, emit, Ends.bind_iff, Ends.get_iff, Ends.ite_iff, Ends.modify_iff, Ends.throw_iff]
    exact ⟨fun _ => ⟨.of_events _ rfl, htasks⟩, fun _ => .refl s⟩
  unfold startWorkflow
  refine Ends.bind hset (fun _ s₁ h => ?_) fun _ _ h => h
  obtain ⟨hs₁, htasks₁⟩ := h
  rw [Ends.bind_iff, Ends.get_iff, Ends.bind_iff, ofExcept_iff]
  refine ⟨fun cmds hcmds => ?_, fun _ _ => hs₁⟩
  have hfrom : ∀ cmd ∈ cmds, cmd.isFrom a = false := by
    unfold continueWholeWorkflow at hcmds
    split at hcmds
    · cases hcmds
      intro cmd hcmd
      cases hcmd
    · obtain ⟨idle, rfl, hidle⟩ := findNextCommands_split spec o hcmds
      simpa [Engine.unprocessed, Engine.rows, htasks₁] using hidle
  exact (Delivered.bind (delivered_dispatchWorkflowCommands spec ls o (fun _ => delivered_skipTaskHandler spec ls o) hfrom)
    (fun _ => delivered_checkAndComplete spec o) s₁).mono (fun _ _ => hs₁.trans) fun _ _ => hs₁.trans

/-- A rerun dispatches the command to rerun or to skip a task, which is from no transition, and continues no task. -/
theorem delivered_rerunWorkflow {reset skip : Bool} : Delivered a (rerunWorkflow spec ls o t reset skip) := by
  have hmark : ∀ u, Delivered a (markIfUnprocessed false u) := fun u =>
    .bind delivered_taskEx fun _ => .ite (.bind .get fun _ => .bind delivered_emit fun _ => delivered_setRow) (.pure _)
  have hcontinue : ∀ cmds : List Cmd, (∀ cmd ∈ cmds, cmd.isFrom a = false) →
      Delivered a (continueWorkflowWith spec ls o false cmds) := fun cmds h => by
    refine .bind .get fun s => .bind (.forM fun u _ => hmark u) fun _ => .bind .get fun _ => ?_
    refine .ite (delivered_checkAndCompleteWorkflow spec o) ?_
    exact delivered_dispatchWorkflowCommands spec ls o (fun _ => delivered_skipTaskHandler spec ls o)
      fun cmd hcmd => h cmd (List.mem_filter.mp hcmd).1
  refine .bind .get fun s => .ite (.pure _) (.bind delivered_setWfState fun _ => .bind (.ite (.pure _) delivered_emit) ?_)
  refine fun _ => .bind .get fun s => .bind delivered_taskEx fun e => .bind (delivered_taskSpecOf spec) fun own => ?_
  have hcmds : ∀ cmd ∈ if skip = true then skipTask s own t e else rerunTask s own t e reset, cmd.isFrom a = false := by
    intro cmd hcmd
    split at hcmd
    · unfold skipTask at hcmd
      split at hcmd
      · cases hcmd
      · obtain rfl := List.mem_singleton.mp hcmd
        rfl
    · unfold rerunTask at hcmd
      split at hcmd
      · cases hcmd
      · obtain rfl := List.mem_singleton.mp hcmd
        rw [Cmd.isFrom, base_configureIfJoin]
        rfl
  exact .ite (.bind delivered_setRow fun _ => hcontinue _ hcmds) (hcontinue _ hcmds)

theorem delivered_onActionUpdate {i : Nat} : Delivered a (onActionUpdate spec ls o t i) := by
  refine .bind (delivered_buildTask spec) fun task => .bind delivered_taskEx fun e => ?_
  split
  · exact .pure _
  next x _ =>
  refine delivered_handling spec o (.bind delivered_updateTask fun _ => ?_)
  have hresume : Delivered a (do
      if x.state.isRunning && !(← get).tasks.any (·.state.isPaused) then resumeWorkflow spec ls o) :=
    .bind .get fun _ => .ite (delivered_resumeWorkflow spec ls o) (.pure _)
  exact .ite (.bind delivered_pauseWorkflow fun _ => hresume) hresume

theorem delivered_onExecutionUpdate {i : Nat} {paused : Bool} :
    Delivered a (onExecutionUpdate spec ls o t i paused) := by
  unfold onExecutionUpdate
  obtain ⟨st, hst⟩ := updatedState paused
  refine .bind delivered_taskEx fun e => ?_
  split
  · exact .throw _
  refine .ite (.bind delivered_setRow fun _ => .bind (delivered_taskSpecOf spec) fun ts => ?_) (.throw _)
  exact .ite delivered_schedule (delivered_onActionUpdate spec ls o)

/-! ### Steps -/

theorem delivers_handle (s : Engine) (r : Request) (hstart : r = .start → s.tasks = []) :
    Ends (handle spec ls o r) s (fun _ => Delivers a s) fun _ => Delivers a s := by
  cases r with
  | start => exact delivers_startWorkflow spec ls o (hstart rfl)
  | startTask m => exact delivered_runTask spec ls o m s
  | actionResult t i result => exact delivered_onActionResult spec ls o s
  | executionUpdate t i paused => exact delivered_onExecutionUpdate spec ls o s
  | subworkflowStarted t i => exact delivered_setRow s
  | subworkflowCompleted t i result =>
    have hsent : Delivered a (modify fun s => { s with subResults := s.subResults ++ [(t, i)] }) := .modify fun _ => rfl
    exact Delivered.bind delivered_completeAction (fun _ => hsent) s
  | subworkflowResult t i => exact delivered_scheduleOnActionComplete spec ls o s
  | runJob j =>
    cases j with
    | refreshTaskState t => exact delivered_refreshTaskState spec ls o s
    | continueTask t => exact delivered_continueTask spec ls o s
    | completeTask t st info => exact delivered_completeTask spec ls o s
    | failTaskIfIncomplete t timeout =>
      exact Delivered.bind delivered_taskEx (fun _ => .ite (delivered_completeTask spec ls o) (.pure _)) s
    | onActionComplete t i => exact delivered_onActionComplete spec ls o s
    | onActionUpdate t i => exact delivered_onActionUpdate spec ls o s
  | scheduleIfNeeded t jobsExist => exact Delivered.ite (.pure _) delivered_schedule s
  | checkAndComplete => exact delivered_checkAndComplete spec o s
  | pause => exact delivered_pauseWorkflow s
  | resume => exact delivered_resumeWorkflow spec ls o s
  | stop state msg => exact delivered_stopWorkflow o s
  | rerun t reset skip => exact delivered_rerunWorkflow spec ls o s
  | rerunInSubworkflow t i =>
    exact Delivered.bind delivered_setRow (fun _ => .bind delivered_setWfState fun _ => delivered_setState) s

/-- A step delivers what becomes due in it. -/
theorem delivers_step (s : Engine) (l : Request × Oracle) : Delivers a s (step spec ls s l) := by
  rcases step_cases spec ls s l with heq | ⟨s₀, htake, hstep⟩
  · rw [heq]
    exact .refl s
  obtain ⟨htasks, htrace, -⟩ := take_eq htake
  have hs₀ : Delivers a s s₀ := .of_trace htrace
  rcases hstep with heq | hok
  · rw [heq]
    exact hs₀
  have hstart : l.1 = .start → s₀.tasks = [] := by
    intro hl
    rw [hl] at htake
    simp only [take] at htake
    split at htake
    next hcond => exact htasks ▸ hcond.2
    · cases htake
  have hhandle := delivers_handle spec ls l.2 (a := a) s₀ l.1 hstart
  rw [Ends, hok] at hhandle
  exact hs₀.trans hhandle

/-- In every run, the dispatcher gets for a task what its on-clauses selected, as often as it is continued. -/
theorem sent_eq_owed {guard : Engine → Request × Oracle → Prop} {s : Engine} (h : (engine spec ls).Reach guard s)
    (t : TaskId) : sent t s.trace = owed t [] s.trace := by
  have hbalanced : Balanced t s.trace := by
    refine h.invariant (I := fun s => Balanced t s.trace) ?_ fun s l _ hs _ => ?_
    · rintro s ⟨wfId, isSub, rfl⟩
      exact fun _ => rfl
    · obtain ⟨w, htrace, hw⟩ := delivers_step spec ls s l (a := t)
      rw [engine_step, htrace]
      exact hs.append hw
  exact (hbalanced []).symm

end
end Mistral
