import Mistral.Engine.TaskHandler

/-! Starting, resuming and rerunning a workflow (`mistral/engine/workflows.py`,
    `mistral/engine/workflow_handler.py`). -/

namespace Mistral

section
variable (spec : WorkflowSpec) (ls : ListSort) (o : Oracle)

/-- `Workflow.start`, and the check that follows it in the request `start_workflow`. -/
def startWorkflow : M Unit := do
  setWfState .running none
  let cmds ← ofExcept (continueWholeWorkflow spec o (← get))
  dispatchWorkflowCommands spec o ls (skipTaskHandler spec ls o) cmds
  checkAndComplete spec o

/-- The body of the loop of `_continue_workflow` over the task executions. -/
def markIfUnprocessed (dispatched : Bool) (t : TaskId) : M Unit := do
  let e ← taskEx t
  if e.state.isCompleted && !e.processed then setProcessed dispatched t e

/-- `_continue_workflow`. With `dispatched`, `cmds` has the commands of the completed tasks that are not
    processed yet. -/
def continueWorkflowWith (dispatched : Bool) (cmds : List Cmd) : M Unit := do
  let cmds := cmds.filter (!·.isPause)
  (List.range (← get).tasks.length).forM (markIfUnprocessed dispatched)
  if cmds = [] ∧ (← get).wf.backlog = [] then checkAndCompleteWorkflow spec o
  else dispatchWorkflowCommands spec o ls (skipTaskHandler spec ls o) cmds

/-- What the on-clauses of a task select that is not processed yet goes to the trace. -/
def selectUnprocessed : M Unit := do
  let s ← get
  s.unprocessed.forM fun (t, e) => emit (.selected t ((findNextCommandsForTask spec o s.wf.id t e).toOption.getD []))

/-- `Workflow.resume`. -/
def resume : M Unit := do
  setWfState .running none
  let cmds ← ofExcept (continueWholeWorkflow spec o (← get))
  selectUnprocessed spec o
  continueWorkflowWith spec ls o true cmds

/-- The handler `resume_workflow`. -/
def resumeWorkflow : M Unit := do
  if (← get).wf.state.isPausedOrIdle then resume spec ls o

/-- The request to rerun `t` goes to the trace. A request to skip it asks for no start. -/
def requestRerun (t : TaskId) (skip : Bool) : M Unit := if skip then return else emit (.rerunRequested t)

/-- `Workflow.rerun`. The parents of a sub-workflow are reopened too, see `rerunInSubworkflow`. -/
def rerun (t : TaskId) (reset skip : Bool) : M Unit := do
  setWfState .running none
  requestRerun t skip
  let s ← get
  let e ← taskEx t
  let own ← taskSpecOf spec t
  let cmds := if skip then skipTask s own t e else rerunTask s own t e reset
  if cmds ≠ [] then setRow t (·.mapContext fun _ => {})
  continueWorkflowWith spec ls o false cmds

/-- The handler `rerun_workflow`. -/
def rerunWorkflow (t : TaskId) (reset skip : Bool) : M Unit := do
  if (← get).wf.state = .paused then return
  rerun spec ls o t reset skip

/-- What a rerun in the sub-workflow of an item of the task `t` does to this workflow: `_recursive_rerun`
    reopens the sub-workflow, then this one, and then comes `mark_task_running`. -/
def rerunInSubworkflow (t : TaskId) (i : Nat) : M Unit := do
  setRow t (·.setExecution i fun x => { x with state := .running, accepted := false, notTask := State.running_notTask })
  setWfState .running none
  setState t .running none (some false)

/-! ### Updates of executions -/

/-- The body of `_on_action_update`: it stops where the workflow stays paused for another task. -/
def applyUpdate (t : TaskId) (x : Execution) : M Unit := do
  updateTask t x.state
  if x.state.isPaused then pauseWorkflow none
  if x.state.isRunning && !(← get).tasks.any (·.state.isPaused) then resumeWorkflow spec ls o

/-- `_on_action_update`. -/
def onActionUpdate (t : TaskId) (i : Nat) : M Unit := do
  let task ← buildTask spec t
  match (← taskEx t).executions[i]? with
  | none => return
  | some x => handling spec o true "Failed to handle action update: " task (applyUpdate spec ls o t x)

/-- `schedule_on_action_update`. -/
def scheduleOnActionUpdate (t : TaskId) (i : Nat) : M Unit := do
  if (← taskSpecOf spec t).withItems then schedule (.onActionUpdate t i)
  else onActionUpdate spec ls o t i

/-- The states that an update of an execution asks for. -/
def updatedState (paused : Bool) : { st : State // st ≠ .waiting ∧ st ≠ .skipped } :=
  if paused then ⟨.paused, State.paused_notTask⟩ else ⟨.running, State.running_notTask⟩

/-- The request `on_action_update`, or the pause or resume of a sub-workflow. -/
def onExecutionUpdate (t : TaskId) (i : Nat) (paused : Bool) : M Unit := do
  let ⟨state, notTask⟩ := updatedState paused
  match (← taskEx t).executions[i]? with
  | none => throw (.other "Action execution not found")
  | some x =>
    if x.state.isValidTransition state then
      setRow t (·.setExecution i fun x => { x with state, notTask })
      scheduleOnActionUpdate spec ls o t i
    else throw (.mistral ("Invalid state transition from " ++ x.state.name ++ " to " ++ state.name ++ "."))

end
end Mistral
