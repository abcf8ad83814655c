import Mathlib.Data.List.Sort
import Mistral.Workflow.DirectWorkflow

/-! How a workflow execution changes its state (class `Workflow` of `mistral/engine/workflows.py` without
    `resume` and `rerun`, and the handlers that call it).

A sub-workflow is an execution of a task here. It pauses, resumes and completes by steps of its own, so
the loops over sub-workflows in `pause_workflow`, `resume_workflow` and `stop_workflow` are left out. -/

namespace Mistral

/-- `Workflow.set_state`. Transactions run one after another here, so the update of the row succeeds. -/
def setWfState (state : State) (stateInfo : Option String) : M Unit := do
  let wf := (← get).wf
  if wf.state.isValidTransition state then
    modify (·.setWf { wf with state, stateInfo, accepted := state.isCompleted })
    emit (.wfState wf.state state)
  else
    throw (.mistral ("Can't change workflow execution state from " ++ wf.state.name ++ " to " ++ state.name))

/-- `_send_result_to_parent_workflow`, if there is a parent. -/
def sendResult (state : State) : M Unit := do
  if (← get).wf.isSub then emit (.resultSent state)

section
variable (spec : WorkflowSpec) (o : Oracle)

/-- The output is stored after the state, unless it is larger than `execution_field_size_limit_kb`. -/
def storeOutput (state : State) : M Unit := do
  evaluateAt o .storeOutput
  sendResult state

/-- `_succeed_workflow`. -/
def succeedWorkflow (msg : Option String) : M Unit := do
  evaluateAt o .wfOutput
  setWfState .success msg
  storeOutput o .success

/-- `_fail_workflow`. -/
def failWorkflow (msg : Option String) : M Unit := do
  if (← get).wf.state.isPausedOrCompleted then return
  let msg := if o.raises .wfOutput then some "Failed to evaluate expression in output-on-error!" else msg
  setWfState .error msg
  storeOutput o .error

/-- `_cancel_workflow`. -/
def cancelWorkflow (msg : Option String) : M Unit := do
  if (← get).wf.state.isCompleted then return
  setWfState .cancelled msg
  sendResult .cancelled

/-- `stop_workflow`: other states are ignored. -/
def stopWorkflow (state : State) (msg : Option String) : M Unit :=
  match state with
  | .success => succeedWorkflow o msg
  | .error => failWorkflow o msg
  | .cancelled => cancelWorkflow msg
  | _ => return

/-- `force_fail_workflow`. -/
def forceFailWorkflow (msg : Option String) : M Unit := stopWorkflow o .error msg

/-- `pause_workflow`. -/
def pauseWorkflow (msg : Option String) : M Unit := do
  if (← get).wf.state.isPaused then return
  setWfState .paused msg

/-- `set_workflow_state` for the command of `kind`. -/
def setWorkflowState (kind : StateCmd) (msg : Option String) : M Unit :=
  match kind with
  | .pause => pauseWorkflow msg
  | _ => stopWorkflow o kind.newState msg

/-! ### Completion -/

/-- `get_incomplete_task_executions_count`. -/
def Engine.incompleteTaskExecutionsCount (s : Engine) : Nat :=
  s.tasks.countP fun e => e.state ∈ [State.idle, .running, .waiting, .runningDelayed, .paused]

/-- `any_cancels`. -/
def Engine.anyCancels (s : Engine) : Bool := s.tasks.any (·.state == .cancelled)

/-- `all_errors_handled`. -/
def Engine.allErrorsHandled (s : Engine) : Bool := s.tasks.all fun e => e.state != .error || e.errorHandled

/-- The task executions in a state, `sort_keys=['name']`. -/
def Engine.sortedIn (s : Engine) (state : State) : List TaskEx :=
  (s.tasks.filter (·.state == state)).insertionSort fun x y => x.name ≤ y.name

/-- `is_error_handled_for`. -/
def isErrorHandledFor (e : TaskEx) : Bool :=
  match spec.getTask e.name with
  | some t => !(spec.getOnErrorClause t).isEmpty
  | none => false

/-- The first line of `_build_fail_info_message`; the lines with the outputs of single actions are left
    out. -/
def buildFailInfoMessage (s : Engine) : String :=
  "Failure caused by error in tasks: " ++
    ", ".intercalate (((s.sortedIn .error).filter fun e => !isErrorHandledFor spec e).map (·.name))

/-- `_build_cancel_info_message`. -/
def buildCancelInfoMessage (s : Engine) : String :=
  "Cancelled tasks: " ++ ", ".intercalate ((s.sortedIn .cancelled).map (·.name))

/-- `Workflow.check_and_complete`. -/
def checkAndCompleteWorkflow : M Unit := do
  let s ← get
  if s.wf.state.isPausedOrCompleted then return
  if s.incompleteTaskExecutionsCount > 0 then return
  if s.anyCancels then cancelWorkflow (buildCancelInfoMessage s)
  else if s.allErrorsHandled then
    evaluateAt o .finalContext
    succeedWorkflow o none
  else
    evaluateAt o .finalContext
    failWorkflow o (buildFailInfoMessage spec s)

/-- The handler `check_and_complete`. -/
def checkAndComplete : M Unit := do
  if (← get).wf.state.isCompleted then return
  try checkAndCompleteWorkflow spec o
  catch
    | .mistral msg => forceFailWorkflow o ("Failed to check and complete: " ++ msg)
    | e => throw e

end
end Mistral
