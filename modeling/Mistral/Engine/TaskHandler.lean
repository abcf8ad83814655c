import Mistral.Engine.Completion
import Mistral.Workflow.JoinState

/-! The handlers that requests and scheduled jobs call (`mistral/engine/task_handler.py`). -/

namespace Mistral

section
variable (spec : WorkflowSpec) (ls : ListSort) (o : Oracle)

/-- `build_task_from_execution`. -/
def buildTask (t : TaskId) : M Task := return { id := t, spec := ← taskSpecOf spec t }

/-- `force_fail_task`. -/
def forceFailTask (t : TaskId) (msg : String) : M Unit := do
  setState t .error msg
  forceFailWorkflow o msg

/-- `_check_affected_tasks`: a check of every affected join is registered for after the transaction. -/
def checkAffectedTasks (task : Task) : M Unit := do
  if !(← taskEx task.id).state.isCompleted then return
  let s ← get
  if s.wf.state.isCompleted then return
  modify (·.addRefreshChecks (findIndirectlyAffectedTaskExecutions spec s.rows task.spec))

/-- What the handlers share: a `MistralException` of `body` fails the task and the workflow, and otherwise
    the affected joins are checked. With `lib`, the handler catches the class of `mistral_lib` too. -/
def handling (lib : Bool) (what : String) (task : Task) (body : M Unit) : M Unit := do
  let done ←
    try
      body
      pure true
    catch e =>
      match e.caught? lib with
      | some msg =>
        forceFailTask o task.id (what ++ msg)
        pure false
      | none => throw e
  if done then checkAffectedTasks spec task

/-- `run_task`. The flag `waiting` of the request is compared with the state `WAITING`, and it is not a state:
    the task that is built is never a waiting one. -/
def runTask (m : StartTask) : M Unit := do
  let task : Task :=
    { id := m.taskEx, spec := ← taskSpecOf spec m.taskEx, waiting := false, triggeredBy := m.triggeredBy,
      rerun := m.rerun, resetFlag := m.reset }
  handling spec o true "Failed to run task: " task do
    if task.waiting && task.rerun then
      setState task.id .waiting "Task is waiting."
      scheduleRefreshTaskState task.id
    run spec ls o task m.firstRun

/-- `skip_task`. -/
def skipTaskHandler (t : TaskId) : M Unit := do
  let task ← buildTask spec t
  complete spec ls o task .skipped "Task was skipped."
  checkAffectedTasks spec task

/-- `_on_action_complete`. -/
def onActionComplete (t : TaskId) (i : Nat) : M Unit := do
  let task ← buildTask spec t
  match (← taskEx t).executions[i]? with
  | none => return
  | some x =>
    handling spec o true "Failed to handle action completion: " task (taskOnActionComplete spec ls o task x)

/-- `schedule_on_action_complete`. -/
def scheduleOnActionComplete (t : TaskId) (i : Nat) : M Unit := do
  if (← taskSpecOf spec t).withItems then schedule (.onActionComplete t i)
  else onActionComplete spec ls o t i

/-- `continue_task`; it alone does not catch the exceptions of `mistral_lib`. -/
def continueTask (t : TaskId) : M Unit := do
  let task ← buildTask spec t
  handling spec o false "Failed to run task: " task do
    setState t .running none
    run spec ls o task false

/-- `complete_task`. -/
def completeTask (t : TaskId) (state : State) (stateInfo : Option String) : M Unit := do
  let task ← buildTask spec t
  handling spec o true "Failed to complete task: " task (complete spec ls o task state stateInfo)

/-- `_fail_task_if_incomplete`. -/
def failTaskIfIncomplete (t : TaskId) (timeout : Nat) : M Unit := do
  if !(← taskEx t).state.isCompleted then
    completeTask spec ls o t .error (some ("Task timed out [timeout(s)=" ++ toString timeout ++ "]."))

/-- The decision of `_refresh_task_state`. -/
def applyLogicalState (t : TaskId) (logical : LogicalState) : M Unit := do
  setRow t (·.mapContext fun c => { c with triggeredBy := some logical.triggeredBy })
  match logical.state with
  | .running => continueTask spec ls o t
  | .error => completeTask spec ls o t .error logical.stateInfo
  | .waiting => return
  | _ => throw (.other "Unexpected logical task state")

/-- `_refresh_task_state`. -/
def refreshTaskState (t : TaskId) : M Unit := do
  let e ← taskEx t
  if e.state.isCompleted || e.state = .running then return
  let s ← get
  if s.wf.state.isCompleted then return
  applyLogicalState spec ls o t (← ofExcept (getLogicalTaskState spec s.rows (← taskSpecOf spec t) e))

/-! ### Results of actions and sub-workflows -/

/-- What an executor sends. -/
inductive ActionResult
  | success (output : Option String)
  | error (output : Option String)
  | cancel (output : Option String)
  deriving DecidableEq, Repr

/-- The state that a result asks for. -/
def ActionResult.state : ActionResult → State
  | success _ => .success
  | error _ => .error
  | cancel _ => .cancelled

theorem ActionResult.notTask (r : ActionResult) : r.state ≠ .waiting ∧ r.state ≠ .skipped := by
  cases r <;> exact ⟨nofun, nofun⟩

/-- The text of a result. -/
def ActionResult.output : ActionResult → Option String
  | success v | error v | cancel v => v

/-- `RegularAction.complete`. -/
def completeAction (t : TaskId) (i : Nat) (result : ActionResult) : M Unit := do
  match (← taskEx t).executions[i]? with
  | none => throw (.other "Action execution not found")
  | some x =>
    if x.state.isCompleted then throw (.other "Action is already completed")
    else
      setRow t (·.setExecution i fun x =>
        { x with state := result.state, output := result.output, accepted := true, notTask := result.notTask })

/-- A result that can not be stored: the action fails, with no accepted result, and the task is forced to fail. -/
def refuseResult (t : TaskId) (i : Nat) : M Unit := do
  let e ← taskEx t
  if e.executions[i]?.any (!·.state.isCompleted) then
    let msg := "Failed to complete action: " ++ e.name
    setRow t (·.setExecution i fun x => { x with state := .error, output := some msg, notTask := State.error_notTask })
    forceFailTask o t msg
  else throw (.other "Action is already completed")

/-- The request `on_action_complete` for an action. -/
def onActionResult (t : TaskId) (i : Nat) (result : ActionResult) : M Unit := do
  if o.raises (.result t i) then refuseResult o t i
  else
    completeAction t i result
    scheduleOnActionComplete spec ls o t i

end
end Mistral
