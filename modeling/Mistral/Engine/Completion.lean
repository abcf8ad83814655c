import Mistral.Engine.Dispatcher
import Mistral.Engine.Policies

/-! Completing and starting tasks (classes `Task`, `RegularTask` and `WithItemsTask` of
    `mistral/engine/tasks.py`). -/

namespace Mistral

section
variable (spec : WorkflowSpec) (ls : ListSort) (o : Oracle)

/-! ### Completion -/

/-- The commands that the completion of a task selects are never `SkipTask` commands. -/
def noSkip (_ : TaskId) : M Unit := throw (.other "Unsupported workflow command")

/-- The entry of `next_tasks` for a command. -/
def nextTaskOf (cmd : Cmd) : String × Option TriggerEvent :=
  (cmd.base.taskSpec.name, (cmd.base.triggeredBy.bind List.head?).bind (·.event))

/-- What `complete` stores about the commands that were selected. -/
def TaskEx.withNextTasks (cmds : List Cmd) (e : TaskEx) : TaskEx :=
  let next := (cmds.filter (!·.isEngineCommand)).map nextTaskOf
  { e with
    nextTasks := some next
    hasNextTasks := !next.isEmpty
    errorHandled := if e.state = .error then cmds.any (·.base.handlesError) else e.errorHandled }

/-- The flag `processed` is set: with `dispatched`, along with sending the commands to the dispatcher. -/
def setProcessed (dispatched : Bool) (t : TaskId) (e : TaskEx) : M Unit := do
  let wf := (← get).wf.state
  emit (if dispatched then .continued t e.state e.processed wf else .marked t)
  setRow t fun e => { e with processed := true }

/-- The commands `cmds` that the completion of `t` selected go to the dispatcher. -/
def dispatchNext (t : TaskId) (cmds : List Cmd) : M Unit := do
  setProcessed true t (← taskEx t)
  registerWorkflowCompletionCheck t
  dispatchWorkflowCommands spec o ls noSkip cmds

/-- What `complete` does after `_after_task_complete`. -/
def continueAfterCompletion (t : TaskId) : M Unit := do
  let e ← taskEx t
  if e.state = .runningDelayed then return
  let cmds ← ofExcept (continueWorkflow spec o (← get) t e)
  emit (.selected t cmds)
  setRow t (·.withNextTasks cmds)
  -- A paused workflow finds the task again when it is resumed.
  if (← get).wf.state.isPaused then return
  dispatchNext spec ls o t cmds

/-- What `complete` does before: the new state, publishing, and the policies. -/
def enterState (task : Task) (state : State) (stateInfo : Option String) : M Unit := do
  setState task.id state stateInfo
  updateInboundContext spec o task
  evaluateAt o (.publish task.id)
  if !task.spec.keepResult then setRow task.id (·.destroyResult)
  if !state.isSkipped then afterTaskComplete spec o task

/-- `Task.complete`. -/
def complete (task : Task) (state : State) (stateInfo : Option String) : M Unit := do
  let e ← taskEx task.id
  if e.state.isCompleted && !state.isSkipped then return
  enterState spec o task state stateInfo
  continueAfterCompletion spec ls o task.id

/-! ### Starting actions -/

/-- `action.schedule(.., index=i)`: an action execution, or a sub-workflow that is started at once or by a
    request. -/
def scheduleAction (task : Task) (i : Nat) : M Unit := do
  emit (.actionScheduled task.id i)
  if task.spec.workflow && o.viaRpc then modify (·.addSubStart task.id i)
  else setRow task.id (·.addExecution { index := i })

/-- What `_schedule_actions` does about an exception of `action.schedule`: it catches those of `mistral`. -/
def scheduleFailed (task : Task) (i : Nat) : M Unit :=
  if o.fromLib (.schedule task.id i) then throw (o.raised (.schedule task.id i))
  else complete spec ls o task .error "Failed to schedule"

/-- The loop of `WithItemsTask._schedule_actions`. -/
def scheduleItems (task : Task) : List Nat → M Unit
  | [] => return
  | i :: is => do
    if o.raises (.schedule task.id i) then scheduleFailed spec ls o task i
    else
      scheduleAction o task i
      match (← taskEx task.id).decreaseCapacity with
      | none => throw (.other "Can't decrease with-items capacity")
      | some e => setRow task.id fun _ => e
      scheduleItems task is

/-- `WithItemsTask._schedule_actions`. -/
def scheduleWithItems (task : Task) : M Unit := do
  evaluateAt o (.input task.id)
  setRow task.id (·.prepareRuntimeContext (o.items task.id))
  match (← taskEx task.id).getNextIndexes with
  | [] => complete spec ls o task .success none
  | is => scheduleItems spec ls o task is

/-- `_schedule_actions`. -/
def scheduleActions (task : Task) : M Unit := do
  if task.spec.withItems then scheduleWithItems spec ls o task
  else
    evaluateAt o (.input task.id)
    if o.raises (.schedule task.id 0) then scheduleFailed spec ls o task 0
    else scheduleAction o task 0

/-! ### Running -/

/-- `_run_new`. -/
def runNew (task : Task) : M Unit := do
  if task.waiting then return
  let e ← taskEx task.id
  if e.state.isIdle then
    setState task.id .running e.stateInfo
    beforeTaskStart spec o task
    -- A policy may have delayed the task, or paused the workflow before it.
    if (← taskEx task.id).state ≠ .running then return
    scheduleActions spec ls o task

/-- The second half of `_run_existing`. -/
def restartActions (task : Task) : M Unit := do
  updateInboundContext spec o task
  updateTriggeredBy task
  setRow task.id (·.resetActions task.resetFlag)
  scheduleActions spec ls o task

/-- `_run_existing`. -/
def runExisting (task : Task) : M Unit := do
  if task.waiting then return
  if (← taskEx task.id).state = .success then
    throw (.other "Rerunning succeeded tasks is not supported.")
  else
    setState task.id .running none (some false)
    if task.rerun then
      beforeTaskStart spec o task
      if (← taskEx task.id).state ≠ .running then return
    restartActions spec ls o task

/-- `RegularTask.run`. -/
def run (task : Task) (firstRun : Bool) : M Unit :=
  if firstRun then runNew spec ls o task else runExisting spec ls o task

/-! ### Results of actions -/

/-- `RegularTask.on_action_complete`. -/
def regularOnActionComplete (task : Task) (x : Execution) : M Unit :=
  complete spec ls o task x.state (if x.state = .success then none else x.output)

/-- The `state_info` of a completed with-items task. -/
def withItemsInfo : State → Option String
  | .error => "One or more actions had failed."
  | .cancelled => "One or more actions was cancelled."
  | _ => none

/-- `WithItemsTask.on_action_complete`. -/
def withItemsOnActionComplete (task : Task) : M Unit := do
  if (← taskEx task.id).state.isCompleted then return
  setRow task.id (·.increaseCapacity)
  let e ← taskEx task.id
  if e.isWithItemsCompleted then complete spec ls o task e.getFinalState (withItemsInfo e.getFinalState)
  else if e.hasMoreIterations && !e.noConcurrency then scheduleWithItems spec ls o task

/-- `on_action_complete` of the task's class. -/
def taskOnActionComplete (task : Task) (x : Execution) : M Unit :=
  if task.spec.withItems then withItemsOnActionComplete spec ls o task
  else regularOnActionComplete spec ls o task x

end
end Mistral
