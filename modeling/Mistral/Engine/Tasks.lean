import Mistral.Engine.WithItems
import Mistral.Engine.WorkflowState

/-! Task executions and their states (class `Task` of `mistral/engine/tasks.py`): everything but starting
    and completing them. -/

namespace Mistral

/-- The object `Task` that a handler builds for an existing task execution. -/
structure Task where
  id : TaskId
  spec : TaskSpec
  waiting : Bool := false
  triggeredBy : Option (List Trigger) := none
  rerun : Bool := false
  resetFlag : Bool := false
  deriving DecidableEq, Repr

namespace TaskEx

/-- `set_state` has something to do. -/
def differs (e : TaskEx) (state : State) (stateInfo : Option String) : Bool :=
  e.state != state || e.stateInfo != stateInfo

/-- What `set_state` writes. -/
def withState (state : State) (stateInfo : Option String) (processed : Option Bool) (e : TaskEx) : TaskEx :=
  { e with state, stateInfo, processed := processed.getD e.processed }

end TaskEx

/-- `Task.set_state`. Transactions run one after another here, so the compare-and-swap on the state
    succeeds and the result is always `True`. -/
def setState (t : TaskId) (state : State) (stateInfo : Option String) (processed : Option Bool := none) : M Unit := do
  let e ← taskEx t
  if e.differs state stateInfo then
    setRow t (·.withState state stateInfo processed)
    emit (.taskState t e.state state)

/-- `_create_task_execution`. -/
def createTaskExecution (b : CmdBase) (state : State) (stateInfo key : Option String) : M TaskId := do
  let t := (← get).tasks.length
  modify (·.addRow
    { name := b.taskSpec.name, state, stateInfo, uniqueKey := key, inContext := b.ctx,
      runtimeContext := { triggeredBy := if b.triggeredBy = some [] then none else b.triggeredBy } })
  emit (.taskCreated t)
  return t

/-- The first task execution that satisfies `p`. -/
def Engine.findRow (s : Engine) (p : TaskEx → Bool) : Option (TaskId × TaskEx) := s.rows.find? fun (_, e) => p e

/-- `Task.defer`. The first lookup is the fast check outside of the named lock. -/
def defer (b : CmdBase) (key : Option String) : M TaskId := do
  let s ← get
  match s.findRow fun e => e.uniqueKey == key && e.state.isWaiting with
  | some (t, _) => return t
  | none =>
    match s.findRow fun e => e.uniqueKey == key with
    | none => createTaskExecution b .waiting "Task is waiting." key
    | some (t, e) =>
      if e.state ≠ .waiting then
        emit (.deferred t e.state)
        setState t .waiting "Task is waiting."
      return t

/-- `register_workflow_completion_check`, with `may_complete_workflow`. -/
def registerWorkflowCompletionCheck (t : TaskId) : M Unit := do
  let e ← taskEx t
  if e.state.isCompleted && !e.hasNextTasks then modify (·.addCompletionCheck)

/-- `Task.update`. -/
def updateTask (t : TaskId) (state : State) : M Unit := do
  let e ← taskEx t
  if e.state.isCompleted || !e.state.isValidTransition state then return
  -- The task can not run while one of its executions is paused.
  if state = .running ∧ e.executions.any (·.state.isPaused) then return
  setState t state none
  if (← taskEx t).state.isCompleted then registerWorkflowCompletionCheck t

section
variable (spec : WorkflowSpec) (o : Oracle)

/-- The executions that `_get_upstream_task_executions` looks through for a join. -/
def upstreamCandidates (s : Engine) (ts : TaskSpec) : List TaskEx :=
  s.tasks.filter fun e =>
    e.name ∈ (spec.findInboundTaskSpecs ts).map (·.name) && e.state ∈ [State.success, .error, .cancelled]

/-- `_update_inbound_context`. For a join it reads `next_tasks` of every candidate. -/
def updateInboundContext (task : Task) : M Unit := do
  if task.spec.isJoin && (upstreamCandidates spec (← get) task.spec).any (·.nextTasks.isNone) then
    throw (.other "'NoneType' object is not iterable")
  setRow task.id fun e => { e with inContext := o.inboundCtx task.id }

/-- `_update_triggered_by`. -/
def updateTriggeredBy (task : Task) : M Unit :=
  match task.triggeredBy with
  | none | some [] => return
  | some ts => setRow task.id (·.mapContext fun c => { c with triggeredBy := some ts })

/-- `_schedule_refresh_task_state`. -/
def scheduleRefreshTaskState (t : TaskId) : M Unit := schedule (.refreshTaskState t)

end
end Mistral
