import Mistral.Lang.Workflows
import Mistral.Workflow.States

/-! The rows that the engine keeps for a workflow execution (`mistral/db/v2/sqlalchemy/models.py`).

Time stamps, tags, notifications and the specification that each row repeats are left out: the logic
modelled here never reads them. A task execution is known by its place in the list of task executions
of its workflow, in the order of creation, so an id never dangles. -/

namespace Mistral

/-- A dictionary of variables; the values are their JSON texts. -/
abbrev Ctx := List (String × String)

/-- The id of a task execution. -/
abbrev TaskId := Nat

/-- What the `event` of a trigger may say: an on-clause, or why an inbound task does not trigger a join. -/
inductive TriggerEvent
  | clause (c : Clause)
  | notTriggered
  | impossibleRoute
  deriving DecidableEq, Repr

/-- An entry of `triggered_by`: `{'task_id': .., 'event': ..}`. -/
structure Trigger where
  taskId : TaskId
  event : Option TriggerEvent
  deriving DecidableEq, Repr

/-- An action or sub-workflow execution of a task; `output` is the text of its result. Only tasks wait or are
    skipped. -/
structure Execution where
  index : Nat
  state : State := .running
  accepted : Bool := false
  output : Option String := none
  notTask : state ≠ .waiting ∧ state ≠ .skipped := by first | exact State.running_notTask | decide
  deriving DecidableEq, Repr

/-- The entry `with_items` of a runtime context. -/
structure WithItemsCtx where
  capacity : Option Nat
  count : Nat
  deriving DecidableEq, Repr

/-- The keys of `runtime_context` that the engine and its policies use. -/
structure RuntimeContext where
  triggeredBy : Option (List Trigger) := none
  waitBeforeSkip : Bool := false
  waitAfterSkip : Bool := false
  retryNo : Option Nat := none
  concurrency : Option Nat := none
  withItems : Option WithItemsCtx := none
  deriving DecidableEq, Repr

/-- A row of `task_executions_v2`. `nextTasks` is `none` until the completion logic has stored it. -/
structure TaskEx where
  name : String
  state : State
  stateInfo : Option String := none
  uniqueKey : Option String := none
  processed : Bool := false
  hasNextTasks : Bool := false
  nextTasks : Option (List (String × Option TriggerEvent)) := none
  errorHandled : Bool := false
  inContext : Ctx := []
  runtimeContext : RuntimeContext := {}
  executions : List Execution := []
  deriving DecidableEq, Repr

/-- A serialised workflow command. The optional fields are keys that only some commands write. -/
structure CmdDict where
  cmdName : String
  taskName : String
  ctx : Ctx
  triggeredBy : Option (List Trigger)
  wait : Option Bool := none
  uniqueKey : Option (Option String) := none
  taskExId : Option TaskId := none
  reset : Option Bool := none
  newState : Option State := none
  msg : Option (Option String) := none
  deriving DecidableEq, Repr

/-- A row of `workflow_executions_v2`: `isSub` says that it has a `task_execution_id`, and `backlog` is
    the entry `backlog_commands` of its runtime context. -/
structure WorkflowEx where
  id : String
  state : State := .idle
  stateInfo : Option String := none
  accepted : Bool := false
  isSub : Bool := false
  backlog : List CmdDict := []
  deriving DecidableEq, Repr

end Mistral
