import Mistral.Workflow.States

/-! Reports about an execution and everything below it (`mistral/api/controllers/v2/execution_report.py`). -/

namespace Mistral
namespace ExecutionReport

/-- The columns that every entry of a report has. -/
structure ExecutionRow where
  id : String
  name : String := ""
  state : State
  stateInfo : Option String := none
  createdAt : String := ""
  updatedAt : Option String := none
  deriving DecidableEq, Repr

/-- What a report reads from an action execution. -/
structure ActionRow extends ExecutionRow where
  accepted : Bool := false
  lastHeartbeat : Option String := none
  deriving DecidableEq, Repr

/-- `runtime_context['retry_task_policy']`, which the policy empties and fills again. -/
structure RetryContext where
  retryNo : Option Nat := none
  deriving DecidableEq, Repr

/-- What a report reads from the runtime context of a task. -/
structure RuntimeContext where
  retryTaskPolicy : Option RetryContext := none
  deriving DecidableEq, Repr

mutual

/-- A workflow execution with all that is below it. -/
inductive WorkflowExecution
  | mk (row : ExecutionRow) (taskExecutions : List TaskExecution)

/-- A task execution with its action executions and sub-workflows. -/
inductive TaskExecution
  | mk (row : ExecutionRow) (runtimeContext : RuntimeContext) (executions : List ChildExecution)

/-- An action execution or a sub-workflow of a task. -/
inductive ChildExecution
  | action (row : ActionRow)
  | workflow (wfEx : WorkflowExecution)

end

/-- The filters beside `statistics_only`. `max_depth` is negative where there is no limit. -/
structure Filters where
  errorsOnly : Bool := false
  maxDepth : Int := -1
  deriving DecidableEq, Repr

/-! ### Statistics -/

/-- The counters of `ExecutionReportStatistics`. -/
structure Counters where
  totalTasksCount : Nat := 0
  runningTasksCount : Nat := 0
  successTasksCount : Nat := 0
  errorTasksCount : Nat := 0
  idleTasksCount : Nat := 0
  pausedTasksCount : Nat := 0
  deriving DecidableEq, Repr

/-- `ExecutionReportStatistics`. -/
structure ExecutionReportStatistics where
  counters : Counters := {}
  estimatedTime : Int := 0
  deriving DecidableEq, Repr

/-- `update_statistics_with_task`. -/
def updateStatisticsWithTask (stat : Counters) : State → Counters
  | .running => { stat with
      runningTasksCount := stat.runningTasksCount + 1
      totalTasksCount := stat.totalTasksCount + 1 }
  | .success => { stat with
      successTasksCount := stat.successTasksCount + 1
      totalTasksCount := stat.totalTasksCount + 1 }
  | .error => { stat with
      errorTasksCount := stat.errorTasksCount + 1
      totalTasksCount := stat.totalTasksCount + 1 }
  | .idle => { stat with
      idleTasksCount := stat.idleTasksCount + 1
      totalTasksCount := stat.totalTasksCount + 1 }
  | .paused => { stat with
      pausedTasksCount := stat.pausedTasksCount + 1
      totalTasksCount := stat.totalTasksCount + 1 }
  | _ => stat

section
variable (filters : Filters)

/-- The depth exceeds the maximum, if there is one. -/
def Filters.tooDeep (curDepth : Nat) : Bool := 0 ≤ filters.maxDepth && filters.maxDepth < curDepth

/-- A report on errors only leaves out what is not in `ERROR`. -/
def Filters.skips (row : ExecutionRow) : Bool := filters.errorsOnly && row.state != .error

mutual

/-- `analyse_execution_statistics_only`. -/
def analyseExecutionStatisticsOnly : WorkflowExecution → Counters → Nat → Counters
  | .mk _ taskExecutions, stat, curDepth =>
    if filters.tooDeep curDepth then stat else analyseTasksStatisticsOnly taskExecutions stat (curDepth + 1)

/-- The loop over the tasks of a workflow. -/
def analyseTasksStatisticsOnly : List TaskExecution → Counters → Nat → Counters
  | [], stat, _ => stat
  | t :: ts, stat, curDepth => analyseTasksStatisticsOnly ts (analyseTaskStatisticsOnly t stat curDepth) curDepth

/-- `analyse_task_statistics_only`. -/
def analyseTaskStatisticsOnly : TaskExecution → Counters → Nat → Counters
  | .mk row _ executions, stat, curDepth =>
    if filters.skips row then stat
    else analyseChildrenStatisticsOnly executions (updateStatisticsWithTask stat row.state) curDepth

/-- The loop over the sub-workflows of a task. -/
def analyseChildrenStatisticsOnly : List ChildExecution → Counters → Nat → Counters
  | [], stat, _ => stat
  | .action _ :: cs, stat, curDepth => analyseChildrenStatisticsOnly cs stat curDepth
  | .workflow w :: cs, stat, curDepth =>
    analyseChildrenStatisticsOnly cs (analyseExecutionStatisticsOnly w stat curDepth) curDepth

end

/-! ### Entries -/

mutual

/-- The tasks are left out below the maximum depth. -/
inductive WorkflowExecutionReportEntry
  | mk (row : ExecutionRow) (taskExecutions : Option (List TaskExecutionReportEntry))

/-- `TaskExecutionReportEntry`. -/
inductive TaskExecutionReportEntry
  | mk (row : ExecutionRow) (retryCount : Option Nat) (actionExecutions : List ActionRow)
    (workflowExecutions : List WorkflowExecutionReportEntry)

end

/-- The exception that a report can end with. -/
inductive Exc
  | keyError (key : String)
  deriving DecidableEq, Repr

/-- `entry.retry_count`. -/
def retryCount (ctx : RuntimeContext) : Except Exc (Option Nat) :=
  match ctx.retryTaskPolicy with
  | none => .ok none
  | some retryCtx =>
    match retryCtx.retryNo with
    | none => .error (.keyError "retry_no")
    | some n => .ok (some n)

mutual

/-- `analyse_workflow_execution`. -/
def analyseWorkflowExecution : WorkflowExecution → Counters → Nat → Except Exc (WorkflowExecutionReportEntry × Counters)
  | .mk row taskExecutions, stat, curDepth =>
    if filters.tooDeep curDepth then .ok (.mk row none, stat)
    else do
      let (entries, stat) ← analyseTaskExecutions taskExecutions stat (curDepth + 1)
      return (.mk row (some entries), stat)

/-- The loop over the tasks of a workflow, with their entries. -/
def analyseTaskExecutions :
    List TaskExecution → Counters → Nat → Except Exc (List TaskExecutionReportEntry × Counters)
  | [], stat, _ => .ok ([], stat)
  | t :: ts, stat, curDepth => do
    let (entry, stat) ← analyseTaskExecution t stat curDepth
    let (entries, stat) ← analyseTaskExecutions ts stat curDepth
    return (entry.toList ++ entries, stat)

/-- `analyse_task_execution`. -/
def analyseTaskExecution : TaskExecution → Counters → Nat → Except Exc (Option TaskExecutionReportEntry × Counters)
  | .mk row runtimeContext executions, stat, curDepth =>
    if filters.skips row then .ok (none, stat)
    else do
      let count ← retryCount runtimeContext
      let (actions, workflows, stat) ← analyseChildExecutions executions (updateStatisticsWithTask stat row.state) curDepth
      return (some (.mk row count actions workflows), stat)

/-- The loops over the actions and the sub-workflows of a task. -/
def analyseChildExecutions : List ChildExecution → Counters → Nat →
    Except Exc (List ActionRow × List WorkflowExecutionReportEntry × Counters)
  | [], stat, _ => .ok ([], [], stat)
  | .action row :: cs, stat, curDepth => do
    let (actions, workflows, stat) ← analyseChildExecutions cs stat curDepth
    return (row :: actions, workflows, stat)
  | .workflow w :: cs, stat, curDepth => do
    let (entry, stat) ← analyseWorkflowExecution w stat curDepth
    let (actions, workflows, stat) ← analyseChildExecutions cs stat curDepth
    return (actions, entry :: workflows, stat)

end

/-- `ExecutionReport`. -/
structure Report where
  statistics : ExecutionReportStatistics
  rootWorkflowExecution : Option WorkflowExecutionReportEntry := none

/-- `build_report`, with what `estimate_time_for_execution` returns. -/
def buildReport (statisticsOnly : Bool) (estimatedTime : Int) (wfEx : WorkflowExecution) : Except Exc Report :=
  if !statisticsOnly then do
    let (entry, counters) ← analyseWorkflowExecution filters wfEx {} 0
    return { statistics := { counters, estimatedTime }, rootWorkflowExecution := some entry }
  else return { statistics := { counters := analyseExecutionStatisticsOnly filters wfEx {} 0, estimatedTime } }

end

end ExecutionReport
end Mistral
