import Mistral.Lib.Caches
import Mistral.Workflow.States

/-! The functions of expressions that read the database (`mistral/expressions/std_functions.py`), and the cache of their
    results within a transaction (`tx_cached` in `mistral/db/utils.py`). -/

namespace Mistral

/-- The value of an argument. Values that are equal for Python are the same one here; a list has no hash. -/
inductive Arg
  | none
  | flag (b : Bool)
  | text (s : String)
  | list (items : List String)
  deriving DecidableEq, Repr

def Arg.truthy : Arg → Bool
  | .none => false
  | .flag b => b
  | .text s => s != ""
  | .list items => !items.isEmpty

def Arg.hashable : Arg → Bool
  | .list _ => false
  | _ => true

/-- What a function can raise. -/
inductive ExprExc
  | keyError (key : String)
  | notFound
  | typeError
  | dbError
  | recursionError
  deriving DecidableEq, Repr

/-- The column `type` of a task execution. -/
inductive TaskType
  | action
  | workflow
  deriving DecidableEq, Repr

/-- What `_convert_to_user_model` takes from a task execution: `result` is that of `get_task_execution_result`. -/
structure TaskRecord where
  id : String
  name : String
  spec : String
  state : State
  stateInfo : Option String
  result : String
  published : String
  type : TaskType
  workflowExecutionId : String
  createdAt : String
  updatedAt : Option String
  deriving DecidableEq, Repr

/-- What `executions` returns for a workflow execution. -/
structure ExecutionRecord where
  id : String
  name : String
  spec : String
  input : String
  params : String
  state : State
  createdAt : String
  updatedAt : String
  rootExecutionId : Option String
  taskExecutionId : Option String
  deriving DecidableEq, Repr

/-- The rows that a transaction sees, in the order of queries. -/
structure ExprDb where
  tasks : List TaskRecord
  executions : List ExecutionRecord
  tasksNodup : (tasks.map (·.id)).Nodup := by decide
  executionsNodup : (executions.map (·.id)).Nodup := by decide

/-- The entry `__task_execution` of a context. -/
structure CurrentTask where
  id : String
  name : String
  deriving DecidableEq, Repr

/-- The keys `__task_execution` and `__execution` of a context, where they are there. -/
structure ExprCtx where
  taskExecution : Option (Option CurrentTask)
  execution : Option String
  deriving DecidableEq, Repr

/-! ### Queries -/

/-- A column has the value of the argument. -/
def Arg.eq (a : Arg) (column : Option String) : Bool :=
  match a with
  | .text s => column == some s
  | _ => false

/-- A comparison of a time with the argument. -/
def Arg.time (a : Arg) (p : String → Bool) : Bool :=
  match a with
  | .text s => p s
  | _ => false

/-- A filter that is there unless the argument is `None`. -/
def Arg.given (a : Arg) (filter : Bool) : Bool := a == .none || filter

/-- A query with arguments in its filters. The database has no lists. -/
def select {α : Type} (args : List Arg) (filter : α → Bool) (rows : List α) : Except ExprExc (List α) :=
  if args.all (·.hashable) then .ok (rows.filter filter) else .error .dbError

/-! ### The functions -/

/-- What `execution()` returns. -/
structure ExecutionModel where
  id : String
  name : String
  spec : String
  input : String
  params : String
  createdAt : String
  updatedAt : String
  rootExecutionId : Option String
  deriving DecidableEq, Repr

section
variable (db : ExprDb) (ctx : ExprCtx)

/-- `executions_`. -/
def executionsFn (id rootExecutionId state fromTime toTime : Arg) : Except ExprExc (List ExecutionRecord) :=
  select [id, rootExecutionId, state, fromTime, toTime]
    (fun r => id.given (id.eq r.id) && rootExecutionId.given (rootExecutionId.eq r.rootExecutionId) &&
      state.given (state.eq r.state.name) && fromTime.given (fromTime.time (· ≤ r.createdAt)) &&
      toTime.given (toTime.time (r.createdAt < ·)))
    db.executions

/-- `get_workflow_execution`. -/
def getWorkflowExecution (id : String) : Except ExprExc ExecutionRecord :=
  match db.executions.find? (·.id == id) with
  | some r => .ok r
  | none => .error .notFound

/-- `context['__execution']['id']`. -/
def ExprCtx.executionId : Except ExprExc String :=
  match ctx.execution with
  | some id => .ok id
  | none => .error (.keyError "__execution")

/-- `execution_`. -/
def executionFn : Except ExprExc ExecutionModel := do
  let r ← getWorkflowExecution db (← ctx.executionId)
  return { id := r.id, name := r.name, spec := r.spec, input := r.input, params := r.params, createdAt := r.createdAt,
           updatedAt := r.updatedAt, rootExecutionId := r.rootExecutionId }

/-- `get_task_execution`. -/
def getTaskExecution (id : String) : Except ExprExc TaskRecord :=
  match db.tasks.find? (·.id == id) with
  | some r => .ok r
  | none => .error .notFound

/-- The last task execution of a name in the workflow execution of the context. -/
def lastTaskNamed (taskName : Arg) : Except ExprExc (Option TaskRecord) := do
  let wfExId ← ctx.executionId
  let taskExecs ← select [taskName] (fun r => r.workflowExecutionId == wfExId && taskName.eq r.name) db.tasks
  return taskExecs.getLast?

/-- `task_`. -/
def taskFn (taskName : Arg) : Except ExprExc (Option TaskRecord) :=
  match ctx.taskExecution with
  | none => .error (.keyError "__task_execution")
  | some none => lastTaskNamed db ctx taskName
  | some (some curTask) =>
    if !taskName.truthy || taskName == .text curTask.name then (getTaskExecution db curTask.id).map some
    else lastTaskNamed db ctx taskName

/-- `_should_pass_filter`. -/
def shouldPassFilter (t : TaskRecord) (state flat : Arg) : Bool :=
  (!state.truthy || state == .text t.state.name) &&
    (!flat.truthy || t.type == .action ||
      (db.executions.filter (·.taskExecutionId == some t.id)).all (·.state != t.state))

/-- `_get_tasks_from_db`. Executions are nested in a tree, and their number bounds the depth. -/
def getTasksFromDb : Nat → Arg → Arg → Arg → Arg → Except ExprExc (List TaskRecord)
  | 0, _, _, _, _ => .error .recursionError
  | fuel + 1, workflowExecutionId, recursive, state, flat => do
    let byState := state.truthy && !(workflowExecutionId.truthy && recursive.truthy)
    let taskExecs ←
      select ((if workflowExecutionId.truthy then [workflowExecutionId] else []) ++ if byState then [state] else [])
        (fun t => (!workflowExecutionId.truthy || workflowExecutionId.eq t.workflowExecutionId) &&
          (!byState || state.eq t.state.name))
        db.tasks
    let nested := if recursive.truthy && workflowExecutionId.truthy then
        (taskExecs.filter (·.type == .workflow)).flatMap fun t => db.executions.filter (·.taskExecutionId == some t.id)
      else []
    let nestedTaskExs ← nested.mapM fun r => getTasksFromDb fuel (.text r.id) recursive state flat
    let taskExecs := if state.truthy || flat.truthy then taskExecs.filter (shouldPassFilter db · state flat) else taskExecs
    return taskExecs ++ nestedTaskExs.flatten

/-- `tasks_`. -/
def tasksFn (workflowExecutionId recursive state flat : Arg) : Except ExprExc (List TaskRecord) :=
  getTasksFromDb db (db.executions.length + 2) workflowExecutionId recursive state flat

end

/-! ### Calls -/

/-- A call of one of the functions in an expression. -/
inductive StdCall
  | execution
  | executions (id rootExecutionId state fromTime toTime : Arg)
  | task (taskName : Arg)
  | tasks (workflowExecutionId recursive state flat : Arg)
  deriving DecidableEq, Repr

/-- What a call returns. -/
inductive StdResult
  | execution (r : ExecutionModel)
  | executions (rs : List ExecutionRecord)
  | task (r : Option TaskRecord)
  | tasks (rs : List TaskRecord)
  deriving DecidableEq, Repr

/-- The function itself, in a context. -/
def callStd (db : ExprDb) (c : ExprCtx × StdCall) : Except ExprExc StdResult :=
  match c.2 with
  | .execution => (executionFn db c.1).map .execution
  | .executions id root state fromTime toTime => (executionsFn db id root state fromTime toTime).map .executions
  | .task name => (taskFn db c.1 name).map .task
  | .tasks wfExId recursive state flat => (tasksFn db wfExId recursive state flat).map .tasks

/-- The arguments by their names, in the order of these, without the context. -/
def StdCall.args : StdCall → List (String × Arg)
  | .execution => []
  | .executions id root state fromTime toTime =>
    [("from_time", fromTime), ("id", id), ("root_execution_id", root), ("state", state), ("to_time", toTime)]
  | .task name => [("task_name", name)]
  | .tasks wfExId recursive state flat =>
    [("flat", flat), ("recursive", recursive), ("state", state), ("workflow_execution_id", wfExId)]

/-- `_build_cache_key` with `ignore_args='context'`. The name of the function is not part of the key. -/
def buildCacheKey (c : ExprCtx × StdCall) : Except ExprExc (List (String × Arg)) :=
  if c.2.args.all (·.2.hashable) then .ok c.2.args else .error .typeError

/-- The size of the cache of a transaction. -/
def txCacheSize : Nat := 1000

/-- The results of the decorated functions in one transaction. -/
def runCached (db : ExprDb) (calls : List (ExprCtx × StdCall)) : List (Except ExprExc StdResult) :=
  LruCache.run txCacheSize buildCacheKey (callStd db) [] calls

end Mistral
