import Mistral.Workflow.Commands
import Mistral.Engine.State

/-! The controller of direct workflows (`mistral/workflow/direct_workflow.py`, `mistral/workflow/base.py`):
    which commands continue a workflow, start it or rerun one of its tasks. -/

namespace Mistral

/-- A command together with the clause that it comes from. -/
structure NextTask where
  name : String
  params : List (String × String)
  event : Clause
  deriving DecidableEq, Repr

section
variable (spec : WorkflowSpec) (v : Evaluator)

/-- The transitions of a clause whose condition holds. -/
def triggered (event : Clause) (clause : List Transition) : List NextTask :=
  (clause.filter fun tr => tr.cond == "" || v.truth tr.cond).map fun tr => ⟨tr.name, v.params tr.params, event⟩

/-- `_find_next_tasks` for a task in state `st`. A skipped task without a transition of its own goes the
    way of a successful one. -/
def findNextTasks (t : TaskSpec) (st : State) : List NextTask :=
  let onError := if st = .error then triggered v .onError (spec.getOnErrorClause t) else []
  let onSkip := if st = .skipped then triggered v .onSkip (spec.getOnSkipClause t) else []
  let skipIsEmpty := st = .skipped ∧ onError ++ onSkip = []
  let onSuccess := if st = .success ∨ skipIsEmpty then triggered v .onSuccess (spec.getOnSuccessClause t) else []
  let onComplete :=
    if st.isCompleted ∧ ¬st.isCancelledOrSkipped then triggered v .onComplete (spec.getOnCompleteClause t) else []
  onError ++ onSkip ++ onSuccess ++ onComplete

/-- `_get_join_unique_key`. -/
def joinUniqueKey (wfId name : String) : String := "join-task-" ++ wfId ++ "-" ++ name

/-- `_configure_if_join`. A `RunExistingTask` gets its key here, and has no use for the flag `wait`. -/
def configureIfJoin (wfId : String) : Cmd → Cmd
  | .runTask b wait key =>
    if b.taskSpec.isJoin then .runTask b true (joinUniqueKey wfId b.taskSpec.name) else .runTask b wait key
  | .runExistingTask b t reset key rerun =>
    .runExistingTask b t reset (if b.taskSpec.isJoin then joinUniqueKey wfId b.taskSpec.name else key) rerun
  | cmd => cmd

/-- The command for one entry of `findNextTasks`. -/
def nextCommand (wfId : String) (t : TaskId) (own : TaskSpec) (ctx : Ctx) (next : NextTask) : Except Exc Cmd := do
  let taskSpec ←
    match spec.getTask next.name, getCommandClass next.name with
    | some taskSpec, _ => pure taskSpec
    | none, some _ => pure own
    | none, none => throw (.mistral ("Task '" ++ next.name ++ "' not found."))
  let cmd := createCommand next.name taskSpec ctx (next.params.lookup "msg")
    (some [⟨t, some (.clause next.event)⟩]) (next.event == .onError)
  return configureIfJoin wfId cmd

/-- `_find_next_commands_for_task`. -/
def findNextCommandsForTask (o : Oracle) (wfId : String) (t : TaskId) (e : TaskEx) : Except Exc (List Cmd) := do
  if o.raises (.transitions t) then throw (o.raised (.transitions t))
  match spec.getTask e.name with
  | none => throw (.other "'NoneType' object has no attribute 'get_on_error'")
  | some own =>
    (findNextTasks spec (o.outbound t) own e.state).mapM (nextCommand spec wfId t own (o.outboundCtx t))

/-- `_find_start_commands`. -/
def findStartCommands (o : Oracle) : List Cmd :=
  spec.findStartTasks.map fun t => .runTask { taskSpec := t, ctx := o.startCtx } false none

/-- The command `RunExistingTask(wf_ex, wf_spec, task_ex, reset, rerun)`. -/
def runExistingTask (own : TaskSpec) (t : TaskId) (e : TaskEx) (reset rerun : Bool) : Cmd :=
  .runExistingTask { taskSpec := own, ctx := e.inContext } t reset e.uniqueKey rerun

/-- The task executions of an engine with their ids. -/
def Engine.rows (s : Engine) : List (TaskId × TaskEx) := s.tasks.zipIdx.map fun (e, i) => (i, e)

/-- The tasks that a resumed workflow goes on from. -/
def Engine.unprocessed (s : Engine) : List (TaskId × TaskEx) :=
  s.rows.filter fun (_, e) => e.state.isCompleted && !e.processed

/-- `_find_next_commands()` without a task: the idle tasks, and the next commands of every completed task
    that is not processed. -/
def findNextCommands (o : Oracle) (s : Engine) : Except Exc (List Cmd) := do
  let idle := (s.rows.filter fun (_, e) => e.state.isIdle).filterMap fun (t, e) =>
    (spec.getTask e.name).map fun own => runExistingTask own t e true false
  if s.tasks = [] then return findStartCommands spec o
  let next ← s.unprocessed.mapM fun (t, e) => findNextCommandsForTask spec o s.wf.id t e
  return idle ++ next.flatten

/-- `continue_workflow(task_ex)`. -/
def continueWorkflow (o : Oracle) (s : Engine) (t : TaskId) (e : TaskEx) : Except Exc (List Cmd) :=
  if s.wf.state.isCompleted then return [] else findNextCommandsForTask spec o s.wf.id t e

/-- `continue_workflow()`. -/
def continueWholeWorkflow (o : Oracle) (s : Engine) : Except Exc (List Cmd) :=
  if s.wf.state.isCompleted then return [] else findNextCommands spec o s

/-- `rerun_tasks` for one task. -/
def rerunTask (s : Engine) (own : TaskSpec) (t : TaskId) (e : TaskEx) (reset : Bool) : List Cmd :=
  if s.wf.state.isPausedOrCompleted then [] else [configureIfJoin s.wf.id (runExistingTask own t e reset true)]

/-- `skip_tasks` for one task. -/
def skipTask (s : Engine) (own : TaskSpec) (t : TaskId) (e : TaskEx) : List Cmd :=
  if s.wf.state.isPausedOrCompleted then []
  else [.skipTask { taskSpec := own, ctx := e.inContext } t e.uniqueKey]

/-! ### Joins affected by a task -/

/-- The last task execution of each name, as the dictionary `{t_ex.name: t_ex for t_ex in ..}` keeps it. -/
def lastNamed (rows : List (TaskId × TaskEx)) (name : String) : Option (TaskId × TaskEx) :=
  rows.reverse.find? fun (_, e) => e.name == name

/-- The loop of `find_indirectly_affected_task_executions`: `clauses` are the names still to visit. The
    search stops at the joins that have an execution. -/
def searchAffected (rows : List (TaskId × TaskEx)) : Nat → List String → List String → List TaskId
  | 0, _, _ => []
  | _ + 1, _, [] => []
  | fuel + 1, visited, name :: clauses =>
    if name ∈ visited then searchAffected rows fuel visited clauses
    else
      match spec.getTask name, lastNamed rows name with
      | none, _ => searchAffected rows fuel (name :: visited) clauses
      | some u, found =>
        match u.isJoin, found with
        | true, some (j, _) => j :: searchAffected rows fuel (name :: visited) clauses
        | _, _ =>
          searchAffected rows fuel (name :: visited)
            (clauses ++ (spec.findOutboundTaskNames u).dedup.filter (· ∉ clauses))

/-- `find_indirectly_affected_task_executions`. Every task is visited once, which bounds the rounds. -/
def findIndirectlyAffectedTaskExecutions (rows : List (TaskId × TaskEx)) (t : TaskSpec) : List TaskId :=
  let fuel := (t :: spec.tasks).foldl (fun n u => n + (spec.findOutboundTaskNames u).length) 1
  searchAffected spec rows fuel [t.name] (spec.findOutboundTaskNames t).dedup

end
end Mistral
