import Mistral.Scheduler.DefaultScheduler
import Mistral.Workflow.InboundContext

/-! The refreshes of the joins of a running workflow (`_check_affected_tasks` and `_refresh_task_state` in
    `mistral/engine/task_handler.py`) as jobs of the default scheduler: engines that share the job store, each with the
    jobs that it scheduled in memory. -/

namespace Mistral

/-- A registered `_schedule_if_needed`: the engine that completed a task, and the execution of the join. -/
structure RefreshCheck (ε : Type) where
  engine : ε
  taskEx : TaskId
  deriving DecidableEq, Repr

/-- A workflow execution with its task executions, the checks that wait in the queues of the engines, and the job store.
    `checking t` is the join of the check whose transaction has scheduled a job, `keys` are the keys of the jobs,
    `inMemoryJobs` holds the field `captured_at` of the jobs in the memory of an engine, and `scheduledJob t` is the job
    of the thread `t` of a pool. -/
structure RefreshRun (ε τ ι : Type) where
  running : Bool := true
  tasks : List TaskEx := []
  checks : List (RefreshCheck ε) := []
  checking : τ → Option TaskId := fun _ => none
  jobs : JobStore τ ι := {}
  keys : List (ι × TaskId) := []
  inMemoryJobs : ε → ι → Option (Option Nat) := fun _ _ => none
  scheduledJob : τ → Option ι := fun _ => none

/-- What comes of the rest of a completion or a start after the inbound context of the task: its next tasks, or an
    exception. Where the forced failure after an exception raises one itself (an output of the workflow that is too large),
    it is that one. -/
abbrev TaskResult := Except Exc (List (String × Option TriggerEvent))

/-- `rollback t again`: the transaction of `t` is rolled back, and `again` says that the error is one of those that
    `retry_on_db_error` calls the queue again for. -/
inductive RefreshEvent (ε τ ι : Type)
  | complete (engine : ε) (i : TaskId) (state : State) (result : TaskResult)
  | scheduleIfNeeded (t : τ) (check : RefreshCheck ε) (job : ι)
  | rollback (t : τ) (again : Bool)
  | dispatch (t : τ) (job : ι)
  | poll (t : τ) (jobs : List ι)
  | run (t : τ) (result : TaskResult)
  | endWorkflow
  | tick (n : Nat)

def rowsOf (tasks : List TaskEx) : List (TaskId × TaskEx) := tasks.zipIdx.map fun (e, i) => (i, e)

/-- A command to run the task `name`: a join that has an execution waits again. -/
def runCommand (spec : WorkflowSpec) (tasks : List TaskEx) (name : String) : List TaskEx :=
  match spec.getTask name with
  | none => tasks
  | some u =>
    if u.isJoin then
      match tasks.findIdx? (·.name == name) with
      | some i => tasks.modify i fun e => { e with state := .waiting }
      | none => tasks ++ [{ name, state := .waiting }]
    else tasks ++ [{ name, state := .idle }]

/-- The task executions after the execution `i` is completed and its commands are run. -/
def completedTasks (spec : WorkflowSpec) (tasks : List TaskEx) (i : TaskId) (state : State)
    (next : List (String × Option TriggerEvent)) : List TaskEx :=
  next.foldl (fun tasks n => runCommand spec tasks n.1)
    (tasks.modify i fun e => { e with state, nextTasks := some next })

namespace RefreshRun
variable {ε τ ι : Type} [DecidableEq ε] [DecidableEq τ] [DecidableEq ι]
variable (spec : WorkflowSpec) (conf : SchedulerConf) (engineOf : τ → ε) (s : RefreshRun ε τ ι) (t : τ)

def setTask (i : TaskId) (state : State) : RefreshRun ε τ ι :=
  { s with tasks := s.tasks.modify i fun e => { e with state } }

/-- The commit of the completion of the execution `i` of the task `own`, with `_check_affected_tasks`. The next tasks are
    some of those that the clauses name. -/
def commitCompletion (engine : ε) (own : TaskSpec) (i : TaskId) (state : State)
    (next : List (String × Option TriggerEvent)) : RefreshRun ε τ ι :=
  let next := next.filter (·.1 ∈ spec.findOutboundTaskNames own)
  if s.running then
    let tasks := completedTasks spec s.tasks i state next
    let affected :=
      if (tasks[i]?.map (·.state.isCompleted)).getD false then
        findIndirectlyAffectedTaskExecutions spec (rowsOf tasks) own
      else []
    { s with tasks, checks := s.checks ++ affected.map (⟨engine, ·⟩) }
  else { s with tasks := s.tasks.modify i fun e => { e with state, nextTasks := some next } }

/-- `force_fail_task`. The workflow fails too. -/
def forceFailTask (i : TaskId) : RefreshRun ε τ ι := { s.setTask i .error with running := false }

/-- An exception in `continue_task`, or with `lib` in `complete_task`. One that the handler does not catch rolls the
    transaction back. -/
def failed (lib : Bool) (i : TaskId) (err : Exc) : RefreshRun ε τ ι :=
  if (err.caught? lib).isSome then s.forceFailTask i else s

/-- `_update_inbound_context` of the execution `i`, whose state is set, and what comes after it. -/
def resultOf (own : TaskSpec) (i : TaskId) (state : State) (result : TaskResult) : TaskResult := do
  let _ ← getUpstreamTaskExecutions spec (rowsOf (s.setTask i state).tasks) own []
  result

/-- `complete_task`. -/
def completeTask (engine : ε) (own : TaskSpec) (i : TaskId) (state : State) (result : TaskResult) :
    RefreshRun ε τ ι :=
  match s.resultOf spec own i state result with
  | .ok next => s.commitCompletion spec engine own i state next
  | .error err => s.failed true i err

/-- `continue_task` of a join. -/
def continueTask (own : TaskSpec) (i : TaskId) (result : TaskResult) : RefreshRun ε τ ι :=
  match s.resultOf spec own i .running result with
  | .ok _ => s.setTask i .running
  | .error err => s.failed false i err

/-- A task that runs is completed. -/
def complete (engine : ε) (i : TaskId) (state : State) (result : TaskResult) : RefreshRun ε τ ι :=
  match s.tasks[i]? with
  | none => s
  | some e =>
    match spec.getTask e.name with
    | none => s
    | some own =>
      if e.state.isCompleted = false ∧ e.state ≠ .waiting ∧ state.isCompleted then
        s.completeTask spec engine own i state result
      else s

/-- `has_scheduled_jobs` with the key of a join and `processing=False`. -/
def hasScheduledJobs (i : TaskId) : Bool :=
  s.keys.any fun (j, key) => key == i &&
    (s.inMemoryJobs (engineOf t) j == some none || ((s.jobs.rows j).read t).any (·.capturedAt == none))

/-- `_schedule_if_needed`. The identifier of a new job is fresh. -/
def scheduleIfNeeded (check : RefreshCheck ε) (job : ι) : RefreshRun ε τ ι :=
  if check ∈ s.checks ∧ check.engine = engineOf t ∧ s.jobs.workers t = .idle ∧ (s.jobs.log job).created = false then
    let s := { s with checks := s.checks.erase check }
    if s.hasScheduledJobs engineOf t check.taskEx then s
    else
      { s with
        jobs := s.jobs.step conf (.schedule t job 0)
        keys := (job, check.taskEx) :: s.keys
        inMemoryJobs := Function.update s.inMemoryJobs (engineOf t)
          (Function.update (s.inMemoryJobs (engineOf t)) job (some none))
        checking := Function.update s.checking t (some check.taskEx) }
  else s

/-- The end of `_process_memory_job`, when the thread has nothing more to do: the engine forgets the job. -/
def forget : RefreshRun ε τ ι :=
  match s.scheduledJob t, s.jobs.workers t with
  | some j, .idle =>
    { s with
      inMemoryJobs := Function.update s.inMemoryJobs (engineOf t)
        (Function.update (s.inMemoryJobs (engineOf t)) j none)
      scheduledJob := Function.update s.scheduledJob t none }
  | _, _ => s

/-- A transaction is rolled back. A job that it has scheduled stays in memory. -/
def rollback (again : Bool) : RefreshRun ε τ ι :=
  forget engineOf
    { s with
      jobs := s.jobs.step conf (.crash t)
      checking := Function.update s.checking t none
      checks := if again then s.checks ++ (s.checking t).toList.map (⟨engineOf t, ·⟩) else s.checks } t

/-- A thread of the pool takes the copy of a job whose time has come. -/
def dispatch (job : ι) : RefreshRun ε τ ι :=
  if (s.inMemoryJobs (engineOf t) job).isSome ∧ s.jobs.workers t = .idle then
    let jobs := s.jobs.step conf (.dispatch t job)
    if jobs.workers t = .idle then s else { s with jobs, scheduledJob := Function.update s.scheduledJob t (some job) }
  else s

/-- `_refresh_task_state`. An exception is logged by the scheduler, which then deletes the job. -/
def refreshTaskState (engine : ε) (i : TaskId) (result : TaskResult) : RefreshRun ε τ ι :=
  match s.tasks[i]? with
  | none => s
  | some e =>
    if e.state.isCompleted ∨ e.state = .running ∨ s.running = false then s
    else
      match spec.getTask e.name with
      | none => s
      | some own =>
        match getLogicalTaskState spec (rowsOf s.tasks) own e with
        | .error _ => s
        | .ok l =>
          match l.state with
          | .running => s.continueTask spec own i result
          | .error => s.completeTask spec engine own i .error result
          | _ => s

/-- The time at which the copy of a job was captured by a transaction. -/
def capturedAt? (w : Worker τ ι) (j : ι) : Option Nat :=
  match w with
  | .capturing _ captured => (captured.lookup j).map (·.recorded)
  | _ => none

/-- After a statement of `_capture_scheduled_job`, the copy in memory says what the row says. -/
def markCaptured : RefreshRun ε τ ι :=
  match s.scheduledJob t with
  | none => s
  | some j =>
    match capturedAt? (s.jobs.workers t) j with
    | none => s
    | some c =>
      { s with
        inMemoryJobs := Function.update s.inMemoryJobs (engineOf t)
          (Function.update (s.inMemoryJobs (engineOf t)) j (some (some c))) }

/-- The next statement of `t`. -/
def run (result : TaskResult) : RefreshRun ε τ ι :=
  let jobs := s.jobs.step conf (.run t)
  match s.jobs.workers t with
  | .scheduling => { s with jobs, checking := Function.update s.checking t none }
  | .invoking (j :: _) =>
    match s.keys.lookup j with
    | some i => refreshTaskState spec { s with jobs } (engineOf t) i result
    | none => { s with jobs }
  | _ => (markCaptured engineOf { s with jobs } t).forget engineOf t

/-- One event of the run. -/
def step : RefreshEvent ε τ ι → RefreshRun ε τ ι
  | .complete engine i state result => s.complete spec engine i state result
  | .scheduleIfNeeded t check job => s.scheduleIfNeeded conf engineOf t check job
  | .rollback t again => s.rollback conf engineOf t again
  | .dispatch t job => s.dispatch conf engineOf t job
  | .poll t jobs => { s with jobs := s.jobs.step conf (.poll t jobs) }
  | .run t result => s.run spec conf engineOf t result
  | .endWorkflow => { s with running := false }
  | .tick n => { s with jobs := s.jobs.step conf (.tick n) }

/-! ### What is to come -/

/-- A job is in the store, and no invocation has evaluated it. -/
def ToEvaluate (j : ι) : Prop := (s.jobs.rows j).committed.isSome ∧ (s.jobs.log j).invoked = []

/-- A refresh of the join execution `i` is still to come. -/
def RefreshComing (i : TaskId) : Prop :=
  (∃ check ∈ s.checks, check.taskEx = i) ∨ (∃ t, s.checking t = some i) ∨ ∃ j, (j, i) ∈ s.keys ∧ s.ToEvaluate j

/-- The join execution `i` waits, and `l` is what comes of its logical state. -/
def Waits (i : TaskId) (l : Except Exc LogicalState) : Prop :=
  ∃ e u, s.tasks[i]? = some e ∧ e.state = .waiting ∧ spec.getTask e.name = some u ∧ u.isJoin ∧
    getLogicalTaskState spec (rowsOf s.tasks) u e = l

/-- If the join execution `i` waits without a reason, a refresh is to come. -/
def WakesUp (i : TaskId) : Prop := ∀ l, s.Waits spec i (.ok l) → l.state ≠ .waiting → s.RefreshComing i

end RefreshRun

/-- The joins of a workflow. At the beginning there are executions of other tasks. -/
def refreshSystem (ε τ ι : Type) [DecidableEq ε] [DecidableEq τ] [DecidableEq ι] (spec : WorkflowSpec)
    (conf : SchedulerConf) (engineOf : τ → ε) : System (RefreshRun ε τ ι) (RefreshEvent ε τ ι) where
  init s := ∃ tasks, s = { tasks } ∧ ∀ e ∈ tasks, ∀ u, spec.getTask e.name = some u → u.isJoin = false
  step := RefreshRun.step spec conf engineOf

end Mistral
