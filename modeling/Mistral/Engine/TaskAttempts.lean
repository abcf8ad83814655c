import Mathlib.Logic.Function.Basic
import Mistral.Lib.ReadCommitted
import Mistral.Lib.System
import Mistral.Workflow.States

/-! Concurrent attempts to complete one task (`set_state` and `complete` in `mistral/engine/tasks.py`, `skip_task` and
    `force_fail_task` in `mistral/engine/task_handler.py`, `rerun` in `mistral/engine/workflows.py`), statement by
    statement. A skip request and the last item of a task with items write more than the state, and do so before
    `set_state`. -/

namespace Mistral

/-- A state that an action, a timeout or a `wait-after` job brings. -/
abbrev EndState := { st : State // st.isCompleted ∧ st ≠ .skipped }

/-- A state that a task goes on in. -/
abbrev OpenState := { st : State // st.isCompleted = false }

/-- A dictionary column of a row. -/
abbrev DictColumn := List (String × String)

/-- What a transaction does with the task: `Task.complete`, a skip request, `force_fail_task` after an error, or a
    `set_state` that runs the task again. An action of a task with items brings the runtime context with the new
    capacity, and a skip request the environment to store (none if it is empty). -/
inductive TaskAttempt
  | complete (state : EndState) (stateInfo : Option String) (capacity : Option DictColumn := none)
  | skip (env : DictColumn := [])
  | fail (msg : String)
  | reopen (state : OpenState) (stateInfo : Option String)
  deriving DecidableEq

namespace TaskAttempt

/-- The state that the attempt asks for. -/
def state : TaskAttempt → State
  | complete st _ _ => st
  | skip _ => .skipped
  | fail _ => .error
  | reopen st _ => st

/-- The `state_info` that goes with it. -/
def stateInfo : TaskAttempt → Option String
  | complete _ info _ => info
  | skip _ => "Task was skipped."
  | fail msg => msg
  | reopen _ info => info

end TaskAttempt

/-- A completed task begins another active period when it runs again, and when its failure is skipped. -/
def State.opens (old new : State) : Bool := old.isCompleted && (!new.isCompleted || (old == .error && new == .skipped))

/-- The task execution. `passed` are the attempts that got through `set_state` in its active period, and run the
    completion logic. -/
structure TaskRow (τ : Type) where
  state : State
  stateInfo : Option String := none
  runtimeContext : DictColumn := []
  processed : Bool := false
  passed : List τ := []
  deriving DecidableEq, Repr

/-- The workflow execution: its state, the environment among its parameters, and the tasks of the commands in its
    backlog. -/
structure WorkflowColumns where
  state : State
  env : DictColumn := []
  backlog : List String := []
  deriving DecidableEq, Repr

namespace TaskRow
variable {τ : Type} [DecidableEq τ] (row : TaskRow τ)

/-- `set_state` has something to do. -/
def differs (st : State) (info : Option String) : Bool := row.state != st || row.stateInfo != info

def pass (t : τ) : TaskRow τ := { row with passed := if row.state.isCompleted then row.passed.insert t else row.passed }

def withState (t : τ) (st : State) (info : Option String) : TaskRow τ :=
  TaskRow.pass { row with state := st, stateInfo := info, passed := if row.state.opens st then [] else row.passed } t

/-- A rerun of the workflow has to mark the task as processed. -/
def isLeft : Bool := row.state.isCompleted && !row.processed

/-- What a rerun writes of a task that it has loaded as `loaded`: `cleanup_runtime_context`, if there is a command for
    the task, and the mark of `_continue_workflow`. -/
def cleanedUp (loaded : TaskRow τ) (command : Bool) : TaskRow τ :=
  { row with
    runtimeContext := if loaded.runtimeContext.isEmpty || !command then row.runtimeContext else []
    processed := row.processed || loaded.isLeft }

/-- A rerun leaves the columns of the task as they are. -/
def isClean (command : Bool) : Bool := (row.runtimeContext.isEmpty || !command) && !row.isLeft

end TaskRow

/-- The next statement of an attempt. -/
inductive AttemptStep
  | load
  | loadWorkflow
  | updateEnv
  | runWorkflow
  | cleanUp
  | pollBacklog
  | runBacklog
  | increaseCapacity
  | setState
  | runTask
  | policies
  | commands
  | failTask (msg : String)
  | failWorkflow
  | commit
  | ended
  deriving DecidableEq, Repr

/-- What an attempt has read, whether it got through `set_state`, and whether it dispatches the next commands. -/
structure AttemptTx (τ : Type) where
  step : AttemptStep := .load
  row : TaskRow τ := { state := .idle }
  wf : WorkflowColumns := { state := .running }
  passed : Bool := false
  dispatches : Bool := false
  deriving DecidableEq, Repr

/-- `skip_tasks` has a command for the task. -/
def AttemptTx.hasCommand {τ : Type} (tx : AttemptTx τ) : Bool := !tx.wf.state.isPausedOrCompleted

/-- The rows of the task and of its workflow under the transactions of the attempts, and those that dispatched
    commands. -/
structure Attempts (τ : Type) where
  task : Cell τ (TaskRow τ)
  wf : Cell τ WorkflowColumns
  dispatched : List τ := []
  txs : τ → AttemptTx τ

/-- The next statement of an attempt, a command that a skip request restores from the backlog and that pauses or
    completes the workflow, what a policy or an exception makes of an attempt, its rollback, or a commit of another
    transaction to the row of the workflow. -/
inductive AttemptEvent (τ : Type)
  | run (t : τ)
  | restored (t : τ) (state : State) (left : List String)
  | policy (t : τ) (state : State) (stateInfo : Option String)
  | raise (t : τ) (msg : String)
  | rollback (t : τ)
  | workflow (row : WorkflowColumns)
  deriving DecidableEq, Repr

namespace Attempts
variable {τ : Type} [DecidableEq τ] (kind : τ → TaskAttempt) (s : Attempts τ) (t : τ)

def setTx (tx : AttemptTx τ) : Attempts τ := { s with txs := Function.update s.txs t tx }

def goTo (step : AttemptStep) : Attempts τ := s.setTx t { s.txs t with step }

/-- `Task.set_state`, where the attempt goes on at `won` or at `lost`. -/
def setState (st : State) (info : Option String) (won lost : AttemptStep) : Attempts τ :=
  let tx := s.txs t
  if tx.row.differs st info then
    if (s.task.blocker t).isSome then s
    else if (s.task.read t).state = tx.row.state then
      let row := (s.task.read t).withState t st info
      { s with task := s.task.write t row }.setTx t { tx with row, step := won, passed := true }
    else s.goTo t lost
  -- Nothing is written, and the result is `True` all the same.
  else s.setTx t { tx with step := won, passed := true }

/-- The transaction commits; what it has dispatched is sent. -/
def commit : Attempts τ :=
  { s.goTo t .ended with
    task := s.task.commit t, wf := s.wf.commit t
    dispatched := if (s.txs t).dispatches then t :: s.dispatched else s.dispatched }

/-- The transaction is undone. -/
def rollback : Attempts τ := { s.goTo t .ended with task := s.task.rollback t, wf := s.wf.rollback t }

/-- `update_workflow_execution_env`, after the check for a paused workflow in `rerun_workflow`. -/
def updateEnv : Attempts τ :=
  let tx := s.txs t
  if tx.wf.state = .paused then s.goTo t .ended
  else match kind t with
  | .skip [] => s.goTo t .runWorkflow
  | .skip env =>
    if tx.wf.state ∉ [.idle, .paused, .error] then s.rollback t
    else if (s.wf.blocker t).isSome then s
    else { s with wf := s.wf.write t { s.wf.read t with env } }.setTx t
      { tx with wf := { tx.wf with env }, step := .runWorkflow }
  | _ => s

/-- `_recursive_rerun` of a skip request: the workflow runs again, and a command skips the task. -/
def runWorkflow : Attempts τ :=
  let tx := s.txs t
  if tx.wf.state.isValidTransition .running = false then s.rollback t
  else if (s.wf.blocker t).isSome then s
  else if (s.wf.read t).state = tx.wf.state then
    let wf := { s.wf.read t with state := .running }
    { s with wf := s.wf.write t wf }.setTx t { tx with wf, step := .cleanUp }
  else s.goTo t .cleanUp

/-- The skip command, `cleanup_runtime_context` and the marks of `_continue_workflow`. The session writes what changes
    the task that it has loaded. -/
def cleanUp : Attempts τ :=
  let tx := s.txs t
  if tx.row.isClean tx.hasCommand then s.goTo t .pollBacklog
  else if (s.task.blocker t).isSome then s
  else { s with task := s.task.write t ((s.task.read t).cleanedUp tx.row tx.hasCommand) }.setTx t
    { tx with row := tx.row.cleanedUp tx.row tx.hasCommand, step := .pollBacklog }

/-- `_poll_commands_from_backlog`. -/
def pollBacklog : Attempts τ :=
  let tx := s.txs t
  if tx.wf.backlog = [] then s.goTo t (if tx.hasCommand then .setState else .commit)
  else if (s.wf.blocker t).isSome then s
  else { s with wf := s.wf.write t { s.wf.read t with backlog := [] } }.setTx t
    { tx with wf := { tx.wf with backlog := [] }, step := if tx.hasCommand then .runBacklog else .commit }

/-- A restored command pauses or completes the workflow. The commands that are left, among them the skip command, go to
    the backlog of a paused workflow, and are dropped by a completed one. -/
def restored (st : State) (left : List String) : Attempts τ :=
  let tx := s.txs t
  if tx.step = .runBacklog ∧ st.isPausedOrCompleted ∧ tx.wf.state.isValidTransition st ∧
      (s.wf.read t).state = tx.wf.state ∧ s.wf.blocker t = none then
    let backlog := if st.isPaused then left else []
    { s with wf := s.wf.write t { s.wf.read t with state := st, backlog } }.goTo t .commit
  else s

/-- `_increase_capacity` of a task with items. -/
def increaseCapacity : Attempts τ :=
  let tx := s.txs t
  match kind t with
  | .complete _ _ (some runtimeContext) =>
    if (s.task.blocker t).isSome then s
    else { s with task := s.task.write t { s.task.read t with runtimeContext } }.setTx t
      { tx with row := { tx.row with runtimeContext }, step := .setState }
  | _ => s.goTo t .setState

/-- `continue_workflow` and the dispatcher. A delayed task is not done yet, and a paused workflow leaves the task
    unprocessed. -/
def commands : Attempts τ :=
  let tx := s.txs t
  if tx.row.state = .runningDelayed then s.goTo t .commit
  else if (s.task.blocker t).isSome then s
  else
    let row := { (s.task.read t).pass t with processed := (s.task.read t).processed || !tx.wf.state.isPaused }
    { s with task := s.task.write t row }.setTx t
      { tx with step := .commit, dispatches := tx.row.state.isCompleted && !tx.wf.state.isPausedOrCompleted }

/-- `force_fail_workflow`. -/
def failWorkflow : Attempts τ :=
  let tx := s.txs t
  if tx.wf.state.isPausedOrCompleted then s.goTo t .commit
  else if (s.wf.blocker t).isSome then s
  else if (s.wf.read t).state = tx.wf.state then
    { s with wf := s.wf.write t { s.wf.read t with state := .error } }.goTo t .commit
  else s.goTo t .commit

/-- The completed-check of `Task.complete`. -/
def load : Attempts τ :=
  let row := s.task.read t
  let step := match kind t with
    | .complete .. => if row.state.isCompleted then .ended else .loadWorkflow
    | _ => .loadWorkflow
  s.setTx t { s.txs t with row, step }

def loadWorkflow : Attempts τ :=
  let step := match kind t with
    | .skip _ => .updateEnv
    | .fail msg => .failTask msg
    | .complete .. => .increaseCapacity
    | .reopen .. => .setState
  s.setTx t { s.txs t with wf := s.wf.read t, step }

/-- The next statement of an attempt. -/
def execute : Attempts τ :=
  match (s.txs t).step with
  | .load => s.load kind t
  | .loadWorkflow => s.loadWorkflow kind t
  | .updateEnv => s.updateEnv kind t
  | .runWorkflow => s.runWorkflow t
  | .cleanUp => s.cleanUp t
  | .pollBacklog => s.pollBacklog t
  | .runBacklog => s.goTo t .setState
  | .increaseCapacity => s.increaseCapacity kind t
  | .setState =>
    match kind t with
    | .reopen st info => s.setState t st info .runTask .runTask
    | a => s.setState t a.state a.stateInfo .policies .commit
  | .runTask => s.goTo t .commit
  | .policies => s.goTo t .commands
  | .commands => s.commands t
  | .failTask msg => s.setState t .error msg .failWorkflow .failWorkflow
  | .failWorkflow => s.failWorkflow t
  | .commit => s.commit t
  | .ended => s

/-- A policy delays a completed task or fails a successful one. -/
def policy (st : State) (info : Option String) : Attempts τ :=
  let tx := s.txs t
  match kind t with
  | .complete .. =>
    if tx.step = .policies ∧ tx.row.state.isCompleted ∧
        (st = .runningDelayed ∨ st = .waiting ∨ st = .error ∧ tx.row.state = .success) then
      s.setState t st info .policies .policies
    else s
  | _ => s

/-- The completion logic, or a task that runs again, raises an error that the handler catches. -/
def raise (msg : String) : Attempts τ :=
  match kind t, (s.txs t).step with
  | .complete .., .policies | .complete .., .commands | .reopen .., .runTask => s.goTo t (.failTask msg)
  | _, _ => s

/-- One event of the attempts. -/
def step : AttemptEvent τ → Attempts τ
  | .run t => s.execute kind t
  | .restored t st left => s.restored t st left
  | .policy t st info => s.policy kind t st info
  | .raise t msg => s.raise kind t msg
  | .rollback t => if (s.txs t).step = .ended then s else s.rollback t
  | .workflow row =>
    if s.wf.pending = none ∧ s.wf.committed.state.isValidTransition row.state then { s with wf := { committed := row } }
    else s

/-- A task that is not completed, and no attempt has begun. -/
def start (task : OpenState) (runtimeContext : DictColumn) (wf : WorkflowColumns) : Attempts τ where
  task := { committed := { state := task, runtimeContext } }
  wf := { committed := wf }
  txs _ := {}

end Attempts

/-- Attempts to complete one task execution. -/
def attemptSystem {τ : Type} [DecidableEq τ] (kind : τ → TaskAttempt) : System (Attempts τ) (AttemptEvent τ) where
  init s := ∃ task runtimeContext wf, s = Attempts.start task runtimeContext wf
  step := Attempts.step kind

end Mistral
