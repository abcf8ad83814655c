import Mistral.Engine.TaskHandler
import Mistral.Lib.ReadCommitted
import Mistral.Lib.System

/-! Concurrent requests `on_action_complete` for one action execution (`mistral/engine/action_handler.py`,
    `RegularAction.complete` in `mistral/engine/actions.py`), statement by statement. -/

namespace Mistral

/-- The columns of an action execution that a result changes. -/
structure ActionRow where
  state : State
  output : Option String := none
  accepted : Bool := false
  deriving DecidableEq, Repr

def ActionResult.row (r : ActionResult) : ActionRow := { state := r.state, output := r.output, accepted := true }

/-- Requests for an action execution, with the result that each of them brings, and what is stored before: the action
    execution, the state of its task, and the capacity of a with-items task. `error` is what the post-processing of the
    result or the size of its output raises, and `completion` the state that a policy or an error of its completion gives
    the task instead of that of the result. -/
structure ResultRequests (τ : Type) where
  result : τ → ActionResult
  error : τ → Option String
  completion : τ → Option State
  withItems : Bool
  action : ActionRow
  task : State
  capacity : Nat

/-- The next statement of a request. From `update` on, it works with the state of the task that it read. -/
inductive ResultStep
  | readAction
  | readTask
  | update (task : State)
  | failTask (task : State)
  | notify (task : State)
  | commit
  | commitFailure
  | committed
  | rejected
  | rolledBack
  deriving DecidableEq, Repr

/-- `jobs`: the scheduled calls of `_on_action_complete`; `notified`: how often the task has got the result. -/
structure Results (τ : Type) where
  action : Cell τ ActionRow
  task : Cell τ State
  jobs : Nat := 0
  notified : Nat := 0
  capacity : Nat
  step : τ → ResultStep

/-- The next statement of a request, its rollback, or the job that a with-items task schedules. -/
inductive ResultEvent (τ : Type)
  | run (t : τ)
  | rollback (t : τ)
  | job
  deriving DecidableEq, Repr

/-- The request has found the action execution incomplete, and has not ended. -/
def ResultStep.inProgress : ResultStep → Bool
  | readTask | update _ | failTask _ | notify _ | commit | commitFailure => true
  | _ => false

namespace Results
variable {τ : Type} [DecidableEq τ] (c : ResultRequests τ) (s : Results τ) (t : τ)

def goTo (step : ResultStep) : Results τ := { s with step := Function.update s.step t step }

/-- The write of a result, which waits for the row. After an error, the action and the task fail. -/
def update (task : State) : Results τ :=
  if (s.action.blocker t).isSome then s
  else match c.error t with
    | none => { s.goTo t (.notify task) with action := s.action.write t (c.result t).row }
    | some msg =>
      { s.goTo t (.failTask task) with
        action := s.action.write t { s.action.read t with state := .error, output := some msg } }

/-- `Task.set_state` from the state that the request has read. -/
def setTask (task new : State) (step : ResultStep) : Results τ :=
  if (s.task.blocker t).isSome then s
  else if s.task.read t = task then { s.goTo t step with task := s.task.write t new }
  else s.goTo t step

/-- The end of a request, with `k` notifications of the task. -/
def commit (k : Nat) : Results τ :=
  { s.goTo t .committed with
    action := s.action.commit t, task := s.task.commit t
    jobs := if c.withItems then s.jobs + k else s.jobs
    notified := if c.withItems then s.notified else s.notified + k }

/-- The next statement of a request: the completed-check of `RegularAction.complete` and its exception, the write of the
    result, the notification of the task, and the commit. -/
def execute : Results τ :=
  match s.step t with
  | .readAction => s.goTo t (if (s.action.read t).state.isCompleted then .rejected else .readTask)
  | .readTask => s.goTo t (.update (s.task.read t))
  | .update task => s.update c t task
  | .failTask task => s.setTask t task .error .commitFailure
  | .notify task =>
    -- A with-items task is notified by a job that is stored with the commit.
    if c.withItems ∨ task.isCompleted then s.goTo t .commit
    else s.setTask t task ((c.completion t).getD (c.result t).state) .commit
  | .commit => s.commit c t 1
  | .commitFailure => s.commit c t 0
  | _ => s

/-- `WithItemsTask.on_action_complete`, called by a job. -/
def runJob : Results τ :=
  if s.jobs = 0 then s
  else { s with
    jobs := s.jobs - 1, notified := s.notified + 1
    capacity := if s.task.committed.isCompleted then s.capacity else s.capacity + 1 }

/-- One event of the requests. -/
def next : ResultEvent τ → Results τ
  | .run t => s.execute c t
  | .rollback t =>
    if (s.step t).inProgress then
      { s.goTo t .rolledBack with action := s.action.rollback t, task := s.task.rollback t }
    else s
  | .job => s.runJob

/-- The rows before the requests. -/
def start : Results τ where
  action := { committed := c.action }
  task := { committed := c.task }
  capacity := c.capacity
  step _ := .readAction

end Results

/-- Requests with results for one action execution. -/
def resultSystem {τ : Type} [DecidableEq τ] (c : ResultRequests τ) : System (Results τ) (ResultEvent τ) where
  init s := s = Results.start c
  step := Results.next c

end Mistral
