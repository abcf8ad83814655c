import Mistral.Engine.TaskHandler
import Mistral.Lib.System

/-! One task that runs a single action or sub-workflow (class `RegularTask` of `mistral/engine/tasks.py`), with its
    policies, the jobs and messages that are on their way to it, and the attempts that it makes. One step is one
    transaction, and what the rest of the workflow does to the task comes at any time. -/

namespace Mistral

/-- The specification of the task: `policies` are those that `build_policies` finds. -/
structure RegularSpec where
  policies : List Policy
  join : Bool := false
  keepResult : Bool := true
  subworkflow : Bool := false
  deriving DecidableEq, Repr

/-- The task is task execution 0. `startedBy` has the attempt that started each of its executions, and `subStarts` has
    those that have asked for a sub-workflow. `begun` is the last attempt; it is in progress until the task completes.
    `endState` is the state that `wait-after` delays. A result has completed the task: `completedBy` has the attempt
    that the result is from, and the attempt in progress. -/
structure RegularRun where
  task : TaskEx
  starts : List StartTask := []
  jobs : List Job := []
  subStarts : List Nat := []
  subResults : List Nat := []
  startedBy : List Nat := []
  begun : Nat := 0
  inProgress : Bool := false
  endState : Option State := none
  completedBy : List (Option Nat × Option Nat) := []
  deriving DecidableEq, Repr

/-- A message, a job or a request that is about the task. -/
inductive RegularEvent
  | startTask (m : StartTask)
  | runJob (j : Job) (logical : State)
  | actionResult (i : Nat) (result : ActionResult)
  | executionUpdate (i : Nat) (paused : Bool)
  | subworkflowStarted (attempt : Nat)
  | subworkflowCompleted (i : Nat) (result : ActionResult)
  | subworkflowResult (i : Nat)
  | defer
  | scheduleIfNeeded
  | resume
  | rerun (reset : Bool)
  | skip
  | rerunInSubworkflow (i : Nat)
  deriving DecidableEq, Repr

namespace RegularRun
variable (spec : RegularSpec) (o : Oracle) (s : RegularRun)

def mapTask (f : TaskEx → TaskEx) : RegularRun := { s with task := f s.task }

def addJob (j : Job) : RegularRun := { s with jobs := s.jobs ++ [j] }

def addStart (m : StartTask) : RegularRun := { s with starts := s.starts ++ [m] }

/-- `Task.set_state`. -/
def setState (st : State) (info : Option String) (processed : Option Bool) : RegularRun :=
  { s with
    task := if s.task.differs st info then s.task.withState st info processed else s.task
    inProgress := s.inProgress && !st.isCompleted
    endState := none }

/-- The attempt in progress. -/
def current : Option Nat := if s.inProgress then some s.begun else none

/-! ### Policies -/

/-- `before_task_start` of a policy. -/
def beforeTaskStart : Policy → RegularRun
  | .pauseBefore expr =>
    if (o.task 0).boolExpr expr then s.setState .idle "Set by 'pause-before' policy" none else s
  | .waitBefore delay =>
    let n := (o.task 0).natExpr delay
    if n = 0 then s
    else if s.task.runtimeContext.waitBeforeSkip then s.setState .running none none
    else if s.task.state = .idle then s
    else
      ((s.mapTask (·.mapContext fun c => { c with waitBeforeSkip := true })).setState .runningDelayed
        (some ("Delayed by 'wait-before' policy [delay=" ++ toString n ++ "]")) none).addJob (.continueTask 0)
  | .timeout delay =>
    let n := (o.task 0).natExpr delay
    if n = 0 then s else s.addJob (.failTaskIfIncomplete 0 n)
  | .concurrency concurrency =>
    let n := (o.task 0).natExpr concurrency
    if n = 0 then s else s.mapTask (·.mapContext fun c => { c with concurrency := some n })
  | _ => s

/-- `RetryPolicy.after_task_complete`, where it decides for another attempt. -/
def startRetry (delay : NatExpr) : RegularRun :=
  let msg := "Delayed by 'retry' policy [delay=" ++ toString ((o.task 0).natExpr delay) ++ "]"
  if spec.join then (s.setState .waiting msg none).addJob (.refreshTaskState 0)
  else (s.setState .runningDelayed msg none).addJob (.continueTask 0)

/-- A policy that stops leaves `retry_no` in the row: the column does not notice that it is deleted from the context of
    the policy. -/
def retryAfterTaskComplete (r : RetrySpec) : RegularRun :=
  let count := (o.task 0).natExpr r.count
  if count = 0 then s
  else if !s.task.state.isCompleted || s.task.state.isCancelled then s
  else
    let retryNo := s.task.runtimeContext.retryNo.getD 0
    if r.stops (o.outbound 0) s.task.state retryNo count then s
    else
      (s.mapTask fun e => e.invalidateResult.mapContext fun c => { c with retryNo := some (retryNo + 1) }).startRetry
        spec o r.delay

/-- `after_task_complete` of a policy. -/
def afterTaskComplete : Policy → RegularRun
  | .waitAfter delay =>
    let n := (o.task 0).natExpr delay
    if n = 0 then s
    else if s.task.runtimeContext.waitAfterSkip then s
    else
      let delayed := ((s.mapTask (·.mapContext fun c => { c with waitAfterSkip := true })).setState .runningDelayed
        (some ("Delayed by 'wait-after' policy [delay=" ++ toString n ++ "]")) none).addJob
          (.completeTask 0 s.task.state s.task.stateInfo)
      { delayed with endState := some s.task.state }
  | .failOn expr =>
    if s.task.state = .success ∧ (o.task 0).boolExpr expr then s.setState .error "Failed by 'fail-on' policy" none else s
  | .retry r => s.retryAfterTaskComplete spec o r
  | _ => s

/-- The policies one after another, and whether one of them raises a `MistralException`. -/
def runPolicies (raises : Policy → Bool) (f : RegularRun → Policy → RegularRun) :
    List Policy → RegularRun → RegularRun × Bool
  | [], s => (s, false)
  | p :: ps, s => if raises p then (s, true) else runPolicies raises f ps (f s p)

/-- `_before_task_start`. The policy `fail-on` evaluates nothing. -/
def runBefore : RegularRun × Bool :=
  runPolicies (fun p => p.kind != .failOn && o.raises (.policy 0 p.kind)) (fun s p => s.beforeTaskStart o p)
    spec.policies s

/-- `_after_task_complete`. -/
def runAfter : RegularRun × Bool :=
  runPolicies (fun p => o.raises (.policy 0 p.kind)) (fun s p => s.afterTaskComplete spec o p) spec.policies s

/-! ### Completing and starting -/

/-- What the handlers do after a `MistralException`: it fails the task, with what was done before left in place. -/
def handling (what : String) (r : RegularRun × Bool) : RegularRun :=
  if r.2 then r.1.setState .error (some (what ++ "Can not evaluate expression")) none else r.1

/-- `Task.complete`, without the commands that follow. -/
def complete (st : State) (info : Option String) : RegularRun × Bool :=
  if s.task.state.isCompleted && !st.isSkipped then (s, false)
  else
    let s := s.setState st info none
    if o.raises (.publish 0) then (s, true)
    else
      let s := if spec.keepResult then s else s.mapTask (·.destroyResult)
      let (s, raised) := if st.isSkipped then (s, false) else s.runAfter spec o
      (s, raised || s.task.state != .runningDelayed && o.raises (.transitions 0))

/-- `_schedule_actions` begins an attempt. It does not catch the exceptions of `mistral_lib`. -/
def scheduleActions : RegularRun × Bool :=
  if o.raises (.input 0) then (s, true)
  else
    let s := { s with begun := s.begun + 1, inProgress := true }
    if o.raises (.schedule 0 0) then
      if o.fromLib (.schedule 0 0) then (s, true) else s.complete spec o .error "Failed to schedule"
    else if spec.subworkflow && o.viaRpc then ({ s with subStarts := s.subStarts ++ [s.begun] }, false)
    else ({ s.mapTask (·.addExecution { index := 0 }) with startedBy := s.startedBy ++ [s.begun] }, false)

/-- `_run_new`. -/
def runNew : RegularRun × Bool :=
  if s.task.state = .idle then
    let (s, raised) := (s.setState .running s.task.stateInfo none).runBefore spec o
    if raised || s.task.state != .running then (s, raised) else s.scheduleActions spec o
  else (s, false)

/-- `_run_existing`. It is not called for a task in `SUCCESS`. -/
def runExisting (rerun reset : Bool) : RegularRun × Bool :=
  let (s, raised) :=
    if rerun then (s.setState .running none (some false)).runBefore spec o
    else (s.setState .running none (some false), false)
  if raised || rerun && s.task.state != .running then (s, raised)
  else (s.mapTask (·.resetActions reset)).scheduleActions spec o

/-- `run_task`. A task in `SUCCESS` raises an error that rolls the transaction back. -/
def runTask (m : StartTask) : RegularRun :=
  handling "Failed to run task: "
    (if m.firstRun then s.runNew spec o
    else if s.task.state = .success then (s, false)
    else s.runExisting spec o m.rerun m.reset)

/-! ### Jobs -/

/-- The action can not be scheduled, and the exception is one of `mistral_lib`. -/
def schedulingEscapes : Bool := !o.raises (.input 0) && o.raises (.schedule 0 0) && o.fromLib (.schedule 0 0)

/-- `continue_task`. Its handler does not catch the exceptions of `mistral_lib`: they roll the transaction back. -/
def continueTask : RegularRun :=
  if schedulingEscapes o then s
  else handling "Failed to run task: " ((s.setState .running none none).runExisting spec o false false)

/-- `complete_task`. -/
def completeTask (st : State) (info : Option String) : RegularRun :=
  handling "Failed to complete task: " (s.complete spec o st info)

/-- `_refresh_task_state`, which finds the logical state `logical`. -/
def refreshTaskState (logical : State) : RegularRun :=
  if s.task.state.isCompleted || s.task.state = .running then s
  else
    match logical with
    | .running => s.continueTask spec o
    | .error => s.completeTask spec o .error none
    | _ => s

/-- A scheduled job fires. -/
def run (j : Job) (logical : State) : RegularRun :=
  match j with
  | .continueTask _ => s.continueTask spec o
  | .completeTask _ st info => s.completeTask spec o st info
  | .failTaskIfIncomplete _ timeout =>
    if s.task.state.isCompleted then s
    else s.completeTask spec o .error (some ("Task timed out [timeout(s)=" ++ toString timeout ++ "]."))
  | .refreshTaskState _ => s.refreshTaskState spec o logical
  | _ => s

/-! ### Results -/

/-- `RegularAction.complete`, and what a sub-workflow does when it completes. -/
def accept (i : Nat) (result : ActionResult) : RegularRun :=
  s.mapTask (·.setExecution i fun x =>
    { x with state := result.state, output := result.output, accepted := true, notTask := result.notTask })

/-- `RegularTask.on_action_complete`. -/
def onActionComplete (i : Nat) (x : Execution) : RegularRun :=
  let completes := x.state.isCompleted && !s.task.state.isCompleted
  let s := { s with completedBy := if completes then (s.startedBy[i]?, s.current) :: s.completedBy else s.completedBy }
  handling "Failed to handle action completion: " (s.complete spec o x.state (if x.state = .success then none else x.output))

/-- An execution that is completed takes no result. -/
def incomplete (i : Nat) : Bool := s.task.executions[i]?.any (!·.state.isCompleted)

/-- `Action.fail`. The result is not accepted. -/
def failAction (i : Nat) (msg : String) : RegularRun :=
  s.mapTask (·.setExecution i fun x => { x with state := .error, output := some msg, notTask := State.error_notTask })

/-- A result that can not be stored fails the action, and forces the task to fail. -/
def refuseResult (i : Nat) : RegularRun :=
  let msg := "Failed to complete action: " ++ s.task.name
  (s.failAction i msg).setState .error (some msg) none

/-- `on_action_complete`. -/
def actionResult (i : Nat) (result : ActionResult) : RegularRun :=
  if !spec.subworkflow && s.incomplete i then
    if o.raises (.result 0 i) then s.refuseResult i
    else
      let s := s.accept i result
      match s.task.executions[i]? with
      | some x => s.onActionComplete spec o i x
      | none => s
  else s

/-- A sub-workflow completes, and its result is on its way. -/
def subworkflowCompleted (i : Nat) (result : ActionResult) : RegularRun :=
  if spec.subworkflow && s.incomplete i then { s.accept i result with subResults := s.subResults ++ [i] } else s

/-- The request `on_action_complete` that a sub-workflow sends. -/
def subworkflowResult (i : Nat) : RegularRun :=
  if i ∈ s.subResults then
    let s := { s with subResults := s.subResults.erase i }
    match s.task.executions[i]? with
    | some x => s.onActionComplete spec o i x
    | none => s
  else s

/-! ### Everything else -/

/-- `Task.update`. -/
def updateTask (st : State) : RegularRun :=
  if s.task.state.isCompleted || !s.task.state.isValidTransition st then s
  else if st = .running ∧ s.task.executions.any (·.state.isPaused) then s
  else s.mapTask (·.withState st none none)

/-- `on_action_update`. -/
def executionUpdate (i : Nat) (paused : Bool) : RegularRun :=
  let st : State := if paused then .paused else .running
  let notTask : st ≠ .waiting ∧ st ≠ .skipped := State.updated_notTask paused
  if s.task.executions[i]?.any (·.state.isValidTransition st) then
    (s.mapTask (·.setExecution i fun x => { x with state := st, notTask })).updateTask st
  else s

/-- The request to start the sub-workflow of an attempt is delivered. -/
def subworkflowStarted (attempt : Nat) : RegularRun :=
  if attempt ∈ s.subStarts then
    { s.mapTask (·.addExecution { index := 0 }) with
      subStarts := s.subStarts.erase attempt, startedBy := s.startedBy ++ [attempt] }
  else s

/-- `rerun_workflow`. A task that waits is refreshed too. -/
def rerun (reset : Bool) : RegularRun :=
  let waiting := s.task.state.isWaiting
  let s := s.mapTask (·.mapContext fun _ => {})
  let s := if waiting then (s.setState .waiting "Task is waiting." none).addJob (.refreshTaskState 0) else s
  s.addStart { taskEx := 0, firstRun := false, waiting, triggeredBy := none, rerun := true, reset }

/-- `skip_task`. An exception rolls the transaction back. -/
def skip : RegularRun :=
  let (s', raised) := (s.mapTask (·.mapContext fun _ => {})).complete spec o .skipped "Task was skipped."
  if raised then s else s'

/-- `mark_task_running`, after a rerun inside of a sub-workflow of the task. If no attempt is in progress, the
    sub-workflow goes on as a new one. -/
def rerunInSubworkflow (i : Nat) : RegularRun :=
  if spec.subworkflow && s.task.executions[i]?.any (·.state.isValidTransition .running) then
    let s := if s.inProgress then s else
      { s with begun := s.begun + 1, inProgress := true, startedBy := s.startedBy.set i (s.begun + 1) }
    (s.mapTask (·.setExecution i fun x => { x with state := .running, accepted := false, notTask := State.running_notTask })).setState
      .running none (some false)
  else s

/-- One event of the task. -/
def step : RegularEvent × Oracle → RegularRun
  | (.startTask m, o) => if m ∈ s.starts then { s with starts := s.starts.erase m }.runTask spec o m else s
  | (.runJob j logical, o) => if j ∈ s.jobs then { s with jobs := s.jobs.erase j }.run spec o j logical else s
  | (.actionResult i result, o) => s.actionResult spec o i result
  | (.executionUpdate i paused, _) => s.executionUpdate i paused
  | (.subworkflowStarted attempt, _) => s.subworkflowStarted attempt
  | (.subworkflowCompleted i result, _) => s.subworkflowCompleted spec i result
  | (.subworkflowResult i, o) => s.subworkflowResult spec o i
  -- An inbound task of a join has completed.
  | (.defer, _) => if spec.join then s.setState .waiting "Task is waiting." none else s
  | (.scheduleIfNeeded, _) => if spec.join then s.addJob (.refreshTaskState 0) else s
  -- The workflow goes on with its idle tasks.
  | (.resume, _) =>
    if s.task.state = .idle then
      s.addStart { taskEx := 0, firstRun := false, waiting := false, triggeredBy := none, rerun := false, reset := true }
    else s
  | (.rerun reset, _) => s.rerun reset
  | (.skip, o) => s.skip spec o
  | (.rerunInSubworkflow i, _) => s.rerunInSubworkflow spec i

/-- The task has just been created: a join waits to be refreshed, and any other task is about to start. -/
def start (name : String) (join : Bool) : RegularRun :=
  if join then { task := { name, state := .waiting, stateInfo := "Task is waiting." } }
  else
    { task := { name, state := .idle }
      starts := [{ taskEx := 0, firstRun := true, waiting := false, triggeredBy := none, rerun := false, reset := false }] }

end RegularRun

/-- The runs of a regular task. -/
def regularSystem (spec : RegularSpec) : System RegularRun (RegularEvent × Oracle) where
  init s := ∃ name, s = RegularRun.start name spec.join
  step s := RegularRun.step spec s

end Mistral
