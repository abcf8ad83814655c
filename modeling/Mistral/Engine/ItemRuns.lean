import Mistral.Engine.RegularRuns

/-! One task that runs an action or a sub-workflow for each of its items (class `WithItemsTask` of
    `mistral/engine/tasks.py`). What the class inherits, and what the rest of the workflow does to the task, is that of a
    regular task. -/

namespace Mistral

/-- A call of `_get_next_indexes`: the task execution, and the items whose sub-workflow has been asked for and is not there
    yet. -/
structure ItemsCall where
  task : TaskEx
  inFlight : List Nat
  deriving DecidableEq, Repr

/-- `subStarts` has the items whose sub-workflow has been asked for, and `processed` the executions whose
    `on_action_complete` has run. -/
structure ItemsRun extends RegularRun where
  calls : List ItemsCall := []
  processed : List Nat := []
  deriving DecidableEq, Repr

namespace ItemsRun
variable (spec : RegularSpec) (o : Oracle) (s : ItemsRun)

/-- The part that is a regular task changes. -/
def withRun (r : RegularRun) : ItemsRun := { s with toRegularRun := r }

/-- `Task.complete`. -/
def complete (st : State) (info : Option String) : ItemsRun × Bool :=
  let (r, raised) := s.toRegularRun.complete spec o st info
  (s.withRun r, raised)

/-- What the handlers do after a `MistralException`. -/
def handling (what : String) (r : ItemsRun × Bool) : ItemsRun :=
  r.1.withRun (RegularRun.handling what (r.1.toRegularRun, r.2))

/-! ### Scheduling items -/

/-- `action.schedule(.., index=i)` and `_decrease_capacity(1)`. `_get_next_indexes` picks no more items than there is
    capacity for, so it is not used up. -/
def scheduleItem (i : Nat) : ItemsRun :=
  let r := if spec.subworkflow && o.viaRpc then { s.toRegularRun with subStarts := s.subStarts ++ [i] }
    else s.toRegularRun.mapTask (·.addExecution { index := i })
  s.withRun (r.mapTask fun e => e.decreaseCapacity.getD e)

/-- The loop of `_schedule_actions`. It does not catch the exceptions of `mistral_lib`. -/
def scheduleItems : List Nat → ItemsRun → ItemsRun × Bool
  | [], s => (s, false)
  | i :: is, s =>
    if o.raises (.schedule 0 i) then
      if o.fromLib (.schedule 0 i) then (s, true) else s.complete spec o .error "Failed to schedule"
    else scheduleItems is (s.scheduleItem spec o i)

/-- `_schedule_actions`. -/
def scheduleActions : ItemsRun × Bool :=
  if o.raises (.input 0) then (s, true)
  else
    let s := s.withRun (s.toRegularRun.mapTask (·.prepareRuntimeContext (o.items 0)))
    let s := { s with calls := ⟨s.task, s.subStarts⟩ :: s.calls }
    match s.task.getNextIndexes with
    | [] => s.complete spec o .success none
    | is => scheduleItems spec o is s

/-! ### Running -/

/-- `_before_task_start`. -/
def runBefore : ItemsRun × Bool :=
  let (r, raised) := s.toRegularRun.runBefore spec o
  (s.withRun r, raised)

/-- `_run_new`. -/
def runNew : ItemsRun × Bool :=
  if s.task.state = .idle then
    let (s, raised) := (s.withRun (s.toRegularRun.setState .running s.task.stateInfo none)).runBefore spec o
    if raised || s.task.state != .running then (s, raised) else s.scheduleActions spec o
  else (s, false)

/-- `_run_existing`. It is not called for a task in `SUCCESS`. -/
def runExisting (rerun reset : Bool) : ItemsRun × Bool :=
  let s := s.withRun (s.toRegularRun.setState .running none (some false))
  let (s, raised) := if rerun then s.runBefore spec o else (s, false)
  if raised || rerun && s.task.state != .running then (s, raised)
  else (s.withRun (s.toRegularRun.mapTask (·.resetActions reset))).scheduleActions spec o

/-- `run_task`. A task in `SUCCESS` raises an error that rolls the transaction back. -/
def runTask (m : StartTask) : ItemsRun :=
  handling "Failed to run task: "
    (if m.firstRun then s.runNew spec o
    else if s.task.state = .success then (s, false)
    else s.runExisting spec o m.rerun m.reset)

/-! ### Jobs -/

/-- The first item of the call that can not be scheduled fails with an exception of `mistral_lib`. -/
def escapes (c : ItemsCall) : Bool :=
  (c.task.getNextIndexes.find? fun i => o.raises (.schedule 0 i)).any fun i => o.fromLib (.schedule 0 i)

/-- `continue_task`. Its handler does not catch the exceptions of `mistral_lib`: they roll the transaction back, with its
    call of `_get_next_indexes`. -/
def continueTask : ItemsRun :=
  let r := (s.withRun (s.toRegularRun.setState .running none none)).runExisting spec o false false
  if !o.raises (.input 0) && r.1.calls.head?.any (escapes o) then { s with calls := r.1.calls }
  else handling "Failed to run task: " r

/-- `complete_task`. -/
def completeTask (st : State) (info : Option String) : ItemsRun := s.withRun (s.toRegularRun.completeTask spec o st info)

/-- `_refresh_task_state`, which finds the logical state `logical`. -/
def refreshTaskState (logical : State) : ItemsRun :=
  if s.task.state.isCompleted || s.task.state = .running then s
  else
    match logical with
    | .running => s.continueTask spec o
    | .error => s.completeTask spec o .error none
    | _ => s

/-- `WithItemsTask.on_action_complete`. -/
def onActionComplete : ItemsRun × Bool :=
  if s.task.state.isCompleted then (s, false)
  else
    let s := s.withRun (s.toRegularRun.mapTask (·.increaseCapacity))
    if s.task.isWithItemsCompleted then s.complete spec o s.task.getFinalState (withItemsInfo s.task.getFinalState)
    else if s.task.hasMoreIterations && !s.task.noConcurrency then s.scheduleActions spec o
    else (s, false)

/-- `on_action_update`: the task follows the execution. -/
def onActionUpdate (i : Nat) : ItemsRun :=
  match s.task.executions[i]? with
  | some x => s.withRun (s.toRegularRun.updateTask x.state)
  | none => s

/-- A scheduled job fires. -/
def run (j : Job) (logical : State) : ItemsRun :=
  match j with
  | .continueTask _ => s.continueTask spec o
  | .completeTask _ st info => s.completeTask spec o st info
  | .failTaskIfIncomplete _ timeout =>
    if s.task.state.isCompleted then s
    else s.completeTask spec o .error (some ("Task timed out [timeout(s)=" ++ toString timeout ++ "]."))
  | .refreshTaskState _ => s.refreshTaskState spec o logical
  | .onActionComplete _ i =>
    handling "Failed to handle action completion: " ({ s with processed := i :: s.processed }.onActionComplete spec o)
  | .onActionUpdate _ i => s.onActionUpdate i

/-! ### Executions -/

/-- `schedule_on_action_complete`. -/
def scheduleOnActionComplete (i : Nat) : ItemsRun := s.withRun (s.toRegularRun.addJob (.onActionComplete 0 i))

/-- The request `on_action_complete` for an action. A result that can not be stored forces the task to fail. -/
def actionResult (i : Nat) (result : ActionResult) : ItemsRun :=
  if !spec.subworkflow && s.incomplete i then
    if o.raises (.result 0 i) then s.withRun (s.toRegularRun.refuseResult i)
    else (s.withRun (s.accept i result)).scheduleOnActionComplete i
  else s

/-- The request `on_action_complete` that a sub-workflow sends. -/
def subworkflowResult (i : Nat) : ItemsRun :=
  if i ∈ s.subResults then
    (s.withRun { s.toRegularRun with subResults := s.subResults.erase i }).scheduleOnActionComplete i
  else s

/-- `on_action_update`, where it schedules the update of the task. -/
def executionUpdate (i : Nat) (paused : Bool) : ItemsRun :=
  let st : State := if paused then .paused else .running
  let notTask : st ≠ .waiting ∧ st ≠ .skipped := State.updated_notTask paused
  if s.task.executions[i]?.any (·.state.isValidTransition st) then
    s.withRun ((s.toRegularRun.mapTask (·.setExecution i fun x => { x with state := st, notTask })).addJob
      (.onActionUpdate 0 i))
  else s

/-- The request to start the sub-workflow of an item is delivered. -/
def subworkflowStarted (i : Nat) : ItemsRun :=
  if i ∈ s.subStarts then
    s.withRun { s.toRegularRun.mapTask (·.addExecution { index := i }) with subStarts := s.subStarts.erase i }
  else s

/-- One event of the task. -/
def step : RegularEvent × Oracle → ItemsRun
  | (.startTask m, o) =>
    if m ∈ s.starts then (s.withRun { s.toRegularRun with starts := s.starts.erase m }).runTask spec o m else s
  | (.runJob j logical, o) =>
    if j ∈ s.jobs then (s.withRun { s.toRegularRun with jobs := s.jobs.erase j }).run spec o j logical else s
  | (.actionResult i result, o) => s.actionResult spec o i result
  | (.executionUpdate i paused, _) => s.executionUpdate i paused
  | (.subworkflowStarted i, _) => s.subworkflowStarted i
  | (.subworkflowResult i, _) => s.subworkflowResult i
  -- Everything else is the same for every task.
  | l => s.withRun (s.toRegularRun.step spec l)

end ItemsRun

/-- The runs of a with-items task. -/
def itemsSystem (spec : RegularSpec) : System ItemsRun (RegularEvent × Oracle) where
  init s := ∃ name, s = { toRegularRun := .start name spec.join }
  step s := ItemsRun.step spec s

end Mistral
