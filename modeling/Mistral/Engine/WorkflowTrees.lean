import Mathlib.Logic.Function.Basic
import Mistral.Lib.System
import Mistral.Workflow.States

/-! Pausing and resuming a tree of workflow executions (`pause_workflow` and `resume_workflow` in
    `mistral/engine/workflow_handler.py`, `Workflow.pause` and `Workflow.resume` in `mistral/engine/workflows.py`,
    `_on_action_update` in `mistral/engine/task_handler.py`). These functions call each other up and down the tree, all in
    one transaction: the calls that are going on are a stack of frames, and one step is one statement of the innermost
    call. -/

namespace Mistral

/-- Workflow executions linked by the tasks that started them: `subs` has the sub-workflows of a workflow in the order of
    the loops over its tasks. -/
structure WorkflowTree (ω : Type) where
  parent : ω → Option ω
  task : ω → Nat
  subs : ω → List ω
  height : ω → Nat
  mem_subs : ∀ {x c}, c ∈ subs x ↔ parent c = some x
  height_lt : ∀ {x c}, parent c = some x → height c < height x
  root : ∀ {x y}, parent x = none → parent y = none → x = y

/-- What a workflow completes with. -/
structure WorkflowEnd where
  state : State
  output : Option String
  completed : state.isCompleted
  deriving DecidableEq

/-- A command of an on-clause. One that fails raises an error when the dispatcher processes it: its task can not be
    created, or the output of the workflow can not be evaluated. -/
inductive NextCommand
  | runTask (waiting : Bool)
  | stop (e : WorkflowEnd)
  | pause
  | fails
  deriving DecidableEq

def NextCommand.isPause : NextCommand → Bool
  | pause => true
  | _ => false

/-- A command that the dispatcher processes. -/
inductive TreeCommand
  | next (c : NextCommand)
  | runExistingTask (k : Nat)
  deriving DecidableEq

/-- What is restored of a command from a backlog: the name of a command for an existing task is taken for the name of a
    task. -/
def TreeCommand.restored : TreeCommand → NextCommand
  | next c => c
  | runExistingTask _ => .runTask false

/-- A workflow of the tree. -/
structure WorkflowNode where
  state : State
  output : Option String := none
  backlog : List NextCommand := []
  deriving DecidableEq

/-- A task of a workflow of the tree. -/
structure TaskNode (ω : Type) where
  wf : ω
  state : State
  processed : Bool := true
  deriving DecidableEq

/-- The commands that start a workflow, those that a completed task selects, and what `check_and_complete` makes of a
    workflow with these tasks. There are none if the evaluation of an expression raises an error. -/
structure TreeOracle (ω : Type) where
  first : ω → Option (List NextCommand)
  next : Nat → State → Option (List NextCommand)
  final : List (TaskNode ω) → Option WorkflowEnd

/-- A call that is going on. `pauseSubs` and `resumeSubs` are the loops of the handlers over the sub-workflows, `pause`
    and `resume` are the methods of `Workflow`, `commands` is the dispatcher, `update` is `_on_action_update` of a
    sub-workflow, and `handler` is its `try` statement. -/
inductive Frame (ω : Type)
  | pauseSubs (x : ω) (todo : List ω)
  | pause (x : ω)
  | resumeSubs (x : ω) (todo : List ω)
  | resume (x : ω)
  | commands (x : ω) (cmds : List TreeCommand)
  | update (x : ω)
  | handler (p : ω) (k : Nat)
  deriving DecidableEq

/-- The request to the engine. -/
inductive TreeCall (ω : Type)
  | pause (w : ω)
  | resume (w : ω)
  deriving DecidableEq

/-- `continued` has the workflows that `_continue_workflow` has run for, `starts` the tasks that a `start_task` request
    was sent for, and `before` and `tasksBefore` are what the request found. -/
structure TreeRun (ω : Type) where
  call : TreeCall ω
  before : ω → WorkflowNode
  tasksBefore : List (TaskNode ω)
  wf : ω → WorkflowNode
  tasks : List (TaskNode ω)
  stack : List (Frame ω)
  raised : Bool := false
  continued : List ω := []
  starts : List Nat := []

namespace TreeRun
variable {ω : Type} [DecidableEq ω] (tree : WorkflowTree ω) (o : TreeOracle ω) (s : TreeRun ω)

def state (x : ω) : State := (s.wf x).state

/-- A call: its frame is on top of the stack. -/
def push (f : Frame ω) : TreeRun ω := { s with stack := f :: s.stack }

def setWf (x : ω) (n : WorkflowNode) : TreeRun ω := { s with wf := Function.update s.wf x n }

/-- An invalid transition is a `WorkflowException`, and errors of expressions are no others to a handler. -/
def raise : TreeRun ω := { s with raised := true }

/-- Some task of the workflow is paused. -/
def anyPaused (x : ω) : Bool := s.tasks.any fun e => decide (e.wf = x) && e.state.isPaused

/-- The task of the sub-workflow `x` can take over its state. It can not run while another one of its executions is
    paused. -/
def canUpdate (x : ω) (e : TaskNode ω) : Bool :=
  !e.state.isCompleted && e.state.isValidTransition (s.state x) &&
    !(s.state x == .running && (tree.subs e.wf).any fun y => decide (tree.task y = tree.task x) && (s.state y).isPaused)

/-- `Task.update` for the task of the sub-workflow `x`. -/
def updateTask (x : ω) : TreeRun ω :=
  { s with tasks := s.tasks.modify (tree.task x) fun e =>
      if s.canUpdate tree x e then { e with state := s.state x } else e }

/-- `force_fail_task`, and `force_fail_workflow` for the workflow `p` of the task. -/
def forceFail (p : ω) (k : Nat) : TreeRun ω :=
  let s := { s with tasks := s.tasks.modify k fun e => { e with state := .error } }
  if (s.state p).isPausedOrCompleted then s
  else s.setWf p { s.wf p with state := .error, output := some "Failed to handle action update" }

/-! ### `_continue_workflow` -/

/-- The tasks of a workflow, in the order of their creation. -/
def tasksOf (x : ω) : List Nat := (List.range s.tasks.length).filter fun k => s.tasks[k]?.any (·.wf = x)

/-- One command for each idle task. -/
def idleCommands (x : ω) : List TreeCommand :=
  ((s.tasksOf x).filter fun k => s.tasks[k]?.any (·.state.isIdle)).map .runExistingTask

/-- The commands of the completed tasks that are not processed yet. -/
def nextCommands (x : ω) : Option (List NextCommand) :=
  List.flatten <$> (s.tasksOf x).mapM fun k =>
    match s.tasks[k]? with
    | some e => if e.state.isCompleted && !e.processed then o.next k e.state else some []
    | none => some []

/-- `continue_workflow`, without the commands that pause the workflow. -/
def continueCommands (x : ω) : Option (List TreeCommand) :=
  if s.tasksOf x = [] then (o.first x).map fun cmds => (cmds.filter (!·.isPause)).map .next
  else (s.nextCommands o x).map fun cmds => s.idleCommands x ++ (cmds.filter (!·.isPause)).map .next

/-- The loop of `_continue_workflow` that sets the flag `processed`. -/
def processTasks (x : ω) : TreeRun ω :=
  { s with tasks := s.tasks.map fun e =>
      if e.wf = x ∧ e.state.isCompleted then { e with processed := true } else e }

/-- The end of `check_and_complete`, where all tasks of the workflow are completed. -/
def complete (x : ω) : TreeRun ω :=
  match o.final (s.tasks.filter (·.wf = x)) with
  | some e => s.setWf x { s.wf x with state := e.state, output := e.output }
  | none => s.raise

/-- `_continue_workflow`. -/
def continueWorkflow (x : ω) (cmds : List TreeCommand) : TreeRun ω :=
  let cmds := (s.wf x).backlog.map .next ++ cmds
  let s := { s.processTasks x with continued := x :: s.continued }
  if cmds = [] then
    if (s.tasks.filter (·.wf = x)).all (·.state.isCompleted) then s.complete o x else s
  else (s.setWf x { s.wf x with backlog := [] }).push (.commands x cmds)

/-- `Workflow.resume` of a workflow that can be resumed. -/
def resume (x : ω) : TreeRun ω :=
  let s := s.setWf x { s.wf x with state := .running }
  match s.continueCommands o x with
  | some cmds => (s.push (.update x)).continueWorkflow o x cmds
  | none => s.raise

/-- The dispatcher processes a command. -/
def dispatch (x : ω) : TreeCommand → TreeRun ω
  | .next (.runTask waiting) =>
    { s with
      tasks := s.tasks ++ [{ wf := x, state := if waiting then .waiting else .idle, processed := false }]
      starts := s.tasks.length :: s.starts }
  | .runExistingTask k => { s with starts := k :: s.starts }
  | .next (.stop e) => s.setWf x { s.wf x with state := e.state, output := e.output }
  | .next .pause => s.push (.pauseSubs x (tree.subs x))
  | .next .fails => s.raise

/-! ### One statement -/

/-- The next statement of a call, with the calls around it on the stack. -/
def execute : Frame ω → TreeRun ω
  | .pauseSubs x [] => s.push (.pause x)
  | .pauseSubs x (c :: todo) =>
    let s := s.push (.pauseSubs x todo)
    if (s.state c).isCompleted then s else s.push (.pauseSubs c (tree.subs c))
  | .pause x =>
    if (s.state x).isPaused then s
    else if (s.state x).isValidTransition .paused then
      (s.setWf x { s.wf x with state := .paused }).push (.update x)
    else s.raise
  | .resumeSubs x [] => s.push (.resume x)
  | .resumeSubs x (c :: todo) =>
    let s := s.push (.resumeSubs x todo)
    if (s.state c).isPausedOrIdle then s.push (.resumeSubs c (tree.subs c)) else s
  | .resume x =>
    if (s.state x).isValidTransition .running then s.resume o x else s.raise
  | .commands _ [] => s
  | .commands x (c :: cmds) =>
    if (s.state x).isCompleted then s
    else
      let s := s.push (.commands x cmds)
      if (s.state x).isPaused then s.setWf x { s.wf x with backlog := (s.wf x).backlog ++ [c.restored] }
      else s.dispatch tree x c
  | .update x =>
    match tree.parent x with
    | none => s
    | some p =>
      let s := s.updateTask tree x
      if (s.state x).isPaused then (s.push (.handler p (tree.task x))).push (.pauseSubs p (tree.subs p))
      else if (s.state x).isRunning && !s.anyPaused p && (s.state p).isPausedOrIdle then
        (s.push (.handler p (tree.task x))).push (.resumeSubs p (tree.subs p))
      else s
  | .handler _ _ => s

/-- An exception leaves a call, and a handler catches it. -/
def unwind : Frame ω → TreeRun ω
  | .handler p k => { s with raised := false }.forceFail p k
  | _ => s

/-- The next step of the call on top of the stack. -/
def tick : TreeRun ω :=
  match s.stack with
  | [] => s
  | f :: stack =>
    let s := { s with stack }
    if s.raised then s.unwind f else s.execute tree o f

/-- A request begins. -/
def start (call : TreeCall ω) (wf : ω → WorkflowNode) (tasks : List (TaskNode ω)) : TreeRun ω where
  call := call
  before := wf
  tasksBefore := tasks
  wf := wf
  tasks := tasks
  stack := match call with
    | .pause w => [.pauseSubs w (tree.subs w)]
    | .resume w => [.resumeSubs w (tree.subs w)]

end TreeRun

/-- A workflow execution that is stored has begun. -/
def State.isStored (st : State) : Bool := st == .running || st == .paused || st.isCompleted

/-- A request to pause a running workflow, or to resume a paused one. -/
def TreeCall.Valid {ω : Type} (wf : ω → WorkflowNode) : TreeCall ω → Prop
  | .pause w => (wf w).state = .running
  | .resume w => (wf w).state = .paused

/-- The runs of a request on a tree whose workflows and tasks are in any states. -/
def treeSystem {ω : Type} [DecidableEq ω] (tree : WorkflowTree ω) (o : TreeOracle ω) : System (TreeRun ω) Unit where
  init s := ∃ (call : TreeCall ω) (wf : ω → WorkflowNode) (tasks : List (TaskNode ω)), s = TreeRun.start tree call wf tasks ∧
    call.Valid wf ∧ (∀ x, (wf x).state.isStored) ∧
    ∀ x p, tree.parent x = some p → tasks[tree.task x]?.map TaskNode.wf = some p
  step s _ := s.tick tree o

end Mistral
