import Mistral.Lib.Ends
import Mistral.Workflow.Commands

/-! The state that the engine works on: one workflow execution with its task executions, the messages
    and scheduled jobs that are on their way to it, and the trace of what happened.

Every function of the engine runs inside a transaction. Transactions of this layer run one after
another; what happens between the statements of competing transactions is the subject of
`Mistral/Lib/ReadCommitted.lean`. An exception that a handler catches leaves its earlier changes in
place, and one that nobody catches rolls the transaction back. -/

namespace Mistral

/-- A `start_task` request to the engine. -/
structure StartTask where
  taskEx : TaskId
  firstRun : Bool
  waiting : Bool
  triggeredBy : Option (List Trigger)
  rerun : Bool
  reset : Bool
  deriving DecidableEq, Repr

/-- A scheduled call of a task handler. -/
inductive Job
  | refreshTaskState (t : TaskId)
  | continueTask (t : TaskId)
  | completeTask (t : TaskId) (state : State) (stateInfo : Option String)
  | failTaskIfIncomplete (t : TaskId) (timeout : Nat)
  | onActionComplete (t : TaskId) (i : Nat)
  | onActionUpdate (t : TaskId) (i : Nat)
  deriving DecidableEq, Repr

/-- What the engine did. The first two are what it writes to the workflow trace log. `deferred t st`: a
    command to run a join finds the execution `t` of the join in state `st`, not `WAITING`. `retried t st wf`:
    the retry policy puts `t` into state `st` while the workflow is in state `wf`. `continued t st p wf`: the
    completion logic sends the commands that it selected for `t` to the dispatcher and sets the flag
    `processed` of `t`, which was `p`, while `t` is in state `st` and the workflow in state `wf`. `marked t`:
    the flag is set without that. `selected t cmds`: the on-clauses of `t` are evaluated and give these commands.
    `dispatched cmds`: the dispatcher gets these commands. -/
inductive Event
  | taskState (t : TaskId) (old new : State)
  | wfState (old new : State)
  | taskCreated (t : TaskId)
  | deferred (t : TaskId) (st : State)
  | actionScheduled (t : TaskId) (index : Nat)
  | retried (t : TaskId) (st wf : State)
  | continued (t : TaskId) (st : State) (processed : Bool) (wf : State)
  | marked (t : TaskId)
  | selected (t : TaskId) (cmds : List Cmd)
  | dispatched (cmds : List Cmd)
  | rerunRequested (t : TaskId)
  | resultSent (state : State)
  deriving DecidableEq, Repr

/-- An exception. The handlers of the engine catch the class `MistralException` of `mistral.exceptions`, most of them
    also the one of `mistral_lib.exceptions` (`ActionException` of an action that checks its parameters), which is no
    subclass of it, and none of them other exceptions. -/
inductive Exc
  | mistral (msg : String)
  | mistralLib (msg : String)
  | other (msg : String)
  deriving DecidableEq, Repr

/-- The text of an exception that a handler catches: with `lib`, the exceptions of `mistral_lib` are among them. -/
def Exc.caught? (lib : Bool) : Exc → Option String
  | mistral msg => some msg
  | mistralLib msg => if lib then some msg else none
  | other _ => none

theorem Exc.caught?_lib {lib : Bool} {err : Exc} (h : (err.caught? false).isSome) : (err.caught? lib).isSome := by
  cases err with
  | mistral msg => rfl
  | mistralLib msg => cases h
  | other msg => cases h

/-- A workflow execution, the requests in flight to it (`start_task`, and `start_workflow` for the
    sub-workflow of an item of a task), the scheduled jobs, the operations registered for after the
    transaction, and the trace. -/
structure Engine where
  wf : WorkflowEx
  tasks : List TaskEx := []
  messages : List StartTask := []
  subStarts : List (TaskId × Nat) := []
  subResults : List (TaskId × Nat) := []
  jobs : List Job := []
  refreshChecks : List TaskId := []
  completionChecks : Nat := 0
  trace : List Event := []
  deriving DecidableEq, Repr

/-- A computation inside a transaction of the engine. -/
abbrev M := EStateM Exc Engine

/-- A transaction: an exception that gets here undoes it. -/
def transaction (m : M Unit) (s : Engine) : Engine :=
  match m s with
  | .ok _ t => t
  | .error _ _ => s

/-! ### Elementary updates -/

namespace Engine
variable (s : Engine)

def emit (ev : Event) : Engine := { s with trace := s.trace ++ [ev] }

def setWf (wf : WorkflowEx) : Engine := { s with wf }

def setRow (t : TaskId) (f : TaskEx → TaskEx) : Engine := { s with tasks := s.tasks.modify t f }

/-- A new task execution. -/
def addRow (e : TaskEx) : Engine := { s with tasks := s.tasks ++ [e] }

/-- A `start_task` request is sent. -/
def addMessage (m : StartTask) : Engine := { s with messages := s.messages ++ [m] }

/-- A sub-workflow is asked for. -/
def addSubStart (t : TaskId) (i : Nat) : Engine := { s with subStarts := s.subStarts ++ [(t, i)] }

/-- A call is scheduled. -/
def addJob (j : Job) : Engine := { s with jobs := s.jobs ++ [j] }

/-- Joins to check after the transaction. -/
def addRefreshChecks (ts : List TaskId) : Engine := { s with refreshChecks := s.refreshChecks ++ ts }

/-- The workflow is to be checked after the transaction. -/
def addCompletionCheck : Engine := { s with completionChecks := s.completionChecks + 1 }

end Engine

/-- The row of a task execution; a missing row is `DBEntityNotFoundError`. -/
def taskEx (t : TaskId) : M TaskEx := do
  match (← get).tasks[t]? with
  | some e => return e
  | none => throw (.other "Task execution not found")

/-- The specification of a task execution, `wf_spec.get_task(task_ex.name)`. -/
def taskSpecOf (spec : WorkflowSpec) (t : TaskId) : M TaskSpec := do
  match spec.getTask (← taskEx t).name with
  | some ts => return ts
  | none => throw (.other "'NoneType' object has no attribute 'get_join'")

def setRow (t : TaskId) (f : TaskEx → TaskEx) : M Unit := modify (·.setRow t f)

def emit (ev : Event) : M Unit := modify (·.emit ev)

/-- A call of a handler is scheduled. -/
def schedule (j : Job) : M Unit := modify (·.addJob j)

/-- The value of a computation outside the state, or its exception. -/
def ofExcept {α : Type} : Except Exc α → M α
  | .ok a => return a
  | .error e => throw e

/-! ### What a step takes from outside

Expressions, action definitions and results come from outside the engine. A step takes their values
as an oracle: any answer, and any exception at any place that evaluates something, is possible. -/

/-- The values of expressions in one evaluation context. -/
structure Evaluator where
  truth : String → Bool := fun _ => false
  nat : String → Nat := fun _ => 0
  text : String → String := fun s => s

namespace Evaluator
variable (v : Evaluator)

/-- `expressions.evaluate(clause, ctx)` as a condition; an absent clause is false. -/
def clause (e : String) : Bool := e != "" && v.truth e

/-- A number of a policy. -/
def natExpr : NatExpr → Nat
  | .lit n => n
  | .expr e => v.nat e

/-- A flag of a policy. -/
def boolExpr : BoolExpr → Bool
  | .lit b => b
  | .expr e => v.clause e

/-- `expr.evaluate_recursively(params, ctx)`. -/
def params (ps : List (String × String)) : List (String × String) := ps.map fun (k, x) => (k, v.text x)

end Evaluator

/-- The policies of a task, in the order of `get_policy_factories`. -/
inductive PolicyKind
  | pauseBefore
  | waitBefore
  | waitAfter
  | failOn
  | retry
  | timeout
  | concurrency
  deriving DecidableEq, Repr

/-- The places where evaluating or storing something may raise a `MistralException`. -/
inductive Site
  | publish (t : TaskId)
  | policy (t : TaskId) (kind : PolicyKind)
  | transitions (t : TaskId)
  | input (t : TaskId)
  | schedule (t : TaskId) (index : Nat)
  | result (t : TaskId) (execution : Nat)
  | finalContext
  | wfOutput
  | storeOutput
  deriving DecidableEq, Repr

/-- What one step takes from outside: the expressions of a task in its own context and in its outbound
    context, the contexts that data flow computes, the number of items of a with-items task, whether
    sub-workflows are started over RPC, where an exception is raised, and where it is one of `mistral_lib`. -/
structure Oracle where
  task : TaskId → Evaluator := fun _ => {}
  outbound : TaskId → Evaluator := fun _ => {}
  inboundCtx : TaskId → Ctx := fun _ => []
  outboundCtx : TaskId → Ctx := fun _ => []
  startCtx : Ctx := []
  items : TaskId → Nat := fun _ => 0
  viaRpc : Bool := false
  raises : Site → Bool := fun _ => false
  fromLib : Site → Bool := fun _ => false

/-- The exception that is raised at `site`, if any is. -/
def Oracle.raised (o : Oracle) (site : Site) : Exc :=
  if o.fromLib site then .mistralLib "Can not evaluate expression" else .mistral "Can not evaluate expression"

/-- Something is evaluated here. -/
def evaluateAt (o : Oracle) (site : Site) : M Unit :=
  if o.raises site then throw (o.raised site) else pure ()

end Mistral
