import Mathlib.Logic.Function.Basic
import Mistral.Lib.ReadCommitted
import Mistral.Lib.System
import Mistral.Workflow.Commands

/-! Concurrent transactions that change the state of one sub-workflow execution (class `Workflow` of
    `mistral/engine/workflows.py`, `mistral/engine/workflow_handler.py`), statement by statement. -/

namespace Mistral

/-- The workflow execution, the changes of its state that went to the trace log, and the results that were registered for
    the parent task. -/
structure WorkflowRow where
  state : State := .idle
  changes : List (State × State) := []
  results : List State := []
  deriving DecidableEq, Repr

/-- What the tasks of the workflow lead `Workflow.check_and_complete` to. -/
inductive Verdict
  | cancel
  | succeed
  | fail
  deriving DecidableEq, Repr

/-- An operation on the workflow execution. `reopen` is `_recursive_rerun`, which comes from a sub-workflow too. -/
inductive WorkflowOp
  | start
  | checkAndComplete (verdict : Verdict)
  | stop (state : State)
  | forceFail
  | command (kind : StateCmd)
  | pause
  | resume
  | rerun
  | reopen
  deriving DecidableEq, Repr

/-! ### What an operation sets -/

section
variable (state : State)

/-- The state that an operation of a transaction sets, where the execution is in `state` as far as the transaction knows. -/
abbrev Sets := Option State

/-- `_succeed_workflow`. -/
def setsSucceed : Sets := some .success

/-- `_fail_workflow`. -/
def setsFail : Sets := if state.isPausedOrCompleted then none else some .error

/-- `_cancel_workflow`. -/
def setsCancel : Sets := if state.isCompleted then none else some .cancelled

/-- `Workflow.stop`. -/
def setsStop : State → Sets
  | .success => setsSucceed
  | .error => setsFail state
  | .cancelled => setsCancel state
  | _ => none

/-- `Workflow.pause`. -/
def setsPause : Sets := if state.isPaused then none else some .paused

/-- The end of `Workflow.check_and_complete`. -/
def setsComplete : Verdict → Sets
  | .cancel => setsCancel state
  | .succeed => setsSucceed
  | .fail => setsFail state

/-- A command of a workflow that is not over, `_process_commands`. -/
def setsCommand (kind : StateCmd) : Sets :=
  if state.isCompleted || state.isPaused then none
  else match kind with
    | .pause => setsPause state
    | _ => setsStop state kind.newState

def WorkflowOp.sets : WorkflowOp → Sets
  | start => some .running
  | checkAndComplete verdict => if state.isPausedOrCompleted then none else setsComplete state verdict
  | stop st => setsStop state st
  | forceFail => setsFail state
  | command kind => setsCommand state kind
  | pause => setsPause state
  | resume => if state.isPausedOrIdle then some .running else none
  | rerun => if state.isPaused then none else some .running
  | reopen => some .running

end

/-! ### Transactions -/

/-- The row, and the state that each transaction has read. -/
structure WorkflowTxs (τ : Type) where
  row : Cell τ WorkflowRow
  read : τ → Option State

/-- A transaction reads the row, at its begin or again, and executes its operations. `fits` tells whether an output that
    the operation stores is within the limit for the size of a field. -/
inductive WorkflowEvent (τ : Type)
  | load (t : τ)
  | run (t : τ) (op : WorkflowOp) (fits : Bool)
  | commit (t : τ)
  | rollback (t : τ)
  deriving DecidableEq, Repr

/-- What becomes of the output of a workflow that completes, which is stored after the state: it fits, or the error ends
    the transaction, or a handler catches the error and leaves a completed workflow as it is. -/
inductive Storing
  | fits
  | ends
  | caught
  deriving DecidableEq, Repr

/-- `check_and_complete` of the handlers and the handlers of tasks, which dispatch commands, catch the error. -/
def WorkflowOp.storing (op : WorkflowOp) (fits : Bool) : Storing :=
  if fits then .fits
  else match op with
    | checkAndComplete _ | command _ => .caught
    | _ => .ends

namespace WorkflowTxs
variable {τ : Type} [DecidableEq τ] (s : WorkflowTxs τ) (t : τ)

def setRead (state : Option State) : WorkflowTxs τ := { s with read := Function.update s.read t state }

/-- The row is read into the session. -/
def load : WorkflowTxs τ := s.setRead t (some (s.row.read t).state)

/-- The row after a change of its state. -/
def changed (row : WorkflowRow) (old new : State) : WorkflowRow :=
  { row with state := new, changes := row.changes ++ [(old, new)] }

/-- `_send_result_to_parent_workflow` of a completed workflow. -/
def sent (row : WorkflowRow) (new : State) : WorkflowRow :=
  { row with results := if new.isCompleted then row.results ++ [new] else row.results }

/-- The transaction is undone. -/
def rollback : WorkflowTxs τ := { s with row := s.row.rollback t }.setRead t none

/-- The output of a workflow that completes, and the result for the parent task. `_cancel_workflow` stores a message that
    was cut. -/
def finish (new : State) (storing : Storing) : WorkflowTxs τ :=
  match if new.isCompleted ∧ new ≠ .cancelled then storing else .fits with
  | .fits => { s with row := s.row.write t (sent (s.row.read t) new) }
  | .ends => s.rollback t
  | .caught => s

/-- `Workflow.set_state` from the state that the transaction has read, and the result. It raises if the transition is not
    valid, waits for a transaction that has written the row, and does nothing if the row is not in that state. -/
def setState (old new : State) (storing : Storing) : WorkflowTxs τ :=
  if old.isValidTransition new then
    if (s.row.blocker t).isSome then s
    else if (s.row.read t).state = old then
      ({ s with row := s.row.write t (changed (s.row.read t) old new) }.setRead t (some new)).finish t new storing
    else s
  else s

/-- What an operation sets is set. -/
def apply (state : State) (storing : Storing) : Sets → WorkflowTxs τ
  | none => s
  | some new => s.setState t state new storing

/-- An operation, on the state that the transaction has read. The objects of the session expire in the middle of
    `check_and_complete`. -/
def execute (op : WorkflowOp) (fits : Bool) : WorkflowTxs τ :=
  match s.read t, op with
  | none, _ => s
  | some state, .checkAndComplete verdict =>
    if state.isPausedOrCompleted then s
    else (s.load t).apply t (s.row.read t).state (op.storing fits) (setsComplete (s.row.read t).state verdict)
  | some state, op => s.apply t state (op.storing fits) (op.sets state)

/-- One event of the transactions. -/
def next : WorkflowEvent τ → WorkflowTxs τ
  | .load t => s.load t
  | .run t op fits => s.execute t op fits
  | .commit t => { s with row := s.row.commit t }.setRead t none
  | .rollback t => s.rollback t

end WorkflowTxs

/-- The transactions on a workflow execution that was just created. -/
def workflowTxs (τ : Type) [DecidableEq τ] : System (WorkflowTxs τ) (WorkflowEvent τ) where
  init s := s = { row := { committed := {} }, read := fun _ => none }
  step := WorkflowTxs.next

end Mistral
