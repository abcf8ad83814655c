import Mathlib.Logic.Function.Basic
import Mistral.Lib.ReadCommitted
import Mistral.Lib.System

/-! Requests to start a workflow execution under one id (`post` in `mistral/api/controllers/v2/execution.py`,
    `DefaultEngine.start_workflow` in `mistral/engine/default_engine.py`), statement by statement. A message to the engine
    may be delivered again, and the engine repeats a start after an error of the database. -/

namespace Mistral

/-- What a request asks for: the project it comes from, and the workflow with its input and parameters. -/
structure StartRequest (α : Type) where
  project : String
  content : α
  deriving DecidableEq, Repr

/-- The row of a workflow execution: which start has created it, and for what. -/
structure StartedExecution (τ α : Type) where
  creator : τ
  request : StartRequest α
  deriving DecidableEq, Repr

/-- How far a start has come. After its end, its operations may still have to run. -/
inductive StartPhase (τ α : Type)
  | idle
  | looking (r : StartRequest α)
  | sent (r : StartRequest α)
  | starting (r : StartRequest α)
  | created (r : StartRequest α)
  | duplicate (r : StartRequest α)
  | returned (e : StartedExecution τ α) (operations : Bool)
  | failed
  deriving DecidableEq, Repr

/-- The row of the id, the starts, those that have created an execution, those whose operations have dispatched the first
    tasks, and how often the execution was deleted. -/
structure Starts (τ α : Type) where
  row : Cell τ (Option (StartedExecution τ α)) := { committed := none }
  phase : τ → StartPhase τ α := fun _ => .idle
  creations : List τ := []
  launched : List τ := []
  deletions : Nat := 0

/-- A request is posted to the API or delivered to the engine, its transaction goes on or fails, or the row is
    deleted. -/
inductive StartEvent (τ α : Type)
  | post (t : τ) (r : StartRequest α)
  | deliver (t : τ) (r : StartRequest α)
  | run (t : τ)
  | launch (t : τ)
  | retry (t : τ)
  | fail (t : τ)
  | delete
  deriving Repr

namespace Starts
variable {τ α : Type} [DecidableEq τ] (s : Starts τ α) (t : τ)

def goTo (p : StartPhase τ α) : Starts τ α := { s with phase := Function.update s.phase t p }

/-- `load_workflow_execution` and `get_workflow_execution`: a project sees its own executions. -/
def load (r : StartRequest α) : Option (StartedExecution τ α) :=
  (s.row.read t).filter fun e => e.request.project == r.project

/-- `create_workflow_execution`. The insertion waits for another one that is not committed. -/
def create (r : StartRequest α) : Starts τ α :=
  if (s.row.blocker t).isSome then s
  else if (s.row.read t).isSome then s.goTo t (.duplicate r)
  else { s.goTo t (.created r) with row := s.row.write t (some { creator := t, request := r }) }

/-- The end of the transaction. Its operations are started in a thread. -/
def commit (r : StartRequest α) : Starts τ α :=
  { s.goTo t (.returned { creator := t, request := r } true) with
    row := s.row.commit t
    creations := t :: s.creations }

/-- The next statement of a start. -/
def execute : Starts τ α :=
  match s.phase t with
  | .looking r =>
    match s.load t r with
    | some e => s.goTo t (.returned e false)
    | none => s.goTo t (.sent r)
  | .sent r => s.goTo t (.starting r)
  | .starting r => s.create t r
  | .created r => s.commit t r
  | .duplicate r =>
    match s.load t r with
    | some e => s.goTo t (.returned e false)
    | none => s.goTo t .failed
  | _ => s

/-- The operations of a start that has returned: they dispatch the first tasks. -/
def launch : Starts τ α :=
  match s.phase t with
  | .returned e true => { s.goTo t (.returned e false) with launched := t :: s.launched }
  | _ => s

/-- `retry_on_db_error` runs the start again. -/
def retry : Starts τ α :=
  match s.phase t with
  | .starting r | .created r | .duplicate r => { s.goTo t (.sent r) with row := s.row.rollback t }
  | _ => s

/-- A start raises, or its process dies. Operations that have not run are lost with the process. -/
def fail : Starts τ α :=
  match s.phase t with
  | .idle | .failed => s
  | .returned e _ => s.goTo t (.returned e false)
  | _ => { s.goTo t .failed with row := s.row.rollback t }

/-- `delete_workflow_execution`, in a transaction of its own. -/
def delete : Starts τ α :=
  if s.row.pending.isNone && s.row.committed.isSome then
    { s with row := { committed := none }, deletions := s.deletions + 1 }
  else s

/-- A new start of this number. -/
def begin (p : StartPhase τ α) : Starts τ α :=
  match s.phase t with
  | .idle => s.goTo t p
  | _ => s

/-- One event of the requests. -/
def step : StartEvent τ α → Starts τ α
  | .post t r => s.begin t (.looking r)
  | .deliver t r => s.begin t (.sent r)
  | .run t => s.execute t
  | .launch t => s.launch t
  | .retry t => s.retry t
  | .fail t => s.fail t
  | .delete => s.delete

end Starts

/-- Requests to start a workflow execution with one id. -/
def startSystem (τ α : Type) [DecidableEq τ] : System (Starts τ α) (StartEvent τ α) where
  init s := s = {}
  step := Starts.step

end Mistral
