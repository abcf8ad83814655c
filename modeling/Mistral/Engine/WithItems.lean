import Mathlib.Data.List.Sort
import Mistral.Db.Models

/-! The bookkeeping of a with-items task over its executions (class `WithItemsTask` of
    `mistral/engine/tasks.py`), and the result of a task (`mistral/workflow/data_flow.py`). -/

namespace Mistral
namespace TaskEx

/-- Apply `f` to the runtime context. -/
def mapContext (f : RuntimeContext → RuntimeContext) (e : TaskEx) : TaskEx :=
  { e with runtimeContext := f e.runtimeContext }

/-- `_get_with_items_context`, with the default that the class has. -/
def getWithItemsContext (e : TaskEx) : WithItemsCtx := e.runtimeContext.withItems.getD ⟨some 0, 0⟩

/-- `_get_with_items_count`. -/
def getWithItemsCount (e : TaskEx) : Nat := e.getWithItemsContext.count

/-- `_get_with_items_capacity`. -/
def getWithItemsCapacity (e : TaskEx) : Option Nat := e.getWithItemsContext.capacity

/-- `_get_concurrency`. -/
def getConcurrency (e : TaskEx) : Option Nat := e.runtimeContext.concurrency

/-- `not self._get_concurrency()`: the key is missing or 0. -/
def noConcurrency (e : TaskEx) : Bool := e.getConcurrency.getD 0 == 0

/-- An accepted execution is in this state. -/
def anyAccepted (e : TaskEx) (state : State) : Bool := e.executions.any fun x => x.accepted && x.state == state

/-- `is_with_items_completed`. -/
def isWithItemsCompleted (e : TaskEx) : Bool :=
  if e.anyAccepted .cancelled then true
  else
    let execs := e.executions.filter (·.accepted)
    let count := if e.getWithItemsCount = 0 then 1 else e.getWithItemsCount
    let fullCapacity := e.noConcurrency || e.getWithItemsCapacity == e.getConcurrency
    count == execs.length && fullCapacity

/-- `_get_final_state`. -/
def getFinalState (e : TaskEx) : State :=
  if e.anyAccepted .cancelled then .cancelled
  else if e.anyAccepted .error then .error
  else .success

/-! ### Which items run next -/

/-- `_get_accepted_executions`. -/
def getAcceptedExecutions (e : TaskEx) : List Execution :=
  e.executions.filter fun x => x.accepted && x.state.isCompleted

/-- `_get_unaccepted_executions`. -/
def getUnacceptedExecutions (e : TaskEx) : List Execution :=
  e.executions.filter fun x => !x.accepted && x.state.isCompleted

/-- `_get_next_start_index`. -/
def getNextStartIndex (e : TaskEx) : Nat :=
  (e.executions.filter fun x => x.accepted || x.state.isRunning || x.state.isIdle).length

/-- `sorted(set(..))` of the indexes. -/
def getIndexes (exs : List Execution) : List Nat := (exs.map (·.index)).dedup.insertionSort (· ≤ ·)

/-- The indexes of completed executions that were not accepted, less those that have an accepted one. -/
def candidates (e : TaskEx) : List Nat :=
  (getIndexes e.getUnacceptedExecutions).filter (· ∉ getIndexes e.getAcceptedExecutions)

/-- `range(start, stop)`. -/
def range (start stop : Nat) : List Nat := List.range' start (stop - start)

/-- `indices[:capacity]`. -/
def cut (indices : List Nat) : Option Nat → List Nat
  | none => indices
  | some capacity => indices.take capacity

/-- `_get_next_indexes`. -/
def getNextIndexes (e : TaskEx) : List Nat :=
  let count := e.getWithItemsCount
  let indices :=
    match e.candidates.getLast? with
    | some last => e.candidates ++ if last + 1 < count then range (last + 1) count else []
    | none => range e.getNextStartIndex count
  cut indices e.getWithItemsCapacity

/-- `_has_more_iterations`. -/
def hasMoreIterations (e : TaskEx) : Bool :=
  (e.executions.filter fun x => x.accepted || x.state == .running).length < e.getWithItemsCount

/-! ### Capacity -/

/-- The capacity is stored. -/
def setCapacity (capacity : Option Nat) (e : TaskEx) : TaskEx :=
  e.mapContext fun c => { c with withItems := some { e.getWithItemsContext with capacity } }

/-- `_increase_capacity`. -/
def increaseCapacity (e : TaskEx) : TaskEx :=
  match e.getConcurrency, e.getWithItemsCapacity with
  | some concurrency, some capacity => if capacity < concurrency then e.setCapacity (some (capacity + 1)) else e
  | _, _ => e

/-- `_decrease_capacity(1)`; `none` is the `RuntimeError` for a capacity that is used up. -/
def decreaseCapacity (e : TaskEx) : Option TaskEx :=
  match e.getWithItemsCapacity with
  | none => some (e.setCapacity none)
  | some capacity => if 1 ≤ capacity then some (e.setCapacity (some (capacity - 1))) else none

/-- `_is_new`. -/
def isNew (e : TaskEx) : Bool := e.runtimeContext.withItems.isNone

/-- `_prepare_runtime_context`. -/
def prepareRuntimeContext (actionCount : Nat) (e : TaskEx) : TaskEx :=
  if e.isNew then e.mapContext fun c => { c with withItems := some ⟨e.getConcurrency, actionCount⟩ } else e

/-! ### Executions -/

def setExecution (i : Nat) (f : Execution → Execution) (e : TaskEx) : TaskEx :=
  { e with executions := e.executions.modify i f }

def addExecution (x : Execution) (e : TaskEx) : TaskEx := { e with executions := e.executions ++ [x] }

/-- `Task.invalidate_result`. -/
def invalidateResult (e : TaskEx) : TaskEx :=
  { e with executions := e.executions.map fun x => { x with accepted := false } }

/-- `_reset_actions`. -/
def resetActions (resetFlag : Bool) (e : TaskEx) : TaskEx :=
  { e with
    executions := e.executions.map fun x =>
      if resetFlag || (x.accepted && x.state ∈ [State.error, State.cancelled]) then { x with accepted := false }
      else x }

/-- What `keep-result: false` does to the outputs. -/
def destroyResult (e : TaskEx) : TaskEx :=
  { e with executions := e.executions.map fun x => { x with output := none } }

/-- A single value, or a list of values. -/
inductive Result
  | one (value : Option String)
  | list (values : List (Option String))
  deriving DecidableEq, Repr

/-- `get_task_execution_result`. The sort by index is stable. -/
def getTaskExecutionResult (withItems : Bool) (e : TaskEx) : Result :=
  let execs := e.executions.insertionSort fun x y => x.index ≤ y.index
  let results := (execs.filter (·.accepted)).map (·.output)
  if withItems then .list results
  else
    match results with
    | [value] => .one value
    | results => .list results

end TaskEx
end Mistral
