import Mathlib.Data.List.Sort
import Mistral.Workflow.States

/-! The policy that removes old workflow executions (`mistral/services/expiration_policy.py`, and its queries in
    `mistral/db/v2/sqlalchemy/api.py`). -/

namespace Mistral
namespace ExpirationPolicy

/-- A row of `WorkflowExecution`; `parent` is the execution of the task that `task_execution_id` names. -/
structure Row where
  id : String
  state : State
  parent : Option String := none
  updatedAt : Nat
  deriving DecidableEq, Repr

/-- The options of the policy. A batch size of 0 is no limit, and a maximum of 0 is none. -/
structure Conf where
  batchSize : Nat := 0
  maxFinishedExecutions : Nat := 0
  ignoredStates : List State := []
  deriving Repr

/-- The rows in the order in which an unordered query returns them, and the ids that were deleted one after the other. -/
structure Store where
  rows : List Row
  deleted : List String := []
  deriving DecidableEq, Repr

/-! ### Queries -/

/-- `TERMINAL_STATES`. -/
def terminalStates : List State := [.success, .error, .cancelled]

section
variable (conf : Conf)

/-- `_get_completed_root_executions_query`. -/
def isCompletedRoot (r : Row) : Bool :=
  r.parent.isNone && terminalStates.contains r.state && !conf.ignoredStates.contains r.state

/-- `query.limit(limit)`, where a limit is given. -/
def limit (rows : List Row) : List Row := if conf.batchSize = 0 then rows else rows.take conf.batchSize

/-- `ORDER BY updated_at DESC`. -/
def byUpdatedAtDesc (rows : List Row) : List Row := rows.insertionSort fun a b => b.updatedAt ≤ a.updatedAt

/-- `get_expired_executions`, without the limit. -/
def expired (expirationTime : Nat) (s : Store) : List Row :=
  s.rows.filter fun r => isCompletedRoot conf r && r.updatedAt < expirationTime

/-- `get_superfluous_executions`, without the limit. -/
def superfluous (s : Store) : List Row :=
  if conf.maxFinishedExecutions = 0 then []
  else (byUpdatedAtDesc (s.rows.filter (isCompletedRoot conf))).drop conf.maxFinishedExecutions

end

/-! ### Deleting -/

/-- The row is in the tree of the execution `id`, below it. The number bounds the depth. -/
def isBelow (rows : List Row) (id : String) : Nat → Row → Bool
  | 0, _ => false
  | depth + 1, r =>
    match r.parent with
    | none => false
    | some p => p == id || (rows.find? (·.id == p)).any (isBelow rows id depth)

/-- `delete_workflow_execution`. The foreign keys delete everything below as well. -/
def Store.delete (s : Store) (id : String) : Store where
  rows := s.rows.filter fun r => r.id != id && !isBelow s.rows id s.rows.length r
  deleted := s.deleted ++ [id]

/-- What leaves the policy: `traceback.format_exc(e)` in its handler gets an exception where it takes a number. -/
inductive Exc
  | typeError
  deriving DecidableEq, Repr

section
variable (raises : String → Bool)

/-- `_delete`. The deletions in `raises` fail, and then the handler does. -/
def deleteAll : List Row → Store → Except Exc Store
  | [], s => .ok s
  | e :: es, s => if raises e.id then .error .typeError else deleteAll es (s.delete e.id)

/-- `_delete_until_depleted`. The transaction of a batch that fails is rolled back. The number bounds the rounds. -/
def deleteUntilDepleted (fetch : Store → List Row) : Nat → Store → Option (Except Exc Unit × Store)
  | 0, _ => none
  | fuel + 1, s =>
    match fetch s with
    | [] => some (.ok (), s)
    | execs =>
      match deleteAll raises execs s with
      | .error e => some (.error e, s)
      | .ok s => deleteUntilDepleted fetch fuel s

/-- `_delete_executions`. -/
def deleteExecutions (conf : Conf) (expirationTime fuel : Nat) (s : Store) : Option (Except Exc Unit × Store) :=
  match deleteUntilDepleted raises (fun s => limit conf (expired conf expirationTime s)) fuel s with
  | some (.ok (), s) => deleteUntilDepleted raises (fun s => limit conf (superfluous conf s)) fuel s
  | res => res

end

end ExpirationPolicy
end Mistral
