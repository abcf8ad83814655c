import Mistral.Actions.AdhocAction
import Mistral.Workflow.States

/-! The checker of action heartbeats (`mistral/services/action_heartbeat_checker.py`), and what it does with an action
    (`on_action_complete` in `mistral/engine/action_handler.py`, `RegularAction.complete` in
    `mistral/engine/actions.py`). -/

namespace Mistral
namespace Heartbeats
open AdhocActions

/-- The output of an action execution: a converted result, or a message about an exception. -/
inductive Output (δ ε : Type)
  | result (r : Result δ)
  | failure (e : Exc ε)

/-- A row of `action_executions_v2`. -/
structure ActionExecution (δ ε : Type) where
  id : String
  name : String
  workflowNamespace : String := ""
  state : State := .running
  isSync : Bool := true
  lastHeartbeat : Nat
  taskExecutionId : Option String
  output : Option (Output δ ε) := none
  accepted : Bool := false

/-- A task execution, as the checker finds it. -/
structure TaskExecution where
  id : String
  workflowExecutionId : String

/-- What a task is told of its actions. -/
inductive Notice
  | actionCompleted (id : String)
  | forcedFailure (id : String)
  deriving DecidableEq, Repr

/-- The rows that the checker works on, the ids of the workflow executions, and what the tasks are told. -/
structure Db (δ ε : Type) where
  actionExecutions : List (ActionExecution δ ε)
  taskExecutions : List TaskExecution
  workflowExecutions : List String
  notices : List Notice := []

/-- The actions that exist, the expressions and the exceptions of theirs that are `MistralException`s, and what the
    handlers of the task raise. -/
structure World (ω χ δ γ ε : Type) where
  provider : Provider ω χ δ
  evaluation : Evaluation χ δ γ ε
  isMistralException : ε → Bool
  scheduleOnActionComplete : String → Except (Exc ε) Unit
  forceFailTask : String → Except (Exc ε) Unit
  noData : δ
  heartbeatNotReceived : δ

variable {ω χ δ γ ε : Type}

/-- `exc.MistralException`, for the exceptions that the completion of an action raises. -/
def World.catches (world : World ω χ δ γ ε) : Exc ε → Bool
  | .valueError _ => false
  | .invalidAction _ => true
  | .evaluation e => world.isMistralException e

/-- `post_process_result` of an ad-hoc action. The walk has ended after a round for each definition and one more. -/
def postProcessAdhoc (world : World ω χ δ γ ε) (d : Definition χ δ) (result : Result δ) : Except (Exc ε) (Result δ) :=
  match postProcessResult world.provider (world.provider.definitions.length + 1) world.evaluation d result with
  | some r => r
  | none => .error (.valueError "")

/-- `post_process_result`. Descriptors of other kinds leave the result as it is. -/
def postProcess (world : World ω χ δ γ ε) (result : Result δ) : Descriptor ω χ δ → Except (Exc ε) (Result δ)
  | .adhoc d => postProcessAdhoc world d result
  | .other _ => .ok result

/-- The state that a result gives. -/
def resultState (result : Result δ) : State :=
  if result.error.isNone && !result.cancel then .success else if result.cancel then .cancelled else .error

/-- `RegularAction.complete`. -/
def complete (world : World ω χ δ γ ε) (desc : Descriptor ω χ δ) (a : ActionExecution δ ε) (result : Result δ) :
    Except (Exc ε) (ActionExecution δ ε) :=
  if a.state.isCompleted then .error (.valueError ("Action " ++ a.id ++ " is already completed"))
  else
    match postProcess world result desc with
    | .error e => .error e
    | .ok converted => .ok { a with state := resultState result, output := some (.result converted), accepted := true }

/-- `Action.fail`. -/
def fail (a : ActionExecution δ ε) (e : Exc ε) : ActionExecution δ ε :=
  { a with state := .error, output := some (.failure e) }

namespace Db
variable (s : Db δ ε)

def save (a : ActionExecution δ ε) : Db δ ε :=
  { s with actionExecutions := s.actionExecutions.map fun b => if b.id = a.id then a else b }

/-- A task is told of its action. -/
def notify (n : Notice) : Db δ ε := { s with notices := s.notices ++ [n] }

/-- `on_action_complete`. Only the completion of the action is in the `try` block. -/
def onActionComplete (world : World ω χ δ γ ε) (a : ActionExecution δ ε) (result : Result δ) :
    Except (Exc ε) (Db δ ε) :=
  match world.provider.find a.name a.workflowNamespace with
  | none => .error (.invalidAction ("Failed to find action [action_name=" ++ a.name ++ "]"))
  | some desc =>
    match complete world desc a result with
    | .error e =>
      if world.catches e then
        (world.forceFailTask a.id).map fun _ => (s.save (fail a e)).notify (.forcedFailure a.id)
      else .error e
    | .ok a' =>
      (world.scheduleOnActionComplete a.id).map fun _ => (s.save a').notify (.actionCompleted a.id)

/-- The task and the workflow execution of an action are found. -/
def hasParents (a : ActionExecution δ ε) : Bool :=
  match s.taskExecutions.find? fun t => some t.id = a.taskExecutionId with
  | none => false
  | some t => t.workflowExecutionId ∈ s.workflowExecutions

/-- The body of the loop of `handle_expired_actions`. -/
def handleExpiredAction (world : World ω χ δ γ ε) (a : ActionExecution δ ε) : Except (Exc ε) (Db δ ε) :=
  if s.hasParents a then
    s.onActionComplete world a { data := world.noData, error := some world.heartbeatNotReceived }
  else .ok s

/-- `get_running_expired_sync_action_executions`. The query with the limit is not the one that it runs. -/
def getRunningExpiredSyncActionExecutions (expirationTime : Nat) : List (ActionExecution δ ε) :=
  s.actionExecutions.filter fun a => a.lastHeartbeat < expirationTime ∧ a.isSync ∧ a.state = .running

/-- The transaction of `handle_expired_actions`. -/
def handleExpiredActions (world : World ω χ δ γ ε) (expirationTime : Nat) : Except (Exc ε) (Db δ ε) :=
  (s.getRunningExpiredSyncActionExecutions expirationTime).foldlM (fun s a => s.handleExpiredAction world a) s

/-- An iteration of the checker: the transaction is rolled back if something raises. -/
def iterate (world : World ω χ δ γ ε) (expirationTime : Nat) : Db δ ε :=
  match s.handleExpiredActions world expirationTime with
  | .ok s' => s'
  | .error _ => s

end Db
end Heartbeats
end Mistral
