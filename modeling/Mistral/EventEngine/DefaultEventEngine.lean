import Mathlib.Logic.Function.Basic
import Mistral.Lib.Dicts
import Mistral.Lib.System

/-! The event engine (`mistral/event_engine/default_event_engine.py`): the map of its triggers, its listeners, and the
    loop that starts the workflows of events. -/

namespace Mistral
namespace EventEngine

/-! ### Triggers and events -/

/-- The dictionary of a row of `event_triggers_v2`, with the namespace of its workflow. -/
structure EventTrigger where
  id : String
  name : String := ""
  projectId : String := ""
  scope : String := "private"
  exchange : String := ""
  topic : String := ""
  event : String
  trustId : Option String := none
  workflowId : String := ""
  workflowNamespace : String := ""
  workflowInput : Dict := []
  workflowParams : Option Dict := some []

/-- The exchange and the topic that a listener is for. -/
def EventTrigger.exchangeTopic (t : EventTrigger) : String × String := (t.exchange, t.topic)

/-- A notification. In its context a key may have the value `None`. -/
structure Event where
  eventType : Option String
  context : Option (List (String × Option String))
  payload : Dict := []
  publisher : String := ""
  timestamp : String := ""

/-- `event_triggers_map`, which has a key or not. -/
abbrev TriggersMap := String → Option (List EventTrigger)

namespace TriggersMap
variable (m : TriggersMap) (t : EventTrigger)

/-- What `create_event_trigger` does under the lock. -/
def create : TriggersMap :=
  let triggers := (m t.event).getD []
  if t.id ∈ triggers.map (·.id) then m else Function.update m t.event (some (triggers ++ [t]))

/-- `update_event_trigger`, if its assertion holds. The dictionary of a row has no namespace. -/
def update? : Option TriggersMap :=
  (m t.event).map fun triggers => Function.update m t.event <| some <| triggers.map fun u =>
    if t.id = u.id then { t with workflowNamespace := u.workflowNamespace } else u

/-- What `delete_event_trigger` does under the lock, if its assertion holds. -/
def delete? : Option TriggersMap :=
  (m t.event).map fun triggers =>
    match triggers.eraseP (·.id = t.id) with
    | [] => Function.update m t.event none
    | left => Function.update m t.event (some left)

end TriggersMap

/-! ### The loop -/

/-- An item of the file of event definitions. -/
structure EventDefinition where
  eventTypes : List String
  properties : Dict

/-- `DEFAULT_PROPERTIES` of a notification. -/
def DEFAULT_PROPERTIES : Dict :=
  [("service", .value "<% $.publisher %>"), ("project_id", .value "<% $.context.project_id %>"),
    ("user_id", .value "<% $.context.user_id %>"), ("timestamp", .value "<% $.timestamp %>")]

/-- The configuration of the event engine, with the test of event types against patterns of `fnmatch`. -/
structure EngineConf where
  definitions : List EventDefinition
  fnmatch : String → String → Bool
  authEnable : Bool

/-- What the loop calls in an iteration: the evaluation of expressions, and the creation of a security context. -/
structure Calls (Ctx : Type) where
  evaluateRecursively : Dict → Event → Except String Dict
  createContext : Option String → String → Except String Ctx

/-- A call of `start_workflow`. -/
structure Start where
  trigger : EventTrigger
  workflowParams : Dict

variable {Ctx : Type} (conf : EngineConf) (calls : Calls Ctx)

/-- `match_type`. -/
def EventDefinition.matchType (d : EventDefinition) (eventType : String) : Bool :=
  d.eventTypes.any (conf.fnmatch eventType)

/-- `NotificationsConverter.convert`. -/
def convert (eventType : String) (event : Event) : Except String Dict :=
  match conf.definitions.find? (·.matchType conf eventType) with
  | none => calls.evaluateRecursively DEFAULT_PROPERTIES event
  | some d => calls.evaluateRecursively d.properties event

/-- `context.get(key, default)`. -/
def getContext (context : List (String × Option String)) (key : String) (dflt : Option String) : Option String :=
  (context.lookup key).getD dflt

/-- The message of Python's `AttributeError` for `None`. -/
def noAttribute (name : String) : String := "'NoneType' object has no attribute '" ++ name ++ "'"

/-- The triggers to call, or none if the event is skipped. -/
def chooseTriggers (context : Option (List (String × Option String))) (triggers : List EventTrigger) :
    Except String (Option (List EventTrigger)) :=
  let anyPublic := triggers.any (·.scope = "public")
  match context with
  | none => if (!anyPublic && conf.authEnable) || !triggers.isEmpty then throw (noAttribute "get") else return some []
  | some context =>
    if !anyPublic && conf.authEnable &&
        getContext context "project_id" (some "") ∉ triggers.map fun t => some t.projectId then return none
    else return some <| triggers.filter fun t =>
      some t.projectId = getContext context "project_id" none ∨ t.scope = "public"

/-- `_start_workflow`: the calls that it makes, and whether it raises. What `start_workflow` raises is logged. -/
def startWorkflow (eventParams : Dict) : List EventTrigger → List Start × Bool
  | [] => ([], false)
  | t :: triggers =>
    match t.workflowParams, calls.createContext t.trustId t.projectId with
    | none, _ | some _, .error _ => ([], true)
    | some workflowParams, .ok _ =>
      let (starts, raised) := startWorkflow eventParams triggers
      (⟨t, ("event_params", .dict eventParams) :: workflowParams⟩ :: starts, raised)

/-- The type of the event and its triggers, if the type is in the map. -/
def TriggersMap.find? (m : TriggersMap) (event : Event) : Option (String × List EventTrigger) :=
  event.eventType.bind fun eventType => (m eventType).map (eventType, ·)

/-- An iteration of `_loop` under the lock: the calls that it makes, and whether it raises. -/
def handleEvent (m : TriggersMap) (event : Event) : List Start × Bool :=
  match m.find? event with
  | none => ([], false)
  | some (eventType, triggers) =>
    match chooseTriggers conf event.context triggers with
    | .error _ => ([], true)
    | .ok none => ([], false)
    | .ok (some triggersToCall) =>
      match convert conf calls eventType event with
      | .error _ => ([], true)
      | .ok eventParams => startWorkflow calls eventParams triggersToCall

/-- The queue, the map, whether the thread of the loop runs, and what it has started for the events that it has taken. -/
structure LoopState where
  queue : List Event := []
  triggers : TriggersMap := fun _ => none
  running : Bool := true
  handled : List (Event × List Start) := []

/-- A notification arrives, a trigger is created, updated or deleted, or the loop comes round. -/
inductive LoopEvent (Ctx : Type)
  | notify (event : Event)
  | create (t : EventTrigger)
  | update (t : EventTrigger)
  | delete (t : EventTrigger)
  | iterate (calls : Calls Ctx)

namespace LoopState
variable (s : LoopState)

/-- An iteration of `_loop`. Only `queue.Empty` is caught. -/
def iterate : LoopState :=
  if s.running then
    match s.queue with
    | [] => s
    | event :: queue =>
      let (starts, raised) := handleEvent conf calls s.triggers event
      { s with queue, running := !raised, handled := s.handled ++ [(event, starts)] }
  else s

/-- One event of the engine. -/
def step : LoopEvent Ctx → LoopState
  | .notify event => { s with queue := s.queue ++ [event] }
  | .create t => { s with triggers := s.triggers.create t }
  | .update t => { s with triggers := (s.triggers.update? t).getD s.triggers }
  | .delete t => { s with triggers := (s.triggers.delete? t).getD s.triggers }
  | .iterate calls => s.iterate conf calls

end LoopState

/-- The event engine, from its start. -/
def loopSystem (Ctx : Type) (conf : EngineConf) : System LoopState (LoopEvent Ctx) where
  init s := s = {}
  step := LoopState.step conf

end EventEngine
end Mistral
