import Mistral.Engine.State
import Mistral.Lib.Lists

/-! What is published about tasks: the events that the transitions of a task are mapped to
    (`mistral/notifiers/notification_events.py`), and the publishers that they are meant for. -/

namespace Mistral.Notifiers

/-! ### Events -/

/-- The events that subscribers are told of. -/
inductive TaskEvent
  | launched
  | succeeded
  | failed
  | cancelled
  | paused
  | resumed
  | rerun
  | skipped
  deriving DecidableEq, Repr

/-- The name of the event. -/
def TaskEvent.name : TaskEvent → String
  | launched => "TASK_LAUNCHED"
  | succeeded => "TASK_SUCCEEDED"
  | failed => "TASK_FAILED"
  | cancelled => "TASK_CANCELLED"
  | paused => "TASK_PAUSED"
  | resumed => "TASK_RESUMED"
  | rerun => "TASK_RERUN"
  | skipped => "TASK_SKIPPED"

/-- The events of the transitions into a state: for some states that they come from, and for `'ANY'` other one. -/
structure EventOptions (ε : Type) where
  any : ε
  fromStates : List (State × ε) := []
  deriving DecidableEq, Repr

/-- `_TASK_EVENT_MAP`. -/
def taskEventMap : List (State × EventOptions TaskEvent) :=
  [(.running,
      { any := .launched
        fromStates := [(.idle, .resumed), (.paused, .resumed), (.waiting, .resumed), (.error, .rerun)] }),
    (.success, { any := .succeeded }),
    (.error, { any := .failed }),
    (.cancelled, { any := .cancelled }),
    (.paused, { any := .paused }),
    (.skipped, { any := .skipped })]

/-- `_identify_event`. -/
def identifyEvent {ε : Type} (fromState : Option State) (toState : State) (eventMap : List (State × EventOptions ε)) :
    Option ε := do
  let eventOptions ← eventMap.lookup toState
  return (fromState.bind (eventOptions.fromStates.lookup ·)).getD eventOptions.any

/-- `identify_task_event`. -/
def identifyTaskEvent (fromState : Option State) (toState : State) : Option TaskEvent :=
  identifyEvent fromState toState taskEventMap

/-! ### Publishers -/

/-- A publisher in the parameter `notify` of a workflow execution. -/
structure Publisher where
  type : Option String
  eventTypes : List (Option String) := []
  deriving DecidableEq, Repr

/-- An entry of the parameter `notify`; the entries that are no dictionaries are skipped. -/
inductive PublisherEntry
  | dict (publisher : Publisher)
  | other
  deriving DecidableEq, Repr

def PublisherEntry.publisher? : PublisherEntry → Option Publisher
  | dict p => some p
  | other => none

namespace Publisher

/-- A publisher wants the events of its list, or all transitions if it has none. -/
def wants (p : Publisher) (event : Option TaskEvent) : Bool :=
  p.eventTypes.isEmpty || p.eventTypes.contains (event.map TaskEvent.name)

/-- The notifier skips a publisher without a type. -/
def hasType (p : Publisher) : Bool := p.type.any (· != "")

end Publisher

/-- A call of `publish` that a registered operation makes, with the part of its data that depends on the transition. -/
structure Notification where
  publisher : Publisher
  task : TaskId
  event : Option TaskEvent
  state : State
  deriving DecidableEq, Repr

/-- The operation that `Task._notify` registers, as the calls that `DefaultNotifier.notify` makes in it. -/
def notify (publishers : List PublisherEntry) (t : TaskId) (fromState : Option State) (toState : State) :
    List Notification :=
  let event := identifyTaskEvent fromState toState
  let filtered := (publishers.filterMap PublisherEntry.publisher?).filter (·.wants event)
  (filtered.filter (·.hasType)).map fun p => { publisher := p, task := t, event, state := toState }

/-- What `set_state` registers of a change of a task that the trace records. Only `_run_new` sets `first_run`, for
    an idle task. The registered operations run after the transaction, in a thread of their own: in which order those
    of two transactions do, and how often one is repeated, is not said here. -/
inductive Registers (publishers : List PublisherEntry) : Event → List Notification → Prop
  | first (t : TaskId) : Registers publishers (.taskState t .idle .running) (notify publishers t none .running)
  | change (t : TaskId) (a b : State) : Registers publishers (.taskState t a b) (notify publishers t (some a) b)
  | other {ev : Event} (h : ∀ t a b, ev ≠ .taskState t a b) : Registers publishers ev []

/-- What a publisher is told by a notification if it looks at one task only. -/
def Notification.content (p : Publisher) (t : TaskId) (n : Notification) : Option (Option TaskEvent × State) :=
  if n.publisher = p ∧ n.task = t then some (n.event, n.state) else none

/-- What is registered for a publisher about a task. -/
def registeredFor (p : Publisher) (t : TaskId) (log : List Notification) : List (Option TaskEvent × State) :=
  log.filterMap (·.content p t)

/-! ### What events tell -/

/-- The state that an event tells of. -/
def TaskEvent.state : TaskEvent → State
  | launched | resumed | rerun => .running
  | succeeded => .success
  | failed => .error
  | cancelled => .cancelled
  | paused => .paused
  | skipped => .skipped

/-- The states that no event tells of. -/
def unnamedStates : List State := [.idle, .waiting, .runningDelayed]

theorem taskEventMap_states : ∀ entry ∈ taskEventMap,
    entry.2.any.state = entry.1 ∧ ∀ x ∈ entry.2.fromStates, x.2.state = entry.1 := by
  decide

theorem taskEventMap_lookup_none {q : State} : taskEventMap.lookup q = none ↔ q ∈ unnamedStates := by
  cases q <;> decide

/-- An event tells of the state that the task went to. -/
theorem state_of_identifyTaskEvent {fromState : Option State} {toState : State} {event : TaskEvent}
    (h : identifyTaskEvent fromState toState = some event) : event.state = toState := by
  obtain ⟨eventOptions, hlookup, h⟩ := Option.bind_eq_some_iff.mp h
  obtain ⟨hany, hfrom⟩ := taskEventMap_states _ (Lists.mem_of_lookup hlookup)
  cases Option.some.inj h
  cases hx : fromState.bind (eventOptions.fromStates.lookup ·) with
  | none => exact hany
  | some event =>
    obtain ⟨q, -, hq⟩ := Option.bind_eq_some_iff.mp hx
    exact hfrom _ (Lists.mem_of_lookup hq)

theorem identifyTaskEvent_none {fromState : Option State} {toState : State} :
    identifyTaskEvent fromState toState = none ↔ toState ∈ unnamedStates := by
  rw [← taskEventMap_lookup_none]
  cases h : taskEventMap.lookup toState with
  | none => simp [identifyTaskEvent, identifyEvent, h]
  | some eventOptions => simp [identifyTaskEvent, identifyEvent, h]

end Mistral.Notifiers
