import Mathlib.Data.List.Dedup
import Mistral.EventEngine.DefaultEventEngine

/-! Requests that create and delete event triggers (`mistral/services/triggers.py`), and the messages by which the event
    engine learns of them.

A transaction reads what is committed and its own changes, and waits for the row that another one deletes. Its message is
on the way from the moment it is sent. -/

namespace Mistral
namespace EventEngine

/-! ### The table -/

/-- A row of `event_triggers_v2`: a transaction has inserted or deleted it, or this is committed. -/
inductive RowState (τ : Type)
  | inserted (t : τ)
  | present
  | deleting (t : τ)
  | gone
  deriving DecidableEq, Repr

/-- A row of the table of event triggers, with what a transaction has done to it. -/
structure TriggerRow (τ : Type) where
  trigger : EventTrigger
  state : RowState τ

/-- The two requests that reach the event engine. -/
inductive Op
  | create
  | delete
  deriving DecidableEq, Repr

/-- A request has changed its row, has sent its message, or has ended its transaction. -/
inductive Request
  | idle
  | wrote (op : Op) (trigger : EventTrigger)
  | sent (op : Op) (trigger : EventTrigger)
  | over

/-- A message to the event engine: `create_event_trigger` or `delete_event_trigger`. -/
structure Rpc where
  op : Op
  trigger : EventTrigger
  events : List String

/-- What the handler of a message wants to be listened to: the events of the message, or nothing after the deletion of the
    last trigger. -/
def Rpc.listener (m : Rpc) : Option (List String) :=
  if m.op = .delete ∧ m.events = [] then none else some m.events

/-- The handler of a message has not begun, has changed the map of the triggers, has found a listener, has stopped it or has
    found none, has started a new one, or has ended. -/
inductive RpcPhase
  | queued
  | mapped
  | stopping (listener : Nat)
  | stopped
  | started (listener : Nat)
  | processed
  deriving DecidableEq, Repr

/-- A listener that was started. -/
structure Listener where
  exchangeTopic : String × String
  events : List String
  running : Bool

/-- The database, the requests, the messages between both services, and the event engine: its `event_triggers_map`, all
    listeners that it has ever started, and its `exchange_topic_listener_map`, with the numbers of listeners. -/
structure Cluster (τ : Type) where
  rows : List (TriggerRow τ) := []
  requests : τ → Request := fun _ => .idle
  sent : List (Rpc × RpcPhase) := []
  triggers : TriggersMap := fun _ => none
  started : List Listener := []
  listeners : String × String → Option Nat := fun _ => none

/-- The next part of a request, or of what the event engine does with the `n`-th message. -/
inductive ClusterEvent (τ : Type)
  | insert (t : τ) (trigger : EventTrigger)
  | remove (t : τ) (id : String)
  | send (t : τ)
  | commit (t : τ)
  | rollback (t : τ)
  | receive (n : Nat)
  | listen (n : Nat)

variable {τ : Type} [DecidableEq τ]

/-- The transaction reads the row. -/
def TriggerRow.visible (t : τ) (r : TriggerRow τ) : Bool :=
  match r.state with
  | .inserted u => u = t
  | .present => true
  | .deleting u => u ≠ t
  | .gone => false

def RowState.commit (t : τ) : RowState τ → RowState τ
  | .inserted u => if u = t then .present else .inserted u
  | .deleting u => if u = t then .gone else .deleting u
  | state => state

def RowState.rollback (t : τ) : RowState τ → RowState τ
  | .inserted u => if u = t then .gone else .inserted u
  | .deleting u => if u = t then .present else .deleting u
  | state => state

namespace Cluster
variable (s : Cluster τ) (t : τ)

def setRequest (r : Request) : Cluster τ := { s with requests := Function.update s.requests t r }

def mapRows (f : TriggerRow τ → RowState τ) : Cluster τ := { s with rows := s.rows.map fun r => { r with state := f r } }

/-! ### Requests -/

/-- `create_event_trigger` to the insertion of the row. -/
def insert (trigger : EventTrigger) : Cluster τ :=
  match s.requests t with
  | .idle =>
    if trigger.id ∈ s.rows.map (·.trigger.id) then s
    else
      { s with
        rows := s.rows ++ [⟨trigger, .inserted t⟩]
        requests := Function.update s.requests t (.wrote .create trigger) }
  | _ => s

/-- `delete_event_trigger` to the deletion of the row. -/
def remove (id : String) : Cluster τ :=
  match s.requests t, s.rows.find? fun r => r.trigger.id = id ∧ r.state = .present with
  | .idle, some row =>
    (s.setRequest t (.wrote .delete row.trigger)).mapRows fun r => if r.trigger.id = id then .deleting t else r.state
  | _, _ => s

/-- The events of the triggers that a transaction reads. A deletion makes a set of them. -/
def readEvents (op : Op) (exchangeTopic : String × String) : List String :=
  let events := (s.rows.filter fun r => r.visible t ∧ r.trigger.exchangeTopic = exchangeTopic).map (·.trigger.event)
  match op with
  | .create => events
  | .delete => events.dedup

/-- The rest of a request: it reads the events and sends its message. -/
def send : Cluster τ :=
  match s.requests t with
  | .wrote op trigger =>
    { s with
      requests := Function.update s.requests t (.sent op trigger)
      sent := s.sent ++ [(⟨op, trigger, s.readEvents t op trigger.exchangeTopic⟩, .queued)] }
  | _ => s

/-- The transaction of a request commits. -/
def commit : Cluster τ :=
  match s.requests t with
  | .sent _ _ => (s.setRequest t .over).mapRows fun r => r.state.commit t
  | _ => s

/-- The transaction of a request is undone. -/
def rollback : Cluster τ :=
  match s.requests t with
  | .wrote _ _ | .sent _ _ => (s.setRequest t .over).mapRows fun r => r.state.rollback t
  | _ => s

/-! ### Handlers -/

/-- The part of the handler of a message that is under the lock. A failing assertion ends it. -/
def receive (n : Nat) : Cluster τ :=
  match s.sent[n]? with
  | some (m, .queued) =>
    match m.op with
    | .create => { s with sent := s.sent.set n (m, .mapped), triggers := s.triggers.create m.trigger }
    | .delete =>
      match s.triggers.delete? m.trigger with
      | some triggers => { s with sent := s.sent.set n (m, .mapped), triggers }
      | none => { s with sent := s.sent.set n (m, .processed) }
  | _ => s

/-- The next statement of the rest of the handler of a message, which is not under the lock: `_add_event_listener`, or the
    removal of the listener. -/
def listen (n : Nat) : Cluster τ :=
  match s.sent[n]? with
  | some (m, .mapped) =>
    match s.listeners m.trigger.exchangeTopic with
    | some listener => { s with sent := s.sent.set n (m, .stopping listener) }
    -- To remove a listener that is not in the map is a `KeyError`.
    | none => { s with sent := s.sent.set n (m, if m.listener.isNone then .processed else .stopped) }
  | some (m, .stopping listener) =>
    { s with
      sent := s.sent.set n (m, .stopped)
      started := s.started.modify listener fun l => { l with running := false } }
  | some (m, .stopped) =>
    match m.listener with
    | none =>
      { s with
        sent := s.sent.set n (m, .processed)
        listeners := Function.update s.listeners m.trigger.exchangeTopic none }
    | some events =>
      { s with
        sent := s.sent.set n (m, .started s.started.length)
        started := s.started ++ [⟨m.trigger.exchangeTopic, events, true⟩] }
  | some (m, .started listener) =>
    { s with
      sent := s.sent.set n (m, .processed)
      listeners := Function.update s.listeners m.trigger.exchangeTopic (some listener) }
  | _ => s

/-- One event of the cluster. -/
def step : ClusterEvent τ → Cluster τ
  | .insert t trigger => s.insert t trigger
  | .remove t id => s.remove t id
  | .send t => s.send t
  | .commit t => s.commit t
  | .rollback t => s.rollback t
  | .receive n => s.receive n
  | .listen n => s.listen n

end Cluster

/-- The cluster, from an empty table. -/
def clusterSystem (τ : Type) [DecidableEq τ] : System (Cluster τ) (ClusterEvent τ) where
  init s := s = {}
  step := Cluster.step

end EventEngine
end Mistral
