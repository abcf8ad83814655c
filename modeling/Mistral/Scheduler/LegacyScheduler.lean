import Mathlib.Logic.Function.Basic
import Mistral.Scheduler.DefaultScheduler

/-! The legacy scheduler (`mistral/services/legacy_scheduler.py`): processes that share one table of delayed calls and fail
    at any time. -/

namespace Mistral

/-- A row of `delayed_calls_v2`, as far as schedulers look at it. -/
structure CallRow where
  executionTime : Nat
  processing : Bool := false
  deriving DecidableEq, Repr

/-- What has happened to a delayed call: the time that it is for, and who has invoked it when. -/
structure CallLog (τ : Type) where
  created : Option Nat := none
  stored : Bool := false
  invoked : List (τ × Nat) := []
  deleted : Option τ := none
  deriving DecidableEq, Repr

/-- A worker: a transaction that schedules calls, or the loop of a scheduler in `_capture_calls`, `_prepare_calls`,
    `_invoke_calls` or `delete_calls`. -/
inductive CallWorker (ι : Type)
  | idle
  | scheduling
  | capturing (candidates result : List ι)
  | preparing (dbCalls : List ι)
  | invoking (invoked delayedCalls : List ι)
  | deleting (dbCalls : List ι)
  deriving DecidableEq, Repr

/-- The table of delayed calls under transactions, with the workers and what happened to each call. -/
structure CallStore (τ ι : Type) where
  clock : Nat := 0
  rows : ι → Cell τ (Option CallRow) := fun _ => { committed := none }
  log : ι → CallLog τ := fun _ => {}
  workers : τ → CallWorker ι := fun _ => .idle

/-- A worker schedules, polls or goes on with a call, an invocation fails, or time goes by. -/
inductive CallEvent (τ ι : Type)
  | schedule (t : τ) (call : ι) (runAfter : Nat)
  | poll (t : τ) (calls : List ι)
  | run (t : τ)
  | fail (t : τ)
  | tick (n : Nat)
  deriving Repr

namespace CallStore
variable {τ ι : Type} [DecidableEq τ] [DecidableEq ι] (conf : SchedulerConf) (s : CallStore τ ι) (t : τ) (j : ι)

/-- The time that the database gets. -/
def now : Nat := conf.utcNowSec s.clock

def setWorker (w : CallWorker ι) : CallStore τ ι := { s with workers := Function.update s.workers t w }

def setRow (row : Cell τ (Option CallRow)) : CallStore τ ι := { s with rows := Function.update s.rows j row }

def setLog (log : CallLog τ) : CallStore τ ι := { s with log := Function.update s.log j log }

/-- `_schedule_call`, in a transaction that may schedule several calls. -/
def schedule (runAfter : Nat) : CallStore τ ι :=
  if (s.workers t = .idle ∨ s.workers t = .scheduling) ∧ (s.log j).created = none then
    let executionTime := s.now conf + runAfter
    ((s.setRow j ((s.rows j).write t (some { executionTime }))).setLog j
      { s.log j with created := some executionTime }).setWorker t .scheduling
  else s

/-- The filter of `get_delayed_calls_to_start` at one second from now. -/
def toStart : Bool :=
  match (s.rows j).read t with
  | some row => row.executionTime < s.now conf + conf.second && !row.processing
  | none => false

/-- `_capture_calls` selects some of the candidates. -/
def poll (calls : List ι) : CallStore τ ι :=
  if s.workers t = .idle then s.setWorker t (.capturing (calls.filter (s.toStart conf t)) []) else s

/-- `update_delayed_call` with `processing` in the filter, which counts the row only if it is not marked. -/
def capture (candidates result : List ι) : CallStore τ ι :=
  if ((s.rows j).blocker t).isSome then s
  else match (s.rows j).read t with
    | some row =>
      if row.processing = false then
        (s.setRow j ((s.rows j).write t (some { row with processing := true }))).setWorker t
          (.capturing candidates (result ++ [j]))
      else s.setWorker t (.capturing candidates result)
    | none => s.setWorker t (.capturing candidates result)

/-- The end of the transaction of `_capture_calls`. Without calls, there is nothing to prepare. -/
def commitCaptures (result : List ι) : CallStore τ ι :=
  { s.setWorker t (if result.isEmpty then .idle else .preparing result) with rows := fun j => (s.rows j).commit t }

/-- The end of the transaction that schedules. -/
def commitScheduled : CallStore τ ι :=
  { s.setWorker t .idle with
    rows := fun j => (s.rows j).commit t
    log := fun j => if ((s.rows j).own t).isSome then { s.log j with stored := true } else s.log j }

def invoke (invoked delayedCalls : List ι) : CallStore τ ι :=
  (s.setLog j { s.log j with invoked := (t, s.clock) :: (s.log j).invoked }).setWorker t
    (.invoking (invoked ++ [j]) delayedCalls)

/-- `delete_calls`: one statement, and its commit. -/
def deleteCalls (dbCalls : List ι) : CallStore τ ι :=
  if ∃ j ∈ dbCalls, ((s.rows j).blocker t).isSome then s
  else
    { s.setWorker t .idle with
      rows := fun j => if j ∈ dbCalls then { committed := none } else s.rows j
      log := fun j => if j ∈ dbCalls ∧ ((s.rows j).read t).isSome then { s.log j with deleted := some t } else s.log j }

/-- The next statement of a worker. -/
def execute : CallStore τ ι :=
  match s.workers t with
  | .idle => s
  | .scheduling => s.commitScheduled t
  | .capturing (j :: candidates) result => s.capture t j candidates result
  | .capturing [] result => s.commitCaptures t result
  | .preparing dbCalls => s.setWorker t (.invoking [] dbCalls)
  | .invoking invoked (j :: delayedCalls) => s.invoke t j invoked delayedCalls
  | .invoking invoked [] => s.setWorker t (.deleting invoked)
  | .deleting dbCalls => s.deleteCalls t dbCalls

/-- A process dies, a transaction fails, or `_prepare_calls` raises. -/
def fail : CallStore τ ι := { s.setWorker t .idle with rows := fun j => (s.rows j).rollback t }

/-- One event of the scheduler. -/
def step : CallEvent τ ι → CallStore τ ι
  | .schedule t j runAfter => s.schedule conf t j runAfter
  | .poll t calls => s.poll conf t calls
  | .run t => s.execute t
  | .fail t => s.fail t
  | .tick n => { s with clock := s.clock + n }

end CallStore

/-- Any number of legacy schedulers, and of transactions that schedule calls. -/
def legacySchedulers (τ ι : Type) [DecidableEq τ] [DecidableEq ι] (conf : SchedulerConf) :
    System (CallStore τ ι) (CallEvent τ ι) where
  init s := s = {}
  step := CallStore.step conf

end Mistral
