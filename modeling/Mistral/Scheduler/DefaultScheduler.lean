import Mathlib.Logic.Function.Basic
import Mistral.Lib.ReadCommitted
import Mistral.Lib.System

/-! The default scheduler (`mistral/scheduler/default_scheduler.py`): instances that share one job store and crash at
    any time. -/

namespace Mistral

/-- The options of the scheduler in ticks of the clock. A second has several. -/
structure SchedulerConf where
  second : Nat
  pickupJobAfter : Nat
  capturedJobTimeout : Nat
  second_pos : 0 < second
  second_le : second ≤ capturedJobTimeout

/-- The last full second of a clock. -/
def SchedulerConf.utcNowSec (conf : SchedulerConf) (clock : Nat) : Nat := clock / conf.second * conf.second

/-- The times in the row of a scheduled job. -/
structure JobRow where
  executeAt : Nat
  capturedAt : Option Nat := none
  deriving DecidableEq, Repr

/-- A capture that a worker made: the time in the row, and the clock. -/
structure Capture (τ : Type) where
  worker : τ
  recorded : Nat
  clock : Nat
  deriving DecidableEq, Repr

/-- What has happened to a job. -/
structure JobLog (τ : Type) where
  created : Bool := false
  stored : Bool := false
  captures : List (Capture τ) := []
  invoked : List τ := []
  deleted : Option τ := none
  deriving DecidableEq, Repr

/-- A worker: a transaction that schedules jobs, a job store checker, or a thread of the pool. A thread captures a job
    from its copy in memory, a checker the jobs that it has selected, and both go on in the same way. -/
inductive Worker (τ ι : Type)
  | idle
  | scheduling
  | capturing (todo : List (ι × Option Nat)) (captured : List (ι × Capture τ))
  | invoking (todo : List ι)
  | deleting (job : ι) (todo : List ι)
  deriving DecidableEq, Repr

/-- The job store, the copies of jobs in the memory of some instance with the time of their execution, and what the
    workers do. -/
structure JobStore (τ ι : Type) where
  clock : Nat := 0
  rows : ι → Cell τ (Option JobRow) := fun _ => { committed := none }
  memory : ι → Option Nat := fun _ => none
  log : ι → JobLog τ := fun _ => {}
  workers : τ → Worker τ ι := fun _ => .idle

/-- A worker schedules a job, takes one from memory, polls, goes on or crashes, a copy in memory is lost, or time goes
    by. -/
inductive JobEvent (τ ι : Type)
  | schedule (t : τ) (job : ι) (runAfter : Nat)
  | dispatch (t : τ) (job : ι)
  | forget (job : ι)
  | poll (t : τ) (jobs : List ι)
  | run (t : τ)
  | crash (t : τ)
  | tick (n : Nat)
  deriving Repr

namespace JobStore
variable {τ ι : Type} [DecidableEq τ] [DecidableEq ι] (conf : SchedulerConf) (s : JobStore τ ι) (t : τ) (j : ι)

/-- The time that the database gets. -/
def now : Nat := conf.utcNowSec s.clock

def setWorker (w : Worker τ ι) : JobStore τ ι := { s with workers := Function.update s.workers t w }

def setRow (row : Cell τ (Option JobRow)) : JobStore τ ι := { s with rows := Function.update s.rows j row }

def setLog (log : JobLog τ) : JobStore τ ι := { s with log := Function.update s.log j log }

/-- `_persist_job` and `_schedule_in_memory`: the row is there for others when the transaction commits, the copy at
    once. -/
def schedule (runAfter : Nat) : JobStore τ ι :=
  if (s.workers t = .idle ∨ s.workers t = .scheduling) ∧ (s.log j).created = false then
    let executeAt := s.now conf + runAfter
    let s := (s.setRow j ((s.rows j).write t (some { executeAt }))).setLog j { s.log j with created := true }
    { s.setWorker t .scheduling with memory := Function.update s.memory j (some executeAt) }
  else s

/-- `_dispatcher`: a thread of the pool takes the copy of a job whose time has come. -/
def dispatch : JobStore τ ι :=
  match s.memory j with
  | some executeAt =>
    if s.workers t = .idle ∧ executeAt ≤ s.now conf then
      { s.setWorker t (.capturing [(j, none)] []) with memory := Function.update s.memory j none }
    else s
  | none => s

/-- The filter of `get_scheduled_jobs_to_start`, with the time of the capture that it finds. -/
def candidate? : Option (ι × Option Nat) :=
  match (s.rows j).read t with
  | some row =>
    if row.executeAt + conf.pickupJobAfter < s.now conf ∧
        row.capturedAt.all (· + conf.capturedJobTimeout ≤ s.now conf) then some (j, row.capturedAt)
    else none
  | none => none

/-- `_process_store_jobs` selects some of the candidates. -/
def poll (jobs : List ι) : JobStore τ ι :=
  if s.workers t = .idle ∧ jobs.Nodup then s.setWorker t (.capturing (jobs.filterMap (s.candidate? conf t)) []) else s

/-- `_capture_scheduled_job`: the update finds the row only if it was captured when the copy says. -/
def capture (copy : Option Nat) (todo : List (ι × Option Nat)) (captured : List (ι × Capture τ)) : JobStore τ ι :=
  if ((s.rows j).blocker t).isSome then s
  else match (s.rows j).read t with
    | some row =>
      if row.capturedAt = copy then
        let row := { row with capturedAt := some (s.now conf) }
        (s.setRow j ((s.rows j).write t (some row))).setWorker t
          (.capturing todo (captured ++ [(j, { worker := t, recorded := s.now conf, clock := s.clock })]))
      else s.setWorker t (.capturing todo captured)
    | none => s.setWorker t (.capturing todo captured)

/-- The capture of a job is known when it is committed. -/
def JobLog.addCapture (captured : List (ι × Capture τ)) (log : JobLog τ) : JobLog τ :=
  match captured.lookup j with
  | some c => { log with captures := c :: log.captures }
  | none => log

/-- The end of the transaction that captures. -/
def commitCaptures (captured : List (ι × Capture τ)) : JobStore τ ι :=
  { s.setWorker t (.invoking (captured.map (·.1))) with
    rows := fun j => (s.rows j).commit t
    log := fun j => JobLog.addCapture j captured (s.log j) }

/-- The end of the transaction that schedules. -/
def commitScheduled : JobStore τ ι :=
  { s.setWorker t .idle with
    rows := fun j => (s.rows j).commit t
    log := fun j => if ((s.rows j).own t).isSome then { s.log j with stored := true } else s.log j }

/-- `_delete_scheduled_job`. If the row is gone, an error ends the worker. -/
def delete (todo : List ι) : JobStore τ ι :=
  if ((s.rows j).blocker t).isSome then s
  else if ((s.rows j).read t).isSome then
    ((s.setRow j { committed := none }).setLog j { s.log j with deleted := some t }).setWorker t (.invoking todo)
  else s.setWorker t .idle

/-- The next statement of a worker. -/
def execute : JobStore τ ι :=
  match s.workers t with
  | .idle => s
  | .scheduling => s.commitScheduled t
  | .capturing ((j, copy) :: todo) captured => s.capture conf t j copy todo captured
  | .capturing [] captured => s.commitCaptures t captured
  | .invoking (j :: todo) => (s.setLog j { s.log j with invoked := t :: (s.log j).invoked }).setWorker t (.deleting j todo)
  | .invoking [] => s.setWorker t .idle
  | .deleting j todo => s.delete t j todo

/-- A worker ends in the middle of its work. -/
def crash : JobStore τ ι := { s.setWorker t .idle with rows := fun j => (s.rows j).rollback t }

def step : JobEvent τ ι → JobStore τ ι
  | .schedule t j runAfter => s.schedule conf t j runAfter
  | .dispatch t j => s.dispatch conf t j
  | .forget j => { s with memory := Function.update s.memory j none }
  | .poll t jobs => s.poll conf t jobs
  | .run t => s.execute conf t
  | .crash t => s.crash t
  | .tick n => { s with clock := s.clock + n }

end JobStore

def schedulerSystem (τ ι : Type) [DecidableEq τ] [DecidableEq ι] (conf : SchedulerConf) :
    System (JobStore τ ι) (JobEvent τ ι) where
  init s := s = {}
  step := JobStore.step conf

end Mistral
