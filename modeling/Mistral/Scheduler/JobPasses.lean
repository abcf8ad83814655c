import Mathlib.Data.List.Sort
import Mistral.Scheduler.DefaultScheduler

/-! Passes over a store of jobs: `_process_delayed_calls` of the legacy scheduler
    (`mistral/services/legacy_scheduler.py`) and `_process_store_jobs` of the default one.

One process goes through the store at a time. What a called function does to other tables is left out, and a job that it
schedules comes into the store after the pass. -/

namespace Mistral
namespace JobPasses

/-! ### Targets -/

/-- The installed code. Whatever is asked of it may raise. -/
structure Installed (Ctx Arg Obj Exc : Type) where
  importClass : String → Except Exc Obj
  construct : Obj → Except Exc Obj
  getattr : Obj → String → Except Exc Obj
  deserialize : Obj → Arg → Except Exc Arg
  deserializeContext : Ctx → Except Exc Unit
  call : Ctx → Obj → List (String × Arg) → Except Exc Unit
  keyError : String → Exc

/-- The function that a job calls, as it is stored. -/
structure Target (Ctx Arg : Type) where
  factoryMethodPath : Option String := none
  targetMethodName : String
  methodArguments : List (String × Arg) := []
  serializers : List (String × String) := []
  authContext : Ctx

/-- A function with its arguments, ready to be called, and the job that it is of. -/
structure Prepared (Ctx Arg Obj : Type) where
  job : String
  authContext : Ctx
  targetMethod : Obj
  methodArgs : List (String × Arg)

variable {Ctx Arg Obj Exc : Type} (code : Installed Ctx Arg Obj Exc)

/-- `method_args[name] = value` where the key is there. -/
def setArg (args : List (String × Arg)) (name : String) (value : Arg) : List (String × Arg) :=
  args.map fun a => if a.1 = name then (name, value) else a

/-- The argument is replaced by what its serializer reads from it. -/
def deserializeArg (args : List (String × Arg)) (entry : String × String) : Except Exc (List (String × Arg)) := do
  let serializer ← code.importClass entry.2 >>= code.construct
  match args.lookup entry.1 with
  | none => throw (code.keyError entry.1)
  | some arg => return setArg args entry.1 (← code.deserialize serializer arg)

/-- The function that the paths name. -/
def targetMethod (t : Target Ctx Arg) : Except Exc Obj :=
  match t.factoryMethodPath.filter (· ≠ "") with
  | some path => do code.getattr (← code.importClass path >>= code.construct) t.targetMethodName
  | none => code.importClass t.targetMethodName

/-- The body of the loop in `_prepare_calls`, and `_prepare_job`. -/
def prepareTarget (job : String) (t : Target Ctx Arg) : Except Exc (Prepared Ctx Arg Obj) := do
  let targetMethod ← targetMethod code t
  let methodArgs ← t.serializers.foldlM (deserializeArg code) t.methodArguments
  return { job, authContext := t.authContext, targetMethod, methodArgs }

/-- The body of the `try` block around a call. -/
def callTarget (p : Prepared Ctx Arg Obj) : Except Exc Unit := do
  code.deserializeContext p.authContext
  code.call p.authContext p.targetMethod p.methodArgs

def raises {ε α : Type} : Except ε α → Bool
  | .error _ => true
  | .ok _ => false

/-- What a scheduler has done with a job. -/
inductive Done
  | invoked (job : String) (raised : Bool)
  | deleted (job : String)
  deriving DecidableEq, Repr

def Done.job : Done → String
  | .invoked job _ | .deleted job => job

/-- `_invoke_calls` and `_invoke_job`: an exception is logged. -/
def invoke (p : Prepared Ctx Arg Obj) : Done := .invoked p.job (raises (callTarget code p))

/-- `query.limit`. -/
def limit {α : Type} (batchSize : Option Nat) (rows : List α) : List α :=
  match batchSize with
  | some n => rows.take n
  | none => rows

/-! ### The legacy scheduler -/

/-- A row of `delayed_calls_v2`. -/
structure DelayedCall (Ctx Arg : Type) extends Target Ctx Arg where
  id : String
  executionTime : Nat
  processing : Bool := false

/-- The table of delayed calls, and what became of calls. -/
structure DelayedCalls (Ctx Arg : Type) where
  clock : Nat := 0
  calls : List (DelayedCall Ctx Arg) := []
  log : List Done := []

/-- A row is stored, time goes by, or the scheduler comes round. -/
inductive PassEvent (row : Type)
  | schedule (r : row)
  | tick (n : Nat)
  | pass

namespace DelayedCalls
variable (conf : SchedulerConf) (batchSize : Option Nat) (s : DelayedCalls Ctx Arg)

/-- `_schedule_call`. -/
def schedule (c : DelayedCall Ctx Arg) : DelayedCalls Ctx Arg :=
  if c.id ∈ s.calls.map (·.id) then s else { s with calls := { c with processing := false } :: s.calls }

/-- `get_delayed_calls_to_start` at one second from now. -/
def getDelayedCallsToStart : List (DelayedCall Ctx Arg) :=
  limit batchSize <| (s.calls.filter fun c => c.executionTime < conf.utcNowSec s.clock + conf.second ∧ !c.processing)
    |>.insertionSort fun c d => c.executionTime ≤ d.executionTime

/-- `_capture_calls`: each update finds its call unmarked. -/
def captureCalls : DelayedCalls Ctx Arg :=
  let captured := (s.getDelayedCallsToStart conf batchSize).map (·.id)
  { s with calls := s.calls.map fun c => if c.id ∈ captured then { c with processing := true } else c }

/-- `_prepare_calls`. -/
def prepareCalls (rawCalls : List (DelayedCall Ctx Arg)) : Except Exc (List (Prepared Ctx Arg Obj)) :=
  rawCalls.mapM fun c => prepareTarget code c.id c.toTarget

/-- `_invoke_calls`. -/
def invokeCalls (delayedCalls : List (Prepared Ctx Arg Obj)) : DelayedCalls Ctx Arg :=
  { s with log := s.log ++ delayedCalls.map (invoke code) }

/-- `delete_calls`. -/
def deleteCalls (dbCalls : List (DelayedCall Ctx Arg)) : DelayedCalls Ctx Arg :=
  { s with
    calls := s.calls.filter (·.id ∉ dbCalls.map (·.id))
    log := s.log ++ dbCalls.map fun c => .deleted c.id }

/-- `_process_delayed_calls`. An exception of `_prepare_calls` ends it, and the loop of the scheduler logs that. -/
def processDelayedCalls : DelayedCalls Ctx Arg :=
  let dbCalls := s.getDelayedCallsToStart conf batchSize
  let s := s.captureCalls conf batchSize
  match prepareCalls code dbCalls with
  | .error _ => s
  | .ok prepared => (s.invokeCalls code prepared).deleteCalls dbCalls

def step : PassEvent (DelayedCall Ctx Arg) → DelayedCalls Ctx Arg
  | .schedule c => s.schedule c
  | .tick n => { s with clock := s.clock + n }
  | .pass => s.processDelayedCalls code conf batchSize

end DelayedCalls

/-- The legacy scheduler, from an empty table. -/
def legacySystem (conf : SchedulerConf) (batchSize : Option Nat) :
    System (DelayedCalls Ctx Arg) (PassEvent (DelayedCall Ctx Arg)) where
  init s := s = {}
  step := DelayedCalls.step code conf batchSize

/-! ### The default scheduler -/

/-- A row of `scheduled_jobs_v2`. -/
structure ScheduledJob (Ctx Arg : Type) extends Target Ctx Arg where
  id : String
  executeAt : Nat
  capturedAt : Option Nat := none

/-- The table of scheduled jobs, and what became of jobs. -/
structure ScheduledJobs (Ctx Arg : Type) where
  clock : Nat := 0
  jobs : List (ScheduledJob Ctx Arg) := []
  log : List Done := []

namespace ScheduledJobs
variable (conf : SchedulerConf) (batchSize : Option Nat) (s : ScheduledJobs Ctx Arg)

/-- `_persist_job`. -/
def persistJob (job : ScheduledJob Ctx Arg) : ScheduledJobs Ctx Arg :=
  if job.id ∈ s.jobs.map (·.id) then s else { s with jobs := { job with capturedAt := none } :: s.jobs }

/-- `get_scheduled_jobs_to_start`. -/
def getScheduledJobsToStart : List (ScheduledJob Ctx Arg) :=
  let now := conf.utcNowSec s.clock
  limit batchSize <| (s.jobs.filter fun j =>
      j.executeAt + conf.pickupJobAfter < now ∧ j.capturedAt.all (· + conf.capturedJobTimeout ≤ now))
    |>.insertionSort fun i j => i.executeAt ≤ j.executeAt

/-- `_capture_scheduled_job` of each candidate: each update finds its job as it was selected. -/
def captureScheduledJobs : ScheduledJobs Ctx Arg :=
  let captured := (s.getScheduledJobsToStart conf batchSize).map (·.id)
  { s with jobs := s.jobs.map fun j =>
      if j.id ∈ captured then { j with capturedAt := some (conf.utcNowSec s.clock) } else j }

/-- `_delete_scheduled_job`. It raises if the job is gone. -/
def deleteScheduledJob? (id : String) : Option (ScheduledJobs Ctx Arg) :=
  if id ∈ s.jobs.map (·.id) then some { s with jobs := s.jobs.filter (·.id ≠ id), log := s.log ++ [.deleted id] }
  else none

/-- The loop that invokes and deletes the captured jobs. An exception of `_prepare_job` ends it. -/
def runJobs (s : ScheduledJobs Ctx Arg) : List (ScheduledJob Ctx Arg) → ScheduledJobs Ctx Arg
  | [] => s
  | job :: jobs =>
    match prepareTarget code job.id job.toTarget with
    | .error _ => s
    | .ok prepared =>
      let s := { s with log := s.log ++ [invoke code prepared] }
      match s.deleteScheduledJob? job.id with
      | none => s
      | some s => runJobs s jobs

/-- `_process_store_jobs`. -/
def processStoreJobs : ScheduledJobs Ctx Arg :=
  runJobs code (s.captureScheduledJobs conf batchSize) (s.getScheduledJobsToStart conf batchSize)

def step : PassEvent (ScheduledJob Ctx Arg) → ScheduledJobs Ctx Arg
  | .schedule job => s.persistJob job
  | .tick n => { s with clock := s.clock + n }
  | .pass => s.processStoreJobs code conf batchSize

end ScheduledJobs

/-- The job store checker, from an empty table. -/
def storeSystem (conf : SchedulerConf) (batchSize : Option Nat) :
    System (ScheduledJobs Ctx Arg) (PassEvent (ScheduledJob Ctx Arg)) where
  init s := s = {}
  step := ScheduledJobs.step code conf batchSize

end JobPasses
end Mistral
