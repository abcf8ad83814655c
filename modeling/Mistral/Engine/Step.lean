import Mistral.Engine.Workflows
import Mistral.Lib.System

/-! The engine as a state machine: one step is one transaction. Requests, messages, scheduled jobs and the
    checks after a transaction come in any order, and a step takes the values of expressions from an
    oracle. -/

namespace Mistral

/-- What starts a transaction. `subworkflowStarted` and `subworkflowCompleted` are steps of a sub-workflow as
    its parent sees them. -/
inductive Request
  | start
  | startTask (m : StartTask)
  | actionResult (t : TaskId) (i : Nat) (result : ActionResult)
  | executionUpdate (t : TaskId) (i : Nat) (paused : Bool)
  | subworkflowStarted (t : TaskId) (i : Nat)
  | subworkflowCompleted (t : TaskId) (i : Nat) (result : ActionResult)
  | subworkflowResult (t : TaskId) (i : Nat)
  | runJob (j : Job)
  | scheduleIfNeeded (t : TaskId) (jobsExist : Bool)
  | checkAndComplete
  | pause
  | resume
  | stop (state : State) (msg : Option String)
  | rerun (t : TaskId) (reset skip : Bool)
  | rerunInSubworkflow (t : TaskId) (i : Nat)
  deriving DecidableEq, Repr

section
variable (spec : WorkflowSpec) (ls : ListSort)

/-- A scheduled job fires. -/
def runJob (o : Oracle) : Job → M Unit
  | .refreshTaskState t => refreshTaskState spec ls o t
  | .continueTask t => continueTask spec ls o t
  | .completeTask t state stateInfo => completeTask spec ls o t state stateInfo
  | .failTaskIfIncomplete t timeout => failTaskIfIncomplete spec ls o t timeout
  | .onActionComplete t i => onActionComplete spec ls o t i
  | .onActionUpdate t i => onActionUpdate spec ls o t i

/-- A sub-workflow completes: its parent finds the new state at once, and the result is on its way. -/
def subworkflowCompleted (t : TaskId) (i : Nat) (result : ActionResult) : M Unit := do
  completeAction t i result
  modify fun s => { s with subResults := s.subResults ++ [(t, i)] }

/-- The body of the transaction. -/
def handle (o : Oracle) : Request → M Unit
  | .start => startWorkflow spec ls o
  | .startTask m => runTask spec ls o m
  | .actionResult t i result => onActionResult spec ls o t i result
  | .executionUpdate t i paused => onExecutionUpdate spec ls o t i paused
  | .subworkflowStarted t i => setRow t (·.addExecution { index := i })
  | .subworkflowCompleted t i result => subworkflowCompleted t i result
  | .subworkflowResult t i => scheduleOnActionComplete spec ls o t i
  | .runJob j => runJob spec ls o j
  | .scheduleIfNeeded t jobsExist => if jobsExist then return else scheduleRefreshTaskState t
  | .checkAndComplete => checkAndComplete spec o
  | .pause => pauseWorkflow none
  | .resume => resumeWorkflow spec ls o
  | .stop state msg => stopWorkflow o state msg
  | .rerun t reset skip => rerunWorkflow spec ls o t reset skip
  | .rerunInSubworkflow t i => rerunInSubworkflow t i

end

/-- The state without the message, job or check that the step takes; `none` if it is not there. A workflow
    starts once. -/
def take (s : Engine) : Request → Option Engine
  | .start => if s.wf.state = .idle ∧ s.tasks = [] then some s else none
  | .startTask m => if m ∈ s.messages then some { s with messages := s.messages.erase m } else none
  | .subworkflowStarted t i =>
    if (t, i) ∈ s.subStarts then some { s with subStarts := s.subStarts.erase (t, i) } else none
  | .subworkflowResult t i =>
    if (t, i) ∈ s.subResults then some { s with subResults := s.subResults.erase (t, i) } else none
  | .runJob j => if j ∈ s.jobs then some { s with jobs := s.jobs.erase j } else none
  | .scheduleIfNeeded t _ =>
    if t ∈ s.refreshChecks then some { s with refreshChecks := s.refreshChecks.erase t } else none
  | .checkAndComplete =>
    if 0 < s.completionChecks then some { s with completionChecks := s.completionChecks - 1 } else none
  | _ => some s

/-- One step. What it takes is gone also when the transaction is rolled back. -/
def step (spec : WorkflowSpec) (ls : ListSort) (s : Engine) (l : Request × Oracle) : Engine :=
  match take s l.1 with
  | none => s
  | some s => transaction (handle spec ls l.2 l.1) s

/-- A workflow execution that was just created. -/
def Engine.initial (wfId : String) (isSub : Bool) : Engine := { wf := { id := wfId, isSub } }

/-- The engine that runs the workflow `spec`. -/
def engine (spec : WorkflowSpec) (ls : ListSort) : System Engine (Request × Oracle) where
  init s := ∃ wfId isSub, s = Engine.initial wfId isSub
  step := step spec ls

/-- The events of a step: a transaction that commits adds them at the end of the trace. -/
def newEvents (spec : WorkflowSpec) (ls : ListSort) (s : Engine) (l : Request × Oracle) : List Event :=
  (step spec ls s l).trace.drop s.trace.length

end Mistral
