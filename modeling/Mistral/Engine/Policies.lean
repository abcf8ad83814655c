import Mistral.Engine.Tasks

/-! Task policies (`mistral/engine/policies.py`). -/

namespace Mistral

/-- A policy object that one of the factories built. -/
inductive Policy
  | pauseBefore (expr : BoolExpr)
  | waitBefore (delay : NatExpr)
  | waitAfter (delay : NatExpr)
  | failOn (failOn : BoolExpr)
  | retry (retry : RetrySpec)
  | timeout (delay : NatExpr)
  | concurrency (concurrency : NatExpr)
  deriving DecidableEq, Repr

namespace Policy

/-- The class of a policy. -/
def kind : Policy → PolicyKind
  | pauseBefore _ => .pauseBefore
  | waitBefore _ => .waitBefore
  | waitAfter _ => .waitAfter
  | failOn _ => .failOn
  | retry _ => .retry
  | timeout _ => .timeout
  | concurrency _ => .concurrency

/-! ### Factories -/

/-- A policy for a number: it is there for an expression and for a number above 0. -/
def ofNat (mk : NatExpr → Policy) (n : NatExpr) : Option Policy := if n = .lit 0 then none else some (mk n)

/-- A policy for a flag: it is there unless the flag is `False`. -/
def ofBool (mk : BoolExpr → Policy) (b : BoolExpr) : Option Policy := if b = .lit false then none else some (mk b)

/-- `build_pause_before_policy`. -/
def buildPauseBefore (p : PoliciesSpec) : Option Policy := ofBool pauseBefore p.pauseBefore

/-- `build_wait_before_policy`. -/
def buildWaitBefore (p : PoliciesSpec) : Option Policy := ofNat waitBefore p.waitBefore

/-- `build_wait_after_policy`. -/
def buildWaitAfter (p : PoliciesSpec) : Option Policy := ofNat waitAfter p.waitAfter

/-- `build_fail_on_policy`. -/
def buildFailOn (p : PoliciesSpec) : Option Policy := ofBool failOn p.failOn

/-- `build_retry_policy`. -/
def buildRetry (p : PoliciesSpec) : Option Policy := p.retry.map retry

/-- `build_timeout_policy`. -/
def buildTimeout (p : PoliciesSpec) : Option Policy := ofNat timeout p.timeout

/-- `build_concurrency_policy`. -/
def buildConcurrency (p : PoliciesSpec) : Option Policy := ofNat concurrency p.concurrency

/-- `get_policy_factories`. -/
def getPolicyFactories : List (PoliciesSpec → Option Policy) :=
  [buildPauseBefore, buildWaitBefore, buildWaitAfter, buildFailOn, buildRetry, buildTimeout, buildConcurrency]

end Policy

/-- `build_policies`: the policies of the task, each replaced by the default one if the task has none. -/
def WorkflowSpec.buildPolicies (spec : WorkflowSpec) (ts : TaskSpec) : List Policy :=
  Policy.getPolicyFactories.filterMap fun factory =>
    (factory ts.policies).or (spec.taskDefaults.bind fun d => factory d.policies)

section
variable (o : Oracle) (task : Task)

/-! ### Before a task starts -/

/-- `PauseBeforePolicy.before_task_start`. -/
def pauseBeforeTaskStart (expr : BoolExpr) : M Unit := do
  if (o.task task.id).boolExpr expr then
    setState task.id .idle "Set by 'pause-before' policy"
    pauseWorkflow none

/-- `WaitBeforePolicy.before_task_start`. -/
def waitBeforeTaskStart (delay : NatExpr) : M Unit := do
  let n := (o.task task.id).natExpr delay
  if n = 0 then return
  let e ← taskEx task.id
  if e.runtimeContext.waitBeforeSkip then setState task.id .running none
  else if e.state ≠ .idle then
    setRow task.id (·.mapContext fun c => { c with waitBeforeSkip := true })
    setState task.id .runningDelayed (some ("Delayed by 'wait-before' policy [delay=" ++ toString n ++ "]"))
    schedule (.continueTask task.id)

/-- `TimeoutPolicy.before_task_start`. -/
def timeoutBeforeTaskStart (delay : NatExpr) : M Unit := do
  let n := (o.task task.id).natExpr delay
  if n ≠ 0 then schedule (.failTaskIfIncomplete task.id n)

/-- `ConcurrencyPolicy.before_task_start`. -/
def concurrencyBeforeTaskStart (concurrency : NatExpr) : M Unit := do
  let n := (o.task task.id).natExpr concurrency
  if n ≠ 0 then setRow task.id (·.mapContext fun c => { c with concurrency := some n })

/-- `before_task_start` of a policy. It evaluates and validates the fields of the policy first, but for
    `fail-on`, which does nothing. -/
def Policy.beforeTaskStart (p : Policy) : M Unit :=
  match p with
  | .failOn _ => return
  | p => do
    evaluateAt o (.policy task.id p.kind)
    match p with
    | .pauseBefore expr => pauseBeforeTaskStart o task expr
    | .waitBefore delay => waitBeforeTaskStart o task delay
    | .timeout delay => timeoutBeforeTaskStart o task delay
    | .concurrency n => concurrencyBeforeTaskStart o task n
    | _ => return

/-! ### After a task completes -/

/-- `WaitAfterPolicy.after_task_complete`. -/
def waitAfterTaskComplete (delay : NatExpr) : M Unit := do
  let n := (o.task task.id).natExpr delay
  if n = 0 then return
  let e ← taskEx task.id
  if e.runtimeContext.waitAfterSkip then return
  setRow task.id (·.mapContext fun c => { c with waitAfterSkip := true })
  setState task.id .runningDelayed (some ("Delayed by 'wait-after' policy [delay=" ++ toString n ++ "]"))
  schedule (.completeTask task.id e.state e.stateInfo)

/-- `FailOnPolicy.after_task_complete`. -/
def failOnAfterTaskComplete (failOn : BoolExpr) : M Unit := do
  if (← taskEx task.id).state ≠ .success then return
  if (o.task task.id).boolExpr failOn then setState task.id .error "Failed by 'fail-on' policy"

/-- `RetryPolicy` decides against another attempt. -/
def RetrySpec.stops (r : RetrySpec) (v : Evaluator) (st : State) (retryNo count : Nat) : Bool :=
  let stopContinueFlag := (st == .success && r.continueOn == "") || (r.continueOn != "" && !v.truth r.continueOn)
  let breakTriggered := st == .error && v.clause r.breakOn
  !(retryNo < count) || breakTriggered || stopContinueFlag

/-- The next attempt: a join waits for its logical state again, any other task is continued by a job. -/
def startRetry (r : RetrySpec) : M Unit := do
  let wf := (← get).wf.state
  let msg := "Delayed by 'retry' policy [delay=" ++ toString ((o.task task.id).natExpr r.delay) ++ "]"
  if task.spec.isJoin then
    emit (.retried task.id .waiting wf)
    setState task.id .waiting msg
    scheduleRefreshTaskState task.id
  else
    emit (.retried task.id .runningDelayed wf)
    setState task.id .runningDelayed msg
    schedule (.continueTask task.id)

/-- `RetryPolicy.after_task_complete`. A policy that stops leaves `retry_no` in the row: the column does not notice that it
    is deleted from the context of the policy. -/
def retryAfterTaskComplete (r : RetrySpec) : M Unit := do
  let count := (o.task task.id).natExpr r.count
  if count = 0 then return
  let e ← taskEx task.id
  if !e.state.isCompleted || e.state.isCancelled then return
  let retryNo := e.runtimeContext.retryNo.getD 0
  if r.stops (o.outbound task.id) e.state retryNo count then return
  setRow task.id fun e => e.invalidateResult.mapContext fun c => { c with retryNo := some (retryNo + 1) }
  startRetry o task r

/-- `after_task_complete` of a policy: every policy evaluates and validates its fields. -/
def Policy.afterTaskComplete (p : Policy) : M Unit := do
  evaluateAt o (.policy task.id p.kind)
  match p with
  | .waitAfter delay => waitAfterTaskComplete o task delay
  | .failOn expr => failOnAfterTaskComplete o task expr
  | .retry r => retryAfterTaskComplete o task r
  | _ => return

end

section
variable (spec : WorkflowSpec) (o : Oracle) (task : Task)

/-- `_before_task_start`. -/
def beforeTaskStart : M Unit := (spec.buildPolicies task.spec).forM (·.beforeTaskStart o task)

/-- `_after_task_complete`. -/
def afterTaskComplete : M Unit := (spec.buildPolicies task.spec).forM (·.afterTaskComplete o task)

end
end Mistral
