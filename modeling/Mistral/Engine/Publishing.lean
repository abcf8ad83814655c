import Mistral.Engine.RegularRuns
import Mistral.Lib.Contents

/-! The completion of a task with what it publishes (`Task.complete` and `publish_variables`), and the policy `wait-after`,
    which runs it twice. -/

namespace Mistral

/-- What an expression reads: what `task()` shows, and the contexts. -/
structure Seen where
  state : State
  stateInfo : Option String
  result : TaskEx.Result
  published : Contents
  inContext : Contents
  context : Contents

/-- The publish section for one state. An expression without a value raises a `MistralException`. -/
structure Publish where
  branch : Seen → Option Contents
  globals : Seen → Option Dict

/-- A task: `publish` is its `get_publish`, and `exprs` has the values of all other expressions. The upstream executions
    give it `inbound`. -/
structure PublishingSpec where
  regular : RegularSpec
  withItems : Bool := false
  publish : State → Option Publish
  exprs : Seen → Oracle
  inbound : Contents

/-- The task without the policy `wait-after`. -/
def PublishingSpec.withoutWaitAfter (spec : PublishingSpec) : PublishingSpec :=
  { spec with regular := { spec.regular with policies := spec.regular.policies.filter fun p => p.kind != .waitAfter } }

/-- A task execution, and the global context of its workflow: as the transaction has it, and as the database has it. The
    column is written if a key of it was assigned. -/
structure PublishingRun where
  run : RegularRun
  published : Contents
  inContext : Contents
  stored : Contents
  context : Contents := stored
  contextSet : Bool := false

namespace PublishingRun
variable (spec : PublishingSpec) (s : PublishingRun)

/-- What an expression sees of the task. -/
def seen : Seen where
  state := s.run.task.state
  stateInfo := s.run.task.stateInfo
  result := s.run.task.getTaskExecutionResult spec.withItems
  published := s.published
  inContext := s.inContext
  context := s.context

/-- `set_state`. -/
def setState (st : State) (info : Option String) : PublishingRun := { s with run := s.run.setState st info none }

/-- `_update_inbound_context`. -/
def updateInboundContext : PublishingRun := { s with inContext := s.inContext.update spec.inbound }

/-- `publish_variables`, and whether an expression has no value. -/
def publishVariables : PublishingRun × Bool :=
  if s.run.task.state ∈ [State.success, .error, .skipped] then
    match spec.publish s.run.task.state with
    | none => (s, false)
    | some publish =>
      match publish.branch (s.seen spec) with
      | none => (s, true)
      | some vars =>
        let s := { s with published := vars }
        match publish.globals (s.seen spec) with
        | none => (s, true)
        | some vars =>
          -- `merge_dicts` works in place: a merge into nested dictionaries alone is not noticed.
          let contextSet := s.contextSet || s.context.setsKey vars
          ({ s with context := s.context.merge (.ofDict vars), contextSet }, false)
  else (s, false)

/-- What `keep-result: false` does to the results of actions. -/
def dropResult : PublishingRun :=
  if spec.regular.keepResult || spec.regular.subworkflow then s else { s with run := s.run.mapTask (·.destroyResult) }

/-- `_after_task_complete`. -/
def afterTaskComplete : List Policy → PublishingRun → PublishingRun × Bool
  | [], s => (s, false)
  | p :: ps, s =>
    let o := spec.exprs (s.seen spec)
    if o.raises (.policy 0 p.kind) then (s, true)
    else afterTaskComplete ps { s with run := s.run.afterTaskComplete spec.regular o p }

/-- What follows the publishing: the policies, and the on-clauses of a task that is not delayed. -/
def goOn : PublishingRun × Bool :=
  let (s', raised) := afterTaskComplete spec spec.regular.policies s
  (s', raised || s'.run.task.state != .runningDelayed && (spec.exprs (s'.seen spec)).raises (.transitions 0))

/-- `Task.complete`, without the commands that follow. -/
def complete (st : State) (info : Option String) : PublishingRun × Bool :=
  if s.run.task.state.isCompleted && !st.isSkipped then (s, false)
  else
    let (s, raised) := ((s.setState st info).updateInboundContext spec).publishVariables spec
    if raised then (s, true)
    else if st.isSkipped then
      let s := s.dropResult spec
      (s, (spec.exprs (s.seen spec)).raises (.transitions 0))
    else (s.dropResult spec).goOn spec

/-- What the handlers do after a `MistralException`. -/
def handling (what : String) (r : PublishingRun × Bool) : PublishingRun :=
  if r.2 then r.1.setState .error (what ++ "Can not evaluate expression") else r.1

/-- A transaction reads the context. -/
def load : PublishingRun := { s with context := s.stored, contextSet := false }

/-- It writes the context if it has noticed a change. -/
def commit : PublishingRun := { s with stored := if s.contextSet then s.context else s.stored }

/-- A handler completes the task in a transaction of its own. -/
def completes (st : State) (info : Option String) : PublishingRun :=
  (handling "Failed to complete task: " (s.load.complete spec st info)).commit

/-- The call of `complete_task` that the completion has scheduled. -/
def scheduled (s' : PublishingRun) : Option (State × Option String) :=
  (s'.run.jobs.drop s.run.jobs.length).findSome? fun
    | .completeTask _ st info => some (st, info)
    | _ => none

/-- The task completes, and so does the call that it may have scheduled. Nothing else runs in between. -/
def completesInTurn (st : State) (info : Option String) : PublishingRun :=
  let s' := s.completes spec st info
  match s.scheduled s' with
  | some (st, info) => s'.completes spec st info
  | none => s'

end PublishingRun
end Mistral
