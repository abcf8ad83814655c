import Mathlib.Logic.Relation
import Mistral.Lang.Workflows

/-! The validation of direct workflows (`validate_semantics` in `mistral/lang/v2/workflows.py`). -/

namespace Mistral

/-- `DSLParsingException` and `InvalidModelException`. -/
inductive SpecError
  | dslParsing (msg : String)
  | invalidModel (msg : String)
  deriving DecidableEq, Repr

/-- `ENGINE_COMMANDS`. -/
def engineCommands : List String := ["noop", "fail", "succeed", "pause"]

namespace WorkflowSpec
variable (spec : WorkflowSpec)

/-- `_validate_task_link`. -/
def validateTaskLink (name : String) : Except SpecError Unit :=
  if (spec.getTask name).isSome || name ∈ engineCommands then return
  else throw (.invalidModel ("Task '" ++ name ++ "' not found."))

/-- `_check_workflow_integrity`. -/
def checkWorkflowIntegrity : Except SpecError Unit :=
  spec.tasks.forM fun t => (spec.findOutboundTaskNames t).forM spec.validateTaskLink

/-- The message for a join with fewer inbound tasks than it asks for. -/
def notEnoughInbound (t : TaskSpec) (join : Int) : Option String :=
  let ins := (spec.findInboundTaskSpecs t).length
  if (ins : Int) < join then
    some ("Not enough inbound tasks for task with 'join' [task_name=" ++ t.name ++ ", join=" ++ toString join ++
      ", inbound_tasks=" ++ toString ins ++ "]")
  else none

/-- The messages of `_check_join_tasks`. -/
def joinError (t : TaskSpec) : Option String :=
  match t.join with
  | none => none
  | some .all =>
    if spec.findInboundTaskSpecs t = [] then
      some ("No inbound tasks for task with 'join: all' [task_name=" ++ t.name ++ "]")
    else none
  | some .one => spec.notEnoughInbound t 1
  | some (.number n) => spec.notEnoughInbound t n

/-- `_check_join_tasks`. -/
def checkJoinTasks : Except SpecError Unit :=
  match spec.tasks.filterMap spec.joinError with
  | [] => return
  | msgs => throw (.invalidModel ("\n".intercalate msgs))

/-- `validate_semantics` of a workflow with this name. -/
def validateSemantics (name : String) : Except SpecError Unit := do
  if spec.findStartTasks = [] then
    throw (.dslParsing ("Failed to find start tasks in direct workflow. There must be at least one task without " ++
      "inbound transition.[workflow_name=" ++ name ++ "]"))
  spec.checkWorkflowIntegrity
  spec.checkJoinTasks

/-- The specification passes validation. -/
def Accepted (name : String) : Prop := spec.validateSemantics name = .ok ()

/-- No task comes, over transitions, before itself. -/
def Acyclic : Prop := ∀ t, ¬Relation.TransGen spec.Edge t t

end WorkflowSpec
end Mistral
