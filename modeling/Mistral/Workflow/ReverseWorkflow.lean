import Mathlib.Data.List.Dedup
import Mathlib.Logic.Relation
import Mistral.Workflow.States

/-! Reverse workflows: tasks with requirements, and a target (`ReverseWorkflowSpec` in `mistral/lang/v2/workflows.py`,
    `mistral/workflow/reverse_workflow.py`). -/

namespace Mistral

/-- `ReverseWorkflowTaskSpec`. -/
structure ReverseTaskSpec where
  name : String
  requires : List String := []
  deriving DecidableEq, Repr

/-- `ReverseWorkflowSpec`; `defaultRequires` is the entry `requires` of its task defaults. -/
structure ReverseWorkflowSpec where
  tasks : List ReverseTaskSpec
  defaultRequires : List String := []
  deriving DecidableEq, Repr

namespace ReverseWorkflowSpec
variable (spec : ReverseWorkflowSpec)

/-- `get_task`. -/
def getTask (name : String) : Option ReverseTaskSpec := spec.tasks.find? (·.name = name)

/-- `get_task_requires`. -/
def getTaskRequires (name : String) : List String :=
  match spec.getTask name with
  | some t => ((t.requires ++ spec.defaultRequires).dedup).filter (· ≠ name)
  | none => []

/-- `_check_workflow_integrity`. -/
def checkWorkflowIntegrity : Bool :=
  spec.tasks.all fun t => (spec.getTaskRequires t.name).all fun req => (spec.getTask req).isSome

/-- An edge of the graph of `_build_graph`, reversed. -/
def Requires (name req : String) : Prop := req ∈ spec.getTaskRequires name

end ReverseWorkflowSpec

/-- A valid specification with a target. `order` is what `dfs_postorder_nodes` gives for it: every task that can be
    reached from the target, once. -/
structure ReverseWorkflow where
  spec : ReverseWorkflowSpec
  valid : spec.checkWorkflowIntegrity
  target : String
  exists_target : (spec.getTask target).isSome
  order : List String
  nodup_order : order.Nodup
  mem_order : ∀ name, name ∈ order ↔ Relation.ReflTransGen spec.Requires target name

/-- A list that has the target and the requirements of its tasks has all tasks that can be reached. -/
theorem ReverseWorkflowSpec.mem_of_closed {spec : ReverseWorkflowSpec} {target name : String} {l : List String}
    (htarget : target ∈ l) (hclosed : ∀ n ∈ l, ∀ req ∈ spec.getTaskRequires n, req ∈ l)
    (h : Relation.ReflTransGen spec.Requires target name) : name ∈ l := by
  induction h with
  | refl => exact htarget
  | tail _ hreq ih => exact hclosed _ ih _ hreq

end Mistral
