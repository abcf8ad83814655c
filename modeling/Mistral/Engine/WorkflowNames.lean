import Mistral.Lang.Base
import Mistral.Lib.Lines

/-! Names of workflows in workbooks: what the schema allows (`mistral/lang/v2/workbook.py`), how the definitions are named
    (`mistral/services/workbooks.py`), and how the definition of a sub-workflow is found
    (`resolve_workflow_definition` in `mistral/engine/utils.py`). -/

namespace Mistral
namespace Workbooks

/-- `NON_VERSION_WORD_REGEX`. The end of the pattern matches before a line break at the end of the text, too. -/
def nonVersionWord (classes : CharClasses) (name : String) : Bool :=
  let word := if name.toList.getLast? = some '\n' then name.toList.dropLast else name.toList
  word ≠ [] && word.all (fun c => classes.word c || c == '-') && word ≠ "version".toList

/-- A row of `WorkflowDefinition`. -/
structure WorkflowDefinition where
  name : String
  ns : String := ""
  definition : String := ""
  deriving DecidableEq, Repr

/-- `'%s.%s' % (wb_name, wf_name)`. -/
def fullName (wbName wfName : String) : String := wbName ++ "." ++ wfName

section
variable (rows : List WorkflowDefinition)

/-- The definition of a name in a namespace. -/
def findDefinition (name ns : String) : Option WorkflowDefinition := rows.find? fun d => d.name == name && d.ns == ns

/-- `load_workflow_definition`: a definition of the namespace comes before one of the default namespace. -/
def loadWorkflowDefinition (name ns : String) : Option WorkflowDefinition :=
  (findDefinition rows name ns).or (findDefinition rows name "")

/-- `create_or_update_workflow_definition`. -/
def createOrUpdateWorkflowDefinition (d : WorkflowDefinition) : List WorkflowDefinition :=
  if (findDefinition rows d.name d.ns).isSome then
    rows.map fun row => if row.name = d.name ∧ row.ns = d.ns then d else row
  else rows ++ [d]

/-- `_create_or_update_workflows`, with the names and the definitions of the workflows. -/
def createOrUpdateWorkflows (wbName ns : String) (workflows : List (String × String)) : List WorkflowDefinition :=
  workflows.foldl (fun rows (wfName, definition) =>
    createOrUpdateWorkflowDefinition rows { name := fullName wbName wfName, ns, definition }) rows

/-- `s.rstrip(chars)[:-1]`. -/
def stripName (s chars : String) : String := String.ofList (Lines.rstrip (· ∈ chars.toList) s.toList).dropLast

/-- `resolve_workflow_definition`. -/
def resolveWorkflowDefinition (parentWfName parentWfSpecName ns wfSpecName : String) :
    Except String WorkflowDefinition :=
  let inWorkbook :=
    if parentWfName ≠ parentWfSpecName then
      loadWorkflowDefinition rows (fullName (stripName parentWfName parentWfSpecName) wfSpecName) ns
    else none
  match inWorkbook.or (loadWorkflowDefinition rows wfSpecName ns) with
  | some d => .ok d
  | none => .error ("Failed to find workflow [name=" ++ wfSpecName ++ "] [namespace=" ++ ns ++ "]")

theorem toOption_resolveWorkflowDefinition {parentWfName parentWfSpecName ns wfSpecName : String} :
    (resolveWorkflowDefinition rows parentWfName parentWfSpecName ns wfSpecName).toOption =
      (if parentWfName ≠ parentWfSpecName then
        loadWorkflowDefinition rows (fullName (stripName parentWfName parentWfSpecName) wfSpecName) ns
      else none).or (loadWorkflowDefinition rows wfSpecName ns) := by
  unfold resolveWorkflowDefinition
  dsimp only
  split
  next d hd => exact hd.symm
  next hnone => exact hnone.symm

end
end Workbooks
end Mistral
