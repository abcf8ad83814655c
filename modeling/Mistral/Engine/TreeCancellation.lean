import Mistral.Engine.WorkflowTrees

/-! Cancelling a tree of workflow executions (`stop_workflow` in `mistral/engine/workflow_handler.py` and
    `_cancel_workflow` in `mistral/engine/workflows.py`). -/

namespace Mistral

/-- The workflow executions, and those that have registered a result for their parent task. -/
structure Cancellation (ω : Type) where
  wf : ω → WorkflowNode
  results : List ω := []

namespace Cancellation
variable {ω : Type} [DecidableEq ω] (tree : WorkflowTree ω) (msg : String)

/-- `_cancel_workflow`. -/
def cancelWorkflow (x : ω) (s : Cancellation ω) : Except String (Cancellation ω) :=
  if (s.wf x).state.isCompleted then .ok s
  else if (s.wf x).state.isValidTransition .cancelled then
    .ok {
      wf := Function.update s.wf x { s.wf x with state := .cancelled, output := some msg }
      results := if (tree.parent x).isSome then s.results ++ [x] else s.results }
  else .error ("Can't change workflow execution state from " ++ (s.wf x).state.name ++ " to CANCELLED")

/-- `stop_workflow` with the state `CANCELLED`, in a tree of the given height. -/
def stopWithin : Nat → ω → Cancellation ω → Except String (Cancellation ω)
  | 0, x, s => s.cancelWorkflow tree msg x
  | n + 1, x, s => do
    let s ← s.cancelWorkflow tree msg x
    (tree.subs x).foldlM (fun s c => if (s.wf c).state.isCompleted then return s else stopWithin n c s) s

/-- `cancel_workflow`. -/
def stopWorkflow (x : ω) (s : Cancellation ω) : Except String (Cancellation ω) :=
  stopWithin tree msg (tree.height x) x s

end Cancellation
end Mistral
