import Mathlib.Data.List.Nodup
import Mistral.Engine.WorkflowNames
import Mistral.Lib.System

/-! Starting sub-workflows, in the process of the engine or over RPC: `WorkflowAction.schedule`
    (`mistral/engine/actions.py`), `start_workflow` (`mistral/engine/workflow_handler.py`,
    `mistral/engine/default_engine.py`) and `_create_execution` (`mistral/engine/workflows.py`). -/

namespace Mistral
namespace SubWorkflows

/-- A value of an input or parameter dictionary. -/
inductive Param
  | null
  | text (s : String)
  | int (n : Int)
  | other (json : String)
  deriving DecidableEq, Repr

/-- A dictionary. The first value of a key counts. -/
abbrev Params := List (String × Param)

/-- A workflow definition, with the names of its input and their defaults, where they have one. -/
structure Definition where
  input : List (String × Option Param)
  deriving DecidableEq, Repr

/-- The definitions by namespace and name. -/
abbrev Definitions := String → String → Option Definition

/-- A row of `TaskExecution`. -/
structure TaskRow where
  id : String
  workflowExecution : String
  deriving DecidableEq, Repr

/-- What `WorkflowAction.schedule` was called with. -/
structure Origin where
  task : String
  index : Nat
  deriving DecidableEq, Repr

/-- A row of `WorkflowExecution`. The fields `input` and `params` have what is not kept in columns; `origin` is there for
    proofs only. -/
structure Execution where
  id : String
  taskExecutionId : Option String := none
  rootExecutionId : Option String := none
  index : Param := .int 0
  input : Params := []
  params : Params
  origin : Option Origin := none
  deriving DecidableEq, Repr

/-- `params['namespace']`. -/
def Execution.ns (e : Execution) : Option Param := e.params.lookup "namespace"

/-- The arguments of `start_workflow` for a sub-workflow. -/
structure Request where
  definition : Definition
  wfNamespace : String
  input : Params
  params : Params
  rpc : Bool
  origin : Origin
  deriving DecidableEq, Repr

/-- The rows, and the messages that are on the way. -/
structure Engine where
  executions : List Execution := []
  tasks : List TaskRow := []
  requests : List Request := []
  deriving DecidableEq, Repr

namespace Engine

/-- `get_workflow_execution`. -/
def execution? (s : Engine) (id : String) : Option Execution := s.executions.find? (·.id == id)

/-- `get_task_execution`. -/
def task? (s : Engine) (id : String) : Option TaskRow := s.tasks.find? (·.id == id)

end Engine

/-! ### Scheduling -/

section
variable (defs : Definitions)

/-- `load_workflow_definition`: a definition of the namespace comes before one of the default namespace. -/
def loadWorkflowDefinition (name ns : String) : Option (String × Definition) :=
  ((defs ns name).map (ns, ·)).or ((defs "" name).map ("", ·))

/-- `resolve_workflow_definition`. The names are those that the child may have: within the workbook of the parent, and its own. -/
def resolveWorkflowDefinition (ns : String) (names : List String) : Option (String × Definition) :=
  names.findSome? fun name => loadWorkflowDefinition defs name ns

/-- The definitions that are stored in rows. -/
def definitionsOf (rows : List Workbooks.WorkflowDefinition) (parse : String → Definition) : Definitions := fun ns name =>
  (Workbooks.findDefinition rows name ns).map fun d => parse d.definition

theorem loadWorkflowDefinition_rows (rows : List Workbooks.WorkflowDefinition) (parse : String → Definition)
    (name ns : String) : loadWorkflowDefinition (definitionsOf rows parse) name ns =
      (Workbooks.loadWorkflowDefinition rows name ns).map fun d => (d.ns, parse d.definition) := by
  have hfound : ∀ ns, ((definitionsOf rows parse ns name).map (ns, ·)) =
      (Workbooks.findDefinition rows name ns).map fun d => (d.ns, parse d.definition) := by
    intro ns
    unfold definitionsOf
    cases hfind : Workbooks.findDefinition rows name ns with
    | none => rfl
    | some d =>
      have hns : d.name = name ∧ d.ns = ns := by simpa using List.find?_some hfind
      simp [hns.2]
  rw [loadWorkflowDefinition, hfound, hfound, Workbooks.loadWorkflowDefinition, Option.map_or]

/-- The definition of a sub-workflow is looked up under its name in the workbook of the parent first. -/
theorem resolveWorkflowDefinition_rows (rows : List Workbooks.WorkflowDefinition) (parse : String → Definition)
    (parentWfName parentWfSpecName ns wfSpecName : String) :
    resolveWorkflowDefinition (definitionsOf rows parse) ns
        ((if parentWfName ≠ parentWfSpecName then
          [Workbooks.fullName (Workbooks.stripName parentWfName parentWfSpecName) wfSpecName] else []) ++ [wfSpecName]) =
      (Workbooks.resolveWorkflowDefinition rows parentWfName parentWfSpecName ns wfSpecName).toOption.map fun d =>
        (d.ns, parse d.definition) := by
  rw [Workbooks.toOption_resolveWorkflowDefinition, Option.map_or, resolveWorkflowDefinition, List.findSome?_append]
  split <;> simp [loadWorkflowDefinition_rows]

/-- `parent_wf_ex.root_execution_id or parent_wf_ex.id`. -/
def rootOf (parent : Execution) : String :=
  match parent.rootExecutionId with
  | some id => if id = "" then parent.id else id
  | none => parent.id

/-- The definition declares an input parameter of this name. -/
def Definition.declares (d : Definition) (key : String) : Bool := d.input.any (·.1 == key)

/-- The parameters for the child, before its input is looked at. -/
def baseParams (parent : Execution) (o : Origin) : Params :=
  [("root_execution_id", .text (rootOf parent)), ("task_execution_id", .text o.task), ("index", .int o.index)] ++
    (parent.ns.map ("namespace", ·)).toList ++ ((parent.params.lookup "notify").map ("notify", ·)).toList

/-- The arguments that `start_workflow` of the client and of the engine have names for. -/
def argumentNames : List String :=
  ["self", "wf_identifier", "wf_namespace", "wf_ex_id", "wf_input", "description", "async_"]

/-- `WorkflowAction.schedule`: keys of the input that the child does not declare become parameters. Over RPC these are keyword
    arguments, and must not have the name of another argument. -/
def schedule (s : Engine) (rpc : Bool) (o : Origin) (names : List String) (input : Params) : Option Request := do
  let task ← s.task? o.task
  let parent ← s.execution? task.workflowExecution
  match parent.ns with
  | some (.text ns) =>
    let (childNs, child) ← resolveWorkflowDefinition defs ns names
    let undeclared := input.filter fun e => !child.declares e.1
    if rpc ∧ undeclared.any (argumentNames.contains ·.1) then none
    else
      some { definition := child, wfNamespace := childNs, input := input.filter fun e => child.declares e.1,
             params := undeclared ++ baseParams parent o, rpc := rpc, origin := o }
  | _ => none

end

/-! ### Starting -/

/-- A column with a foreign key takes nothing, or the id of a row. -/
def foreignKey (ids : List String) : Option Param → Option (Option String)
  | none | some .null => some none
  | some (.text id) => if id ∈ ids then some (some id) else none
  | some _ => none

/-- `prepare_input`. -/
def prepareInput (d : Definition) (input : Params) : Params :=
  input ++ d.input.filterMap fun (key, default) => default.map (key, ·)

/-- `validate_input`: no input without a default is missing. -/
def validateInput (d : Definition) (input : Params) : Bool :=
  d.input.all fun (key, default) => default.isSome || (input.lookup key).isSome

/-- The parameters that reach `Workflow.start`. The engine writes the namespace of the definition over that of a message. -/
def Request.startParams (r : Request) : Params :=
  if r.rpc ∧ r.wfNamespace ≠ "" then ("namespace", .text r.wfNamespace) :: r.params else r.params

/-- `_create_execution`, and what `start` does before it. -/
def start (s : Engine) (r : Request) (id : String) : Option Execution := do
  if !validateInput r.definition r.input then none
  let task ← foreignKey (s.tasks.map (·.id)) (r.startParams.lookup "task_execution_id")
  let root ← foreignKey (s.executions.map (·.id)) (r.startParams.lookup "root_execution_id")
  return { id := id, taskExecutionId := task, rootExecutionId := root, index := (r.startParams.lookup "index").getD (.int 0),
           input := prepareInput r.definition r.input, params := r.startParams, origin := some r.origin }

/-! ### Runs -/

/-- What happens: a workflow is started over the API, a task is created, a sub-workflow is scheduled, a message is delivered. -/
inductive Event
  | startRoot (id wfNamespace defNamespace : String) (params : Params)
  | createTask (id workflowExecution : String)
  | schedule (rpc : Bool) (o : Origin) (names : List String) (input : Params) (id : String)
  | deliver (n : Nat) (id : String)
  deriving Repr

/-- The id of a new row. -/
def isNew (ids : List String) (id : String) : Bool := id ≠ "" && !ids.contains id

/-- The parameters that reach `Workflow.start` from a request to the API, with the namespace of the request and that of the
    definition. -/
def rootParams (wfNamespace defNamespace : String) (params : Params) : Params :=
  if wfNamespace ≠ "" then ("namespace", .text wfNamespace) :: params
  else if (params.lookup "namespace").isSome then params
  else ("namespace", .text defNamespace) :: params

/-- A workflow that is started by a request to the API. Its parameters are keyword arguments of the message, and
    `_create_execution` takes the links from them as for a sub-workflow. The root may be the new row itself. -/
def rootExecution (s : Engine) (id wfNamespace defNamespace : String) (params : Params) : Option Execution :=
  if params.any (argumentNames.contains ·.1) then none
  else do
    let startParams := rootParams wfNamespace defNamespace params
    let task ← foreignKey (s.tasks.map (·.id)) (startParams.lookup "task_execution_id")
    let root ← foreignKey (id :: s.executions.map (·.id)) (startParams.lookup "root_execution_id")
    return { id, taskExecutionId := task, rootExecutionId := root, index := (startParams.lookup "index").getD (.int 0),
             params := startParams }

/-- A row is added, if there is one. -/
def Engine.add (s : Engine) (e : Option Execution) : Engine :=
  match e with
  | some e => if isNew (s.executions.map (·.id)) e.id then { s with executions := e :: s.executions } else s
  | none => s

/-- The state after an event. What fails leaves it as it was. -/
def step (defs : Definitions) (s : Engine) : Event → Engine
  | .startRoot id wfNamespace defNamespace params => s.add (rootExecution s id wfNamespace defNamespace params)
  | .createTask id ex => if isNew (s.tasks.map (·.id)) id then { s with tasks := ⟨id, ex⟩ :: s.tasks } else s
  | .schedule rpc o names input id =>
    match schedule defs s rpc o names input with
    | none => s
    | some r => if rpc then { s with requests := s.requests ++ [r] } else s.add (start s r id)
  | .deliver n id =>
    match s.requests[n]? with
    | none => s
    | some r => { s.add (start s r id) with requests := s.requests.eraseIdx n }

/-- Sub-workflows from an empty database. -/
def system (defs : Definitions) : System Engine Event where
  init s := s = {}
  step := step defs

end SubWorkflows
end Mistral
