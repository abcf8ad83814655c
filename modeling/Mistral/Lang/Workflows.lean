import Mathlib.Data.List.Nodup

/-! Specifications of direct workflows (`mistral/lang/v2/`): on-clauses, joins, policies, and the task
    graph that the on-clauses span. -/

namespace Mistral

/-! ### Tasks -/

/-- One entry of `OnClauseSpec.get_next()`: the next task or engine command, its condition (`""` when
    there is none) and its parameters. -/
structure Transition where
  name : String
  cond : String := ""
  params : List (String × String) := []
  deriving DecidableEq, Repr

/-- The on-clause that a transition belongs to; it names the event that triggers the next task. -/
inductive Clause
  | onError
  | onSkip
  | onSuccess
  | onComplete
  deriving DecidableEq, Repr

/-- The value of a `join` property that is set: a number 0 counts as no join. -/
inductive Join
  | all
  | one
  | number (n : Int)
  deriving DecidableEq, Repr

/-- A number of a policy, or an expression that evaluates to one. -/
inductive NatExpr
  | lit (n : Nat)
  | expr (e : String)
  deriving DecidableEq, Repr

/-- A flag of a policy, or an expression that evaluates to one. -/
inductive BoolExpr
  | lit (b : Bool)
  | expr (e : String)
  deriving DecidableEq, Repr

/-- `RetrySpec`; an absent clause is the empty expression. -/
structure RetrySpec where
  count : NatExpr
  delay : NatExpr
  breakOn : String := ""
  continueOn : String := ""
  deriving DecidableEq, Repr

/-- `PoliciesSpec` with its defaults. -/
structure PoliciesSpec where
  retry : Option RetrySpec := none
  waitBefore : NatExpr := .lit 0
  waitAfter : NatExpr := .lit 0
  timeout : NatExpr := .lit 0
  pauseBefore : BoolExpr := .lit false
  concurrency : NatExpr := .lit 0
  failOn : BoolExpr := .lit false
  deriving DecidableEq, Repr

/-- `DirectWorkflowTaskSpec`: each on-clause is the list that its `get_next()` returns, empty when the
    task does not have the clause. `workflow` says that the task runs a sub-workflow. -/
structure TaskSpec where
  name : String
  join : Option Join := none
  onError : List Transition := []
  onSkip : List Transition := []
  onSuccess : List Transition := []
  onComplete : List Transition := []
  policies : PoliciesSpec := {}
  withItems : Bool := false
  workflow : Bool := false
  keepResult : Bool := true
  deriving DecidableEq, Repr

/-- `get_join()` of a task is set. -/
def TaskSpec.isJoin (t : TaskSpec) : Bool := t.join.isSome

/-- `TaskDefaultsSpec`: on-clauses and policies for the tasks that do not have their own. -/
structure TaskDefaultsSpec where
  onError : List Transition := []
  onSkip : List Transition := []
  onSuccess : List Transition := []
  onComplete : List Transition := []
  policies : PoliciesSpec := {}
  deriving DecidableEq, Repr

/-! ### Workflows -/

/-- `DirectWorkflowSpec`. Tasks are the values of a dictionary, so their names are distinct. -/
structure WorkflowSpec where
  tasks : List TaskSpec
  taskDefaults : Option TaskDefaultsSpec := none
  nodup : (tasks.map (·.name)).Nodup := by decide

namespace WorkflowSpec
variable (spec : WorkflowSpec)

/-- `get_tasks()[name]`, which is `None` for an unknown name. -/
def getTask (name : String) : Option TaskSpec := spec.tasks.find? (·.name == name)

/-- `_remove_task_from_clause`. -/
def removeTaskFromClause (clause : List Transition) (name : String) : List Transition :=
  clause.filter (·.name != name)

/-- What `get_on_error_clause` and its siblings share: the task's own clause, or else the default one
    without the transitions to the task itself. -/
def getClause (own : TaskSpec → List Transition) (default : TaskDefaultsSpec → List Transition) (t : TaskSpec) :
    List Transition :=
  match own t with
  | [] =>
    match spec.taskDefaults with
    | none => []
    | some d => removeTaskFromClause (default d) t.name
  | clause => clause

/-- `get_on_error_clause`. -/
def getOnErrorClause : TaskSpec → List Transition := spec.getClause (·.onError) (·.onError)

/-- `get_on_skip_clause`. -/
def getOnSkipClause : TaskSpec → List Transition := spec.getClause (·.onSkip) (·.onSkip)

/-- `get_on_success_clause`. -/
def getOnSuccessClause : TaskSpec → List Transition := spec.getClause (·.onSuccess) (·.onSuccess)

/-- `get_on_complete_clause`. -/
def getOnCompleteClause : TaskSpec → List Transition := spec.getClause (·.onComplete) (·.onComplete)

/-- `find_outbound_task_names`. -/
def findOutboundTaskNames (t : TaskSpec) : List String :=
  (spec.getOnErrorClause t ++ spec.getOnSuccessClause t ++ spec.getOnCompleteClause t ++
    spec.getOnSkipClause t).map (·.name)

/-- `transition_exists`. -/
def transitionExists (src : TaskSpec) (dst : String) : Bool := dst ∈ spec.findOutboundTaskNames src

/-- `find_inbound_task_specs`. -/
def findInboundTaskSpecs (t : TaskSpec) : List TaskSpec := spec.tasks.filter (spec.transitionExists · t.name)

/-- `has_inbound_transitions`. -/
def hasInboundTransitions (t : TaskSpec) : Bool := !(spec.findInboundTaskSpecs t).isEmpty

/-- `find_start_tasks`. -/
def findStartTasks : List TaskSpec := spec.tasks.filter fun t => !spec.hasInboundTransitions t

/-! ### The task graph -/

/-- `src` names `dst` in one of its on-clauses. -/
def Edge (src dst : TaskSpec) : Prop := src ∈ spec.tasks ∧ dst ∈ spec.tasks ∧ spec.transitionExists src dst.name

variable {spec}

@[simp] theorem mem_findInboundTaskSpecs {t u : TaskSpec} :
    u ∈ spec.findInboundTaskSpecs t ↔ u ∈ spec.tasks ∧ spec.transitionExists u t.name := by
  simp [findInboundTaskSpecs]

theorem edge_iff {t u : TaskSpec} (ht : t ∈ spec.tasks) : spec.Edge u t ↔ u ∈ spec.findInboundTaskSpecs t := by
  simp [Edge, ht]

theorem getTask_eq_some {name : String} {t : TaskSpec} (h : spec.getTask name = some t) :
    t ∈ spec.tasks ∧ t.name = name :=
  ⟨List.mem_of_find?_eq_some h, by simpa using List.find?_some h⟩

/-- Names determine tasks. -/
theorem eq_of_name {t u : TaskSpec} (ht : t ∈ spec.tasks) (hu : u ∈ spec.tasks) (h : t.name = u.name) : t = u :=
  List.inj_on_of_nodup_map spec.nodup ht hu h

theorem getTask_of_mem {t : TaskSpec} (ht : t ∈ spec.tasks) : spec.getTask t.name = some t := by
  cases hf : spec.getTask t.name with
  | none =>
    have := List.find?_eq_none.mp hf t ht
    simp at this
  | some u =>
    obtain ⟨hu, hn⟩ := getTask_eq_some hf
    rw [eq_of_name hu ht hn]

end WorkflowSpec
end Mistral
