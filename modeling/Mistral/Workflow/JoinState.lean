import Mathlib.Algebra.GroupWithZero.Nat
import Mistral.Workflow.DirectWorkflow

/-! The logical state of a join (`_get_join_logical_state` and what it calls in
    `mistral/workflow/direct_workflow.py`): a classification of its inbound tasks, and a count. -/

namespace Mistral

/-- `base.TaskLogicalState`. -/
structure LogicalState where
  state : State
  stateInfo : Option String := none
  cardinality : Int := 0
  triggeredBy : List Trigger := []
  deriving DecidableEq, Repr

/-- The dictionary `t_execs_cache`: from the names that were looked up to what was found. -/
abbrev Cache := List (String × Option (TaskId × TaskEx))

/-- A computation that reads and extends the cache. -/
abbrev CacheM := StateT Cache (Except Exc)

/-- `t_execs_cache.get(name)`. -/
def Cache.find (c : Cache) (name : String) : Option (TaskId × TaskEx) := (c.lookup name).join

/-- `MAX_SEARCH_DEPTH`. -/
def maxSearchDepth : Nat := 5

section
variable (spec : WorkflowSpec) (rows : List (TaskId × TaskEx))

/-- `_find_all_parent_task_names`, with the number of levels that are left instead of the depth; `top` says
    that the search is at its first level. -/
def findAllParentTaskNames : Nat → Bool → TaskSpec → List String
  | 0, _, t => [t.name]
  | left + 1, top, t =>
    match spec.findInboundTaskSpecs t with
    | [] => [t.name]
    | ins => (ins.flatMap (findAllParentTaskNames left false)) ++ if top then [] else [t.name]

/-- `_prepare_task_executions_cache`. -/
def prepareTaskExecutionsCache (t : TaskSpec) : Cache :=
  (findAllParentTaskNames spec (maxSearchDepth - 1) true t).map fun name => (name, lastNamed rows name)

/-- `[t[0] for t in t_ex.next_tasks]`. -/
def nextTaskNames (e : TaskEx) : Except Exc (List String) :=
  match e.nextTasks with
  | some next => return next.map (·.1)
  | none => throw (.other "'NoneType' object is not iterable")

theorem nextTaskNames_of_some {e : TaskEx} {next : List (String × Option TriggerEvent)} (h : e.nextTasks = some next) :
    nextTaskNames e = .ok (next.map (·.1)) := by
  rw [nextTaskNames, h]
  rfl

/-- The execution of `u`, after the cache was extended by the parents of `t` if need be. -/
def cachedExecution (t u : TaskSpec) : CacheM (Option (TaskId × TaskEx)) := do
  if ((← get).lookup u.name).isNone then modify (prepareTaskExecutionsCache spec rows t ++ ·)
  return (← get).find u.name

/-- The loop of `_possible_route` over the inbound tasks of `t`; `route` is the recursive call. -/
def routeVia (route : TaskSpec → Nat → CacheM (Bool × Nat)) (t : TaskSpec) :
    List TaskSpec → Nat → CacheM (Bool × Nat)
  | [], depth => return (false, depth)
  | u :: us, depth => do
    match ← cachedExecution spec rows t u with
    | none =>
      let (possible, depth) ← route u (depth + 1)
      if possible then return (true, depth) else routeVia route t us depth
    | some (_, e) =>
      if !e.state.isCompleted then return (true, depth)
      else if t.name ∈ (← nextTaskNames e) then return (true, depth)
      else routeVia route t us depth

/-- `_possible_route`. Without a bound on the number of nested calls it is `RecursionError` on a cycle. -/
def possibleRoute : Nat → TaskSpec → Nat → CacheM (Bool × Nat)
  | 0, _, _ => throw (.other "maximum recursion depth exceeded")
  | fuel + 1, t, depth =>
    match spec.findInboundTaskSpecs t with
    | [] => return (true, depth)
    | ins => routeVia spec rows (possibleRoute fuel) t ins depth

/-- What an inbound task contributes: a tuple of `induced_states`. -/
structure Induced where
  name : String
  taskEx : Option TaskId
  state : State
  depth : Nat
  event : Option TriggerEvent
  deriving DecidableEq, Repr

/-- `_get_induced_join_state` for the inbound task `u` of the join `j`. Nested calls of the route search
    visit different tasks of an acyclic graph, so the number of tasks bounds them. -/
def getInducedJoinState (u : TaskSpec) (found : Option (TaskId × TaskEx)) (j : TaskSpec) : CacheM Induced := do
  match found with
  | none =>
    let (possible, depth) ← possibleRoute spec rows (spec.tasks.length + 1) u 1
    return if possible then ⟨u.name, none, .waiting, depth, none⟩
      else ⟨u.name, none, .error, depth, some .impossibleRoute⟩
  | some (i, e) =>
    if !e.state.isCompleted then return ⟨u.name, some i, .waiting, 1, none⟩
    -- A dictionary keeps the last of several pairs with one key.
    match (e.nextTasks.getD []).reverse.lookup j.name with
    | none => return ⟨u.name, some i, .error, 1, some .notTriggered⟩
    | some event => return ⟨u.name, some i, .running, 1, event⟩

/-- The list `induced_states`. -/
def inducedStates (j : TaskSpec) : CacheM (List Induced) :=
  (spec.findInboundTaskSpecs j).mapM fun u => do
    getInducedJoinState spec rows u ((← get).find u.name) j

end

/-! ### Counting -/

section
variable (induced : List Induced)

/-- The number that `count` of `_get_join_logical_state` finds. -/
def countState (st : State) : Nat := induced.countP (·.state == st)

/-- The depth that it adds up. -/
def totalDepth (st : State) : Nat := ((induced.filter (·.state == st)).map (·.depth)).sum

/-- `'.. %s' % [names]`: the text of a Python list of strings. -/
def namesMessage (what : String) (st : State) : String :=
  what ++ " by tasks: [" ++
    ", ".intercalate ((induced.filter (·.state == st)).map fun s => "'" ++ s.name ++ "'") ++ "]"

/-- `_triggered_by`. -/
def triggeredBy (st : State) : List Trigger :=
  induced.filterMap fun s => if s.state = st then s.taskEx.map (⟨·, s.event⟩) else none

/-- What a join that is `one` or a number asks for. -/
def cardinalityState (cardinality : Int) : LogicalState :=
  if (countState induced .running : Int) ≥ cardinality then
    { state := .running, triggeredBy := triggeredBy induced .running }
  else if (countState induced .error : Int) > induced.length - cardinality then
    { state := .error, stateInfo := namesMessage induced "Failed" .error }
  else
    { state := .waiting, stateInfo := namesMessage induced "Blocked" .waiting,
      cardinality := cardinality - countState induced .running }

/-- What a join that is `all` asks for. -/
def allState : LogicalState :=
  if induced.length = countState induced .running then
    { state := .running, triggeredBy := triggeredBy induced .running }
  else if countState induced .error > 0 then
    { state := .error, stateInfo := namesMessage induced "Failed" .error,
      triggeredBy := triggeredBy induced .error }
  else
    { state := .waiting, stateInfo := namesMessage induced "Blocked" .waiting,
      cardinality := induced.length - totalDepth induced .running }

/-- The decision of `_get_join_logical_state`. -/
def decideJoin : Join → LogicalState
  | .all => allState induced
  | .one => cardinalityState induced 1
  | .number n => cardinalityState induced n

end

section
variable (spec : WorkflowSpec) (rows : List (TaskId × TaskEx))

/-- `_get_join_logical_state`. -/
def getJoinLogicalState (join : Join) (j : TaskSpec) : Except Exc LogicalState :=
  if spec.findInboundTaskSpecs j = [] then return { state := .running }
  else do
    let (induced, _) ← (inducedStates spec rows j).run (prepareTaskExecutionsCache spec rows j)
    return decideJoin induced join

/-- `get_logical_task_state`. -/
def getLogicalTaskState (t : TaskSpec) (e : TaskEx) : Except Exc LogicalState :=
  match t.join with
  | none => return { state := e.state, stateInfo := e.stateInfo }
  | some join => getJoinLogicalState spec rows join t

end
end Mistral
