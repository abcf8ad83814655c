import Mistral.Workflow.DataFlow
import Mistral.Workflow.JoinState

/-! Which contexts a task gets (`_get_upstream_task_executions` in `mistral/workflow/direct_workflow.py` and
    `get_task_inbound_context` in `mistral/workflow/base.py`). -/

namespace Mistral

/-- The names of the next tasks of an execution have been stored, and `name` is one of them. -/
def TaskEx.names (e : TaskEx) (name : String) : Bool := name ∈ (e.nextTasks.getD []).map (·.1)

/-- The executions that have `name` among their next tasks. -/
def withNextTask (name : String) : List (TaskId × TaskEx) → Except Exc (List (TaskId × TaskEx))
  | [] => return []
  | (i, e) :: candidates => do
    let next ← nextTaskNames e
    let found ← withNextTask name candidates
    return if name ∈ next then (i, e) :: found else found

/-- The states that the queries for upstream executions ask for. -/
def upstreamStates : List State := [.success, .error, .cancelled]

section
variable (spec : WorkflowSpec) (rows : List (TaskId × TaskEx)) (t : TaskSpec) (triggeredBy : List TaskId)

/-- `_get_upstream_task_executions`. -/
def getUpstreamTaskExecutions : Except Exc (List (TaskId × TaskEx)) :=
  match (spec.findInboundTaskSpecs t).map (·.name) with
  | [] => return []
  | first :: names =>
    if t.isJoin then
      withNextTask t.name (rows.filter fun (_, e) => e.name ∈ first :: names && e.state ∈ upstreamStates)
    else
      let found := rows.filter fun (_, e) => e.name == first && e.state ∈ upstreamStates && e.processed
      return if triggeredBy.isEmpty then found else found.filter fun (i, _) => i ∈ triggeredBy

/-- `get_task_inbound_context`. -/
def getTaskInboundContext (conf : DataFlowConf) (data : TaskId → TaskData) : Except Exc DataFlowContext := do
  let upstream ← getUpstreamTaskExecutions spec rows t triggeredBy
  match conf.evaluateUpstreamContext (upstream.map fun (i, _) => data i) {} with
  | .ok ctx => return ctx
  | .error msg => throw (.other msg)

end

theorem withNextTask_ok {name : String} {candidates found : List (TaskId × TaskEx)} :
    withNextTask name candidates = .ok found ↔
      (∀ r ∈ candidates, r.2.nextTasks.isSome) ∧ found = candidates.filter fun r => r.2.names name := by
  induction candidates generalizing found with
  | nil =>
    constructor
    · intro h
      cases h
      exact ⟨fun r hr => absurd hr List.not_mem_nil, rfl⟩
    · rintro ⟨-, rfl⟩
      rfl
  | cons r candidates ih =>
    obtain ⟨i, e⟩ := r
    rw [withNextTask, List.forall_mem_cons]
    cases hnext : e.nextTasks with
    | none =>
      rw [nextTaskNames, hnext]
      refine iff_of_false (fun h => ?_) fun h => ?_
      · cases h
      · cases h.1.1
    | some next =>
      have hnames : e.names name = decide (name ∈ next.map (·.1)) := by rw [TaskEx.names, hnext]; rfl
      rw [nextTaskNames_of_some hnext, List.filter_cons, hnames]
      constructor
      · intro h
        obtain ⟨names, hnext, h⟩ := bind_ok.mp h
        cases hnext
        obtain ⟨found', hfound', h⟩ := bind_ok.mp h
        obtain ⟨hall, rfl⟩ := ih.mp hfound'
        refine ⟨⟨rfl, hall⟩, ?_⟩
        by_cases hmem : name ∈ next.map (·.1)
        · simp only [hmem, if_true, decide_true] at h ⊢
          cases h
          rfl
        · simp only [hmem, if_false, decide_false] at h ⊢
          cases h
          rfl
      · rintro ⟨⟨-, hall⟩, rfl⟩
        refine bind_ok.mpr ⟨_, rfl, bind_ok.mpr ⟨_, ih.mpr ⟨hall, rfl⟩, ?_⟩⟩
        by_cases hmem : name ∈ next.map (·.1)
        · simp only [hmem, if_true, decide_true]
          rfl
        · simp only [hmem, if_false, decide_false]
          rfl

section
variable {spec : WorkflowSpec} {rows upstream : List (TaskId × TaskEx)} {t : TaskSpec} {triggeredBy : List TaskId}
  {first : String} {names : List String}

theorem upstream_of_join (hins : (spec.findInboundTaskSpecs t).map (·.name) = first :: names) (hjoin : t.isJoin) :
    getUpstreamTaskExecutions spec rows t triggeredBy = .ok upstream ↔
      (∀ r ∈ rows, r.2.name ∈ first :: names → r.2.state ∈ upstreamStates → r.2.nextTasks.isSome) ∧
      upstream = rows.filter fun r => r.2.name ∈ first :: names && r.2.state ∈ upstreamStates && r.2.names t.name := by
  unfold getUpstreamTaskExecutions
  rw [hins]
  simp only [hjoin, if_true]
  rw [withNextTask_ok, List.filter_filter]
  refine and_congr ?_ ?_
  · simp only [List.mem_filter, Bool.and_eq_true, decide_eq_true_eq, and_imp]
  · simp only [Bool.and_comm]

/-- The query raises nothing if the executions that it looks through for a join have stored their next tasks. -/
theorem upstream_ok (h : t.isJoin → ∀ r ∈ rows, r.2.name ∈ (spec.findInboundTaskSpecs t).map (·.name) →
    r.2.state ∈ upstreamStates → r.2.nextTasks.isSome) :
    ∃ upstream, getUpstreamTaskExecutions spec rows t triggeredBy = .ok upstream := by
  cases hins : (spec.findInboundTaskSpecs t).map (·.name) with
  | nil =>
    refine ⟨[], ?_⟩
    unfold getUpstreamTaskExecutions
    rw [hins]
    rfl
  | cons first names =>
    cases hjoin : t.isJoin with
    | true => exact ⟨_, (upstream_of_join hins hjoin).mpr ⟨hins ▸ h hjoin, rfl⟩⟩
    | false =>
      unfold getUpstreamTaskExecutions
      rw [hins]
      simp only [hjoin, Bool.false_eq_true, if_false]
      exact ⟨_, rfl⟩

end
end Mistral
