import Mathlib.Tactic.ByContra
import Mistral.Api.ExecutionReport

/-! Whether a full report and a report of the statistics alone count the same tasks. -/

namespace Mistral
namespace ExecutionReport

/-! ### The tasks of a report -/

section
variable (filters : Filters)

mutual

/-- The runtime contexts of the tasks that a report about the execution gets to. -/
def reported : WorkflowExecution → Nat → List RuntimeContext
  | .mk _ taskExecutions, curDepth =>
    if filters.tooDeep curDepth then [] else reportedTasks taskExecutions (curDepth + 1)

def reportedTasks : List TaskExecution → Nat → List RuntimeContext
  | [], _ => []
  | t :: ts, curDepth => reportedTask t curDepth ++ reportedTasks ts curDepth

def reportedTask : TaskExecution → Nat → List RuntimeContext
  | .mk row runtimeContext executions, curDepth =>
    if filters.skips row then [] else runtimeContext :: reportedChildren executions curDepth

def reportedChildren : List ChildExecution → Nat → List RuntimeContext
  | [], _ => []
  | .action _ :: cs, curDepth => reportedChildren cs curDepth
  | .workflow w :: cs, curDepth => reported w curDepth ++ reportedChildren cs curDepth

end

end

/-- Where a retry policy has left its data, the number of retries is in them. -/
def RuntimeContext.Numbered (ctx : RuntimeContext) : Prop :=
  ∀ retryCtx, ctx.retryTaskPolicy = some retryCtx → retryCtx.retryNo ≠ none

instance (ctx : RuntimeContext) : Decidable ctx.Numbered := by
  unfold RuntimeContext.Numbered
  infer_instance

theorem retryCount_of_numbered {ctx : RuntimeContext} (h : ctx.Numbered) : ∃ n, retryCount ctx = .ok n := by
  unfold retryCount
  rcases hpolicy : ctx.retryTaskPolicy with _ | ⟨_ | n⟩
  · exact ⟨none, rfl⟩
  · exact absurd rfl (h _ hpolicy)
  · exact ⟨some n, rfl⟩

theorem retryCount_of_not_numbered {ctx : RuntimeContext} (h : ¬ctx.Numbered) :
    retryCount ctx = .error (.keyError "retry_no") := by
  unfold retryCount
  rcases hpolicy : ctx.retryTaskPolicy with _ | ⟨_ | n⟩
  · exact absurd (fun _ hsome => nomatch hpolicy.symm.trans hsome) h
  · rfl
  · exact absurd (fun _ hsome => by cases hpolicy.symm.trans hsome; nofun) h

/-! ### Both paths -/

/-- The counters of the statistics alone, or the failure of the full report. -/
def outcome (ctxs : List RuntimeContext) (stat : Counters) : Except Exc Counters :=
  if ∀ ctx ∈ ctxs, ctx.Numbered then .ok stat else .error (.keyError "retry_no")

variable {ctx : RuntimeContext} {ctxs ctxs' : List RuntimeContext} {stat stat' : Counters}

theorem outcome_nil : outcome [] stat = .ok stat := if_pos fun _ h => absurd h List.not_mem_nil

theorem outcome_cons (hctx : ctx.Numbered) : outcome (ctx :: ctxs) stat = outcome ctxs stat := by
  simp only [outcome, List.forall_mem_cons, hctx, true_and]

theorem outcome_append_of_error {e : Exc} (h : .error e = outcome ctxs stat) :
    outcome (ctxs ++ ctxs') stat' = .error e := by
  unfold outcome at h ⊢
  split at h
  · cases h
  next hnot => rw [if_neg fun hall => hnot fun ctx hctx => hall ctx (List.mem_append_left _ hctx), Except.error.inj h]

theorem outcome_append_of_ok {stat₁ : Counters} (h : .ok stat₁ = outcome ctxs stat) :
    stat₁ = stat ∧ outcome (ctxs ++ ctxs') stat' = outcome ctxs' stat' := by
  unfold outcome at h ⊢
  split at h
  next hall =>
    have hiff : (∀ ctx ∈ ctxs ++ ctxs', ctx.Numbered) ↔ ∀ ctx ∈ ctxs', ctx.Numbered :=
      ⟨fun h' ctx hctx => h' ctx (List.mem_append_right _ hctx),
        fun h' ctx hctx => (List.mem_append.mp hctx).elim (hall ctx) (h' ctx)⟩
    exact ⟨Except.ok.inj h, by simp only [hiff]⟩
  · cases h

section
variable (filters : Filters)

mutual

/-- A full report counts what the statistics alone count, as long as it finds the number of retries. -/
theorem map_analyseWorkflowExecution (w : WorkflowExecution) (stat : Counters) (curDepth : Nat) :
    (analyseWorkflowExecution filters w stat curDepth).map Prod.snd =
      outcome (reported filters w curDepth) (analyseExecutionStatisticsOnly filters w stat curDepth) := by
  obtain ⟨row, ts⟩ := w
  rw [analyseWorkflowExecution, reported, analyseExecutionStatisticsOnly]
  split
  · exact outcome_nil.symm
  · rw [← map_analyseTaskExecutions ts stat (curDepth + 1)]
    cases analyseTaskExecutions filters ts stat (curDepth + 1) <;> rfl

theorem map_analyseTaskExecutions (ts : List TaskExecution) (stat : Counters) (curDepth : Nat) :
    (analyseTaskExecutions filters ts stat curDepth).map Prod.snd =
      outcome (reportedTasks filters ts curDepth) (analyseTasksStatisticsOnly filters ts stat curDepth) := by
  cases ts with
  | nil => exact outcome_nil.symm
  | cons t ts =>
    have ht := map_analyseTaskExecution t stat curDepth
    rw [analyseTaskExecutions, reportedTasks, analyseTasksStatisticsOnly]
    cases htask : analyseTaskExecution filters t stat curDepth with
    | error e => rw [htask] at ht; exact (outcome_append_of_error ht).symm
    | ok res =>
      rw [htask] at ht
      obtain ⟨hstat, happend⟩ := outcome_append_of_ok ht
      rw [happend, ← hstat, ← map_analyseTaskExecutions ts res.2 curDepth]
      show (analyseTaskExecutions filters ts res.2 curDepth >>= fun _ => _).map Prod.snd = _
      cases analyseTaskExecutions filters ts res.2 curDepth <;> rfl

theorem map_analyseTaskExecution (t : TaskExecution) (stat : Counters) (curDepth : Nat) :
    (analyseTaskExecution filters t stat curDepth).map Prod.snd =
      outcome (reportedTask filters t curDepth) (analyseTaskStatisticsOnly filters t stat curDepth) := by
  obtain ⟨row, ctx, cs⟩ := t
  rw [analyseTaskExecution, reportedTask, analyseTaskStatisticsOnly]
  split
  · exact outcome_nil.symm
  · by_cases hctx : ctx.Numbered
    · obtain ⟨n, hn⟩ := retryCount_of_numbered hctx
      rw [hn, outcome_cons hctx, ← map_analyseChildExecutions cs _ curDepth]
      show (analyseChildExecutions filters cs _ curDepth >>= fun _ => _).map Prod.snd = _
      cases analyseChildExecutions filters cs (updateStatisticsWithTask stat row.state) curDepth <;> rfl
    · rw [retryCount_of_not_numbered hctx, outcome, if_neg fun hall => hctx (hall ctx List.mem_cons_self)]
      rfl

theorem map_analyseChildExecutions (cs : List ChildExecution) (stat : Counters) (curDepth : Nat) :
    (analyseChildExecutions filters cs stat curDepth).map (·.2.2) =
      outcome (reportedChildren filters cs curDepth) (analyseChildrenStatisticsOnly filters cs stat curDepth) := by
  cases cs with
  | nil => exact outcome_nil.symm
  | cons c cs =>
    cases c with
    | action row =>
      rw [analyseChildExecutions, reportedChildren, analyseChildrenStatisticsOnly,
        ← map_analyseChildExecutions cs stat curDepth]
      cases analyseChildExecutions filters cs stat curDepth <;> rfl
    | workflow w =>
      have hw := map_analyseWorkflowExecution w stat curDepth
      rw [analyseChildExecutions, reportedChildren, analyseChildrenStatisticsOnly]
      cases hentry : analyseWorkflowExecution filters w stat curDepth with
      | error e => rw [hentry] at hw; exact (outcome_append_of_error hw).symm
      | ok res =>
        rw [hentry] at hw
        obtain ⟨hstat, happend⟩ := outcome_append_of_ok hw
        rw [happend, ← hstat, ← map_analyseChildExecutions cs res.2 curDepth]
        show Except.map (·.2.2) (analyseChildExecutions filters cs res.2 curDepth >>= fun children =>
          .ok (children.1, res.1 :: children.2.1, children.2.2)) = _
        cases analyseChildExecutions filters cs res.2 curDepth <;> rfl

end

end

/-- Reports succeed with and without the entries, and both have the same counters. -/
def StatisticsAgree (filters : Filters) (wfEx : WorkflowExecution) : Prop :=
  ∀ estimatedTime estimatedTime', ∃ full only, buildReport filters false estimatedTime wfEx = .ok full ∧
    buildReport filters true estimatedTime' wfEx = .ok only ∧ full.statistics.counters = only.statistics.counters

/-- Both paths agree exactly where every task of the report that has data of a retry policy has the number of retries. -/
theorem statistics_agree_iff (filters : Filters) (wfEx : WorkflowExecution) :
    StatisticsAgree filters wfEx ↔ ∀ ctx ∈ reported filters wfEx 0, ctx.Numbered := by
  have hpaths := map_analyseWorkflowExecution filters wfEx {} 0
  have hbuild : ∀ estimatedTime, buildReport filters false estimatedTime wfEx =
      (analyseWorkflowExecution filters wfEx {} 0).map fun res =>
        { statistics := { counters := res.2, estimatedTime }, rootWorkflowExecution := some res.1 } := fun _ => by
    show (analyseWorkflowExecution filters wfEx {} 0 >>= fun _ => _) = _
    cases analyseWorkflowExecution filters wfEx {} 0 <;> rfl
  constructor
  · intro h
    obtain ⟨full, only, hfull, -, -⟩ := h 0 0
    by_contra hnot
    rw [outcome, if_neg hnot] at hpaths
    rw [hbuild] at hfull
    cases hanalyse : analyseWorkflowExecution filters wfEx {} 0 with
    | error e => rw [hanalyse] at hfull; cases hfull
    | ok res => rw [hanalyse] at hpaths; cases hpaths
  · intro h estimatedTime estimatedTime'
    rw [outcome, if_pos h] at hpaths
    cases hanalyse : analyseWorkflowExecution filters wfEx {} 0 with
    | error e => rw [hanalyse] at hpaths; cases hpaths
    | ok res =>
      rw [hanalyse] at hpaths
      refine ⟨_, _, by rw [hbuild, hanalyse]; rfl, rfl, ?_⟩
      exact Except.ok.inj hpaths

/-! ### A task that succeeds at once under a retry policy -/

def succeedsAtOnce : WorkflowExecution :=
  .mk { id := "wf", state := .success } [.mk { id := "t", state := .success } { retryTaskPolicy := some {} } []]

theorem report_fails : ¬StatisticsAgree {} succeedsAtOnce := by
  intro h
  obtain ⟨full, -, hfull, -⟩ := h 0 0
  cases hfull

end ExecutionReport
end Mistral
