import Mistral.Engine.Runs

/-! Delayed jobs of policies and completed tasks. Each job carries only the id of its task, and the handler
    that it calls reads whatever state the task has by then. -/

namespace Mistral

variable {spec : WorkflowSpec} {ls : ListSort} {o : Oracle} {t : TaskId}

/-- A job that a policy of the task `t` has scheduled. -/
def Job.IsPolicyJob (t : TaskId) : Job → Prop
  | .continueTask u | .completeTask u _ _ | .failTaskIfIncomplete u _ => u = t
  | _ => False

/-- In every run of guarded steps, a delayed job of a policy that finds its task completed leaves it as it
    is: the task keeps its state, no action is scheduled and no commands are dispatched for it. -/
def PolicyJobsKeepCompleted (spec : WorkflowSpec) (ls : ListSort) (guard : Engine → Request × Oracle → Prop) : Prop :=
  ∀ s l j t v, (engine spec ls).Reach guard s → guard s l → l.1 = .runJob j → j.IsPolicyJob t →
    s.view t = some v → v.state.isCompleted →
    (step spec ls s l).view t = some v ∧ ∀ ev ∈ newEvents spec ls s l, ev.task ≠ some t

/-- No `_continue_task` fires while its task is in a completed state. -/
def ContinuesOpenTasks (s : Engine) (l : Request × Oracle) : Prop :=
  ∀ t v, l.1 = .runJob (.continueTask t) → s.view t = some v → ¬v.state.isCompleted

/-! ### Handlers that find the task completed -/

/-- The task executions and the trace are the same. -/
def SameTasks (s s' : Engine) : Prop := s'.tasks = s.tasks ∧ s'.trace = s.trace

theorem same_checkAffectedTasks {s : Engine} (task : Task) :
    Ends (checkAffectedTasks spec task) s (fun _ => SameTasks s) fun _ _ => True := by
  unfold checkAffectedTasks
  rw [Ends.bind_iff, taskEx_iff]
  refine ⟨fun e _ => ?_, fun _ => trivial⟩
  split
  · exact ⟨rfl, rfl⟩
  rw [Ends.bind_iff, Ends.get_iff]
  split <;> exact ⟨rfl, rfl⟩

/-- `complete` ignores a completed task unless it is to be skipped. -/
theorem complete_completed {s : Engine} {task : Task} {e : TaskEx} {st : State} {info : Option String}
    (he : s.tasks[task.id]? = some e) (hdone : e.state.isCompleted) (hst : st ≠ .skipped) :
    Ends (complete spec ls o task st info) s (fun _ s' => s' = s) fun _ _ => False := by
  unfold complete
  rw [Ends.bind_iff, taskEx_iff]
  refine ⟨fun e' he' => ?_, fun hn => by simp [he] at hn⟩
  obtain rfl := Option.some.inj (he.symm.trans he')
  have hns : st.isSkipped = false := by simpa [State.isSkipped] using hst
  rw [if_pos (by simp [hdone, hns])]
  exact rfl

theorem same_completeTask {s : Engine} {e : TaskEx} {st : State} {info : Option String}
    (he : s.tasks[t]? = some e) (hdone : e.state.isCompleted) (hst : st ≠ .skipped) :
    Ends (completeTask spec ls o t st info) s (fun _ => SameTasks s) fun _ _ => True := by
  unfold completeTask buildTask taskSpecOf
  simp only [bind_assoc]
  rw [Ends.bind_iff, taskEx_iff]
  refine ⟨fun e' he' => ?_, fun _ => trivial⟩
  split
  case h_2 => exact trivial
  simp only [pure_bind, handling, Ends.bind_iff, Ends.tryCatch_iff]
  refine (complete_completed he hdone hst).mono (fun _ s' h => ?_) fun _ _ h => h.elim
  subst h
  exact same_checkAffectedTasks _

theorem same_failTaskIfIncomplete {s : Engine} {e : TaskEx} {timeout : Nat} (he : s.tasks[t]? = some e)
    (hdone : e.state.isCompleted) :
    Ends (failTaskIfIncomplete spec ls o t timeout) s (fun _ => SameTasks s) fun _ _ => True := by
  unfold failTaskIfIncomplete
  rw [Ends.bind_iff, taskEx_iff]
  refine ⟨fun e' he' => ?_, fun _ => trivial⟩
  obtain rfl := Option.some.inj (he.symm.trans he')
  simp only [hdone, Bool.not_true, Bool.false_eq_true, if_false]
  exact ⟨rfl, rfl⟩

/-- A step whose transaction, if it commits, changes neither task executions nor the trace. -/
theorem step_same {s : Engine} {l : Request × Oracle}
    (h : ∀ s₀, take s l.1 = some s₀ → Ends (handle spec ls l.2 l.1) s₀ (fun _ => SameTasks s₀) fun _ _ => True) :
    SameTasks s (step spec ls s l) := by
  rcases step_cases spec ls s l with hs | ⟨s₀, htake, hs⟩
  · rw [hs]
    exact ⟨rfl, rfl⟩
  obtain ⟨htasks, htrace, -⟩ := take_eq htake
  rcases hs with hs | hs
  · rw [hs]
    exact ⟨htasks, htrace⟩
  · have hsame := h s₀ htake
    rw [Ends, hs] at hsame
    exact ⟨hsame.1.trans htasks, hsame.2.trans htrace⟩

/-! ### Runs -/

/-- In every run in which `_continue_task` never fires for a completed task, the delayed jobs of policies keep
    completed tasks. -/
theorem policy_jobs_keep_completed (spec : WorkflowSpec) (ls : ListSort) :
    PolicyJobsKeepCompleted spec ls ContinuesOpenTasks := by
  rintro s ⟨r, o⟩ j t v hr hg rfl hpolicy hv hdone
  have hjobs := reach_JobsOk hr
  have hsame : SameTasks s (step spec ls s (.runJob j, o)) := by
    refine step_same fun s₀ htake => ?_
    obtain ⟨htasks, -, -, -, hmem⟩ := take_eq htake
    obtain ⟨e, he, rfl⟩ := Engine.row_of_view hv
    rw [← htasks] at he
    cases j with
    | continueTask u =>
      cases hpolicy
      exact absurd hdone (hg t _ rfl hv)
    | completeTask u st info =>
      cases hpolicy
      exact same_completeTask he hdone (hjobs t st info (hmem _ rfl)).1
    | failTaskIfIncomplete u timeout =>
      cases hpolicy
      exact same_failTaskIfIncomplete he hdone
    | refreshTaskState | onActionComplete | onActionUpdate => exact hpolicy.elim
  refine ⟨(view_eq_of_tasks hsame.1 t).trans hv, fun ev hev => ?_⟩
  rw [newEvents, hsame.2, List.drop_length] at hev
  cases hev

/-! ### A timeout shorter than `wait-before` -/

/-- One task, with `wait-before: 5` and `timeout: 1`. -/
def delayedSpec : WorkflowSpec where
  tasks := [{ name := "t", policies := { waitBefore := .lit 5, timeout := .lit 1 } }]

/-- The task is started and delayed, and its timeout fails it. -/
def timeoutRun : List (Request × Oracle) :=
  [(.start, {}), (.startTask ⟨0, true, false, none, false, false⟩, {}), (.runJob (.failTaskIfIncomplete 0 1), {})]

/-- Then the job of `wait-before` fires: it puts the failed task back to `RUNNING` and starts its action. -/
theorem wait_before_revives_task : ¬PolicyJobsKeepCompleted delayedSpec default fun _ _ => True := by
  intro h
  have hreach : (engine delayedSpec default).Reach (fun _ _ => True)
      ((engine delayedSpec default).run (.initial "w" false) timeoutRun) :=
    .run (.init ⟨"w", false, rfl⟩) (by simp [timeoutRun, System.Guarded])
  have hkept := (h _ (.runJob (.continueTask 0), {}) (.continueTask 0) 0 ⟨"t", none, .error, true⟩ hreach trivial rfl rfl
    (by decide) (by decide)).1
  revert hkept
  decide

end Mistral
