import Mistral.Engine.HandlerEffects

/-! The steps of a run, seen from the task executions. -/

namespace Mistral

variable {spec : WorkflowSpec} {ls : ListSort}

@[simp] theorem engine_step (s : Engine) (l : Request × Oracle) : (engine spec ls).step s l = step spec ls s l := rfl

/-- From `s` to `s'` every task execution follows a path whose events are the new ones about it. -/
structure Stepped (sc : Scope) (s s' : Engine) : Prop where
  events : ∃ es, s'.trace = s.trace ++ es ∧ ∀ t, Path sc t (s.view t) (es.filter (·.about t)) (s'.view t)
  jobs : ∀ j ∈ s'.jobs, j ∈ s.jobs ∨ sc.JobOk j
  wf : s'.wf.state = .running → s.wf.state = .running ∨ sc.whole

/-- A delayed completion never asks for `SKIPPED` or `WAITING`. -/
def Engine.JobsOk (s : Engine) : Prop :=
  ∀ t st info, Job.completeTask t st info ∈ s.jobs → st ≠ .skipped ∧ st ≠ .waiting

/-- Taking a message, a job or a check leaves the rest alone. -/
theorem take_eq {s s₀ : Engine} {r : Request} (h : take s r = some s₀) :
    s₀.tasks = s.tasks ∧ s₀.trace = s.trace ∧ s₀.wf = s.wf ∧ (∀ j ∈ s₀.jobs, j ∈ s.jobs) ∧
      ∀ j, r = .runJob j → j ∈ s.jobs := by
  cases r <;> simp only [take] at h
  case runJob j =>
    split at h <;> cases h
    next hj => exact ⟨rfl, rfl, rfl, fun _ => List.mem_of_mem_erase, fun _ h => by cases h; exact hj⟩
  case start | startTask | subworkflowStarted | subworkflowResult | scheduleIfNeeded | checkAndComplete =>
    split at h <;> cases h
    exact ⟨rfl, rfl, rfl, fun _ => id, by simp⟩
  all_goals
    cases h
    exact ⟨rfl, rfl, rfl, fun _ => id, by simp⟩

theorem view_eq_of_tasks {s s₀ : Engine} (h : s₀.tasks = s.tasks) (t : TaskId) : s₀.view t = s.view t := by
  simp [Engine.view, h]

theorem scopeOf_eq {s s₀ : Engine} (h : s₀.tasks = s.tasks) (hwf : s₀.wf = s.wf) (r : Request) :
    scopeOf s₀ r = scopeOf s r := by
  have hview := view_eq_of_tasks h
  have hr : r.Revives s₀ = r.Revives s := by
    cases r with
    | runJob j => cases j <;> simp [Request.Revives, hview]
    | _ => rfl
  have hl : r.Loses s₀ = r.Loses s := by
    cases r <;> simp [Request.Loses, hview]
  have hm : r.Marks s₀ = r.Marks s := by
    cases r <;> simp [Request.Marks, Engine.Settled, hview, hwf]
  simp [scopeOf, hr, hl, hm]

/-- What the transaction of a step commits, or nothing of it. -/
theorem step_cases (spec : WorkflowSpec) (ls : ListSort) (s : Engine) (l : Request × Oracle) :
    step spec ls s l = s ∨ ∃ s₀, take s l.1 = some s₀ ∧ (step spec ls s l = s₀ ∨ handle spec ls l.2 l.1 s₀ = .ok () (step spec ls s l)) := by
  unfold step
  cases h : take s l.1 with
  | none => exact .inl rfl
  | some s₀ =>
    refine .inr ⟨s₀, rfl, ?_⟩
    dsimp only [transaction]
    cases h' : handle spec ls l.2 l.1 s₀ with
    | ok a s' => exact .inr rfl
    | error e s' => exact .inl rfl

theorem stepped (spec : WorkflowSpec) (ls : ListSort) {s : Engine} (hjobs : s.JobsOk) (l : Request × Oracle) :
    Stepped (scopeOf s l.1) s (step spec ls s l) := by
  rcases step_cases spec ls s l with h | ⟨s₀, htake, h⟩
  · rw [h]
    exact ⟨⟨[], by simp, fun t => .nil _⟩, fun _ => .inl, .inl⟩
  obtain ⟨htasks, htrace, hwf, hsub, hrun⟩ := take_eq htake
  have hview := view_eq_of_tasks htasks
  rcases h with h | h
  · rw [h]
    exact ⟨⟨[], by simp [htrace], fun t => by rw [hview]; exact .nil _⟩, fun j hj => .inl (hsub j hj),
      fun hr => .inl (hwf ▸ hr)⟩
  · have hev : Ends (handle spec ls l.2 l.1) s₀ (fun _ => Evolves (scopeOf s₀ l.1) s₀) fun _ => Evolves (scopeOf s₀ l.1) s₀ :=
      evolves_handle s₀ l.1 fun t st info hr => (hjobs t st info (hrun _ hr)).2
    rw [Ends, h, scopeOf_eq htasks hwf] at hev
    obtain ⟨es, hes, hpath⟩ := hev.events
    obtain ⟨js, hjs, hok⟩ := hev.jobs
    refine ⟨⟨es, by rw [hes, htrace], fun t => hview t ▸ hpath t⟩, fun j hj => ?_, fun hr => ?_⟩
    · rw [hjs] at hj
      exact (List.mem_append.mp hj).imp (hsub j) (hok j)
    · exact hwf ▸ hev.wf hr

theorem JobsOk_step {s : Engine} (hjobs : s.JobsOk) (l : Request × Oracle) : (step spec ls s l).JobsOk := by
  intro t st info hj
  rcases (stepped _ _ hjobs l).jobs _ hj with hj | hj
  · exact hjobs t st info hj
  · exact hj.2

theorem reach_JobsOk {guard : Engine → Request × Oracle → Prop} {s : Engine} (h : (engine spec ls).Reach guard s) :
    s.JobsOk := by
  refine h.invariant ?_ fun s l _ hs _ => JobsOk_step hs l
  rintro s ⟨wfId, isSub, rfl⟩ t st info hj
  cases hj

/-- The new events of a step are those that its paths are about. -/
theorem stepped_newEvents (spec : WorkflowSpec) (ls : ListSort) {s : Engine} (hjobs : s.JobsOk) (l : Request × Oracle) :
    (step spec ls s l).trace = s.trace ++ newEvents spec ls s l ∧
    ∀ t, Path (scopeOf s l.1) t (s.view t) ((newEvents spec ls s l).filter (·.about t)) ((step spec ls s l).view t) := by
  obtain ⟨es, hes, hpath⟩ := (stepped spec ls hjobs l).events
  have hnew : newEvents spec ls s l = es := by simp [newEvents, hes]
  rw [hnew]
  exact ⟨hes, hpath⟩

end Mistral
