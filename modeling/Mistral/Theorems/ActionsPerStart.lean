import Mistral.Engine.Runs
import Mistral.Engine.StartCosts

/-! The start of a task schedules its action once. Messages to start a task are delivered in any order, and each
    start pays for one action. -/

namespace Mistral

variable {spec : WorkflowSpec} {ls : ListSort} {sc : Scope} {t : TaskId}

/-! ### Counting -/

/-- The requests to rerun `t`. -/
def reruns (t : TaskId) (es : List Event) : Nat := es.count (.rerunRequested t)

def Event.isRetry (t : TaskId) : Event → Bool
  | .retried u _ _ => u == t
  | _ => false

/-- The attempts of `t` that its retry policy adds. -/
def retries (t : TaskId) (es : List Event) : Nat := es.countP (·.isRetry t)

theorem grants_eq {es : List Event} (h : ∀ st, .deferred t st ∉ es) : grants t es = reruns t es + retries t es := by
  induction es with
  | nil => rfl
  | cons ev es ih =>
    simp only [List.mem_cons, not_or] at h
    have ih := ih fun st => (h st).2
    simp only [grants, reruns, retries] at ih
    simp only [grants, reruns, retries, List.countP_cons, List.count_cons, ih]
    cases ev with
    | deferred u st =>
      have hne : u ≠ t := fun hu => (h st).1 (by rw [hu])
      simp [Event.isGrant, Event.isRetry, hne]
    | rerunRequested u => simp [Event.isGrant, Event.isRetry]; omega
    | _ => simp [Event.isGrant, Event.isRetry] <;> omega

/-- The execution `t` was created `IDLE`, by a task that is no join and runs a single action. -/
structure Engine.CreatedIdle (spec : WorkflowSpec) (t : TaskId) (s : Engine) : Prop where
  regular : s.RegularTask spec t
  key : ∀ v, s.view t = some v → v.key = none

theorem Engine.CreatedIdle.of_path {s s' : Engine} {w : List Event} (h : s'.CreatedIdle spec t)
    (hpath : Path sc t (s.view t) w (s'.view t)) : s.CreatedIdle spec t where
  regular v ts hv hts := by
    obtain ⟨v', hv', hname, -⟩ := hpath.keeps_name hv
    exact h.regular v' ts hv' (hname ▸ hts)
  key v hv := by
    obtain ⟨v', hv', -, hkey⟩ := hpath.keeps_name hv
    exact hkey ▸ h.key v' hv'

/-- Only the executions of joins are looked up by their key. -/
theorem Path.not_deferred {v v' : Option View} {w : List Event} (h : Path sc t v w v')
    (hkey : ∀ x, v' = some x → x.key = none) (st : State) : .deferred t st ∉ w := by
  induction h with
  | nil => exact List.not_mem_nil
  | cons head tail ih =>
    refine fun hmem => (List.mem_append.mp hmem).elim (fun hmem => ?_) (ih hkey)
    cases head with
    | defer hstate hne =>
      obtain ⟨x, hx, -, hk⟩ := tail.keeps_name rfl
      exact hne (hk ▸ hkey x hx)
    | attempt hown hopen hc =>
      rcases hc.mem _ hmem with ⟨_, _, h⟩ | ⟨_, _, h⟩ <;> cases h
    | _ => simp at hmem

/-! ### Runs -/

/-- In every run of guarded steps, a task execution that was created `IDLE` has at most one action scheduled for
    its first start, for each request to rerun it and for each retry; and each step uses up a start that is
    pending for every action that it schedules. -/
def StartsOnce (spec : WorkflowSpec) (ls : ListSort) (guard : TaskId → Engine → Request × Oracle → Prop) : Prop :=
  ∀ s t v, (engine spec ls).Reach (guard t) s → s.view t = some v → s.CreatedIdle spec t →
    actions t s.trace ≤ 1 + reruns t s.trace + retries t s.trace ∧
    ∀ l, guard t s l → actions t (newEvents spec ls s l) + (step spec ls s l).pending t ≤
      s.pending t + reruns t (newEvents spec ls s l) + retries t (newEvents spec ls s l)

theorem spent_take {s s₀ : Engine} {r : Request} (h : take s r = some s₀) :
    s₀.spent t + (if r.isStart t then 1 else 0) = s.spent t := by
  obtain ⟨htasks, htrace, -, -, -⟩ := take_eq h
  have herase : ∀ {α : Type} [DecidableEq α] {l : List α} {a : α} (p : α → Bool), a ∈ l →
      (l.erase a).countP p + (if p a then 1 else 0) = l.countP p := fun p ha => by
    rw [(List.perm_cons_erase ha).countP_eq p, List.countP_cons]
  have hsame : s₀.jobs = s.jobs → s₀.messages = s.messages → s₀.spent t = s.spent t := fun hj hm => by
    simp only [Engine.spent, Engine.pending, htrace, view_eq_of_tasks htasks, hj, hm]
  cases r <;> simp only [take] at h
  case startTask m =>
    split at h <;> cases h
    next hm =>
    have := herase (·.isRerun t) hm
    simp only [Engine.spent, Engine.pending, Engine.view, Request.isStart] at this ⊢
    split at this
    · simp_all
      omega
    · simp_all
  case runJob j =>
    split at h <;> cases h
    next hj =>
    have := herase (·.isContinue t) hj
    simp only [Engine.spent, Engine.pending, Engine.view, Request.isStart] at this ⊢
    split at this
    · simp_all
      omega
    · simp_all
  case start | subworkflowStarted | subworkflowResult | scheduleIfNeeded | checkAndComplete =>
    split at h <;> cases h
    simp [Request.isStart, hsame rfl rfl]
  all_goals
    cases h
    simp [Request.isStart]

theorem Request.StartsOne.of_take {s s₀ : Engine} {r : Request} (htasks : s₀.tasks = s.tasks) (h : r.StartsOne t s) :
    r.StartsOne t s₀ where
  resumed m v hr hm hf hrerun hv := h.resumed m v hr hm hf hrerun (view_eq_of_tasks htasks t ▸ hv)
  result i e x hr he := h.result i e x hr (htasks ▸ he)
  late := h.late

/-- A step spends no more than it takes. -/
theorem spent_step (ls : ListSort) {s : Engine} {l : Request × Oracle} (hjobs : s.JobsOk) (hreg : s.RegularTask spec t)
    (hone : l.1.StartsOne t s) : (step spec ls s l).spent t ≤ s.spent t := by
  rcases step_cases spec ls s l with h | ⟨s₀, htake, h⟩
  · rw [h]
  obtain ⟨htasks, -, -, -, hrun⟩ := take_eq htake
  have htaken := spent_take (t := t) htake
  rcases h with h | h
  · rw [h]
    split at htaken <;> omega
  · have hhandle := spent_handle ls l.2 (hreg.of_view (view_eq_of_tasks htasks t))
      (hone.of_take htasks) fun u st info hr => (hjobs u st info (hrun _ hr)).2
    rw [Ends, h] at hhandle
    exact htaken ▸ hhandle

theorem startOnce_reach {s : Engine} (h : (engine spec ls).Reach (fun s l => l.1.StartsOne t s) s)
    (ht : s.CreatedIdle spec t) : s.spent t ≤ 1 ∧ ∀ st, .deferred t st ∉ s.trace := by
  refine h.invariant (I := fun s => s.CreatedIdle spec t → s.spent t ≤ 1 ∧ ∀ st, .deferred t st ∉ s.trace) ?_
    (fun s l hr ih hg ht => ?_) ht
  · rintro s ⟨wfId, isSub, rfl⟩ -
    exact ⟨le_rfl, fun st => List.not_mem_nil⟩
  · obtain ⟨htrace, hpath⟩ := stepped_newEvents spec ls (reach_JobsOk hr) l
    have hold := ht.of_path (hpath t)
    obtain ⟨hspent, hdefer⟩ := ih hold
    have hstep := spent_step ls (reach_JobsOk hr) hold.regular hg
    refine ⟨hstep.trans hspent, fun st hmem => ?_⟩
    rw [engine_step, htrace] at hmem
    refine (List.mem_append.mp hmem).elim (hdefer st) fun hmem => ?_
    exact (hpath t).not_deferred ht.key st (List.mem_filter.mpr ⟨hmem, by simp [Event.about, Event.task]⟩)

/-- In every run in which the messages of a resumed workflow find their task not started, or not to be started
    any more, a start schedules one action. -/
theorem start_schedules_once (spec : WorkflowSpec) (ls : ListSort) : StartsOnce spec ls fun t s l => l.1.StartsOne t s := by
  intro s t v hr hv ht
  obtain ⟨hspent, hdefer⟩ := startOnce_reach hr ht
  refine ⟨?_, fun l hg => ?_⟩
  · simp only [Engine.spent, grants_eq hdefer] at hspent
    omega
  · obtain ⟨htrace, hpath⟩ := stepped_newEvents spec ls (reach_JobsOk hr) l
    have hnew : ∀ st, .deferred t st ∉ newEvents spec ls s l := fun st hmem => by
      have hkey : ∀ x, (step spec ls s l).view t = some x → x.key = none := fun x hx => by
        obtain ⟨x', hx', -, hkey⟩ := (hpath t).keeps_name hv
        obtain rfl := Option.some.inj (hx.symm.trans hx')
        exact hkey.trans (ht.key v hv)
      exact (hpath t).not_deferred hkey st (List.mem_filter.mpr ⟨hmem, by simp [Event.about, Event.task]⟩)
    have hstep := spent_step ls (reach_JobsOk hr) ht.regular hg
    simp only [Engine.spent, htrace, actions_append, grants_append, grants_eq hnew] at hstep
    omega

/-! ### A message of a resumed workflow -/

def oneTaskSpec : WorkflowSpec where
  tasks := [{ name := "a" }]

/-- The workflow is paused and resumed before the first message to start `a` is delivered. -/
def resumedRun : List (Request × Oracle) :=
  [(.start, {}), (.pause, {}), (.resume, {}), (.startTask ⟨0, true, false, none, false, false⟩, {}),
    (.startTask ⟨0, false, false, none, false, true⟩, {})]

/-- The message of the resumed workflow schedules the action again. -/
theorem resumed_start_schedules_again : ¬StartsOnce oneTaskSpec default fun _ _ _ => True := by
  intro h
  have hreach : (engine oneTaskSpec default).Reach (fun _ _ => True)
      ((engine oneTaskSpec default).run (.initial "w" false) resumedRun) :=
    .run (.init ⟨"w", false, rfl⟩) (by simp [resumedRun, System.Guarded])
  have hview : ((engine oneTaskSpec default).run (.initial "w" false) resumedRun).view 0 =
      some ⟨"a", none, .running, false⟩ := by decide
  have hidle : ((engine oneTaskSpec default).run (.initial "w" false) resumedRun).CreatedIdle oneTaskSpec 0 := by
    refine ⟨fun v ts hv hts => ?_, fun v hv => ?_⟩ <;> obtain rfl := Option.some.inj (hview.symm.trans hv)
    · cases hts
      exact ⟨rfl, rfl⟩
    · rfl
  have := (h _ 0 _ hreach hview hidle).1
  revert this
  decide

end Mistral
