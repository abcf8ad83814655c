import Mistral.Engine.Dispatches
import Mistral.Engine.Settling

/-! Every completed task is continued once. The flag `processed` of a task execution keeps the account: it is
    set when the commands of a completion are dispatched, and cleared when the task is restarted. -/

namespace Mistral

variable {spec : WorkflowSpec} {ls : ListSort} {sc : Scope} {t : TaskId}

/-! ### Counting -/

/-- The execution `t` becomes completed. -/
def Event.isCompletion (t : TaskId) : Event → Bool
  | .taskState u a b => u == t && !a.isCompleted && b.isCompleted
  | _ => false

/-- Policies of `t` take its completion back, to delay it or for another attempt. -/
def Event.isUndone (t : TaskId) : Event → Bool
  | .taskState u a b => u == t && a.isCompleted && (b == .runningDelayed || b == .waiting)
  | _ => false

def Event.isContinuation (t : TaskId) : Event → Bool
  | .continued u _ _ _ => u == t
  | _ => false

/-- The completions of a task in a trace. -/
def completions (t : TaskId) (es : List Event) : Nat := es.countP (·.isCompletion t)

/-- The completions of a task that were taken back. -/
def undone (t : TaskId) (es : List Event) : Nat := es.countP (·.isUndone t)

/-- The continuations of a task. -/
def continuations (t : TaskId) (es : List Event) : Nat := es.countP (·.isContinuation t)

/-- A completion that is not continued yet. -/
def outstanding : Option View → Nat
  | none => 0
  | some v => if v.state.isCompleted ∧ v.processed = false then 1 else 0

def completed (st : State) : Nat := if st.isCompleted then 1 else 0

section
variable (es es' : List Event)

@[simp] theorem completions_append : completions t (es ++ es') = completions t es + completions t es' :=
  List.countP_append ..

@[simp] theorem undone_append : undone t (es ++ es') = undone t es + undone t es' := List.countP_append ..

@[simp] theorem continuations_append : continuations t (es ++ es') = continuations t es + continuations t es' :=
  List.countP_append ..

theorem completions_about : completions t (es.filter (·.about t)) = completions t es :=
  countP_about (fun ev h => by cases ev <;> simp_all [Event.isCompletion, Event.task]) es

theorem undone_about : undone t (es.filter (·.about t)) = undone t es :=
  countP_about (fun ev h => by cases ev <;> simp_all [Event.isUndone, Event.task]) es

theorem continuations_about : continuations t (es.filter (·.about t)) = continuations t es :=
  countP_about (fun ev h => by cases ev <;> simp_all [Event.isContinuation, Event.task]) es

end

theorem completions_taskState_cons (a b : State) (w : List Event) :
    completions t (.taskState t a b :: w) = completions t w + if !a.isCompleted && b.isCompleted then 1 else 0 := by
  simp only [completions, List.countP_cons, Event.isCompletion, beq_self_eq_true, Bool.true_and]

theorem undone_taskState_cons (a b : State) (w : List Event) :
    undone t (.taskState t a b :: w) = undone t w +
      if a.isCompleted && (b == .runningDelayed || b == .waiting) then 1 else 0 := by
  simp only [undone, List.countP_cons, Event.isUndone, beq_self_eq_true, Bool.true_and]

theorem continuations_taskState_cons (a b : State) (w : List Event) :
    continuations t (.taskState t a b :: w) = continuations t w := by
  simp [continuations, Event.isContinuation]

theorem Chain.completions_eq {a b : State} {w : List Event} (h : Chain t a w b) :
    completions t w + completed a = undone t w + completed b ∧ continuations t w = 0 := by
  induction h with
  | nil => exact ⟨rfl, rfl⟩
  | @change a b c w hopen hwait _ ih =>
    rw [completions_taskState_cons, undone_taskState_cons, continuations_taskState_cons]
    refine ⟨?_, ih.2⟩
    have := ih.1
    cases ha : a.isCompleted with
    | true =>
      have hb := hopen ha
      have hne : (b == .runningDelayed || b == .waiting) = false := by
        cases b <;> first | rfl | cases hb
      simp only [completed, ha, hb, hne, Bool.not_true, Bool.false_and, Bool.and_false, if_true, Bool.false_eq_true,
        if_false] at this ⊢
      omega
    | false =>
      simp only [completed, ha, Bool.not_false, Bool.true_and, Bool.false_and, Bool.false_eq_true, if_false] at this ⊢
      omega
  | @delay a c w _ ih =>
    rw [completions_taskState_cons, undone_taskState_cons, continuations_taskState_cons]
    refine ⟨?_, ih.2⟩
    have := ih.1
    have hd : State.runningDelayed.isCompleted = false := rfl
    cases ha : a.isCompleted <;> simp [completed, ha, hd, -State.isCompleted_iff] at this ⊢ <;> omega
  | @retry a b c wf w hdone hb _ ih =>
    have h₁ : completions t (.retried t b wf :: .taskState t a b :: w) = completions t (.taskState t a b :: w) := by
      simp [completions, Event.isCompletion]
    have h₂ : undone t (.retried t b wf :: .taskState t a b :: w) = undone t (.taskState t a b :: w) := by
      simp [undone, Event.isUndone]
    have h₃ : continuations t (.retried t b wf :: .taskState t a b :: w) = continuations t (.taskState t a b :: w) := by
      simp [continuations, Event.isContinuation]
    rw [h₁, h₂, h₃, completions_taskState_cons, undone_taskState_cons, continuations_taskState_cons]
    refine ⟨?_, ih.2⟩
    have := ih.1
    have hopen : b.isCompleted = false := by rcases hb with rfl | rfl <;> rfl
    have hback : (b == .runningDelayed || b == .waiting) = true := by rcases hb with rfl | rfl <;> rfl
    simp only [completed, hdone, hopen, hback, Bool.not_true, Bool.and_self, if_true, Bool.false_eq_true,
      if_false] at this ⊢
    omega

/-- Only completed task executions are processed. -/
def ProcessedDone (v : Option View) : Prop := ∀ x, v = some x → x.processed → x.state.isCompleted

/-- A move that loses nothing keeps the account. -/
theorem Move.balance {v v' : Option View} {w : List Event} (h : Move sc t v w v')
    (hsc : ¬sc.revives ∧ ¬sc.loses ∧ ¬sc.marks) (hstray : ∀ ev ∈ w, ¬ev.Stray)
    (hcont : ∀ st p wf, .continued t st p wf ∈ w → st.isCompleted ∧ p = false) (hv : ProcessedDone v) :
    ProcessedDone v' ∧ completions t w + outstanding v = undone t w + continuations t w + outstanding v' := by
  have hopen : ∀ {x : View}, v = some x → ¬x.state.isCompleted → x.processed = false := fun hx ho =>
    Bool.eq_false_iff.mpr fun hp => ho (hv _ hx hp)
  cases h with
  | @create x hstate hp =>
    refine ⟨fun y hy => by cases hy; simp [hp], ?_⟩
    have : ¬x.state.isCompleted := by rcases hstate with ⟨h, -⟩ | h <;> simp [h]
    simp [completions, undone, continuations, outstanding, this, Event.isCompletion, Event.isUndone, Event.isContinuation]
  | @defer x hstate hkey =>
    have ho : ¬x.state.isCompleted := hstray (.deferred t x.state) List.mem_cons_self
    refine ⟨fun y hy => by cases hy; simp [hopen rfl ho], ?_⟩
    have h₁ : completions t [.deferred t x.state, .taskState t x.state .waiting] = 0 := by
      simp [completions, Event.isCompletion]
    have h₂ : undone t [.deferred t x.state, .taskState t x.state .waiting] = 0 := by
      simp [undone, Event.isUndone, ho]
    have h₃ : continuations t [.deferred t x.state, .taskState t x.state .waiting] = 0 := by
      simp [continuations, Event.isContinuation]
    simp [h₁, h₂, h₃, outstanding, ho]
  | @change x b hown hkeep hwait =>
    have hchain := (Chain.change (t := t) hkeep hwait (.nil b)).completions_eq
    refine ⟨fun y hy => by cases hy; exact fun hp => hkeep (hv _ rfl hp), ?_⟩
    by_cases ho : x.state.isCompleted
    · simp only [completed, ho, hkeep ho, outstanding, if_true, true_and] at hchain ⊢
      omega
    · simp only [completed, ho, hopen rfl ho, outstanding, and_true] at hchain ⊢
      omega
  | @attempt x b w hown ho hc =>
    have hchain := hc.completions_eq
    have hp := hopen rfl ho
    refine ⟨fun y hy => by cases hy; simp [hp], ?_⟩
    simp only [completed, ho, hp, outstanding, and_true] at hchain ⊢
    omega
  | @rewait x hstate =>
    refine ⟨hv, ?_⟩
    simp [completions, undone, continuations, Event.isCompletion, Event.isUndone, Event.isContinuation]
  | @reopen x hown hloses =>
    refine ⟨fun y hy => by cases hy; simp, ?_⟩
    have hout : ¬(x.state.isCompleted ∧ x.processed = false) := fun ⟨h, h'⟩ => hsc.2.1 (hloses h h')
    rw [completions_taskState_cons, undone_taskState_cons, continuations_taskState_cons]
    simp only [outstanding, if_neg hout]
    simp [completions, undone, continuations]
  | revive hown h => exact absurd h hsc.1
  | @continued x wf h =>
    obtain ⟨hdone, hp⟩ := hcont x.state x.processed wf (List.mem_singleton_self _)
    refine ⟨fun y hy => by cases hy; exact fun _ => hdone, ?_⟩
    simp [completions, undone, continuations, outstanding, hdone, hp, Event.isCompletion, Event.isUndone,
      Event.isContinuation]
  | marked h => exact absurd h hsc.2.2
  | scheduled | requested =>
    refine ⟨hv, ?_⟩
    simp [completions, undone, continuations, Event.isCompletion, Event.isUndone, Event.isContinuation]

theorem Path.balance {v v' : Option View} {w : List Event} (h : Path sc t v w v')
    (hsc : ¬sc.revives ∧ ¬sc.loses ∧ ¬sc.marks) (hstray : ∀ ev ∈ w, ¬ev.Stray)
    (hcont : ∀ st p wf, .continued t st p wf ∈ w → st.isCompleted ∧ p = false) (hv : ProcessedDone v) :
    ProcessedDone v' ∧ completions t w + outstanding v = undone t w + continuations t w + outstanding v' := by
  induction h with
  | nil v => exact ⟨hv, by simp [completions, undone, continuations]⟩
  | cons head _ ih =>
    obtain ⟨hmid, hhead⟩ := head.balance hsc (fun ev h => hstray ev (List.mem_append_left _ h))
      (fun st p wf h => hcont st p wf (List.mem_append_left _ h)) hv
    obtain ⟨hend, htail⟩ := ih (fun ev h => hstray ev (List.mem_append_right _ h))
      (fun st p wf h => hcont st p wf (List.mem_append_right _ h)) hmid
    refine ⟨hend, ?_⟩
    simp only [completions_append, undone_append, continuations_append]
    omega

/-! ### Runs -/

/-- In every run of guarded steps, a task execution is continued only when it is completed and not processed yet; the
    flag `processed` is set in no other way; the completions that were not taken back are those that were continued
    and at most one more, and while the workflow is `RUNNING`, all of them are continued; and the dispatcher got for
    the task what its on-clauses selected, once for every time that it was continued. -/
def ContinuedOnce (spec : WorkflowSpec) (ls : ListSort) (guard : Engine → Request × Oracle → Prop) : Prop :=
  ∀ s t, (engine spec ls).Reach guard s →
    (∀ st p wf, .continued t st p wf ∈ s.trace → st.isCompleted ∧ p = false) ∧
    .marked t ∉ s.trace ∧
    completions t s.trace = undone t s.trace + continuations t s.trace + outstanding (s.view t) ∧
    (s.wf.state = .running → outstanding (s.view t) = 0) ∧
    sent t s.trace = owed t [] s.trace

/-- The step loses no completion: its request is regular and restarts no task that still has to be continued; no
    join is retried in a workflow that is not paused, and no command takes a completed join back. -/
structure LosesNoCompletion (spec : WorkflowSpec) (ls : ListSort) (s : Engine) (l : Request × Oracle) : Prop where
  regular : l.1.Regular spec s
  restart : ¬l.1.Loses s
  stray : ∀ ev ∈ newEvents spec ls s l, ¬ev.Stray

theorem steady_initial {s : Engine} (h : (engine spec ls).init s) : s.Clean ∧ s.Steady := by
  obtain ⟨wfId, isSub, rfl⟩ := h
  have hnone : ∀ t, (Engine.initial wfId isSub).view t = none := fun t => by simp [Engine.initial, Engine.view]
  have htrace : (Engine.initial wfId isSub).trace = [] := rfl
  have hjobs : (Engine.initial wfId isSub).jobs = [] := rfl
  refine ⟨by simp [Engine.Clean, htrace], ⟨by simp [hnone], by simp [htrace], by simp [hjobs]⟩, fun _ t v hv => ?_⟩
  cases (hnone t).symm.trans hv

theorem Request.Regular.of_take {s s₀ : Engine} {r : Request} (htasks : s₀.tasks = s.tasks) (hwf : s₀.wf = s.wf)
    (h : r.Regular spec s) : r.Regular spec s₀ where
  continues t v hr hv := h.continues t v hr (view_eq_of_tasks htasks t ▸ hv)
  result t i e x ts hr he := h.result t i e x ts hr (htasks ▸ he)
  update t i e x hr he := h.update t i e x hr (htasks ▸ he)
  rerun t reset skip hr := by
    refine ⟨(h.rerun t reset skip hr).1, (h.rerun t reset skip hr).2.imp (hwf ▸ id) fun hs u v hv => ?_⟩
    exact hs u v (view_eq_of_tasks htasks u ▸ hv)
  rerunSub t i hr u v hv := h.rerunSub t i hr u v (view_eq_of_tasks htasks u ▸ hv)

/-- A step that loses no completion settles them all, if the workflow runs. -/
theorem steady_step {s : Engine} {l : Request × Oracle} (hclean : s.Clean) (hs : s.Steady)
    (h : LosesNoCompletion spec ls s l) : (step spec ls s l).Clean ∧ (step spec ls s l).Steady := by
  have hjobs : s.JobsOk := by
    intro t st info hj
    rcases hs.late t st info hj with ⟨hdone, hne⟩ | rfl
    · refine ⟨hne, ?_⟩
      rintro rfl
      simp at hdone
    · exact ⟨nofun, nofun⟩
  have hc : (step spec ls s l).Clean := by
    intro ev hev
    rw [(stepped_newEvents _ _ hjobs l).1] at hev
    exact (List.mem_append.mp hev).elim (hclean ev) (h.stray ev)
  refine ⟨hc, ?_⟩
  rcases step_cases spec ls s l with heq | ⟨s₀, htake, hstep⟩
  · rw [heq]
    exact hs
  obtain ⟨htasks, htrace, hwf, hsub, hrun⟩ := take_eq htake
  have hview := view_eq_of_tasks htasks
  have hs₀ : s₀.Steady := by
    refine ⟨⟨fun t v hv => hs.processed t v (hview t ▸ hv), fun t st p wf hev => hs.continued t st p wf (htrace ▸ hev),
      fun t st info hj => hs.late t st info (hsub _ hj)⟩, fun hr t v hv => ?_⟩
    exact hs.settled (hwf ▸ hr) t v (hview t ▸ hv)
  rcases hstep with heq | hok
  · rw [heq]
    exact hs₀
  have hstart : l.1 = .start → s₀.tasks = [] := by
    intro hl
    rw [hl] at htake
    simp only [take] at htake
    split at htake
    next hcond => exact htasks ▸ hcond.2
    · cases htake
  have hset := settles_handle ls l.2 (fun _ => hs₀) (h.regular.of_take htasks hwf) hstart
    fun t st info hr => hs.late t st info (hrun _ hr)
  rw [Ends, hok] at hset
  exact hset hc

theorem steady_reach {s : Engine} (h : (engine spec ls).Reach (LosesNoCompletion spec ls) s) : s.Clean ∧ s.Steady :=
  h.invariant (fun _ => steady_initial) fun _ _ _ hs hg => steady_step hs.1 hs.2 hg

/-- What a step that loses no completion is not. -/
theorem LosesNoCompletion.scope {s : Engine} {l : Request × Oracle} (h : LosesNoCompletion spec ls s l) :
    ¬(scopeOf s l.1).revives ∧ ¬(scopeOf s l.1).loses ∧ ¬(scopeOf s l.1).marks := by
  refine ⟨fun hr => ?_, h.restart, fun hm => ?_⟩
  · obtain ⟨r, o⟩ := l
    simp only [scopeOf] at hr
    cases r <;> simp only [Request.Revives] at hr
    case runJob j =>
      cases j <;> simp only at hr
      obtain ⟨v, hv, hdone⟩ := hr
      exact h.regular.continues _ v rfl hv hdone
  · obtain ⟨r, o⟩ := l
    simp only [scopeOf] at hm
    cases r <;> simp only [Request.Marks] at hm
    exact hm.2 ((h.regular.rerun _ _ _ rfl).2.resolve_left hm.1)

theorem balance_reach {s : Engine} (h : (engine spec ls).Reach (LosesNoCompletion spec ls) s) (t : TaskId) :
    completions t s.trace = undone t s.trace + continuations t s.trace + outstanding (s.view t) := by
  refine h.invariant (I := fun s =>
    completions t s.trace = undone t s.trace + continuations t s.trace + outstanding (s.view t)) ?_ fun s l hr ih hg => ?_
  · rintro s ⟨wfId, isSub, rfl⟩
    rfl
  · obtain ⟨hclean, hs⟩ := steady_reach hr
    obtain ⟨htrace, hpath⟩ := stepped_newEvents spec ls (reach_JobsOk hr) l
    have hafter := (steady_step hclean hs hg).2
    have hbalance := (hpath t).balance hg.scope (fun ev hev => hg.stray ev (List.mem_filter.mp hev).1)
      (fun st p wf hev => hafter.continued t st p wf (htrace ▸ List.mem_append_right _ (List.mem_filter.mp hev).1))
      fun x hx => hs.processed t x hx
    have := hbalance.2
    rw [completions_about, undone_about, continuations_about] at this
    rw [engine_step, htrace, completions_append, undone_append, continuations_append]
    omega

/-- A path of a step that loses no completion marks nothing. -/
theorem Path.not_marked {v v' : Option View} {w : List Event} (h : Path sc t v w v') (hmarks : ¬sc.marks) :
    .marked t ∉ w := by
  induction h with
  | nil => exact List.not_mem_nil
  | cons head _ ih =>
    refine fun hmem => (List.mem_append.mp hmem).elim (fun hmem => ?_) ih
    cases head with
    | marked h => exact hmarks h
    | attempt hown hopen hc =>
      rcases hc.mem _ hmem with ⟨_, _, h⟩ | ⟨_, _, h⟩ <;> cases h
    | _ => simp at hmem

/-- Facts about all events of the trace, by the steps that added them. -/
theorem trace_reach {guard : Engine → Request × Oracle → Prop} {p : Event → Prop} {s : Engine}
    (h : (engine spec ls).Reach guard s)
    (hstep : ∀ s l, (engine spec ls).Reach guard s → guard s l → ∀ ev ∈ newEvents spec ls s l, p ev) :
    ∀ ev ∈ s.trace, p ev := by
  refine h.invariant (I := fun s => ∀ ev ∈ s.trace, p ev) ?_ fun s l hr ih hg ev hev => ?_
  · rintro s ⟨wfId, isSub, rfl⟩ ev hev
    cases hev
  · rw [engine_step, (stepped_newEvents _ _ (reach_JobsOk hr) l).1] at hev
    exact (List.mem_append.mp hev).elim (ih ev) (hstep s l hr hg ev)

theorem outstanding_settled {s : Engine} (h : s.Settled) (t : TaskId) : outstanding (s.view t) = 0 := by
  cases hv : s.view t with
  | none => rfl
  | some v =>
    refine if_neg fun ⟨hdone, hp⟩ => ?_
    have := h t v hv hdone
    simp [hp] at this

/-- In every run that loses no completion, each completion is continued once, with the commands selected for it. -/
theorem completed_tasks_continued_once (spec : WorkflowSpec) (ls : ListSort) :
    ContinuedOnce spec ls (LosesNoCompletion spec ls) := by
  intro s t hr
  have hs := (steady_reach hr).2
  have hmarked : ∀ ev ∈ s.trace, ev ≠ .marked t := by
    refine trace_reach hr fun s l hr hg ev hev heq => ?_
    have hpath := (stepped_newEvents spec ls (reach_JobsOk hr) l).2 t
    refine hpath.not_marked hg.scope.2.2 ?_
    exact List.mem_filter.mpr ⟨heq ▸ hev, by simp [Event.about, Event.task]⟩
  refine ⟨fun st p wf hev => ?_, fun hev => hmarked _ hev rfl, balance_reach hr t,
    fun hrun => outstanding_settled (hs.settled hrun) t, sent_eq_owed spec ls hr t⟩
  exact hs.continued t st p wf hev

/-! ### A rerun after a cancelled pause -/

/-- Two start tasks, of which the second one is followed by another task. -/
def twoBranchesSpec : WorkflowSpec where
  tasks := [{ name := "a" }, { name := "b", onSuccess := [{ name := "c" }] }, { name := "c" }]

/-- While the workflow is paused, `b` succeeds and `a` fails; then the workflow is cancelled, and `a` is rerun. -/
def cancelledPauseRun : List (Request × Oracle) :=
  [(.start, {}), (.startTask ⟨0, true, false, none, false, false⟩, {}), (.startTask ⟨1, true, false, none, false, false⟩, {}),
    (.pause, {}), (.actionResult 1 0 (.success none), {}), (.actionResult 0 0 (.error none), {}),
    (.stop .cancelled none, {}), (.rerun 0 true false, {})]

/-- The rerun marks `b` as processed, and `c` never starts. -/
theorem rerun_marks_unprocessed_task : ¬ContinuedOnce twoBranchesSpec default fun _ _ => True := by
  intro h
  have hreach : (engine twoBranchesSpec default).Reach (fun _ _ => True)
      ((engine twoBranchesSpec default).run (.initial "w" false) cancelledPauseRun) :=
    .run (.init ⟨"w", false, rfl⟩) (by simp [cancelledPauseRun, System.Guarded])
  refine (h _ 1 hreach).2.1 ?_
  decide

end Mistral
