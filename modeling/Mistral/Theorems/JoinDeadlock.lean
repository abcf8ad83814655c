import Mathlib.Data.Fintype.EquivFin
import Mathlib.Order.WellFounded
import Mistral.Engine.Step
import Mistral.Theorems.JoinFinal

/-! When only joins wait, one of them is decided: the first one. -/

namespace Mistral

/-! ### States in which only joins wait -/

section
variable (spec : WorkflowSpec) (rows : List (TaskId × TaskEx)) (j : TaskSpec)

/-- The execution of the join `j` is `WAITING`. -/
def WaitingJoin : Prop := j ∈ spec.tasks ∧ j.isJoin ∧ ∃ i e, (i, e) ∈ rows ∧ e.name = j.name ∧ e.state = .waiting

/-- Each task has one execution at most, start tasks and the next tasks of completed executions have one, and what is not
    completed is a join that waits. -/
structure Stalled : Prop where
  unique : UniqueNames rows
  started : ∀ t ∈ spec.findStartTasks, ∃ r ∈ rows, r.2.name = t.name
  named : ∀ r ∈ rows, r.2.state.isCompleted → ∀ name ∈ (r.2.nextTasks.getD []).map (·.1), ∃ r' ∈ rows, r'.2.name = name
  waits : ∀ r ∈ rows, r.2.state.isCompleted ∨ ∃ t, t.name = r.2.name ∧ WaitingJoin spec rows t

/-- No join that waits comes before the join `j`. -/
def FirstWaiting : Prop := WaitingJoin spec rows j ∧ ∀ k, WaitingJoin spec rows k → ¬Relation.TransGen spec.Edge k j

/-- The logical state of the execution of `j` is `RUNNING` or `ERROR`. -/
def Decided : Prop :=
  ∃ i e l, (i, e) ∈ rows ∧ e.name = j.name ∧ e.state = .waiting ∧ getLogicalTaskState spec rows j e = .ok l ∧
    (l.state = .running ∨ l.state = .error)

end

section
variable {spec : WorkflowSpec} {rows : List (TaskId × TaskEx)} {j t u : TaskSpec}

/-- An execution of a task before the first join is completed. -/
theorem Stalled.completed (h : Stalled spec rows) (hfirst : FirstWaiting spec rows j) (ht : t ∈ spec.tasks)
    (hbefore : Relation.TransGen spec.Edge t j) {i : TaskId} {e : TaskEx} (he : lastNamed rows t.name = some (i, e)) :
    e.state.isCompleted := by
  obtain ⟨hmem, hname⟩ := lastNamed_some he
  obtain hdone | ⟨k, hk, hwaiting⟩ := h.waits (i, e) hmem
  · exact hdone
  · cases WorkflowSpec.eq_of_name hwaiting.1 ht (hk.trans hname)
    exact absurd hbefore (hfirst.2 _ hwaiting)

/-- No route leads to a task before the first join that has no execution. -/
theorem Stalled.not_open (h : Stalled spec rows) (hfirst : FirstWaiting spec rows j) (ht : t ∈ spec.tasks)
    (hbefore : Relation.TransGen spec.Edge t j) (hnone : lastNamed rows t.name = none) :
    ¬Open spec (lastNamed rows) t := by
  intro hopen
  induction hopen with
  | @start t hins =>
    have hstart : t ∈ spec.findStartTasks := List.mem_filter.mpr ⟨ht, by simp [WorkflowSpec.hasInboundTransitions, hins]⟩
    obtain ⟨r, hr, hname⟩ := h.started t hstart
    exact lastNamed_none.mp hnone r hr hname
  | @leads t u i e hgets he hleads =>
    have hedge : spec.Edge u t := (WorkflowSpec.edge_iff ht).mpr hgets.mem
    have hdone := h.completed hfirst hedge.1 (.head hedge hbefore) he
    obtain hnot | ⟨next, hnext, hmem⟩ := hleads
    · rw [hdone] at hnot
      cases hnot
    · have hnamed := h.named (i, e) (lastNamed_some he).1 hdone t.name
      rw [hnext] at hnamed
      obtain ⟨r, hr, hname⟩ := hnamed hmem
      exact lastNamed_none.mp hnone r hr hname
  | @up t u hdescends _ ih =>
    have hedge : spec.Edge u t := (WorkflowSpec.edge_iff ht).mpr hdescends.1.mem
    exact ih hedge.1 (.head hedge hbefore) hdescends.2

theorem Stalled.not_pends (h : Stalled spec rows) (hfirst : FirstWaiting spec rows j)
    (hu : u ∈ spec.findInboundTaskSpecs j) : ¬Pends spec (lastNamed rows) u := by
  have hedge : spec.Edge u j := (WorkflowSpec.edge_iff hfirst.1.1).mpr hu
  rintro (⟨i, e, he, hopen⟩ | ⟨hnone, hopen⟩)
  · rw [h.completed hfirst hedge.1 (.single hedge) he] at hopen
    cases hopen
  · exact h.not_open hfirst hedge.1 (.single hedge) hnone hopen

/-- An inbound task of the first join has triggered it or never will. -/
theorem Stalled.induced (h : Stalled spec rows) (hfirst : FirstWaiting spec rows j)
    (hu : u ∈ spec.findInboundTaskSpecs j) {x : Induced} (hx : induced spec (Mistral.lastNamed rows) j u = .ok x) :
    x.state = .running ∨ x.state = .error := by
  have hcontributes : Contributes spec (Mistral.lastNamed rows) j u (.ok x) := hx ▸ contributes
  have hnot := h.not_pends hfirst hu
  generalize hr : (Except.ok x : Except Exc Induced) = r at hcontributes
  cases hcontributes with
  | running => cases hr; exact .inl rfl
  | error => cases hr; exact .inr rfl
  | waiting _ _ hpends => exact absurd hpends hnot
  | _ => cases hr

theorem countState_add_eq {l : List Induced} (h : ∀ x ∈ l, x.state = .running ∨ x.state = .error) :
    countState l .running + countState l .error = l.length := by
  induction l with
  | nil => rfl
  | cons x l ih =>
    obtain ⟨hx, hl⟩ := List.forall_mem_cons.mp h
    have ih := ih hl
    simp only [countState, List.countP_cons, List.length_cons] at *
    obtain hst | hst := hx <;> simp [hst] <;> omega

/-- If no inbound task is waited for, the join is decided. -/
theorem decideJoin_decided {l : List Induced} {join : Join} (h : ∀ x ∈ l, x.state = .running ∨ x.state = .error)
    (hdepth : totalDepth l .running = countState l .running) :
    (decideJoin l join).state = .running ∨ (decideJoin l join).state = .error := by
  have hadd := countState_add_eq h
  have hcardinality : ∀ n, (cardinalityState l n).state = .running ∨ (cardinalityState l n).state = .error := fun n => by
    by_cases hn : n ≤ countState l .running
    · exact .inl (cardinalityState_state.1.mpr hn)
    · exact .inr (cardinalityState_state.2.1.mpr ⟨by omega, by omega⟩)
  cases join with
  | all =>
    obtain ⟨hrunning, herror, -⟩ := allState_state hdepth (by omega)
    by_cases hall : l.length = countState l .running
    · exact .inl (hrunning.mpr hall)
    · exact .inr (herror.mpr ⟨hall, by omega⟩)
  | one => exact hcardinality 1
  | number n => exact hcardinality n

/-- The first join that waits is decided if and only if no search for it comes to an execution without a list of next
    tasks. -/
theorem first_join_decided_iff (hacyclic : spec.Acyclic) (h : Stalled spec rows) (hfirst : FirstWaiting spec rows j) :
    Decided spec rows j ↔ Searchable spec rows j := by
  obtain ⟨-, hjoin, i, e, hmem, hname, hst⟩ := hfirst.1
  obtain ⟨join, hjoin⟩ := Option.isSome_iff_exists.mp hjoin
  have hlogical : ∀ e, getLogicalTaskState spec rows j e = joinVerdict spec (lastNamed rows) join j := fun e => by
    rw [getLogicalTaskState, hjoin, ← getJoinLogicalState_eq]
  by_cases hins : spec.findInboundTaskSpecs j = []
  · refine iff_of_true ⟨i, e, { state := .running }, hmem, hname, hst, ?_, .inl rfl⟩ fun u hu => ?_
    · rw [hlogical, joinVerdict, if_pos hins]
      rfl
    · rw [hins] at hu
      cases hu
  constructor
  · rintro ⟨-, e', l, -, -, -, hl, -⟩ u hu
    rw [hlogical] at hl
    obtain ⟨ins, hcontributions, -⟩ := joinVerdict_ok hins hl
    obtain ⟨x, -, hx⟩ := forall₂_mem_right hcontributions.flip hu
    exact (induced_ok hx).2.2.2
  · intro hsearch
    obtain ⟨ins, hmap⟩ := exists_verdict hacyclic hsearch
    have hcontributions := mapM_ok.mp hmap
    refine ⟨i, e, decideJoin ins join, hmem, hname, hst, ?_, ?_⟩
    · rw [hlogical, joinVerdict_of_ok hins hmap]
    · refine decideJoin_decided (fun x hx => ?_) (totalDepth_of_induced hcontributions)
      obtain ⟨u, hu, hx⟩ := forall₂_mem_right hcontributions hx
      exact h.induced hfirst hu hx

end

/-! ### Runs -/

/-- A request to run a task again. -/
def Request.isRerun : Request → Bool
  | .rerun _ _ _ | .rerunInSubworkflow _ _ => true
  | _ => false

/-- In every run without reruns whose steps are guarded, one of the joins that wait is decided if nothing else goes on. -/
def StalledJoinsDecided (spec : WorkflowSpec) (ls : ListSort) (guard : Engine → Request × Oracle → Prop) : Prop :=
  spec.Acyclic → ∀ s, (engine spec ls).Reach (fun s l => guard s l ∧ l.1.isRerun = false) s → Stalled spec s.rows →
    (∃ j, WaitingJoin spec s.rows j) → ∃ j, WaitingJoin spec s.rows j ∧ Decided spec s.rows j

/-- If only joins wait after the step, the searches for one of the first of them come to no execution without a list of next
    tasks. -/
def LeavesSearchable (spec : WorkflowSpec) (ls : ListSort) (s : Engine) (l : Request × Oracle) : Prop :=
  let s' := step spec ls s l
  Stalled spec s'.rows → (∃ j, WaitingJoin spec s'.rows j) → ∃ j, FirstWaiting spec s'.rows j ∧ Searchable spec s'.rows j

/-- No joins deadlock in a run whose steps leave them searchable. -/
theorem stalled_joins_decided (spec : WorkflowSpec) (ls : ListSort) :
    StalledJoinsDecided spec ls (LeavesSearchable spec ls) := by
  intro hacyclic s hreach hstalled hwaiting
  have hsearch : ∃ j, FirstWaiting spec s.rows j ∧ Searchable spec s.rows j := by
    cases hreach with
    | init hinit =>
      obtain ⟨wfId, isSub, rfl⟩ := hinit
      obtain ⟨j, -, -, i, e, hmem, -⟩ := hwaiting
      cases hmem
    | step _ hguard => exact hguard.1 hstalled hwaiting
  obtain ⟨j, hfirst, hsearch⟩ := hsearch
  exact ⟨j, hfirst.1, (first_join_decided_iff hacyclic hstalled hfirst).mpr hsearch⟩

/-- A join after a start task, and after a task that another start task leads to. -/
def waitingJoinSpec : WorkflowSpec where
  tasks := [{ name := "v", onSuccess := [{ name := "u" }] }, { name := "u", onSuccess := [{ name := "j" }] },
    { name := "x", onSuccess := [{ name := "j" }] }, { name := "j", join := some .all }]

/-- `x` triggers the join, and the workflow is paused. Then the action of `v` succeeds, and publishing fails. -/
def forcedFailureRun : List (Request × Oracle) :=
  [(.start, {}), (.startTask ⟨0, true, false, none, false, false⟩, {}), (.startTask ⟨1, true, false, none, false, false⟩, {}),
    (.actionResult 1 0 (.success none), {}), (.pause, {}),
    (.actionResult 0 0 (.success none), { raises := fun site => site == .publish 0 })]

/-- The search for the join comes to `v`, which has no list of next tasks. -/
theorem forced_failure_deadlocks_join : ¬StalledJoinsDecided waitingJoinSpec default fun _ _ => True := by
  intro h
  have hacyclic : waitingJoinSpec.Acyclic := acyclic_of_rank (fun t => waitingJoinSpec.tasks.findIdx (·.name == t.name)) (by decide)
  have hreach : (engine waitingJoinSpec default).Reach (fun _ l => True ∧ l.1.isRerun = false)
      ((engine waitingJoinSpec default).run (.initial "w" false) forcedFailureRun) :=
    .run (.init ⟨"w", false, rfl⟩) (by simp [forcedFailureRun, System.Guarded, Request.isRerun])
  have h := h hacyclic _ hreach
  have hunique : UniqueNames ((engine waitingJoinSpec default).run (.initial "w" false) forcedFailureRun).rows := by
    unfold UniqueNames
    decide +kernel
  have hstarted : ∀ t ∈ waitingJoinSpec.findStartTasks,
      ∃ r ∈ ((engine waitingJoinSpec default).run (.initial "w" false) forcedFailureRun).rows, r.2.name = t.name := by
    decide +kernel
  have hnamed : ∀ r ∈ ((engine waitingJoinSpec default).run (.initial "w" false) forcedFailureRun).rows,
      r.2.state.isCompleted → ∀ name ∈ (r.2.nextTasks.getD []).map (·.1),
        ∃ r' ∈ ((engine waitingJoinSpec default).run (.initial "w" false) forcedFailureRun).rows, r'.2.name = name := by
    decide +kernel
  have hstates : ((engine waitingJoinSpec default).run (.initial "w" false) forcedFailureRun).rows.map
      (fun r => (r.2.name, r.2.state)) = [("v", .error), ("x", .success), ("j", .waiting)] := by
    decide +kernel
  have hraises : ∀ r ∈ ((engine waitingJoinSpec default).run (.initial "w" false) forcedFailureRun).rows, r.2.name = "j" →
      getLogicalTaskState waitingJoinSpec ((engine waitingJoinSpec default).run (.initial "w" false) forcedFailureRun).rows
        { name := "j", join := some .all } r.2 = .error notIterable := by
    decide +kernel
  generalize ((engine waitingJoinSpec default).run (.initial "w" false) forcedFailureRun).rows = rows at *
  have hcases : ∀ r ∈ rows, r.2.state.isCompleted ∨ r.2.name = "j" ∧ r.2.state = .waiting := by
    intro r hr
    have hmem := List.mem_map_of_mem (f := fun r => (r.2.name, r.2.state)) hr
    rw [hstates] at hmem
    simp only [List.mem_cons, List.not_mem_nil, or_false, Prod.mk.injEq] at hmem
    rcases hmem with ⟨-, hst⟩ | ⟨-, hst⟩ | hj
    · exact .inl (hst ▸ rfl)
    · exact .inl (hst ▸ rfl)
    · exact .inr hj
  have hwaiting : WaitingJoin waitingJoinSpec rows { name := "j", join := some .all } := by
    have hmem : ("j", State.waiting) ∈ rows.map fun r => (r.2.name, r.2.state) := by rw [hstates]; decide
    obtain ⟨⟨i, e⟩, hr, heq⟩ := List.mem_map.mp hmem
    obtain ⟨hname, hst⟩ := Prod.mk.injEq .. ▸ heq
    exact ⟨by decide, rfl, i, e, hr, hname, hst⟩
  have hwaits : ∀ r ∈ rows, r.2.state.isCompleted ∨ ∃ t, t.name = r.2.name ∧ WaitingJoin waitingJoinSpec rows t :=
    fun r hr => (hcases r hr).imp_right fun hj => ⟨_, hj.1.symm, hwaiting⟩
  obtain ⟨j, ⟨hmem, -, -⟩, i, e, l, he, hname, hst, hlogical, -⟩ := h ⟨hunique, hstarted, hnamed, hwaits⟩ ⟨_, hwaiting⟩
  -- The join is the only one that waits.
  rcases hcases (i, e) he with hdone | ⟨hj, -⟩
  · rw [hst] at hdone
    cases hdone
  · cases WorkflowSpec.eq_of_name hmem hwaiting.1 (hname.symm.trans hj)
    rw [hraises (i, e) he hj] at hlogical
    cases hlogical

end Mistral
