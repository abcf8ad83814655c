import Mistral.Workflow.AffectedJoins

/-! The joins whose logical state a task can change are found by the search that starts at the task. -/

namespace Mistral

/-- The task executions agree on everything but what the execution of the task `name` is. -/
def AgreeExcept (name : String) (rows rows' : List (TaskId × TaskEx)) : Prop :=
  ∀ i (e : TaskEx), e.name ≠ name → ((i, e) ∈ rows ↔ (i, e) ∈ rows')

variable {spec : WorkflowSpec} {rows rows' : List (TaskId × TaskEx)} {t u j : TaskSpec} {name : String}

/-! ### Lookups -/

theorem UniqueNames.lastNamed_iff (h : UniqueNames rows) {i : TaskId} {e : TaskEx} :
    Mistral.lastNamed rows name = some (i, e) ↔ (i, e) ∈ rows ∧ e.name = name := by
  constructor
  · exact Mistral.lastNamed_some
  · rintro ⟨hmem, rfl⟩
    exact h.lastNamed hmem

theorem AgreeExcept.lastNamed_eq (h : AgreeExcept name rows rows') (hu : UniqueNames rows) (hu' : UniqueNames rows')
    {other : String} (hne : other ≠ name) : lastNamed rows other = lastNamed rows' other := by
  ext ⟨i, e⟩
  rw [hu.lastNamed_iff, hu'.lastNamed_iff]
  refine and_congr_left fun hname => h i e ?_
  rw [hname]
  exact hne

/-- An execution of a join is in the cache of the search, also where the states of another task were different. -/
theorem joinExecution_eq (hu : UniqueNames rows) (hj : j ∈ spec.tasks) (hjoin : j.isJoin) {i : TaskId} {e : TaskEx}
    (he : (i, e) ∈ rows) (hname : e.name = j.name) : joinExecution spec rows j.name = some i := by
  have hlast : lastNamed rows j.name = some (i, e) := hu.lastNamed_iff.mpr ⟨he, hname⟩
  simp [joinExecution, WorkflowSpec.getTask_of_mem hj, hjoin, hlast]

/-! ### From the task to the join -/

theorem Looked.mem_tasks {found : String → Option (TaskId × TaskEx)} (h : Looked spec found j u) : u ∈ spec.tasks := by
  cases h with
  | inbound hmem => exact (WorkflowSpec.mem_findInboundTaskSpecs.mp hmem).1
  | up _ _ hmem => exact (WorkflowSpec.mem_findInboundTaskSpecs.mp hmem).1

theorem mem_outbound (h : u ∈ spec.findInboundTaskSpecs t) : t.name ∈ (spec.findOutboundTaskNames u).toFinset := by
  have hedge := (WorkflowSpec.mem_findInboundTaskSpecs.mp h).2
  simpa [WorkflowSpec.transitionExists] using hedge

/-- The search of the engine comes from a task to every join that looks it up. -/
theorem Looked.reachable (h : Looked spec (lastNamed rows) j u) :
    Worklist.Reachable (clausesAfter spec rows) (spec.findOutboundTaskNames u).toFinset j.name := by
  induction h with
  | inbound hmem => exact ⟨_, mem_outbound hmem, .refl⟩
  | @up u v h hnone hmem ih =>
    obtain ⟨a, ha, hpath⟩ := ih
    refine ⟨_, mem_outbound hmem, hpath.head ?_⟩
    -- A task without an execution does not stop the search.
    have hgo : joinExecution spec rows v.name = none := by
      simp [joinExecution, WorkflowSpec.getTask_of_mem h.mem_tasks, hnone]
    simpa [clausesAfter, addedNames, WorkflowSpec.getTask_of_mem h.mem_tasks, hgo] using ha

theorem exists_joinVerdict (spec : WorkflowSpec) (hjoin : j.isJoin) (e : TaskEx) :
    ∃ join, ∀ rows, getLogicalTaskState spec rows j e = joinVerdict spec (lastNamed rows) join j := by
  obtain ⟨join, hj⟩ := Option.isSome_iff_exists.mp hjoin
  refine ⟨join, fun rows => ?_⟩
  rw [getLogicalTaskState, hj]
  exact getJoinLogicalState_eq

/-- The search ends, whatever order it takes the names in, and it finds the execution of every join other than `t` whose
    logical state can change with the execution of `t`. -/
theorem affected_joins_found (spec : WorkflowSpec) (t : TaskSpec) (ht : t ∈ spec.tasks)
    (rows rows' : List (TaskId × TaskEx)) (hu : UniqueNames rows) (hu' : UniqueNames rows')
    (hagree : AgreeExcept t.name rows rows') :
    (WellFounded fun w' w => Worklist.Round (clausesAfter spec rows) (joinExecution spec rows) w w') ∧
    ∀ j ∈ spec.tasks, j.isJoin → j ≠ t → ∀ i (e : TaskEx), (i, e) ∈ rows → e.name = j.name →
      getLogicalTaskState spec rows j e ≠ getLogicalTaskState spec rows' j e →
      i ∈ findIndirectlyAffectedTaskExecutions spec rows t ∧
      ∀ w, AffectedRounds spec rows (affectedStart spec t) w → w.todo = ∅ → i ∈ w.found := by
  refine ⟨affected_terminates spec rows, fun j hj hjoin hne i e he hname hdiff => ?_⟩
  have hlooked : Looked spec (lastNamed rows) j t := by
    by_contra hnot
    obtain ⟨join, hverdict⟩ := exists_joinVerdict spec hjoin e
    refine hdiff ?_
    rw [hverdict, hverdict]
    refine joinVerdict_congr fun u hlooked => .inl (hagree.lastNamed_eq hu hu' fun hname => hnot ?_)
    obtain rfl := WorkflowSpec.eq_of_name hlooked.mem_tasks ht hname
    exact hlooked
  have hfound : ∀ w, AffectedRounds spec rows (affectedStart spec t) w → w.todo = ∅ → i ∈ w.found :=
    fun w hrun hdone => Worklist.mem_found hrun (clausesAfter_start ht) hdone hlooked.reachable
      (fun hname => hne (WorkflowSpec.eq_of_name hj ht hname)) (joinExecution_eq hu hj hjoin he hname)
  obtain ⟨w, hrun, hdone, hsame⟩ := findIndirectlyAffected_rounds spec rows t
  have hmem := hfound w hrun hdone
  rw [hsame, List.mem_toFinset] at hmem
  exact ⟨hmem, hfound⟩

/-- The join `j` waits for `u`, and only `a` leads to `u`. -/
def affectedSpec : WorkflowSpec where
  tasks := [{ name := "a", onSuccess := [{ name := "u" }] }, { name := "u", onSuccess := [{ name := "j" }] },
    { name := "j", join := some .all }]

/-- The task `a` in a state, and the join. -/
def affectedRows (st : State) : List (TaskId × TaskEx) :=
  [(0, { name := "a", state := st, nextTasks := some [] }), (1, { name := "j", state := .waiting })]

theorem affected_joins_found_through_task :
    1 ∈ findIndirectlyAffectedTaskExecutions affectedSpec (affectedRows .running)
      { name := "a", onSuccess := [{ name := "u" }] } := by
  refine ((affected_joins_found affectedSpec { name := "a", onSuccess := [{ name := "u" }] } (by decide)
    (affectedRows .running) (affectedRows .success) (by unfold UniqueNames; decide) (by unfold UniqueNames; decide) ?_).2
    { name := "j", join := some .all } (by decide) rfl (by decide) 1 { name := "j", state := .waiting } (by decide) rfl
    (by decide)).1
  intro i e hne
  simp only [affectedRows, List.mem_cons, Prod.mk.injEq, List.not_mem_nil, or_false]
  refine or_congr_left ⟨?_, ?_⟩ <;> rintro ⟨-, rfl⟩ <;> exact absurd rfl hne

/-- The join `j` is on a cycle through `u`. -/
def cyclicSpec : WorkflowSpec where
  tasks := [{ name := "a", onSuccess := [{ name := "j" }] },
    { name := "j", join := some .all, onSuccess := [{ name := "u" }] }, { name := "u", onSuccess := [{ name := "j" }] }]

/-- The execution of `a` has triggered the join, which is in a state. -/
def cyclicRows (st : State) : List (TaskId × TaskEx) :=
  [(0, { name := "a", state := .success, nextTasks := some [("j", some (.clause .onSuccess))] }),
    (1, { name := "j", state := st, nextTasks := some [] })]

/-- The logical state of a join can change with its own execution, which the search never finds. -/
theorem own_execution_not_found : ¬∀ (spec : WorkflowSpec), ∀ t ∈ spec.tasks, ∀ (rows rows' : List (TaskId × TaskEx)),
    UniqueNames rows → UniqueNames rows' → AgreeExcept t.name rows rows' →
    ∀ j ∈ spec.tasks, j.isJoin → ∀ i (e : TaskEx), (i, e) ∈ rows → e.name = j.name →
      getLogicalTaskState spec rows j e ≠ getLogicalTaskState spec rows' j e →
      i ∈ findIndirectlyAffectedTaskExecutions spec rows t := by
  intro h
  have hagree : AgreeExcept "j" (cyclicRows .running) (cyclicRows .success) := by
    intro i e hne
    simp only [cyclicRows, List.mem_cons, Prod.mk.injEq, List.not_mem_nil, or_false]
    refine or_congr_right ⟨?_, ?_⟩ <;> rintro ⟨-, rfl⟩ <;> exact absurd rfl hne
  have hmem := h cyclicSpec { name := "j", join := some .all, onSuccess := [{ name := "u" }] } (by decide)
    (cyclicRows .running) (cyclicRows .success) (by unfold UniqueNames; decide) (by unfold UniqueNames; decide) hagree
    { name := "j", join := some .all, onSuccess := [{ name := "u" }] } (by decide) rfl 1
    { name := "j", state := .running, nextTasks := some [] } (by decide) rfl (by decide)
  revert hmem
  decide

end Mistral
