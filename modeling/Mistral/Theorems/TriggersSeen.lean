import Mistral.Workflow.InboundContext

/-! Whether the context that a task gets has the variables of the executions that triggered it. -/

namespace Mistral

section
variable (spec : WorkflowSpec) (rows : List (TaskId × TaskEx)) (t : TaskSpec) (triggeredBy : List TaskId)

/-- The completed execution `e` of an inbound task has triggered `t`. Which executions trigger a join is known from their
    next tasks, and so it is for another task without recorded triggers. -/
structure HasTriggered (i : TaskId) (e : TaskEx) : Prop where
  mem : (i, e) ∈ rows
  inbound : e.name ∈ (spec.findInboundTaskSpecs t).map (·.name)
  completed : e.state.isCompleted
  trigger : if t.isJoin ∨ triggeredBy = [] then e.names t.name else i ∈ triggeredBy

/-- The context of `t` is merged from the outbound contexts of the executions that triggered it, and has their variables. -/
def SeesTriggers (conf : DataFlowConf) (data : TaskId → TaskData) : Prop :=
  ∃ upstream ctx, getUpstreamTaskExecutions spec rows t triggeredBy = .ok upstream ∧
    getTaskInboundContext spec rows t triggeredBy conf data = .ok ctx ∧
    ∀ i e, HasTriggered spec rows t triggeredBy i e → (i, e) ∈ upstream ∧
      (∀ k ≠ taskExecutionKey, ((conf.evaluateTaskOutboundContext (data i)).vars.lookup k).isSome →
        (ctx.vars.lookup k).isSome) ∧
      ∀ k, ((data i).published.vars.lookup k).isSome → (ctx.vars.lookup k).isSome

/-- The query for the upstream executions of `t` finds those that triggered it. -/
def FindsTriggers : Prop :=
  ∃ upstream, getUpstreamTaskExecutions spec rows t triggeredBy = .ok upstream ∧
    ∀ i e, HasTriggered spec rows t triggeredBy i e → (i, e) ∈ upstream

/-- No execution that triggered `t` was skipped. All executions that the query for a join finds have stored their next
    tasks, and what triggered another task belongs to its first inbound task and is marked as processed. -/
def TriggersFound : Prop :=
  (t.isJoin → ∀ r ∈ rows, r.2.name ∈ (spec.findInboundTaskSpecs t).map (·.name) → r.2.state ∈ upstreamStates →
    r.2.nextTasks.isSome) ∧
  ∀ i e, HasTriggered spec rows t triggeredBy i e → e.state ≠ .skipped ∧
    (t.isJoin = false → ((spec.findInboundTaskSpecs t).map (·.name)).head? = some e.name ∧ e.processed)

end

section
variable {spec : WorkflowSpec} {rows upstream : List (TaskId × TaskEx)} {t : TaskSpec} {triggeredBy : List TaskId} {i : TaskId}
  {e : TaskEx} {first : String} {names : List String}

theorem mem_upstreamStates {st : State} (h : st.isCompleted) : st ∈ upstreamStates ↔ st ≠ .skipped := by
  rw [State.isCompleted_iff] at h
  rcases h with rfl | rfl | rfl | rfl <;> decide

/-! ### The queries -/

theorem upstream_of_other (hins : (spec.findInboundTaskSpecs t).map (·.name) = first :: names) (hjoin : t.isJoin = false) :
    getUpstreamTaskExecutions spec rows t triggeredBy = .ok (rows.filter fun r =>
      (triggeredBy = [] || r.1 ∈ triggeredBy) && (r.2.name == first && r.2.state ∈ upstreamStates && r.2.processed)) := by
  unfold getUpstreamTaskExecutions
  rw [hins]
  simp only [hjoin, Bool.false_eq_true, if_false]
  cases triggeredBy with
  | nil =>
    simp only [List.isEmpty_nil, if_true, decide_true, Bool.true_or, Bool.true_and]
    rfl
  | cons i triggeredBy =>
    simp only [List.isEmpty_cons, Bool.false_eq_true, if_false, List.filter_filter, reduceCtorEq, decide_false, Bool.false_or]
    rfl

/-- The query for a join finds the executions that triggered it, if they were not skipped. -/
theorem found_of_join (hins : (spec.findInboundTaskSpecs t).map (·.name) = first :: names) (hjoin : t.isJoin) :
    FindsTriggers spec rows t triggeredBy ↔ TriggersFound spec rows t triggeredBy := by
  have hmem : ∀ i e, HasTriggered spec rows t triggeredBy i e → ((i, e) ∈ rows.filter (fun r =>
      r.2.name ∈ first :: names && r.2.state ∈ upstreamStates && r.2.names t.name) ↔ e.state ≠ .skipped) := by
    intro i e h
    have hnames : e.names t.name := by
      have htrigger := h.trigger
      rwa [if_pos (.inl hjoin)] at htrigger
    have hinbound := hins ▸ h.inbound
    rw [List.mem_filter]
    simp only [h.mem, hinbound, hnames, true_and, decide_true, Bool.true_and, Bool.and_true, decide_eq_true_eq]
    exact mem_upstreamStates h.completed
  unfold TriggersFound
  rw [hins]
  constructor
  · rintro ⟨upstream, hok, hfound⟩
    obtain ⟨hall, rfl⟩ := (upstream_of_join hins hjoin).mp hok
    refine ⟨fun _ => hall, fun i e h => ⟨(hmem i e h).mp (hfound i e h), fun hnot => ?_⟩⟩
    rw [hjoin] at hnot
    cases hnot
  · rintro ⟨hall, hstates⟩
    refine ⟨_, (upstream_of_join hins hjoin).mpr ⟨hall hjoin, rfl⟩, fun i e h => ?_⟩
    exact (hmem i e h).mpr (hstates i e h).1

/-- The query for another task finds what triggered it, if it is a processed execution of the first inbound task. -/
theorem found_of_other (hins : (spec.findInboundTaskSpecs t).map (·.name) = first :: names) (hjoin : t.isJoin = false) :
    FindsTriggers spec rows t triggeredBy ↔ TriggersFound spec rows t triggeredBy := by
  have hmem : ∀ i e, HasTriggered spec rows t triggeredBy i e → ((i, e) ∈ rows.filter (fun r =>
      (triggeredBy = [] || r.1 ∈ triggeredBy) && (r.2.name == first && r.2.state ∈ upstreamStates && r.2.processed)) ↔
      e.state ≠ .skipped ∧ first = e.name ∧ e.processed) := by
    intro i e h
    have htriggered : triggeredBy = [] ∨ i ∈ triggeredBy := by
      have htrigger := h.trigger
      by_cases hnone : triggeredBy = []
      · exact .inl hnone
      · rw [if_neg (by simp [hjoin, hnone])] at htrigger
        exact .inr htrigger
    rw [List.mem_filter, ← mem_upstreamStates h.completed]
    simp only [h.mem, true_and, Bool.and_eq_true, Bool.or_eq_true, decide_eq_true_eq, beq_iff_eq, htriggered]
    exact ⟨fun ⟨⟨hname, hst⟩, hprocessed⟩ => ⟨hst, hname.symm, hprocessed⟩,
      fun ⟨hst, hname, hprocessed⟩ => ⟨⟨hname.symm, hst⟩, hprocessed⟩⟩
  unfold FindsTriggers TriggersFound
  rw [upstream_of_other hins hjoin, hins, hjoin]
  constructor
  · rintro ⟨upstream, hok, hfound⟩
    cases hok
    refine ⟨nofun, fun i e h => ?_⟩
    obtain ⟨hst, rfl, hprocessed⟩ := (hmem i e h).mp (hfound i e h)
    exact ⟨hst, fun _ => ⟨rfl, hprocessed⟩⟩
  · rintro ⟨-, hstates⟩
    refine ⟨_, rfl, fun i e h => (hmem i e h).mpr ?_⟩
    obtain ⟨hst, hother⟩ := hstates i e h
    obtain ⟨hfirst, hprocessed⟩ := hother rfl
    exact ⟨hst, Option.some.inj hfirst, hprocessed⟩

theorem found_of_start (hins : (spec.findInboundTaskSpecs t).map (·.name) = []) :
    FindsTriggers spec rows t triggeredBy ↔ TriggersFound spec rows t triggeredBy := by
  have hnone : ∀ i e, ¬HasTriggered spec rows t triggeredBy i e := fun i e h => by
    have hinbound := h.inbound
    rw [hins] at hinbound
    cases hinbound
  refine iff_of_true ⟨[], ?_, fun i e h => absurd h (hnone i e)⟩ ⟨fun _ r _ hname => ?_, fun i e h => absurd h (hnone i e)⟩
  · unfold getUpstreamTaskExecutions
    rw [hins]
    rfl
  · rw [hins] at hname
    cases hname

theorem found_iff : FindsTriggers spec rows t triggeredBy ↔ TriggersFound spec rows t triggeredBy := by
  cases hins : (spec.findInboundTaskSpecs t).map (·.name) with
  | nil => exact found_of_start hins
  | cons first names =>
    cases hjoin : t.isJoin with
    | true => exact found_of_join hins hjoin
    | false => exact found_of_other hins hjoin

end

/-- The context of a task has what its triggering executions published if and only if the query for the upstream executions
    finds all of them. -/
theorem sees_triggers_iff (spec : WorkflowSpec) (rows : List (TaskId × TaskEx)) (t : TaskSpec) (triggeredBy : List TaskId)
    (conf : DataFlowConf) (data : TaskId → TaskData) :
    SeesTriggers spec rows t triggeredBy conf data ↔ TriggersFound spec rows t triggeredBy := by
  rw [← found_iff]
  constructor
  · rintro ⟨upstream, ctx, hok, -, hsees⟩
    exact ⟨upstream, hok, fun i e h => (hsees i e h).1⟩
  · rintro ⟨upstream, hok, hfound⟩
    obtain ⟨ctx, hctx, hkeys⟩ := @DataFlowConf.evaluateUpstreamContext_ok conf (upstream.map fun r => data r.1)
    refine ⟨upstream, ctx, hok, ?_, fun i e h => ?_⟩
    · refine bind_ok.mpr ⟨upstream, hok, ?_⟩
      rw [hctx]
      rfl
    · have hmem := List.mem_map_of_mem (f := fun (r : TaskId × TaskEx) => data r.1) (hfound i e h)
      have hseen : ∀ k ≠ taskExecutionKey, ((conf.evaluateTaskOutboundContext (data i)).vars.lookup k).isSome →
          (ctx.vars.lookup k).isSome := fun k hk => hkeys k hk (data i) hmem
      refine ⟨hfound i e h, hseen, fun k hk => hseen k ?_ (DataFlowConf.lookup_outbound.mpr (.inr hk))⟩
      rintro rfl
      rw [(data i).published.noTaskExecution] at hk
      cases hk

/-- The join `m` of two tasks. -/
def joinOfTwo : WorkflowSpec where
  tasks := [{ name := "a", onSkip := [{ name := "m" }] }, { name := "b", onSuccess := [{ name := "m" }] },
    { name := "m", join := some .all }]
  nodup := by decide

/-- A skipped execution of the first task has triggered the join and published a variable, which the join does not see. -/
theorem skipped_trigger_unseen : ¬SeesTriggers joinOfTwo
    [(0, { name := "a", state := .skipped, processed := true, hasNextTasks := true, nextTasks := some [("m", none)] }),
      (1, { name := "b", state := .success, processed := true, hasNextTasks := true, nextTasks := some [("m", none)] })]
    { name := "m", join := some .all } [0, 1] { utils := dictUtils, versioning := false }
    (fun i => if i = 0 then { published := { vars := [("x", .value "1")] } } else {}) := by
  rintro ⟨upstream, ctx, hok, -, hsees⟩
  have hfound := found_iff.mp ⟨upstream, hok, fun i e h => (hsees i e h).1⟩
  have hinbound : "a" ∈ (joinOfTwo.findInboundTaskSpecs { name := "m", join := some .all }).map (·.name) := by decide
  exact (hfound.2 0 _ ⟨List.mem_cons_self, hinbound, rfl, rfl⟩).1 rfl

end Mistral
