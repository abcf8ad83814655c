import Mathlib.Data.Fintype.EquivFin
import Mistral.Lang.Validation
import Mistral.Workflow.JoinVerdicts

/-! Whether the verdict on a join depends on the order of the rows. -/

namespace Mistral

/-- The rows of a table, in some order. -/
structure TaskRows where
  rows : List (TaskId × TaskEx)
  nodup : (rows.map (·.1)).Nodup

/-- The verdict on the join is the same for every order of the rows. -/
def OrderIndependent (spec : WorkflowSpec) (rows : TaskRows) (join : Join) (j : TaskSpec) : Prop :=
  ∀ rows', rows'.Perm rows.rows → getJoinLogicalState spec rows' join j = getJoinLogicalState spec rows.rows join j

/-- No task with this name has two executions of which one is completed. -/
def TaskRows.Alike (rows : TaskRows) (name : String) : Prop :=
  ∀ r ∈ rows.rows, ∀ r' ∈ rows.rows, r.2.name = name → r'.2.name = name → r ≠ r' → r.2.state.isCompleted = false

/-! ### Rows -/

section
variable {spec : WorkflowSpec} {join : Join} {j : TaskSpec} {rows : TaskRows} {rows' : List (TaskId × TaskEx)} {name : String}

/-- Another order finds another execution only among those that are going on. -/
theorem agree_of_perm (hperm : rows'.Perm rows.rows) (halike : rows.Alike name) :
    Agree (lastNamed rows' name) (lastNamed rows.rows name) := by
  cases h : lastNamed rows' name with
  | none =>
    refine .inl (lastNamed_none.mpr fun r hr => ?_).symm
    exact lastNamed_none.mp h r (hperm.mem_iff.mpr hr)
  | some r =>
    obtain ⟨hmem, hname⟩ := lastNamed_some h
    have hmem := hperm.mem_iff.mp hmem
    cases h' : lastNamed rows.rows name with
    | none => exact absurd hname (lastNamed_none.mp h' r hmem)
    | some r' =>
      obtain ⟨hmem', hname'⟩ := lastNamed_some h'
      by_cases heq : r = r'
      · exact .inl (by rw [heq])
      · exact .inr ⟨_, _, _, _, rfl, rfl, halike r hmem r' hmem' hname hname' heq,
          halike r' hmem' r hmem hname' hname (Ne.symm heq)⟩

/-- The verdict is the same for every order, if no task that the evaluation looks up has two executions of which one is
    completed. -/
theorem orderIndependent_of_alike (h : ∀ u, Looked spec (lastNamed rows.rows) j u → rows.Alike u.name) :
    OrderIndependent spec rows join j := by
  intro rows' hperm
  rw [getJoinLogicalState_eq, getJoinLogicalState_eq]
  refine (joinVerdict_congr fun u hu => ?_).symm
  obtain hsame | ⟨i, e, i', e', he, he', hopen, hopen'⟩ := agree_of_perm hperm (h u hu)
  · exact .inl hsame.symm
  · exact .inr ⟨i', e', i, e, he', he, hopen', hopen⟩

/-! ### A workflow for each pair of executions -/

/-- The task `name` comes before the join `m`. -/
def pairSpec (name m : String) (h : name ≠ m) : WorkflowSpec where
  tasks := [{ name, onSuccess := [{ name := m }] }, { name := m, join := some .all }]
  nodup := by simpa using h

theorem getClause_of_none {own : TaskSpec → List Transition} {default : TaskDefaultsSpec → List Transition} {t : TaskSpec}
    (h : spec.taskDefaults = none) : spec.getClause own default t = own t := by
  unfold WorkflowSpec.getClause
  split
  next hown => rw [h, hown]
  · rfl

theorem findOutboundTaskNames_of_none {t : TaskSpec} (h : spec.taskDefaults = none) :
    spec.findOutboundTaskNames t = (t.onError ++ t.onSuccess ++ t.onComplete ++ t.onSkip).map (·.name) := by
  simp only [WorkflowSpec.findOutboundTaskNames, WorkflowSpec.getOnErrorClause, WorkflowSpec.getOnSuccessClause,
    WorkflowSpec.getOnCompleteClause, WorkflowSpec.getOnSkipClause, getClause_of_none h]

theorem pairSpec_outbound {m : String} (h : name ≠ m) (t : TaskSpec) :
    (pairSpec name m h).findOutboundTaskNames t = (t.onError ++ t.onSuccess ++ t.onComplete ++ t.onSkip).map (·.name) :=
  findOutboundTaskNames_of_none rfl

theorem pairSpec_inbound {m : String} (h : name ≠ m) {t : TaskSpec} (ht : t.name = m) :
    (pairSpec name m h).findInboundTaskSpecs t = [{ name, onSuccess := [{ name := m }] }] := by
  simp [WorkflowSpec.findInboundTaskSpecs, WorkflowSpec.transitionExists, pairSpec_outbound]
  simp [pairSpec, ht]

theorem pairSpec_accepted {m : String} (h : name ≠ m) : (pairSpec name m h).Accepted "w" := by
  have hstart : (pairSpec name m h).findStartTasks ≠ [] := by
    refine List.ne_nil_of_mem (a := { name, onSuccess := [{ name := m }] }) ?_
    simp [WorkflowSpec.findStartTasks, WorkflowSpec.hasInboundTransitions, WorkflowSpec.findInboundTaskSpecs,
      WorkflowSpec.transitionExists, pairSpec_outbound]
    simp [pairSpec, h.symm]
  have hlink : (pairSpec name m h).validateTaskLink m = .ok () := by
    have htask : ((pairSpec name m h).getTask m).isSome := by simp [WorkflowSpec.getTask, pairSpec]
    simp only [WorkflowSpec.validateTaskLink, htask, Bool.true_or, if_true]
    rfl
  have hintegrity : (pairSpec name m h).checkWorkflowIntegrity = .ok () := by
    show [_, _].forM (fun t => ((pairSpec name m h).findOutboundTaskNames t).forM (pairSpec name m h).validateTaskLink) = _
    simp [pairSpec_outbound, hlink]
  have hjoin : (pairSpec name m h).checkJoinTasks = .ok () := by
    have hj : (pairSpec name m h).joinError { name := m, join := some .all } = none := by
      simp [WorkflowSpec.joinError, pairSpec_inbound]
    have hnone : (pairSpec name m h).tasks.filterMap (pairSpec name m h).joinError = [] := by
      show List.filterMap _ [_, _] = []
      rw [List.filterMap_cons_none rfl, List.filterMap_cons_none hj]
      rfl
    rw [WorkflowSpec.checkJoinTasks, hnone]
    rfl
  rw [WorkflowSpec.Accepted, WorkflowSpec.validateSemantics, if_neg hstart]
  show ((pairSpec name m h).checkWorkflowIntegrity >>= fun _ => (pairSpec name m h).checkJoinTasks) = .ok ()
  rw [hintegrity]
  exact hjoin

/-- What the join comes to, with the execution that is found. -/
theorem pairSpec_verdict {m : String} (h : name ≠ m) {t : TaskSpec} (ht : t.name = m) {i : TaskId} {e : TaskEx}
    (hfound : lastNamed rows' name = some (i, e)) (hnext : m ∉ (e.nextTasks.getD []).map (·.1)) :
    getJoinLogicalState (pairSpec name m h) rows' .all t =
      .ok (if e.state.isCompleted then
        { state := .error, stateInfo := namesMessage [⟨name, some i, .error, 1, some .notTriggered⟩] "Failed" .error,
          triggeredBy := [⟨i, some .notTriggered⟩] }
      else
        { state := .waiting, stateInfo := namesMessage [⟨name, some i, .waiting, 1, none⟩] "Blocked" .waiting,
          cardinality := 1 }) := by
  rw [getJoinLogicalState_eq]
  unfold joinVerdict
  rw [pairSpec_inbound h ht, if_neg (List.cons_ne_nil _ _)]
  have hlookup : (e.nextTasks.getD []).reverse.lookup m = none := lookup_reverse_none.mpr hnext
  cases hdone : e.state.isCompleted with
  | true =>
    simp [induced, hfound, hdone, ht, hlookup]
    rfl
  | false =>
    simp [induced, hfound, hdone]
    rfl

/-- With the row last, a lookup of its name finds it. -/
theorem lastNamed_erase {r : TaskId × TaskEx} (hr : r ∈ rows') :
    (rows'.erase r ++ [r]).Perm rows' ∧ lastNamed (rows'.erase r ++ [r]) r.2.name = some r := by
  refine ⟨(List.perm_append_singleton r _).trans (List.perm_cons_erase hr).symm, ?_⟩
  simp [lastNamed]

/-- Two rows have different ids. -/
theorem TaskRows.ne_id {r r' : TaskId × TaskEx} (hr : r ∈ rows.rows) (hr' : r' ∈ rows.rows) (hne : r ≠ r') : r.1 ≠ r'.1 :=
  fun heq => hne (List.inj_on_of_nodup_map rows.nodup hr hr' heq)

/-- If a task has two executions of which one is completed, the verdict on a join after the task depends on the order. -/
theorem alike_of_orderIndependent
    (h : ∀ spec name join j, WorkflowSpec.Accepted spec name → j ∈ spec.tasks → j.join = some join →
      OrderIndependent spec rows join j) : rows.Alike name := by
  intro r hr r' hr' hname hname' hne
  by_contra hdone
  have hdone : r.2.state.isCompleted := by simpa using hdone
  -- A join with a name that no command of the two executions is for.
  obtain ⟨m, hm⟩ := Infinite.exists_notMem_finset
    (name :: ((r.2.nextTasks.getD []).map (·.1) ++ (r'.2.nextTasks.getD []).map (·.1))).toFinset
  simp only [List.mem_toFinset, List.mem_cons, List.mem_append, not_or] at hm
  obtain ⟨hmname, hmr, hmr'⟩ := hm
  have hnm : name ≠ m := fun heq => hmname heq.symm
  have hindependent := h (pairSpec name m hnm) "w" .all { name := m, join := some .all } (pairSpec_accepted hnm)
    (List.mem_cons_of_mem _ List.mem_cons_self) rfl
  obtain ⟨hperm, hlast⟩ := lastNamed_erase hr
  obtain ⟨hperm', hlast'⟩ := lastNamed_erase hr'
  have hverdict := pairSpec_verdict hnm (t := { name := m, join := some .all }) rfl (hname ▸ hlast) hmr
  have hverdict' := pairSpec_verdict hnm (t := { name := m, join := some .all }) rfl (hname' ▸ hlast') hmr'
  have heq := (hindependent _ hperm).trans (hindependent _ hperm').symm
  rw [hverdict, hverdict', if_pos hdone] at heq
  split at heq
  · have hids := congrArg LogicalState.triggeredBy (Except.ok.inj heq)
    exact rows.ne_id hr hr' hne (Trigger.mk.inj (List.cons.inj hids).1).1
  · exact absurd (congrArg LogicalState.state (Except.ok.inj heq)) (by rintro ⟨⟩)

/-- The verdict on a join is the same for every order of the rows, if no task that its evaluation looks up has two
    executions of which one is completed. It is the same for the joins of all workflows only if that holds of every task. -/
theorem join_verdict_ignores_row_order (rows : TaskRows) :
    (∀ spec join j, (∀ u, Looked spec (lastNamed rows.rows) j u → rows.Alike u.name) → OrderIndependent spec rows join j) ∧
    ((∀ spec name join j, WorkflowSpec.Accepted spec name → j ∈ spec.tasks → j.join = some join →
        OrderIndependent spec rows join j) ↔
      ∀ name, rows.Alike name) :=
  ⟨fun _ _ _ => orderIndependent_of_alike, fun h _ => alike_of_orderIndependent h,
    fun h _ _ _ _ _ _ _ => orderIndependent_of_alike fun u _ => h u.name⟩

/-- The task `a` runs after each of two start tasks, and comes before a join. -/
def twoParentsSpec : WorkflowSpec where
  tasks := [{ name := "s1", onSuccess := [{ name := "a" }] }, { name := "s2", onSuccess := [{ name := "a" }] },
    { name := "a", onSuccess := [{ name := "j" }] }, { name := "j", join := some .all }]

/-- One execution of `a` has failed, and the other one has triggered the join. -/
theorem later_row_decides_join :
    ¬∀ spec rows join j, j ∈ spec.tasks → j.join = some join → OrderIndependent spec rows join j := by
  intro h
  let failed : TaskId × TaskEx := (2, { name := "a", state := .error, nextTasks := some [] })
  let succeeded : TaskId × TaskEx :=
    (3, { name := "a", state := .success, nextTasks := some [("j", some (.clause .onSuccess))] })
  have hj : { name := "j", join := some .all } ∈ twoParentsSpec.tasks := by decide
  have hperm : [succeeded, failed].Perm [failed, succeeded] := .swap ..
  have hindependent : OrderIndependent twoParentsSpec ⟨[failed, succeeded], by decide⟩ .all _ := h _ _ .all _ hj rfl
  exact absurd (hindependent _ hperm) (by decide)

end
end Mistral
