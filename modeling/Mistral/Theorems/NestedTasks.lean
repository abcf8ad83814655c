import Mistral.Theorems.CachedCalls
import Mistral.Lib.Descents

/-! Which tasks `tasks()` lists for a workflow execution and those nested in it. -/

namespace Mistral

section
variable (db : ExprDb) (state flat : Arg)

/-- A workflow execution that a task of another one has started. Executions go by their ids. -/
def NestedIn (a b : String) : Prop :=
  ∃ t ∈ db.tasks, t.workflowExecutionId = a ∧ t.type = .workflow ∧
    ∃ r ∈ db.executions, r.taskExecutionId = some t.id ∧ r.id = b

/-- The execution itself, those nested in it, those nested in these, and so on. -/
def InTree : String → String → Prop := Relation.ReflTransGen (NestedIn db)

/-- The filters of `tasks()`. A flat list leaves out the tasks that have their state from a nested execution. -/
structure Passes (t : TaskRecord) : Prop where
  state : state.truthy → state = .text t.state.name
  flat : flat.truthy → t.type ≠ .action → ∀ r ∈ db.executions, r.taskExecutionId = some t.id → r.state ≠ t.state

/-- The tasks of one execution that are listed. -/
def listed (id : String) : List TaskRecord :=
  (db.tasks.filter (·.workflowExecutionId == id)).filter (shouldPassFilter db · state flat)

/-- The executions nested right in one. -/
def nestedRecords (id : String) : List ExecutionRecord :=
  ((db.tasks.filter (·.workflowExecutionId == id)).filter (·.type == .workflow)).flatMap fun t =>
    db.executions.filter (·.taskExecutionId == some t.id)

def nestedIds (id : String) : List String := (nestedRecords db id).map (·.id)

end

variable {db : ExprDb} {state flat recursive : Arg} {id : String} {t : TaskRecord} {r : ExecutionRecord} {fuel : Nat}

/-! ### Rows -/

theorem task_eq {t t' : TaskRecord} (ht : t ∈ db.tasks) (ht' : t' ∈ db.tasks) (h : t.id = t'.id) : t = t' :=
  List.inj_on_of_nodup_map db.tasksNodup ht ht' h

theorem execution_eq {r r' : ExecutionRecord} (hr : r ∈ db.executions) (hr' : r' ∈ db.executions) (h : r.id = r'.id) :
    r = r' :=
  List.inj_on_of_nodup_map db.executionsNodup hr hr' h

theorem shouldPassFilter_iff : shouldPassFilter db t state flat ↔ Passes db state flat t := by
  have hflat : (!flat.truthy || t.type == .action ||
      (db.executions.filter (·.taskExecutionId == some t.id)).all (·.state != t.state)) = true ↔
        (flat.truthy → t.type ≠ .action → ∀ r ∈ db.executions, r.taskExecutionId = some t.id → r.state ≠ t.state) := by
    simp only [Bool.or_eq_true, Bool.not_eq_true', List.all_eq_true, List.mem_filter, beq_iff_eq, bne_iff_ne, and_imp]
    grind
  have hstate : (!state.truthy || state == .text t.state.name) = true ↔ (state.truthy → state = .text t.state.name) := by
    simp only [Bool.or_eq_true, Bool.not_eq_true', beq_iff_eq]
    grind
  rw [shouldPassFilter, Bool.and_eq_true, hstate, hflat]
  exact ⟨fun h => ⟨h.1, h.2⟩, fun h => ⟨h.state, h.flat⟩⟩

theorem mem_listed : t ∈ listed db state flat id ↔
    t ∈ db.tasks ∧ t.workflowExecutionId = id ∧ Passes db state flat t := by
  rw [listed, List.mem_filter, List.mem_filter, beq_iff_eq, shouldPassFilter_iff, and_assoc]

theorem mem_nestedRecords : r ∈ nestedRecords db id ↔
    ∃ t ∈ db.tasks, t.workflowExecutionId = id ∧ t.type = .workflow ∧ r ∈ db.executions ∧ r.taskExecutionId = some t.id := by
  simp only [nestedRecords, List.mem_flatMap, List.mem_filter, beq_iff_eq, and_assoc]

theorem child_iff {a b : String} : Descents.Child (nestedIds db) a b ↔ NestedIn db a b := by
  simp only [Descents.Child, nestedIds, List.mem_map, mem_nestedRecords, NestedIn]
  constructor
  · rintro ⟨r, ⟨t, ht, hta, htype, hr, hrt⟩, hrb⟩
    exact ⟨t, ht, hta, htype, r, hr, hrt, hrb⟩
  · rintro ⟨t, ht, hta, htype, r, hr, hrt, hrb⟩
    exact ⟨r, ⟨t, ht, hta, htype, hr, hrt⟩, hrb⟩

theorem child_eq : Descents.Child (nestedIds db) = NestedIn db := by
  funext a b
  exact propext child_iff

/-! ### One query after the other -/

/-- The recursion of `_get_tasks_from_db` is a descent from one execution to those nested in it. -/
theorem getTasksFromDb_eq (hids : ∀ r ∈ db.executions, r.id ≠ "") (hid : id ≠ "") (hrec : recursive.truthy) :
    getTasksFromDb db fuel (.text id) recursive state flat =
      Descents.descend .recursionError (nestedIds db) (listed db state flat) fuel id := by
  induction fuel generalizing id with
  | zero => rfl
  | succ fuel ih =>
    have htext : Arg.truthy (.text id) = true := by simpa [Arg.truthy] using hid
    have hnested : (nestedRecords db id).mapM (fun r => getTasksFromDb db fuel (.text r.id) recursive state flat) =
        (nestedIds db id).mapM (Descents.descend .recursionError (nestedIds db) (listed db state flat) fuel) := by
      rw [nestedIds, List.mapM_map]
      refine mapM_congr fun r hr => ?_
      obtain ⟨-, -, -, -, hr, -⟩ := mem_nestedRecords.mp hr
      exact ih (hids r hr)
    have hall : (if state.truthy || flat.truthy then
        (db.tasks.filter (·.workflowExecutionId == id)).filter (shouldPassFilter db · state flat)
        else db.tasks.filter (·.workflowExecutionId == id)) = listed db state flat id := by
      split
      · rfl
      next hnone =>
        obtain ⟨hstate, hflat⟩ : state.truthy = false ∧ flat.truthy = false := by simpa using hnone
        refine (List.filter_eq_self.mpr fun t _ => ?_).symm
        simp [shouldPassFilter, hstate, hflat]
    have hquery : select [.text id] (fun t : TaskRecord => (Arg.text id).eq (some t.workflowExecutionId)) db.tasks =
        .ok (db.tasks.filter (·.workflowExecutionId == id)) := by
      simp [select, Arg.hashable, Arg.eq]
    simp only [getTasksFromDb, htext, hrec, Bool.and_self, Bool.not_true, Bool.and_false, Bool.false_eq_true, if_true,
      if_false, Bool.false_or, Bool.not_false, Bool.true_or, Bool.and_true, List.append_nil, hquery]
    rw [Descents.descend, ← hnested, ← hall]
    rfl

/-! ### The tree -/

theorem nestedIn_left_unique : Relator.LeftUnique (NestedIn db) := by
  rintro a a' b ⟨t, ht, rfl, -, r, hr, hrt, rfl⟩ ⟨t', ht', rfl, -, r', hr', hrt', hrr'⟩
  rw [execution_eq hr' hr hrr', hrt, Option.some.injEq] at hrt'
  rw [task_eq ht ht' hrt']

theorem nodup_nestedIds (id : String) : (nestedIds db id).Nodup := by
  have hrecords : (nestedRecords db id).Nodup := by
    refine List.nodup_flatMap.mpr ⟨fun t _ => (List.Nodup.of_map _ db.executionsNodup).filter _, ?_⟩
    have htasks := ((List.Nodup.of_map _ db.tasksNodup).filter (·.workflowExecutionId == id)).filter (·.type == .workflow)
    refine htasks.imp_of_mem fun {t t'} ht ht' hne => ?_
    change List.Disjoint _ _
    rw [List.disjoint_left]
    intro r hr hr'
    obtain ⟨-, hrt⟩ := List.mem_filter.mp hr
    obtain ⟨-, hrt'⟩ := List.mem_filter.mp hr'
    rw [beq_iff_eq] at hrt hrt'
    rw [hrt, Option.some.injEq] at hrt'
    simp only [List.mem_filter] at ht ht'
    exact hne (task_eq ht.1.1 ht'.1.1 hrt')
  refine List.Nodup.map_on (fun r hr r' hr' h => ?_) hrecords
  obtain ⟨-, -, -, -, hr, -⟩ := mem_nestedRecords.mp hr
  obtain ⟨-, -, -, -, hr', -⟩ := mem_nestedRecords.mp hr'
  exact execution_eq hr hr' h

theorem nodup_listed (id : String) : (listed db state flat id).Nodup :=
  ((List.Nodup.of_map _ db.tasksNodup).filter _).filter _

/-- A call of `tasks()` in a transaction returns what the function itself returns, whatever was called before it, if its
    arguments have a hash. -/
theorem runCached_tasks {calls : List (ExprCtx × StdCall)} {i : Nat} {ctx : ExprCtx} {wfExId : Arg}
    (hcall : calls[i]? = some (ctx, .tasks wfExId recursive state flat)) :
    (runCached db calls)[i]? = some (if flat.hashable && recursive.hashable && state.hashable && wfExId.hashable then
      (tasksFn db wfExId recursive state flat).map StdResult.tasks else .error .typeError) := by
  have hempty : LruCache.Holds (callStd db) ([] : LruCache (List (String × Arg)) (ExprCtx × StdCall)) [] := .nil
  rw [runCached, LruCache.getElem?_run hempty (fun o ho => absurd ho List.not_mem_nil) hcall]
  · unfold buildCacheKey
    simp only [StdCall.args, List.all_cons, List.all_nil, Bool.and_true, ← Bool.and_assoc]
    split
    · rfl
    · rfl
  · rintro ⟨ctx', call'⟩ k hk' hk
    have hargs : call'.args = (StdCall.tasks wfExId recursive state flat).args :=
      (buildCacheKey_ok hk').1.symm.trans (buildCacheKey_ok hk).1
    obtain rfl := args_injective hargs
    rfl

/-- The execution `wf` has run the task `deploy`, which has started the execution `sub` with the task `copy` in it. -/
def deployed : ExprDb where
  tasks := [
    { id := "t1", name := "deploy", spec := "deploy", state := .error, stateInfo := none, result := "", published := "",
      type := .workflow, workflowExecutionId := "wf", createdAt := "1", updatedAt := none },
    { id := "t2", name := "copy", spec := "copy", state := .error, stateInfo := none, result := "", published := "",
      type := .action, workflowExecutionId := "sub", createdAt := "2", updatedAt := none }]
  executions := [
    { id := "wf", name := "main", spec := "main", input := "", params := "", state := .error, createdAt := "0",
      updatedAt := "0", rootExecutionId := none, taskExecutionId := none },
    { id := "sub", name := "deploy", spec := "deploy", input := "", params := "", state := .error, createdAt := "1",
      updatedAt := "1", rootExecutionId := some "wf", taskExecutionId := some "t1" }]

end Mistral
