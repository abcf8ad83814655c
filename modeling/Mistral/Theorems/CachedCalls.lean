import Mathlib.Data.List.Nodup
import Mistral.Expressions.StdFunctions
import Mistral.Lib.Excepts
import Mistral.Lib.Lists

/-! Whether the cache of a transaction changes what the functions of expressions return. -/

namespace Mistral

section
variable (db : ExprDb)

/-- Each call returns what the function itself returns. -/
def CacheTransparent (calls : List (ExprCtx × StdCall)) : Prop := runCached db calls = calls.map (callStd db)

/-- The execution that a call is about. -/
inductive Target
  | none
  | missing
  | execution (id : String)
  | task (id : Option String)
  deriving DecidableEq, Repr

/-- `execution()` is about the workflow execution of the context. `task()` is about its current task where the name is left
    out or is that of this task, and about the last task of the name in the workflow execution otherwise. The other functions
    read nothing from the context. -/
def target (c : ExprCtx × StdCall) : Target :=
  match c.2, c.1.taskExecution, c.1.execution with
  | .execution, _, some id => .execution id
  | .execution, _, none => .missing
  | .task _, none, _ => .missing
  | .task name, some cur, wfExId =>
    match cur.filter fun t => !name.truthy || name == .text t.name, wfExId with
    | some t, _ => .task t.id
    | none, some id =>
      .task ((db.tasks.filter fun r => r.workflowExecutionId == id && name.eq r.name).getLast?.map (·.id))
    | none, none => .missing
  | _, _, _ => .none

/-- All arguments have a hash, and a call that is answered from the cache selects the execution that the call before it
    selected, which has the same arguments. -/
structure SameTargets (calls : List (ExprCtx × StdCall)) : Prop where
  hashable : ∀ c ∈ calls, ∀ a ∈ c.2.args, a.2.hashable
  targets : ∀ p ∈ LruCache.meetings txCacheSize buildCacheKey (callStd db) [] calls, target db p.1 = target db p.2

end

section
variable {db : ExprDb} {ctx ctx' : ExprCtx} {call : StdCall} {id : String}

/-! ### Keys -/

theorem args_injective {a b : StdCall} (h : a.args = b.args) : a = b := by
  cases a <;> cases b <;> simp_all [StdCall.args]

theorem buildCacheKey_ok {c : ExprCtx × StdCall} {k : List (String × Arg)} (h : buildCacheKey c = .ok k) :
    k = c.2.args ∧ ∀ a ∈ c.2.args, a.2.hashable := by
  unfold buildCacheKey at h
  split at h
  next hargs => exact ⟨(Except.ok.inj h).symm, List.all_eq_true.mp hargs⟩
  · cases h

theorem buildCacheKey_error {c : ExprCtx × StdCall} {e : ExprExc} :
    buildCacheKey c = .error e ↔ e = .typeError ∧ ¬∀ a ∈ c.2.args, a.2.hashable := by
  unfold buildCacheKey
  rw [← List.all_eq_true]
  split
  next h => simp [h]
  next h => simp [h, eq_comm]

/-! ### What the functions return -/

theorem select_ne_typeError {α : Type} {args : List Arg} {p : α → Bool} {rows : List α} :
    select args p rows ≠ .error .typeError := by
  unfold select
  split <;> nofun

theorem executionId_ne_typeError : ctx.executionId ≠ .error .typeError := by
  unfold ExprCtx.executionId
  split <;> nofun

theorem getWorkflowExecution_ne_typeError : getWorkflowExecution db id ≠ .error .typeError := by
  unfold getWorkflowExecution
  split <;> nofun

theorem getTaskExecution_ne_typeError : getTaskExecution db id ≠ .error .typeError := by
  unfold getTaskExecution
  split <;> nofun

theorem lastTaskNamed_ne_typeError {name : Arg} : lastTaskNamed db ctx name ≠ .error .typeError :=
  bind_ne executionId_ne_typeError fun _ => bind_ne select_ne_typeError fun _ => nofun

theorem taskFn_ne_typeError {name : Arg} : taskFn db ctx name ≠ .error .typeError := by
  unfold taskFn
  split
  · nofun
  · exact lastTaskNamed_ne_typeError
  · split
    · exact map_ne getTaskExecution_ne_typeError
    · exact lastTaskNamed_ne_typeError

theorem getTasksFromDb_ne_typeError {fuel : Nat} {wfExId recursive state flat : Arg} :
    getTasksFromDb db fuel wfExId recursive state flat ≠ .error .typeError := by
  induction fuel generalizing wfExId with
  | zero => nofun
  | succ fuel ih =>
    refine bind_ne select_ne_typeError fun _ => bind_ne (fun h => ?_) fun _ => nofun
    obtain ⟨r, -, hr⟩ := mapM_error h
    exact ih hr

/-- The functions themselves take arguments without a hash. -/
theorem callStd_ne_typeError {c : ExprCtx × StdCall} : callStd db c ≠ .error .typeError := by
  obtain ⟨ctx, call⟩ := c
  cases call with
  | execution => exact map_ne (bind_ne executionId_ne_typeError fun _ => bind_ne getWorkflowExecution_ne_typeError fun _ => nofun)
  | executions => exact map_ne select_ne_typeError
  | task => exact map_ne taskFn_ne_typeError
  | tasks => exact map_ne getTasksFromDb_ne_typeError

/-- What `execution()` takes from a row. -/
def ExecutionRecord.model (r : ExecutionRecord) : ExecutionModel :=
  { id := r.id, name := r.name, spec := r.spec, input := r.input, params := r.params, createdAt := r.createdAt,
    updatedAt := r.updatedAt, rootExecutionId := r.rootExecutionId }

/-! ### Targets -/

theorem getWorkflowExecution_iff {r : ExecutionRecord} :
    getWorkflowExecution db id = .ok r ↔ r ∈ db.executions ∧ r.id = id := by
  rw [← Lists.find_key_iff db.executionsNodup, getWorkflowExecution]
  split
  next h => simp [h]
  next h => simp [h]

theorem getTaskExecution_iff {r : TaskRecord} : getTaskExecution db id = .ok r ↔ r ∈ db.tasks ∧ r.id = id := by
  rw [← Lists.find_key_iff db.tasksNodup, getTaskExecution]
  split
  next h => simp [h]
  next h => simp [h]

/-- The task execution of a target. -/
def IsTask (db : ExprDb) (id : Option String) (r : Option TaskRecord) : Prop := (∀ t ∈ r, t ∈ db.tasks) ∧ r.map (·.id) = id

theorem isTask_unique {id : Option String} {r r' : Option TaskRecord} (h : IsTask db id r) (h' : IsTask db id r') : r = r' := by
  obtain ⟨hmem, rfl⟩ := h
  obtain ⟨hmem', hid⟩ := h'
  cases r with
  | none => cases r' <;> simp_all
  | some r =>
    cases r' with
    | none => cases hid
    | some r' => rw [List.inj_on_of_nodup_map db.tasksNodup (hmem r rfl) (hmem' r' rfl) (Option.some.inj hid).symm]

theorem lastTaskNamed_iff {name : Arg} (hname : name.hashable) {r : Option TaskRecord} :
    lastTaskNamed db ctx name = .ok r ↔ ∃ wfExId, ctx.execution = some wfExId ∧
      (db.tasks.filter fun r => r.workflowExecutionId == wfExId && name.eq r.name).getLast? = r := by
  unfold lastTaskNamed ExprCtx.executionId select
  cases ctx.execution with
  | none => simp [bind, Except.bind]
  | some wfExId => simp [bind, Except.bind, hname, pure, Except.pure]

/-- `task()` returns the task execution that it is about, where it is there. -/
theorem taskFn_iff {name : Arg} (hname : name.hashable) {r : Option TaskRecord} :
    taskFn db ctx name = .ok r ↔ ∃ id, target db (ctx, .task name) = .task id ∧ IsTask db id r := by
  have hlast : ∀ cur, cur.filter (fun t : CurrentTask => !name.truthy || name == .text t.name) = none →
      ctx.taskExecution = some cur →
      (lastTaskNamed db ctx name = .ok r ↔ ∃ id, target db (ctx, .task name) = .task id ∧ IsTask db id r) := fun cur hcur htask => by
    rw [lastTaskNamed_iff hname]
    cases hex : ctx.execution with
    | none => simp [target, htask, hcur, hex]
    | some wfExId =>
      simp only [target, htask, hcur, hex, Option.some.injEq, exists_eq_left', Target.task.injEq]
      constructor
      · rintro rfl
        exact ⟨fun t ht => (List.mem_filter.mp (List.mem_of_getLast? ht)).1, rfl⟩
      · exact isTask_unique ⟨fun t ht => (List.mem_filter.mp (List.mem_of_getLast? ht)).1, rfl⟩
  unfold taskFn
  split
  next htask => simp [target, htask]
  next htask => exact hlast none rfl htask
  next t htask =>
    split
    next hcur =>
      have hfilter : Option.filter (fun t : CurrentTask => !name.truthy || name == .text t.name) (some t) = some t :=
        Option.filter_some_pos hcur
      simp only [target, htask, hfilter, Target.task.injEq, exists_eq_left']
      cases r with
      | none =>
        refine iff_of_false ?_ (fun h => Option.some_ne_none _ h.2.symm)
        cases getTaskExecution db t.id <;> nofun
      | some r =>
        have hmap : (getTaskExecution db t.id).map some = .ok (some r) ↔ getTaskExecution db t.id = .ok r := by
          cases getTaskExecution db t.id <;> simp [Except.map]
        rw [hmap, getTaskExecution_iff]
        simp [IsTask]
    next hcur => exact hlast (some t) (Option.filter_some_neg (Bool.not_eq_true _ ▸ hcur)) htask

theorem executionFn_iff {m : ExecutionModel} :
    executionFn db ctx = .ok m ↔ ∃ r ∈ db.executions, target db (ctx, .execution) = .execution r.id ∧ m = r.model := by
  unfold executionFn ExprCtx.executionId target
  cases ctx.execution with
  | none => simp [bind, Except.bind]
  | some id =>
    simp only [bind_ok, Target.execution.injEq]
    constructor
    · rintro ⟨_, hid, r, hr, hm⟩
      cases hid
      obtain ⟨hmem, hid⟩ := getWorkflowExecution_iff.mp hr
      exact ⟨r, hmem, hid.symm, (Except.ok.inj hm).symm⟩
    · rintro ⟨r, hr, rfl, rfl⟩
      exact ⟨r.id, rfl, r, getWorkflowExecution_iff.mpr ⟨hr, rfl⟩, rfl⟩

/-- Another context gives a call the same result if and only if it selects the same execution. -/
theorem callStd_ok_iff (hargs : ∀ a ∈ call.args, a.2.hashable) {b : StdResult} (h : callStd db (ctx, call) = .ok b) :
    callStd db (ctx', call) = .ok b ↔ target db (ctx, call) = target db (ctx', call) := by
  cases call with
  | executions => exact iff_of_true h rfl
  | tasks => exact iff_of_true h rfl
  | execution =>
    obtain ⟨m, hm, rfl⟩ := map_ok_iff.mp h
    obtain ⟨r, hr, htarget, rfl⟩ := executionFn_iff.mp hm
    rw [htarget, callStd, map_ok_iff]
    constructor
    · rintro ⟨m, hm, hinj⟩
      cases hinj
      obtain ⟨r', -, htarget', hmodel⟩ := executionFn_iff.mp hm
      have hid : r.id = r'.id := congrArg ExecutionModel.id hmodel
      rw [htarget', hid]
    · intro htarget'
      exact ⟨r.model, executionFn_iff.mpr ⟨r, hr, htarget'.symm, rfl⟩, rfl⟩
  | task name =>
    have hname : name.hashable := hargs _ List.mem_cons_self
    obtain ⟨r, hr, rfl⟩ := map_ok_iff.mp h
    obtain ⟨id, htarget, hid⟩ := (taskFn_iff hname).mp hr
    rw [htarget, callStd, map_ok_iff]
    constructor
    · rintro ⟨r', hr', hinj⟩
      cases hinj
      obtain ⟨id', htarget', hid'⟩ := (taskFn_iff hname).mp hr'
      rw [htarget', ← hid.2, ← hid'.2]
    · intro htarget'
      exact ⟨r, (taskFn_iff hname).mpr ⟨id, htarget'.symm, hid⟩, rfl⟩

end

/-- The cache is transparent if and only if all arguments have a hash and what is answered from it has the same target. -/
theorem cached_calls_transparent (db : ExprDb) (calls : List (ExprCtx × StdCall)) :
    CacheTransparent db calls ↔ SameTargets db calls := by
  have hempty : LruCache.Holds (callStd db) ([] : LruCache (List (String × Arg)) (ExprCtx × StdCall)) [] := .nil
  rw [CacheTransparent, runCached, LruCache.run_eq_map_iff hempty]
  have hmeet : ∀ p ∈ LruCache.meetings txCacheSize buildCacheKey (callStd db) [] calls,
      callStd db p.1 = callStd db p.2 ↔ target db p.1 = target db p.2 := fun p hp => by
    obtain ⟨k, b, h₁, h₂, hb⟩ := LruCache.of_meetings (fun o ho => absurd ho List.not_mem_nil) hp
    obtain ⟨rfl, hargs⟩ := buildCacheKey_ok h₁
    have hcall : p.1.2 = p.2.2 := args_injective (buildCacheKey_ok h₂).1
    obtain ⟨⟨ctx, call⟩, ctx', call'⟩ := p
    obtain rfl : call = call' := hcall
    rw [hb, eq_comm]
    exact callStd_ok_iff hargs hb
  constructor
  · intro ⟨herr, hres⟩
    refine ⟨fun c hc => ?_, fun p hp => (hmeet p hp).mp (hres p hp)⟩
    by_contra hne
    exact callStd_ne_typeError (herr c hc .typeError (buildCacheKey_error.mpr ⟨rfl, hne⟩))
  · intro h
    exact ⟨fun c hc e he => absurd (h.hashable c hc) (buildCacheKey_error.mp he).2, fun p hp => (hmeet p hp).mpr (h.targets p hp)⟩

/-! ### Two current tasks -/

/-- Two tasks of one workflow execution have failed. -/
def twoTasks : ExprDb where
  tasks := [{ id := "t1", name := "a", spec := "{}", state := .error, stateInfo := none, result := "1", published := "{}",
              type := .action, workflowExecutionId := "w", createdAt := "2020-01-01", updatedAt := none },
            { id := "t2", name := "b", spec := "{}", state := .error, stateInfo := none, result := "2", published := "{}",
              type := .action, workflowExecutionId := "w", createdAt := "2020-01-02", updatedAt := none }]
  executions := [{ id := "w", name := "wf", spec := "{}", input := "{}", params := "{}", state := .running,
                   createdAt := "2020-01-01", updatedAt := "2020-01-01", rootExecutionId := none, taskExecutionId := none }]

/-- A transaction evaluates `task()` for both, and gets the first one twice. -/
theorem second_task_sees_first :
    ¬CacheTransparent twoTasks
      [({ taskExecution := some (some { id := "t1", name := "a" }), execution := some "w" }, .task .none),
       ({ taskExecution := some (some { id := "t2", name := "b" }), execution := some "w" }, .task .none)] := by
  unfold CacheTransparent
  decide +kernel

end Mistral
