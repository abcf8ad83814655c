import Mistral.Engine.RegularEffects
import Mistral.Lib.Lists

/-! A regular task is completed by the result of its attempt in progress, and its result is a single value, in every run
    without late results and stale jobs. -/

namespace Mistral

/-- A task with one accepted execution has the output of it as its result. -/
theorem TaskEx.getTaskExecutionResult_one {e : TaskEx} {x : Execution} (h : e.executions.filter (·.accepted) = [x]) :
    e.getTaskExecutionResult false = .one x.output := by
  have hperm := (List.perm_insertionSort (fun x y : Execution => x.index ≤ y.index) e.executions).filter (·.accepted)
  rw [h] at hperm
  simp only [getTaskExecutionResult, List.perm_singleton.mp hperm, List.map_cons, List.map_nil, Bool.false_eq_true,
    if_false]

namespace RegularRun
variable {spec : RegularSpec} {o : Oracle} {s s' : RegularRun} {i : Nat} {st : State} {info : Option String}
  {processed : Option Bool}

/-- The execution `i` is from the attempt in progress. -/
def Current (s : RegularRun) (i : Nat) : Prop := s.inProgress ∧ s.startedBy[i]? = some s.begun

/-- The last attempt started every execution whose result is accepted. -/
def Fresh (s : RegularRun) : Prop :=
  ∀ (i : Nat) (x : Execution), s.task.executions[i]? = some x → x.accepted → s.startedBy[i]? = some s.begun

/-- The results that are accepted are those of the last attempt, and there is one. -/
def Single (s : RegularRun) : Prop :=
  s.Fresh ∧ ∃ (i : Nat) (x : Execution), s.task.executions[i]? = some x ∧ x.accepted ∧ s.startedBy[i]? = some s.begun

/-- No result of a successful execution is accepted. -/
def Clear (s : RegularRun) : Prop := ∀ x : Execution, x ∈ s.task.executions → x.accepted → x.state ≠ .success

/-- A result is accepted while the task is incomplete only from the attempt in progress, and after that only if the
    task did not succeed. A job or a message that runs the task again without a reset finds no successful result
    accepted. A job that ends the delay of `wait-after` with `SUCCESS` finds that delay going on. Results that are
    accepted are not taken back by an update, and not joined by that of an older sub-workflow that is rerun. -/
def Timely (s : RegularRun) : RegularEvent × Oracle → Prop
  | (.actionResult i _, _) | (.subworkflowCompleted i _, _) =>
    s.incomplete i → if s.task.state.isCompleted then s.task.state ≠ .success else s.Current i
  | (.subworkflowResult i, _) => s.task.state.isCompleted ∨ s.Current i
  | (.executionUpdate i _, _) => ∀ x : Execution, s.task.executions[i]? = some x → x.accepted = false
  | (.startTask m, _) =>
    if m.firstRun then ∀ x : Execution, x ∈ s.task.executions → x.accepted = false else m.reset ∨ s.Clear
  | (.runJob (.continueTask _) _, _) | (.runJob (.refreshTaskState _) _, _) => s.Clear
  | (.runJob (.completeTask _ st _) _, _) => st = .success → s.task.state.isCompleted ∨ s.endState = some .success
  | (.rerunInSubworkflow i, _) =>
    s.inProgress ∨ ∀ (j : Nat) (x : Execution), s.task.executions[j]? = some x → x.accepted → j = i
  | _ => True

/-- Every result that completed the task is from the attempt that was in progress, and the result of a task in `SUCCESS`
    is the output of an execution that its last attempt started. -/
def ResultsBelong (spec : RegularSpec) (guard : RegularRun → RegularEvent × Oracle → Prop) : Prop :=
  ∀ s, (regularSystem spec).Reach guard s →
    (∀ e ∈ s.completedBy, e.1 ≠ none ∧ e.1 = e.2) ∧
    (s.task.state = .success → ∃ (i : Nat) (x : Execution), s.task.executions[i]? = some x ∧
      s.startedBy[i]? = some s.begun ∧ s.task.getTaskExecutionResult false = .one x.output)

/-! ### The invariant -/

/-- What holds all the time: every execution has an attempt of its own, and a result is accepted when it completes. -/
structure Base (s : RegularRun) : Prop where
  length : s.startedBy.length = s.task.executions.length
  nodup : (s.startedBy ++ s.subStarts).Nodup
  le : ∀ k ∈ s.startedBy ++ s.subStarts, k ≤ s.begun
  completed : ∀ (i : Nat) (x : Execution), s.task.executions[i]? = some x → x.accepted → x.state.isCompleted
  by' : ∀ e ∈ s.completedBy, e.1 ≠ none ∧ e.1 = e.2

/-- What holds between transactions. -/
structure Ok (s : RegularRun) : Prop extends s.Base where
  incomplete : s.inProgress → s.task.state.isCompleted = false
  fresh : s.inProgress → s.Fresh
  accepts : s.inProgress → ∀ (i : Nat) (x : Execution), s.task.executions[i]? = some x →
    s.startedBy[i]? = some s.begun → x.state.isCompleted → x.accepted
  delayed : s.endState = some .success → s.inProgress = false ∧ s.Single ∧ s.task.state.isCompleted = false
  success : s.task.state = .success → s.inProgress = false ∧ s.Single

/-- The part of a state that the invariant is about. -/
def core (s : RegularRun) : List Execution × List Nat × List Nat × Nat × List (Option Nat × Option Nat) × State × Bool ×
    Option State :=
  (s.task.executions, s.startedBy, s.subStarts, s.begun, s.completedBy, s.task.state, s.inProgress, s.endState)

theorem Ok.congr (h : s.Ok) (hcore : s'.core = s.core) : s'.Ok := by
  obtain ⟨⟨hlength, hnodup, hle, hcompleted, hby⟩, hincomplete, hfresh, haccepts, hdelayed, hsuccess⟩ := h
  simp only [core, Prod.mk.injEq] at hcore
  obtain ⟨hexecs, hstarted, hsub, hbegun, hcompletedBy, hstate, hin, hend⟩ := hcore
  unfold Single at hdelayed hsuccess
  unfold Fresh at hfresh hdelayed hsuccess
  rw [← hexecs] at hlength hcompleted hfresh haccepts hdelayed hsuccess
  rw [← hstarted] at hlength hnodup hle hfresh haccepts hdelayed hsuccess
  rw [← hsub] at hnodup hle
  rw [← hbegun] at hle hfresh haccepts hdelayed hsuccess
  rw [← hcompletedBy] at hby
  rw [← hstate] at hincomplete hdelayed hsuccess
  rw [← hin] at hincomplete hfresh haccepts hdelayed hsuccess
  rw [← hend] at hdelayed
  exact ⟨⟨hlength, hnodup, hle, hcompleted, hby⟩, hincomplete, hfresh, haccepts, hdelayed, hsuccess⟩

theorem Ok.addJob {j : Job} (h : s.Ok) : (s.addJob j).Ok := h.congr rfl

/-! ### `set_state` -/

theorem Base.setState (h : s.Base) : (s.setState st info processed).Base where
  length := by rw [executions_setState]; exact h.length
  nodup := h.nodup
  le := h.le
  completed := by rw [executions_setState]; exact h.completed
  by' := h.by'

theorem Single.setState (h : s.Single) : (s.setState st info processed).Single := by
  unfold Single Fresh at h ⊢
  rw [executions_setState]
  exact h

/-- The task succeeds only with a single result. -/
theorem Ok.setState (h : s.Ok) (hst : st = .success → s.Single) : (s.setState st info processed).Ok where
  toBase := h.toBase.setState
  incomplete hin := by
    have hin : (s.inProgress && !st.isCompleted) = true := hin
    simpa using (Bool.and_eq_true_iff.mp hin).2
  fresh hin := by
    have hin : (s.inProgress && !st.isCompleted) = true := hin
    unfold Fresh
    rw [executions_setState]
    exact h.fresh (Bool.and_eq_true_iff.mp hin).1
  accepts hin := by
    have hin : (s.inProgress && !st.isCompleted) = true := hin
    rw [executions_setState]
    exact h.accepts (Bool.and_eq_true_iff.mp hin).1
  delayed := nofun
  success hsuccess := by
    rw [state_setState] at hsuccess
    subst hsuccess
    exact ⟨Bool.and_false _, (hst rfl).setState⟩

/-- A task that has no attempt in progress, or completes, without success. -/
theorem Base.ok_setState (h : s.Base) (hin : s.inProgress = false ∨ st.isCompleted) (hst : st ≠ .success) :
    (s.setState st info processed).Ok := by
  have hin : (s.setState st info processed).inProgress = false := by
    obtain hin | hin := hin <;> simp [RegularRun.setState, hin]
  refine { toBase := h.setState, incomplete := ?_, fresh := ?_, accepts := ?_, delayed := nofun, success := ?_ }
  · simp [hin]
  · simp [hin]
  · simp [hin]
  · rw [state_setState]
    exact fun heq => absurd heq hst

/-! ### Policies -/

theorem Ok.beforeTaskStart (h : s.Ok) (p : Policy) : (s.beforeTaskStart o p).Ok := by
  cases p with simp only [RegularRun.beforeTaskStart]
  | pauseBefore expr =>
    split
    · exact h.setState (by rintro ⟨⟩)
    · exact h
  | waitBefore delay =>
    split
    · exact h
    split
    · exact h.setState (by rintro ⟨⟩)
    split
    · exact h
    · have hmap : (s.mapTask (·.mapContext fun c => { c with waitBeforeSkip := true })).Ok := h.congr rfl
      exact Ok.addJob (hmap.setState (by rintro ⟨⟩))
  | timeout delay =>
    split
    · exact h
    · exact h.congr rfl
  | concurrency n =>
    split
    · exact h
    · exact h.congr rfl
  | _ => exact h

theorem Ok.inProgress_of_completed (h : s.Ok) (hcompleted : s.task.state.isCompleted) : s.inProgress = false := by
  by_contra hin
  have hopen := h.incomplete (by simpa using hin)
  rw [hcompleted] at hopen
  cases hopen

theorem Base.invalidateResult {f : RuntimeContext → RuntimeContext} (h : s.Base) :
    (s.mapTask fun e => e.invalidateResult.mapContext f).Base where
  length := by
    show s.startedBy.length = (s.task.executions.map _).length
    rw [List.length_map]
    exact h.length
  nodup := h.nodup
  le := h.le
  completed i x hx haccepted := by
    have hx : (s.task.executions.map fun x => { x with accepted := false })[i]? = some x := hx
    rw [List.getElem?_map] at hx
    obtain ⟨y, -, rfl⟩ := Option.map_eq_some_iff.mp hx
    cases haccepted
  by' := h.by'

theorem Base.startRetry {delay : NatExpr} (h : s.Base) (hin : s.inProgress = false) : (s.startRetry spec o delay).Ok := by
  simp only [RegularRun.startRetry]
  split
  · exact Ok.addJob (h.ok_setState (.inl hin) nofun)
  · exact Ok.addJob (h.ok_setState (.inl hin) nofun)

theorem Ok.afterTaskComplete (h : s.Ok) (p : Policy) : (s.afterTaskComplete spec o p).Ok := by
  cases p with simp only [RegularRun.afterTaskComplete]
  | waitAfter delay =>
    split
    · exact h
    split
    · exact h
    · have hmap : (s.mapTask (·.mapContext fun c => { c with waitAfterSkip := true })).Ok := h.congr rfl
      generalize hs : RegularRun.setState _ .runningDelayed _ none = delayed
      have hdelayed : delayed.Ok := hs ▸ hmap.setState (by rintro ⟨⟩)
      refine { toBase := ⟨hdelayed.length, hdelayed.nodup, hdelayed.le, hdelayed.completed, hdelayed.by'⟩,
               incomplete := hdelayed.incomplete, fresh := hdelayed.fresh, accepts := hdelayed.accepts,
               delayed := fun hend => ?_, success := hdelayed.success }
      obtain ⟨hin, hsingle⟩ := h.success (Option.some.inj hend)
      have hmapped : (s.mapTask (·.mapContext fun c => { c with waitAfterSkip := true })).Single := hsingle
      subst hs
      refine ⟨?_, hmapped.setState, ?_⟩
      · show (s.inProgress && _) = false
        rw [hin]
        rfl
      · show State.isCompleted (TaskEx.state (RegularRun.task (RegularRun.setState _ _ _ _))) = false
        rw [state_setState]
        rfl
  | failOn expr =>
    split
    · exact h.setState (by rintro ⟨⟩)
    · exact h
  | retry r =>
    simp only [RegularRun.retryAfterTaskComplete]
    split
    · exact h
    split
    · exact h
    next hcompleted =>
    have hin : s.inProgress = false := by
      simp only [Bool.or_eq_true, Bool.not_eq_true', not_or] at hcompleted
      exact h.inProgress_of_completed (eq_true_of_ne_false hcompleted.1)
    split
    · exact h
    · exact h.toBase.invalidateResult.startRetry hin
  | _ => exact h

/-! ### Completing -/

theorem Ok.destroyResult (h : s.Ok) : (s.mapTask (·.destroyResult)).Ok := by
  have hget : ∀ {i : Nat} {x : Execution}, (s.mapTask (·.destroyResult)).task.executions[i]? = some x →
      ∃ y : Execution, s.task.executions[i]? = some y ∧ x = { y with output := none } := fun {i x} hx => by
    have hx : (s.task.executions.map fun x => { x with output := none })[i]? = some x := hx
    rw [List.getElem?_map] at hx
    obtain ⟨y, hy, rfl⟩ := Option.map_eq_some_iff.mp hx
    exact ⟨y, hy, rfl⟩
  have hfresh : s.Fresh → (s.mapTask (·.destroyResult)).Fresh := fun hfresh i x hx haccepted => by
    obtain ⟨y, hy, rfl⟩ := hget hx
    exact hfresh i y hy haccepted
  have hsingle : s.Single → (s.mapTask (·.destroyResult)).Single := fun ⟨hf, i, y, hy, haccepted, hstarted⟩ => by
    refine ⟨hfresh hf, i, { y with output := none }, ?_, haccepted, hstarted⟩
    show (s.task.executions.map _)[i]? = _
    rw [List.getElem?_map, hy]
    rfl
  refine { length := ?_, nodup := h.nodup, le := h.le, completed := fun i x hx haccepted => ?_, by' := h.by',
           incomplete := h.incomplete, fresh := fun hin => hfresh (h.fresh hin),
           accepts := fun hin i x hx hstarted hcompleted => ?_, delayed := fun hend => ?_, success := fun hst => ?_ }
  · show s.startedBy.length = (s.task.executions.map _).length
    rw [List.length_map]
    exact h.length
  · obtain ⟨y, hy, rfl⟩ := hget hx
    exact h.completed i y hy haccepted
  · obtain ⟨y, hy, rfl⟩ := hget hx
    exact h.accepts hin i y hy hstarted hcompleted
  · obtain ⟨hin, hs, hopen⟩ := h.delayed hend
    exact ⟨hin, hsingle hs, hopen⟩
  · obtain ⟨hin, hs⟩ := h.success hst
    exact ⟨hin, hsingle hs⟩

theorem Ok.complete (h : s.Ok) (hst : st = .success → s.task.state.isCompleted = false → s.Single) :
    (s.complete spec o st info).1.Ok := by
  simp only [RegularRun.complete]
  split
  · exact h
  next hcompleted =>
  have hset : (s.setState st info none).Ok := h.setState fun heq => by
    subst heq
    refine hst rfl ?_
    rw [show (!State.isSkipped .success) = true from rfl, Bool.and_true] at hcompleted
    exact eq_false_of_ne_true hcompleted
  split
  · exact hset
  · have hdestroyed : (if spec.keepResult then s.setState st info none else
        (s.setState st info none).mapTask (·.destroyResult)).Ok := by
      split
      · exact hset
      · exact hset.destroyResult
    split
    · exact hdestroyed
    · exact runPolicies_keeps (fun s p hs => hs.afterTaskComplete p) hdestroyed

/-- A handler has done its work, or an exception has left only what always holds. -/
structure Outcome (r : RegularRun × Bool) : Prop where
  base : r.1.Base
  ok : r.2 = false → r.1.Ok

theorem Outcome.of_ok {r : RegularRun × Bool} (h : r.1.Ok) : Outcome r := ⟨h.toBase, fun _ => h⟩

theorem Outcome.handling {r : RegularRun × Bool} (h : Outcome r) (what : String) : (handling what r).Ok := by
  unfold RegularRun.handling
  split
  · exact h.base.ok_setState (.inr rfl) nofun
  next hraised => exact h.ok (eq_false_of_ne_true hraised)

/-! ### Starting -/

theorem Base.begin (h : s.Base) (hopen : s.task.state.isCompleted = false) (hend : s.endState = none)
    (hnone : ∀ x ∈ s.task.executions, Execution.accepted x = false) :
    ({ s with begun := s.begun + 1, inProgress := true } : RegularRun).Ok where
  length := h.length
  nodup := h.nodup
  le k hk := Nat.le_succ_of_le (h.le k hk)
  completed := h.completed
  by' := h.by'
  incomplete _ := hopen
  fresh _ i x hx haccepted := by
    rw [hnone x (List.mem_of_getElem? hx)] at haccepted
    cases haccepted
  accepts _ i x hx hstarted _ := by
    have hle := h.le _ (List.mem_append_left _ (List.mem_of_getElem? hstarted))
    exact absurd hle (Nat.not_succ_le_self _)
  delayed hdelayed := by
    rw [show s.endState = some .success from hdelayed] at hend
    cases hend
  success hsuccess := by
    rw [show s.task.state = .success from hsuccess] at hopen
    cases hopen

/-- An execution is stored for the attempt `k`. -/
theorem Ok.addExecution {k : Nat} {subStarts : List Nat} (h : s.Ok)
    (hperm : (k :: (s.startedBy ++ subStarts)).Nodup) (hle : ∀ j ∈ k :: (s.startedBy ++ subStarts), j ≤ s.begun) :
    ({ s.mapTask (·.addExecution { index := 0 }) with subStarts, startedBy := s.startedBy ++ [k] } : RegularRun).Ok := by
  have hperm' : (s.startedBy ++ [k] ++ subStarts).Perm (k :: (s.startedBy ++ subStarts)) := by
    rw [List.append_assoc]
    exact List.perm_middle
  have hold : ∀ {i : Nat}, s.startedBy[i]? = some s.begun → (s.startedBy ++ [k])[i]? = some s.begun := fun {i} hi => by
    obtain ⟨hlt, -⟩ := List.getElem?_eq_some_iff.mp hi
    rw [List.getElem?_append_left hlt]
    exact hi
  have hfresh : s.Fresh → ∀ (i : Nat) (x : Execution),
      (s.task.executions ++ [{ index := 0 }])[i]? = some x → x.accepted → (s.startedBy ++ [k])[i]? = some s.begun :=
    fun hfresh i x hx haccepted => by
      obtain hx | ⟨-, rfl⟩ := Lists.getElem?_append_singleton hx
      · exact hold (hfresh i x hx haccepted)
      · cases haccepted
  have hsingle : s.Single → ∃ (i : Nat) (x : Execution),
      (s.task.executions ++ [{ index := 0 }])[i]? = some x ∧ x.accepted ∧ (s.startedBy ++ [k])[i]? = some s.begun := by
    rintro ⟨-, i, x, hx, haccepted, hstarted⟩
    obtain ⟨hlt, -⟩ := List.getElem?_eq_some_iff.mp hx
    exact ⟨i, x, by rw [List.getElem?_append_left hlt]; exact hx, haccepted, hold hstarted⟩
  refine { length := ?_, nodup := hperm'.nodup_iff.mpr hperm, le := fun j hj => hle j (hperm'.subset hj),
           completed := fun i x hx haccepted => ?_, by' := h.by', incomplete := h.incomplete,
           fresh := fun hin => hfresh (h.fresh hin), accepts := fun hin i x hx hstarted hcompleted => ?_,
           delayed := fun hend => ?_, success := fun hst => ?_ }
  · show (s.startedBy ++ [k]).length = (s.task.executions ++ [_]).length
    simp [h.length]
  · obtain hx | ⟨-, rfl⟩ := Lists.getElem?_append_singleton hx
    · exact h.completed i x hx haccepted
    · cases haccepted
  · obtain hx | ⟨-, rfl⟩ := Lists.getElem?_append_singleton hx
    · obtain ⟨hlt, -⟩ := List.getElem?_eq_some_iff.mp hx
      have hstarted : (s.startedBy ++ [k])[i]? = some s.begun := hstarted
      rw [List.getElem?_append_left (h.length ▸ hlt)] at hstarted
      exact h.accepts hin i x hx hstarted hcompleted
    · cases hcompleted
  · obtain ⟨hin, hs, hopen⟩ := h.delayed hend
    exact ⟨hin, ⟨hfresh hs.1, hsingle hs⟩, hopen⟩
  · obtain ⟨hin, hs⟩ := h.success hst
    exact ⟨hin, hfresh hs.1, hsingle hs⟩

theorem Base.scheduleActions (h : s.Base) (hopen : s.task.state.isCompleted = false) (hend : s.endState = none)
    (hnone : ∀ x ∈ s.task.executions, Execution.accepted x = false) : Outcome (s.scheduleActions spec o) := by
  have hbegin := h.begin hopen hend hnone
  have hnew : s.begun + 1 ∉ s.startedBy ++ s.subStarts := fun hmem => Nat.not_succ_le_self _ (h.le _ hmem)
  simp only [RegularRun.scheduleActions]
  split
  · exact ⟨h, (by rintro ⟨⟩)⟩
  split
  · split
    · exact Outcome.of_ok hbegin
    · exact Outcome.of_ok (hbegin.complete (by rintro ⟨⟩))
  split
  · -- The sub-workflow is asked for.
    refine Outcome.of_ok { hbegin with nodup := ?_, le := ?_ }
    · rw [← List.append_assoc]
      exact List.nodup_append.mpr ⟨h.nodup, List.nodup_singleton _, fun a ha b hb heq =>
        hnew (List.mem_singleton.mp hb ▸ heq ▸ ha)⟩
    · intro k hk
      rw [← List.append_assoc] at hk
      obtain hk | hk := List.mem_append.mp hk
      · exact hbegin.le k hk
      · rw [List.mem_singleton.mp hk]
  · refine Outcome.of_ok (hbegin.addExecution (List.nodup_cons.mpr ⟨hnew, h.nodup⟩) fun j hj => ?_)
    obtain rfl | hj := List.mem_cons.mp hj
    · exact Nat.le_refl _
    · exact hbegin.le j hj

theorem endState_beforeTaskStart (p : Policy) (h : s.endState = none) : (s.beforeTaskStart o p).endState = none := by
  cases p with simp only [RegularRun.beforeTaskStart]
  | pauseBefore | timeout => split <;> first | exact h | rfl
  | waitBefore delay =>
    split
    · exact h
    split
    · rfl
    split
    · exact h
    · rfl
  | concurrency n => split <;> exact h
  | _ => exact h

/-- A task is about to start, with the executions `execs`. -/
def Starts (execs : List Execution) (s : RegularRun) : Prop := s.Ok ∧ s.endState = none ∧ s.task.executions = execs

theorem Ok.starts (h : s.Ok) (hst : st ≠ .success) : Starts s.task.executions (s.setState st info processed) :=
  ⟨h.setState fun heq => absurd heq hst, rfl, executions_setState⟩

theorem Starts.runBefore {execs : List Execution} (h : Starts execs s) : Starts execs (s.runBefore spec o).1 :=
  runPolicies_keeps (fun s p ⟨hok, hend, hexecs⟩ =>
    ⟨hok.beforeTaskStart p, endState_beforeTaskStart p hend, (executions_beforeTaskStart s p).trans hexecs⟩) h

theorem Ok.runNew (h : s.Ok) (hnone : ∀ x : Execution, x ∈ s.task.executions → x.accepted = false) :
    Outcome (s.runNew spec o) := by
  simp only [RegularRun.runNew]
  split
  · have hset : Starts s.task.executions (s.setState .running s.task.stateInfo none) := h.starts nofun
    obtain ⟨hok, hend, hexecs⟩ : Starts s.task.executions
      ((s.setState .running s.task.stateInfo none).runBefore spec o).1 := hset.runBefore
    split
    · exact .of_ok hok
    next hrunning =>
      refine hok.toBase.scheduleActions ?_ hend (hexecs ▸ hnone)
      simp only [Bool.or_eq_true, bne_iff_ne, not_or, not_not] at hrunning
      rw [hrunning.2]
      rfl
  · exact .of_ok h

theorem getElem?_resetActions {x : Execution} {reset : Bool} {e : TaskEx} (h : (e.resetActions reset).executions[i]? = some x) :
    ∃ y : Execution, e.executions[i]? = some y ∧ (x = y ∧ (x.accepted → reset = false ∧ x.state ∉ [State.error, .cancelled]) ∨
      x = { y with accepted := false }) := by
  simp only [TaskEx.resetActions, List.getElem?_map] at h
  obtain ⟨y, hy, heq⟩ := Option.map_eq_some_iff.mp h
  refine ⟨y, hy, ?_⟩
  split at heq
  · exact .inr heq.symm
  next hkept =>
    subst heq
    refine .inl ⟨rfl, fun haccepted => ?_⟩
    simp only [Bool.or_eq_true, Bool.and_eq_true, decide_eq_true_eq, not_or, not_and] at hkept
    exact ⟨eq_false_of_ne_true hkept.1, hkept.2 haccepted⟩

theorem Base.resetActions {reset : Bool} (h : s.Base) : (s.mapTask (·.resetActions reset)).Base where
  length := by
    show s.startedBy.length = (s.task.executions.map _).length
    rw [List.length_map]
    exact h.length
  nodup := h.nodup
  le := h.le
  completed i x hx haccepted := by
    obtain ⟨y, hy, ⟨rfl, -⟩ | rfl⟩ := getElem?_resetActions hx
    · exact h.completed i x hy haccepted
    · cases haccepted
  by' := h.by'

/-- A reset leaves no accepted result, and neither does a restart that finds no successful one. -/
theorem Base.accepted_resetActions {reset : Bool} (h : s.Base) (hclear : reset ∨ s.Clear) :
    ∀ x : Execution, x ∈ (s.mapTask (·.resetActions reset)).task.executions → x.accepted = false := by
  intro x hx
  obtain ⟨i, hi⟩ := List.mem_iff_getElem?.mp hx
  obtain ⟨y, hy, ⟨rfl, hkept⟩ | rfl⟩ := getElem?_resetActions hi
  · by_contra haccepted
    have haccepted : x.accepted := by simpa using haccepted
    obtain ⟨hreset, hstate⟩ := hkept haccepted
    have hnot : x.state ≠ .success := by
      obtain hreset' | hclear := hclear
      · rw [hreset'] at hreset
        cases hreset
      · exact hclear x (List.mem_of_getElem? hy) haccepted
    obtain hst | hst | hst | hst := State.isCompleted_iff.mp (h.completed i x hy haccepted)
    · exact hnot hst
    · simp [hst] at hstate
    · simp [hst] at hstate
    · exact x.notTask.2 hst
  · rfl

theorem Ok.runExisting {rerun reset : Bool} (h : s.Ok) (hclear : reset ∨ s.Clear) :
    Outcome (s.runExisting spec o rerun reset) := by
  have hset : Starts s.task.executions (s.setState .running none (some false)) := h.starts nofun
  have hstarts : Starts s.task.executions (if rerun then (s.setState .running none (some false)).runBefore spec o
      else (s.setState .running none (some false), false)).1 := by
    split
    · exact hset.runBefore
    · exact hset
  have hrunning : rerun = false → (if rerun then (s.setState .running none (some false)).runBefore spec o
      else (s.setState .running none (some false), false)).1.task.state = .running := by
    rintro rfl
    exact state_setState
  simp only [RegularRun.runExisting]
  generalize (if rerun then (s.setState .running none (some false)).runBefore spec o
      else (s.setState .running none (some false), false)) = r at hstarts hrunning ⊢
  obtain ⟨hok, hend, hexecs⟩ := hstarts
  split
  · exact .of_ok hok
  next hgoes =>
    have hstate : r.1.task.state = .running := by
      simp only [Bool.or_eq_true, Bool.and_eq_true, bne_iff_ne, not_or, not_and, not_not] at hgoes
      cases rerun with
      | false => exact hrunning rfl
      | true => exact hgoes.2 rfl
    have hclear : reset ∨ r.1.Clear := by
      unfold Clear at hclear ⊢
      rw [hexecs]
      exact hclear
    refine hok.toBase.resetActions.scheduleActions ?_ hend (hok.toBase.accepted_resetActions hclear)
    show r.1.task.state.isCompleted = false
    rw [hstate]
    rfl

theorem Ok.runTask {m : StartTask} (h : s.Ok) (hguard : if m.firstRun then ∀ x : Execution, x ∈ s.task.executions →
    x.accepted = false else m.reset ∨ s.Clear) : (s.runTask spec o m).Ok := by
  refine Outcome.handling ?_ _
  split
  next hfirst => exact h.runNew (by rwa [if_pos hfirst] at hguard)
  next hfirst =>
    rw [if_neg hfirst] at hguard
    split
    · exact .of_ok h
    · exact h.runExisting hguard

/-! ### Jobs -/

theorem Ok.continueTask (h : s.Ok) (hclear : s.Clear) : (s.continueTask spec o).Ok := by
  obtain ⟨hok, -, hexecs⟩ : Starts s.task.executions (s.setState .running none none) := h.starts nofun
  unfold RegularRun.continueTask
  split
  · exact h
  · refine (hok.runExisting (.inr ?_)).handling _
    unfold Clear
    rw [hexecs]
    exact hclear

theorem Ok.completeTask (h : s.Ok) (hst : st = .success → s.task.state.isCompleted = false → s.Single) :
    (s.completeTask spec o st info).Ok :=
  Outcome.handling (.of_ok (h.complete hst)) _

theorem Ok.run {j : Job} {logical : State} (h : s.Ok) (hguard : s.Timely (.runJob j logical, o)) :
    (s.run spec o j logical).Ok := by
  cases j with
  | continueTask => exact h.continueTask hguard
  | refreshTaskState =>
    simp only [RegularRun.run, RegularRun.refreshTaskState]
    split
    · exact h
    · cases logical with
      | running => exact h.continueTask hguard
      | error => exact h.completeTask nofun
      | _ => exact h
  | completeTask _ st info =>
    refine h.completeTask fun hst hopen => ?_
    obtain hcompleted | hend := hguard hst
    · rw [hcompleted] at hopen
      cases hopen
    · exact (h.delayed hend).2.1
  | failTaskIfIncomplete =>
    simp only [RegularRun.run]
    split
    · exact h
    · exact h.completeTask nofun
  | _ => exact h

/-! ### Results -/

/-- A result is accepted for the attempt in progress, or for a task that failed. -/
theorem Ok.accept {result : ActionResult} (h : s.Ok)
    (hguard : if s.task.state.isCompleted then s.task.state ≠ .success else s.Current i) : (s.accept i result).Ok := by
  have hcase : s.task.state.isCompleted ∧ s.task.state ≠ .success ∧ s.inProgress = false ∨ s.Current i := by
    split at hguard
    next hcompleted => exact .inl ⟨hcompleted, hguard, h.inProgress_of_completed hcompleted⟩
    · exact .inr hguard
  refine { length := ?_, nodup := h.nodup, le := h.le, completed := fun j x hx haccepted => ?_, by' := h.by',
           incomplete := h.incomplete, fresh := fun hin j x hx haccepted => ?_,
           accepts := fun hin j x hx hstarted hcompleted => ?_, delayed := fun hend => ?_, success := fun hst => ?_ }
  · show s.startedBy.length = (s.task.executions.modify i _).length
    rw [List.length_modify]
    exact h.length
  · obtain ⟨y, hy, ⟨-, rfl⟩ | ⟨-, rfl⟩⟩ := getElem?_setExecution hx
    · cases result <;> rfl
    · exact h.completed j x hy haccepted
  · obtain ⟨y, hy, ⟨rfl, -⟩ | ⟨-, rfl⟩⟩ := getElem?_setExecution hx
    · obtain ⟨-, -, hidle⟩ | hcurrent := hcase
      · rw [show s.inProgress = true from hin] at hidle
        cases hidle
      · exact hcurrent.2
    · exact h.fresh hin j x hy haccepted
  · obtain ⟨y, hy, ⟨-, rfl⟩ | ⟨-, rfl⟩⟩ := getElem?_setExecution hx
    · rfl
    · exact h.accepts hin j x hy hstarted hcompleted
  · obtain ⟨hidle, -, hopen⟩ := h.delayed hend
    obtain ⟨hcompleted, -⟩ | hcurrent := hcase
    · rw [hcompleted] at hopen
      cases hopen
    · rw [hcurrent.1] at hidle
      cases hidle
  · obtain ⟨hidle, -⟩ := h.success hst
    obtain ⟨-, hnot, -⟩ | hcurrent := hcase
    · exact absurd hst hnot
    · rw [hcurrent.1] at hidle
      cases hidle

/-- The attempt in progress reports its result. -/
theorem Ok.onActionComplete {x : Execution} (h : s.Ok) (hx : s.task.executions[i]? = some x)
    (hguard : s.task.state.isCompleted ∨ s.Current i) : (s.onActionComplete spec o i x).Ok := by
  refine Outcome.handling (.of_ok (Ok.complete ?_ fun hst hopen => ?_)) _
  · refine { h with by' := fun e he => ?_ }
    split at he
    next hcompletes =>
      obtain rfl | he := List.mem_cons.mp he
      · obtain hcompleted | hcurrent := hguard
        · rw [hcompleted, Bool.not_true, Bool.and_false] at hcompletes
          cases hcompletes
        · show s.startedBy[i]? ≠ none ∧ s.startedBy[i]? = s.current
          rw [hcurrent.2, current, if_pos hcurrent.1]
          exact ⟨nofun, rfl⟩
      · exact h.by' e he
    · exact h.by' e he
  · have hopen : s.task.state.isCompleted = false := hopen
    obtain hcompleted | hcurrent := hguard
    · rw [hcompleted] at hopen
      cases hopen
    · have haccepted := h.accepts hcurrent.1 i x hx hcurrent.2 (by rw [hst]; rfl)
      exact ⟨h.fresh hcurrent.1, i, x, hx, haccepted, hcurrent.2⟩

/-- An action that fails is completed, and its task fails too. -/
theorem Base.failAction (h : s.Base) (i : Nat) (msg : String) : (s.failAction i msg).Base where
  length := by
    show s.startedBy.length = (s.task.executions.modify i _).length
    rw [List.length_modify]
    exact h.length
  nodup := h.nodup
  le := h.le
  completed j x hx haccepted := by
    obtain ⟨y, hy, ⟨-, rfl⟩ | ⟨-, rfl⟩⟩ := getElem?_setExecution hx
    · rfl
    · exact h.completed j x hy haccepted
  by' := h.by'

theorem Ok.actionResult {result : ActionResult} (h : s.Ok) (hguard : s.Timely (.actionResult i result, o)) :
    (s.actionResult spec o i result).Ok := by
  simp only [RegularRun.actionResult]
  split
  next hopen =>
    have hguard := hguard (Bool.and_eq_true_iff.mp hopen).2
    have haccept : (s.accept i result).Ok := h.accept hguard
    split
    · exact (h.toBase.failAction i _).ok_setState (.inr rfl) nofun
    split
    next x hx =>
      refine haccept.onActionComplete hx ?_
      split at hguard
      next hcompleted => exact .inl hcompleted
      · exact .inr hguard
    · exact haccept
  · exact h

theorem Ok.subworkflowCompleted {result : ActionResult} (h : s.Ok)
    (hguard : s.Timely (.subworkflowCompleted i result, o)) : (s.subworkflowCompleted spec i result).Ok := by
  simp only [RegularRun.subworkflowCompleted]
  split
  next hopen => exact (h.accept (hguard (Bool.and_eq_true_iff.mp hopen).2)).congr rfl
  · exact h

theorem Ok.subworkflowResult (h : s.Ok) (hguard : s.Timely (.subworkflowResult i, o)) :
    (s.subworkflowResult spec o i).Ok := by
  simp only [RegularRun.subworkflowResult]
  split
  · have herase : ({ s with subResults := s.subResults.erase i } : RegularRun).Ok := h.congr rfl
    split
    next x hx => exact herase.onActionComplete hx hguard
    · exact herase
  · exact h

/-! ### Everything else -/

theorem Ok.updateTask (h : s.Ok) (hst : st.isCompleted = false) : (s.updateTask st).Ok := by
  simp only [RegularRun.updateTask]
  split
  · exact h
  next hvalid =>
  split
  · exact h
  · have hopen : s.task.state.isCompleted = false := by
      simp only [Bool.or_eq_true, not_or] at hvalid
      exact eq_false_of_ne_true hvalid.1
    refine { length := h.length, nodup := h.nodup, le := h.le, completed := h.completed, by' := h.by',
             incomplete := fun _ => hst, fresh := h.fresh, accepts := h.accepts, delayed := fun hend => ?_,
             success := fun heq => ?_ }
    · obtain ⟨hin, hs, -⟩ := h.delayed hend
      exact ⟨hin, hs, hst⟩
    · rw [show st = .success from heq] at hst
      cases hst

/-- An execution that is not accepted goes on. -/
theorem Ok.openExecution {f : Execution → Execution} (h : s.Ok)
    (hf : ∀ x, (f x).accepted = x.accepted) (hopen : ∀ x, (f x).state.isCompleted = false)
    (hold : ∀ x : Execution, s.task.executions[i]? = some x → x.accepted = false) :
    (s.mapTask (·.setExecution i f)).Ok := by
  have hnot : ∀ x : Execution, s.task.executions[i]? = some x → ¬(f x).accepted := fun x hx haccepted => by
    rw [hf, hold x hx] at haccepted
    cases haccepted
  have hfresh : s.Fresh → (s.mapTask (·.setExecution i f)).Fresh := fun hfresh j x hx haccepted => by
    obtain ⟨y, hy, ⟨rfl, rfl⟩ | ⟨-, rfl⟩⟩ := getElem?_setExecution hx
    · exact absurd haccepted (hnot y hy)
    · exact hfresh j x hy haccepted
  have hsingle : s.Single → (s.mapTask (·.setExecution i f)).Single := fun ⟨hs, j, x, hx, haccepted, hstarted⟩ => by
    refine ⟨hfresh hs, j, x, ?_, haccepted, hstarted⟩
    show (s.task.executions.modify i f)[j]? = _
    rw [List.getElem?_modify, hx]
    split
    next hij =>
      subst hij
      rw [hold x hx] at haccepted
      cases haccepted
    · rfl
  refine { length := ?_, nodup := h.nodup, le := h.le, completed := fun j x hx haccepted => ?_, by' := h.by',
           incomplete := h.incomplete, fresh := fun hin => hfresh (h.fresh hin),
           accepts := fun hin j x hx hstarted hcompleted => ?_, delayed := fun hend => ?_, success := fun hst => ?_ }
  · show s.startedBy.length = (s.task.executions.modify i _).length
    rw [List.length_modify]
    exact h.length
  · obtain ⟨y, hy, ⟨rfl, rfl⟩ | ⟨-, rfl⟩⟩ := getElem?_setExecution hx
    · exact absurd haccepted (hnot y hy)
    · exact h.completed j x hy haccepted
  · obtain ⟨y, hy, ⟨rfl, rfl⟩ | ⟨-, rfl⟩⟩ := getElem?_setExecution hx
    · rw [hopen] at hcompleted
      cases hcompleted
    · exact h.accepts hin j x hy hstarted hcompleted
  · obtain ⟨hin, hs, hend⟩ := h.delayed hend
    exact ⟨hin, hsingle hs, hend⟩
  · obtain ⟨hin, hs⟩ := h.success hst
    exact ⟨hin, hsingle hs⟩

theorem Ok.updated {notTask : st ≠ .waiting ∧ st ≠ .skipped} (h : s.Ok) (hst : st.isCompleted = false)
    (hold : ∀ x : Execution, s.task.executions[i]? = some x → x.accepted = false) :
    ((s.mapTask (·.setExecution i fun x => { x with state := st, notTask })).updateTask st).Ok := by
  have hopened : (s.mapTask (·.setExecution i fun x => { x with state := st, notTask })).Ok :=
    h.openExecution (fun _ => rfl) (fun _ => hst) hold
  exact hopened.updateTask hst

theorem Ok.executionUpdate {paused : Bool} (h : s.Ok) (hguard : s.Timely (.executionUpdate i paused, o)) :
    (s.executionUpdate i paused).Ok := by
  have hst : (if paused then State.paused else .running).isCompleted = false := by cases paused <;> rfl
  unfold RegularRun.executionUpdate
  extract_lets st notTask
  split
  · exact h.updated hst hguard
  · exact h

theorem Ok.subworkflowStarted {k : Nat} (h : s.Ok) : (s.subworkflowStarted k).Ok := by
  simp only [RegularRun.subworkflowStarted]
  split
  next hk =>
    have hperm : (k :: (s.startedBy ++ s.subStarts.erase k)).Perm (s.startedBy ++ s.subStarts) :=
      List.perm_middle.symm.trans (List.Perm.append_left _ (List.perm_cons_erase hk).symm)
    exact h.addExecution (hperm.nodup_iff.mpr h.nodup) fun j hj => h.le j (hperm.subset hj)
  · exact h

theorem getElem?_set_eq {k n : Nat} {l : List Nat} {j : Nat} (hk : k ∉ l) (hj : (l.set n k)[j]? = some k) : j = n := by
  rw [List.getElem?_set] at hj
  split at hj
  next hn => exact hn.symm
  · exact absurd (List.mem_of_getElem? hj) hk

/-- A sub-workflow goes on as a new attempt. -/
theorem Base.begin_set (h : s.Base) (hi : i < s.task.executions.length) :
    ({ s with begun := s.begun + 1, inProgress := true, startedBy := s.startedBy.set i (s.begun + 1) } :
      RegularRun).Base where
  length := by
    rw [List.length_set]
    exact h.length
  nodup := by
    have hset : s.startedBy.set i (s.begun + 1) ++ s.subStarts = (s.startedBy ++ s.subStarts).set i (s.begun + 1) := by
      rw [List.set_append_left _ _ (h.length ▸ hi)]
    show (s.startedBy.set i (s.begun + 1) ++ s.subStarts).Nodup
    rw [hset]
    exact h.nodup.set fun hmem => Nat.not_succ_le_self _ (h.le _ hmem)
  le k hk := by
    obtain hk | hk := List.mem_append.mp hk
    · obtain hk | rfl := List.mem_or_eq_of_mem_set hk
      · exact Nat.le_succ_of_le (h.le k (List.mem_append_left _ hk))
      · exact Nat.le_refl _
    · exact Nat.le_succ_of_le (h.le k (List.mem_append_right _ hk))
  completed := h.completed
  by' := h.by'

theorem lt_length_of_any {p : Execution → Bool} {l : List Execution} (h : l[i]?.any p) : i < l.length := by
  by_contra hge
  rw [List.getElem?_eq_none (Nat.le_of_not_lt hge)] at h
  cases h

/-- The sub-workflow of the attempt in progress runs again. -/
theorem Ok.reopenExecution {f : Execution → Execution} (h : s.Base)
    (hf : ∀ x, (f x).accepted = false ∧ (f x).state = .running)
    (hfresh : ∀ (j : Nat) (x : Execution), s.task.executions[j]? = some x → x.accepted → j ≠ i →
      s.startedBy[j]? = some s.begun)
    (haccepts : ∀ (j : Nat) (x : Execution), s.task.executions[j]? = some x → s.startedBy[j]? = some s.begun → j ≠ i →
      x.state.isCompleted → x.accepted) :
    ((s.mapTask (·.setExecution i f)).setState .running none (some false)).Ok := by
  have hnot : ∀ x, ¬(f x).accepted := fun x haccepted => by
    rw [(hf x).1] at haccepted
    cases haccepted
  have hbase : (s.mapTask (·.setExecution i f)).Base := by
    refine { length := ?_, nodup := h.nodup, le := h.le, completed := fun j x hx haccepted => ?_, by' := h.by' }
    · show s.startedBy.length = (s.task.executions.modify i _).length
      rw [List.length_modify]
      exact h.length
    · obtain ⟨y, hy, ⟨-, rfl⟩ | ⟨-, rfl⟩⟩ := getElem?_setExecution hx
      · exact absurd haccepted (hnot y)
      · exact h.completed j x hy haccepted
  refine { toBase := hbase.setState, incomplete := fun _ => ?_, fresh := fun _ j x hx haccepted => ?_,
           accepts := fun _ j x hx hstarted hcompleted => ?_, delayed := nofun, success := fun hst => ?_ }
  · rw [state_setState]
    rfl
  · rw [executions_setState] at hx
    obtain ⟨y, hy, ⟨-, rfl⟩ | ⟨hne, rfl⟩⟩ := getElem?_setExecution hx
    · exact absurd haccepted (hnot y)
    · exact hfresh j x hy haccepted (Ne.symm hne)
  · rw [executions_setState] at hx
    obtain ⟨y, hy, ⟨-, rfl⟩ | ⟨hne, rfl⟩⟩ := getElem?_setExecution hx
    · rw [(hf y).2] at hcompleted
      cases hcompleted
    · exact haccepts j x hy hstarted (Ne.symm hne) hcompleted
  · rw [state_setState] at hst
    cases hst

theorem Ok.rerunInSubworkflow (h : s.Ok) (hguard : s.Timely (.rerunInSubworkflow i, o)) :
    (s.rerunInSubworkflow spec i).Ok := by
  simp only [RegularRun.rerunInSubworkflow]
  split
  next hvalid =>
    have hi : i < s.task.executions.length := lt_length_of_any (Bool.and_eq_true_iff.mp hvalid).2
    split
    next hin =>
      exact Ok.reopenExecution h.toBase (fun _ => ⟨rfl, rfl⟩) (fun j x hx haccepted _ => h.fresh hin j x hx haccepted)
        fun j x hx hstarted _ => h.accepts hin j x hx hstarted
    next hin =>
      have hbegin := h.toBase.begin_set hi
      refine Ok.reopenExecution hbegin (fun _ => ⟨rfl, rfl⟩) (fun j x hx haccepted hne => ?_)
        fun j x hx hstarted hne => ?_
      · exact absurd ((hguard.resolve_left hin) j x hx haccepted) hne
      · have hnew : s.begun + 1 ∉ s.startedBy := fun hmem =>
          Nat.not_succ_le_self _ (h.le _ (List.mem_append_left _ hmem))
        exact absurd (getElem?_set_eq hnew hstarted) hne
  · exact h

theorem Ok.rerun {reset : Bool} (h : s.Ok) : (s.rerun reset).Ok := by
  have hmap : (s.mapTask (·.mapContext fun _ => {})).Ok := h.congr rfl
  have hwait : (((s.mapTask (·.mapContext fun _ => {})).setState .waiting "Task is waiting." none).addJob
      (.refreshTaskState 0)).Ok := Ok.addJob (hmap.setState nofun)
  simp only [RegularRun.rerun]
  split
  · exact hwait.congr rfl
  · exact hmap.congr rfl

theorem Ok.skip (h : s.Ok) : (s.skip spec o).Ok := by
  have hmap : (s.mapTask (·.mapContext fun _ => {})).Ok := h.congr rfl
  simp only [RegularRun.skip]
  split
  · exact h
  · exact hmap.complete (by rintro ⟨⟩)

theorem Ok.start (name : String) (join : Bool) : (start name join).Ok := by
  unfold RegularRun.start
  split
  · exact { length := rfl, nodup := List.nodup_nil, le := nofun, completed := nofun, by' := nofun, incomplete := nofun,
            fresh := nofun, accepts := nofun, delayed := nofun, success := nofun }
  · exact { length := rfl, nodup := List.nodup_nil, le := nofun, completed := nofun, by' := nofun, incomplete := nofun,
            fresh := nofun, accepts := nofun, delayed := nofun, success := nofun }

/-- A transaction keeps the invariant. -/
theorem Ok.step (h : s.Ok) (l : RegularEvent × Oracle) (hguard : s.Timely l) : (RegularRun.step spec s l).Ok := by
  obtain ⟨e, o⟩ := l
  cases e with simp only [RegularRun.step]
  | startTask m =>
    split
    · have herase : ({ s with starts := s.starts.erase m } : RegularRun).Ok := h.congr rfl
      exact herase.runTask hguard
    · exact h
  | runJob j logical =>
    split
    · have herase : ({ s with jobs := s.jobs.erase j } : RegularRun).Ok := h.congr rfl
      exact herase.run (by cases j <;> exact hguard)
    · exact h
  | actionResult i result => exact h.actionResult hguard
  | executionUpdate i paused => exact h.executionUpdate hguard
  | subworkflowStarted attempt => exact h.subworkflowStarted
  | subworkflowCompleted i result => exact h.subworkflowCompleted hguard
  | subworkflowResult i => exact h.subworkflowResult hguard
  | defer =>
    split
    · exact h.setState nofun
    · exact h
  | scheduleIfNeeded =>
    split
    · exact h.congr rfl
    · exact h
  | resume =>
    split
    · exact h.congr rfl
    · exact h
  | rerun reset => exact h.rerun
  | skip => exact h.skip
  | rerunInSubworkflow i => exact h.rerunInSubworkflow hguard

theorem ok_of_reach (h : (regularSystem spec).Reach Timely s) : s.Ok :=
  h.invariant (fun _ ⟨name, hs⟩ => hs ▸ Ok.start name spec.join) fun _ l _ hok hguard => hok.step l hguard

/-- The executions of a task have different attempts, so a single attempt has a single result. -/
theorem Ok.result (h : s.Ok) (hsingle : s.Single) : ∃ (i : Nat) (x : Execution), s.task.executions[i]? = some x ∧
    s.startedBy[i]? = some s.begun ∧ s.task.getTaskExecutionResult false = .one x.output := by
  obtain ⟨hfresh, i, x, hx, haccepted, hstarted⟩ := hsingle
  refine ⟨i, x, hx, hstarted, TaskEx.getTaskExecutionResult_one (Lists.filter_eq_singleton hx haccepted fun j y hy hj => ?_)⟩
  have hlt : j < s.startedBy.length := (List.getElem?_eq_some_iff.mp (hfresh j y hy hj)).1
  exact (List.getElem?_inj hlt (List.nodup_append.mp h.nodup).1).mp ((hfresh j y hy hj).trans hstarted.symm)

end RegularRun

/-- Results belong to the attempt in progress in every run without late results. -/
theorem results_belong (spec : RegularSpec) : RegularRun.ResultsBelong spec RegularRun.Timely := by
  intro s hreach
  have hok := RegularRun.ok_of_reach hreach
  exact ⟨hok.by', fun hsuccess => hok.result (hok.success hsuccess).2⟩

/-- A task with a timeout that is retried once. -/
def retriedOnce : RegularSpec := { policies := [.retry { count := .lit 1, delay := .lit 1 }, .timeout (.lit 1)] }

/-- The first attempt times out, and its result comes when the second attempt is in progress: it completes the task. -/
theorem late_result_completes_task : ¬RegularRun.ResultsBelong retriedOnce fun _ _ => True := fun h => by
  let o : Oracle := {}
  let events : List (RegularEvent × Oracle) :=
    [(.startTask { taskEx := 0, firstRun := true, waiting := false, triggeredBy := none, rerun := false, reset := false }, o),
     (.runJob (.failTaskIfIncomplete 0 1) .waiting, o), (.runJob (.continueTask 0) .waiting, o),
     (.actionResult 0 (.success (some "late")), o)]
  have hreach : (regularSystem retriedOnce).Reach (fun _ _ => True)
      ((regularSystem retriedOnce).run (RegularRun.start "t" false) events) :=
    .run (.init ⟨"t", rfl⟩) (by simp [events, System.Guarded])
  exact absurd ((h _ hreach).1 (some 1, some 2) (by decide)).2 (by decide)

end Mistral
