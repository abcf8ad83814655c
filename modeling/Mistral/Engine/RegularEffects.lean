import Mistral.Engine.RegularRuns
import Mistral.Lib.Lists

/-! What the parts of a task's run change in its executions. -/

namespace Mistral
namespace RegularRun
variable {spec : RegularSpec} {o : Oracle} {s s' : RegularRun} {i : Nat} {st : State} {info : Option String}
  {processed : Option Bool}

@[simp] theorem executions_setState : (s.setState st info processed).task.executions = s.task.executions := by
  unfold setState
  split <;> rfl

@[simp] theorem state_setState : (s.setState st info processed).task.state = st := by
  unfold setState
  split
  · rfl
  next h =>
    simp only [TaskEx.differs, Bool.or_eq_true, bne_iff_ne, not_or, not_not] at h
    exact h.1

theorem executions_beforeTaskStart (s : RegularRun) (p : Policy) :
    (s.beforeTaskStart o p).task.executions = s.task.executions := by
  cases p with simp only [RegularRun.beforeTaskStart]
  | pauseBefore | timeout => split <;> simp [RegularRun.addJob]
  | waitBefore delay =>
    split
    · rfl
    split
    · simp
    split
    · rfl
    · show (RegularRun.setState _ _ _ _).task.executions = _
      rw [executions_setState]
      rfl
  | concurrency n => split <;> rfl

/-- What each policy keeps, all of them keep. -/
theorem runPolicies_keeps {P : RegularRun → Prop} {raises : Policy → Bool} {f : RegularRun → Policy → RegularRun}
    {ps : List Policy} (hf : ∀ s p, P s → P (f s p)) (h : P s) : P (runPolicies raises f ps s).1 := by
  induction ps generalizing s with
  | nil => exact h
  | cons p ps ih =>
    unfold runPolicies
    split
    · exact h
    · exact ih (hf s p h)

theorem getElem?_setExecution {f : Execution → Execution} {e : TaskEx} {j : Nat} {x : Execution}
    (h : (e.setExecution i f).executions[j]? = some x) :
    ∃ y : Execution, e.executions[j]? = some y ∧ (i = j ∧ x = f y ∨ i ≠ j ∧ x = y) := by
  simp only [TaskEx.setExecution, List.getElem?_modify] at h
  obtain ⟨y, hy, heq⟩ := Option.map_eq_some_iff.mp h
  refine ⟨y, hy, ?_⟩
  split at heq
  next hij => exact .inl ⟨hij, heq.symm⟩
  next hij => exact .inr ⟨hij, heq.symm⟩

theorem incomplete_iff : s.incomplete i ↔ ∃ x : Execution, s.task.executions[i]? = some x ∧ x.state.isCompleted = false := by
  unfold RegularRun.incomplete
  rw [Option.any_eq_true]
  simp

/-! ### Executions in progress -/

/-- The items of the executions and whether these are completed, and the items whose sub-workflow has been asked for. -/
def progress (s : RegularRun) : List (Nat × Bool) × List Nat :=
  (s.task.executions.map fun x => (x.index, x.state.isCompleted), s.subStarts)

/-- The number of executions of an item that are in progress or have been asked for. -/
def underway (s : RegularRun) (i : Nat) : Nat := s.progress.1.count (i, false) + s.progress.2.count i

theorem underway_eq (s : RegularRun) (i : Nat) : s.underway i =
    (s.task.executions.countP fun x => x.index == i && !x.state.isCompleted) + s.subStarts.count i := by
  rw [underway, progress, List.count, List.countP_map]
  congr 2
  funext x
  show ((x.index, x.state.isCompleted) == (i, false)) = _
  cases x.state.isCompleted <;> simp

theorem underway_congr (h : s'.progress = s.progress) : s'.underway i = s.underway i := by rw [underway, h, underway]

@[simp] theorem progress_setState : (s.setState st info processed).progress = s.progress := by
  rw [progress, executions_setState]
  rfl

theorem progress_map {f : Execution → Execution} (hf : ∀ x, (f x).index = x.index ∧ (f x).state = x.state) :
    (s.task.executions.map f).map (fun x => (x.index, x.state.isCompleted)) =
      s.task.executions.map fun x => (x.index, x.state.isCompleted) := by
  rw [List.map_map]
  exact List.map_congr_left fun x _ => by simp [hf]

theorem progress_destroyResult : (s.mapTask (·.destroyResult)).progress = s.progress :=
  congrArg (·, s.subStarts) (progress_map fun _ => ⟨rfl, rfl⟩)

theorem progress_invalidateResult {f : RuntimeContext → RuntimeContext} :
    (s.mapTask fun e => e.invalidateResult.mapContext f).progress = s.progress :=
  congrArg (·, s.subStarts) (progress_map fun _ => ⟨rfl, rfl⟩)

theorem progress_resetActions {reset : Bool} : (s.mapTask (·.resetActions reset)).progress = s.progress :=
  congrArg (·, s.subStarts) (progress_map fun x => by split <;> exact ⟨rfl, rfl⟩)

theorem progress_beforeTaskStart (p : Policy) : (s.beforeTaskStart o p).progress = s.progress := by
  cases p with simp only [RegularRun.beforeTaskStart]
  | pauseBefore => split <;> simp
  | waitBefore delay =>
    split
    · rfl
    split
    · simp
    split
    · rfl
    · exact progress_setState
  | timeout | concurrency => split <;> rfl

theorem progress_runBefore : (s.runBefore spec o).1.progress = s.progress :=
  runPolicies_keeps (P := fun r => r.progress = s.progress) (fun _ p h => (progress_beforeTaskStart p).trans h) rfl

theorem progress_startRetry {delay : NatExpr} : (s.startRetry spec o delay).progress = s.progress := by
  unfold startRetry
  split <;> exact progress_setState

theorem progress_afterTaskComplete (p : Policy) : (s.afterTaskComplete spec o p).progress = s.progress := by
  cases p with simp only [RegularRun.afterTaskComplete]
  | waitAfter delay =>
    split
    · rfl
    split
    · rfl
    · exact progress_setState
  | failOn => split <;> simp
  | retry r =>
    simp only [retryAfterTaskComplete]
    split
    · rfl
    split
    · rfl
    split
    · rfl
    · exact progress_startRetry.trans progress_invalidateResult

theorem progress_complete : (s.complete spec o st info).1.progress = s.progress := by
  simp only [RegularRun.complete]
  split
  · rfl
  split
  · exact progress_setState
  · have hdestroyed : (if spec.keepResult then s.setState st info none else
        (s.setState st info none).mapTask (·.destroyResult)).progress = s.progress := by
      split
      · exact progress_setState
      · exact progress_destroyResult.trans progress_setState
    split
    · exact hdestroyed
    · exact runPolicies_keeps (P := fun r => r.progress = s.progress)
        (fun _ p h => (progress_afterTaskComplete p).trans h) hdestroyed

theorem progress_handling {what : String} {r : RegularRun × Bool} : (handling what r).progress = r.1.progress := by
  unfold handling
  split <;> simp

theorem progress_completeTask : (s.completeTask spec o st info).progress = s.progress :=
  progress_handling.trans progress_complete

theorem progress_updateTask : (s.updateTask st).progress = s.progress := by
  unfold RegularRun.updateTask
  split
  · rfl
  split <;> rfl

theorem progress_rerun {reset : Bool} : (s.rerun reset).progress = s.progress := by
  unfold RegularRun.rerun
  cases s.task.state.isWaiting with
  | true => exact progress_setState
  | false => rfl

theorem progress_skip : (s.skip spec o).progress = s.progress := by
  simp only [RegularRun.skip]
  split
  · rfl
  · exact progress_complete

end RegularRun
end Mistral
