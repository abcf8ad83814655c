/-! The states of tasks, actions and workflows, and the transitions between them
    (`mistral/workflow/states.py`). -/

namespace Mistral

/-- A state of a task, an action or a workflow. -/
inductive State
  | idle
  | waiting
  | running
  | runningDelayed
  | paused
  | success
  | cancelled
  | error
  | skipped
  deriving DecidableEq, Repr

namespace State

/-- The name that is stored. -/
def name : State → String
  | idle => "IDLE"
  | waiting => "WAITING"
  | running => "RUNNING"
  | runningDelayed => "DELAYED"
  | paused => "PAUSED"
  | success => "SUCCESS"
  | cancelled => "CANCELLED"
  | error => "ERROR"
  | skipped => "SKIPPED"

/-- `_VALID_TRANSITIONS`. The table has no entry for `SKIPPED`, and nobody asks for one: a skipped task
    counts as completed before any transition of it is looked up, and only tasks are skipped. -/
def validTransitions : State → List State
  | idle => [running, error, cancelled]
  | waiting => [running]
  | running => [paused, runningDelayed, success, error, cancelled]
  | runningDelayed => [running, error, cancelled]
  | paused => [running, error, cancelled]
  | success => []
  | cancelled => [running]
  | error => [running, skipped]
  | skipped => []

/-- `is_completed`. -/
def isCompleted (s : State) : Bool := s ∈ [success, error, cancelled, skipped]

/-- `is_cancelled`. -/
def isCancelled (s : State) : Bool := s == cancelled

/-- `is_skipped`. -/
def isSkipped (s : State) : Bool := s == skipped

/-- `is_running`. -/
def isRunning (s : State) : Bool := s ∈ [running, runningDelayed]

/-- `is_waiting`. -/
def isWaiting (s : State) : Bool := s == waiting

/-- `is_idle`. -/
def isIdle (s : State) : Bool := s == idle

/-- `is_paused`. -/
def isPaused (s : State) : Bool := s == paused

/-- `is_paused_or_completed`. -/
def isPausedOrCompleted (s : State) : Bool := s.isPaused || s.isCompleted

/-- `is_cancelled_or_skipped`. -/
def isCancelledOrSkipped (s : State) : Bool := s.isCancelled || s.isSkipped

/-- `is_paused_or_idle`. -/
def isPausedOrIdle (s : State) : Bool := s.isPaused || s.isIdle

/-- `is_valid_transition`. -/
def isValidTransition (old new : State) : Bool := old == new || new ∈ old.validTransitions

theorem running_notTask : running ≠ waiting ∧ running ≠ skipped := by decide

theorem paused_notTask : paused ≠ waiting ∧ paused ≠ skipped := by decide

theorem error_notTask : error ≠ waiting ∧ error ≠ skipped := by decide

theorem updated_notTask (p : Bool) : (if p then paused else running) ≠ waiting ∧ (if p then paused else running) ≠ skipped := by
  cases p <;> decide

/-! ### Facts about the table -/

@[simp] theorem isCompleted_iff {s : State} :
    s.isCompleted = true ↔ s = success ∨ s = error ∨ s = cancelled ∨ s = skipped := by
  cases s <;> simp [isCompleted]

@[simp] theorem isValidTransition_self (s : State) : s.isValidTransition s = true := by
  simp [isValidTransition]

/-- Nothing leaves `SUCCESS`. -/
theorem eq_success_of_isValidTransition {s : State} (h : success.isValidTransition s = true) : s = success := by
  cases s <;> simp [isValidTransition, validTransitions] at h ⊢

/-- A completed state is left for `RUNNING` only, or for `SKIPPED`. -/
theorem eq_or_running_of_completed {old new : State} (hold : old.isCompleted = true)
    (h : old.isValidTransition new = true) (hskipped : new ≠ skipped) : new = old ∨ new = running := by
  cases old <;> cases new <;> simp_all [isValidTransition, validTransitions]

end State
end Mistral
