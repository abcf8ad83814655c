import Mistral.Engine.WorkflowAttempts

/-! A sub-workflow sends one result each time it completes. -/

namespace Mistral

/-- A change from a state that is not completed to one that is. -/
def Completes (c : State × State) : Bool := !c.1.isCompleted && c.2.isCompleted

/-- The changes lead from one state to the other, one after another. -/
def Connects : State → List (State × State) → State → Prop
  | a, [], b => a = b
  | a, c :: cs, b => c.1 = a ∧ Connects c.2 cs b

/-- The changes of the row are valid transitions, which never leave `SUCCESS`, and there is a result for each one that
    completes the execution. -/
structure WorkflowRow.Faithful (row : WorkflowRow) : Prop where
  connects : Connects .idle row.changes row.state
  valid : ∀ c ∈ row.changes, c.1.isValidTransition c.2
  success : ∀ c ∈ row.changes, c.1 = .success → c.2 = .success
  results : row.results = (row.changes.filter Completes).map Prod.snd

/-- In guarded runs, what is committed is faithful. -/
def OneResultEach (τ : Type) [DecidableEq τ] (guard : WorkflowTxs τ → WorkflowEvent τ → Prop) : Prop :=
  ∀ s, (workflowTxs τ).Reach guard s → s.row.committed.Faithful

/-- `_succeed_workflow` finds no execution that has succeeded already: no transaction is asked to stop one with `SUCCESS`,
    and none that has begun to complete the execution finds that another one has. An output over the limit is no output
    of an operation whose errors a handler catches. -/
def SucceedsOpen {τ : Type} [DecidableEq τ] (s : WorkflowTxs τ) : WorkflowEvent τ → Prop
  | .run t op fits =>
    (op = .stop .success → s.read t ≠ some .success) ∧
      (op = .checkAndComplete .succeed →
        ∀ st, s.read t = some st → st.isPausedOrCompleted = false → (s.row.read t).state ≠ .success) ∧
      op.storing fits ≠ .caught
  | _ => True

section
variable {row : WorkflowRow} {old new : State}

theorem Connects.append {a b c : State} {cs : List (State × State)} (h : Connects a cs b) :
    Connects a (cs ++ [(b, c)]) c := by
  induction cs generalizing a with
  | nil => exact ⟨h.symm, rfl⟩
  | cons d cs ih => exact ⟨h.1, ih h.2⟩

/-- A valid transition to a completed state comes from an open one, or stays. -/
theorem completes_of_valid (h : old.isValidTransition new) (hnew : new.isCompleted) (hne : old ≠ new)
    (hskipped : new ≠ .skipped) : Completes (old, new) := by
  cases old <;> cases new <;>
    first
    | rfl
    | exact absurd h (by decide)
    | exact absurd hnew (by decide)
    | exact absurd rfl hne
    | exact absurd rfl hskipped

theorem WorkflowRow.Faithful.changed (h : row.Faithful) (hold : row.state = old) (hvalid : old.isValidTransition new)
    (hnew : new.isCompleted → Completes (old, new)) :
    (WorkflowTxs.sent (WorkflowTxs.changed row old new) new).Faithful where
  connects := hold ▸ h.connects.append
  valid c hc := by
    rcases List.mem_append.mp hc with hc | hc
    · exact h.valid c hc
    · cases List.mem_singleton.mp hc
      exact hvalid
  success c hc hsuccess := by
    rcases List.mem_append.mp hc with hc | hc
    · exact h.success c hc hsuccess
    · cases List.mem_singleton.mp hc
      have hsuccess : old = .success := hsuccess
      exact State.eq_success_of_isValidTransition (hsuccess ▸ hvalid)
  results := by
    unfold WorkflowTxs.sent WorkflowTxs.changed
    dsimp only
    rw [List.filter_append, List.map_append, ← h.results]
    by_cases hcompleted : new.isCompleted
    · rw [if_pos hcompleted, List.filter_cons_of_pos (hnew hcompleted)]
      rfl
    · have hnot : ¬Completes (old, new) := by simp [Completes, hcompleted]
      rw [if_neg hcompleted, List.filter_cons_of_neg hnot]
      simp

/-! ### What the operations set -/

/-- What is set completes an execution that is open. -/
def SetsOpen (state : State) (sets : Sets) : Prop :=
  ∀ new, sets = some new → new.isCompleted → new ≠ .skipped ∧ state ≠ new

theorem setsFail_open (state : State) : SetsOpen state (setsFail state) := by
  intro new hnew hcompleted
  unfold setsFail at hnew
  split at hnew
  · cases hnew
  · next hopen =>
    cases hnew
    refine ⟨nofun, ?_⟩
    rintro rfl
    exact hopen rfl

theorem setsCancel_open (state : State) : SetsOpen state (setsCancel state) := by
  intro new hnew hcompleted
  unfold setsCancel at hnew
  split at hnew
  · cases hnew
  · next hopen =>
    cases hnew
    refine ⟨nofun, ?_⟩
    rintro rfl
    exact hopen rfl

theorem setsSucceed_open {state : State} (h : state ≠ .success) : SetsOpen state setsSucceed := by
  intro new hnew hcompleted
  cases hnew
  exact ⟨nofun, h⟩

theorem setsNone_open (state : State) : SetsOpen state none := nofun

theorem setsOther_open (state : State) {new : State} (h : new.isCompleted = false) : SetsOpen state (some new) := by
  intro new' hnew hcompleted
  cases hnew
  rw [h] at hcompleted
  cases hcompleted

theorem setsStop_open {state st : State} (h : st = .success → state ≠ .success) : SetsOpen state (setsStop state st) := by
  cases st with
  | success => exact setsSucceed_open (h rfl)
  | error => exact setsFail_open state
  | cancelled => exact setsCancel_open state
  | _ => exact setsNone_open state

theorem setsComplete_open {state : State} {verdict : Verdict} (h : verdict = .succeed → state ≠ .success) :
    SetsOpen state (setsComplete state verdict) := by
  cases verdict with
  | cancel => exact setsCancel_open state
  | succeed => exact setsSucceed_open (h rfl)
  | fail => exact setsFail_open state

theorem setsPause_open (state : State) : SetsOpen state (setsPause state) := by
  unfold setsPause
  split
  · exact setsNone_open state
  · exact setsOther_open state rfl

/-- A command changes no execution that is completed. -/
theorem setsCommand_open (state : State) (kind : StateCmd) : SetsOpen state (setsCommand state kind) := by
  unfold setsCommand
  split
  · exact setsNone_open state
  · next hopen =>
    cases kind with
    | pause => exact setsPause_open state
    | fail => exact setsFail_open state
    | succeed =>
      refine setsSucceed_open ?_
      rintro rfl
      exact hopen rfl

theorem WorkflowOp.sets_open {op : WorkflowOp} {state : State} (hstop : op = .stop .success → state ≠ .success)
    (hcheck : ∀ verdict, op ≠ .checkAndComplete verdict) : SetsOpen state (op.sets state) := by
  cases op with
  | start | reopen => exact setsOther_open state rfl
  | checkAndComplete verdict => exact absurd rfl (hcheck verdict)
  | stop st => exact setsStop_open fun h => hstop (h ▸ rfl)
  | forceFail => exact setsFail_open state
  | command kind => exact setsCommand_open state kind
  | pause => exact setsPause_open state
  | resume =>
    unfold sets
    dsimp only
    split
    · exact setsOther_open state rfl
    · exact setsNone_open state
  | rerun =>
    unfold sets
    dsimp only
    split
    · exact setsNone_open state
    · exact setsOther_open state rfl

/-! ### Runs -/

variable {τ : Type} [DecidableEq τ] {s : WorkflowTxs τ} {t : τ}

/-- What is committed, and what is not yet. -/
structure WorkflowTxs.Faithful (s : WorkflowTxs τ) : Prop where
  committed : s.row.committed.Faithful
  pending : ∀ t row, s.row.pending = some (t, row) → row.Faithful

theorem WorkflowTxs.Faithful.read (h : s.Faithful) (t : τ) : (s.row.read t).Faithful := by
  unfold Cell.read
  split
  · next u row hp =>
    split
    · exact h.pending u row hp
    · exact h.committed
  · exact h.committed

theorem WorkflowTxs.Faithful.setRead (h : s.Faithful) (t : τ) (state : Option State) : (s.setRead t state).Faithful :=
  ⟨h.committed, h.pending⟩

theorem WorkflowTxs.Faithful.rollback (h : s.Faithful) (t : τ) : (s.rollback t).Faithful := by
  refine ⟨?_, fun u row hp => h.pending u row (Cell.pending_rollback hp).1⟩
  show (s.row.rollback t).committed.Faithful
  rw [Cell.committed_rollback]
  exact h.committed

theorem WorkflowTxs.Faithful.setState (h : s.Faithful) {old new : State} {storing : Storing} (hcaught : storing ≠ .caught)
    (hopen : new.isCompleted → new ≠ .skipped ∧ old ≠ new) : (s.setState t old new storing).Faithful := by
  unfold WorkflowTxs.setState
  split
  next hvalid =>
    split
    · exact h
    · split
      next hstate =>
        unfold finish
        split
        · refine ⟨h.committed, fun u row hp => ?_⟩
          cases hp
          simp only [WorkflowTxs.setRead, Cell.read_write]
          refine (h.read t).changed hstate hvalid fun hcompleted => ?_
          exact completes_of_valid hvalid hcompleted (hopen hcompleted).2 (hopen hcompleted).1
        · -- What the transaction has written is gone.
          refine ⟨?_, fun u row hp => ?_⟩
          · show ((s.row.write t (changed (s.row.read t) old new)).rollback t).committed.Faithful
            rw [Cell.committed_rollback]
            exact h.committed
          · obtain ⟨hwritten, hu⟩ := Cell.pending_rollback hp
            cases hwritten
            exact absurd rfl hu
        next hstoring =>
          split at hstoring
          · exact absurd hstoring hcaught
          · cases hstoring
      · exact h
  · exact h

theorem WorkflowTxs.Faithful.apply (h : s.Faithful) {state : State} {storing : Storing} {sets : Sets}
    (hcaught : storing ≠ .caught) (hopen : SetsOpen state sets) : (s.apply t state storing sets).Faithful := by
  cases sets with
  | none => exact h
  | some new => exact h.setState hcaught (hopen new rfl)

theorem WorkflowTxs.Faithful.execute (h : s.Faithful) {op : WorkflowOp} {fits : Bool}
    (hguard : SucceedsOpen s (.run t op fits)) : (s.execute t op fits).Faithful := by
  obtain ⟨hstop, hcheck, hcaught⟩ := hguard
  unfold WorkflowTxs.execute
  split
  · exact h
  next state verdict hread =>
    split
    · exact h
    next hopen =>
      have hload : (s.load t).Faithful := h.setRead t _
      refine hload.apply hcaught (setsComplete_open ?_)
      rintro rfl
      exact hcheck rfl state hread (by simpa using hopen)
  next state hread hother =>
    refine h.apply hcaught (WorkflowOp.sets_open ?_ hother)
    rintro rfl rfl
    exact hstop rfl hread

theorem WorkflowTxs.Faithful.next (h : s.Faithful) {l : WorkflowEvent τ} (hguard : SucceedsOpen s l) :
    (s.next l).Faithful := by
  cases l with
  | load t => exact h.setRead t _
  | run t op fits => exact h.execute hguard
  | commit t =>
    refine ⟨?_, fun u row hp => h.pending u row (Cell.pending_commit hp).1⟩
    show (s.row.commit t).committed.Faithful
    rw [Cell.committed_commit]
    exact h.read t
  | rollback t => exact h.rollback t

end

/-- A sub-workflow registers one result each time it completes, if it never succeeds again. -/
theorem one_result_each (τ : Type) [DecidableEq τ] : OneResultEach τ SucceedsOpen := by
  intro s hreach
  have hfaithful : s.Faithful := by
    refine hreach.invariant ?_ fun s l _ h hguard => h.next hguard
    rintro s rfl
    exact ⟨⟨rfl, fun _ hc => absurd hc List.not_mem_nil, fun _ hc => absurd hc List.not_mem_nil, rfl⟩,
      fun t row hp => nomatch hp⟩
  exact hfaithful.committed

/-- Two transactions complete the execution after its last tasks. The second one has begun when the first one commits. -/
theorem concurrent_checks_send_twice : ¬OneResultEach (Fin 3) fun _ _ => True := by
  intro h
  have hreach : (workflowTxs (Fin 3)).Reach (fun _ _ => True) ((workflowTxs (Fin 3)).run
      { row := { committed := {} }, read := fun _ => none }
      [.load 0, .run 0 .start true, .commit 0, .load 1, .load 2, .run 1 (.checkAndComplete .succeed) true, .commit 1,
        .run 2 (.checkAndComplete .succeed) true, .commit 2]) :=
    .run (.init rfl) (by simp [System.Guarded])
  exact absurd (h _ hreach).results (by decide)

end Mistral
