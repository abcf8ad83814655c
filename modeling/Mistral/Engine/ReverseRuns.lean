import Mistral.Lib.ReadCommitted
import Mistral.Lib.System
import Mistral.Workflow.ReverseWorkflow

/-! Concurrent transactions that complete the tasks of a reverse workflow and create the next ones
    (`mistral/workflow/reverse_workflow.py`), and the checks for its completion (`check_and_complete` in
    `mistral/engine/workflows.py`), statement by statement. Every state of a task that is not completed is `IDLE` here:
    nothing that is modelled tells them apart. -/

namespace Mistral

/-- A transaction that looks for the next tasks: the tasks that it still has to look at, the one that has no
    execution and whose requirements it is about to check, the names of the successful tasks once
    `wf_ex.task_executions` is loaded, and the tasks that it found and has not created. -/
structure ReverseTx where
  todo : List String
  asks : Option String := none
  success : Option (List String) := none
  cmds : List String := []
  deriving DecidableEq, Repr

/-- The next statement of `check_and_complete`. From `expire_all` on, the transaction works with the state of the
    workflow that it read then. -/
inductive CheckStep
  | count
  | reload
  | cancels (wf : State)
  | errors (wf : State)
  | finalContext (wf new : State)
  | setState (wf new : State)
  deriving DecidableEq, Repr

/-- The workflow execution, its task executions, the transactions in progress and the completion checks. A workflow
    whose committed state is `IDLE` is not there yet for anyone but the transaction that starts it. -/
structure Reverse (τ : Type) where
  wf : Cell τ State
  rows : List (Row τ State)
  txs : τ → Option ReverseTx
  checks : τ → CheckStep

/-- A transaction begins, takes its next statement or is rolled back, or a check of the completion takes its next one.
    -/
inductive ReverseEvent (τ : Type)
  | complete (t : τ) (row : Nat) (st : State)
  | skip (t : τ) (row : Nat)
  | pause
  | resume (t : τ)
  | run (t : τ)
  | rollback (t : τ)
  | check (t : τ)
  deriving DecidableEq, Repr

namespace Reverse
variable {τ : Type} [DecidableEq τ] (w : ReverseWorkflow) (s : Reverse τ) (t : τ)

def setTx (tx : Option ReverseTx) : Reverse τ := { s with txs := Function.update s.txs t tx }

/-- Transaction `t` writes the state of a task that no other transaction has written. -/
def write (row : Nat) (st : State) : Reverse τ :=
  { s with rows := s.rows.modify row fun r => { r with cell := r.cell.write t (some st) } }

/-- The state of a task that can be updated now. -/
def updatable? (row : Nat) : Option State :=
  s.rows[row]?.bind fun r => if r.cell.pending = none then r.cell.committed else none

/-- The names of the tasks in `SUCCESS` that `t` sees. -/
def successNames : List String := (s.rows.filter fun r => r.cell.read t = some .success).map (·.key)

/-- `_get_task_executions(name=...)` finds something. -/
def hasTaskExecutions (name : String) : Bool := s.rows.any fun r => r.key = name ∧ (r.cell.read t).isSome

/-- The transaction commits. -/
def commit : Reverse τ :=
  { s with
    wf := s.wf.commit t, rows := s.rows.map fun r => { r with cell := r.cell.commit t }
    txs := Function.update s.txs t none }

/-- The transaction is undone. -/
def rollback : Reverse τ :=
  { s with
    wf := s.wf.rollback t, rows := s.rows.map fun r => { r with cell := r.cell.rollback t }
    txs := Function.update s.txs t none }

/-- `Task.complete` has updated the row; a paused workflow dispatches nothing, and a completed one finds nothing. -/
def complete (row : Nat) (st : State) : Reverse τ :=
  match s.updatable? row with
  | some old =>
    if st.isCompleted ∧ st ≠ .skipped ∧ old.isCompleted = false then
      (s.write t row st).setTx t (some { todo := if s.wf.committed.isPausedOrCompleted then [] else w.order })
    else s
  | none => s

/-- A failed task is skipped: the workflow runs again. -/
def skip (row : Nat) : Reverse τ :=
  if s.updatable? row = some .error ∧ s.wf.pending = none ∧ s.wf.committed ≠ .paused ∧
      s.wf.committed.isValidTransition .running then
    { s.write t row .skipped with wf := s.wf.write t .running }.setTx t (some { todo := w.order })
  else s

/-- The request to pause, in a transaction of its own. -/
def pause : Reverse τ :=
  if s.wf = ⟨.running, none⟩ then { s with wf := ⟨.paused, none⟩ } else s

/-- `Workflow.resume` begins: the controller looks for commands. -/
def resume : Reverse τ :=
  if s.wf = ⟨.paused, none⟩ then { s with wf := s.wf.write t .running }.setTx t (some { todo := w.order }) else s

/-- The next statement of `_find_task_specs_with_satisfied_dependencies` or of the dispatcher, or the commit. -/
def execute (tx : ReverseTx) : Reverse τ :=
  match tx.asks, tx.todo, tx.cmds with
  | some name, _, _ =>
    let success := tx.success.getD (s.successNames t)
    let found := if (w.spec.getTaskRequires name).all (· ∈ success) then [name] else []
    s.setTx t (some { tx with asks := none, success := some success, cmds := tx.cmds ++ found })
  | none, name :: todo, _ =>
    if s.hasTaskExecutions t name then s.setTx t (some { tx with todo })
    else if w.spec.getTaskRequires name = [] then s.setTx t (some { tx with todo, cmds := tx.cmds ++ [name] })
    else s.setTx t (some { tx with todo, asks := some name })
  | none, [], name :: cmds =>
    { s.setTx t (some { tx with cmds }) with
      rows := s.rows ++ [⟨name, { committed := none, pending := some (t, some .idle) }⟩] }
  | none, [], [] => s.commit t

/-- Some committed task execution has one of the states. -/
def anyCommitted (p : State → Bool) : Bool := s.rows.any fun r => r.cell.committed.any p

def setCheck (c : CheckStep) : Reverse τ := { s with checks := Function.update s.checks t c }

/-- The next statement of `check_and_complete`; the last one changes the state of the workflow and commits. A check
    that finds more than one execution of the target fails. -/
def check : Reverse τ :=
  match s.checks t with
  | .count =>
    if s.wf.committed ≠ .running ∨ s.anyCommitted (!·.isCompleted) then s else s.setCheck t .reload
  | .reload => s.setCheck t (.cancels s.wf.committed)
  | .cancels wf => s.setCheck t (if s.anyCommitted (· = .cancelled) then .setState wf .cancelled else .errors wf)
  | .errors wf => s.setCheck t (.finalContext wf (if s.anyCommitted (· = .error) then .error else .success))
  | .finalContext wf new =>
    let targets := s.rows.filter fun r => r.key = w.target ∧ r.cell.committed.isSome
    s.setCheck t (if targets.length ≤ 1 then .setState wf new else .count)
  | .setState wf new =>
    if s.wf.pending ≠ none then s
    else if s.wf.committed = wf ∧ wf.isCompleted = false ∧ wf.isValidTransition new then
      { s.setCheck t .count with wf := ⟨new, none⟩ }
    else s.setCheck t .count

/-- One event of the workflow. -/
def step : ReverseEvent τ → Reverse τ
  | .complete t row st => if s.txs t = none then s.complete w t row st else s
  | .skip t row => if s.txs t = none then s.skip w t row else s
  | .pause => s.pause
  | .resume t => if s.txs t = none then s.resume w t else s
  | .run t => match s.txs t with
    | some tx => s.execute w t tx
    | none => s
  | .rollback t => if s.txs t = none then s else s.rollback t
  | .check t => s.check w t

/-- The transaction `t` has created the workflow execution and looks for the first tasks. -/
def start : Reverse τ where
  wf := { committed := .idle, pending := some (t, .running) }
  rows := []
  txs := Function.update (fun _ => none) t (some { todo := w.order })
  checks _ := .count

/-! ### What an event can do -/

variable {w s t}

/-- The effect of an event, with what it relies on. -/
inductive Moved (w : ReverseWorkflow) (s : Reverse τ) : ReverseEvent τ → Reverse τ → Prop
  | stay {ev : ReverseEvent τ} : Moved w s ev s
  | complete {t : τ} {i : Nat} {r : Row τ State} {old st : State} (htx : s.txs t = none) (hrow : s.rows[i]? = some r)
      (hcell : r.cell = ⟨some old, none⟩) (hold : old.isCompleted = false) (hst : st.isCompleted) (hns : st ≠ .skipped) :
      Moved w s (.complete t i st)
        ((s.write t i st).setTx t (some { todo := if s.wf.committed.isPausedOrCompleted then [] else w.order }))
  | skip {t : τ} {i : Nat} {r : Row τ State} (htx : s.txs t = none) (hrow : s.rows[i]? = some r)
      (hcell : r.cell = ⟨some .error, none⟩) :
      Moved w s (.skip t i) ({ s.write t i .skipped with wf := s.wf.write t .running }.setTx t (some { todo := w.order }))
  | pause : Moved w s .pause { s with wf := ⟨.paused, none⟩ }
  | resume {t : τ} (htx : s.txs t = none) (hwf : s.wf = ⟨.paused, none⟩) :
      Moved w s (.resume t) ({ s with wf := s.wf.write t .running }.setTx t (some { todo := w.order }))
  | present {t : τ} {tx : ReverseTx} {n : String} {todo : List String} (htx : s.txs t = some tx) (hasks : tx.asks = none)
      (htodo : tx.todo = n :: todo) (hhas : s.hasTaskExecutions t n) : Moved w s (.run t) (s.setTx t (some { tx with todo }))
  | free {t : τ} {tx : ReverseTx} {n : String} {todo : List String} (htx : s.txs t = some tx) (hasks : tx.asks = none)
      (htodo : tx.todo = n :: todo) (hhas : s.hasTaskExecutions t n = false) (hreq : w.spec.getTaskRequires n = []) :
      Moved w s (.run t) (s.setTx t (some { tx with todo, cmds := tx.cmds ++ [n] }))
  | ask {t : τ} {tx : ReverseTx} {n : String} {todo : List String} (htx : s.txs t = some tx) (hasks : tx.asks = none)
      (htodo : tx.todo = n :: todo) (hhas : s.hasTaskExecutions t n = false) (hreq : w.spec.getTaskRequires n ≠ []) :
      Moved w s (.run t) (s.setTx t (some { tx with todo, asks := some n }))
  | require {t : τ} {tx : ReverseTx} {n : String} {success found : List String} (htx : s.txs t = some tx)
      (hasks : tx.asks = some n) (hsuccess : success = tx.success.getD (s.successNames t))
      (hfound : found = if (w.spec.getTaskRequires n).all (· ∈ success) then [n] else []) :
      Moved w s (.run t) (s.setTx t (some { tx with asks := none, success := some success, cmds := tx.cmds ++ found }))
  | create {t : τ} {tx : ReverseTx} {n : String} {cmds : List String} (htx : s.txs t = some tx) (hasks : tx.asks = none)
      (htodo : tx.todo = []) (hcmds : tx.cmds = n :: cmds) :
      Moved w s (.run t) { s.setTx t (some { tx with cmds }) with
        rows := s.rows ++ [⟨n, { committed := none, pending := some (t, some .idle) }⟩] }
  | commit {t : τ} {tx : ReverseTx} (htx : s.txs t = some tx) (hasks : tx.asks = none) (htodo : tx.todo = [])
      (hcmds : tx.cmds = []) : Moved w s (.run t) (s.commit t)
  | rollback {t : τ} {tx : ReverseTx} (htx : s.txs t = some tx) : Moved w s (.rollback t) (s.rollback t)
  | check {t : τ} : Moved w s (.check t) (s.check w t)

omit [DecidableEq τ] in
theorem updatable?_eq_some {i : Nat} {st : State} (h : s.updatable? i = some st) :
    ∃ r, s.rows[i]? = some r ∧ r.cell = ⟨some st, none⟩ := by
  obtain ⟨⟨key, committed, pending⟩, hrow, h⟩ := Option.bind_eq_some_iff.mp h
  simp only [Option.ite_none_right_eq_some] at h
  obtain ⟨rfl, rfl⟩ := h
  exact ⟨_, hrow, rfl⟩

theorem moved_execute {tx : ReverseTx} (htx : s.txs t = some tx) : Moved w s (.run t) (s.execute w t tx) := by
  unfold execute
  split
  next n hasks => exact .require htx hasks rfl rfl
  next n todo hasks htodo =>
    split
    next hhas => exact .present htx hasks htodo hhas
    next hhas =>
      have hhas : s.hasTaskExecutions t n = false := by simpa using hhas
      split
      next hreq => exact .free htx hasks htodo hhas hreq
      next hreq => exact .ask htx hasks htodo hhas hreq
  next n cmds hasks htodo hcmds => exact .create htx hasks htodo hcmds
  next hasks htodo hcmds => exact .commit htx hasks htodo hcmds

theorem moved_step (ev : ReverseEvent τ) : Moved w s ev (s.step w ev) := by
  cases ev with
  | complete t i st =>
    simp only [step, complete]
    split
    next htx =>
      split
      next old hold =>
        split
        next h =>
          obtain ⟨r, hrow, hcell⟩ := updatable?_eq_some hold
          exact .complete htx hrow hcell h.2.2 h.1 h.2.1
        · exact .stay
      · exact .stay
    · exact .stay
  | skip t i =>
    simp only [step, skip]
    split
    next htx =>
      split
      next h =>
        obtain ⟨r, hrow, hcell⟩ := updatable?_eq_some h.1
        exact .skip htx hrow hcell
      · exact .stay
    · exact .stay
  | pause =>
    simp only [step, pause]
    split
    · exact .pause
    · exact .stay
  | resume t =>
    simp only [step, resume]
    split
    next htx =>
      split
      next hwf => exact .resume htx hwf
      · exact .stay
    · exact .stay
  | run t =>
    simp only [step]
    split
    next tx htx => exact moved_execute htx
    · exact .stay
  | rollback t =>
    simp only [step]
    split
    · exact .stay
    next htx =>
      obtain ⟨tx, htx⟩ := Option.ne_none_iff_exists'.mp htx
      exact .rollback htx
  | check t => exact .check

/-- A completion check changes neither the tasks nor the transactions. -/
theorem rows_check : (s.check w t).rows = s.rows ∧ (s.check w t).txs = s.txs := by
  unfold check setCheck
  split <;> (repeat' split) <;> exact ⟨rfl, rfl⟩

end Reverse

/-- A reverse workflow, from the transaction that starts it. -/
def reverseSystem (τ : Type) [DecidableEq τ] (w : ReverseWorkflow) : System (Reverse τ) (ReverseEvent τ) where
  init s := ∃ t, s = Reverse.start w t
  step := Reverse.step w

end Mistral
