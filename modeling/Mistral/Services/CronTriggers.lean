import Mathlib.Data.List.Sort
import Mathlib.Logic.Function.Basic
import Mistral.Db.Queries
import Mistral.Lib.System

/-! Cron triggers, and the cycles in which engines advance them and start their workflows
    (`mistral/services/{periodic,triggers}.py`).

Times are numbers of seconds. What `start_workflow` is told besides the trigger is left out. Each call of the DB API has a
transaction of its own, in which the row is read before it is written. -/

namespace Mistral

/-- A row of `cron_triggers_v2`. -/
structure CronTrigger extends DbRow where
  pattern : Option String
  nextExecutionTime : Nat
  remainingExecutions : Option Nat
  deriving DecidableEq, Repr

/-- What an engine does with the copy of a trigger: it has found the row that it deletes or updates, or the workflow is
    to start. -/
inductive Phase
  | idle
  | delete (t : CronTrigger) (id : String)
  | update (t : CronTrigger) (id : String) (nextTime : Nat)
  | start (t : CronTrigger)
  deriving DecidableEq, Repr

/-- The loop of an engine over the copies that it has read. -/
structure Cycle where
  pending : List CronTrigger := []
  phase : Phase := .idle
  deriving DecidableEq, Repr

/-- The rows, the loops of the engines, and the starts of workflows, with the copies of the triggers they are for. -/
structure CronState where
  triggers : List CronTrigger
  cycles : Nat → Cycle := fun _ => {}
  starts : List CronTrigger := []

/-- The steps of an engine, with the time, the row that the database returns first, and whether the step raises. -/
inductive CronStep
  | read (engine now : Nat)
  | advance (engine now : Nat) (first : String)
  | write (engine : Nat) (raises : Bool)
  | start (engine : Nat) (raises : Bool)
  deriving DecidableEq, Repr

def CronStep.engine : CronStep → Nat
  | read engine _ | advance engine _ _ | write engine _ | start engine _ => engine

/-! ### Functions -/

/-- `get_next_cron_triggers`: those that are due within two seconds. -/
def getNextCronTriggers (triggers : List CronTrigger) (now : Nat) : List CronTrigger :=
  (triggers.filter fun t => t.nextExecutionTime < now + 2).insertionSort fun t u =>
    t.nextExecutionTime ≤ u.nextExecutionTime

/-- The security context of a trigger. -/
def CronTrigger.context (t : CronTrigger) : Context := { projectId := t.projectId }

/-- The criterion by which `get_cron_trigger` finds rows for the name of a trigger. -/
def CronTrigger.finds (t u : CronTrigger) : Bool := u.visible t.context [] && u.hasNameOrId t.name none

/-- `get_cron_trigger`: the first of the rows that match is any of them. -/
def getCronTriggerOf (triggers : List CronTrigger) (t : CronTrigger) (first : String) : Option CronTrigger :=
  let found := triggers.filter t.finds
  (found.find? (·.id == first)).or found.head?

/-- The executions that remain in the copy. -/
def CronTrigger.decrement (t : CronTrigger) : CronTrigger :=
  { t with remainingExecutions := t.remainingExecutions.map (· - 1) }

section
variable (croniter : String → Nat → Option Nat)

/-- `get_next_execution_time`, where there must be a pattern. -/
def getNextExecutionTime (pattern : Option String) (startTime : Nat) : Option Nat :=
  pattern.bind (croniter · startTime)

/-- `advance_cron_trigger`, to the row that it deletes or updates. -/
def advanceCronTrigger (triggers : List CronTrigger) (t : CronTrigger) (now : Nat) (first : String) : Phase :=
  let t' := t.decrement
  if t'.remainingExecutions = some 0 then
    match getCronTriggerOf triggers t' first with
    | none => .idle
    | some r =>
      match checkDbObjAccess t'.context r.toDbRow with
      | .error _ => .idle
      | .ok _ => .delete t' r.id
  else
    match getNextExecutionTime croniter t'.pattern (max now t'.nextExecutionTime) with
    | none => .idle
    | some nextTime =>
      match getCronTriggerOf triggers t' first with
      | none => .idle
      | some r => .update t' r.id nextTime

/-- The row that an `UPDATE` of the trigger `t` leaves. -/
def CronTrigger.advanced (t : CronTrigger) (nextTime : Nat) (r : CronTrigger) : CronTrigger :=
  { r with nextExecutionTime := nextTime, remainingExecutions := t.remainingExecutions }

/-- The row satisfies the query filter of `update_cron_trigger`. -/
def CronTrigger.matchesFilter (t : CronTrigger) (id : String) (r : CronTrigger) : Bool :=
  r.id == id && r.nextExecutionTime == t.nextExecutionTime

/-- The rows after the statement of a phase. -/
def written (triggers : List CronTrigger) : Phase → List CronTrigger
  | .delete _ id => triggers.filter (·.id != id)
  | .update t id nextTime => triggers.map fun r => if t.matchesFilter id r then t.advanced nextTime r else r
  | _ => triggers

/-- The phase after a statement: the workflow is to start if a row was modified. -/
def afterWrite (triggers : List CronTrigger) : Phase → Phase
  | .delete t id => if triggers.any (·.id == id) then .start t else .idle
  | .update t id _ => if triggers.any (t.matchesFilter id) then .start t else .idle
  | phase => phase

def CronState.setCycle (s : CronState) (engine : Nat) (c : Cycle) : CronState :=
  { s with cycles := Function.update s.cycles engine c }

@[simp] theorem CronState.setCycle_self (s : CronState) (engine : Nat) : s.setCycle engine (s.cycles engine) = s := by
  unfold setCycle
  rw [Function.update_eq_self]

/-- One step of `process_cron_triggers_v2`. -/
def cronStep (s : CronState) : CronStep → CronState
  | .read engine now =>
    match s.cycles engine with
    | ⟨[], .idle⟩ => s.setCycle engine { pending := getNextCronTriggers s.triggers now }
    | _ => s
  | .advance engine now first =>
    match s.cycles engine with
    | ⟨t :: rest, .idle⟩ =>
      s.setCycle engine { pending := rest, phase := advanceCronTrigger croniter s.triggers t now first }
    | _ => s
  | .write engine raises =>
    let c := s.cycles engine
    if raises then
      match c.phase with
      | .delete .. | .update .. => s.setCycle engine { c with phase := .idle }
      | _ => s
    else
      { s.setCycle engine { c with phase := afterWrite s.triggers c.phase } with triggers := written s.triggers c.phase }
  | .start engine raises =>
    match s.cycles engine with
    | ⟨rest, .start t⟩ =>
      { s.setCycle engine { pending := rest } with starts := if raises then s.starts else s.starts ++ [t] }
    | _ => s

/-- Engines process triggers; the API lets none have no executions that remain. -/
def cronTriggers : System CronState CronStep where
  init s := ∃ triggers, s = { triggers } ∧ (triggers.map fun t => t.id).Nodup ∧
    (triggers.map fun t => (t.projectId, t.name)).Nodup ∧ ∀ t ∈ triggers, t.remainingExecutions ≠ some 0
  step := cronStep croniter

end

end Mistral
