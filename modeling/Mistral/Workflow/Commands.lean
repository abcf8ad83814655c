import Mistral.Db.Models

/-! Workflow commands, and how they are written to and read from the backlog of a paused workflow
    (`mistral/workflow/commands.py`). -/

namespace Mistral

/-- The fields of `WorkflowCommand`. -/
structure CmdBase where
  taskSpec : TaskSpec
  ctx : Ctx := []
  triggeredBy : Option (List Trigger) := none
  handlesError : Bool := false
  deriving DecidableEq, Repr

/-- The three subclasses of `SetWorkflowState`. -/
inductive StateCmd
  | fail
  | succeed
  | pause
  deriving DecidableEq, Repr

/-- The `new_state` of each of them. -/
def StateCmd.newState : StateCmd → State
  | .fail => .error
  | .succeed => .success
  | .pause => .paused

/-- A workflow command. -/
inductive Cmd
  | noop (base : CmdBase)
  | runTask (base : CmdBase) (wait : Bool) (uniqueKey : Option String)
  | runExistingTask (base : CmdBase) (taskEx : TaskId) (reset : Bool) (uniqueKey : Option String) (rerun : Bool)
  | skipTask (base : CmdBase) (taskEx : TaskId) (uniqueKey : Option String)
  | setWorkflowState (kind : StateCmd) (base : CmdBase) (msg : Option String)
  deriving DecidableEq, Repr

namespace Cmd

/-- The fields that all commands have. -/
def base : Cmd → CmdBase
  | noop b | runTask b _ _ | runExistingTask b _ _ _ _ | skipTask b _ _ | setWorkflowState _ b _ => b

/-- `is_engine_command`. -/
def isEngineCommand : Cmd → Bool
  | noop _ | setWorkflowState _ _ _ => true
  | _ => false

def isNoop : Cmd → Bool
  | noop _ => true
  | _ => false

def isPause : Cmd → Bool
  | setWorkflowState .pause _ _ => true
  | _ => false

def isSkipTask : Cmd → Bool
  | skipTask _ _ _ => true
  | _ => false

/-- A command for a task. -/
def isTask : Cmd → Bool
  | noop _ | setWorkflowState _ _ _ => false
  | _ => true

/-- A command for an existing task. -/
def isExisting : Cmd → Bool
  | runExistingTask _ _ _ _ _ | skipTask _ _ _ => true
  | _ => false

/-- A `RunTask` command with the `wait` flag set: it runs a join. -/
def isWaiting : Cmd → Bool
  | runTask _ wait _ => wait
  | _ => false

def uniqueKey? : Cmd → Option String
  | runTask _ _ k | runExistingTask _ _ _ k _ | skipTask _ _ k => k
  | _ => none

end Cmd

/-! ### Writing and reading commands -/

/-- The keys of `ENGINE_CMD_CLS` as they appear in on-clauses and in backlogs. -/
def StateCmd.name : StateCmd → String
  | .fail => "fail"
  | .succeed => "succeed"
  | .pause => "pause"

/-- The classes in `ENGINE_CMD_CLS`. -/
inductive EngineCmd
  | noop
  | state (kind : StateCmd)
  deriving DecidableEq, Repr

/-- `get_command_class`. -/
def getCommandClass (cmdName : String) : Option EngineCmd :=
  if cmdName = "noop" then some .noop
  else if cmdName = "fail" then some (.state .fail)
  else if cmdName = "succeed" then some (.state .succeed)
  else if cmdName = "pause" then some (.state .pause)
  else none

/-- `WorkflowCommand.to_dict` and its overridings in the subclasses. -/
def Cmd.toDict : Cmd → CmdDict
  | noop b => { cmdName := "noop", taskName := b.taskSpec.name, ctx := b.ctx, triggeredBy := b.triggeredBy }
  | runTask b wait key =>
    { cmdName := b.taskSpec.name, taskName := b.taskSpec.name, ctx := b.ctx, triggeredBy := b.triggeredBy,
      wait := some wait, uniqueKey := some key }
  | runExistingTask b taskEx reset key _ =>
    { cmdName := "run_existing_task", taskName := b.taskSpec.name, ctx := b.ctx, triggeredBy := b.triggeredBy,
      taskExId := some taskEx, reset := some reset, uniqueKey := some key }
  | skipTask b taskEx key =>
    { cmdName := "skip_task", taskName := b.taskSpec.name, ctx := b.ctx, triggeredBy := b.triggeredBy,
      taskExId := some taskEx, uniqueKey := some key }
  | setWorkflowState kind b msg =>
    { cmdName := kind.name, taskName := b.taskSpec.name, ctx := b.ctx, triggeredBy := b.triggeredBy,
      newState := some kind.newState, msg := some msg }

/-- `create_command`; `msg` is `params.get('msg')`. -/
def createCommand (cmdName : String) (taskSpec : TaskSpec) (ctx : Ctx) (msg : Option String)
    (triggeredBy : Option (List Trigger)) (handlesError : Bool := false) : Cmd :=
  let b : CmdBase := { taskSpec, ctx, triggeredBy, handlesError }
  match getCommandClass cmdName with
  | some (.state kind) => .setWorkflowState kind b msg
  | some .noop => .noop b
  | none => .runTask b false none

/-- `restore_command_from_dict`. A dictionary without the key `msg` gives no parameters (`None`), from which a state
    command cannot read its message. The task is one of the specification, because the dictionary was made from a
    command for it; for an unknown name the source goes on with `None` in place of the task, which has no name. -/
def restoreCommandFromDict (spec : WorkflowSpec) (d : CmdDict) : Except String Cmd :=
  match spec.getTask d.taskName with
  | none => .error "'NoneType' object has no attribute 'get_name'"
  | some taskSpec =>
    match getCommandClass d.cmdName, d.msg with
    | some (.state _), none => .error "'NoneType' object has no attribute 'get'"
    | _, msg => .ok (createCommand d.cmdName taskSpec d.ctx (msg.getD none) d.triggeredBy)

/-- What is restored is a command that `create_command` makes. -/
theorem restoreCommandFromDict_ok {spec : WorkflowSpec} {d : CmdDict} {cmd : Cmd}
    (h : restoreCommandFromDict spec d = .ok cmd) :
    ∃ taskSpec msg, cmd = createCommand d.cmdName taskSpec d.ctx msg d.triggeredBy := by
  unfold restoreCommandFromDict at h
  split at h
  · cases h
  split at h <;> cases h
  exact ⟨_, _, rfl⟩

end Mistral
