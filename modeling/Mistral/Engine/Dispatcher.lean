import Mistral.Engine.Tasks

/-! Dispatching workflow commands, and the backlog of a paused workflow (`mistral/engine/dispatcher.py`). -/

namespace Mistral

/-! ### The order of commands -/

/-- `_compare_task_commands`. -/
def compareTaskCommands (a b : Cmd) : Int :=
  if !a.isWaiting then -1
  else if !b.isWaiting then 1
  else if a.uniqueKey? = b.uniqueKey? then 0
  else if a.uniqueKey?.getD "" < b.uniqueKey?.getD "" then -1
  else 1

/-- `list.sort` with the comparison of task commands. That comparison puts each of two plain commands before
    the other, and all that is known of sorting by it is that the result is a rearrangement. -/
structure ListSort where
  sort : List Cmd → List Cmd
  perm : ∀ cmds, (sort cmds).Perm cmds

instance : Inhabited ListSort := ⟨⟨id, fun cmds => .refl cmds⟩⟩

/-- The command sets the state of the workflow. -/
def Cmd.isSetWorkflowState : Cmd → Bool
  | .setWorkflowState _ _ _ => true
  | _ => false

/-- `_rearrange_commands`. -/
def rearrangeCommands (ls : ListSort) (cmds : List Cmd) : List Cmd :=
  let cmds := cmds.filter (!·.isNoop)
  let before := cmds.takeWhile (!·.isSetWorkflowState)
  match cmds.dropWhile (!·.isSetWorkflowState) with
  | [] => ls.sort cmds
  | stateCmd :: tail => ls.sort before ++ stateCmd :: if stateCmd.isPause then tail else []

/-! ### The backlog -/

/-- `_save_command_to_backlog`. -/
def saveCommandToBacklog (cmd : Cmd) : M Unit :=
  modify fun s => s.setWf { s.wf with backlog := s.wf.backlog ++ [cmd.toDict] }

/-- `restore_command_from_dict` for a whole backlog. -/
def restoreBacklog (spec : WorkflowSpec) (ds : List CmdDict) : Except Exc (List Cmd) :=
  ds.mapM fun d => (restoreCommandFromDict spec d).mapError Exc.other

/-- `_poll_commands_from_backlog`. -/
def pollCommandsFromBacklog (spec : WorkflowSpec) : M (List Cmd) := do
  let wf := (← get).wf
  modify (·.setWf { wf with backlog := [] })
  ofExcept (restoreBacklog spec wf.backlog)

/-! ### Processing -/

/-- `create_task` for a command that runs a new task. -/
def createTask (b : CmdBase) (wait : Bool) (key : Option String) : M TaskId :=
  if wait then defer b key else createTaskExecution b .idle none key

/-- `create_task` for a command that runs an existing task, with the flag `waiting` of the request. -/
def createExistingTask (t : TaskId) (rerun : Bool) : M Bool := do
  let waiting := (← taskEx t).state.isWaiting
  if waiting && rerun then
    setState t .waiting "Task is waiting."
    scheduleRefreshTaskState t
  return waiting

/-- The request `start_task` is sent. -/
def addMessage (m : StartTask) : M Unit := modify (·.addMessage m)

section
variable (spec : WorkflowSpec) (o : Oracle) (ls : ListSort) (skip : TaskId → M Unit)

/-- One command of a running workflow. What a `SkipTask` does is a parameter: it completes its task, and the
    completion of a task dispatches commands again. -/
def processCommand : Cmd → M Unit
  | .runTask b wait key => do
    let t ← createTask b wait key
    addMessage ⟨t, true, wait, b.triggeredBy, false, false⟩
  | .runExistingTask b t reset _ rerun => do
    let waiting ← createExistingTask t rerun
    addMessage ⟨t, false, waiting, b.triggeredBy, rerun, reset⟩
  | .skipTask _ t _ => skip t
  | .setWorkflowState kind _ msg => setWorkflowState o kind msg
  | .noop _ => throw (.other "Unsupported workflow command")

/-- The loop of `_process_commands`. -/
def processEach : List Cmd → M Unit
  | [] => return
  | cmd :: cmds => do
    let st := (← get).wf.state
    if st.isCompleted then return
    if st = .paused then saveCommandToBacklog cmd else processCommand o skip cmd
    processEach cmds

/-- `_process_commands`. -/
def processCommands (cmds : List Cmd) : M Unit := processEach o skip (rearrangeCommands ls cmds)

/-- `dispatch_workflow_commands`. -/
def dispatchWorkflowCommands (cmds : List Cmd) : M Unit := do
  emit (.dispatched cmds)
  processCommands o ls skip (← pollCommandsFromBacklog spec)
  processCommands o ls skip cmds

end
end Mistral
