import Mistral.Engine.Effects
import Mistral.Engine.Rearranging

/-! The backlog of a paused workflow. A command is written to it by `to_dict` and read from it by
    `restore_command_from_dict`, which knows only the commands that on-clauses name. -/

namespace Mistral

variable {spec : WorkflowSpec} {ls : ListSort} {o : Oracle} {skip : TaskId → M Unit}

namespace Cmd

/-- The command without what dispatching does not compare: the flag `rerun`. -/
def dispatched : Cmd → Cmd
  | runExistingTask b t reset key _ => .runExistingTask b t reset key false
  | cmd => cmd

/-- The task specification of the command is the one that the workflow has under its name. -/
def Known (spec : WorkflowSpec) (cmd : Cmd) : Prop := spec.getTask cmd.base.taskSpec.name = some cmd.base.taskSpec

/-- Nothing of the command is lost in the backlog: it comes from a transition that does not handle an error, does
    not run a join, does not run or skip an existing task, and its task is not named like an engine command. -/
def restorable : Cmd → Bool
  | runTask b wait key => !wait && key.isNone && !b.handlesError && (getCommandClass b.taskSpec.name).isNone
  | noop b | setWorkflowState _ b _ => !b.handlesError
  | runExistingTask _ _ _ _ _ | skipTask _ _ _ => false

/-- What a command is when it comes back. One to run a task that is named like a state command does not. -/
def restored : Cmd → Except String Cmd
  | noop b => .ok (.noop { b with handlesError := false })
  | runTask b _ _ =>
    match getCommandClass b.taskSpec.name with
    | some (.state _) => .error "'NoneType' object has no attribute 'get'"
    | _ => .ok (createCommand b.taskSpec.name b.taskSpec b.ctx none b.triggeredBy)
  | runExistingTask b _ _ _ _ | skipTask b _ _ => .ok (.runTask { b with handlesError := false } false none)
  | setWorkflowState kind b msg => .ok (.setWorkflowState kind { b with handlesError := false } msg)

/-- No command comes back as one for an existing task. -/
theorem restored_new {cmd cmd' : Cmd} (h : cmd.restored = .ok cmd') : cmd'.dispatched.isExisting = false := by
  cases cmd with
  | runTask =>
    simp only [restored] at h
    split at h <;> cases h
    unfold createCommand
    split <;> rfl
  | _ =>
    cases h
    rfl

@[simp] theorem restorable_dispatched (cmd : Cmd) : cmd.dispatched.restorable = cmd.restorable := by
  cases cmd <;> rfl

end Cmd

/-- The command comes back from the backlog as it was. -/
def RoundTrips (spec : WorkflowSpec) (cmd : Cmd) : Prop :=
  (restoreCommandFromDict spec cmd.toDict).map Cmd.dispatched = .ok cmd.dispatched

/-- When a workflow is paused before `cmds`, the commands that it goes on with are those that it would have
    dispatched at once. -/
def PauseKeeps (spec : WorkflowSpec) (ls : ListSort) (o : Oracle) (skip : TaskId → M Unit) (s : Engine)
    (cmds : List Cmd) : Prop :=
  Ends (do processCommands o ls skip cmds; pollCommandsFromBacklog spec) s
    (fun polled _ => ((rearrangeCommands ls polled).map Cmd.dispatched).Perm
      ((rearrangeCommands ls cmds).map Cmd.dispatched)) fun _ _ => False

/-! ### One command -/

theorem restore_toDict {cmd : Cmd} (h : cmd.Known spec) : restoreCommandFromDict spec cmd.toDict = cmd.restored := by
  cases cmd with
  | setWorkflowState kind b msg =>
    simp only [Cmd.Known, Cmd.base] at h
    cases kind <;> simp [restoreCommandFromDict, Cmd.toDict, h] <;> rfl
  | runTask b wait key =>
    simp only [Cmd.Known, Cmd.base] at h
    simp only [restoreCommandFromDict, Cmd.toDict, h, Cmd.restored]
    cases getCommandClass b.taskSpec.name with
    | none => rfl
    | some cls => cases cls <;> rfl
  | _ =>
    simp only [Cmd.Known, Cmd.base] at h
    simp [restoreCommandFromDict, Cmd.toDict, h, Cmd.restored]
    rfl

theorem restorable_of_restored {b : CmdBase} {wait : Bool} {key : Option String} {cmd : Cmd}
    (h : (Cmd.runTask b wait key).restored = .ok cmd) : cmd.restorable = true := by
  simp only [Cmd.restored] at h
  split at h <;> cases h
  unfold createCommand
  split
  · rfl
  · rfl
  next hclass => simp [Cmd.restorable, hclass]

theorem restored_of_restorable {cmd : Cmd} (h : cmd.restorable) : cmd.restored = .ok cmd := by
  cases cmd with
  | noop b | setWorkflowState kind b msg =>
    obtain ⟨ts, ctx, tb, he⟩ := b
    cases he with
    | false => rfl
    | true => cases h
  | runExistingTask | skipTask => cases h
  | runTask b wait key =>
    simp only [Cmd.restorable, Bool.and_eq_true, Bool.not_eq_true', Option.isNone_iff_eq_none] at h
    obtain ⟨⟨⟨rfl, rfl⟩, hh⟩, hname⟩ := h
    obtain ⟨ts, ctx, tb, he⟩ := b
    simp only at hh hname
    simp [Cmd.restored, createCommand, hname, hh]

theorem restored_eq_iff {cmd : Cmd} : cmd.restored.map Cmd.dispatched = .ok cmd.dispatched ↔ cmd.restorable := by
  refine ⟨fun h => ?_, fun h => by rw [restored_of_restorable h]; rfl⟩
  cases hr : cmd.restored with
  | error e =>
    rw [hr] at h
    cases h
  | ok cmd' =>
    rw [hr] at h
    have heq : cmd'.dispatched = cmd.dispatched := Except.ok.inj h
    cases cmd with
    | runTask b wait key =>
      rw [← Cmd.restorable_dispatched, ← heq, Cmd.restorable_dispatched]
      exact restorable_of_restored hr
    | noop b | setWorkflowState kind b msg =>
      cases hr
      rw [← Cmd.restorable_dispatched, ← heq]
      rfl
    | runExistingTask | skipTask =>
      cases hr
      cases heq

theorem roundTrips_iff {cmd : Cmd} (h : cmd.Known spec) : RoundTrips spec cmd ↔ cmd.restorable := by
  rw [RoundTrips, restore_toDict h, restored_eq_iff]

/-! ### A list of commands -/

/-- A paused workflow saves all commands. -/
theorem processEach_paused (o : Oracle) (skip : TaskId → M Unit) (cmds : List Cmd) {s : Engine} (hs : s.wf.state = .paused) :
    Ends (processEach o skip cmds) s
      (fun _ s' => s'.wf.backlog = s.wf.backlog ++ cmds.map Cmd.toDict) fun _ _ => False := by
  induction cmds generalizing s with
  | nil => simp [processEach]
  | cons cmd cmds ih =>
    simp only [processEach, Ends.bind_iff, Ends.get_iff, hs, State.isCompleted, saveCommandToBacklog]
    simp only [List.mem_cons, reduceCtorEq, List.not_mem_nil, or_self, decide_false, Bool.false_eq_true, if_false, if_true,
      Ends.bind_iff, Ends.modify_iff]
    generalize hs' : s.setWf { s.wf with backlog := s.wf.backlog ++ [cmd.toDict] } = s₁
    have hpaused : s₁.wf.state = .paused := by rw [← hs', Engine.setWf, hs]
    have hbacklog : s₁.wf.backlog = s.wf.backlog ++ [cmd.toDict] := by rw [← hs', Engine.setWf]
    refine (ih hpaused).mono (fun _ s' h => ?_) fun _ _ h => h
    rw [h, hbacklog, List.map_cons, List.append_assoc, List.singleton_append]

theorem restoreBacklog_toDict {cmds : List Cmd} (h : ∀ cmd ∈ cmds, cmd.Known spec) :
    restoreBacklog spec (cmds.map Cmd.toDict) = cmds.mapM fun cmd => cmd.restored.mapError Exc.other := by
  unfold restoreBacklog
  rw [List.mapM_map]
  exact mapM_congr fun cmd hcmd => by rw [Function.comp_apply, restore_toDict (h cmd hcmd)]

theorem pauseKeeps_iff_perm {cmds : List Cmd} {s : Engine} (hs : s.wf.state = .paused) (hb : s.wf.backlog = [])
    (h : ∀ cmd ∈ cmds, cmd.Known spec) : PauseKeeps spec ls o skip s cmds ↔
      ∃ polled, ((rearrangeCommands ls cmds).mapM fun cmd => cmd.restored.mapError Exc.other) = .ok polled ∧
        ((rearrangeCommands ls polled).map Cmd.dispatched).Perm ((rearrangeCommands ls cmds).map Cmd.dispatched) := by
  have hknown : ∀ cmd ∈ rearrangeCommands ls cmds, cmd.Known spec := fun cmd hcmd => h cmd (mem_rearrangeCommands hcmd)
  have hsaved := processEach_paused o skip (rearrangeCommands ls cmds) hs
  rw [hb, List.nil_append] at hsaved
  unfold PauseKeeps processCommands
  generalize hrun : processEach o skip (rearrangeCommands ls cmds) = m at hsaved
  simp only [Ends.bind_iff, pollCommandsFromBacklog, Ends.get_iff, Ends.modify_iff]
  rw [Ends] at hsaved ⊢
  cases hm : m s with
  | error e s' => simp [hm] at hsaved
  | ok a s' =>
    simp only [hm] at hsaved ⊢
    rw [hsaved, restoreBacklog_toDict hknown]
    cases hpolled : (rearrangeCommands ls cmds).mapM fun cmd => cmd.restored.mapError Exc.other with
    | error e => exact iff_of_false id (by rintro ⟨polled, h, -⟩; cases h)
    | ok polled => exact ⟨fun h => ⟨polled, rfl, h⟩, by rintro ⟨_, h, hperm⟩; cases h; exact hperm⟩

/-- The commands of a list are kept over a pause if and only if each of them is. -/
theorem pauseKeeps_iff (ls : ListSort) (o : Oracle) (skip : TaskId → M Unit) {cmds : List Cmd} {s : Engine} (hs : s.wf.state = .paused) (hb : s.wf.backlog = [])
    (h : ∀ cmd ∈ cmds, cmd.Known spec) :
    PauseKeeps spec ls o skip s cmds ↔ ∀ cmd ∈ rearrangeCommands ls cmds, cmd.restorable := by
  rw [pauseKeeps_iff_perm hs hb h]
  have hperm := rearrange_rearrange_perm ls cmds
  generalize rearrangeCommands ls cmds = l at hperm
  refine ⟨fun ⟨polled, hpolled, hkeep⟩ => ?_, fun hall => ⟨l, ?_, hperm.map _⟩⟩
  · have hrestored : List.Forall₂ (fun cmd cmd' => cmd.restored = .ok cmd') l polled :=
      (mapM_ok.mp hpolled).imp fun cmd cmd' hcmd => by
        cases hr : cmd.restored with
        | error e =>
          rw [hr] at hcmd
          cases hcmd
        | ok c =>
          rw [hr] at hcmd
          exact congrArg Except.ok (Except.ok.inj hcmd)
    have hfind : ∀ cmd ∈ l, ∃ c ∈ l, ∃ c', c.restored = .ok c' ∧ c'.dispatched = cmd.dispatched := fun cmd hcmd => by
      obtain ⟨c', hc', heq⟩ := List.mem_map.mp (hkeep.mem_iff.mpr (List.mem_map_of_mem hcmd))
      obtain ⟨c, hc, hr⟩ := forall₂_mem_right hrestored (mem_rearrangeCommands hc')
      exact ⟨c, hc, c', hr, heq⟩
    have hnew : ∀ cmd ∈ l, ∀ cmd', cmd.restored = .ok cmd' → cmd'.restorable := fun cmd hcmd cmd' hr => by
      obtain ⟨c, -, c', hc, heq⟩ := hfind cmd hcmd
      cases cmd with
      | noop | setWorkflowState =>
        cases hr
        rfl
      | runTask => exact restorable_of_restored hr
      | runExistingTask | skipTask =>
        have hnew := Cmd.restored_new hc
        rw [heq] at hnew
        cases hnew
    intro cmd hcmd
    obtain ⟨c, hc, c', hr, heq⟩ := hfind cmd hcmd
    rw [← Cmd.restorable_dispatched, ← heq, Cmd.restorable_dispatched]
    exact hnew c hc c' hr
  · rw [mapM_ok, List.forall₂_same]
    intro cmd hcmd
    rw [restored_of_restorable (hall cmd hcmd)]
    rfl

/-- A command comes back from the backlog as it was if and only if it is restorable, and a pause before a list of
    commands changes nothing about what is dispatched if and only if all of them are. -/
theorem backlog_round_trip (spec : WorkflowSpec) (ls : ListSort) :
    (∀ cmd : Cmd, cmd.Known spec → (RoundTrips spec cmd ↔ cmd.restorable)) ∧
    ∀ o skip s cmds, s.wf.state = .paused → s.wf.backlog = [] → (∀ cmd ∈ cmds, cmd.Known spec) →
      (PauseKeeps spec ls o skip s cmds ↔ ∀ cmd ∈ rearrangeCommands ls cmds, cmd.restorable) :=
  ⟨fun _ => roundTrips_iff, fun _ _ _ _ => pauseKeeps_iff _ _ _⟩

/-! ### A join in the backlog -/

/-- Two start tasks before a join. -/
def joinAllSpec : WorkflowSpec where
  tasks := [{ name := "a", onSuccess := [{ name := "j" }] }, { name := "b", onSuccess := [{ name := "j" }] },
    { name := "j", join := some .all }]

/-- A plain task comes back as it was. -/
theorem backlog_round_trip_plain :
    RoundTrips joinAllSpec (.runTask { taskSpec := { name := "b", onSuccess := [{ name := "j" }] } } false none) :=
  ((backlog_round_trip joinAllSpec default).1
    (.runTask { taskSpec := { name := "b", onSuccess := [{ name := "j" }] } } false none) rfl).mpr rfl

/-- The command that the completion of `a` leads to. -/
def runJoin : Cmd :=
  .runTask { taskSpec := { name := "j", join := some .all }, triggeredBy := some [⟨0, some (.clause .onSuccess)⟩] } true
    (some "join-task-w-j")

def pausedEngine : Engine := { wf := { id := "w", state := .paused } }

/-- The join comes back as a plain task, without its flag and its key. -/
theorem backlog_loses_join :
    ¬RoundTrips joinAllSpec runJoin ∧ ¬PauseKeeps joinAllSpec default {} (fun _ => pure ()) pausedEngine [runJoin] := by
  have hknown : runJoin.Known joinAllSpec := rfl
  refine ⟨?_, fun h => ?_⟩
  · rw [roundTrips_iff hknown]
    decide
  · have hall := (pauseKeeps_iff default {} (fun _ => pure ()) (s := pausedEngine) rfl rfl
      (by simpa using hknown)).mp h
    exact absurd (hall runJoin (by decide)) (by decide)

end Mistral
