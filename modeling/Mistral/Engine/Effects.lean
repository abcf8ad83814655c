import Mistral.Engine.Moves
import Mistral.Engine.Rearranging
import Mistral.Lib.Excepts

/-! Every function of the engine moves task executions along paths: one lemma for each function. -/

namespace Mistral

/-- However `m` ends, task executions have moved along paths of the scope. -/
abbrev Kept {α : Type} (sc : Scope) (m : M α) : Prop := Ends.Keeps (Evolves sc) m

variable {sc : Scope} {α β : Type}

namespace Kept

protected theorem pure (a : α) : Kept sc (pure a) := Ends.Keeps.pure Evolves.refl a

protected theorem throw (e : Exc) : Kept sc (throw e : M α) := Ends.Keeps.throw Evolves.refl e

protected theorem bind {m : M α} {f : α → M β} (hm : Kept sc m) (hf : ∀ a, Kept sc (f a)) : Kept sc (m >>= f) :=
  Ends.Keeps.bind Evolves.trans hm hf

protected theorem get : Kept sc (get : M Engine) := fun s => Evolves.refl s

protected theorem forM {ι : Type} {l : List ι} {g : ι → M PUnit} (hg : ∀ i ∈ l, Kept sc (g i)) : Kept sc (l.forM g) :=
  Ends.Keeps.forM Evolves.refl Evolves.trans hg

protected theorem tryCatch {m : M α} {h : Exc → M α} (hm : Kept sc m) (hh : ∀ e, Kept sc (h e)) :
    Kept sc (tryCatch m h) := Ends.Keeps.tryCatch (fun h h' => h.trans h') hm hh

protected theorem modify {f : Engine → Engine} (h : ∀ s, Evolves sc s (f s)) : Kept sc (modify f : M PUnit) := h

/-- A computation that starts from a state of which something is known. -/
theorem of_bind {m : M α} {f : α → M β} {s : Engine} {Q : α → Engine → Prop}
    (hm : Ends m s (fun a t => Evolves sc s t ∧ Q a t) fun _ t => Evolves sc s t)
    (hf : ∀ a t, Q a t → Ends (f a) t (fun _ => Evolves sc t) fun _ => Evolves sc t) :
    Ends (m >>= f) s (fun _ => Evolves sc s) fun _ => Evolves sc s :=
  Ends.bind hm (fun a t ⟨hst, hq⟩ => (hf a t hq).mono (fun _ _ => hst.trans) fun _ _ => hst.trans) fun _ _ h => h

end Kept

/-! ### Views of updated states -/

namespace Engine
variable {s : Engine} {t u : TaskId} {f : TaskEx → TaskEx}

@[simp] theorem view_emit (ev : Event) : (s.emit ev).view u = s.view u := rfl

@[simp] theorem view_addJob (j : Job) : (s.addJob j).view u = s.view u := rfl

@[simp] theorem view_setWf (wf : WorkflowEx) : (s.setWf wf).view u = s.view u := rfl

theorem view_setRow_ne (h : u ≠ t) : (s.setRow t f).view u = s.view u := by
  simp [view, setRow, Ne.symm h]

theorem view_setRow_self {e : TaskEx} (h : s.tasks[t]? = some e) : (s.setRow t f).view t = some (f e).view := by
  simp [view, setRow, h]

theorem view_setRow_quiet (hf : ∀ e, (f e).view = e.view) : (s.setRow t f).view u = s.view u := by
  simp only [view, setRow, List.getElem?_modify]
  cases s.tasks[u]? with
  | none => rfl
  | some e => by_cases h : t = u <;> simp [h, hf]

theorem view_of_row {e : TaskEx} (h : s.tasks[t]? = some e) : s.view t = some e.view := by simp [view, h]

theorem row_of_view {v : View} (h : s.view t = some v) : ∃ e, s.tasks[t]? = some e ∧ e.view = v := by
  simpa [view] using h

theorem view_addRow_ne {e : TaskEx} (h : u ≠ s.tasks.length) : (s.addRow e).view u = s.view u := by
  simp only [view, addRow]
  rcases Nat.lt_or_gt_of_ne h with hlt | hgt
  · rw [List.getElem?_append_left hlt]
  · rw [List.getElem?_eq_none (by simp; omega), List.getElem?_eq_none (by omega)]

@[simp] theorem view_addRow_self {e : TaskEx} : (s.addRow e).view s.tasks.length = some e.view := by
  simp [view, addRow]

@[simp] theorem view_length : s.view s.tasks.length = none := by simp [view]

end Engine

/-! ### Reading -/

section
variable {s : Engine} {t : TaskId} {Q : TaskEx → Engine → Prop} {E : Exc → Engine → Prop}

theorem taskEx_iff : Ends (taskEx t) s Q E ↔
    (∀ e, s.tasks[t]? = some e → Q e s) ∧ (s.tasks[t]? = none → E (.other "Task execution not found") s) := by
  unfold taskEx
  simp only [Ends.bind_iff, Ends.get_iff]
  cases h : s.tasks[t]? <;> simp

theorem ofExcept_iff {x : Except Exc α} {Q : α → Engine → Prop} :
    Ends (ofExcept x) s Q E ↔ (∀ a, x = .ok a → Q a s) ∧ ∀ e, x = .error e → E e s := by
  cases x <;> simp [ofExcept]

end

theorem storeOutput_iff {o : Oracle} {s : Engine} {st : State} {Q : Unit → Engine → Prop} {E : Exc → Engine → Prop} :
    Ends (storeOutput o st) s Q E ↔
      if o.raises .storeOutput then E (o.raised .storeOutput) s
      else (s.wf.isSub → Q () (s.emit (.resultSent st))) ∧ (s.wf.isSub = false → Q () s) := by
  simp only [storeOutput, evaluateAt, sendResult, emit, Ends.bind_iff, Ends.ite_iff, Ends.get_iff, Ends.modify_iff,
    Ends.throw_iff, Ends.pure_iff]
  split <;> simp [*]

theorem kept_taskEx (t : TaskId) : Kept sc (taskEx t) := fun s =>
  taskEx_iff.mpr ⟨fun _ _ => .refl s, fun _ => .refl s⟩

theorem kept_evaluateAt (o : Oracle) (site : Site) : Kept sc (evaluateAt o site) := by
  unfold evaluateAt
  split
  · exact .throw _
  · exact .pure _

theorem kept_taskSpecOf (spec : WorkflowSpec) (t : TaskId) : Kept sc (taskSpecOf spec t) := by
  refine .bind (kept_taskEx t) fun e => ?_
  split
  · exact .pure _
  · exact .throw _

theorem kept_setRow {t : TaskId} {f : TaskEx → TaskEx} (hf : ∀ e, (f e).view = e.view) : Kept sc (setRow t f) :=
  .modify fun _ => .of_eq rfl (fun _ => Engine.view_setRow_quiet hf) rfl rfl rfl

theorem kept_scheduleRefreshTaskState (t : TaskId) : Kept sc (scheduleRefreshTaskState t) :=
  .modify fun _ => .of_job trivial

/-- An event that is about no task. -/
theorem kept_emit {ev : Event} (hev : ev.task = none) : Kept sc (emit ev) :=
  .modify fun _ => .of_wf hev rfl (fun _ => rfl) rfl rfl .inl (fun _ => .inl rfl) rfl

theorem kept_schedule {j : Job} (hj : sc.JobOk j) : Kept sc (schedule j) := .modify fun _ => .of_job hj

/-! ### The workflow -/

theorem kept_setWfState {st : State} {info : Option String} (h : st = .running → sc.whole)
    (hskipped : st ≠ .skipped := by decide) : Kept sc (setWfState st info) := by
  intro s
  simp only [setWfState, emit, Ends.bind_iff, Ends.get_iff, Ends.ite_iff, Ends.modify_iff, Ends.throw_iff]
  refine ⟨fun hvalid => .of_wf rfl rfl (fun _ => rfl) rfl rfl (fun hr => .inr (h hr)) (fun hd => ?_) rfl,
    fun _ => .refl s⟩
  exact (State.eq_or_running_of_completed hd hvalid hskipped).imp id h

theorem kept_sendResult (st : State) : Kept sc (sendResult st) := by
  refine .bind .get fun s => ?_
  split
  · exact .modify fun _ => .of_wf rfl rfl (fun _ => rfl) rfl rfl .inl (fun _ => .inl rfl) rfl
  · exact .pure _

section
variable (spec : WorkflowSpec) (o : Oracle)

theorem kept_storeOutput (st : State) : Kept sc (storeOutput o st) :=
  .bind (kept_evaluateAt o _) fun _ => kept_sendResult _

theorem kept_succeedWorkflow (msg : Option String) : Kept sc (succeedWorkflow o msg) :=
  .bind (kept_evaluateAt o _) fun _ => .bind (kept_setWfState nofun) fun _ => kept_storeOutput o _

theorem kept_failWorkflow (msg : Option String) : Kept sc (failWorkflow o msg) := by
  refine .bind .get fun s => ?_
  split
  · exact .pure _
  · exact .bind (kept_setWfState nofun) fun _ => kept_storeOutput o _

theorem kept_cancelWorkflow (msg : Option String) : Kept sc (cancelWorkflow msg) := by
  refine .bind .get fun s => ?_
  split
  · exact .pure _
  · exact .bind (kept_setWfState nofun) fun _ => kept_sendResult _

theorem kept_stopWorkflow (st : State) (msg : Option String) : Kept sc (stopWorkflow o st msg) := by
  unfold stopWorkflow
  split
  · exact kept_succeedWorkflow o msg
  · exact kept_failWorkflow o msg
  · exact kept_cancelWorkflow msg
  · exact .pure _

theorem kept_pauseWorkflow (msg : Option String) : Kept sc (pauseWorkflow msg) := by
  refine .bind .get fun s => ?_
  split
  · exact .pure _
  · exact kept_setWfState nofun

theorem kept_setWorkflowState (kind : StateCmd) (msg : Option String) : Kept sc (setWorkflowState o kind msg) := by
  unfold setWorkflowState
  split
  · exact kept_pauseWorkflow msg
  · exact kept_stopWorkflow o _ msg

theorem kept_checkAndCompleteWorkflow : Kept sc (checkAndCompleteWorkflow spec o) := by
  refine .bind .get fun s => ?_
  split
  · exact .pure _
  split
  · exact .pure _
  split
  · exact kept_cancelWorkflow _
  split
  · exact .bind (kept_evaluateAt o _) fun _ => kept_succeedWorkflow o _
  · exact .bind (kept_evaluateAt o _) fun _ => kept_failWorkflow o _

theorem kept_checkAndComplete : Kept sc (checkAndComplete spec o) := by
  refine .bind .get fun s => ?_
  split
  · exact .pure _
  refine .tryCatch (kept_checkAndCompleteWorkflow spec o) fun e => ?_
  split
  · exact kept_stopWorkflow o _ _
  · exact .throw _

end

/-! ### Task executions -/

section
variable {s : Engine} {t : TaskId} {b : State} {info : Option String} {p : Option Bool}

theorem setState_iff {Q : Unit → Engine → Prop} {E : Exc → Engine → Prop} : Ends (setState t b info p) s Q E ↔
    (∀ e, s.tasks[t]? = some e → e.differs b info →
      Q () ((s.setRow t (·.withState b info p)).emit (.taskState t e.state b))) ∧
    (∀ e, s.tasks[t]? = some e → ¬e.differs b info → Q () s) ∧
    (s.tasks[t]? = none → E (.other "Task execution not found") s) := by
  simp only [setState, setRow, emit, Ends.bind_iff, taskEx_iff, Ends.ite_iff, Ends.modify_iff, Ends.pure_iff]
  constructor
  · rintro ⟨h, h'⟩
    exact ⟨fun e he => (h e he).1, fun e he => (h e he).2, h'⟩
  · rintro ⟨h, h', h''⟩
    exact ⟨fun e he => ⟨h e he, h' e he⟩, h''⟩

/-- A change of the state is one move, and the task execution is in the new state afterwards. -/
theorem setState_moves (hmove : ∀ v, s.view t = some v →
      Move sc t (some v) [.taskState t v.state b] (some { v with state := b, processed := p.getD v.processed })) :
    Ends (setState t b info p) s
      (fun _ s' => Evolves sc s s' ∧ ∃ v, s'.view t = some v ∧ v.state = b) fun _ => Evolves sc s := by
  refine setState_iff.mpr ⟨fun e he _ => ⟨?_, ?_⟩, fun e he hd => ⟨.refl s, e.view, Engine.view_of_row he, ?_⟩,
    fun _ => .refl s⟩
  · refine .of_move (t := t) (w := [.taskState t e.state b]) ?_ (by simp [Event.task]) rfl
      (fun u hu => by simp [Engine.view_setRow_ne hu]) rfl rfl rfl
    rw [Engine.view_emit, Engine.view_setRow_self he, Engine.view_of_row he]
    exact hmove _ (Engine.view_of_row he)
  · exact ⟨_, by rw [Engine.view_emit, Engine.view_setRow_self he], rfl⟩
  · simp only [TaskEx.differs, Bool.or_eq_true, bne_iff_ne, ne_eq, not_or, not_not] at hd
    exact hd.1

end

/-- `set_state` to a completed state. -/
theorem kept_setState_completed {t : TaskId} {b : State} {info : Option String} (hown : sc.own = some t)
    (hb : b.isCompleted) : Kept sc (setState t b info) := fun s =>
  (setState_moves fun _ _ => .change hown (fun _ => hb) (by rintro rfl; simp at hb)).mono (fun _ _ h => h.1)
    fun _ _ h => h

/-- `set_state` to `RUNNING` that resets the flag `processed`. -/
theorem setState_reopens {s : Engine} {t : TaskId} (hown : sc.own = some t)
    (h : ∀ v, s.view t = some v → v.state.isCompleted → v.processed = false → sc.loses) :
    Ends (setState t .running none (some false)) s
      (fun _ s' => Evolves sc s s' ∧ ∃ v, s'.view t = some v ∧ v.state = .running) fun _ => Evolves sc s :=
  setState_moves fun v hv => .reopen hown (h v hv)

theorem kept_createTaskExecution {bs : CmdBase} {st : State} {info key : Option String}
    (h : st = .idle ∧ key = none ∨ st = .waiting) : Kept sc (createTaskExecution bs st info key) := by
  intro s
  simp only [createTaskExecution, emit, Ends.bind_iff, Ends.get_iff, Ends.modify_iff, Ends.pure_iff]
  refine .of_move (t := s.tasks.length) (w := [.taskCreated s.tasks.length]) ?_ (by simp [Event.task]) rfl
    (fun u hu => by rw [Engine.view_emit, Engine.view_addRow_ne hu]) rfl rfl rfl
  rw [Engine.view_emit, Engine.view_addRow_self, Engine.view_length]
  exact .create h rfl

theorem mem_rows {s : Engine} {t : TaskId} {e : TaskEx} : (t, e) ∈ s.rows ↔ s.tasks[t]? = some e := by
  simp [Engine.rows, List.mem_zipIdx_iff_getElem?]

theorem findRow_eq_some {s : Engine} {p : TaskEx → Bool} {t : TaskId} {e : TaskEx} (h : s.findRow p = some (t, e)) :
    s.tasks[t]? = some e ∧ p e :=
  ⟨mem_rows.mp (List.mem_of_find?_eq_some h), by simpa using List.find?_some h⟩

theorem kept_defer {bs : CmdBase} {key : Option String} (hkey : key ≠ none) : Kept sc (defer bs key) := by
  intro s
  unfold defer
  rw [Ends.bind_iff, Ends.get_iff]
  split
  · exact .refl s
  split
  · exact kept_createTaskExecution (.inr rfl) s
  next t e hfind =>
  obtain ⟨he, hk⟩ := findRow_eq_some hfind
  simp only [beq_iff_eq] at hk
  simp only [emit, Ends.bind_iff, Ends.ite_iff, Ends.modify_iff, Ends.pure_iff, setState_iff]
  refine ⟨fun hw => ⟨fun e' he' _ => ?_, fun e' he' hd => ?_, fun hn => ?_⟩, fun _ => .refl s⟩
  · obtain rfl : e = e' := Option.some.inj (he.symm.trans he')
    refine .of_move (t := t) (w := [.deferred t e.state, .taskState t e.state .waiting]) ?_ (by simp [Event.task])
      (by simp [Engine.emit, Engine.setRow]) (fun u hu => ?_) rfl rfl rfl
    · rw [Engine.view_emit, Engine.view_setRow_self he', Engine.view_of_row he]
      exact .defer hw (by simpa [TaskEx.view, hk] using hkey)
    · rw [Engine.view_emit, Engine.view_setRow_ne hu, Engine.view_emit]
  · obtain rfl : e = e' := Option.some.inj (he.symm.trans he')
    simp [TaskEx.differs, hw] at hd
  · rw [show (s.emit _).tasks = s.tasks from rfl, he] at hn
    cases hn

theorem kept_registerWorkflowCompletionCheck (t : TaskId) : Kept sc (registerWorkflowCompletionCheck t) := by
  refine .bind (kept_taskEx t) fun e => ?_
  split
  · exact .modify fun _ => .of_eq rfl (fun _ => rfl) rfl rfl rfl
  · exact .pure _

theorem kept_updateTask {t : TaskId} (hown : sc.own = some t) (b : State) : Kept sc (updateTask t b) := by
  intro s
  simp only [updateTask]
  rw [Ends.bind_iff, taskEx_iff]
  refine ⟨fun e he => ?_, fun _ => .refl s⟩
  split
  · exact .refl s
  next hopen =>
  split
  · exact .refl s
  simp only [Bool.or_eq_true, Bool.not_eq_eq_eq_not, Bool.not_true, not_or, Bool.not_eq_false] at hopen
  refine Kept.of_bind (Q := fun _ _ => True) ?_ fun _ s' _ => ?_
  · refine (setState_moves fun v hv => ?_).mono (fun _ _ h => ⟨h.1, trivial⟩) fun _ _ h => h
    rw [Engine.view_of_row he] at hv
    obtain rfl := Option.some.inj hv
    refine .change hown (fun h => absurd h hopen.1) ?_
    rintro rfl
    have := hopen.2
    revert this
    cases hs : e.state <;> simp [State.isValidTransition, State.validTransitions, TaskEx.view, hs]
  · refine Kept.bind (kept_taskEx t) (fun e => ?_) s'
    split
    · exact kept_registerWorkflowCompletionCheck t
    · exact .pure _

theorem kept_updateInboundContext (spec : WorkflowSpec) (o : Oracle) (task : Task) :
    Kept sc (updateInboundContext spec o task) := by
  refine .bind .get fun s => ?_
  split
  · exact .throw _
  · exact kept_setRow fun _ => rfl

theorem kept_updateTriggeredBy (task : Task) : Kept sc (updateTriggeredBy task) := by
  unfold updateTriggeredBy
  split
  · exact .pure _
  · exact .pure _
  · exact kept_setRow fun _ => rfl

/-! ### Commands -/

/-- The commands that a step of this scope may dispatch: a new join comes with a key and any other new task
    without, only its own task is skipped, and only the one that it reruns is rerun. -/
def Scope.CmdOk (sc : Scope) : Cmd → Prop
  | .runTask _ wait key => if wait then key ≠ none else key = none
  | .runExistingTask _ t _ _ rerun => rerun → sc.reruns = some t
  | .skipTask _ t _ => sc.own = some t
  | _ => True

theorem cmdOk_createCommand (name : String) (ts : TaskSpec) (ctx : Ctx) (msg : Option String)
    (trig : Option (List Trigger)) (he : Bool) : sc.CmdOk (createCommand name ts ctx msg trig he) := by
  unfold createCommand
  split <;> simp [Scope.CmdOk]

theorem cmdOk_configureIfJoin (wfId : String) {cmd : Cmd} (h : sc.CmdOk cmd) : sc.CmdOk (configureIfJoin wfId cmd) := by
  unfold configureIfJoin
  split
  · split
    · simp [Scope.CmdOk]
    · exact h
  · exact h
  · exact h

theorem cmdOk_nextCommand {spec : WorkflowSpec} {wfId : String} {t : TaskId} {own : TaskSpec} {ctx : Ctx}
    {next : NextTask} {cmd : Cmd} (h : nextCommand spec wfId t own ctx next = .ok cmd) : sc.CmdOk cmd := by
  unfold nextCommand at h
  split at h <;> cases h <;> exact cmdOk_configureIfJoin _ (cmdOk_createCommand ..)

theorem cmdOk_findNextCommandsForTask {spec : WorkflowSpec} {o : Oracle} {wfId : String} {t : TaskId} {e : TaskEx}
    {cmds : List Cmd} (h : findNextCommandsForTask spec o wfId t e = .ok cmds) : ∀ cmd ∈ cmds, sc.CmdOk cmd := by
  unfold findNextCommandsForTask at h
  simp only [bind, Except.bind] at h
  split at h
  · cases h
  split at h
  · cases h
  · intro cmd hcmd
    obtain ⟨next, _, hn⟩ := mapM_ok_mem h cmd hcmd
    exact cmdOk_nextCommand hn

theorem cmdOk_findStartCommands {spec : WorkflowSpec} {o : Oracle} : ∀ cmd ∈ findStartCommands spec o, sc.CmdOk cmd := by
  intro cmd hcmd
  obtain ⟨ts, _, rfl⟩ := List.mem_map.mp hcmd
  simp [Scope.CmdOk]

theorem cmdOk_findNextCommands {spec : WorkflowSpec} {o : Oracle} {s : Engine} {cmds : List Cmd}
    (h : findNextCommands spec o s = .ok cmds) : ∀ cmd ∈ cmds, sc.CmdOk cmd := by
  unfold findNextCommands at h
  simp only [bind, Except.bind, pure, Except.pure] at h
  split at h
  · cases h
    exact cmdOk_findStartCommands
  split at h
  · cases h
  next next hnext =>
  cases h
  intro cmd hcmd
  rcases List.mem_append.mp hcmd with hcmd | hcmd
  · obtain ⟨_, _, hx⟩ := List.mem_filterMap.mp hcmd
    obtain ⟨own, _, rfl⟩ := Option.map_eq_some_iff.mp hx
    exact nofun
  · obtain ⟨l, hl, hcmd⟩ := List.mem_flatten.mp hcmd
    obtain ⟨_, _, hx⟩ := mapM_ok_mem hnext l hl
    exact cmdOk_findNextCommandsForTask hx cmd hcmd

theorem cmdOk_continueWorkflow {spec : WorkflowSpec} {o : Oracle} {s : Engine} {t : TaskId} {e : TaskEx}
    {cmds : List Cmd} (h : continueWorkflow spec o s t e = .ok cmds) : ∀ cmd ∈ cmds, sc.CmdOk cmd := by
  unfold continueWorkflow at h
  split at h
  · cases h
    simp
  · exact cmdOk_findNextCommandsForTask h

theorem cmdOk_continueWholeWorkflow {spec : WorkflowSpec} {o : Oracle} {s : Engine} {cmds : List Cmd}
    (h : continueWholeWorkflow spec o s = .ok cmds) : ∀ cmd ∈ cmds, sc.CmdOk cmd := by
  unfold continueWholeWorkflow at h
  split at h
  · cases h
    simp
  · exact cmdOk_findNextCommands h

theorem cmdOk_restoreBacklog {spec : WorkflowSpec} {ds : List CmdDict} {cmds : List Cmd}
    (h : restoreBacklog spec ds = .ok cmds) : ∀ cmd ∈ cmds, sc.CmdOk cmd := by
  intro cmd hcmd
  obtain ⟨d, _, hd⟩ := mapM_ok_mem h cmd hcmd
  cases hres : restoreCommandFromDict spec d with
  | error e =>
    rw [hres] at hd
    cases hd
  | ok cmd' =>
    rw [hres] at hd
    cases hd
    obtain ⟨ts, msg, rfl⟩ := restoreCommandFromDict_ok hres
    exact cmdOk_createCommand ..

/-! ### The dispatcher -/

theorem kept_saveCommandToBacklog (cmd : Cmd) : Kept sc (saveCommandToBacklog cmd) :=
  .modify fun _ => ⟨⟨[], by simp [Engine.setWf], fun _ => .nil _⟩, ⟨[], by simp [Engine.setWf], by simp⟩,
    ⟨[], by simp [Engine.setWf], by simp⟩, .inl, fun _ => .inl rfl, rfl⟩

theorem kept_pollCommandsFromBacklog (spec : WorkflowSpec) : Kept sc (pollCommandsFromBacklog spec) := by
  intro s
  simp only [pollCommandsFromBacklog, Ends.bind_iff, Ends.get_iff, Ends.modify_iff, ofExcept_iff]
  have h : Evolves sc s (s.setWf { s.wf with backlog := [] }) :=
    ⟨⟨[], by simp [Engine.setWf], fun _ => .nil _⟩, ⟨[], by simp [Engine.setWf], by simp⟩,
    ⟨[], by simp [Engine.setWf], by simp⟩, .inl, fun _ => .inl rfl, rfl⟩
  exact ⟨fun _ _ => h, fun _ _ => h⟩

theorem kept_createTask {bs : CmdBase} {wait : Bool} {key : Option String} (h : if wait then key ≠ none else key = none) :
    Kept sc (createTask bs wait key) := by
  unfold createTask
  cases wait with
  | true => exact kept_defer (by simpa using h)
  | false => exact kept_createTaskExecution (.inl ⟨rfl, by simpa using h⟩)

theorem kept_createExistingTask (t : TaskId) (rerun : Bool) : Kept sc (createExistingTask t rerun) := by
  intro s
  unfold createExistingTask
  rw [Ends.bind_iff, taskEx_iff]
  refine ⟨fun e he => ?_, fun _ => .refl s⟩
  simp only
  split
  next hw =>
    simp only [Bool.and_eq_true] at hw
    refine Kept.of_bind (Q := fun _ _ => True) ?_ fun _ s' _ =>
      Kept.bind (kept_scheduleRefreshTaskState t) (fun _ => .pure _) s'
    refine (setState_moves fun v hv => ?_).mono (fun _ _ h => ⟨h.1, trivial⟩) fun _ _ h => h
    obtain rfl := Option.some.inj ((Engine.view_of_row he).symm.trans hv)
    have hwait : e.view.state = .waiting := by simpa [TaskEx.view, State.isWaiting] using hw.1
    have hsame : { e.view with state := State.waiting } = e.view := by rw [← hwait]
    have hmove : Move sc t (some e.view) [.taskState t .waiting .waiting] (some e.view) := .rewait hwait
    simpa [hwait, hsame] using hmove
  · exact .refl s

theorem kept_addMessage {m : StartTask} (hm : sc.MessageOk m) : Kept sc (addMessage m) :=
  .modify fun _ => ⟨⟨[], (List.append_nil _).symm, fun _ => .nil _⟩, ⟨[], (List.append_nil _).symm, by simp⟩,
    ⟨[m], rfl, by simpa using hm⟩, .inl, fun _ => .inl rfl, rfl⟩

section
variable (spec : WorkflowSpec) (o : Oracle) (ls : ListSort) {skip : TaskId → M Unit}

theorem kept_processCommand (hskip : ∀ t, sc.own = some t → Kept sc (skip t)) {cmd : Cmd} (h : sc.CmdOk cmd) :
    Kept sc (processCommand o skip cmd) := by
  cases cmd with
  | noop => exact .throw _
  | runTask bs wait key => exact .bind (kept_createTask h) fun _ => kept_addMessage nofun
  | runExistingTask bs t reset key rerun => exact .bind (kept_createExistingTask t rerun) fun _ => kept_addMessage h
  | skipTask bs t key => exact hskip t h
  | setWorkflowState kind bs msg => exact kept_setWorkflowState o kind msg

theorem kept_processEach (hskip : ∀ t, sc.own = some t → Kept sc (skip t)) {cmds : List Cmd}
    (h : ∀ cmd ∈ cmds, sc.CmdOk cmd) : Kept sc (processEach o skip cmds) := by
  induction cmds with
  | nil => exact .pure _
  | cons cmd cmds ih =>
    have htail := ih fun c hc => h c (List.mem_cons_of_mem cmd hc)
    refine .bind .get fun s => ?_
    dsimp only
    split
    · exact .pure _
    split
    · exact .bind (kept_saveCommandToBacklog cmd) fun _ => htail
    · exact .bind (kept_processCommand o hskip (h cmd List.mem_cons_self)) fun _ => htail

theorem kept_processCommands (hskip : ∀ t, sc.own = some t → Kept sc (skip t)) {cmds : List Cmd}
    (h : ∀ cmd ∈ cmds, sc.CmdOk cmd) : Kept sc (processCommands o ls skip cmds) :=
  kept_processEach o hskip fun c hc => h c (mem_rearrangeCommands hc)

/-- The commands of the backlog are for new tasks only. -/
theorem kept_processBacklog (hskip : ∀ t, sc.own = some t → Kept sc (skip t)) :
    Kept sc (pollCommandsFromBacklog spec >>= processCommands o ls skip) := by
  intro s
  refine Kept.of_bind (Q := fun backlog _ => ∀ cmd ∈ backlog, sc.CmdOk cmd) ?_ fun backlog s' hb =>
    kept_processCommands o ls hskip hb s'
  have hcmds : Ends (pollCommandsFromBacklog spec) s (fun backlog _ => ∀ cmd ∈ backlog, sc.CmdOk cmd)
      fun _ _ => True := by
    simp only [pollCommandsFromBacklog, Ends.bind_iff, Ends.get_iff, Ends.modify_iff, ofExcept_iff]
    exact ⟨fun _ hx => cmdOk_restoreBacklog hx, fun _ _ => trivial⟩
  exact ((kept_pollCommandsFromBacklog spec s).and hcmds).mono (fun _ _ h => h) fun _ _ h => h.1

theorem kept_dispatchWorkflowCommands (hskip : ∀ t, sc.own = some t → Kept sc (skip t)) {cmds : List Cmd}
    (h : ∀ cmd ∈ cmds, sc.CmdOk cmd) : Kept sc (dispatchWorkflowCommands spec o ls skip cmds) := by
  unfold dispatchWorkflowCommands
  refine .bind (kept_emit rfl) fun _ => ?_
  rw [← bind_assoc]
  exact .bind (kept_processBacklog spec o ls hskip) fun _ => kept_processCommands o ls hskip h

end
end Mistral
