import Mistral.Engine.CompletionEffects
import Mistral.Engine.RegularRuns
import Mistral.Lib.Simulations

/-! The run of a regular task is what the engine does to its task execution: the functions of `RegularRun` and those of the
    engine lead from states that show the same task to states that do. -/

namespace Mistral

/-- The task execution that a job is about. -/
def Job.task : Job → TaskId
  | .refreshTaskState t | .continueTask t | .completeTask t _ _ | .failTaskIfIncomplete t _ | .onActionComplete t _
  | .onActionUpdate t _ => t

/-- The part of a task execution that the run of a task is about: not the data flow, and not the commands that follow. -/
def TaskEx.core (e : TaskEx) : TaskEx :=
  { name := e.name, state := e.state, stateInfo := e.stateInfo, executions := e.executions,
    runtimeContext := { e.runtimeContext with triggeredBy := none } }

theorem TaskEx.differs_core (e : TaskEx) {st : State} {info : Option String} : e.core.differs st info = e.differs st info := rfl

section
variable {e e' : TaskEx}

theorem TaskEx.core_state (h : e.core = e'.core) : e.state = e'.state := (congrArg TaskEx.state h :)

theorem TaskEx.core_stateInfo (h : e.core = e'.core) : e.stateInfo = e'.stateInfo := (congrArg TaskEx.stateInfo h :)

theorem TaskEx.core_context {α : Type} (h : e.core = e'.core) (f : RuntimeContext → α)
    (hf : ∀ c, f { c with triggeredBy := none } = f c) : f e.runtimeContext = f e'.runtimeContext := by
  rw [← hf, ← hf e'.runtimeContext]
  exact congrArg (fun c : TaskEx => f c.runtimeContext) h

end

/-- What the run of a task has of its specification. -/
def RegularSpec.of (spec : WorkflowSpec) (ts : TaskSpec) : RegularSpec where
  policies := spec.buildPolicies ts
  join := ts.isJoin
  keepResult := ts.keepResult
  subworkflow := ts.workflow

namespace RegularRun
variable {spec : WorkflowSpec} {ls : ListSort} {o : Oracle} {task : Task} {r r' : RegularRun} {s : Engine}

/-- The engine has the task execution of the run, and the jobs and the requests that are on their way to it. The workflow
    is not completed. -/
structure Shows (r : RegularRun) (s : Engine) : Prop where
  row : ∃ e, s.tasks[0]? = some e ∧ e.core = r.task.core
  jobs : s.jobs.filter (·.task == 0) = r.jobs
  subStarts : s.subStarts.countP (·.1 == 0) = r.subStarts.length
  wf : s.wf.state = .running ∨ s.wf.state = .paused

/-- The computation leads to a state that shows the run `p.1`. -/
abbrev Follows (m : M Unit) (s : Engine) (p : RegularRun × Bool) : Prop :=
  Ends.LeadsTo Shows (fun e => (e.caught? true).isSome) m s p

/-- The computation of the engine does what `f` does to the run. Of exceptions that no handler catches nothing is said: they
    undo the transaction. -/
abbrev Mirrors (m : M Unit) (f : RegularRun → RegularRun × Bool) : Prop :=
  Ends.Simulates Shows (fun e => (e.caught? true).isSome) m f

/-! ### Elementary updates -/

theorem Shows.of_eq (h : r.Shows s) (htask : r'.task = r.task) (hjobs : r'.jobs = r.jobs)
    (hsub : r'.subStarts = r.subStarts) : r'.Shows s where
  row := by rw [htask]; exact h.row
  jobs := by rw [hjobs]; exact h.jobs
  subStarts := by rw [hsub]; exact h.subStarts
  wf := h.wf

theorem Shows.emit (h : r.Shows s) (ev : Event) : r.Shows (s.emit ev) := ⟨h.row, h.jobs, h.subStarts, h.wf⟩

theorem Shows.setRow {f g : TaskEx → TaskEx} (h : r.Shows s) (hfg : ∀ e, e.core = r.task.core → (f e).core = (g r.task).core) :
    (r.mapTask g).Shows (s.setRow 0 f) where
  row := by
    obtain ⟨e, he, hcore⟩ := h.row
    exact ⟨f e, getElem?_setRow he, hfg e hcore⟩
  jobs := h.jobs
  subStarts := h.subStarts
  wf := h.wf

theorem Shows.addJob {j : Job} (h : r.Shows s) (hj : j.task = 0) : (r.addJob j).Shows (s.addJob j) where
  row := h.row
  jobs := by simp [Engine.addJob, RegularRun.addJob, hj, ← h.jobs]
  subStarts := h.subStarts
  wf := h.wf

/-- An update that does not look at the rest of the row. -/
theorem Shows.mapTask {f : TaskEx → TaskEx} (h : r.Shows s) (hf : ∀ e, (f e).core = f e.core) :
    (r.mapTask f).Shows (s.setRow 0 f) :=
  h.setRow fun e he => by rw [hf, he, hf]

/-- A computation that reads the row first. -/
theorem Shows.taskEx {m : TaskEx → M Unit} {p : RegularRun × Bool} (h : r.Shows s)
    (hm : ∀ e, e.core = r.task.core → Follows (m e) s p) : Follows (taskEx 0 >>= m) s p := by
  obtain ⟨e, he, hcore⟩ := h.row
  refine Ends.LeadsTo.of_bind (taskEx_iff.mpr ⟨fun e' he' => ?_, fun hnone => ?_⟩)
  · cases he.symm.trans he'
    exact hm e hcore
  · cases he.symm.trans hnone

theorem follows_of_eq {m : M Unit} {b : Bool} (h : Follows m s (r, b)) (htask : r'.task = r.task) (hjobs : r'.jobs = r.jobs)
    (hsub : r'.subStarts = r.subStarts) : Follows m s (r', b) :=
  Ends.mono h (fun _ _ h => ⟨h.1.of_eq htask hjobs hsub, h.2⟩) fun _ _ h hcaught =>
    ⟨(h hcaught).1.of_eq htask hjobs hsub, (h hcaught).2⟩

theorem mirrors_modify {f : Engine → Engine} {g : RegularRun → RegularRun} (h : ∀ r s, r.Shows s → (g r).Shows (f s)) :
    Mirrors (modify f) fun r => (g r, false) := Ends.Simulates.modify h

theorem mirrors_evaluateAt (site : Site) : Mirrors (evaluateAt o site) fun r => (r, o.raises site) := by
  intro r s h
  unfold evaluateAt
  split
  next hraises => exact fun _ => ⟨h, hraises⟩
  next hnot => exact ⟨h, eq_false_of_ne_true hnot⟩

theorem mirrors_setState (st : State) (info : Option String) (processed : Option Bool) :
    Mirrors (Mistral.setState 0 st info processed) fun r => (r.setState st info processed, false) := by
  intro r s h
  obtain ⟨e, he, hcore⟩ := h.row
  have hdiffers : e.differs st info = r.task.differs st info := by rw [← e.differs_core, hcore, r.task.differs_core]
  refine setState_iff.mpr ⟨fun e' he' hdiff => ⟨?_, rfl⟩, fun e' he' hsame => ⟨?_, rfl⟩, fun hnone => ?_⟩
  · cases he.symm.trans he'
    refine ((h.setRow (g := (·.withState st info processed)) fun e he => ?_).emit _).of_eq ?_ rfl rfl
    · exact congrArg (fun c : TaskEx => { c with state := st, stateInfo := info }) he
    · exact if_pos (hdiffers ▸ hdiff)
  · cases he.symm.trans he'
    exact h.of_eq (if_neg (hdiffers ▸ hsame)) rfl rfl
  · cases he.symm.trans hnone

theorem mirrors_pauseWorkflow (msg : Option String) : Mirrors (pauseWorkflow msg) fun r => (r, false) := by
  intro r s h
  simp only [Ends.LeadsTo, pauseWorkflow, setWfState, Mistral.emit, Ends.bind_iff, Ends.get_iff, Ends.ite_iff, Ends.modify_iff,
    Ends.pure_iff, Ends.throw_iff]
  refine ⟨fun _ => ⟨h, trivial⟩, fun hnot => ⟨fun _ => ⟨⟨h.row, h.jobs, h.subStarts, .inr rfl⟩, trivial⟩, fun hinvalid => ?_⟩⟩
  -- A workflow that runs can be paused.
  rcases h.wf with hrun | hpaused
  · rw [hrun] at hinvalid
    exact absurd rfl hinvalid
  · rw [hpaused] at hnot
    exact absurd rfl hnot

/-! ### Policies -/

theorem mirrors_pauseBefore (expr : BoolExpr) (hid : task.id = 0) :
    Mirrors (pauseBeforeTaskStart o task expr) fun r => (r.beforeTaskStart o (.pauseBefore expr), false) := by
  unfold pauseBeforeTaskStart
  rw [hid]
  simp only [RegularRun.beforeTaskStart]
  split
  · exact (Ends.Simulates.bind (mirrors_setState .idle _ none) (mirrors_pauseWorkflow none)).congr fun _ => rfl
  · exact Ends.Simulates.pure

theorem mirrors_schedule {j : Job} (hj : j.task = 0) : Mirrors (schedule j) fun r => (r.addJob j, false) :=
  mirrors_modify fun _ _ h => h.addJob hj

theorem mirrors_setRow {f : TaskEx → TaskEx} (hf : ∀ e, (f e).core = f e.core) :
    Mirrors (setRow 0 f) fun r => (r.mapTask f, false) := mirrors_modify fun _ _ h => h.mapTask hf

/-- A state is set and a call is scheduled. -/
theorem mirrors_delay {st : State} {info : Option String} {j : Job} (hj : j.task = 0) :
    Mirrors (do Mistral.setState 0 st info; schedule j) fun r => ((r.setState st info none).addJob j, false) :=
  (Ends.Simulates.bind (mirrors_setState st info none) (mirrors_schedule hj)).congr fun _ => rfl

theorem mirrors_waitBefore (delay : NatExpr) (hid : task.id = 0) :
    Mirrors (waitBeforeTaskStart o task delay) fun r => (r.beforeTaskStart o (.waitBefore delay), false) := by
  intro r s h
  simp only [waitBeforeTaskStart, RegularRun.beforeTaskStart, hid]
  split
  · exact ⟨h, rfl⟩
  refine h.taskEx fun e hcore => ?_
  rw [TaskEx.core_context hcore (·.waitBeforeSkip) fun _ => rfl, TaskEx.core_state hcore]
  split
  · exact mirrors_setState .running none none r s h
  split
  · refine (mirrors_setRow ?_).bind (mirrors_delay ?_) r s h
    · intro e
      rfl
    · rfl
  next hidle =>
    rw [if_pos (not_not.mp hidle)]
    exact ⟨h, rfl⟩

theorem mirrors_timeout (delay : NatExpr) (hid : task.id = 0) :
    Mirrors (timeoutBeforeTaskStart o task delay) fun r => (r.beforeTaskStart o (.timeout delay), false) := by
  intro r s h
  simp only [timeoutBeforeTaskStart, RegularRun.beforeTaskStart, hid]
  split
  · exact mirrors_schedule rfl r s h
  next hn =>
    rw [if_pos (not_not.mp hn)]
    exact ⟨h, rfl⟩

theorem mirrors_concurrency (n : NatExpr) (hid : task.id = 0) :
    Mirrors (concurrencyBeforeTaskStart o task n) fun r => (r.beforeTaskStart o (.concurrency n), false) := by
  intro r s h
  simp only [concurrencyBeforeTaskStart, RegularRun.beforeTaskStart, hid]
  split
  · refine mirrors_setRow ?_ r s h
    intro e
    rfl
  next hn =>
    rw [if_pos (not_not.mp hn)]
    exact ⟨h, rfl⟩

/-- A policy evaluates its fields, and then does something. -/
theorem mirrors_evaluated {k : PolicyKind} {m : M Unit} {f : RegularRun → RegularRun} (hid : task.id = 0)
    (hm : Mirrors m fun r => (f r, false)) :
    Mirrors (do evaluateAt o (.policy task.id k); m) fun r => if o.raises (.policy 0 k) then (r, true) else (f r, false) := by
  refine ((mirrors_evaluateAt _).bind hm).congr fun r => ?_
  rw [hid]
  cases o.raises (.policy 0 k) <;> simp [Ends.andThen]

theorem mirrors_beforeTaskStart (p : Policy) (hid : task.id = 0) : Mirrors (p.beforeTaskStart o task) fun r =>
    if p.kind != .failOn && o.raises (.policy 0 p.kind) then (r, true) else (r.beforeTaskStart o p, false) := by
  cases p with
  | pauseBefore expr => exact mirrors_evaluated hid (mirrors_pauseBefore expr hid)
  | waitBefore delay => exact mirrors_evaluated hid (mirrors_waitBefore delay hid)
  | waitAfter delay => exact mirrors_evaluated hid Ends.Simulates.pure
  | failOn expr => exact Ends.Simulates.pure
  | retry retry => exact mirrors_evaluated hid Ends.Simulates.pure
  | timeout delay => exact mirrors_evaluated hid (mirrors_timeout delay hid)
  | concurrency n => exact mirrors_evaluated hid (mirrors_concurrency n hid)

theorem andThenAll_runPolicies {raises : Policy → Bool} {f : RegularRun → Policy → RegularRun} (ps : List Policy) :
    Ends.andThenAll (fun p r => if raises p then (r, true) else (f r p, false)) ps r = runPolicies raises f ps r := by
  induction ps generalizing r with
  | nil => rfl
  | cons p ps ih =>
    rw [Ends.andThenAll, Ends.andThen, runPolicies]
    cases raises p <;> simp [ih]

/-- `_before_task_start`. -/
theorem mirrors_runBefore (hid : task.id = 0) :
    Mirrors (Mistral.beforeTaskStart spec o task) fun r => r.runBefore (.of spec task.spec) o :=
  (Ends.Simulates.forM (fun p => mirrors_beforeTaskStart p hid) _).congr fun _ => andThenAll_runPolicies _

theorem mirrors_waitAfter (delay : NatExpr) (hid : task.id = 0) :
    Mirrors (waitAfterTaskComplete o task delay) fun r =>
      (r.afterTaskComplete (.of spec task.spec) o (.waitAfter delay), false) := by
  intro r s h
  simp only [waitAfterTaskComplete, RegularRun.afterTaskComplete, hid]
  split
  · exact ⟨h, rfl⟩
  refine h.taskEx fun e hcore => ?_
  rw [TaskEx.core_context hcore (·.waitAfterSkip) fun _ => rfl, TaskEx.core_state hcore, TaskEx.core_stateInfo hcore]
  split
  · exact ⟨h, rfl⟩
  · refine follows_of_eq (Ends.Simulates.bind (mirrors_setRow ?_) (mirrors_delay ?_) r s h) rfl rfl rfl
    · intro e
      rfl
    · rfl

theorem mirrors_failOn (expr : BoolExpr) (hid : task.id = 0) :
    Mirrors (failOnAfterTaskComplete o task expr) fun r =>
      (r.afterTaskComplete (.of spec task.spec) o (.failOn expr), false) := by
  intro r s h
  simp only [failOnAfterTaskComplete, RegularRun.afterTaskComplete, hid]
  refine h.taskEx fun e hcore => ?_
  rw [TaskEx.core_state hcore]
  split
  next hnot =>
    rw [if_neg fun hboth => hnot hboth.1]
    exact ⟨h, rfl⟩
  next hsuccess =>
    split
    next hfails =>
      rw [if_pos ⟨not_not.mp hsuccess, hfails⟩]
      exact mirrors_setState .error _ none r s h
    next hnot =>
      rw [if_neg fun hboth => hnot hboth.2]
      exact ⟨h, rfl⟩

theorem mirrors_emit (ev : Event) : Mirrors (Mistral.emit ev) fun r => (r, false) :=
  mirrors_modify fun _ _ h => h.emit ev

/-- The next attempt is delayed. -/
theorem mirrors_startRetry (retry : RetrySpec) (hid : task.id = 0) :
    Mirrors (Mistral.startRetry o task retry) fun r => (r.startRetry (.of spec task.spec) o retry.delay, false) := by
  intro r s h
  simp only [Mistral.startRetry, RegularRun.startRetry, hid]
  refine Ends.LeadsTo.of_bind (Ends.get_iff.mpr ?_)
  show Follows _ s ((if task.spec.isJoin then _ else _), false)
  split
  · exact (mirrors_emit _).bind (mirrors_delay rfl) r s h
  · exact (mirrors_emit _).bind (mirrors_delay rfl) r s h

theorem mirrors_retry (retry : RetrySpec) (hid : task.id = 0) :
    Mirrors (Mistral.retryAfterTaskComplete o task retry) fun r =>
      (r.afterTaskComplete (.of spec task.spec) o (.retry retry), false) := by
  intro r s h
  simp only [Mistral.retryAfterTaskComplete, RegularRun.afterTaskComplete, RegularRun.retryAfterTaskComplete, hid]
  split
  · exact ⟨h, rfl⟩
  refine h.taskEx fun e hcore => ?_
  rw [TaskEx.core_context hcore (·.retryNo) fun _ => rfl, TaskEx.core_state hcore]
  split
  · exact ⟨h, rfl⟩
  split
  · exact ⟨h, rfl⟩
  · refine Ends.Simulates.bind (mirrors_setRow ?_) (mirrors_startRetry retry hid) r s h
    intro e
    rfl

theorem mirrors_afterTaskComplete (p : Policy) (hid : task.id = 0) : Mirrors (p.afterTaskComplete o task) fun r =>
    if o.raises (.policy 0 p.kind) then (r, true) else (r.afterTaskComplete (.of spec task.spec) o p, false) := by
  cases p with
  | waitAfter delay => exact mirrors_evaluated hid (mirrors_waitAfter delay hid)
  | failOn expr => exact mirrors_evaluated hid (mirrors_failOn expr hid)
  | retry retry => exact mirrors_evaluated hid (mirrors_retry retry hid)
  | pauseBefore | waitBefore | timeout | concurrency => exact mirrors_evaluated hid Ends.Simulates.pure

/-- `_after_task_complete`. -/
theorem mirrors_runAfter (hid : task.id = 0) :
    Mirrors (Mistral.afterTaskComplete spec o task) fun r => r.runAfter (.of spec task.spec) o :=
  (Ends.Simulates.forM (fun p => mirrors_afterTaskComplete p hid) _).congr fun _ => andThenAll_runPolicies _

/-! ### Completing -/

theorem mirrors_updateInboundContext (hid : task.id = 0) :
    Mirrors (updateInboundContext spec o task) fun r => (r, false) := by
  intro r s h
  unfold updateInboundContext
  refine Ends.LeadsTo.of_bind (Ends.get_iff.mpr ?_)
  split
  · exact fun hcaught => absurd hcaught nofun
  · rw [hid]
    exact ⟨h.setRow (g := id) fun _ he => he, rfl⟩

/-- What `complete` does to the task before its commands: the new state, publishing, and the policies. -/
def enterState (spec : RegularSpec) (o : Oracle) (r : RegularRun) (st : State) (info : Option String) : RegularRun × Bool :=
  let r := r.setState st info none
  if o.raises (.publish 0) then (r, true)
  else
    let r := if spec.keepResult then r else r.mapTask (·.destroyResult)
    if st.isSkipped then (r, false) else r.runAfter spec o

/-- `complete` raises as well where the commands that follow can not be evaluated. -/
theorem complete_eq {spec : RegularSpec} {st : State} {info : Option String} :
    r.complete spec o st info =
      if r.task.state.isCompleted && !st.isSkipped then (r, false)
      else Ends.andThen (·.enterState spec o st info)
        (fun r => (r, r.task.state != .runningDelayed && o.raises (.transitions 0))) r := by
  unfold RegularRun.complete enterState Ends.andThen
  split
  · rfl
  cases o.raises (.publish 0) with
  | true => rfl
  | false =>
    cases st.isSkipped with
    | true => rfl
    | false =>
      simp only [Bool.false_eq_true, if_false]
      generalize RegularRun.runAfter _ o _ = p
      obtain ⟨r', raised⟩ := p
      cases raised <;> rfl

theorem mirrors_enterState (st : State) (info : Option String) (hid : task.id = 0) :
    Mirrors (Mistral.enterState spec o task st info) (·.enterState (.of spec task.spec) o st info) := by
  have hafter : Mirrors (if !st.isSkipped then Mistral.afterTaskComplete spec o task else pure ⟨⟩) fun r =>
      if st.isSkipped then (r, false) else r.runAfter (.of spec task.spec) o := by
    cases st.isSkipped with
    | true => exact Ends.Simulates.pure
    | false => exact mirrors_runAfter hid
  have hdestroyed : Mirrors (do
        if !task.spec.keepResult then setRow 0 (·.destroyResult)
        if !st.isSkipped then Mistral.afterTaskComplete spec o task) fun r =>
      let r := if task.spec.keepResult then r else r.mapTask (·.destroyResult)
      if st.isSkipped then (r, false) else r.runAfter (.of spec task.spec) o := by
    cases task.spec.keepResult with
    | true => exact hafter
    | false =>
      refine Ends.Simulates.bind (mirrors_setRow ?_) hafter
      intro e
      rfl
  unfold Mistral.enterState
  rw [hid]
  refine ((mirrors_setState st info none).bind ((mirrors_updateInboundContext hid).bind
    ((mirrors_evaluateAt _).bind hdestroyed))).congr fun r => ?_
  unfold enterState
  cases o.raises (.publish 0) <;> rfl

/-! ### Starting -/

theorem mirrors_updateTriggeredBy (hid : task.id = 0) : Mirrors (updateTriggeredBy task) fun r => (r, false) := by
  unfold updateTriggeredBy
  rw [hid]
  split
  · exact Ends.Simulates.pure
  · exact Ends.Simulates.pure
  · refine mirrors_modify fun r s h => h.setRow (g := id) ?_
    intro e he
    exact he

/-- An attempt begins, where its action can be scheduled. -/
def beginAttempt (spec : RegularSpec) (o : Oracle) (r : RegularRun) : RegularRun :=
  let r := { r with begun := r.begun + 1, inProgress := true }
  if spec.subworkflow && o.viaRpc then { r with subStarts := r.subStarts ++ [r.begun] }
  else { r.mapTask (·.addExecution { index := 0 }) with startedBy := r.startedBy ++ [r.begun] }

variable (spec) in
theorem mirrors_scheduleAction (hid : task.id = 0) :
    Mirrors (scheduleAction o task 0) fun r => (r.beginAttempt (.of spec task.spec) o, false) := by
  have hbegins : Mirrors (if task.spec.workflow && o.viaRpc then modify (·.addSubStart 0 0)
      else setRow 0 (·.addExecution { index := 0 })) fun r => (r.beginAttempt (.of spec task.spec) o, false) := by
    intro r s h
    show Follows _ s ((if task.spec.workflow && o.viaRpc then _ else _), false)
    split
    · refine ⟨⟨h.row, h.jobs, ?_, h.wf⟩, rfl⟩
      simp [Engine.addSubStart, h.subStarts]
    · refine follows_of_eq (mirrors_setRow ?_ r s h) rfl rfl rfl
      intro e
      rfl
  unfold scheduleAction
  rw [hid]
  exact ((mirrors_emit _).bind hbegins).congr fun _ => rfl

variable (spec ls) in
/-- `_schedule_actions`. -/
theorem mirrors_scheduleActions (hid : task.id = 0) (hitems : task.spec.withItems = false)
    (hscheduled : o.raises (.schedule 0 0) = false) :
    Mirrors (Mistral.scheduleActions spec ls o task) (·.scheduleActions (.of spec task.spec) o) := by
  unfold Mistral.scheduleActions
  rw [hid, hitems, hscheduled]
  refine ((mirrors_evaluateAt _).bind (mirrors_scheduleAction spec hid)).congr fun r => ?_
  unfold RegularRun.scheduleActions Ends.andThen
  rw [hscheduled]
  cases o.raises (.input 0) with
  | true => rfl
  | false =>
    simp only [Bool.false_eq_true, if_false, beginAttempt]
    split <;> rfl

/-- The policies, and then `next` if the task is running still. -/
def startRunning (spec : RegularSpec) (o : Oracle) (next : RegularRun → RegularRun × Bool) : RegularRun → RegularRun × Bool :=
  Ends.andThen (·.runBefore spec o) fun r => if r.task.state != .running then (r, false) else next r

theorem startRunning_eq {spec : RegularSpec} {next : RegularRun → RegularRun × Bool} :
    startRunning spec o next r =
      let (r, raised) := r.runBefore spec o
      if raised || r.task.state != .running then (r, raised) else next r := by
  simp only [startRunning, Ends.andThen]
  generalize r.runBefore spec o = p
  obtain ⟨r', raised⟩ := p
  cases raised <;> rfl

theorem runNew_eq {spec : RegularSpec} : r.runNew spec o =
    if r.task.state = .idle then
      startRunning spec o (·.scheduleActions spec o) (r.setState .running r.task.stateInfo none)
    else (r, false) := by
  unfold RegularRun.runNew
  split
  · exact startRunning_eq.symm
  · rfl

theorem runExisting_eq {spec : RegularSpec} {rerun reset : Bool} : r.runExisting spec o rerun reset =
    let restart (r : RegularRun) := (r.mapTask (·.resetActions reset)).scheduleActions spec o
    if rerun then startRunning spec o restart (r.setState .running none (some false))
    else restart (r.setState .running none (some false)) := by
  unfold RegularRun.runExisting
  cases rerun with
  | true => simp only [if_true, Bool.true_and, startRunning_eq]
  | false => rfl

variable (spec o) in
theorem mirrors_startRunning {m : M Unit} {next : RegularRun → RegularRun × Bool} (hid : task.id = 0) (hm : Mirrors m next) :
    Mirrors (do
      Mistral.beforeTaskStart spec o task
      if (← taskEx 0).state ≠ .running then return
      m) (startRunning (.of spec task.spec) o next) := by
  refine (mirrors_runBefore hid).bind ?_
  intro r s h
  refine h.taskEx fun e hcore => ?_
  rw [TaskEx.core_state hcore]
  show Follows _ s (if r.task.state != .running then (r, false) else next r)
  split
  next hdelayed =>
    rw [if_pos (bne_iff_ne.mpr hdelayed)]
    exact ⟨h, rfl⟩
  next hrunning =>
    rw [if_neg (by simpa using hrunning)]
    exact hm r s h

section
variable (spec ls)
variable (hid : task.id = 0) (hitems : task.spec.withItems = false) (hscheduled : o.raises (.schedule 0 0) = false)
include hid hitems hscheduled

/-- `_run_new`. -/
theorem mirrors_runNew (hwaiting : task.waiting = false) :
    Mirrors (Mistral.runNew spec ls o task) (·.runNew (.of spec task.spec) o) := by
  have hstarts := mirrors_startRunning spec o hid (mirrors_scheduleActions spec ls hid hitems hscheduled)
  intro r s h
  unfold Mistral.runNew
  rw [hid, hwaiting]
  refine h.taskEx fun e hcore => ?_
  show Follows _ s (r.runNew _ o)
  rw [runNew_eq, TaskEx.core_state hcore, TaskEx.core_stateInfo hcore]
  split
  next hidle =>
    rw [if_pos (beq_iff_eq.mp hidle)]
    exact (mirrors_setState .running r.task.stateInfo none).bind hstarts r s h
  next hidle =>
    rw [if_neg (mt beq_iff_eq.mpr hidle)]
    exact ⟨h, rfl⟩

/-- The second half of `_run_existing`. -/
theorem mirrors_restartActions : Mirrors (restartActions spec ls o task) fun r =>
    (r.mapTask (·.resetActions task.resetFlag)).scheduleActions (.of spec task.spec) o := by
  have hreset : Mirrors (setRow task.id (·.resetActions task.resetFlag)) fun r =>
      (r.mapTask (·.resetActions task.resetFlag), false) := by
    rw [hid]
    refine mirrors_setRow ?_
    intro e
    rfl
  exact ((mirrors_updateInboundContext hid).bind ((mirrors_updateTriggeredBy hid).bind
    (hreset.bind (mirrors_scheduleActions spec ls hid hitems hscheduled)))).congr fun _ => rfl

/-- `_run_existing`. -/
theorem mirrors_runExisting (hwaiting : task.waiting = false) :
    Mirrors (Mistral.runExisting spec ls o task) (·.runExisting (.of spec task.spec) o task.rerun task.resetFlag) := by
  have hrestart := mirrors_restartActions spec ls hid hitems hscheduled
  intro r s h
  unfold Mistral.runExisting
  rw [hid, hwaiting]
  refine h.taskEx fun e hcore => ?_
  split
  · exact fun hcaught => absurd hcaught nofun
  show Follows _ s (r.runExisting _ o task.rerun task.resetFlag)
  rw [runExisting_eq]
  cases task.rerun with
  | false => exact (mirrors_setState .running none (some false)).bind hrestart r s h
  | true => exact (mirrors_setState .running none (some false)).bind (mirrors_startRunning spec o hid hrestart) r s h

/-- `run`, where the action can be scheduled. -/
theorem mirrors_run (hwaiting : task.waiting = false) (firstRun : Bool) :
    Mirrors (Mistral.run spec ls o task firstRun) fun r =>
      if firstRun then r.runNew (.of spec task.spec) o
      else r.runExisting (.of spec task.spec) o task.rerun task.resetFlag := by
  cases firstRun with
  | true => exact mirrors_runNew spec ls hid hitems hscheduled hwaiting
  | false => exact mirrors_runExisting spec ls hid hitems hscheduled hwaiting

end
end RegularRun
end Mistral
