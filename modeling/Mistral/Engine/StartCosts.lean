import Mistral.Engine.HandlerEffects

/-! Starts of a task and the actions that they schedule. A start is pending while the task is `IDLE` or `WAITING`,
    while a delayed continuation of it is scheduled, and while a request to rerun it is on its way; scheduling
    an action uses one up. Each function has its price in starts. -/

namespace Mistral

variable {sc : Scope} {spec : WorkflowSpec} {ls : ListSort} {o : Oracle} {t : TaskId} {α β : Type} {k j : Int}

/-! ### Counting -/

def Event.isAction (t : TaskId) : Event → Bool
  | .actionScheduled u _ => u == t
  | _ => false

/-- What entitles `t` to another start: a request to rerun it, a retry, or a command to run it again as a
    join. -/
def Event.isGrant (t : TaskId) : Event → Bool
  | .rerunRequested u | .retried u _ _ | .deferred u _ => u == t
  | _ => false

def actions (t : TaskId) (es : List Event) : Nat := es.countP (·.isAction t)

def grants (t : TaskId) (es : List Event) : Nat := es.countP (·.isGrant t)

@[simp] theorem actions_append (es es' : List Event) : actions t (es ++ es') = actions t es + actions t es' :=
  List.countP_append ..

@[simp] theorem grants_append (es es' : List Event) : grants t (es ++ es') = grants t es + grants t es' :=
  List.countP_append ..

theorem actions_about (es : List Event) : actions t (es.filter (·.about t)) = actions t es :=
  countP_about (fun ev h => by cases ev <;> simp_all [Event.isAction, Event.task]) es

theorem grants_about (es : List Event) : grants t (es.filter (·.about t)) = grants t es :=
  countP_about (fun ev h => by cases ev <;> simp_all [Event.isGrant, Event.task]) es

/-- A task in this state still has to be started. -/
def State.awaits (st : State) : Nat := if st = .idle ∨ st = .waiting then 1 else 0

def awaits : Option View → Nat
  | none => 1
  | some v => v.state.awaits

def Job.isContinue (t : TaskId) : Job → Bool
  | .continueTask u => u == t
  | _ => false

def StartTask.isRerun (t : TaskId) (m : StartTask) : Bool := m.taskEx == t && m.rerun

theorem State.awaits_le_one (st : State) : st.awaits ≤ 1 := by
  unfold State.awaits
  split <;> omega

theorem awaits_le_one (v : Option View) : Mistral.awaits v ≤ 1 := by
  cases v with
  | none => exact le_rfl
  | some v => exact v.state.awaits_le_one

/-- The starts of `t` that are to come. -/
def Engine.pending (t : TaskId) (s : Engine) : Nat :=
  awaits (s.view t) + s.jobs.countP (·.isContinue t) + s.messages.countP (·.isRerun t)

/-- The starts of `t` that were used up or are to come, less those that were granted after the first one. -/
def Engine.spent (t : TaskId) (s : Engine) : Int := actions t s.trace + s.pending t - grants t s.trace

/-- `m` spends at most `k` starts of `t`. -/
def Costs (t : TaskId) (k : Int) (m : M α) : Prop :=
  ∀ s, Ends m s (fun _ s' => s'.spent t ≤ s.spent t + k) fun _ s' => s'.spent t ≤ s.spent t + k

namespace Costs

theorem mono {m : M α} (h : Costs t k m) (hk : k ≤ j) : Costs t j m := fun s =>
  (h s).mono (fun _ _ h => by omega) fun _ _ h => by omega

protected theorem pure (hk : 0 ≤ k) (a : α) : Costs t k (pure a) := fun s => by
  simp only [Ends.pure_iff]
  omega

protected theorem throw (hk : 0 ≤ k) (e : Exc) : Costs t k (throw e : M α) := fun s => by
  simp only [Ends.throw_iff]
  omega

protected theorem bind {m : M α} {f : α → M β} (hm : Costs t k m) (hf : ∀ a, Costs t j (f a)) (hk : 0 ≤ j) :
    Costs t (k + j) (m >>= f) := fun s =>
  Ends.bind (hm s) (fun a s' h => (hf a s').mono (fun _ _ h' => by omega) fun _ _ h' => by omega) fun _ _ h => by omega

/-- A free computation first. -/
protected theorem bind_free {m : M α} {f : α → M β} (hm : Costs t 0 m) (hf : ∀ a, Costs t k (f a)) (hk : 0 ≤ k) :
    Costs t k (m >>= f) := by
  simpa using Costs.bind hm hf hk

protected theorem get (hk : 0 ≤ k) : Costs t k (get : M Engine) := fun s => by
  simp only [Ends.get_iff]
  omega

end Costs

/-! ### Computations that are not about `t` -/

theorem Move.awaits_le {v v' : Option View} {w : List Event} (h : Move sc t v w v') (hown : sc.own ≠ some t) :
    actions t w = 0 ∧ awaits v' ≤ awaits v + grants t w := by
  cases h with
  | @create v =>
    exact ⟨by simp [actions, Event.isAction], by simpa [awaits] using Nat.le_add_right_of_le v.state.awaits_le_one⟩
  | defer => exact ⟨by simp [actions, Event.isAction], by simp [awaits, grants, State.awaits, Event.isGrant]⟩
  | rewait | marked => exact ⟨by simp [actions, Event.isAction], by simp [awaits]⟩
  | continued => exact ⟨by simp [actions, Event.isAction], by simp [awaits]⟩
  | change h | attempt h | reopen h | revive h | scheduled h | requested h => exact absurd h hown

theorem Path.awaits_le {v v' : Option View} {w : List Event} (h : Path sc t v w v') (hown : sc.own ≠ some t) :
    actions t w = 0 ∧ awaits v' ≤ awaits v + grants t w := by
  induction h with
  | nil => exact ⟨rfl, Nat.le_add_right _ _⟩
  | cons head _ ih =>
    have := head.awaits_le hown
    simp only [actions_append, grants_append]
    omega

theorem Evolves.spent_le {s s' : Engine} (h : Evolves sc s s') (hown : sc.own ≠ some t) (hreruns : sc.reruns ≠ some t) :
    s'.spent t ≤ s.spent t := by
  obtain ⟨es, hes, hpath⟩ := h.events
  obtain ⟨js, hjs, hjok⟩ := h.jobs
  obtain ⟨ms, hms, hmok⟩ := h.messages
  have hview := (hpath t).awaits_le hown
  rw [actions_about, grants_about] at hview
  have hjobs : js.countP (·.isContinue t) = 0 := by
    refine List.countP_eq_zero.mpr fun j hj hc => ?_
    cases j <;> simp [Job.isContinue] at hc
    subst hc
    exact hown (hjok _ hj)
  have hmessages : ms.countP (·.isRerun t) = 0 := by
    refine List.countP_eq_zero.mpr fun m hm hc => ?_
    simp only [StartTask.isRerun, Bool.and_eq_true, beq_iff_eq] at hc
    exact hreruns (hc.1 ▸ hmok m hm hc.2)
  simp only [Engine.spent, Engine.pending, hes, hjs, hms, actions_append, grants_append, List.countP_append]
  omega

/-- A computation that is not about `t` is free. -/
theorem costs_of_kept {m : M α} (h : Kept sc m) (hown : sc.own ≠ some t) (hreruns : sc.reruns ≠ some t) :
    Costs t 0 m := fun s =>
  (h s).mono (fun _ _ h => by have := h.spent_le hown hreruns; omega) fun _ _ h => by
    have := h.spent_le hown hreruns
    omega

theorem costs_of_quiet {m : M α} (h : Kept {} m) : Costs t 0 m := costs_of_kept h nofun nofun

/-! ### Elementary updates -/

section
variable {s s' : Engine}

@[simp] theorem spent_emit (ev : Event) : (s.emit ev).spent t =
    s.spent t + (if ev.isAction t then 1 else 0) - if ev.isGrant t then 1 else 0 := by
  have ha : actions t [ev] = if ev.isAction t then 1 else 0 := by simp [actions, List.countP_singleton]
  have hg : grants t [ev] = if ev.isGrant t then 1 else 0 := by simp [grants, List.countP_singleton]
  have hp : (s.emit ev).pending t = s.pending t := rfl
  have ht : (s.emit ev).trace = s.trace ++ [ev] := rfl
  simp only [Engine.spent, hp, ht, actions_append, grants_append, ha, hg]
  split <;> split <;> simp <;> omega

@[simp] theorem spent_addJob (j : Job) : (s.addJob j).spent t = s.spent t + if j.isContinue t then 1 else 0 := by
  have hj : (s.addJob j).jobs.countP (·.isContinue t) = s.jobs.countP (·.isContinue t) + if j.isContinue t then 1 else 0 := by
    simp [Engine.addJob, List.countP_append, List.countP_singleton]
  have hm : (s.addJob j).messages = s.messages := rfl
  have ht : (s.addJob j).trace = s.trace := rfl
  simp only [Engine.spent, Engine.pending, Engine.view_addJob, hj, hm, ht]
  split
  · simp
    omega
  · simp

@[simp] theorem spent_addMessage (m : StartTask) : (s.addMessage m).spent t = s.spent t + if m.isRerun t then 1 else 0 := by
  have hm : (s.addMessage m).messages.countP (·.isRerun t) =
      s.messages.countP (·.isRerun t) + if m.isRerun t then 1 else 0 := by
    simp [Engine.addMessage, List.countP_append, List.countP_singleton]
  have hv : (s.addMessage m).view t = s.view t := rfl
  have hj : (s.addMessage m).jobs = s.jobs := rfl
  have ht : (s.addMessage m).trace = s.trace := rfl
  simp only [Engine.spent, Engine.pending, hv, hj, hm, ht]
  split
  · simp
    omega
  · simp

/-- Only the state of the task counts in a change of its row. -/
theorem spent_of_view (htrace : s'.trace = s.trace) (hjobs : s'.jobs = s.jobs) (hmessages : s'.messages = s.messages) :
    s'.spent t + awaits (s.view t) = s.spent t + awaits (s'.view t) := by
  simp only [Engine.spent, Engine.pending, htrace, hjobs, hmessages]
  omega

/-- `set_state` gives back the start of a task that was waiting for it. -/
theorem spent_setState {b : State} {info : Option String} {p : Option Bool} :
    Ends (setState t b info p) s
      (fun _ s' => s'.spent t + awaits (s.view t) = s.spent t + b.awaits ∧ ∃ v, s'.view t = some v ∧ v.state = b)
      fun _ s' => s' = s := by
  refine setState_iff.mpr ⟨fun e he _ => ?_, fun e he hd => ?_, fun _ => rfl⟩
  · have hview : ((s.setRow t (·.withState b info p)).emit (.taskState t e.state b)).view t =
        some (e.withState b info p).view := by rw [Engine.view_emit, Engine.view_setRow_self he]
    refine ⟨?_, _, hview, rfl⟩
    have hrow : (s.setRow t (·.withState b info p)).spent t + awaits (s.view t) =
        s.spent t + awaits ((s.setRow t (·.withState b info p)).view t) := spent_of_view rfl rfl rfl
    rw [Engine.view_setRow_self he] at hrow
    simp only [spent_emit, Event.isAction, Event.isGrant, Bool.false_eq_true, if_false]
    simpa [awaits, TaskEx.view, TaskEx.withState] using hrow
  · simp only [TaskEx.differs, Bool.or_eq_true, bne_iff_ne, ne_eq, not_or, not_not] at hd
    exact ⟨by rw [Engine.view_of_row he]; simp [awaits, TaskEx.view, hd.1], _, Engine.view_of_row he, hd.1⟩

end

theorem costs_setState (b : State) (info : Option String) (p : Option Bool) :
    Costs t b.awaits (setState t b info p) := fun s =>
  spent_setState.mono (fun _ _ h => by have := h.1; omega) fun _ _ h => by
    subst h
    omega

theorem costs_setState_free {b : State} {info : Option String} {p : Option Bool} (hb : b ≠ .idle ∧ b ≠ .waiting) :
    Costs t 0 (setState t b info p) := by
  have h := costs_setState (t := t) b info p
  simpa [State.awaits, hb.1, hb.2] using h

theorem costs_setRow {f : TaskEx → TaskEx} (hf : ∀ e, (f e).view = e.view) {u : TaskId} : Costs t 0 (setRow u f) :=
  costs_of_quiet (kept_setRow hf)

theorem costs_schedule (j : Job) : Costs t (if j.isContinue t then 1 else 0) (schedule j) := fun s => by
  simp only [schedule, Ends.modify_iff, spent_addJob]
  split <;> simp

theorem costs_schedule_free {j : Job} (hj : j.isContinue t = false) : Costs t 0 (schedule j) := by
  simpa [hj] using costs_schedule (t := t) j

theorem costs_emit (ev : Event) :
    Costs t ((if ev.isAction t then 1 else 0) - if ev.isGrant t then 1 else 0) (emit ev) := fun s => by
  simp only [emit, Ends.modify_iff, spent_emit]
  omega

/-! ### Policies -/

section
variable {task : Task}

/-- Each attempt of a retry is granted. -/
theorem costs_startRetry (ht : task.id = t) (r : RetrySpec) : Costs t 0 (startRetry o task r) := by
  subst ht
  have hgrant : ∀ st wf, Costs task.id (-1) (emit (.retried task.id st wf)) := fun st wf => by
    simpa [Event.isAction, Event.isGrant] using costs_emit (t := task.id) (.retried task.id st wf)
  have hwait : ∀ info, Costs task.id 1 (setState task.id .waiting info) := fun info => by
    simpa [State.awaits] using costs_setState (t := task.id) .waiting info none
  have hjob : Costs task.id 1 (schedule (.continueTask task.id)) := by
    simpa [Job.isContinue] using costs_schedule (t := task.id) (.continueTask task.id)
  refine .bind_free (.get le_rfl) (fun s => ?_) le_rfl
  dsimp only
  split
  · refine .bind (k := -1) (j := 1) (hgrant _ _) (fun _ => ?_) (by omega)
    exact .bind (k := 1) (j := 0) (hwait _) (fun _ => costs_schedule_free rfl) le_rfl
  · refine .bind (k := -1) (j := 1) (hgrant _ _) (fun _ => ?_) (by omega)
    exact .bind_free (costs_setState_free ⟨nofun, nofun⟩) (fun _ => hjob) (by omega)

theorem costs_afterTaskComplete (ht : task.id = t) : Costs t 0 (afterTaskComplete spec o task) := by
  subst ht
  have hforM : ∀ {ps : List Policy}, (∀ p ∈ ps, Costs task.id 0 (p.afterTaskComplete o task)) →
      Costs task.id 0 (ps.forM (·.afterTaskComplete o task)) := by
    intro ps h
    induction ps with
    | nil => exact .pure le_rfl _
    | cons p ps ih =>
      exact .bind_free (h p List.mem_cons_self) (fun _ => ih fun q hq => h q (List.mem_cons_of_mem p hq)) le_rfl
  have htask : Costs task.id 0 (taskEx task.id) := costs_of_quiet (kept_taskEx _)
  refine hforM fun p _ => .bind_free (costs_of_quiet (kept_evaluateAt o _)) (fun _ => ?_) le_rfl
  cases p with
  | waitAfter delay =>
    simp only [waitAfterTaskComplete]
    split
    · exact .pure le_rfl _
    refine .bind_free htask (fun e => ?_) le_rfl
    split
    · exact .pure le_rfl _
    refine .bind_free (costs_setRow fun _ => by rfl) (fun _ => ?_) le_rfl
    exact .bind_free (costs_setState_free ⟨nofun, nofun⟩) (fun _ => costs_schedule_free rfl) le_rfl
  | failOn expr =>
    refine .bind_free htask (fun e => ?_) le_rfl
    split
    · exact .pure le_rfl _
    split
    · exact costs_setState_free ⟨nofun, nofun⟩
    · exact .pure le_rfl _
  | retry r =>
    simp only [retryAfterTaskComplete]
    split
    · exact .pure le_rfl _
    refine .bind_free htask (fun e => ?_) le_rfl
    split
    · exact .pure le_rfl _
    split
    · exact .pure le_rfl _
    exact .bind_free (costs_setRow fun _ => by rfl) (fun _ => costs_startRetry rfl r) le_rfl
  | _ => exact .pure le_rfl _

/-! ### Completion -/

theorem costs_enterState (ht : task.id = t) {state : State} {info : Option String} (hs : state ≠ .idle ∧ state ≠ .waiting) :
    Costs t 0 (enterState spec o task state info) := by
  subst ht
  unfold enterState
  refine .bind_free (costs_setState_free hs) (fun _ => ?_) le_rfl
  refine .bind_free (costs_of_quiet (kept_updateInboundContext spec o task)) (fun _ => ?_) le_rfl
  refine .bind_free (costs_of_quiet (kept_evaluateAt o _)) (fun _ => ?_) le_rfl
  have hlast : Costs task.id 0 (if (!state.isSkipped) = true then afterTaskComplete spec o task else pure PUnit.unit) := by
    split
    · exact costs_afterTaskComplete rfl
    · exact .pure le_rfl _
  dsimp only
  split
  · exact .bind_free (costs_setRow fun _ => by rfl) (fun _ => hlast) le_rfl
  · exact hlast

theorem costs_setProcessed {dispatched : Bool} {u : TaskId} {e : TaskEx} : Costs t 0 (setProcessed dispatched u e) := by
  intro s
  simp only [setProcessed, emit, setRow, Ends.bind_iff, Ends.get_iff, Ends.modify_iff]
  generalize hev : (if dispatched then Event.continued u e.state e.processed s.wf.state else .marked u) = ev
  have hview : awaits (((s.emit ev).setRow u fun e => { e with processed := true }).view t) =
      awaits ((s.emit ev).view t) := by
    simp only [Engine.view, Engine.setRow, Engine.emit, List.getElem?_modify]
    cases s.tasks[t]? <;> simp [awaits]
    split <;> rfl
  have hrow : ((s.emit ev).setRow u fun e => { e with processed := true }).spent t + awaits ((s.emit ev).view t) =
      (s.emit ev).spent t + awaits (((s.emit ev).setRow u fun e => { e with processed := true }).view t) :=
    spent_of_view rfl rfl rfl
  have hfree : ev.isAction t = false ∧ ev.isGrant t = false := by
    subst hev
    cases dispatched <;> exact ⟨rfl, rfl⟩
  rw [hview, spent_emit] at hrow
  simp only [hfree, Bool.false_eq_true, if_false] at hrow
  omega

theorem costs_continueAfterCompletion : Costs t 0 (continueAfterCompletion spec ls o task.id) := by
  refine .bind_free (costs_of_quiet (kept_taskEx _)) (fun e => ?_) le_rfl
  split
  · exact .pure le_rfl _
  refine .bind_free (.get le_rfl) (fun s₀ s => ?_) le_rfl
  rw [Ends.bind_iff, ofExcept_iff]
  refine ⟨fun cmds hcmds => ?_, fun _ _ => by omega⟩
  refine Costs.bind_free (costs_of_quiet (kept_emit rfl)) (fun _ => ?_) le_rfl s
  refine .bind_free (costs_setRow fun _ => by rfl) (fun _ => .bind_free (.get le_rfl) (fun s₁ => ?_) le_rfl) le_rfl
  split
  · exact .pure le_rfl _
  refine .bind_free (costs_of_quiet (kept_taskEx _)) (fun e => .bind_free costs_setProcessed (fun _ => ?_) le_rfl) le_rfl
  refine .bind_free (costs_of_quiet (kept_registerWorkflowCompletionCheck _)) (fun _ => ?_) le_rfl
  exact costs_of_quiet (kept_dispatchWorkflowCommands spec o ls (by nofun) (cmdOk_continueWorkflow hcmds))

theorem costs_complete (ht : task.id = t) {state : State} {info : Option String} (hs : state ≠ .idle ∧ state ≠ .waiting) :
    Costs t 0 (complete spec ls o task state info) := by
  refine .bind_free (costs_of_quiet (kept_taskEx _)) (fun e => ?_) le_rfl
  split
  · exact .pure le_rfl _
  · exact .bind_free (costs_enterState ht hs) (fun _ => costs_continueAfterCompletion) le_rfl

/-! ### Starting a regular task -/

theorem costs_scheduleAction (ht : task.id = t) (i : Nat) : Costs t 1 (scheduleAction o task i) := by
  subst ht
  have hemit : Costs task.id 1 (emit (.actionScheduled task.id i)) := by
    simpa [Event.isAction, Event.isGrant] using costs_emit (t := task.id) (.actionScheduled task.id i)
  refine .bind (k := 1) (j := 0) hemit (fun _ => ?_) le_rfl
  split
  · exact costs_of_quiet (.modify fun _ => .of_eq rfl (fun _ => rfl) rfl rfl rfl)
  · exact costs_setRow fun _ => by rfl

theorem costs_scheduleFailed (ht : task.id = t) (i : Nat) : Costs t 0 (scheduleFailed spec ls o task i) := by
  unfold scheduleFailed
  split
  · exact .throw le_rfl _
  · exact costs_complete ht ⟨nofun, nofun⟩

theorem costs_scheduleActions (ht : task.id = t) (hreg : task.spec.withItems = false) :
    Costs t 1 (scheduleActions spec ls o task) := by
  unfold scheduleActions
  simp only [hreg, Bool.false_eq_true, if_false]
  refine .bind_free (costs_of_quiet (kept_evaluateAt o _)) (fun _ => ?_) (by omega)
  split
  · exact (costs_scheduleFailed ht 0).mono (by omega)
  · exact costs_scheduleAction ht 0

theorem costs_restartActions (ht : task.id = t) (hreg : task.spec.withItems = false) :
    Costs t 1 (restartActions spec ls o task) :=
  .bind_free (costs_of_quiet (kept_updateInboundContext spec o task)) (fun _ =>
    .bind_free (costs_of_quiet (kept_updateTriggeredBy task)) (fun _ =>
      .bind_free (costs_setRow fun _ => by rfl) (fun _ => costs_scheduleActions ht hreg) (by omega)) (by omega)) (by omega)

/-- The policies before a task decide about its start: it runs, or the start is still to come. -/
structure Engine.Decided (t : TaskId) (k : Int) (sts : List State) (s : Engine) : Prop where
  state : ∃ v, s.view t = some v ∧ v.state ∈ sts
  running : ∀ v, s.view t = some v → v.state = .running → s.spent t ≤ k
  spent : s.spent t ≤ k + 1

theorem Engine.Decided.of_le {sts sts' : List State} {s s' : Engine} (h : s.Decided t k sts) (hsts : sts ⊆ sts')
    (hview : s'.view t = s.view t) (hspent : s'.spent t ≤ s.spent t) : s'.Decided t k sts' where
  state := by
    obtain ⟨v, hv, hst⟩ := h.state
    exact ⟨v, hview ▸ hv, hsts hst⟩
  running v hv hr := by
    have := h.running v (hview ▸ hv) hr
    omega
  spent := by
    have := h.spent
    omega

/-- One policy after another. -/
theorem decided_forM {ps : List Policy} {sts : List State}
    (h : ∀ p ∈ ps, ∀ s, s.Decided t k sts → Ends (p.beforeTaskStart o task) s (fun _ s' => s'.Decided t k sts)
      fun _ s' => s'.spent t ≤ k + 1) {s : Engine} (hs : s.Decided t k sts) :
    Ends (ps.forM (·.beforeTaskStart o task)) s (fun _ s' => s'.Decided t k sts) fun _ s' => s'.spent t ≤ k + 1 := by
  induction ps generalizing s with
  | nil => exact hs
  | cons p ps ih =>
    change Ends (p.beforeTaskStart o task >>= fun _ => ps.forM (·.beforeTaskStart o task)) s _ _
    exact Ends.bind (h p List.mem_cons_self s hs) (fun _ s' h' => ih (fun q hq => h q (List.mem_cons_of_mem p hq)) h')
      fun _ _ h => h

/-- Evaluating the fields of a policy changes nothing. -/
theorem decided_evaluateAt {site : Site} {f : Unit → M Unit} {sts sts' : List State} {s : Engine} (hs : s.Decided t k sts)
    (hf : Ends (f ()) s (fun _ s' => s'.Decided t k sts') fun _ s' => s'.spent t ≤ k + 1) :
    Ends (evaluateAt o site >>= f) s (fun _ s' => s'.Decided t k sts') fun _ s' => s'.spent t ≤ k + 1 := by
  unfold evaluateAt
  rw [Ends.bind_iff]
  split
  · exact hs.spent
  · exact hf

theorem decided_pauseBefore (ht : task.id = t) (expr : BoolExpr) {s : Engine} (hs : s.Decided t k [.running]) :
    Ends (Policy.beforeTaskStart o task (.pauseBefore expr)) s (fun _ s' => s'.Decided t k [.running, .idle])
      fun _ s' => s'.spent t ≤ k + 1 := by
  subst ht
  refine decided_evaluateAt hs ?_
  simp only [pauseBeforeTaskStart]
  split
  · obtain ⟨v, hv, hst⟩ := hs.state
    have hrun : v.state = .running := by simpa using hst
    have hk := hs.running v hv hrun
    refine Ends.bind spent_setState (fun _ s₁ h => ?_) fun _ s₁ h => ?_
    · obtain ⟨hspent, v₁, hv₁, hidle⟩ := h
      have hone : s₁.spent task.id ≤ k + 1 := by
        simp only [hv, awaits, hrun, State.awaits] at hspent
        simp at hspent
        omega
      have hdec : s₁.Decided task.id k [.idle] := by
        refine ⟨⟨v₁, hv₁, by simp [hidle]⟩, fun v' hv' hr => ?_, hone⟩
        obtain rfl := Option.some.inj (hv₁.symm.trans hv')
        cases hidle.symm.trans hr
      have hquiet := (costs_of_quiet (t := task.id) (kept_pauseWorkflow none) s₁).and (quiet_pauseWorkflow none s₁)
      refine hquiet.mono (fun _ s₂ h => hdec.of_le (by simp) (h.2 task.id) (by have := h.1; omega)) fun _ s₂ h => ?_
      have := h.1
      omega
    · subst h
      exact hs.spent
  · exact hs.of_le (by simp) rfl le_rfl

theorem decided_waitBefore (ht : task.id = t) (delay : NatExpr) {s : Engine} (hs : s.Decided t k [.running, .idle]) :
    Ends (Policy.beforeTaskStart o task (.waitBefore delay)) s
      (fun _ s' => s'.Decided t k [.running, .idle, .runningDelayed]) fun _ s' => s'.spent t ≤ k + 1 := by
  subst ht
  refine decided_evaluateAt hs ?_
  simp only [waitBeforeTaskStart]
  have hkeep : s.Decided task.id k [.running, .idle, .runningDelayed] := hs.of_le (by simp) rfl le_rfl
  split
  · exact hkeep
  rw [Ends.bind_iff, taskEx_iff]
  refine ⟨fun e he => ?_, fun _ => hs.spent⟩
  have hv := Engine.view_of_row he
  have hst : e.state = .running ∨ e.state = .idle := by
    obtain ⟨v, hv', hst⟩ := hs.state
    obtain rfl := Option.some.inj (hv.symm.trans hv')
    simpa [TaskEx.view] using hst
  have hspent := hs.spent
  have hk := hs.running _ hv
  split
  · refine spent_setState.mono (fun _ s₁ h => ?_) fun _ s₁ h => by rw [h]; exact hspent
    obtain ⟨h, v₁, hv₁, hr⟩ := h
    have hle : s₁.spent task.id ≤ k := by
      rw [hv] at h
      rcases hst with hst | hst
      · have := hk hst
        simp [awaits, TaskEx.view, hst, State.awaits] at h
        omega
      · simp [awaits, TaskEx.view, hst, State.awaits] at h
        omega
    exact ⟨⟨v₁, hv₁, by simp [hr]⟩, fun _ _ _ => hle, by omega⟩
  split
  next hidle =>
    have hrun := hst.resolve_right hidle
    have hk := hk hrun
    simp only [setRow, Ends.bind_iff, Ends.modify_iff]
    have hrow : ∀ s', (s.setRow task.id (·.mapContext fun c => { c with waitBeforeSkip := true })) = s' →
        s'.spent task.id ≤ k ∧ s'.view task.id = s.view task.id := by
      rintro s' rfl
      have hview : (s.setRow task.id (·.mapContext fun c => { c with waitBeforeSkip := true })).view task.id =
          s.view task.id := Engine.view_setRow_quiet fun _ => rfl
      have := @spent_of_view task.id s (s.setRow task.id (·.mapContext fun c => { c with waitBeforeSkip := true }))
        rfl rfl rfl
      rw [hview] at this
      exact ⟨by omega, hview⟩
    generalize s.setRow task.id (·.mapContext fun c => { c with waitBeforeSkip := true }) = s₁ at hrow
    obtain ⟨hle, hview⟩ := hrow s₁ rfl
    refine spent_setState.mono (fun _ s₂ h => ?_) fun _ s₂ h => by rw [h]; omega
    obtain ⟨h, v₂, hv₂, hd⟩ := h
    rw [hview, hv] at h
    simp only [awaits, TaskEx.view, hrun, State.awaits, reduceCtorEq, or_self, if_false] at h
    simp only [schedule, Ends.modify_iff]
    refine ⟨⟨v₂, hv₂, by simp [hd]⟩, fun v hv hr => ?_, ?_⟩
    · obtain rfl := Option.some.inj (hv₂.symm.trans hv)
      cases hd.symm.trans hr
    · simp only [spent_addJob, Job.isContinue, beq_self_eq_true, if_true]
      omega
  · exact hkeep

theorem decided_other {p : Policy} (hp : p.kind ≠ .pauseBefore ∧ p.kind ≠ .waitBefore) {sts : List State} {s : Engine}
    (hs : s.Decided t k sts) :
    Ends (p.beforeTaskStart o task) s (fun _ s' => s'.Decided t k sts) fun _ s' => s'.spent t ≤ k + 1 := by
  cases p with
  | pauseBefore | waitBefore => simp [Policy.kind] at hp
  | failOn => exact hs
  | timeout delay =>
    refine decided_evaluateAt hs ?_
    simp only [timeoutBeforeTaskStart]
    split
    · exact hs.of_le (fun _ => id) rfl (by simp [Job.isContinue])
    · exact hs
  | concurrency n =>
    refine decided_evaluateAt hs ?_
    simp only [concurrencyBeforeTaskStart]
    split
    · have hfree := costs_setRow (t := t) (u := task.id)
        (f := (·.mapContext fun c => { c with concurrency := some ((o.task task.id).natExpr n) })) (fun _ => by rfl) s
      simp only [setRow, Ends.modify_iff] at hfree ⊢
      exact hs.of_le (fun _ => id) (Engine.view_setRow_quiet fun _ => rfl) (by omega)
    · exact hs
  | waitAfter | retry => exact decided_evaluateAt hs hs

/-- The one policy of its kind, or none. -/
theorem decided_one {l : List Policy} {kd : PolicyKind} {sts sts' : List State} (hl : (l.map Policy.kind).Sublist [kd])
    (hsub : sts ⊆ sts') (hp : ∀ (p : Policy) (s : Engine), p.kind = kd → s.Decided t k sts →
      Ends (p.beforeTaskStart o task) s (fun _ s' => s'.Decided t k sts') fun _ s' => s'.spent t ≤ k + 1)
    {s : Engine} (hs : s.Decided t k sts) : Ends (l.forM (·.beforeTaskStart o task)) s
      (fun _ s' => s'.Decided t k sts') fun _ s' => s'.spent t ≤ k + 1 := by
  match l, hl with
  | [], _ => exact hs.of_le hsub rfl le_rfl
  | [p], hl =>
    have hk : p.kind = kd := by simpa using hl.subset (List.mem_singleton_self _)
    change Ends (p.beforeTaskStart o task >>= fun _ => pure PUnit.unit) s _ _
    exact Ends.bind (hp p s hk hs) (fun _ _ h => h) fun _ _ h => h
  | _ :: _ :: _, hl => simpa using hl.length_le

theorem decided_beforeTaskStart (ht : task.id = t) {s : Engine} (hs : s.Decided t k [.running]) :
    Ends (beforeTaskStart spec o task) s (fun _ s' => s'.Decided t k [.running, .idle, .runningDelayed])
      fun _ s' => s'.spent t ≤ k + 1 := by
  -- There is at most one `pause-before`, then at most one `wait-before`, and then the rest.
  obtain ⟨l₁, l₂₃, hsplit, h₁, h₂₃⟩ := split_kinds [.pauseBefore] (buildPolicies_kinds spec task.spec)
  obtain ⟨l₂, l₃, rfl, h₂, h₃⟩ := split_kinds [.waitBefore] h₂₃
  have hpause : ∀ (p : Policy) (s : Engine), p.kind = .pauseBefore → s.Decided t k [.running] →
      Ends (p.beforeTaskStart o task) s (fun _ s' => s'.Decided t k [.running, .idle]) fun _ s' => s'.spent t ≤ k + 1 := by
    intro p s hk hs
    cases p <;> cases hk
    exact decided_pauseBefore ht _ hs
  have hwait : ∀ (p : Policy) (s : Engine), p.kind = .waitBefore → s.Decided t k [.running, .idle] →
      Ends (p.beforeTaskStart o task) s (fun _ s' => s'.Decided t k [.running, .idle, .runningDelayed])
        fun _ s' => s'.spent t ≤ k + 1 := by
    intro p s hk hs
    cases p <;> cases hk
    exact decided_waitBefore ht _ hs
  rw [beforeTaskStart, hsplit, List.forM_eq_forM, List.forM_append, List.forM_append]
  refine Ends.bind (decided_one h₁ (by simp) hpause hs) (fun _ s₁ hs₁ => ?_) fun _ _ h => h
  refine Ends.bind (decided_one h₂ (by simp) hwait hs₁) (fun _ s₂ hs₂ => ?_) fun _ _ h => h
  refine decided_forM (fun p hp s' => decided_other ?_) hs₂
  have := kind_mem h₃ hp
  constructor <;> rintro h <;> simp [h] at this

/-- A start that the policies decide about. -/
theorem costs_start (ht : task.id = t) {rest : M Unit} (hrest : Costs t 1 rest) {s : Engine}
    (hs : s.Decided t k [.running]) :
    Ends (do
        beforeTaskStart spec o task
        if (← taskEx task.id).state ≠ .running then return
        rest) s (fun _ s' => s'.spent t ≤ k + 1) fun _ s' => s'.spent t ≤ k + 1 := by
  refine Ends.bind (decided_beforeTaskStart ht hs) (fun _ s₁ hs₁ => ?_) fun _ _ h => h
  rw [Ends.bind_iff, taskEx_iff]
  refine ⟨fun e he => ?_, fun _ => hs₁.spent⟩
  split
  · exact hs₁.spent
  next hrun =>
    have hle := hs₁.running _ (Engine.view_of_row (ht ▸ he)) (by simpa [TaskEx.view] using hrun)
    exact (hrest s₁).mono (fun _ _ h => by omega) fun _ _ h => by omega

/-- Starting an idle task uses up its start. -/
theorem costs_runNew (ht : task.id = t) (hreg : task.spec.withItems = false) : Costs t 0 (runNew spec ls o task) := by
  subst ht
  intro s
  unfold runNew
  have hrefl : s.spent task.id ≤ s.spent task.id + 0 := by omega
  split
  · exact hrefl
  rw [Ends.bind_iff, taskEx_iff]
  refine ⟨fun e he => ?_, fun _ => hrefl⟩
  split
  case isFalse => exact hrefl
  next hidle =>
  have hidle : e.state = .idle := by simpa [State.isIdle] using hidle
  refine Ends.bind spent_setState (fun _ s₁ h => ?_) fun _ s₁ h => ?_
  · obtain ⟨h, v, hv, hr⟩ := h
    rw [Engine.view_of_row he] at h
    simp [awaits, TaskEx.view, hidle, State.awaits] at h
    have hdec : s₁.Decided task.id (s.spent task.id - 1) [.running] :=
      ⟨⟨v, hv, by simp [hr]⟩, fun _ _ _ => by omega, by omega⟩
    refine (costs_start rfl (costs_scheduleActions rfl hreg) hdec).mono (fun _ _ h => ?_) fun _ _ h => ?_ <;> omega
  · rw [h]
    exact hrefl

/-- Starting a task again costs a start, which the request to rerun it or the delayed continuation pays for, or
    the task itself if it was not started yet. -/
theorem spent_runExisting (ht : task.id = t) (hreg : task.spec.withItems = false) {s : Engine} :
    Ends (runExisting spec ls o task) s (fun _ s' => s'.spent t ≤ s.spent t + 1 - awaits (s.view t))
      fun _ s' => s'.spent t ≤ s.spent t + 1 - awaits (s.view t) := by
  subst ht
  have hrefl : s.spent task.id ≤ s.spent task.id + 1 - awaits (s.view task.id) := by
    have := awaits_le_one (s.view task.id)
    omega
  unfold runExisting
  split
  · exact hrefl
  rw [Ends.bind_iff, taskEx_iff]
  refine ⟨fun e he => ?_, fun _ => hrefl⟩
  split
  · exact hrefl
  refine Ends.bind spent_setState (fun _ s₁ ⟨h, v, hv, hr⟩ => ?_) fun _ s₁ h => by rw [h]; exact hrefl
  simp only [State.awaits, reduceCtorEq, or_self, if_false] at h
  dsimp only
  split
  · have hdec : s₁.Decided task.id (s.spent task.id - awaits (s.view task.id)) [.running] :=
      ⟨⟨v, hv, by simp [hr]⟩, fun _ _ _ => by omega, by omega⟩
    refine (costs_start rfl (costs_restartActions rfl hreg) hdec).mono (fun _ _ h => ?_) fun _ _ h => ?_ <;> omega
  · refine (costs_restartActions rfl hreg s₁).mono (fun _ _ h => ?_) fun _ _ h => ?_ <;> omega

/-! ### Handlers -/

theorem costs_forceFailTask (u : TaskId) (msg : String) : Costs t 0 (forceFailTask o u msg) := by
  have hset : Costs t 0 (setState u .error (some msg)) := by
    rcases eq_or_ne u t with rfl | hu
    · exact costs_setState_free ⟨nofun, nofun⟩
    · have hkept : Kept { own := some u } (setState u .error (some msg)) := kept_setState_completed rfl rfl
      exact costs_of_kept hkept (by simpa using hu) nofun
  exact .bind_free hset (fun _ => costs_of_quiet (kept_stopWorkflow o _ _)) le_rfl

theorem spent_handling {lib : Bool} {what : String} {body : M Unit} {n : Int} {s : Engine}
    (hbody : Ends body s (fun _ s' => s'.spent t ≤ n) fun _ s' => s'.spent t ≤ n) :
    Ends (handling spec o lib what task body) s (fun _ s' => s'.spent t ≤ n) fun _ s' => s'.spent t ≤ n := by
  have hthen : ∀ {m : M Unit}, Costs t 0 m → ∀ {s' : Engine}, s'.spent t ≤ n →
      Ends m s' (fun _ s'' => s''.spent t ≤ n) fun _ s'' => s''.spent t ≤ n := fun hm _ h =>
    (hm _).mono (fun _ _ h' => by omega) fun _ _ h' => by omega
  unfold handling
  rw [Ends.bind_iff, Ends.tryCatch_iff]
  simp only [Ends.bind_iff, Ends.pure_iff, if_true]
  refine hbody.mono (fun _ s' h => hthen (costs_of_quiet (kept_checkAffectedTasks task)) h) fun e s' h => ?_
  split
  · simp only [Ends.bind_iff, Ends.pure_iff, Bool.false_eq_true, if_false]
    exact hthen (costs_forceFailTask _ _) h
  · exact h

theorem costs_handling {lib : Bool} {what : String} {body : M Unit} (hbody : Costs t k body) :
    Costs t k (handling spec o lib what task body) := fun s => spent_handling (hbody s)

end

/-- The task execution `t` runs a single action, and is no join. -/
def Engine.RegularTask (spec : WorkflowSpec) (t : TaskId) (s : Engine) : Prop :=
  ∀ v ts, s.view t = some v → spec.getTask v.name = some ts → ts.withItems = false ∧ ts.isJoin = false

/-- What a handler finds out about the task that it builds. -/
theorem spent_taskSpecOf {f : TaskSpec → M Unit} {n : Int} {s : Engine} (hreg : s.RegularTask spec t) (hn : s.spent t ≤ n)
    (hf : ∀ ts, ts.withItems = false → ts.isJoin = false →
      Ends (f ts) s (fun _ s' => s'.spent t ≤ n) fun _ s' => s'.spent t ≤ n) :
    Ends (taskSpecOf spec t >>= f) s (fun _ s' => s'.spent t ≤ n) fun _ s' => s'.spent t ≤ n := by
  unfold taskSpecOf
  rw [bind_assoc, Ends.bind_iff, taskEx_iff]
  refine ⟨fun e he => ?_, fun _ => hn⟩
  split
  next ts hts =>
    rw [pure_bind]
    obtain ⟨hitems, hjoin⟩ := hreg _ ts (Engine.view_of_row he) hts
    exact hf ts hitems hjoin
  · exact hn

theorem spent_buildTask {f : Task → M Unit} {n : Int} {s : Engine} (hreg : s.RegularTask spec t) (hn : s.spent t ≤ n)
    (hf : ∀ task : Task, task.id = t → task.spec.withItems = false →
      Ends (f task) s (fun _ s' => s'.spent t ≤ n) fun _ s' => s'.spent t ≤ n) :
    Ends (buildTask spec t >>= f) s (fun _ s' => s'.spent t ≤ n) fun _ s' => s'.spent t ≤ n := by
  unfold buildTask
  rw [bind_assoc]
  refine spent_taskSpecOf hreg hn fun ts hts _ => ?_
  rw [pure_bind]
  exact hf _ rfl hts

section
variable {s : Engine}

/-- A message for the first run, for a rerun, or from a resumed workflow for a task that is not started. -/
theorem spent_runTask {m : StartTask} (hm : m.taskEx = t) (hreg : s.RegularTask spec t)
    (hidle : m.firstRun = false → m.rerun = false → ∀ v, s.view t = some v →
      v.state = .idle ∨ v.state = .waiting ∨ v.state = .success) :
    Ends (runTask spec ls o m) s (fun _ s' => s'.spent t ≤ s.spent t + if m.isRerun t then 1 else 0)
      fun _ s' => s'.spent t ≤ s.spent t + if m.isRerun t then 1 else 0 := by
  subst hm
  have hn : s.spent m.taskEx ≤ s.spent m.taskEx + if m.isRerun m.taskEx then 1 else 0 := by split <;> omega
  refine spent_taskSpecOf hreg hn fun ts hts _ => spent_handling ?_
  simp only [Bool.false_and, Bool.false_eq_true, if_false, run]
  split
  · have hnew : Costs m.taskEx 0 (runNew spec ls o ⟨m.taskEx, ts, false, m.triggeredBy, m.rerun, m.reset⟩) :=
      costs_runNew rfl hts
    refine (hnew s).mono (fun _ _ h => ?_) fun _ _ h => ?_ <;> omega
  next hfirst =>
  have hrun : Ends (runExisting spec ls o ⟨m.taskEx, ts, false, m.triggeredBy, m.rerun, m.reset⟩) s
      (fun _ s' => s'.spent m.taskEx ≤ s.spent m.taskEx + 1 - awaits (s.view m.taskEx))
      fun _ s' => s'.spent m.taskEx ≤ s.spent m.taskEx + 1 - awaits (s.view m.taskEx) := spent_runExisting rfl hts
  by_cases hrerun : m.rerun = true
  · have hcond : m.isRerun m.taskEx = true := by simp [StartTask.isRerun, hrerun]
    simp only [hcond, if_true]
    refine hrun.mono (fun _ _ h => ?_) fun _ _ h => ?_ <;> omega
  · have hcond : m.isRerun m.taskEx = false := by simpa [StartTask.isRerun] using hrerun
    simp only [hcond, Bool.false_eq_true, if_false]
    unfold runExisting at hrun ⊢
    simp only [Bool.false_eq_true, if_false, Ends.bind_iff, taskEx_iff] at hrun ⊢
    refine ⟨fun e he => ?_, fun _ => by omega⟩
    have hrun := hrun.1 e he
    have hv := Engine.view_of_row he
    by_cases hsuccess : e.state = .success
    · rw [if_pos hsuccess]
      simp only [Ends.throw_iff]
      omega
    · have hawaits : awaits (s.view m.taskEx) = 1 := by
        rw [hv]
        rcases hidle (by simpa using hfirst) (by simpa using hrerun) _ hv with h | h | h
        · simp [awaits, State.awaits, h]
        · simp [awaits, State.awaits, h]
        · exact absurd h hsuccess
      refine Ends.mono hrun (fun _ _ h => ?_) fun _ _ h => ?_ <;> omega

/-- `continue_task` is paid for by the delayed job, or by the task that was not started yet. -/
theorem spent_continueTask (hreg : s.RegularTask spec t) :
    Ends (continueTask spec ls o t) s (fun _ s' => s'.spent t ≤ s.spent t + 1 - awaits (s.view t))
      fun _ s' => s'.spent t ≤ s.spent t + 1 - awaits (s.view t) := by
  have hrefl : s.spent t ≤ s.spent t + 1 - awaits (s.view t) := by
    have := awaits_le_one (s.view t)
    omega
  refine spent_buildTask hreg hrefl fun task ht hts => spent_handling ?_
  refine Ends.bind spent_setState (fun _ s₁ ⟨h, v, hv, hr⟩ => ?_) fun _ s₁ h => by rw [h]; exact hrefl
  have hawaits : awaits (s₁.view t) = 0 := by simp [hv, awaits, hr, State.awaits]
  simp only [State.awaits, reduceCtorEq, or_self, if_false] at h
  refine (spent_runExisting (s := s₁) ht hts).mono (fun _ _ h' => ?_) fun _ _ h' => ?_ <;> omega

theorem spent_completeTask {state : State} {info : Option String} (hreg : s.RegularTask spec t)
    (hs : state ≠ .idle ∧ state ≠ .waiting) :
    Ends (completeTask spec ls o t state info) s (fun _ s' => s'.spent t ≤ s.spent t) fun _ s' => s'.spent t ≤ s.spent t := by
  refine spent_buildTask hreg le_rfl fun task ht _ => spent_handling ?_
  refine (costs_complete ht hs s).mono (fun _ _ h => ?_) fun _ _ h => ?_ <;> omega

theorem spent_failTaskIfIncomplete (timeout : Nat) (hreg : s.RegularTask spec t) :
    Ends (failTaskIfIncomplete spec ls o t timeout) s (fun _ s' => s'.spent t ≤ s.spent t)
      fun _ s' => s'.spent t ≤ s.spent t := by
  unfold failTaskIfIncomplete
  rw [Ends.bind_iff, taskEx_iff]
  refine ⟨fun e _ => ?_, fun _ => le_rfl⟩
  split
  · exact spent_completeTask hreg ⟨nofun, nofun⟩
  · exact le_rfl

/-- A result completes the task: no start is left of it. -/
theorem spent_onActionComplete {i : Nat} (hreg : s.RegularTask spec t)
    (hx : ∀ e x, s.tasks[t]? = some e → e.executions[i]? = some x → x.state ≠ .idle) :
    Ends (onActionComplete spec ls o t i) s (fun _ s' => s'.spent t ≤ s.spent t) fun _ s' => s'.spent t ≤ s.spent t := by
  refine spent_buildTask hreg le_rfl fun task ht hts => ?_
  rw [Ends.bind_iff, taskEx_iff]
  refine ⟨fun e he => ?_, fun _ => le_rfl⟩
  split
  · exact le_rfl
  next x hxe =>
  refine spent_handling ?_
  simp only [taskOnActionComplete, hts, Bool.false_eq_true, if_false, regularOnActionComplete]
  refine (costs_complete ht ⟨hx e x he hxe, x.notTask.1⟩ s).mono (fun _ _ h => ?_) fun _ _ h => ?_ <;> omega

theorem spent_scheduleOnActionComplete {i : Nat} (hreg : s.RegularTask spec t)
    (hx : ∀ e x, s.tasks[t]? = some e → e.executions[i]? = some x → x.state ≠ .idle) :
    Ends (scheduleOnActionComplete spec ls o t i) s (fun _ s' => s'.spent t ≤ s.spent t)
      fun _ s' => s'.spent t ≤ s.spent t := by
  refine spent_taskSpecOf hreg le_rfl fun ts hts _ => ?_
  simp only [hts, Bool.false_eq_true, if_false]
  exact spent_onActionComplete hreg hx

/-- A change of the row that keeps what counts. -/
theorem spent_setRow {f : TaskEx → TaskEx} (hf : ∀ e, (f e).view = e.view) (u : TaskId) :
    (s.setRow u f).spent t = s.spent t ∧ (s.setRow u f).view t = s.view t := by
  have hview : (s.setRow u f).view t = s.view t := Engine.view_setRow_quiet hf
  have := @spent_of_view t s (s.setRow u f) rfl rfl rfl
  rw [hview] at this
  exact ⟨by omega, hview⟩

theorem Engine.RegularTask.of_view {s' : Engine} (h : s.RegularTask spec t) (hview : s'.view t = s.view t) :
    s'.RegularTask spec t := fun v ts hv => h v ts (hview ▸ hv)

theorem spent_refuseResult (i : Nat) :
    Ends (refuseResult o t i) s (fun _ s' => s'.spent t ≤ s.spent t) fun _ s' => s'.spent t ≤ s.spent t := by
  unfold refuseResult
  rw [Ends.bind_iff, taskEx_iff]
  refine ⟨fun e he => ?_, fun _ => le_rfl⟩
  split
  · simp only [setRow, Ends.bind_iff, Ends.modify_iff]
    have hrow := spent_setRow (s := s) (t := t) (f := (·.setExecution i fun x =>
      { x with state := .error, output := some ("Failed to complete action: " ++ e.name), notTask := State.error_notTask }))
      (fun _ => by rfl) t
    rw [← hrow.1]
    refine (costs_forceFailTask (t := t) t _ _).mono (fun _ _ h => ?_) fun _ _ h => ?_ <;> omega
  · exact le_rfl

theorem spent_onActionResult (i : Nat) (result : ActionResult) (hreg : s.RegularTask spec t) :
    Ends (onActionResult spec ls o t i result) s (fun _ s' => s'.spent t ≤ s.spent t) fun _ s' => s'.spent t ≤ s.spent t := by
  unfold onActionResult
  split
  · exact spent_refuseResult i
  unfold completeAction
  rw [bind_assoc, Ends.bind_iff, taskEx_iff]
  refine ⟨fun e he => ?_, fun _ => le_rfl⟩
  split
  · exact le_rfl
  next x hx =>
  split
  · exact le_rfl
  simp only [setRow, Ends.bind_iff, Ends.modify_iff]
  have hrow := spent_setRow (s := s) (t := t)
    (f := (·.setExecution i fun x => { x with state := result.state, output := result.output, accepted := true, notTask := result.notTask }))
    (fun _ => by rfl) t
  have hres : result.state ≠ .idle := by cases result <;> exact nofun
  rw [← hrow.1]
  refine spent_scheduleOnActionComplete (hreg.of_view hrow.2) fun e' x' he' hx' => ?_
  rw [getElem?_setRow he] at he'
  cases he'
  simp only [TaskEx.setExecution, List.getElem?_modify, hx] at hx'
  cases hx'
  simpa using hres

/-- The logical state of a task that is no join is its own state, and there is nothing to do about it. -/
theorem spent_refreshTaskState (hreg : s.RegularTask spec t) :
    Ends (refreshTaskState spec ls o t) s (fun _ s' => s'.spent t ≤ s.spent t) fun _ s' => s'.spent t ≤ s.spent t := by
  unfold refreshTaskState
  rw [Ends.bind_iff, taskEx_iff]
  refine ⟨fun e he => ?_, fun _ => le_rfl⟩
  split
  · exact le_rfl
  next hopen =>
  rw [Ends.bind_iff, Ends.get_iff]
  split
  · exact le_rfl
  refine spent_taskSpecOf hreg le_rfl fun ts _ hjoin => ?_
  have hlogical : getLogicalTaskState spec s.rows ts e = .ok { state := e.state, stateInfo := e.stateInfo } := by
    rw [TaskSpec.isJoin, Option.isSome_eq_false_iff, Option.isNone_iff_eq_none] at hjoin
    simp only [getLogicalTaskState, hjoin]
    rfl
  rw [Ends.bind_iff, ofExcept_iff]
  refine ⟨fun logical h => ?_, fun _ _ => le_rfl⟩
  obtain rfl : { state := e.state, stateInfo := e.stateInfo } = logical := by simpa [hlogical] using h
  simp only [Bool.or_eq_true, decide_eq_true_eq, not_or, State.isCompleted_iff] at hopen
  have hrow := spent_setRow (s := s) (t := t) (f := (·.mapContext fun c => { c with triggeredBy := some [] }))
    (fun _ => by rfl) t
  simp only [applyLogicalState, setRow, Ends.bind_iff, Ends.modify_iff]
  rw [← hrow.1]
  split
  next hr => exact absurd hr hopen.2
  next hr => exact absurd hr hopen.1.2.1
  · exact le_rfl
  · exact le_rfl

/-! ### Reruns and updates -/

theorem costs_addMessage (m : StartTask) : Costs t (if m.isRerun t then 1 else 0) (addMessage m) := fun s => by
  simp only [addMessage, Ends.modify_iff, spent_addMessage]
  split <;> simp

theorem costs_requestRerun (skip : Bool) : Costs t (if skip then 0 else -1) (requestRerun t skip) := by
  cases skip with
  | true => exact .pure le_rfl _
  | false =>
    have hemit : Costs t (-1) (emit (.rerunRequested t)) := by
      simpa [Event.isAction, Event.isGrant] using costs_emit (t := t) (.rerunRequested t)
    exact hemit

/-- Skipping a task starts nothing. -/
theorem costs_skipTaskHandler : Costs t 0 (skipTaskHandler spec ls o t) := by
  unfold skipTaskHandler buildTask
  rw [bind_assoc]
  refine .bind_free (costs_of_quiet (kept_taskSpecOf spec t)) (fun ts => ?_) le_rfl
  rw [pure_bind]
  have hskipped : State.skipped ≠ .idle ∧ State.skipped ≠ .waiting := ⟨nofun, nofun⟩
  exact .bind_free (costs_complete rfl hskipped) (fun _ => costs_of_quiet (kept_checkAffectedTasks _)) le_rfl

theorem costs_processCommand_rerun {skip : TaskId → M Unit} {bs : CmdBase} {reset : Bool} {key : Option String} :
    Costs t 1 (processCommand o skip (.runExistingTask bs t reset key true)) := by
  refine .bind_free (costs_of_quiet (kept_createExistingTask t true)) (fun waiting => ?_) (by omega)
  exact (costs_addMessage _).mono (by split <;> omega)

/-- A list of one command for a task. -/
theorem costs_processCommands_one {skip : TaskId → M Unit} {cmd : Cmd} (hk : 0 ≤ k)
    (hcmd : cmd.isNoop = false ∧ cmd.isSetWorkflowState = false) (h : Costs t k (processCommand o skip cmd)) :
    Costs t k (processCommands o ls skip [cmd]) := by
  have hone : rearrangeCommands ls [cmd] = [cmd] := by
    simp only [rearrangeCommands, hcmd, List.filter_cons, List.filter_nil, List.dropWhile_cons, List.dropWhile_nil, Bool.not_false,
      if_true]
    exact List.perm_singleton.mp (ls.perm [cmd])
  rw [processCommands, hone]
  unfold processEach
  refine .bind_free (.get le_rfl) (fun s => ?_) hk
  dsimp only
  split
  · exact .pure hk _
  split
  · exact .bind_free (costs_of_quiet (kept_saveCommandToBacklog cmd)) (fun _ => .pure hk _) hk
  · have hlast : Costs t 0 (processEach o skip []) := .pure le_rfl _
    simpa only [Int.add_zero] using Costs.bind h (fun _ => hlast) le_rfl

/-- The commands that rerun or skip one task. -/
theorem costs_processCommands_rerun {own : TaskSpec} {e : TaskEx} {reset skip : Bool} {s : Engine} {cmds : List Cmd}
    (hcmds : cmds = if skip then skipTask s own t e else rerunTask s own t e reset) :
    Costs t (if skip then 0 else 1)
      (processCommands o ls (skipTaskHandler spec ls o) (cmds.filter (!·.isPause))) := by
  have hnil : Costs t 0 (processCommands o ls (skipTaskHandler spec ls o) []) :=
    costs_of_quiet (kept_processCommands o ls (by nofun) (by simp))
  subst hcmds
  cases skip with
  | true =>
    simp only [if_true, skipTask]
    split
    · exact hnil
    · exact costs_processCommands_one le_rfl ⟨rfl, rfl⟩ costs_skipTaskHandler
  | false =>
    simp only [Bool.false_eq_true, if_false, rerunTask]
    split
    · exact hnil.mono (by omega)
    · exact costs_processCommands_one (by omega) ⟨rfl, rfl⟩ costs_processCommand_rerun

theorem costs_continueWorkflowWith {cmds : List Cmd} (hk : 0 ≤ k)
    (hcmds : Costs t k (processCommands o ls (skipTaskHandler spec ls o) (cmds.filter (!·.isPause)))) :
    Costs t k (continueWorkflowWith spec ls o false cmds) := by
  have hloop : ∀ n, Kept { whole := True, marks := True } ((List.range n).forM (markIfUnprocessed false)) := fun n =>
    .forM fun t _ => kept_markIfUnprocessed trivial (fun _ => trivial) t
  unfold continueWorkflowWith
  refine .bind_free (.get le_rfl) (fun s => .bind_free (costs_of_kept (hloop _) nofun nofun) (fun _ => ?_) hk) hk
  refine .bind_free (.get le_rfl) (fun s => ?_) hk
  split
  · exact (costs_of_quiet (kept_checkAndCompleteWorkflow spec o)).mono hk
  · unfold dispatchWorkflowCommands
    refine .bind_free (costs_of_quiet (kept_emit rfl)) (fun _ => ?_) hk
    rw [← bind_assoc]
    exact .bind_free (costs_of_quiet (kept_processBacklog spec o ls (by nofun))) (fun _ => hcmds) hk

/-- A request to rerun the task is a start that is granted, and its message is the start to come. -/
theorem costs_rerunWorkflow (reset skip : Bool) : Costs t 0 (rerunWorkflow spec ls o t reset skip) := by
  have hrun : Kept { whole := True } (setWfState .running none) := kept_setWfState fun _ => trivial
  refine .bind_free (.get le_rfl) (fun s => ?_) le_rfl
  split
  · exact .pure le_rfl _
  unfold rerun
  have hprice : (if skip then 0 else -1 : Int) + (if skip then 0 else 1) = 0 := by cases skip <;> rfl
  have hk : (0 : Int) ≤ if skip then 0 else 1 := by cases skip <;> simp
  rw [← hprice]
  refine .bind_free (costs_of_kept hrun nofun nofun) (fun _ => ?_) (by omega)
  refine .bind (costs_requestRerun skip) (fun _ => .bind_free (.get le_rfl) (fun s₀ => ?_) hk) hk
  refine .bind_free (costs_of_quiet (kept_taskEx t)) (fun e => ?_) hk
  refine .bind_free (costs_of_quiet (kept_taskSpecOf spec t)) (fun own => ?_) hk
  dsimp only
  generalize hcmds : (if skip = true then skipTask s₀ own t e else rerunTask s₀ own t e reset) = cmds
  have hcontinue : Costs t (if skip then 0 else 1) (continueWorkflowWith spec ls o false cmds) :=
    costs_continueWorkflowWith hk (costs_processCommands_rerun hcmds.symm)
  by_cases hne : cmds ≠ []
  · rw [if_pos hne]
    exact .bind_free (costs_setRow fun _ => by rfl) (fun _ => hcontinue) hk
  · rw [if_neg hne]
    exact hcontinue

theorem costs_rerunInSubworkflow (i : Nat) : Costs t 0 (rerunInSubworkflow t i) := by
  have hrun : Kept { whole := True } (setWfState .running none) := kept_setWfState fun _ => trivial
  refine .bind_free (costs_setRow fun _ => by rfl) (fun _ => ?_) le_rfl
  exact .bind_free (costs_of_kept hrun nofun nofun) (fun _ => costs_setState_free ⟨nofun, nofun⟩) le_rfl

/-- Nothing goes back to `IDLE` by an update. -/
theorem costs_updateTask {st : State} (hst : st ≠ .waiting) : Costs t 0 (updateTask t st) := by
  intro s
  have hrefl : s.spent t ≤ s.spent t + 0 := by omega
  unfold updateTask
  rw [Ends.bind_iff, taskEx_iff]
  refine ⟨fun e he => ?_, fun _ => hrefl⟩
  split
  · exact hrefl
  next hvalid =>
  simp only [Bool.or_eq_true, Bool.not_eq_true', not_or, Bool.not_eq_false] at hvalid
  split
  · exact hrefl
  refine Ends.bind spent_setState (fun _ s₁ ⟨h, _⟩ => ?_) fun _ s₁ h => h ▸ hrefl
  have hle : s₁.spent t ≤ s.spent t := by
    have : st.awaits ≤ awaits (s.view t) := by
      rw [Engine.view_of_row he]
      have := hvalid.2
      cases hold : e.state <;> cases st <;>
        simp_all [awaits, TaskEx.view, State.awaits, State.isValidTransition, State.validTransitions]
    omega
  have hcheck : Costs t 0 (do if (← taskEx t).state.isCompleted then registerWorkflowCompletionCheck t) := by
    refine .bind_free (costs_of_quiet (kept_taskEx t)) (fun e => ?_) le_rfl
    split
    · exact costs_of_quiet (kept_registerWorkflowCompletionCheck t)
    · exact .pure le_rfl _
  exact (hcheck s₁).mono (fun _ _ h => by omega) fun _ _ h => by omega

theorem costs_applyUpdate (x : Execution) : Costs t 0 (applyUpdate spec ls o t x) := by
  have hresume : Costs t 0 (do
      if x.state.isRunning && !(← get).tasks.any (·.state.isPaused) then resumeWorkflow spec ls o) := by
    have hkept : Kept { whole := True } (resumeWorkflow spec ls o) := kept_resumeWorkflow trivial
    refine .bind_free (.get le_rfl) (fun s => ?_) le_rfl
    split
    · exact costs_of_kept hkept nofun nofun
    · exact .pure le_rfl _
  refine .bind_free (costs_updateTask x.notTask.1) (fun _ => ?_) le_rfl
  dsimp only
  split
  · exact .bind_free (costs_of_quiet (kept_pauseWorkflow none)) (fun _ => hresume) le_rfl
  · exact hresume

theorem costs_onActionUpdate (i : Nat) : Costs t 0 (onActionUpdate spec ls o t i) := by
  unfold onActionUpdate buildTask
  rw [bind_assoc]
  refine .bind_free (costs_of_quiet (kept_taskSpecOf spec t)) (fun ts => ?_) le_rfl
  rw [pure_bind]
  refine .bind_free (costs_of_quiet (kept_taskEx t)) (fun e => ?_) le_rfl
  split
  · exact .pure le_rfl _
  · exact costs_handling (costs_applyUpdate _)

theorem costs_onExecutionUpdate (i : Nat) (paused : Bool) : Costs t 0 (onExecutionUpdate spec ls o t i paused) := by
  unfold onExecutionUpdate
  obtain ⟨st, hst⟩ := updatedState paused
  refine .bind_free (costs_of_quiet (kept_taskEx t)) (fun e => ?_) le_rfl
  split
  · exact .throw le_rfl _
  split
  · refine .bind_free (costs_setRow fun _ => by rfl) (fun _ => ?_) le_rfl
    refine .bind_free (costs_of_quiet (kept_taskSpecOf spec t)) (fun ts => ?_) le_rfl
    split
    · exact costs_schedule_free rfl
    · exact costs_onActionUpdate i
  · exact .throw le_rfl _

/-! ### Requests -/

/-- The request brings a start of `t` to its end. -/
def Request.isStart (t : TaskId) : Request → Bool
  | .startTask m => m.isRerun t
  | .runJob j => j.isContinue t
  | _ => false

/-- The message of a resumed workflow reaches `t` while it is not started yet, or too late to start it again. No
    answer comes from an execution that is not started. -/
structure Request.StartsOne (t : TaskId) (s : Engine) (r : Request) : Prop where
  resumed : ∀ m v, r = .startTask m → m.taskEx = t → m.firstRun = false → m.rerun = false → s.view t = some v →
    v.state = .idle ∨ v.state = .waiting ∨ v.state = .success
  result : ∀ i e x, r = .subworkflowResult t i ∨ r = .runJob (.onActionComplete t i) → s.tasks[t]? = some e →
    e.executions[i]? = some x → x.state ≠ .idle
  late : ∀ st info, r = .runJob (.completeTask t st info) → st ≠ .idle ∧ st ≠ .waiting

theorem spent_handle (ls : ListSort) (o : Oracle) {r : Request} (hreg : s.RegularTask spec t) (hone : r.StartsOne t s)
    (hjob : ∀ u st info, r = .runJob (.completeTask u st info) → st ≠ .waiting) :
    Ends (handle spec ls o r) s (fun _ s' => s'.spent t ≤ s.spent t + if r.isStart t then 1 else 0)
      fun _ s' => s'.spent t ≤ s.spent t + if r.isStart t then 1 else 0 := by
  have hfree : ∀ {m : M Unit}, Costs t 0 m → Ends m s (fun _ s' => s'.spent t ≤ s.spent t + if r.isStart t then 1 else 0)
      fun _ s' => s'.spent t ≤ s.spent t + if r.isStart t then 1 else 0 := fun h =>
    (h s).mono (fun _ _ h => by split <;> omega) fun _ _ h => by split <;> omega
  have hle : ∀ {m : M Unit}, Ends m s (fun _ s' => s'.spent t ≤ s.spent t) (fun _ s' => s'.spent t ≤ s.spent t) →
      Ends m s (fun _ s' => s'.spent t ≤ s.spent t + if r.isStart t then 1 else 0)
        fun _ s' => s'.spent t ≤ s.spent t + if r.isStart t then 1 else 0 := fun h =>
    h.mono (fun _ _ h => by split <;> omega) fun _ _ h => by split <;> omega
  by_cases htask : r.task = some t
  case neg =>
    have hreruns : (scopeOf s r).reruns ≠ some t := by
      cases r <;> simp_all [scopeOf, Request.reruns, Request.task]
    exact hle ((evolves_handle s r hjob).mono (fun _ _ h => h.spent_le htask hreruns) fun _ _ h => h.spent_le htask hreruns)
  cases r with
  | start | checkAndComplete | pause | resume | stop => cases htask
  | startTask m =>
    have hm : m.taskEx = t := by simpa [Request.task] using htask
    exact spent_runTask hm hreg fun hf hr v hv => hone.resumed m v rfl hm hf hr hv
  | actionResult u i result =>
    cases htask
    exact hle (spent_onActionResult i result hreg)
  | executionUpdate u i paused =>
    cases htask
    exact hfree (costs_onExecutionUpdate i paused)
  | subworkflowStarted u i => exact hfree (costs_setRow fun _ => by rfl)
  | subworkflowCompleted u i result => exact hfree (costs_of_quiet (kept_subworkflowCompleted i result))
  | subworkflowResult u i =>
    cases htask
    exact hle (spent_scheduleOnActionComplete hreg fun e x => hone.result i e x (.inl rfl))
  | runJob j =>
    cases j with
    | refreshTaskState u =>
      cases htask
      exact hle (spent_refreshTaskState hreg)
    | continueTask u =>
      cases htask
      simp only [handle, runJob, Request.isStart, Job.isContinue, beq_self_eq_true, if_true]
      exact (spent_continueTask hreg).mono (fun _ _ h => by omega) fun _ _ h => by omega
    | completeTask u st info =>
      cases htask
      exact hle (spent_completeTask hreg (hone.late st info rfl))
    | failTaskIfIncomplete u timeout =>
      cases htask
      exact hle (spent_failTaskIfIncomplete timeout hreg)
    | onActionComplete u i =>
      cases htask
      exact hle (spent_onActionComplete hreg fun e x => hone.result i e x (.inr rfl))
    | onActionUpdate u i =>
      cases htask
      exact hfree (costs_onActionUpdate i)
  | scheduleIfNeeded u jobsExist =>
    cases jobsExist with
    | true => exact hfree (.pure le_rfl _)
    | false => exact hfree (costs_of_quiet (kept_scheduleRefreshTaskState u))
  | rerun u reset skip =>
    cases htask
    exact hfree (costs_rerunWorkflow reset skip)
  | rerunInSubworkflow u i =>
    cases htask
    exact hfree (costs_rerunInSubworkflow i)

end

end Mistral
