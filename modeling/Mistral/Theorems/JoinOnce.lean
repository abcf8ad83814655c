import Mistral.Theorems.PolicyJobs

/-! A join fires once. Its execution is created in `WAITING`, and fires when a refresh finds that its logical
    state is `RUNNING`. -/

namespace Mistral

variable {spec : WorkflowSpec} {ls : ListSort} {sc : Scope} {t : TaskId}

/-! ### Counting -/

/-- The number of times that `t` has left `WAITING` to run. -/
def fires (t : TaskId) (es : List Event) : Nat := es.count (.taskState t .waiting .running)

/-- The retry policy puts `t` back into `WAITING`. -/
def Event.isJoinRetry (t : TaskId) : Event → Bool
  | .retried u .waiting _ => u == t
  | _ => false

def joinRetries (t : TaskId) (es : List Event) : Nat := es.countP (·.isJoinRetry t)

/-- A command to run the join finds its execution `t` in another state than `WAITING`. -/
def Event.isDefer (t : TaskId) : Event → Bool
  | .deferred u _ => u == t
  | _ => false

def defers (t : TaskId) (es : List Event) : Nat := es.countP (·.isDefer t)

@[simp] theorem fires_append (es es' : List Event) : fires t (es ++ es') = fires t es + fires t es' :=
  List.count_append ..

@[simp] theorem joinRetries_append (es es' : List Event) :
    joinRetries t (es ++ es') = joinRetries t es + joinRetries t es' := List.countP_append ..

@[simp] theorem defers_append (es es' : List Event) : defers t (es ++ es') = defers t es + defers t es' :=
  List.countP_append ..

/-- Counting looks at the events about `t` only. -/
theorem fires_about (es : List Event) : fires t (es.filter (·.about t)) = fires t es :=
  List.count_filter (by simp [Event.about, Event.task])

theorem joinRetries_about (es : List Event) : joinRetries t (es.filter (·.about t)) = joinRetries t es :=
  countP_about (fun ev h => by
    cases ev with
    | retried u st wf =>
      cases st <;> simp [Event.isJoinRetry] at h
      simp [Event.task, h]
    | _ => simp [Event.isJoinRetry] at h) es

theorem defers_about (es : List Event) : defers t (es.filter (·.about t)) = defers t es :=
  countP_about (fun ev h => by
    cases ev <;> simp [Event.isDefer] at h
    simp [Event.task, h]) es

/-- A task execution in `WAITING` can still fire, and so can one that does not exist yet. -/
def chances : Option View → Nat
  | none => 1
  | some v => if v.state = .waiting then 1 else 0

theorem fires_taskState_cons (a b : State) (w : List Event) :
    fires t (.taskState t a b :: w) = fires t w + if a = .waiting ∧ b = .running then 1 else 0 := by
  simp [fires, List.count_cons]

theorem joinRetries_taskState_cons (a b : State) (w : List Event) :
    joinRetries t (.taskState t a b :: w) = joinRetries t w := by
  simp [joinRetries, Event.isJoinRetry]

theorem Chain.fires_le {a b : State} {w : List Event} (h : Chain t a w b) :
    fires t w + (if b = .waiting then 1 else 0) ≤ (if a = .waiting then 1 else 0) + joinRetries t w := by
  induction h with
  | nil => simp [fires]
  | @change a b c w hopen hwait _ ih =>
    rw [fires_taskState_cons, joinRetries_taskState_cons]
    by_cases ha : a = .waiting <;> by_cases hb : b = .running <;> by_cases hw : b = .waiting <;> simp_all <;> omega
  | @delay a c w _ ih =>
    rw [fires_taskState_cons, joinRetries_taskState_cons]
    simp only [reduceCtorEq, if_false, and_false] at ih ⊢
    omega
  | @retry a b c wf w hdone hb _ ih =>
    have hfire : fires t (.retried t b wf :: .taskState t a b :: w) = fires t w := by
      have : a ≠ .waiting := by
        rintro rfl
        simp at hdone
      simp [fires, this]
    have hretry : joinRetries t (.retried t b wf :: .taskState t a b :: w) =
        joinRetries t w + if b = .waiting then 1 else 0 := by
      rcases hb with rfl | rfl <;> simp [joinRetries, Event.isJoinRetry]
    rw [hfire, hretry]
    omega

theorem Move.fires_le {v v' : Option View} {w : List Event} (h : Move sc t v w v') :
    fires t w + chances v' ≤ chances v + joinRetries t w + defers t w := by
  cases h with
  | create =>
    have : fires t [.taskCreated t] = 0 := by simp [fires]
    simp only [chances]
    split <;> omega
  | attempt hown hopen hc =>
    have := hc.fires_le
    simp only [chances]
    omega
  | @change v b hown hopen hwait =>
    have := (Chain.change (t := t) hopen hwait (.nil b)).fires_le
    simp only [chances]
    omega
  | reopen | revive =>
    rw [fires_taskState_cons]
    simp [chances, fires]
    split <;> omega
  | _ => simp_all [fires, joinRetries, defers, chances, Event.isJoinRetry, Event.isDefer]

theorem Path.fires_le {v v' : Option View} {w : List Event} (h : Path sc t v w v') :
    fires t w + chances v' ≤ chances v + joinRetries t w + defers t w := by
  induction h with
  | nil v => simp [fires, joinRetries, defers]
  | cons head _ ih =>
    have := head.fires_le
    simp only [fires_append, joinRetries_append, defers_append]
    omega

/-! ### Runs -/

/-- A request about the execution `t` itself. What the completion of an inbound task leads to is not: the
    refresh of `t`, and the message for its first start. -/
def Request.IsOwn (t : TaskId) (r : Request) : Prop :=
  r.task = some t ∧ r ≠ .runJob (.refreshTaskState t) ∧ ∀ m, r = .startTask m → m.firstRun = false

/-- In every run of guarded steps, the execution of a join leaves `WAITING` to run once, and once more for each
    retry. When it has left `WAITING`, only steps of its own change its state or schedule an action. -/
def JoinFiresOnce (spec : WorkflowSpec) (ls : ListSort) (guard : Engine → Request × Oracle → Prop) : Prop :=
  ∀ s t v, (engine spec ls).Reach guard s → s.view t = some v → (∃ ts, spec.getTask v.name = some ts ∧ ts.isJoin) →
    fires t s.trace ≤ 1 + joinRetries t s.trace ∧
    ∀ l, guard s l → ¬l.1.IsOwn t → v.state ≠ .waiting → v.state ≠ .idle →
      (∃ v', (step spec ls s l).view t = some v' ∧ v'.state = v.state) ∧
      ∀ i, .actionScheduled t i ∉ newEvents spec ls s l

/-- No command to run a join finds its execution in another state than `WAITING`, and no refresh finds it
    delayed by a policy or paused. -/
def JoinsLeftAlone (spec : WorkflowSpec) (ls : ListSort) (s : Engine) (l : Request × Oracle) : Prop :=
  (∀ t st, .deferred t st ∉ newEvents spec ls s l) ∧
  ∀ t v, l.1 = .runJob (.refreshTaskState t) → s.view t = some v → v.state ≠ .runningDelayed ∧ v.state ≠ .paused

/-- Every chance to fire is the first one, comes from a retry, or from a command that found the join in
    another state. -/
theorem fires_reach {guard : Engine → Request × Oracle → Prop} {s : Engine} (h : (engine spec ls).Reach guard s)
    (t : TaskId) : fires t s.trace + chances (s.view t) ≤ 1 + joinRetries t s.trace + defers t s.trace := by
  refine h.invariant (I := fun s => fires t s.trace + chances (s.view t) ≤ 1 + joinRetries t s.trace + defers t s.trace)
    ?_ fun s l hr ih _ => ?_
  · rintro s ⟨wfId, isSub, rfl⟩
    simp [Engine.initial, Engine.view, fires, joinRetries, defers, chances]
  · obtain ⟨htrace, hpath⟩ := stepped_newEvents spec ls (reach_JobsOk hr) l
    have := (hpath t).fires_le
    rw [fires_about, joinRetries_about, defers_about] at this
    rw [engine_step, htrace, fires_append, joinRetries_append, defers_append]
    omega

theorem defers_reach {guard : Engine → Request × Oracle → Prop}
    (hg : ∀ s l, guard s l → ∀ t st, .deferred t st ∉ newEvents spec ls s l) {s : Engine}
    (h : (engine spec ls).Reach guard s) (t : TaskId) : defers t s.trace = 0 := by
  refine h.invariant (I := fun s => defers t s.trace = 0) ?_ fun s l hr ih hl => ?_
  · rintro s ⟨wfId, isSub, rfl⟩
    rfl
  · rw [engine_step, (stepped_newEvents _ _ (reach_JobsOk hr) l).1, defers_append, ih, Nat.zero_add, defers, List.countP_eq_zero]
    intro ev hev
    cases ev with
    | deferred u st => exact absurd hev (hg s l hl u st)
    | _ => simp [Event.isDefer]

/-! ### Steps of other tasks -/

/-- A step that is not about `t` and does not defer it leaves `t` in its state. -/
theorem Path.keeps_state {v v' : Option View} {w : List Event} (h : Path sc t v w v') (hown : sc.own ≠ some t)
    (hdefer : ∀ st, .deferred t st ∉ w) {x : View} (hx : v = some x) (hw : x.state ≠ .waiting) :
    (∃ x', v' = some x' ∧ x'.state = x.state) ∧ ∀ i, .actionScheduled t i ∉ w := by
  induction h generalizing x with
  | nil => exact ⟨⟨x, hx, rfl⟩, by simp⟩
  | @cons v v' v'' w w' head _ ih =>
    subst hx
    simp only [List.mem_append, not_or] at hdefer ⊢
    have hrest : ∀ {x'}, v' = some x' → x'.state = x.state → (∀ i, .actionScheduled t i ∉ w) →
        (∃ x'', v'' = some x'' ∧ x''.state = x.state) ∧ ∀ i, .actionScheduled t i ∉ w ∧ .actionScheduled t i ∉ w' :=
      fun hx' hs hi =>
        have ⟨⟨x'', hx'', hs'⟩, hi'⟩ := ih (fun st => (hdefer st).2) hx' (hs ▸ hw)
        ⟨⟨x'', hx'', hs'.trans hs⟩, fun i => ⟨hi i, hi' i⟩⟩
    cases head with
    | defer => exact absurd List.mem_cons_self (hdefer _).1
    | rewait hstate => exact absurd hstate hw
    | continued | marked => exact hrest rfl rfl (by simp)
    | change h | attempt h | reopen h | revive h | scheduled h | requested h => exact absurd h hown

/-- A first start finds the task in another state than `IDLE`. -/
theorem same_runTask {s : Engine} {e : TaskEx} {m : StartTask} (hm : m.firstRun = true) (he : s.tasks[m.taskEx]? = some e)
    (hidle : e.state ≠ .idle) : Ends (runTask spec ls o m) s (fun _ => SameTasks s) fun _ _ => True := by
  unfold runTask taskSpecOf
  simp only [bind_assoc]
  rw [Ends.bind_iff, taskEx_iff]
  refine ⟨fun e' he' => ?_, fun _ => trivial⟩
  split
  case h_2 => exact trivial
  simp only [pure_bind, Bool.false_and, Bool.false_eq_true, if_false, handling, run, runNew, hm, if_true, Ends.bind_iff,
    Ends.tryCatch_iff, taskEx_iff]
  refine ⟨fun e'' he'' => ?_, fun hn => by simp [he] at hn⟩
  obtain rfl := Option.some.inj (he.symm.trans he'')
  rw [if_neg (by simpa [State.isIdle] using hidle)]
  exact same_checkAffectedTasks _

theorem same_refreshTaskState {s : Engine} {e : TaskEx} (he : s.tasks[t]? = some e)
    (hdone : e.state.isCompleted ∨ e.state = .running) :
    Ends (refreshTaskState spec ls o t) s (fun _ => SameTasks s) fun _ _ => True := by
  unfold refreshTaskState
  rw [Ends.bind_iff, taskEx_iff]
  refine ⟨fun e' he' => ?_, fun _ => trivial⟩
  obtain rfl := Option.some.inj (he.symm.trans he')
  rw [if_pos (by simpa using hdone)]
  exact ⟨rfl, rfl⟩

/-- The refresh and the first start of a join that has left `WAITING` change no task. -/
theorem step_same_of_not_own (spec : WorkflowSpec) (ls : ListSort) {s : Engine} {l : Request × Oracle} {v : View} (hv : s.view t = some v)
    (htask : l.1.task = some t) (hown : ¬l.1.IsOwn t) (hw : v.state ≠ .waiting) (hidle : v.state ≠ .idle)
    (hrefresh : l.1 = .runJob (.refreshTaskState t) → v.state ≠ .runningDelayed ∧ v.state ≠ .paused) :
    SameTasks s (step spec ls s l) := by
  obtain ⟨e, he, rfl⟩ := Engine.row_of_view hv
  refine step_same fun s₀ htake => ?_
  rw [← (take_eq htake).1] at he
  obtain ⟨r, o⟩ := l
  by_cases hr : r = .runJob (.refreshTaskState t)
  · obtain ⟨hdelayed, hpaused⟩ := hrefresh hr
    subst hr
    refine same_refreshTaskState he ?_
    simp only [TaskEx.view] at hw hidle hdelayed hpaused
    cases hs : e.state <;> simp_all
  · simp only [Request.IsOwn, htask, true_and, not_and, not_forall, Bool.not_eq_false] at hown
    obtain ⟨m, rfl, hm⟩ := hown hr
    cases htask
    exact same_runTask hm he hidle

/-- In every run in which joins are left alone, a join fires once. -/
theorem join_fires_once (spec : WorkflowSpec) (ls : ListSort) : JoinFiresOnce spec ls (JoinsLeftAlone spec ls) := by
  intro s t v hr hv _
  refine ⟨?_, fun l hg hown hw hidle => ?_⟩
  · have := fires_reach hr t
    rw [defers_reach (fun _ _ h => h.1) hr] at this
    omega
  by_cases htask : l.1.task = some t
  · have hsame := step_same_of_not_own spec ls hv htask hown hw hidle fun h => hg.2 t v h hv
    refine ⟨⟨v, (view_eq_of_tasks hsame.1 t).trans hv, rfl⟩, fun i hi => ?_⟩
    rw [newEvents, hsame.2, List.drop_length] at hi
    cases hi
  · have hpath := (stepped_newEvents spec ls (reach_JobsOk hr) l).2 t
    obtain ⟨hstate, hact⟩ := hpath.keeps_state htask (fun st h => hg.1 t st (List.mem_filter.mp h).1) hv hw
    exact ⟨hstate, fun i hi => hact i (List.mem_filter.mpr ⟨hi, by simp [Event.about, Event.task]⟩)⟩

/-! ### A late inbound task -/

/-- `join: one` after two start tasks. -/
def joinOneSpec : WorkflowSpec where
  tasks := [{ name := "a", onSuccess := [{ name := "j" }] }, { name := "b", onSuccess := [{ name := "j" }] },
    { name := "j", join := some .one }]

def startOf (t : TaskId) : Request := .startTask ⟨t, true, false, none, false, false⟩

/-- Both tasks are started, `a` completes, and a refresh puts the join into `RUNNING`. -/
def oneBranchRun : List (Request × Oracle) :=
  [(.start, {}), (startOf 0, {}), (startOf 1, {}), (.actionResult 0 0 (.success none), {}), (.scheduleIfNeeded 2 false, {}),
    (.runJob (.refreshTaskState 2), {})]

/-- Then `b` completes, and puts the running join back to `WAITING`. -/
theorem late_inbound_task_resets_join : ¬JoinFiresOnce joinOneSpec default fun _ _ => True := by
  intro h
  have hreach : (engine joinOneSpec default).Reach (fun _ _ => True)
      ((engine joinOneSpec default).run (.initial "w" false) oneBranchRun) :=
    .run (.init ⟨"w", false, rfl⟩) (by simp [oneBranchRun, System.Guarded])
  obtain ⟨-, hkept⟩ := h _ 2 ⟨"j", some "join-task-w-j", .running, false⟩ hreach (by decide) ⟨_, rfl, rfl⟩
  have := (hkept (.actionResult 1 0 (.success none), {}) trivial (by simp [Request.IsOwn, Request.task]) (by decide)
    (by decide)).1
  revert this
  decide

end Mistral
