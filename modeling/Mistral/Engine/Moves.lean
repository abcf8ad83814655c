import Mistral.Engine.Step

/-! What a transaction can do to one task execution: a path of moves, each of which the trace records. -/

namespace Mistral

/-! ### Views -/

/-- The part of a task execution that moves change or rely on. -/
structure View where
  name : String
  key : Option String
  state : State
  processed : Bool
  deriving DecidableEq, Repr

/-- The view of a row. -/
def TaskEx.view (e : TaskEx) : View := ⟨e.name, e.uniqueKey, e.state, e.processed⟩

/-- The view of a task execution. -/
def Engine.view (s : Engine) (t : TaskId) : Option View := s.tasks[t]?.map TaskEx.view

namespace Event

/-- The task execution that an event is about. -/
def task : Event → Option TaskId
  | taskState t _ _ | taskCreated t | deferred t _ | actionScheduled t _ | retried t _ _ | continued t _ _ _
  | marked t | rerunRequested t => some t
  | wfState _ _ | resultSent _ | selected _ _ | dispatched _ => none

/-- The event is about the task execution. -/
def about (t : TaskId) (ev : Event) : Bool := ev.task == some t

end Event

/-- Events about `t` can be counted among those that are about `t`. -/
theorem countP_about {t : TaskId} {p : Event → Bool} (hp : ∀ ev, p ev → ev.task = some t) (es : List Event) :
    (es.filter (·.about t)).countP p = es.countP p := by
  rw [List.countP_filter]
  refine List.countP_congr fun ev _ => ?_
  simp only [Bool.and_eq_true, and_iff_left_iff_imp]
  exact fun h => by simp [Event.about, hp ev h]

/-! ### Moves -/

/-- What a step is about: `own` is its task, `revives` says that a delayed job continues the task although it
    is completed, `loses` that it reopens a completed task that is not processed, `whole` that the step starts,
    resumes or reruns the workflow, and `marks` that it marks completed tasks as processed whose commands it
    does not dispatch. `reruns` is the task that it asks to rerun. -/
structure Scope where
  own : Option TaskId := none
  revives : Prop := False
  loses : Prop := False
  whole : Prop := False
  marks : Prop := False
  reruns : Option TaskId := none

/-- The states that a task goes through while `complete` sets its state and the policies look at it. -/
inductive Chain (t : TaskId) : State → List Event → State → Prop
  | nil (a : State) : Chain t a [] a
  | change {a b c : State} {w : List Event} (hopen : a.isCompleted → b.isCompleted) (hwait : b = .waiting → a = .waiting)
    (tail : Chain t b w c) : Chain t a (.taskState t a b :: w) c
  | delay {a c : State} {w : List Event} (tail : Chain t .runningDelayed w c) :
    Chain t a (.taskState t a .runningDelayed :: w) c
  | retry {a b c wf : State} {w : List Event} (hdone : a.isCompleted) (hb : b = .waiting ∨ b = .runningDelayed)
    (tail : Chain t b w c) : Chain t a (.retried t b wf :: .taskState t a b :: w) c

/-- One move of the task execution `t`, with the events that it leaves in the trace. -/
inductive Move (sc : Scope) (t : TaskId) : Option View → List Event → Option View → Prop
  | create {v : View} (hstate : v.state = .idle ∧ v.key = none ∨ v.state = .waiting) (hp : v.processed = false) :
    Move sc t none [.taskCreated t] (some v)
  | defer {v : View} (hstate : v.state ≠ .waiting) (hkey : v.key ≠ none) :
    Move sc t (some v) [.deferred t v.state, .taskState t v.state .waiting] (some { v with state := .waiting })
  | change {v : View} {b : State} (hown : sc.own = some t) (hopen : v.state.isCompleted → b.isCompleted)
    (hwait : b = .waiting → v.state = .waiting) :
    Move sc t (some v) [.taskState t v.state b] (some { v with state := b })
  | attempt {v : View} {b : State} {w : List Event} (hown : sc.own = some t) (hopen : ¬v.state.isCompleted)
    (hc : Chain t v.state w b) : Move sc t (some v) w (some { v with state := b })
  | rewait {v : View} (hstate : v.state = .waiting) : Move sc t (some v) [.taskState t .waiting .waiting] (some v)
  | reopen {v : View} (hown : sc.own = some t) (h : v.state.isCompleted → v.processed = false → sc.loses) :
    Move sc t (some v) [.taskState t v.state .running] (some { v with state := .running, processed := false })
  | revive {v : View} (hown : sc.own = some t) (h : sc.revives) :
    Move sc t (some v) [.taskState t v.state .running] (some { v with state := .running })
  | continued {v : View} {wf : State} (h : sc.own = some t ∨ sc.whole ∧ v.state.isCompleted) :
    Move sc t (some v) [.continued t v.state v.processed wf] (some { v with processed := true })
  | marked {v : View} (h : sc.marks) (hdone : v.state.isCompleted) (hp : v.processed = false) :
    Move sc t (some v) [.marked t] (some { v with processed := true })
  | scheduled {v : Option View} {i : Nat} (hown : sc.own = some t) : Move sc t v [.actionScheduled t i] v
  | requested {v : Option View} (hown : sc.own = some t) : Move sc t v [.rerunRequested t] v

/-- Moves one after another. -/
inductive Path (sc : Scope) (t : TaskId) : Option View → List Event → Option View → Prop
  | nil (v : Option View) : Path sc t v [] v
  | cons {v v' v'' : Option View} {w w' : List Event} (head : Move sc t v w v') (tail : Path sc t v' w' v'') :
    Path sc t v (w ++ w') v''

variable {sc : Scope} {t : TaskId}

theorem Chain.append {a b c : State} {w w' : List Event} (h : Chain t a w b) (h' : Chain t b w' c) :
    Chain t a (w ++ w') c := by
  induction h with
  | nil => exact h'
  | change hopen hwait _ ih => exact .change hopen hwait (ih h')
  | delay _ ih => exact .delay (ih h')
  | retry hdone hb _ ih => exact .retry hdone hb (ih h')

theorem Path.single {v v' : Option View} {w : List Event} (h : Move sc t v w v') : Path sc t v w v' := by
  simpa using Path.cons h (.nil v')

theorem Path.append {v v' v'' : Option View} {w w' : List Event} (h : Path sc t v w v') (h' : Path sc t v' w' v'') :
    Path sc t v (w ++ w') v'' := by
  induction h with
  | nil => exact h'
  | cons head _ ih =>
    rw [List.append_assoc]
    exact .cons head (ih h')

/-- Every completed task is processed. -/
def Engine.Settled (s : Engine) : Prop := ∀ t v, s.view t = some v → v.state.isCompleted → v.processed

/-! ### Facts about every path -/

theorem Move.keeps_name {x : View} {v' : Option View} {w : List Event} (h : Move sc t (some x) w v') :
    ∃ x', v' = some x' ∧ x'.name = x.name ∧ x'.key = x.key := by
  cases h <;> exact ⟨_, rfl, rfl, rfl⟩

/-- A task execution does not go away, and keeps its name and its key. -/
theorem Path.keeps_name {v v' : Option View} {w : List Event} (h : Path sc t v w v') {x : View} (hx : v = some x) :
    ∃ x', v' = some x' ∧ x'.name = x.name ∧ x'.key = x.key := by
  induction h generalizing x with
  | nil => exact ⟨x, hx, rfl, rfl⟩
  | cons head _ ih =>
    subst hx
    obtain ⟨x', hx', hname, hkey⟩ := head.keeps_name
    obtain ⟨x'', hx'', hname', hkey'⟩ := ih hx'
    exact ⟨x'', hx'', hname'.trans hname, hkey'.trans hkey⟩

/-! ### What a computation does to all task executions -/

/-- The jobs that a step may schedule: jobs for its own task, and refreshes of joins. A delayed completion
    never asks for `SKIPPED` or `WAITING`. -/
def Scope.JobOk (sc : Scope) : Job → Prop
  | .refreshTaskState _ => True
  | .completeTask t state _ => sc.own = some t ∧ state ≠ .skipped ∧ state ≠ .waiting
  | .continueTask t | .failTaskIfIncomplete t _ | .onActionComplete t _ | .onActionUpdate t _ => sc.own = some t

def Scope.MessageOk (sc : Scope) (m : StartTask) : Prop := m.rerun → sc.reruns = some m.taskEx

/-- From `s` to `s'` every task execution follows a path, and the trace has exactly the events of these paths
    about it. The workflow starts to run, and leaves a state in which it is completed, only in a step that is about the
    whole workflow. -/
structure Evolves (sc : Scope) (s s' : Engine) : Prop where
  events : ∃ es, s'.trace = s.trace ++ es ∧ ∀ t, Path sc t (s.view t) (es.filter (·.about t)) (s'.view t)
  jobs : ∃ js, s'.jobs = s.jobs ++ js ∧ ∀ j ∈ js, sc.JobOk j
  messages : ∃ ms, s'.messages = s.messages ++ ms ∧ ∀ m ∈ ms, sc.MessageOk m
  wf : s'.wf.state = .running → s.wf.state = .running ∨ sc.whole
  done : s.wf.state.isCompleted → s'.wf.state = s.wf.state ∨ sc.whole
  wfId : s'.wf.id = s.wf.id

namespace Evolves
variable {s s' s'' : Engine}

theorem refl (s : Engine) : Evolves sc s s where
  events := ⟨[], by simp, fun t => .nil _⟩
  jobs := ⟨[], by simp, by simp⟩
  messages := ⟨[], by simp, by simp⟩
  wf h := .inl h
  done _ := .inl rfl
  wfId := rfl

theorem trans (h : Evolves sc s s') (h' : Evolves sc s' s'') : Evolves sc s s'' := by
  obtain ⟨es, hes, hpath⟩ := h.events
  obtain ⟨es', hes', hpath'⟩ := h'.events
  obtain ⟨js, hjs, hok⟩ := h.jobs
  obtain ⟨js', hjs', hok'⟩ := h'.jobs
  obtain ⟨ms, hms, hmok⟩ := h.messages
  obtain ⟨ms', hms', hmok'⟩ := h'.messages
  refine ⟨⟨es ++ es', by rw [hes', hes, List.append_assoc], fun t => ?_⟩,
    ⟨js ++ js', by rw [hjs', hjs, List.append_assoc], fun j hj => ?_⟩,
    ⟨ms ++ ms', by rw [hms', hms, List.append_assoc], fun m hm => ?_⟩, fun hr => ?_, fun hd => ?_, h'.wfId.trans h.wfId⟩
  · rw [List.filter_append]
    exact (hpath t).append (hpath' t)
  · exact (List.mem_append.mp hj).elim (hok j) (hok' j)
  · exact (List.mem_append.mp hm).elim (hmok m) (hmok' m)
  · exact (h'.wf hr).elim h.wf .inr
  · rcases h.done hd with heq | hwhole
    · exact heq ▸ h'.done (heq ▸ hd)
    · exact .inr hwhole

/-- Nothing that the moves are about has changed. -/
theorem of_eq (htrace : s'.trace = s.trace) (hview : ∀ t, s'.view t = s.view t) (hjobs : s'.jobs = s.jobs)
    (hmessages : s'.messages = s.messages) (hwf : s'.wf = s.wf) : Evolves sc s s' where
  events := ⟨[], by simp [htrace], fun t => by rw [hview]; exact .nil _⟩
  jobs := ⟨[], by simp [hjobs], by simp⟩
  messages := ⟨[], by simp [hmessages], by simp⟩
  wf h := .inl (by rwa [hwf] at h)
  done _ := .inl (by rw [hwf])
  wfId := by rw [hwf]

/-- One move of one task execution. -/
theorem of_move {w : List Event} (hmove : Move sc t (s.view t) w (s'.view t)) (hw : ∀ ev ∈ w, ev.task = some t)
    (htrace : s'.trace = s.trace ++ w) (hview : ∀ u ≠ t, s'.view u = s.view u) (hjobs : s'.jobs = s.jobs)
    (hmessages : s'.messages = s.messages) (hwf : s'.wf = s.wf) : Evolves sc s s' where
  events := by
    refine ⟨w, htrace, fun u => ?_⟩
    rcases eq_or_ne u t with rfl | hu
    · rw [List.filter_eq_self.mpr fun ev hev => by simp [Event.about, hw ev hev]]
      exact .single hmove
    · rw [List.filter_eq_nil_iff.mpr fun ev hev => by simp [Event.about, hw ev hev, Ne.symm hu], hview u hu]
      exact .nil _
  jobs := ⟨[], by simp [hjobs], by simp⟩
  messages := ⟨[], by simp [hmessages], by simp⟩
  wf h := .inl (by rwa [hwf] at h)
  done _ := .inl (by rw [hwf])
  wfId := by rw [hwf]

/-- The workflow changes its state, to `RUNNING` or from a completed state only in a step that is about all of it. -/
theorem of_wf {ev : Event} (hev : ev.task = none) (htrace : s'.trace = s.trace ++ [ev])
    (hview : ∀ t, s'.view t = s.view t) (hjobs : s'.jobs = s.jobs) (hmessages : s'.messages = s.messages)
    (hwf : s'.wf.state = .running → s.wf.state = .running ∨ sc.whole)
    (hdone : s.wf.state.isCompleted → s'.wf.state = s.wf.state ∨ sc.whole) (hid : s'.wf.id = s.wf.id) :
    Evolves sc s s' where
  events := ⟨[ev], htrace, fun t => by
    rw [hview, List.filter_eq_nil_iff.mpr (by simp [Event.about, hev])]
    exact .nil _⟩
  jobs := ⟨[], by simp [hjobs], by simp⟩
  messages := ⟨[], by simp [hmessages], by simp⟩
  wf := hwf
  done := hdone
  wfId := hid

theorem of_job {j : Job} (hj : sc.JobOk j) : Evolves sc s (s.addJob j) where
  events := ⟨[], by simp [Engine.addJob], fun t => .nil _⟩
  jobs := ⟨[j], rfl, by simpa using hj⟩
  messages := ⟨[], by simp [Engine.addJob], by simp⟩
  wf h := .inl h
  done _ := .inl rfl
  wfId := rfl

end Evolves
end Mistral
