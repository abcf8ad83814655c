import Mistral.Lib.Followed
import Mistral.Lib.Lists
import Mistral.Notifiers.TaskNotifications
import Mistral.Engine.Runs

/-! What is registered for a publisher that wants the events of a state tells when a task is in that state. -/

namespace Mistral
open Notifiers Followed

variable {spec : WorkflowSpec} {ls : ListSort} {sc : Scope} {t : TaskId}

/-! ### The changes of a task -/

/-- The change of the state of `t` that an event records. -/
def Event.change (t : TaskId) : Event → Option (State × State)
  | taskState u a b => if u = t then some (a, b) else none
  | _ => none

@[simp] theorem filterMap_change_taskState (t : TaskId) (a b : State) (es : List Event) :
    (Event.taskState t a b :: es).filterMap (Event.change t) = (a, b) :: es.filterMap (Event.change t) :=
  List.filterMap_cons_some (if_pos rfl)

/-- The changes of a task lead from the state that it was created in to its state. -/
def Traced (t : TaskId) (es : List Event) : Option View → Prop
  | none => es.filterMap (Event.change t) = []
  | some v => ∃ a, (a = .idle ∨ a = .waiting) ∧ Linked a (es.filterMap (Event.change t)) v.state

theorem filterMap_change_about (t : TaskId) (es : List Event) :
    (es.filter (·.about t)).filterMap (Event.change t) = es.filterMap (Event.change t) := by
  induction es with
  | nil => rfl
  | cons ev es ih =>
    by_cases h : ev.about t
    · rw [List.filter_cons_of_pos h, List.filterMap_cons, List.filterMap_cons, ih]
    · have hnone : ev.change t = none := by
        cases ev with
        | taskState u a b =>
          have hu : u ≠ t := by simpa [Event.about, Event.task] using h
          exact if_neg hu
        | _ => rfl
      rw [List.filter_cons_of_neg h, List.filterMap_cons_none hnone, ih]

/-- What is not about the task can be left out. -/
theorem Traced.of_about {v : Option View} {es es' : List Event} (h : Traced t (es ++ es'.filter (·.about t)) v) :
    Traced t (es ++ es') v := by
  have heq : (es ++ es'.filter (·.about t)).filterMap (Event.change t) = (es ++ es').filterMap (Event.change t) := by
    rw [List.filterMap_append, filterMap_change_about, List.filterMap_append]
  cases v with
  | none => exact heq.symm.trans h
  | some v =>
    obtain ⟨a, ha, hlinked⟩ := h
    exact ⟨a, ha, heq ▸ hlinked⟩

theorem Chain.linked {a b : State} {w : List Event} (h : Chain t a w b) :
    Linked a (w.filterMap (Event.change t)) b := by
  induction h with
  | nil a => exact .nil a
  | change _ _ _ ih | delay _ ih =>
    rw [filterMap_change_taskState]
    exact .cons ih
  | retry _ _ _ ih =>
    rw [List.filterMap_cons_none rfl, filterMap_change_taskState]
    exact .cons ih

theorem Move.linked {v : View} {v' : Option View} {w : List Event} (h : Move sc t (some v) w v') :
    ∃ x, v' = some x ∧ Linked v.state (w.filterMap (Event.change t)) x.state := by
  cases h with
  | attempt _ _ hc => exact ⟨_, rfl, hc.linked⟩
  | change | reopen | revive =>
    refine ⟨_, rfl, ?_⟩
    simpa using Linked.single _ _
  | rewait hstate =>
    refine ⟨_, rfl, ?_⟩
    simpa [hstate] using Linked.single State.waiting State.waiting
  | defer =>
    refine ⟨_, rfl, ?_⟩
    rw [List.filterMap_cons_none rfl]
    simpa using Linked.single _ _
  | continued | marked | scheduled | requested => exact ⟨_, rfl, .nil _⟩

theorem Move.traced {v v' : Option View} {w es : List Event} (h : Move sc t v w v') (hv : Traced t es v) :
    Traced t (es ++ w) v' := by
  cases v with
  | some v =>
    obtain ⟨x, rfl, hlinked⟩ := h.linked
    obtain ⟨a, ha, hes⟩ := hv
    refine ⟨a, ha, ?_⟩
    rw [List.filterMap_append]
    exact hes.append hlinked
  | none =>
    have hnone : es.filterMap (Event.change t) = [] := hv
    cases h with
    | @create x hstate hp =>
      refine ⟨x.state, hstate.imp And.left id, ?_⟩
      rw [List.filterMap_append, hnone]
      exact .nil _
    | scheduled | requested =>
      change (es ++ _).filterMap (Event.change t) = []
      rw [List.filterMap_append, hnone]
      rfl

theorem Path.traced {v v' : Option View} {w es : List Event} (h : Path sc t v w v') (hv : Traced t es v) :
    Traced t (es ++ w) v' := by
  induction h generalizing es with
  | nil => rwa [List.append_nil]
  | cons head _ ih =>
    rw [← List.append_assoc]
    exact ih (head.traced hv)

/-- In every run the trace leads each task from its creation to its state. -/
theorem traced_reach {guard : Engine → Request × Oracle → Prop} {s : Engine} (h : (engine spec ls).Reach guard s)
    (t : TaskId) : Traced t s.trace (s.view t) := by
  refine h.invariant (I := fun s => Traced t s.trace (s.view t)) ?_ fun s l hr ih _ => ?_
  · rintro s ⟨wfId, isSub, rfl⟩
    exact rfl
  · obtain ⟨htrace, hpath⟩ := stepped_newEvents spec ls (reach_JobsOk hr) l
    rw [engine_step, htrace]
    exact ((hpath t).traced ih).of_about

/-! ### What is registered for the publishers -/

variable {publishers : List PublisherEntry} {p : Publisher} {log : List Notification} {es : List Event}

/-- What `set_state` registers of a change: only a first start is not identified by the state that the task comes
    from. -/
inductive Identified : State × State → Option TaskEvent × State → Prop
  | first : Identified (.idle, .running) (some .launched, .running)
  | change (a b : State) : Identified (a, b) (identifyTaskEvent (some a) b, b)

/-- What is registered of a change for a publisher. -/
def Notifiers.Publisher.gets (publishers : List PublisherEntry) (p : Publisher) (n : Option TaskEvent × State) :
    List (Option TaskEvent × State) :=
  if p.hasType && p.wants n.1 then List.replicate (publishers.count (.dict p)) n else []

theorem count_publisher? (publishers : List PublisherEntry) (p : Publisher) :
    (publishers.filterMap PublisherEntry.publisher?).count p = publishers.count (.dict p) := by
  induction publishers with
  | nil => rfl
  | cons entry publishers ih =>
    cases entry with
    | dict q =>
      have hcons : ((PublisherEntry.dict q :: publishers).filterMap PublisherEntry.publisher?) =
          q :: publishers.filterMap PublisherEntry.publisher? := rfl
      rw [hcons, List.count_cons, List.count_cons, ih]
      simp
    | other =>
      rw [List.filterMap_cons_none rfl, ih, List.count_cons_of_ne (by simp)]

theorem registeredFor_notify (publishers : List PublisherEntry) (p : Publisher) (t : TaskId) (fromState : Option State)
    (b : State) :
    registeredFor p t (notify publishers t fromState b) = p.gets publishers (identifyTaskEvent fromState b, b) := by
  rw [registeredFor, notify, List.filterMap_map, List.filter_filter, Publisher.gets]
  set event := identifyTaskEvent fromState b
  have hcontent : (fun n : Notification => n.content p t) ∘
      (fun q => { publisher := q, task := t, event, state := b : Notification }) =
      fun q => if q = p then some (event, b) else none := by
    funext q
    simp [Notification.content]
  rw [hcontent, Lists.filterMap_eq_replicate]
  split
  next h =>
    rw [List.count_filter (p := fun a : Publisher => a.hasType && a.wants event) h, count_publisher?]
  next h =>
    have hp : p ∉ (publishers.filterMap PublisherEntry.publisher?).filter fun a => a.hasType && a.wants event :=
      fun hmem => h (List.mem_filter.mp hmem).2
    rw [List.count_eq_zero.mpr hp, List.replicate_zero]

theorem registeredFor_notify_of_ne {u : TaskId} (h : u ≠ t) (fromState : Option State) (b : State) :
    registeredFor p t (notify publishers u fromState b) = [] := by
  refine List.filterMap_eq_nil_iff.mpr fun n hn => ?_
  obtain ⟨x, -, rfl⟩ := List.mem_map.mp hn
  exact if_neg fun hn => h hn.2

/-- One list of notices says what is registered about `t` for every publisher. -/
theorem exists_notices (t : TaskId) (hlog : Logged (Registers publishers) es log) :
    ∃ ns, List.Forall₂ Identified (es.filterMap (Event.change t)) ns ∧
      ∀ p, registeredFor p t log = ns.flatMap (p.gets publishers) := by
  refine hlog.exists_notices (fun ev m hadds hnone p => ?_) fun ev c m hadds hsome => ?_
  · cases hadds with
    | first u | change u =>
      have hu : u ≠ t := fun hu => by simp [Event.change, hu] at hnone
      exact registeredFor_notify_of_ne hu _ _
    | other => rfl
  · cases hadds with
    | first u =>
      rw [Event.change] at hsome
      split at hsome <;> cases hsome
      next hu => exact ⟨_, .first, fun p => hu ▸ registeredFor_notify publishers p u none .running⟩
    | change u a b =>
      rw [Event.change] at hsome
      split at hsome <;> cases hsome
      next hu => exact ⟨_, .change a b, fun p => hu ▸ registeredFor_notify publishers p u (some a) b⟩
    | @other ev h =>
      cases ev with
      | taskState u a b => exact absurd rfl (h u a b)
      | _ => cases hsome

/-- The publisher wants every event of a change to the state `q`. -/
def Notifiers.Publisher.Follows (p : Publisher) (q : State) : Prop :=
  ∀ fromState, p.wants (identifyTaskEvent fromState q)

theorem Identified.content {c : State × State} {n : Option TaskEvent × State} (h : Identified c n) :
    n.2 = c.2 ∧ ∃ fromState, n.1 = identifyTaskEvent fromState c.2 := by
  cases h with
  | first => exact ⟨rfl, none, rfl⟩
  | change a b => exact ⟨rfl, some a, rfl⟩

theorem getLast?_gets (ns : List (Option TaskEvent × State)) (hp : .dict p ∈ publishers) (htype : p.hasType)
    {n : Option TaskEvent × State} (hwants : p.wants n.1) :
    ((ns ++ [n]).flatMap (p.gets publishers)).getLast? = some n := by
  have hgets : p.gets publishers n = List.replicate (publishers.count (.dict p)) n := if_pos (by simp [htype, hwants])
  have hcount : publishers.count (.dict p) ≠ 0 := (List.count_pos_iff.mpr hp).ne'
  have hne : p.gets publishers n ≠ [] := by simpa [hgets] using hcount
  rw [List.flatMap_append, List.flatMap_singleton, List.getLast?_append_of_ne_nil _ hne, hgets,
    List.getLast?_replicate, if_neg hcount]

/-- What is registered for all publishers about the task `t`, which is in the state `q`, comes from one list of notices,
    one for each change of its state in order, from the state that it was created in to `q`: for a publisher those with
    the events that it wants. So if it wants the events of `q`, the last notification registered for it tells of `q`
    (or of no state, if no event does), and if there is none, the task is as it was created. -/
def TaskNotified (publishers : List PublisherEntry) (s : Engine) (log : List Notification) (t : TaskId) (q : State) : Prop :=
  ∃ a ns, (a = .idle ∨ a = .waiting) ∧ Linked a (s.trace.filterMap (Event.change t)) q ∧
    List.Forall₂ Identified (s.trace.filterMap (Event.change t)) ns ∧
    ∀ p, registeredFor p t log = ns.flatMap (p.gets publishers) ∧
      (.dict p ∈ publishers → p.hasType → p.Follows q →
        registeredFor p t log = [] ∧ (q = .idle ∨ q = .waiting) ∨
        ∃ event, (registeredFor p t log).getLast? = some (event, q) ∧ (∀ ev, event = some ev → ev.state = q) ∧
          (event = none ↔ q ∈ unnamedStates))

/-- In every run, what happens to a task is registered for the publishers. -/
theorem task_followed (spec : WorkflowSpec) (ls : ListSort) {guard : Engine → Request × Oracle → Prop} {s : Engine}
    (h : (engine spec ls).Reach guard s) (hlog : Logged (Registers publishers) s.trace log) {e : TaskEx}
    (he : s.tasks[t]? = some e) : TaskNotified publishers s log t e.state := by
  have hview : s.view t = some e.view := by rw [Engine.view, he, Option.map_some]
  have htraced := traced_reach h t
  rw [hview] at htraced
  obtain ⟨a, ha, hlinked⟩ := htraced
  obtain ⟨ns, hns, hgets⟩ := exists_notices t hlog
  refine ⟨a, ns, ha, hlinked, hns, fun p => ⟨hgets p, fun hp htype hfollows => ?_⟩⟩
  rw [hgets p]
  rcases hlinked.last_notice hns with ⟨rfl, rfl⟩ | ⟨ns', x, n, rfl, hn⟩
  · exact .inl ⟨rfl, ha⟩
  · obtain ⟨hstate, fromState, hevent⟩ : n.2 = e.state ∧ ∃ fromState, n.1 = identifyTaskEvent fromState e.state :=
      hn.content
    have hlast := getLast?_gets ns' hp htype (hevent ▸ hfollows fromState)
    refine .inr ⟨n.1, ?_, fun ev hev => state_of_identifyTaskEvent (hevent ▸ hev), ?_⟩
    · rw [hlast, ← hstate]
    · rw [hevent]
      exact identifyTaskEvent_none

/-! ### A task that succeeds -/

def succeededSpec : WorkflowSpec where
  tasks := [{ name := "greet" }]

def succeededRun : List (Request × Oracle) :=
  [(.start, {}), (.startTask ⟨0, true, false, none, false, false⟩, {}), (.actionResult 0 0 (.success none), {})]

/-- A publisher of the events that end a task. -/
def endsPublisher : Publisher where
  type := "webhook"
  eventTypes := ["TASK_SUCCEEDED", "TASK_FAILED", "TASK_CANCELLED", "TASK_SKIPPED"]

/-- The start of the task is not registered, its success is. -/
theorem success_registered :
    TaskNotified [.dict endsPublisher] ((engine succeededSpec default).run (.initial "w" false) succeededRun)
      [⟨endsPublisher, 0, some .succeeded, .success⟩] 0 .success := by
  have hreach : (engine succeededSpec default).Reach (fun _ _ => True)
      ((engine succeededSpec default).run (.initial "w" false) succeededRun) :=
    .run (.init ⟨"w", false, rfl⟩) (by simp [succeededRun, System.Guarded])
  have htrace : ((engine succeededSpec default).run (.initial "w" false) succeededRun).trace =
      [.wfState .idle .running, .dispatched (findStartCommands succeededSpec {}), .taskCreated 0, .taskState 0 .idle .running,
        .actionScheduled 0 0, .taskState 0 .running .success, .selected 0 [], .continued 0 .success false .running,
        .dispatched []] := by
    decide
  have hlog : Logged (Registers [.dict endsPublisher])
      ((engine succeededSpec default).run (.initial "w" false) succeededRun).trace
      [⟨endsPublisher, 0, some .succeeded, .success⟩] := by
    have hother : ∀ ev, (∀ t a b, ev ≠ .taskState t a b) → Registers [.dict endsPublisher] ev [] := fun _ => .other
    have hstart : Registers [.dict endsPublisher] (.taskState 0 .idle .running) [] := by
      have hnone : notify [.dict endsPublisher] 0 none .running = [] := by decide
      exact hnone ▸ .first 0
    have hend : Registers [.dict endsPublisher] (.taskState 0 .running .success)
        [⟨endsPublisher, 0, some .succeeded, .success⟩] := by
      have hone : notify [.dict endsPublisher] 0 (some .running) .success =
          [⟨endsPublisher, 0, some .succeeded, .success⟩] := by decide
      exact hone ▸ .change 0 .running .success
    rw [htrace]
    exact .cons (hother (.wfState .idle .running) (by simp)) <|
      .cons (hother (.dispatched (findStartCommands succeededSpec {})) (by simp)) <|
      .cons (hother (.taskCreated 0) (by simp)) <| .cons hstart <| .cons (hother (.actionScheduled 0 0) (by simp)) <|
      .cons hend <| .cons (hother (.selected 0 []) (by simp)) <|
      .cons (hother (.continued 0 .success false .running) (by simp)) <| .cons (hother (.dispatched []) (by simp)) .nil
  obtain ⟨e, he, hstate⟩ : ∃ e, ((engine succeededSpec default).run (.initial "w" false) succeededRun).tasks[0]? = some e ∧
      e.state = .success := by
    refine ⟨_, List.getElem?_eq_getElem (by decide), by decide⟩
  have htold := task_followed succeededSpec default hreach hlog he
  rwa [hstate] at htold

end Mistral
