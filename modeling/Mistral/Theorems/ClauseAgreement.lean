import Mistral.Theorems.PublishMerges
import Mistral.Workflow.DirectWorkflow

/-! Which on-clauses publish when a task is completed, and which ones lead to the next tasks. -/

namespace Mistral

/-- `OnClauseSpec`, in the simple form (without a publish section) or in the advanced one. -/
structure OnClause where
  publish : Option PublishScopes := none
  next : List Transition := []

/-- The on-clauses of a task, or of `task-defaults`. -/
structure OnClauses where
  onError : Option OnClause := none
  onSkip : Option OnClause := none
  onSuccess : Option OnClause := none
  onComplete : Option OnClause := none

namespace OnClauses
variable (cs : OnClauses)

def get : Clause → Option OnClause
  | .onError => cs.onError
  | .onSkip => cs.onSkip
  | .onSuccess => cs.onSuccess
  | .onComplete => cs.onComplete

def next (event : Clause) : List Transition := ((cs.get event).map (·.next)).getD []

def publish (event : Clause) : Option PublishScopes := (cs.get event).bind (·.publish)

end OnClauses

/-- The part of `DirectWorkflowTaskSpec` that publishes and that leads to the next tasks. -/
structure DirectTask where
  name : String
  own : OnClauses := {}
  publish : Dict := []
  publishOnError : Dict := []
  publishOnSkip : Dict := []

/-- The tasks of a direct workflow with the clauses of its task defaults. -/
structure DirectWorkflow where
  tasks : List DirectTask
  defaults : Option OnClauses := none
  nodup : (tasks.map (·.name)).Nodup

def DirectTask.taskSpec (t : DirectTask) : TaskSpec where
  name := t.name
  onError := t.own.next .onError
  onSkip := t.own.next .onSkip
  onSuccess := t.own.next .onSuccess
  onComplete := t.own.next .onComplete

def DirectTask.publishing (t : DirectTask) : TaskPublishing where
  publish := t.publish
  publishOnError := t.publishOnError
  publishOnSkip := t.publishOnSkip
  onError := t.own.publish .onError
  onSkip := t.own.publish .onSkip
  onSuccess := t.own.publish .onSuccess
  onComplete := t.own.publish .onComplete

def DirectWorkflow.spec (w : DirectWorkflow) : WorkflowSpec where
  tasks := w.tasks.map DirectTask.taskSpec
  taskDefaults := w.defaults.map fun d =>
    { onError := d.next .onError, onSkip := d.next .onSkip, onSuccess := d.next .onSuccess, onComplete := d.next .onComplete }
  nodup := by
    rw [List.map_map]
    exact w.nodup

/-- The publish section of an on-clause of the task. -/
def Clause.section : Clause → PublishSection
  | .onError => .onError
  | .onSkip => .onSkip
  | .onSuccess => .onSuccess
  | .onComplete => .onComplete

/-- Where an on-clause stands. -/
inductive ClauseOwner
  | task
  | defaults
  deriving DecidableEq, Repr

namespace DirectWorkflow
variable (w : DirectWorkflow) (t : DirectTask) (v : Evaluator)

/-- The on-clause at one of the two places. -/
def clauseOf : ClauseOwner → Clause → Option OnClause
  | .task, event => t.own.get event
  | .defaults, event => w.defaults.bind (·.get event)

/-- `get_on_error_clause` and its siblings. -/
def clauseFor : Clause → List Transition
  | .onError => w.spec.getOnErrorClause t.taskSpec
  | .onSkip => w.spec.getOnSkipClause t.taskSpec
  | .onSuccess => w.spec.getOnSuccessClause t.taskSpec
  | .onComplete => w.spec.getOnCompleteClause t.taskSpec

/-- Where the transitions of an event are taken from. -/
def source (event : Clause) : Option ClauseOwner :=
  match w.clauseOf t .task event, w.clauseOf t .defaults event with
  | some c, some _ => if c.next.isEmpty then some .defaults else some .task
  | some _, none => some .task
  | none, some _ => some .defaults
  | none, none => none

/-- The transitions of the clause at one of the two places. -/
def transitionsOf (owner : ClauseOwner) (event : Clause) : List Transition :=
  match w.clauseOf t owner event, owner with
  | none, _ => []
  | some c, .task => c.next
  | some c, .defaults => WorkflowSpec.removeTaskFromClause c.next t.name

/-- The events whose clauses `_find_next_tasks` goes over. -/
def events (st : State) : List Clause :=
  (if st = .error then [.onError] else []) ++ (if st = .skipped then [.onSkip] else []) ++
    (if st = .success ∨ st = .skipped ∧ triggered v .onSkip (w.clauseFor t .onSkip) = [] then [.onSuccess] else []) ++
    if st.isCompleted ∧ ¬st.isCancelledOrSkipped then [.onComplete] else []

/-- `_find_next_tasks` considers the transitions of this clause. -/
def Considers (st : State) (owner : ClauseOwner) (event : Clause) : Prop :=
  event ∈ w.events t v st ∧ w.source t event = some owner

/-- `get_publish` applies the publish section of this clause. -/
def Publishes (st : State) (owner : ClauseOwner) (event : Clause) : Prop :=
  owner = .task ∧ event.section ∈ t.publishing.sections st

/-- The clause has a publish section. -/
def HasPublish (owner : ClauseOwner) (event : Clause) : Prop := ((w.clauseOf t owner event).bind (·.publish)).isSome

/-- The clauses that publish are those that lead to the next tasks. A task that was skipped goes the way of a successful one
    if and only if no on-skip clause is specified. -/
structure Agree (st : State) : Prop where
  publish : ∀ owner event, w.HasPublish t owner event → (Publishes t st owner event ↔ w.Considers t v st owner event)
  skip : st = .skipped →
    (.onSuccess ∈ w.events t v st ↔ w.clauseOf t .task .onSkip = none ∧ w.clauseOf t .defaults .onSkip = none)

/-! ### What the clauses are -/

variable {w t v} {event : Clause} {owner : ClauseOwner}

theorem clauseFor_eq : w.clauseFor t event = match ((w.clauseOf t .task event).map (·.next)).getD [] with
    | [] => ((w.clauseOf t .defaults event).map fun c => WorkflowSpec.removeTaskFromClause c.next t.name).getD []
    | clause => clause := by
  have hclause : ∀ (own : TaskSpec → List Transition) (default : TaskDefaultsSpec → List Transition),
      w.spec.getClause own default t.taskSpec = match own t.taskSpec with
        | [] => (w.spec.taskDefaults.map fun d => WorkflowSpec.removeTaskFromClause (default d) t.name).getD []
        | clause => clause := fun own default => by
    unfold WorkflowSpec.getClause
    cases w.spec.taskDefaults <;> rfl
  have hdefaults : (w.defaults.map fun d => WorkflowSpec.removeTaskFromClause (d.next event) t.name).getD [] =
      ((w.clauseOf t .defaults event).map fun c => WorkflowSpec.removeTaskFromClause c.next t.name).getD [] := by
    unfold clauseOf OnClauses.next
    cases w.defaults with
    | none => rfl
    | some d => cases hd : d.get event <;> simp [hd, WorkflowSpec.removeTaskFromClause]
  rw [← hdefaults]
  cases event <;> exact (hclause _ _).trans (by rw [spec, Option.map_map]; rfl)

/-- The transitions that are considered are those of the source. -/
theorem clauseFor_source : w.clauseFor t event = match w.source t event with
    | some owner => w.transitionsOf t owner event
    | none => [] := by
  rw [clauseFor_eq, source]
  cases hown : w.clauseOf t .task event with
  | none => cases hdefault : w.clauseOf t .defaults event <;> simp [transitionsOf, hdefault]
  | some c =>
    cases hnext : c.next with
    | nil => cases hdefault : w.clauseOf t .defaults event <;> simp [transitionsOf, hown, hdefault, hnext]
    | cons tr next => cases w.clauseOf t .defaults event <;> simp [transitionsOf, hown, hnext]

/-- `_find_next_tasks` goes over the clauses of these events. -/
theorem findNextTasks_eq (w : DirectWorkflow) (t : DirectTask) (v : Evaluator) (st : State) :
    findNextTasks w.spec v t.taskSpec st = (w.events t v st).flatMap fun event => triggered v event (w.clauseFor t event) := by
  unfold findNextTasks events
  cases st <;> simp [clauseFor, State.isCancelledOrSkipped, State.isCancelled, State.isSkipped]
  split <;> simp

/-! ### What publishes -/

theorem hasPublish_task : w.HasPublish t .task event ↔ (t.own.publish event).isSome := .rfl

/-- The publish sections of on-clauses that `get_publish` applies: that of the state, and that of on-complete. -/
theorem section_mem_sections {st : State} (h : w.HasPublish t .task event) : event.section ∈ t.publishing.sections st ↔
    TaskPublishing.onClause st = some event.section ∨ event = .onComplete ∧ TaskPublishing.onClause st ≠ none := by
  have hhas : t.publishing.has event.section = true := by
    cases event <;> exact hasPublish_task.mp h
  have htask : event.section ∉ (t.publishing.taskSection st).toList := by
    unfold TaskPublishing.taskSection
    cases st <;> cases event <;> simp [Clause.section]
  unfold TaskPublishing.sections
  cases hclause : TaskPublishing.onClause st with
  | none => simp
  | some clause =>
    have hself : event.section ∈ (if t.publishing.has clause then [clause] else []) ↔ clause = event.section := by
      constructor
      · split
        · exact fun h => (List.mem_singleton.mp h).symm
        · exact fun h => absurd h List.not_mem_nil
      · rintro rfl
        rw [if_pos hhas]
        exact List.mem_singleton_self _
    have hcomplete : event.section ∈ (if t.publishing.has .onComplete then [PublishSection.onComplete] else []) ↔
        event = .onComplete := by
      constructor
      · split
        · cases event <;> simp [Clause.section]
        · exact fun h => absurd h List.not_mem_nil
      · rintro rfl
        rw [show t.publishing.has .onComplete = true from hhas]
        exact List.mem_singleton_self _
    simp only [List.mem_append, htask, or_false, hself, hcomplete, Option.some.injEq, ne_eq, reduceCtorEq, not_false_eq_true,
      and_true]

theorem forall_clause {P : Clause → Prop} : (∀ event, P event) ↔ P .onError ∧ P .onSkip ∧ P .onSuccess ∧ P .onComplete :=
  ⟨fun h => ⟨h _, h _, h _, h _⟩, fun ⟨herror, hskip, hsuccess, hcomplete⟩ event => by cases event <;> assumption⟩

/-- One event: a clause of the task publishes where it is followed, and one of `task-defaults` is not followed. -/
theorem publish_iff (w : DirectWorkflow) (t : DirectTask) (v : Evaluator) (st : State) (published considered : Clause → Prop)
    (hconsidered : ∀ event, event ∈ w.events t v st ↔ considered event)
    (hpublished : ∀ event, w.HasPublish t .task event → (event.section ∈ t.publishing.sections st ↔ published event)) :
    (∀ owner event, w.HasPublish t owner event → (Publishes t st owner event ↔ w.Considers t v st owner event)) ↔
    ∀ event, (w.HasPublish t .task event → (published event ↔ considered event ∧ w.source t event = some .task)) ∧
      (w.HasPublish t .defaults event → ¬(considered event ∧ w.source t event = some .defaults)) := by
  unfold Publishes Considers
  constructor
  · refine fun h event => ⟨fun hhas => ?_, fun hhas hfollowed => ?_⟩
    · have hevent := h .task event hhas
      rw [hconsidered, hpublished event hhas] at hevent
      exact ⟨fun hp => hevent.mp ⟨rfl, hp⟩, fun hc => (hevent.mpr hc).2⟩
    · have hevent := h .defaults event hhas
      rw [hconsidered] at hevent
      exact ClauseOwner.noConfusion (hevent.mpr hfollowed).1
  · intro h owner event hhas
    rw [hconsidered]
    cases owner with
    | task =>
      rw [hpublished event hhas, ← (h event).1 hhas]
      exact ⟨fun hp => hp.2, fun hp => ⟨rfl, hp⟩⟩
    | defaults => exact ⟨fun hp => ClauseOwner.noConfusion hp.1, fun hp => absurd hp ((h event).2 hhas)⟩

/-! ### When they agree -/

/-- For this event a clause of the task that publishes has transitions, or takes none from `task-defaults`, and a clause of
    `task-defaults` publishes only where the task has transitions of its own. -/
def OneSource (w : DirectWorkflow) (t : DirectTask) (event : Clause) : Prop :=
  (w.HasPublish t .task event → t.own.next event ≠ [] ∨ w.clauseOf t .defaults event = none) ∧
  (w.HasPublish t .defaults event → t.own.next event ≠ [])

theorem exists_clause (h : w.HasPublish t owner event) : ∃ c, w.clauseOf t owner event = some c := by
  obtain ⟨p, hp⟩ := Option.isSome_iff_exists.mp h
  obtain ⟨c, hc, -⟩ := Option.bind_eq_some_iff.mp hp
  exact ⟨c, hc⟩

theorem source_task_iff (h : w.HasPublish t .task event) :
    w.source t event = some .task ↔ t.own.next event ≠ [] ∨ w.clauseOf t .defaults event = none := by
  obtain ⟨c, hc⟩ := exists_clause h
  have hown : t.own.get event = some c := hc
  unfold source OnClauses.next
  rw [hc, hown]
  cases w.clauseOf t .defaults event <;> cases hnext : c.next <;> simp [hnext]

theorem source_defaults_iff (h : w.HasPublish t .defaults event) :
    w.source t event = some .defaults ↔ t.own.next event = [] := by
  obtain ⟨d, hd⟩ := exists_clause h
  unfold source OnClauses.next
  rw [hd, show w.clauseOf t .task event = t.own.get event from rfl]
  cases t.own.get event with
  | none => simp
  | some c => cases hnext : c.next <;> simp [hnext]

theorem oneSource_iff : OneSource w t event ↔ (w.HasPublish t .task event → w.source t event = some .task) ∧
    (w.HasPublish t .defaults event → w.source t event ≠ some .defaults) :=
  and_congr (forall_congr' fun h => (source_task_iff h).symm) (forall_congr' fun h => not_congr (source_defaults_iff h).symm)

/-- The condition under which publishing and transitions agree. -/
def ClausesFit (w : DirectWorkflow) (t : DirectTask) (v : Evaluator) : State → Prop
  | .success => OneSource w t .onSuccess ∧ OneSource w t .onComplete
  | .error => OneSource w t .onError ∧ OneSource w t .onComplete
  | .skipped => OneSource w t .onSkip ∧ ¬w.HasPublish t .task .onComplete ∧
    if w.clauseOf t .task .onSkip = none ∧ w.clauseOf t .defaults .onSkip = none then
      ∀ owner, w.HasPublish t owner .onSuccess → w.source t .onSuccess ≠ some owner
    else ∃ tr ∈ w.clauseFor t .onSkip, tr.cond = "" ∨ v.truth tr.cond
  | _ => False

theorem triggered_ne_nil (v : Evaluator) (event : Clause) {clause : List Transition} :
    triggered v event clause ≠ [] ↔ ∃ tr ∈ clause, tr.cond = "" ∨ v.truth tr.cond := by
  simp [triggered, List.filter_eq_nil_iff, or_iff_not_imp_left]

theorem agree_success : w.Agree t v .success ↔ ClausesFit w t v .success := by
  have hpublish := publish_iff w t v .success (fun e => e = .onSuccess ∨ e = .onComplete)
    (fun e => e = .onSuccess ∨ e = .onComplete)
    (fun e => by simp [events, State.isCancelledOrSkipped, State.isCancelled, State.isSkipped])
    fun e he => by rw [section_mem_sections he]; cases e <;> simp [TaskPublishing.onClause, Clause.section]
  refine ⟨fun h => ?_, fun h => ⟨hpublish.mpr ?_, nofun⟩⟩
  · have hall := forall_clause.mp (hpublish.mp h.publish)
    simp only [ClausesFit, oneSource_iff]
    simpa using hall
  · simp only [ClausesFit, oneSource_iff] at h
    exact forall_clause.mpr (by simpa using h)

theorem agree_error : w.Agree t v .error ↔ ClausesFit w t v .error := by
  have hpublish := publish_iff w t v .error (fun e => e = .onError ∨ e = .onComplete)
    (fun e => e = .onError ∨ e = .onComplete)
    (fun e => by simp [events, State.isCancelledOrSkipped, State.isCancelled, State.isSkipped])
    fun e he => by rw [section_mem_sections he]; cases e <;> simp [TaskPublishing.onClause, Clause.section]
  refine ⟨fun h => ?_, fun h => ⟨hpublish.mpr ?_, nofun⟩⟩
  · have hall := forall_clause.mp (hpublish.mp h.publish)
    simp only [ClausesFit, oneSource_iff]
    simpa using hall
  · simp only [ClausesFit, oneSource_iff] at h
    exact forall_clause.mpr (by simpa using h)

theorem agree_skipped : w.Agree t v .skipped ↔ ClausesFit w t v .skipped := by
  have hevents : Clause.onSuccess ∈ w.events t v .skipped ↔ triggered v .onSkip (w.clauseFor t .onSkip) = [] := by
    simp [events, State.isCancelledOrSkipped, State.isCancelled, State.isSkipped]
  have hpublish := publish_iff w t v .skipped (fun e => e = .onSkip ∨ e = .onComplete)
    (fun e => e = .onSkip ∨ triggered v .onSkip (w.clauseFor t .onSkip) = [] ∧ e = .onSuccess)
    (fun e => by simp [events, State.isCancelledOrSkipped, State.isCancelled, State.isSkipped])
    fun e he => by rw [section_mem_sections he]; cases e <;> simp [TaskPublishing.onClause, Clause.section]
  have hnone : w.clauseOf t .task .onSkip = none ∧ w.clauseOf t .defaults .onSkip = none →
      triggered v .onSkip (w.clauseFor t .onSkip) = [] := fun ⟨htask, hdefaults⟩ => by
    rw [clauseFor_eq, htask, hdefaults]
    rfl
  have hagree : w.Agree t v .skipped ↔ _ :=
    ⟨fun h => And.intro (hpublish.mp h.publish) (h.skip rfl), fun h => ⟨hpublish.mpr h.1, fun _ => h.2⟩⟩
  rw [hagree, forall_clause, hevents]
  simp only [ClausesFit, oneSource_iff, reduceCtorEq, false_or, or_false, or_true, and_false, and_true, true_iff, false_iff,
    false_and, true_and, not_false_eq_true, implies_true, iff_self]
  split
  next hspec =>
    -- No on-skip clause: the way of a successful task is taken, whose clauses must not publish.
    simp only [hspec, hnone hspec, true_and]
    constructor
    · rintro ⟨⟨hskip, ⟨htask, hdefaults⟩, hcomplete⟩, -⟩
      refine ⟨hskip, hcomplete, fun owner hhas => ?_⟩
      cases owner with
      | task => exact htask hhas
      | defaults => exact hdefaults hhas
    · rintro ⟨hskip, hcomplete, hsuccess⟩
      exact ⟨⟨hskip, ⟨hsuccess .task, hsuccess .defaults⟩, hcomplete⟩, trivial⟩
  next hspec =>
    -- An on-skip clause: one of its transitions has to hold.
    rw [← triggered_ne_nil v .onSkip]
    simp only [hspec, iff_false]
    constructor
    · rintro ⟨⟨hskip, -, hcomplete⟩, htriggered⟩
      exact ⟨hskip, hcomplete, htriggered⟩
    · rintro ⟨hskip, hcomplete, htriggered⟩
      exact ⟨⟨hskip, by simp [htriggered], hcomplete⟩, htriggered⟩

/-- The clauses that are considered are those that lead to the next tasks. -/
theorem mem_findNextTasks (w : DirectWorkflow) (t : DirectTask) (v : Evaluator) (st : State) {x : NextTask} :
    x ∈ findNextTasks w.spec v t.taskSpec st ↔
      ∃ owner event, w.Considers t v st owner event ∧ x ∈ triggered v event (w.transitionsOf t owner event) := by
  rw [findNextTasks_eq, List.mem_flatMap]
  constructor
  · rintro ⟨event, hevent, hx⟩
    rw [clauseFor_source] at hx
    cases hsource : w.source t event with
    | none =>
      rw [hsource] at hx
      cases hx
    | some owner =>
      rw [hsource] at hx
      exact ⟨owner, event, ⟨hevent, hsource⟩, hx⟩
  · rintro ⟨owner, event, ⟨hevent, hsource⟩, hx⟩
    refine ⟨event, hevent, ?_⟩
    rw [clauseFor_source, hsource]
    exact hx

/-- Publishing and transitions agree for a completed task exactly where its clauses fit. -/
theorem publishing_agrees_iff (w : DirectWorkflow) (t : DirectTask) (v : Evaluator) {st : State}
    (hst : st ∈ [State.success, .error, .skipped]) : w.Agree t v st ↔ ClausesFit w t v st := by
  simp only [List.mem_cons, List.not_mem_nil, or_false] at hst
  rcases hst with rfl | rfl | rfl
  · exact agree_success
  · exact agree_error
  · exact agree_skipped

/-- A task that publishes a variable and goes on to `t2` when it has succeeded. -/
def publishesOnSuccess : DirectTask where
  name := "t1"
  own := { onSuccess := some { publish := some { branch := some [("done", .value "true")] }, next := [{ name := "t2" }] } }

def onSuccessWorkflow : DirectWorkflow where
  tasks := [publishesOnSuccess, { name := "t2" }]
  nodup := by decide

theorem success_agrees : onSuccessWorkflow.Agree publishesOnSuccess {} .success := by
  refine (publishing_agrees_iff _ _ {} (by decide)).mpr ⟨⟨fun _ => .inr rfl, nofun⟩, nofun, nofun⟩

/-- Where the task was skipped it goes on to `t2`, and publishes nothing. -/
theorem skipped_publishes_nothing : ¬∀ (w : DirectWorkflow) (t : DirectTask) (v : Evaluator),
    ∀ st ∈ [State.success, .error, .skipped], w.Agree t v st := fun h => by
  have hagree := h onSuccessWorkflow publishesOnSuccess {} .skipped (by decide)
  have hpublishes := (hagree.publish .task .onSuccess rfl).mpr ⟨by decide, rfl⟩
  exact absurd hpublishes.2 (by decide)

end DirectWorkflow
end Mistral
