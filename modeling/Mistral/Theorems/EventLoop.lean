import Mistral.EventEngine.DefaultEventEngine

/-! The loop of the event engine, and the events that end it. -/

namespace Mistral
namespace EventEngine

/-! ### What an event is to start -/

/-- The trigger belongs to the project of the event. -/
def Event.ofProject (event : Event) (t : EventTrigger) : Bool :=
  (event.context.bind (·.lookup "project_id")).join == some t.projectId

/-- Of some triggers, those of the project of an event, and the public ones. -/
def Event.toStart (event : Event) (triggers : List EventTrigger) : List EventTrigger :=
  triggers.filter fun t => event.ofProject t ∨ t.scope = "public"

/-- The triggers that are registered for the type of an event. -/
def TriggersMap.registered (m : TriggersMap) (event : Event) : List EventTrigger :=
  match m.find? event with
  | none => []
  | some (_, triggers) => triggers

variable {Ctx : Type} (conf : EngineConf) (calls : Calls Ctx) (m : TriggersMap) (event : Event)

/-- The owners of the triggers and the project of the event are different, and no trigger is public. -/
def Skipped (context : List (String × Option String)) (triggers : List EventTrigger) : Prop :=
  conf.authEnable ∧ (∀ t ∈ triggers, t.scope ≠ "public") ∧
    ∀ t ∈ triggers, getContext context "project_id" (some "") ≠ some t.projectId

/-- The workflow of the trigger can be called. -/
def Callable (t : EventTrigger) : Prop :=
  t.workflowParams.isSome ∧ ∃ ctx, calls.createContext t.trustId t.projectId = .ok ctx

/-- The event has no triggers, or it has a context, and is skipped or can be converted for triggers that can be called. -/
def Harmless : Prop :=
  match m.find? event with
  | none => True
  | some (eventType, triggers) =>
    ∃ context, event.context = some context ∧ (Skipped conf context triggers ∨
      (∃ eventParams, convert conf calls eventType event = .ok eventParams) ∧
        ∀ t ∈ event.toStart triggers, Callable calls t)

variable {conf calls m event}

/-! ### An iteration -/

theorem startWorkflow_raises_iff {eventParams : Dict} {ts : List EventTrigger} :
    (startWorkflow calls eventParams ts).2 = false ↔ ∀ t ∈ ts, Callable calls t := by
  induction ts with
  | nil => simp [startWorkflow]
  | cons t ts ih =>
    rw [List.forall_mem_cons, ← ih, startWorkflow, Callable]
    cases t.workflowParams with
    | none => simp
    | some workflowParams =>
      cases calls.createContext t.trustId t.projectId with
      | error e => simp
      | ok ctx => simp

theorem startWorkflow_triggers {eventParams : Dict} {ts : List EventTrigger} (h : ∀ t ∈ ts, Callable calls t) :
    (startWorkflow calls eventParams ts).1.map (·.trigger) = ts := by
  induction ts with
  | nil => rfl
  | cons t ts ih =>
    obtain ⟨⟨hparams, ctx, hctx⟩, h⟩ := List.forall_mem_cons.mp h
    obtain ⟨workflowParams, hparams⟩ := Option.isSome_iff_exists.mp hparams
    rw [startWorkflow, hparams, hctx]
    exact congrArg _ (ih h)

/-- A skipped event has no triggers to start. -/
theorem not_ofProject_of_skipped {context : List (String × Option String)} {triggers : List EventTrigger}
    (hcontext : event.context = some context) (h : Skipped conf context triggers) :
    event.toStart triggers = [] := by
  rw [Event.toStart, List.filter_eq_nil_iff]
  intro t ht hstart
  rcases of_decide_eq_true hstart with hproject | hpublic
  · refine h.2.2 t ht ?_
    rw [Event.ofProject, hcontext, Option.bind_some, beq_iff_eq, Option.join_eq_some_iff] at hproject
    rw [getContext, hproject, Option.getD_some]
  · exact h.2.1 t ht hpublic

variable (conf) in
theorem chooseTriggers_eq {context : List (String × Option String)} (triggers : List EventTrigger)
    (hcontext : event.context = some context) :
    (Skipped conf context triggers ∧ chooseTriggers conf event.context triggers = .ok none) ∨
      (¬Skipped conf context triggers ∧ chooseTriggers conf event.context triggers =
        .ok (some (event.toStart triggers))) := by
  have hproject : ∀ t, (some t.projectId = getContext context "project_id" none) = (event.ofProject t = true) := by
    intro t
    rw [Event.ofProject, hcontext, Option.bind_some, beq_iff_eq, getContext, eq_iff_iff]
    cases context.lookup "project_id" with
    | none => simp
    | some project => exact eq_comm
  by_cases h : Skipped conf context triggers
  · refine .inl ⟨h, ?_⟩
    obtain ⟨hauth, hprivate, hother⟩ := h
    rw [hcontext, chooseTriggers]
    have hnone : triggers.any (·.scope = "public") = false := by simpa using hprivate
    have hnot : getContext context "project_id" (some "") ∉ triggers.map fun t => some t.projectId := by
      simpa [eq_comm] using hother
    simp [hnone, hnot, hauth]
    rfl
  · refine .inr ⟨h, ?_⟩
    rw [hcontext, chooseTriggers]
    simp only [hproject]
    rw [if_neg]
    · rfl
    · intro hskip
      simp only [Bool.and_eq_true, Bool.not_eq_true', List.any_eq_false, decide_eq_true_eq, List.mem_map, not_exists,
        not_and] at hskip
      exact h ⟨hskip.1.2, hskip.1.1, fun t ht he => hskip.2 t ht he.symm⟩

/-- An iteration starts what it is to start and does not raise iff the event is harmless. -/
theorem handleEvent_iff (hne : ∀ eventType, m eventType ≠ some []) :
    ((handleEvent conf calls m event).2 = false ∧
      (handleEvent conf calls m event).1.map (·.trigger) = event.toStart (m.registered event)) ↔
      Harmless conf calls m event := by
  unfold handleEvent Harmless TriggersMap.registered
  cases hfind : m.find? event with
  | none => simp [Event.toStart]
  | some found =>
    obtain ⟨eventType, triggers⟩ := found
    dsimp only
    cases hcontext : event.context with
    | none =>
      have hnil : triggers.isEmpty = false := by
        rw [List.isEmpty_eq_false_iff]
        rintro rfl
        obtain ⟨x, -, hx⟩ := Option.bind_eq_some_iff.mp hfind
        obtain ⟨y, hy, hxy⟩ := Option.map_eq_some_iff.mp hx
        obtain ⟨rfl, rfl⟩ := Prod.mk.inj hxy
        exact hne _ hy
      simp [chooseTriggers, hnil, throw, throwThe, MonadExceptOf.throw]
    | some context =>
      rw [← hcontext]
      rcases chooseTriggers_eq conf triggers hcontext with ⟨hskipped, h⟩ | ⟨hnot, h⟩
      · rw [h]
        exact ⟨fun _ => ⟨context, hcontext, .inl hskipped⟩,
          fun _ => ⟨rfl, (not_ofProject_of_skipped hcontext hskipped).symm⟩⟩
      · rw [h]
        dsimp only
        cases hconvert : convert conf calls eventType event with
        | error e =>
          refine ⟨nofun, ?_⟩
          rintro ⟨context', hcontext', hskipped | ⟨⟨_, hparams⟩, -⟩⟩
          · cases hcontext.symm.trans hcontext'
            exact absurd hskipped hnot
          · cases hparams
        | ok eventParams =>
          dsimp only
          rw [startWorkflow_raises_iff]
          constructor
          · rintro ⟨hcalls, -⟩
            exact ⟨context, hcontext, .inr ⟨⟨eventParams, rfl⟩, hcalls⟩⟩
          · rintro ⟨context', hcontext', hskipped | ⟨-, hcalls⟩⟩
            · cases hcontext.symm.trans hcontext'
              exact absurd hskipped hnot
            · exact ⟨hcalls, startWorkflow_triggers hcalls⟩

/-! ### The map -/

namespace TriggersMap
variable {m m' : TriggersMap} {t : EventTrigger}

theorem create_ne_nil (h : ∀ e, m e ≠ some []) (e : String) : m.create t e ≠ some [] := by
  unfold create
  split
  · exact h e
  · rw [Function.update_apply]
    split
    · simp
    · exact h e

theorem update_ne_nil (h : ∀ e, m e ≠ some []) (hupdate : m.update? t = some m') (e : String) : m' e ≠ some [] := by
  obtain ⟨triggers, htriggers, rfl⟩ := Option.map_eq_some_iff.mp hupdate
  rw [Function.update_apply]
  split
  · rw [ne_eq, Option.some_inj, List.map_eq_nil_iff]
    exact fun hnil => h t.event (hnil ▸ htriggers)
  · exact h e

theorem delete_ne_nil (h : ∀ e, m e ≠ some []) (hdelete : m.delete? t = some m') (e : String) : m' e ≠ some [] := by
  obtain ⟨triggers, htriggers, rfl⟩ := Option.map_eq_some_iff.mp hdelete
  split
  · rw [Function.update_apply]
    split
    · exact nofun
    · exact h e
  · next hleft =>
    rw [Function.update_apply]
    split
    · exact fun hnil => hleft (Option.some_inj.mp hnil)
    · exact h e

end TriggersMap

/-! ### Runs -/

namespace LoopState
variable (conf : EngineConf) (s : LoopState) (l : LoopEvent Ctx)

/-- If the step takes an event from the queue, the loop runs after it and has started what it was to start. -/
def IterationOk : Prop :=
  ∀ calls event queue, l = .iterate calls → s.queue = event :: queue →
    (s.iterate conf calls).running ∧ ∃ starts, (s.iterate conf calls).handled = s.handled ++ [(event, starts)] ∧
      starts.map (·.trigger) = event.toStart (s.triggers.registered event)

/-- If the step takes an event from the queue, the event is harmless. -/
def TakesHarmless : Prop :=
  ∀ calls event queue, l = .iterate calls → s.queue = event :: queue → Harmless conf calls s.triggers event

/-- The loop runs, and the map has no empty list of triggers. -/
structure Ok : Prop where
  running : s.running
  triggers : ∀ e, s.triggers e ≠ some []

variable {conf s l}

theorem Ok.iterationOk_iff (h : s.Ok) : s.IterationOk conf l ↔ s.TakesHarmless conf l := by
  refine forall_congr' fun calls => forall_congr' fun event => forall_congr' fun queue =>
    forall_congr' fun _ => forall_congr' fun hqueue => ?_
  rw [← handleEvent_iff h.triggers, iterate, if_pos h.running, hqueue]
  refine and_congr (by simp) ?_
  constructor
  · rintro ⟨starts, hhandled, hstarts⟩
    cases List.append_cancel_left hhandled
    exact hstarts
  · exact fun hstarts => ⟨_, rfl, hstarts⟩

theorem Ok.step (h : s.Ok) (hl : s.TakesHarmless conf l) : (s.step conf l).Ok := by
  cases l with
  | notify event => exact ⟨h.running, h.triggers⟩
  | create t => exact ⟨h.running, TriggersMap.create_ne_nil h.triggers⟩
  | update t =>
    refine ⟨h.running, ?_⟩
    rw [LoopState.step]
    cases hupdate : s.triggers.update? t with
    | none => exact h.triggers
    | some m => exact TriggersMap.update_ne_nil h.triggers hupdate
  | delete t =>
    refine ⟨h.running, ?_⟩
    rw [LoopState.step]
    cases hdelete : s.triggers.delete? t with
    | none => exact h.triggers
    | some m => exact TriggersMap.delete_ne_nil h.triggers hdelete
  | iterate calls =>
    rw [LoopState.step]
    cases hqueue : s.queue with
    | nil =>
      rw [iterate, if_pos h.running, hqueue]
      exact h
    | cons event queue =>
      refine ⟨(h.iterationOk_iff.mpr hl calls event queue rfl hqueue).1, ?_⟩
      rw [iterate, if_pos h.running, hqueue]
      exact h.triggers

end LoopState

/-- In a run every event that is taken from the queue starts what it is to start and the loop goes on. -/
def LoopGoesOn (Ctx : Type) (conf : EngineConf) (ls : List (LoopEvent Ctx)) : Prop :=
  (loopSystem Ctx conf).Guarded (LoopState.IterationOk conf) {} ls ∧ ((loopSystem Ctx conf).run {} ls).running

/-- A file without definitions. -/
def noDefinitions : EngineConf where
  definitions := []
  fnmatch := (· == ·)
  authEnable := true

/-- Every expression has a value, and every trust gives a context. -/
def allSucceed : Calls Unit where
  evaluateRecursively properties _ := .ok properties
  createContext _ _ := .ok ()

end EventEngine
end Mistral
