import Mistral.Engine.Publishing
import Mistral.Engine.RetryEffects

/-! What the policies of a task do that publishes: who reads what, and how the policy `wait-after` postpones a completion. -/

namespace Mistral

namespace RegularRun
variable {spec : RegularSpec} {o : Oracle} {s a b : RegularRun} {p : Policy} {st : State} {info : Option String}
  {processed : Option Bool}

/-! ### The policies -/

theorem afterTaskComplete_of_inert (hp : p.kind ∉ [PolicyKind.waitAfter, .failOn, .retry]) :
    s.afterTaskComplete spec o p = s := by
  cases p <;> first | rfl | simp [Policy.kind] at hp

/-- The policies after `wait-after` leave a delayed task alone. -/
theorem afterTaskComplete_of_delayed (hdelayed : s.task.state = .runningDelayed) (hp : p.kind ≠ .waitAfter) :
    s.afterTaskComplete spec o p = s := by
  cases p with
  | waitAfter delay => exact absurd rfl hp
  | failOn expr => simp [RegularRun.afterTaskComplete, hdelayed]
  | retry r =>
    have hopen : s.task.state.isCompleted = false := by
      rw [hdelayed]
      rfl
    exact (judged_of_open hopen).2
  | _ => rfl

/-- The task as if the policy `wait-after` had been there. -/
def waited (s : RegularRun) : TaskEx := s.task.mapContext fun c => { c with waitAfterSkip := true }

theorem waited_setState :
    (s.setState st info processed).waited = (({ task := s.waited } : RegularRun).setState st info processed).task := by
  have hdiffers : s.waited.differs st info = s.task.differs st info := rfl
  show TaskEx.mapContext _ (if s.task.differs st info then _ else _) = if s.waited.differs st info then _ else _
  rw [hdiffers]
  split <;> rfl

theorem waited_startRetry {delay : NatExpr} :
    (s.startRetry spec o delay).waited = (({ task := s.waited } : RegularRun).startRetry spec o delay).task := by
  unfold startRetry
  split <;> exact waited_setState

theorem waited_retry {r : RetrySpec} : (s.retryAfterTaskComplete spec o r).waited =
    (({ task := s.waited } : RegularRun).retryAfterTaskComplete spec o r).task := by
  unfold retryAfterTaskComplete
  dsimp only [mapTask]
  split
  · rfl
  split
  next hskip =>
    have hskip : (!s.waited.state.isCompleted || s.waited.state.isCancelled) = true := hskip
    rw [if_pos hskip]
  next hskip =>
    have hskip : ¬(!s.waited.state.isCompleted || s.waited.state.isCancelled) = true := hskip
    rw [if_neg hskip]
    split
    next hstops =>
      split
      next => rfl
      next hnot => exact absurd hstops hnot
    next hstops =>
      split
      next hnot => exact absurd hnot hstops
      next => exact waited_startRetry

theorem task_setState : (s.setState st info none).task = s.task.withState st info none := by
  show (if s.task.differs st info then _ else _) = _
  split
  · rfl
  next hsame =>
    simp only [TaskEx.differs, Bool.or_eq_true, bne_iff_ne, not_or, not_not] at hsame
    rw [← hsame.1, ← hsame.2]
    rfl

/-- The other policies do not see whether `wait-after` has been there. -/
theorem waited_afterTaskComplete (hp : p.kind ≠ .waitAfter) : (s.afterTaskComplete spec o p).waited =
    (({ task := s.waited } : RegularRun).afterTaskComplete spec o p).task := by
  cases p with
  | waitAfter delay => exact absurd rfl hp
  | failOn expr =>
    have hstate : s.waited.state = s.task.state := rfl
    simp only [RegularRun.afterTaskComplete, hstate]
    split
    · exact waited_setState
    · rfl
  | retry r => exact waited_retry
  | _ => rfl

/-- The other policies schedule no completion. -/
theorem jobs_afterTaskComplete (spec : RegularSpec) (o : Oracle) (s : RegularRun) (hp : p.kind ≠ .waitAfter) : ∃ extra,
    (s.afterTaskComplete spec o p).jobs = s.jobs ++ extra ∧ ∀ j ∈ extra, ∀ t st info, j ≠ .completeTask t st info := by
  have hnone : ∃ extra, s.jobs = s.jobs ++ extra ∧ ∀ j ∈ extra, ∀ t st info, j ≠ Job.completeTask t st info :=
    ⟨[], (List.append_nil _).symm, fun _ hj => absurd hj List.not_mem_nil⟩
  cases p with
  | waitAfter delay => exact absurd rfl hp
  | failOn expr =>
    simp only [RegularRun.afterTaskComplete]
    split <;> exact hnone
  | retry r =>
    simp only [RegularRun.afterTaskComplete, retryAfterTaskComplete]
    split
    · exact hnone
    split
    · exact hnone
    split
    · exact hnone
    unfold startRetry
    split
    · exact ⟨[.refreshTaskState 0], rfl, fun _ hj => by rw [List.mem_singleton.mp hj]; simp⟩
    · exact ⟨[.continueTask 0], rfl, fun _ hj => by rw [List.mem_singleton.mp hj]; simp⟩
  | _ => exact hnone

end RegularRun

namespace PublishingRun
variable {spec : PublishingSpec} {s a b : PublishingRun} {ps qs : List Policy} {st : State} {info : Option String}

/-- The expressions of a policy have no value. -/
def policyRaises (spec : PublishingSpec) (s : PublishingRun) (p : Policy) : Bool :=
  (spec.exprs (s.seen spec)).raises (.policy 0 p.kind)

/-- `wait-after` postpones the completion. -/
def delays (spec : PublishingSpec) (s : PublishingRun) : Bool :=
  RegularRun.delays spec.regular (spec.exprs (s.seen spec)) s.run

theorem afterTaskComplete_append : afterTaskComplete spec (ps ++ qs) s =
    if (afterTaskComplete spec ps s).2 then ((afterTaskComplete spec ps s).1, true)
    else afterTaskComplete spec qs (afterTaskComplete spec ps s).1 := by
  induction ps generalizing s with
  | nil => rfl
  | cons p ps ih =>
    simp only [List.cons_append, afterTaskComplete]
    split
    · rfl
    · exact ih

/-- Policies that have no effect may only raise. -/
theorem afterTaskComplete_of_inert
    (h : ∀ p ∈ ps, s.run.afterTaskComplete spec.regular (spec.exprs (s.seen spec)) p = s.run) :
    afterTaskComplete spec ps s = (s, ps.any (policyRaises spec s)) := by
  induction ps with
  | nil => rfl
  | cons p ps ih =>
    obtain ⟨hp, hps⟩ := List.forall_mem_cons.mp h
    rw [afterTaskComplete, List.any_cons]
    cases hraises : policyRaises spec s p with
    | true => exact if_pos hraises
    | false =>
      simp only [policyRaises] at hraises
      simp only [hraises, Bool.false_eq_true, if_false, hp]
      exact ih hps

/-- The policies do not publish. -/
theorem afterTaskComplete_eq (ps : List Policy) (s : PublishingRun) :
    (afterTaskComplete spec ps s).1 = { s with run := (afterTaskComplete spec ps s).1.run } := by
  induction ps generalizing s with
  | nil => rfl
  | cons p ps ih =>
    simp only [afterTaskComplete]
    split
    · rfl
    · exact ih _

/-- The expressions of the policies and of the on-clauses have the same values over both contexts. -/
def ReadAlike (spec : PublishingSpec) (c₁ c₂ : Contents) : Prop :=
  ∀ x : Seen, spec.exprs { x with context := c₁ } = spec.exprs { x with context := c₂ }

/-- The two task executions differ only in whether `wait-after` has been there, in what waits for them, and in what no
    expression of the policies and of the on-clauses reads. -/
structure Alike (spec : PublishingSpec) (a b : PublishingRun) : Prop where
  published : a.published = b.published
  inContext : a.inContext = b.inContext
  context : ReadAlike spec a.context b.context
  waited : a.run.waited = b.run.waited

theorem Alike.refl (a : PublishingRun) : Alike spec a a := ⟨rfl, rfl, fun _ => rfl, rfl⟩

theorem Alike.fields (h : Alike spec a b) : a.run.task.state = b.run.task.state ∧ a.run.task.stateInfo = b.run.task.stateInfo ∧
    a.run.task.executions = b.run.task.executions := by
  show a.run.waited.state = b.run.waited.state ∧ a.run.waited.stateInfo = b.run.waited.stateInfo ∧
    a.run.waited.executions = b.run.waited.executions
  rw [h.waited]
  exact ⟨rfl, rfl, rfl⟩

theorem Alike.state (h : Alike spec a b) : a.run.task.state = b.run.task.state := h.fields.1

theorem Alike.exprs (h : Alike spec a b) : spec.exprs (a.seen spec) = spec.exprs (b.seen spec) := by
  obtain ⟨-, hinfo, hexecutions⟩ := h.fields
  have hseen : a.seen spec = { b.seen spec with context := a.context } := by
    simp only [PublishingRun.seen, TaskEx.getTaskExecutionResult, h.state, hinfo, hexecutions, h.published, h.inContext]
  rw [hseen]
  exact h.context (b.seen spec)

theorem Alike.afterTaskComplete (h : Alike spec a b) (hps : ∀ p ∈ ps, p.kind ≠ .waitAfter) :
    (PublishingRun.afterTaskComplete spec ps a).2 = (PublishingRun.afterTaskComplete spec ps b).2 ∧
      Alike spec (PublishingRun.afterTaskComplete spec ps a).1 (PublishingRun.afterTaskComplete spec ps b).1 := by
  induction ps generalizing a b with
  | nil => exact ⟨rfl, h⟩
  | cons p ps ih =>
    obtain ⟨hp, hps⟩ := List.forall_mem_cons.mp hps
    simp only [PublishingRun.afterTaskComplete, h.exprs]
    split
    · exact ⟨rfl, h⟩
    · refine ih ⟨h.published, h.inContext, h.context, ?_⟩ hps
      rw [RegularRun.waited_afterTaskComplete hp, RegularRun.waited_afterTaskComplete hp, h.waited]

/-! ### The publish section -/

/-- What the publish section gives: the variables of the branch and of the workflow. Without a section for the state, the
    task keeps those that it has. -/
def evaluatePublish (spec : PublishingSpec) (x : Seen) : Option (Contents × Dict) :=
  if x.state ∈ [State.success, .error, .skipped] then
    match spec.publish x.state with
    | none => some (x.published, [])
    | some publish => do
      let vars ← publish.branch x
      let globals ← publish.globals { x with published := vars }
      return (vars, globals)
  else some (x.published, [])

/-- The variables are published. -/
def withVariables (s : PublishingRun) (vars : Contents) (globals : Dict) : PublishingRun :=
  { s with published := vars, context := s.context.merge (.ofDict globals), contextSet := s.contextSet || s.context.setsKey globals }

theorem evaluatePublish_seen (spec : PublishingSpec) (s : PublishingRun) : evaluatePublish spec (s.seen spec) =
    if s.run.task.state ∈ [State.success, .error, .skipped] then
      match spec.publish s.run.task.state with
      | none => some (s.published, [])
      | some publish => (publish.branch (s.seen spec)).bind fun vars =>
          (publish.globals (({ s with published := vars } : PublishingRun).seen spec)).bind fun globals => some (vars, globals)
    else some (s.published, []) := rfl

/-- One evaluation of the section: both kinds of variables are published, or, where an expression has no value, none for the
    workflow. -/
theorem publishVariables_eq (spec : PublishingSpec) (s : PublishingRun) : match evaluatePublish spec (s.seen spec) with
    | some (vars, globals) => s.publishVariables spec = (s.withVariables vars globals, false)
    | none => ∃ vars, s.publishVariables spec = ({ s with published := vars }, true) := by
  have hnothing : s = s.withVariables s.published [] := by
    rw [withVariables, Contents.merge_nil]
    simp [Contents.setsKey]
  rw [evaluatePublish_seen]
  unfold publishVariables
  by_cases hstate : s.run.task.state ∈ [State.success, .error, .skipped]
  · rw [if_pos hstate, if_pos hstate]
    cases spec.publish s.run.task.state with
    | none => exact congrArg (·, false) hnothing
    | some publish =>
      cases hbranch : publish.branch (s.seen spec) with
      | none =>
        simp only [Option.bind_none, hbranch]
        exact ⟨s.published, rfl⟩
      | some vars =>
        simp only [Option.bind_some, hbranch]
        cases publish.globals (({ s with published := vars } : PublishingRun).seen spec) with
        | none => exact ⟨vars, rfl⟩
        | some globals => rfl
  · rw [if_neg hstate, if_neg hstate]
    exact congrArg (·, false) hnothing

theorem publishVariables_of_some {vars : Contents} {globals : Dict} (h : evaluatePublish spec (s.seen spec) = some (vars, globals)) :
    s.publishVariables spec = (s.withVariables vars globals, false) := by
  have heq := publishVariables_eq spec s
  rwa [h] at heq

theorem publishVariables_of_none (h : evaluatePublish spec (s.seen spec) = none) :
    ∃ vars, s.publishVariables spec = ({ s with published := vars }, true) := by
  have heq := publishVariables_eq spec s
  rwa [h] at heq

theorem Alike.dropResult (h : Alike spec a b) : Alike spec (a.dropResult spec) (b.dropResult spec) := by
  unfold PublishingRun.dropResult
  split
  · exact h
  · refine ⟨h.published, h.inContext, h.context, ?_⟩
    exact congrArg TaskEx.destroyResult h.waited

theorem dropResult_dropResult : (s.dropResult spec).dropResult spec = s.dropResult spec := by
  unfold PublishingRun.dropResult
  split
  · rfl
  · simp [RegularRun.mapTask, TaskEx.destroyResult, Function.comp_def]

/-! ### The list of policies -/

/-- A list with at most one `wait-after`: the policies before it, it, and those after it. -/
structure Parts (ps early : List Policy) (wait : Option NatExpr) (late : List Policy) : Prop where
  eq : ps = early ++ ((wait.map Policy.waitAfter).toList ++ late)
  early : ∀ p ∈ early, p.kind ∈ [.pauseBefore, .waitBefore]
  late : ∀ p ∈ late, p.kind ∈ [.failOn, .retry, .timeout, .concurrency]

variable {early late : List Policy} {wait : Option NatExpr}

theorem parts_buildPolicies (wf : WorkflowSpec) (ts : TaskSpec) : ∃ early wait late, Parts (wf.buildPolicies ts) early wait late := by
  obtain ⟨early, rest, heq, hearly, hrest⟩ := split_kinds [.pauseBefore, .waitBefore] (buildPolicies_kinds wf ts)
  obtain ⟨waits, late, rfl, hwaits, hlate⟩ := split_kinds [.waitAfter] hrest
  obtain ⟨wait, rfl⟩ := eq_toList_of_kind Policy.waitAfter (by rintro ⟨⟩ <;> simp [Policy.kind]) hwaits
  exact ⟨early, wait, late, heq, fun p hp => kind_mem hearly hp, fun p hp => kind_mem hlate hp⟩

theorem Parts.filter (h : Parts ps early wait late) : ps.filter (fun p => p.kind != .waitAfter) = early ++ late := by
  have hkeep : ∀ {l : List Policy} {ks : List PolicyKind}, (∀ p ∈ l, p.kind ∈ ks) → .waitAfter ∉ ks →
      l.filter (fun p => p.kind != .waitAfter) = l := fun hl hks => List.filter_eq_self.mpr fun p hp => by
    rw [bne_iff_ne]
    exact fun hkind => hks (hkind ▸ hl p hp)
  have hwait : (wait.map Policy.waitAfter).toList.filter (fun p => p.kind != .waitAfter) = [] := by
    cases wait <;> rfl
  rw [h.eq, List.filter_append, List.filter_append, hwait, hkeep h.early (by decide), hkeep h.late (by decide)]
  rfl

theorem Parts.early_inert (h : Parts ps early wait late) {run : RegularRun} {o : Oracle} :
    ∀ p ∈ early, run.afterTaskComplete spec.regular o p = run := fun p hp => by
  refine RegularRun.afterTaskComplete_of_inert fun hkind => ?_
  have hearly := h.early p hp
  generalize p.kind = k at hkind hearly
  revert k
  decide

theorem Parts.late_ne (h : Parts ps early wait late) : ∀ p ∈ late, p.kind ≠ .waitAfter := fun p hp hkind => by
  have hlate := h.late p hp
  rw [hkind] at hlate
  exact absurd hlate (by decide)

theorem Parts.wait_mem (h : Parts ps early wait late) {delay : NatExpr} (hwait : wait = some delay) : .waitAfter delay ∈ ps := by
  rw [h.eq, hwait]
  exact List.mem_append_right _ List.mem_cons_self

theorem Parts.late_mem (h : Parts ps early wait late) {p : Policy} (hp : p ∈ late) : p ∈ ps := by
  rw [h.eq]
  exact List.mem_append_right _ (List.mem_append_right _ hp)

theorem Parts.mem_cases (h : Parts ps early wait late) {p : Policy} (hp : p ∈ ps) :
    p ∈ early ∨ (∃ delay, wait = some delay ∧ p = .waitAfter delay) ∨ p ∈ late := by
  rw [h.eq, List.mem_append, List.mem_append] at hp
  rcases hp with hp | hp | hp
  · exact .inl hp
  · obtain ⟨delay, hwait, rfl⟩ := Option.map_eq_some_iff.mp (Option.mem_toList.mp hp)
    exact .inr (.inl ⟨delay, hwait, rfl⟩)
  · exact .inr (.inr hp)

/-- The only `wait-after` of the list. -/
theorem Parts.wait_of_mem (h : Parts ps early wait late) {delay : NatExpr} (hp : .waitAfter delay ∈ ps) : wait = some delay := by
  rcases h.mem_cases hp with hp | ⟨_, hwait, heq⟩ | hp
  · have hkind : PolicyKind.waitAfter ∈ [PolicyKind.pauseBefore, .waitBefore] := h.early _ hp
    exact absurd hkind (by decide)
  · rw [hwait, Policy.waitAfter.inj heq]
  · exact absurd rfl (h.late_ne _ hp)

theorem Parts.mem_early (h : Parts ps early wait late) {p : Policy} (hp : p ∈ ps) (hkind : p.kind ∈ [.pauseBefore, .waitBefore]) :
    p ∈ early := by
  rcases h.mem_cases hp with hp | ⟨_, _, rfl⟩ | hp
  · exact hp
  · have hkind : PolicyKind.waitAfter ∈ [PolicyKind.pauseBefore, .waitBefore] := hkind
    exact absurd hkind (by decide)
  · have hlate := h.late p hp
    exfalso
    generalize p.kind = k at hkind hlate
    revert k
    decide

theorem Parts.delays_eq (h : Parts spec.regular.policies early wait late) : delays spec s =
    (!s.run.task.runtimeContext.waitAfterSkip &&
      wait.any fun delay => ((spec.exprs (s.seen spec)).task 0).natExpr delay != 0) := by
  have hnone : ∀ {l : List Policy} {ks : List PolicyKind} (f : Policy → Bool), (∀ p, p.kind ≠ .waitAfter → f p = false) →
      (∀ p ∈ l, p.kind ∈ ks) → .waitAfter ∉ ks → l.any f = false := fun f hf hl hks => List.any_eq_false.mpr fun p hp => by
    rw [hf p fun hkind => hks (hkind ▸ hl p hp)]
    exact Bool.false_ne_true
  rw [delays, RegularRun.delays, h.eq, List.any_append, List.any_append, hnone _ ?_ h.early (by decide),
    hnone _ ?_ h.late (by decide)]
  · cases wait <;> simp
  all_goals
    rintro ⟨⟩ hp
    all_goals first | rfl | exact absurd rfl hp

/-- The policies of one completion: one of the first has no value, or the completion is postponed, or the others decide. -/
theorem Parts.cases (h : Parts spec.regular.policies early wait late) (s : PublishingRun) :
    (∃ p ∈ early ++ (wait.map Policy.waitAfter).toList, policyRaises spec s p) ∧
        afterTaskComplete spec spec.regular.policies s = (s, true) ∨
      (∀ p ∈ early ++ (wait.map Policy.waitAfter).toList, policyRaises spec s p = false) ∧
        (delays spec s = true ∧ (∃ delay n, wait = some delay ∧ n = ((spec.exprs (s.seen spec)).task 0).natExpr delay ∧
            afterTaskComplete spec spec.regular.policies s =
              ({ s with run := s.run.delayed n }, late.any (policyRaises spec { s with run := s.run.delayed n }))) ∨
          delays spec s = false ∧ afterTaskComplete spec spec.regular.policies s = afterTaskComplete spec late s) := by
  have hdelays := h.delays_eq (s := s)
  have hearly : afterTaskComplete spec early s = (s, early.any (policyRaises spec s)) := afterTaskComplete_of_inert h.early_inert
  rw [h.eq, afterTaskComplete_append, hearly]
  cases hraises : early.any (policyRaises spec s) with
  | true =>
    obtain ⟨p, hp, hraise⟩ := List.any_eq_true.mp hraises
    exact .inl ⟨⟨p, List.mem_append_left _ hp, hraise⟩, rfl⟩
  | false =>
    have hquiet : ∀ p ∈ early, policyRaises spec s p = false := fun p hp => by
      simpa using List.any_eq_false.mp hraises p hp
    simp only [Bool.false_eq_true, if_false]
    cases wait with
    | none =>
      rw [Option.any_none, Bool.and_false] at hdelays
      exact .inr ⟨by simpa using hquiet, .inr ⟨hdelays, rfl⟩⟩
    | some delay =>
      simp only [Option.map_some, Option.toList_some, List.cons_append, List.nil_append, afterTaskComplete]
      rw [Option.any_some] at hdelays
      cases hwait : policyRaises spec s (.waitAfter delay) with
      | true => exact .inl ⟨⟨_, List.mem_append_right _ (List.mem_singleton_self _), hwait⟩, if_pos hwait⟩
      | false =>
        refine .inr ⟨fun p hp => ?_, ?_⟩
        · rcases List.mem_append.mp hp with hp | hp
          · exact hquiet p hp
          · rwa [List.mem_singleton.mp hp]
        simp only [policyRaises] at hwait
        simp only [hwait, Bool.false_eq_true, if_false, RegularRun.afterTaskComplete_waitAfter, ← hdelays]
        cases hpost : delays spec s with
        | false => exact .inr ⟨rfl, rfl⟩
        | true =>
          refine .inl ⟨rfl, delay, _, rfl, rfl, afterTaskComplete_of_inert fun p hp => ?_⟩
          exact RegularRun.afterTaskComplete_of_delayed RegularRun.state_setState (h.late_ne p hp)

/-- The policies of the task without `wait-after`. -/
theorem Parts.without (h : Parts spec.regular.policies early wait late) (s : PublishingRun) :
    afterTaskComplete spec.withoutWaitAfter spec.withoutWaitAfter.regular.policies s =
      if early.any (policyRaises spec s) then (s, true) else afterTaskComplete spec late s := by
  have hspec : ∀ (ps : List Policy) (s : PublishingRun),
      afterTaskComplete spec.withoutWaitAfter ps s = afterTaskComplete spec ps s := fun ps => by
    induction ps with
    | nil => exact fun _ => rfl
    | cons p ps ih =>
      intro s
      simp only [afterTaskComplete]
      rw [ih]
      rfl
  have hearly : afterTaskComplete spec early s = (s, early.any (policyRaises spec s)) := afterTaskComplete_of_inert h.early_inert
  rw [hspec, PublishingSpec.withoutWaitAfter, h.filter, afterTaskComplete_append, hearly]

end PublishingRun
end Mistral
