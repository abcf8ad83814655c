import Mistral.Engine.CompletionEffects
import Mistral.Engine.RegularEffects

/-! What the policies of a task with a retry policy do when an attempt has ended. -/

namespace Mistral

/-- The task has a retry policy, is not a join, and its other policies may delay its start and its completion and fail
    it. -/
structure Retried (spec : RegularSpec) (r : RetrySpec) : Prop where
  built : ∃ (wf : WorkflowSpec) (ts : TaskSpec), spec.policies = wf.buildPolicies ts
  kinds : ∀ p ∈ spec.policies, p.kind ∈ [.waitBefore, .waitAfter, .failOn, .retry]
  retry : .retry r ∈ spec.policies
  join : spec.join = false

/-- What happens in one run of a task: it is asked to start, its jobs are called, and its results come in. -/
def RegularEvent.OfRun : RegularEvent → Prop
  | .startTask _ | .runJob _ _ | .actionResult _ _ | .subworkflowStarted _ | .subworkflowCompleted _ _
  | .subworkflowResult _ => True
  | _ => False

/-- A step of one run, where the retry count is `n`. -/
def OneRun (r : RetrySpec) (n : Nat) (_ : RegularRun) (l : RegularEvent × Oracle) : Prop :=
  l.1.OfRun ∧ (l.2.task 0).natExpr r.count = n

/-- Every expression has a value, and every result can be stored. An action that can not be scheduled is a failed attempt,
    if the exception is not one of `mistral_lib`. -/
structure Oracle.Evaluates (o : Oracle) : Prop where
  raises : ∀ site, site ≠ .schedule 0 0 → o.raises site = false
  fromLib : o.fromLib (.schedule 0 0) = false

/-- The attempt ended in `st`, and the policy stops before the bound: the attempt was cancelled, it succeeded without a
    clause to continue, the clause to continue is false, or it failed and the clause to break is true. -/
def RetrySpec.Stops (r : RetrySpec) (o : Oracle) (st : State) : Prop :=
  st = .cancelled ∨ (st = .success ∧ r.continueOn = "") ∨
    (r.continueOn ≠ "" ∧ (o.outbound 0).truth r.continueOn = false) ∨ (st = .error ∧ (o.outbound 0).clause r.breakOn = true)

/-! ### The policies -/

/-- The policies before `retry`, in their order. -/
def retryPolicies (waitBefore waitAfter : Option NatExpr) (failOn : Option BoolExpr) (r : RetrySpec) : List Policy :=
  (waitBefore.map Policy.waitBefore).toList ++ (waitAfter.map Policy.waitAfter).toList ++
    (failOn.map Policy.failOn).toList ++ [.retry r]

/-- A list with at most one policy, which is of the kind `k`. -/
theorem eq_toList_of_kind {β : Type} {l : List Policy} {k : PolicyKind} (mk : β → Policy)
    (hmk : ∀ q : Policy, q.kind = k → ∃ b, q = mk b) (h : (l.map Policy.kind).Sublist [k]) :
    ∃ b : Option β, l = (b.map mk).toList := by
  match l, h with
  | [], _ => exact ⟨none, rfl⟩
  | [p], h =>
    obtain ⟨b, rfl⟩ := hmk p (by simpa using h)
    exact ⟨some b, rfl⟩
  | p :: q :: l, h =>
    have hlen := h.length_le
    simp at hlen

theorem Retried.policies_eq {spec : RegularSpec} {r : RetrySpec} (h : Retried spec r) :
    ∃ waitBefore waitAfter failOn, spec.policies = retryPolicies waitBefore waitAfter failOn r := by
  obtain ⟨wf, ts, hbuilt⟩ := h.built
  have hsub : (spec.policies.map Policy.kind).Sublist [.waitBefore, .waitAfter, .failOn, .retry] := by
    have hfilter := (buildPolicies_kinds wf ts).filter (· ∈ [PolicyKind.waitBefore, .waitAfter, .failOn, .retry])
    rw [← hbuilt, List.filter_eq_self.mpr] at hfilter
    · exact hfilter
    · intro k hk
      obtain ⟨p, hp, rfl⟩ := List.mem_map.mp hk
      simpa using h.kinds p hp
  obtain ⟨l₁, l, hl, h₁, hsub⟩ := split_kinds [.waitBefore] hsub
  obtain ⟨l₂, l, rfl, h₂, hsub⟩ := split_kinds [.waitAfter] hsub
  obtain ⟨l₃, l₄, rfl, h₃, h₄⟩ := split_kinds [.failOn] hsub
  obtain ⟨waitBefore, rfl⟩ := eq_toList_of_kind Policy.waitBefore (by rintro ⟨⟩ <;> simp [Policy.kind]) h₁
  obtain ⟨waitAfter, rfl⟩ := eq_toList_of_kind Policy.waitAfter (by rintro ⟨⟩ <;> simp [Policy.kind]) h₂
  obtain ⟨failOn, rfl⟩ := eq_toList_of_kind Policy.failOn (by rintro ⟨⟩ <;> simp [Policy.kind]) h₃
  obtain ⟨retry, rfl⟩ := eq_toList_of_kind Policy.retry (by rintro ⟨⟩ <;> simp [Policy.kind]) h₄
  have hretry := h.retry
  rw [hl] at hretry
  have hsome : retry = some r := by
    simp only [List.mem_append, Option.mem_toList, Option.map_eq_some_iff] at hretry
    rcases hretry with ⟨_, -, hp⟩ | ⟨_, -, hp⟩ | ⟨_, -, hp⟩ | ⟨_, hsome, hp⟩
    · cases hp
    · cases hp
    · cases hp
    · cases hp
      exact hsome
  refine ⟨waitBefore, waitAfter, failOn, ?_⟩
  rw [hl, hsome]
  simp [retryPolicies, List.append_assoc]

namespace RegularRun
variable {spec : RegularSpec} {o : Oracle} {r : RetrySpec} {n : Nat} {s s' : RegularRun} {i : Nat} {st : State}
  {info : Option String} {processed : Option Bool}

/-- The policy `wait-after` delays the completion. -/
def delays (spec : RegularSpec) (o : Oracle) (s : RegularRun) : Bool :=
  !s.task.runtimeContext.waitAfterSkip &&
    spec.policies.any fun p => match p with
      | .waitAfter delay => (o.task 0).natExpr delay != 0
      | _ => false

/-- The policy `fail-on` fails a task that has succeeded. -/
def failsOn (spec : RegularSpec) (o : Oracle) : Bool :=
  spec.policies.any fun p => match p with
    | .failOn expr => (o.task 0).boolExpr expr
    | _ => false

/-- What `wait-after` does where it delays the completion. -/
def delayed (delay : Nat) (s : RegularRun) : RegularRun :=
  { ((s.mapTask (·.mapContext fun c => { c with waitAfterSkip := true })).setState .runningDelayed
      (some ("Delayed by 'wait-after' policy [delay=" ++ toString delay ++ "]")) none).addJob
        (.completeTask 0 s.task.state s.task.stateInfo) with endState := some s.task.state }

/-- The state that an attempt ends in which is completed with `st`, if the completion is not delayed. -/
def endsIn (spec : RegularSpec) (o : Oracle) (s : RegularRun) (st : State) : Option State :=
  if delays spec o s then none else some (if st = .success ∧ failsOn spec o then .error else st)

theorem endsIn_congr (h : s'.task.runtimeContext = s.task.runtimeContext) : s'.endsIn spec o st = s.endsIn spec o st := by
  rw [endsIn, endsIn, delays, delays, h]

theorem runtimeContext_setState : (s.setState st info processed).task.runtimeContext = s.task.runtimeContext := by
  unfold RegularRun.setState
  split <;> rfl

/-- What `fail-on` makes of the task. -/
def judged (spec : RegularSpec) (o : Oracle) (s : RegularRun) : RegularRun :=
  if s.task.state = .success ∧ failsOn spec o then s.setState .error "Failed by 'fail-on' policy" none else s

/-- The policies after a task has completed, where one of them may raise: before `wait-after` did anything, after it has
    delayed the completion, before `retry` has decided, or not at all. -/
inductive After (spec : RegularSpec) (o : Oracle) (r : RetrySpec) (s : RegularRun) : RegularRun × Bool → Prop
  | early : After spec o r s (s, true)
  | delayed (delay : Nat) (raised : Bool) (h : delays spec o s) : After spec o r s (s.delayed delay, raised)
  | late (h : delays spec o s = false) : After spec o r s (s.judged spec o, true)
  | decided (h : delays spec o s = false) : After spec o r s ((s.judged spec o).retryAfterTaskComplete spec o r, false)

/-- `_after_task_complete` for a part of the policies. -/
def runAfterOf (spec : RegularSpec) (o : Oracle) (ps : List Policy) (s : RegularRun) : RegularRun × Bool :=
  runPolicies (fun p => o.raises (.policy 0 p.kind)) (fun s p => s.afterTaskComplete spec o p) ps s

theorem runAfterOf_append {ps qs : List Policy} : runAfterOf spec o (ps ++ qs) s =
    if (runAfterOf spec o ps s).2 then ((runAfterOf spec o ps s).1, true)
    else runAfterOf spec o qs (runAfterOf spec o ps s).1 := by
  unfold runAfterOf
  induction ps generalizing s with
  | nil => rfl
  | cons p ps ih =>
    simp only [List.cons_append, runPolicies]
    split
    · rfl
    · exact ih

/-- A policy that is there raises, or it has its effect. -/
theorem runAfterOf_toList {β : Type} (spec : RegularSpec) (o : Oracle) (mk : β → Policy) (x : Option β) (s : RegularRun) :
    ¬o.Evaluates ∧ runAfterOf spec o (x.map mk).toList s = (s, true) ∨
      runAfterOf spec o (x.map mk).toList s = ((x.map fun b => s.afterTaskComplete spec o (mk b)).getD s, false) := by
  cases x with
  | none => exact .inr rfl
  | some b =>
    cases hraises : o.raises (.policy 0 (mk b).kind) with
    | false => exact .inr (by simp [runAfterOf, runPolicies, hraises])
    | true =>
      refine .inl ⟨fun hev => ?_, by simp [runAfterOf, runPolicies, hraises]⟩
      rw [hev.raises _ (Site.noConfusion ·)] at hraises
      cases hraises

theorem delays_eq {waitBefore waitAfter : Option NatExpr} {failOn : Option BoolExpr}
    (h : spec.policies = retryPolicies waitBefore waitAfter failOn r) :
    delays spec o s = (!s.task.runtimeContext.waitAfterSkip && waitAfter.any fun delay => (o.task 0).natExpr delay != 0) := by
  rw [delays, h]
  cases waitBefore <;> cases waitAfter <;> cases failOn <;> simp [retryPolicies]

theorem failsOn_eq {waitBefore waitAfter : Option NatExpr} {failOn : Option BoolExpr}
    (h : spec.policies = retryPolicies waitBefore waitAfter failOn r) :
    failsOn spec o = failOn.any fun expr => (o.task 0).boolExpr expr := by
  rw [failsOn, h]
  cases waitBefore <;> cases waitAfter <;> cases failOn <;> simp [retryPolicies]

theorem afterTaskComplete_waitAfter (delay : NatExpr) :
    s.afterTaskComplete spec o (.waitAfter delay) =
      if !s.task.runtimeContext.waitAfterSkip && (o.task 0).natExpr delay != 0 then s.delayed ((o.task 0).natExpr delay)
      else s := by
  simp only [RegularRun.afterTaskComplete, delayed]
  by_cases hzero : (o.task 0).natExpr delay = 0
  · simp [hzero]
  · cases s.task.runtimeContext.waitAfterSkip <;> simp [hzero]

/-- The policies leave a task alone that is not completed. -/
theorem judged_of_open (hopen : s.task.state.isCompleted = false) :
    s.judged spec o = s ∧ s.retryAfterTaskComplete spec o r = s := by
  constructor
  · have hne : s.task.state ≠ .success := fun h => by
      rw [h] at hopen
      cases hopen
    simp [judged, hne]
  · simp [retryAfterTaskComplete, hopen]

/-- `fail-on` and `retry`, where the completion is not delayed. -/
theorem runAfterOf_decides (spec : RegularSpec) (o : Oracle) (failOn : Option BoolExpr) (r : RetrySpec) (s : RegularRun)
    (hfails : failsOn spec o = failOn.any fun expr => (o.task 0).boolExpr expr) :
    ¬o.Evaluates ∧ (runAfterOf spec o ((failOn.map Policy.failOn).toList ++ [.retry r]) s = (s, true) ∨
      runAfterOf spec o ((failOn.map Policy.failOn).toList ++ [.retry r]) s = (s.judged spec o, true)) ∨
    runAfterOf spec o ((failOn.map Policy.failOn).toList ++ [.retry r]) s =
      ((s.judged spec o).retryAfterTaskComplete spec o r, false) := by
  have hjudged : (failOn.map fun expr => s.afterTaskComplete spec o (.failOn expr)).getD s = s.judged spec o := by
    rw [judged, hfails]
    cases failOn <;> simp [RegularRun.afterTaskComplete]
  rw [runAfterOf_append]
  rcases runAfterOf_toList spec o Policy.failOn failOn s with ⟨hev, hfail⟩ | hfail
  · rw [hfail]
    exact .inl ⟨hev, .inl rfl⟩
  rw [hfail, hjudged]
  rcases runAfterOf_toList spec o Policy.retry (some r) (s.judged spec o) with ⟨hev, hretry⟩ | hretry
  · exact .inl ⟨hev, .inr hretry⟩
  · exact .inr hretry

/-- What the policies do after a task has completed. -/
theorem runAfter_after (h : Retried spec r) (o : Oracle) (s : RegularRun) :
    After spec o r s (s.runAfter spec o) ∧ (o.Evaluates → (s.runAfter spec o).2 = false) := by
  obtain ⟨waitBefore, waitAfter, failOn, hpolicies⟩ := h.policies_eq
  have hall : s.runAfter spec o = runAfterOf spec o ((waitBefore.map Policy.waitBefore).toList ++
      ((waitAfter.map Policy.waitAfter).toList ++ ((failOn.map Policy.failOn).toList ++ [.retry r]))) s := by
    rw [← List.append_assoc, ← List.append_assoc, ← retryPolicies, ← hpolicies]
    rfl
  rw [hall, runAfterOf_append]
  rcases runAfterOf_toList spec o Policy.waitBefore waitBefore s with ⟨hev, hbefore⟩ | hbefore
  · rw [hbefore]
    exact ⟨.early, fun h => absurd h hev⟩
  have hsame : (waitBefore.map fun b => s.afterTaskComplete spec o (.waitBefore b)).getD s = s := by
    cases waitBefore <;> rfl
  rw [hbefore, hsame]
  simp only [Bool.false_eq_true, if_false]
  rw [runAfterOf_append]
  rcases runAfterOf_toList spec o Policy.waitAfter waitAfter s with ⟨hev, hafter⟩ | hafter
  · rw [hafter]
    exact ⟨.early, fun h => absurd h hev⟩
  rw [hafter]
  simp only [Bool.false_eq_true, if_false]
  have hdelays : delays spec o s = _ := delays_eq hpolicies
  cases hdelayed : delays spec o s with
  | true =>
    rw [hdelayed, eq_comm, Bool.and_eq_true, Option.any_eq_true] at hdelays
    obtain ⟨hskip, delay, rfl, hdelay⟩ := hdelays
    have hwait : s.afterTaskComplete spec o (.waitAfter delay) = s.delayed ((o.task 0).natExpr delay) := by
      rw [afterTaskComplete_waitAfter, hskip, hdelay]
      rfl
    have hopen : (s.delayed ((o.task 0).natExpr delay)).task.state.isCompleted = false := by
      show (RegularRun.setState _ _ _ _).task.state.isCompleted = false
      rw [state_setState]
      rfl
    obtain ⟨hjudged, hretry⟩ := judged_of_open (r := r) hopen
    simp only [Option.map_some, Option.getD_some, hwait]
    rcases runAfterOf_decides spec o failOn r _ (failsOn_eq hpolicies) with ⟨hev, hres | hres⟩ | hres
    · rw [hres]
      exact ⟨.delayed _ true hdelayed, fun h => absurd h hev⟩
    · rw [hres, hjudged]
      exact ⟨.delayed _ true hdelayed, fun h => absurd h hev⟩
    · rw [hres, hjudged, hretry]
      exact ⟨.delayed _ false hdelayed, fun _ => rfl⟩
  | false =>
    have hwait : (waitAfter.map fun b => s.afterTaskComplete spec o (.waitAfter b)).getD s = s := by
      rw [hdelayed] at hdelays
      cases waitAfter with
      | none => rfl
      | some delay =>
        rw [Option.any_some] at hdelays
        simp only [Option.map_some, Option.getD_some, afterTaskComplete_waitAfter, ← hdelays]
        rfl
    rw [hwait]
    rcases runAfterOf_decides spec o failOn r s (failsOn_eq hpolicies) with ⟨hev, hres | hres⟩ | hres
    · rw [hres]
      exact ⟨.early, fun h => absurd h hev⟩
    · rw [hres]
      exact ⟨.late hdelayed, fun h => absurd h hev⟩
    · rw [hres]
      exact ⟨.decided hdelayed, fun _ => rfl⟩

end RegularRun
end Mistral
