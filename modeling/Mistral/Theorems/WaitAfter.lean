import Mistral.Engine.PublishingEffects

/-! The policy `wait-after` completes a task twice: when the second completion ends as the only one would. -/

namespace Mistral

namespace PublishingRun
variable {spec : PublishingSpec} {s a b : PublishingRun} {ps early late : List Policy} {wait : Option NatExpr} {st : State}
  {info : Option String}

/-! ### What both completions read -/

section
variable (spec : PublishingSpec) (s : PublishingRun) (st : State) (info : Option String) (vars : Contents) (globals : Dict)

/-- What the publish section reads at first. -/
def firstSeen : Seen where
  state := st
  stateInfo := info
  result := s.run.task.getTaskExecutionResult spec.withItems
  published := s.published
  inContext := s.inContext.update spec.inbound
  context := s.stored

/-- What the policies read after these variables are published: the results are gone where they are not kept. -/
def policiesSeen : Seen :=
  { s.firstSeen spec st info with
    result := (s.dropResult spec).run.task.getTaskExecutionResult spec.withItems
    published := vars
    context := s.stored.merge (.ofDict globals) }

/-- What the publish section reads the second time: of the context, what the column has noticed. -/
def secondSeen : Seen := { s.policiesSeen spec st info vars globals with context := s.stored.keep globals }

/-- The expressions of a policy have no value. -/
def raisesOver (x : Seen) (p : Policy) : Bool := (spec.exprs x).raises (.policy 0 p.kind)

/-- The first completion publishes these variables and comes to the policy `wait-after`. -/
structure ComesToWait (delay : NatExpr) : Prop where
  isOpen : s.run.task.state.isCompleted = false
  state : st ≠ .skipped
  publishes : evaluatePublish spec (s.firstSeen spec st info) = some (vars, globals)
  policy : .waitAfter delay ∈ spec.regular.policies
  earlier : ∀ p ∈ spec.regular.policies, p.kind ∈ [.pauseBefore, .waitBefore] →
    raisesOver spec (s.policiesSeen spec st info vars globals) p = false

/-- The seconds by which the policy postpones it: none if it has been there before. -/
def postponedBy (delay : NatExpr) : Nat :=
  if s.run.task.runtimeContext.waitAfterSkip then 0
  else ((spec.exprs (s.policiesSeen spec st info vars globals)).task 0).natExpr delay

/-- While a completion is postponed and after that, every expression has a value, and the policies and the on-clauses do not
    read a part of the context that differs because a merge was not noticed. -/
structure Steady : Prop where
  wait : ∀ {vars globals delay}, s.ComesToWait spec st info vars globals delay →
    raisesOver spec (s.policiesSeen spec st info vars globals) (.waitAfter delay) = false
  delayed : ∀ {vars globals delay}, s.ComesToWait spec st info vars globals delay →
    s.postponedBy spec st info vars globals delay ≠ 0 → ∀ p ∈ spec.regular.policies,
      p.kind ∈ [.failOn, .retry, .timeout, .concurrency] → raisesOver spec
        { s.policiesSeen spec st info vars globals with
          state := .runningDelayed
          stateInfo := some ("Delayed by 'wait-after' policy [delay=" ++
            toString (s.postponedBy spec st info vars globals delay) ++ "]") } p = false
  again : ∀ {vars globals delay}, s.ComesToWait spec st info vars globals delay →
    s.postponedBy spec st info vars globals delay ≠ 0 →
      ∃ vars' globals', evaluatePublish spec (s.secondSeen spec st info vars globals) = some (vars', globals') ∧
        ReadAlike spec ((s.stored.keep globals).merge (.ofDict globals')) (s.stored.merge (.ofDict globals))

/-- Evaluated once more, over what the first evaluation has left, the publish section gives the same branch variables, and no
    global variables that are noticed, or only such that the context has. -/
def PublishesTheSame : Prop := ∀ vars globals delay, s.ComesToWait spec st info vars globals delay →
  s.postponedBy spec st info vars globals delay ≠ 0 →
    ∀ vars' globals', evaluatePublish spec (s.secondSeen spec st info vars globals) = some (vars', globals') →
      vars' = vars ∧ ((s.stored.keep globals).setsKey globals' → .ofDict globals' ≤ s.stored.keep globals)

/-- The state that the policies and the on-clauses of the task leave it in, without `wait-after`. -/
def endState : State := (handling "Failed to complete task: " (s.goOn spec.withoutWaitAfter)).run.task.state

/-- The row that the first completion gives to the policies. -/
def left : PublishingRun :=
  (({ s.load with
      run := s.run.setState st info none
      inContext := s.inContext.update spec.inbound } : PublishingRun).withVariables vars globals).dropResult spec

end

/-- The two task executions end in the same state, with the same variables. -/
structure SameEnd (a b : PublishingRun) : Prop where
  state : a.run.task.state = b.run.task.state
  published : a.published = b.published
  stored : a.stored = b.stored

/-! ### What the completions schedule -/

theorem scheduled_none {extra : List Job} (hjobs : a.run.jobs = s.run.jobs ++ extra)
    (hextra : ∀ j ∈ extra, ∀ t st info, j ≠ .completeTask t st info) : s.scheduled a = none := by
  rw [scheduled, hjobs, List.drop_left, List.findSome?_eq_none_iff]
  intro j hj
  cases j with
  | completeTask t st info => exact absurd rfl (hextra _ hj t st info)
  | _ => rfl

theorem scheduled_none_of_jobs (hjobs : a.run.jobs = s.run.jobs) : s.scheduled a = none := by
  have hextra : a.run.jobs = s.run.jobs ++ [] := by rw [hjobs, List.append_nil]
  exact scheduled_none hextra fun _ hj => absurd hj List.not_mem_nil

theorem jobs_afterTaskComplete (spec : PublishingSpec) (hps : ∀ p ∈ ps, p.kind ≠ .waitAfter) (s : PublishingRun) : ∃ extra,
    (afterTaskComplete spec ps s).1.run.jobs = s.run.jobs ++ extra ∧ ∀ j ∈ extra, ∀ t st info, j ≠ .completeTask t st info := by
  induction ps generalizing s with
  | nil => exact ⟨[], (List.append_nil _).symm, fun _ hj => absurd hj List.not_mem_nil⟩
  | cons p ps ih =>
    obtain ⟨hp, hps⟩ := List.forall_mem_cons.mp hps
    simp only [afterTaskComplete]
    split
    · exact ⟨[], (List.append_nil _).symm, fun _ hj => absurd hj List.not_mem_nil⟩
    · obtain ⟨extra, hextra, hnone⟩ := ih hps { s with run := s.run.afterTaskComplete spec.regular (spec.exprs (s.seen spec)) p }
      obtain ⟨own, hown, hnone'⟩ := RegularRun.jobs_afterTaskComplete spec.regular (spec.exprs (s.seen spec)) s.run hp
      refine ⟨own ++ extra, ?_, fun j hj => ?_⟩
      · rw [hextra, hown, List.append_assoc]
      · exact (List.mem_append.mp hj).elim (hnone' j) (hnone j)

/-! ### One completion -/

/-- Handling what policies have done. -/
theorem handling_fields (what : String) (r : PublishingRun × Bool) : (handling what r).run.jobs = r.1.run.jobs ∧
    (handling what r).run.task.state = if r.2 then .error else r.1.run.task.state := by
  unfold handling
  split
  · exact ⟨rfl, RegularRun.state_setState⟩
  · exact ⟨rfl, rfl⟩

theorem dropResult_eq (spec : PublishingSpec) (s : PublishingRun) :
    s.dropResult spec = { s with run := (s.dropResult spec).run } := by
  unfold dropResult
  split <;> rfl

theorem dropResult_fields (spec : PublishingSpec) (s : PublishingRun) : (s.dropResult spec).run.jobs = s.run.jobs ∧
    (s.dropResult spec).run.task.state = s.run.task.state ∧ (s.dropResult spec).run.task.stateInfo = s.run.task.stateInfo ∧
    (s.dropResult spec).run.task.runtimeContext = s.run.task.runtimeContext := by
  unfold dropResult
  split <;> exact ⟨rfl, rfl, rfl, rfl⟩

theorem left_fields (spec : PublishingSpec) (s : PublishingRun) (st : State) (info : Option String) (vars : Contents)
    (globals : Dict) : (s.left spec st info vars globals).run.jobs = s.run.jobs ∧
    (s.left spec st info vars globals).run.task.state = st ∧ (s.left spec st info vars globals).run.task.stateInfo = info ∧
    (s.left spec st info vars globals).run.task.runtimeContext = s.run.task.runtimeContext := by
  obtain ⟨hjobs, hstate, hinfo, hcontext⟩ := dropResult_fields spec (({ s.load with
    run := s.run.setState st info none, inContext := s.inContext.update spec.inbound } : PublishingRun).withVariables vars globals)
  refine ⟨hjobs, hstate.trans RegularRun.state_setState, hinfo.trans ?_, hcontext.trans RegularRun.runtimeContext_setState⟩
  show (s.run.setState st info none).task.stateInfo = info
  rw [RegularRun.task_setState]
  rfl

/-- The row, apart from the task execution. -/
theorem left_eq (spec : PublishingSpec) (s : PublishingRun) (st : State) (info : Option String) (vars : Contents)
    (globals : Dict) : (s.left spec st info vars globals).published = vars ∧
    (s.left spec st info vars globals).inContext = s.inContext.update spec.inbound ∧
    (s.left spec st info vars globals).context = s.stored.merge (.ofDict globals) ∧
    (s.left spec st info vars globals).commit.stored = s.stored.keep globals := by
  rw [left, dropResult_eq]
  exact ⟨rfl, rfl, rfl, rfl⟩

theorem result_withState (spec : PublishingSpec) (s : PublishingRun) (st : State) (info : Option String) :
    (s.run.setState st info none).task.getTaskExecutionResult spec.withItems = s.run.task.getTaskExecutionResult spec.withItems := by
  rw [RegularRun.task_setState]
  rfl

/-- What the policies read. -/
theorem seen_left (spec : PublishingSpec) (s : PublishingRun) (st : State) (info : Option String) (vars : Contents)
    (globals : Dict) : (s.left spec st info vars globals).seen spec = s.policiesSeen spec st info vars globals := by
  obtain ⟨-, hstate, hinfo, -⟩ := left_fields spec s st info vars globals
  obtain ⟨hpublished, hin, hcontext, -⟩ := left_eq spec s st info vars globals
  have hresult : (s.left spec st info vars globals).run.task.getTaskExecutionResult spec.withItems =
      (s.dropResult spec).run.task.getTaskExecutionResult spec.withItems := by
    unfold left dropResult
    split
    · exact result_withState spec s st info
    · show (TaskEx.destroyResult (s.run.setState st info none).task).getTaskExecutionResult spec.withItems = _
      rw [RegularRun.task_setState]
      rfl
  rw [seen, hstate, hinfo, hpublished, hin, hcontext, hresult]
  rfl

/-- What the publish section reads. -/
theorem seen_first (spec : PublishingSpec) (s : PublishingRun) (st : State) (info : Option String) :
    ((s.load.setState st info).updateInboundContext spec).seen spec = s.firstSeen spec st info := by
  have hstate : (s.run.setState st info none).task.state = st := RegularRun.state_setState
  have hinfo : (s.run.setState st info none).task.stateInfo = info := by
    rw [RegularRun.task_setState]
    rfl
  show (Seen.mk (s.run.setState st info none).task.state (s.run.setState st info none).task.stateInfo
    ((s.run.setState st info none).task.getTaskExecutionResult spec.withItems) _ _ _) = _
  rw [hstate, hinfo, result_withState]
  rfl

theorem complete_of (hopen : s.run.task.state.isCompleted = false) (hst : st ≠ .skipped) : s.load.complete spec st info =
    if (((s.load.setState st info).updateInboundContext spec).publishVariables spec).2 then
      ((((s.load.setState st info).updateInboundContext spec).publishVariables spec).1, true)
    else ((((s.load.setState st info).updateInboundContext spec).publishVariables spec).1.dropResult spec).goOn spec := by
  have hskipped : st.isSkipped = false := by simpa [State.isSkipped] using hst
  have hopen : s.load.run.task.state.isCompleted = false := hopen
  simp only [complete, hopen, Bool.false_and, Bool.false_eq_true, if_false, hskipped]

theorem completes_of_some (hopen : s.run.task.state.isCompleted = false) (hst : st ≠ .skipped)
    (h : evaluatePublish spec (s.firstSeen spec st info) = some (vars, globals)) :
    s.completes spec st info = (handling "Failed to complete task: " ((s.left spec st info vars globals).goOn spec)).commit := by
  rw [← seen_first] at h
  rw [completes, complete_of hopen hst, publishVariables_of_some h, if_neg Bool.false_ne_true]
  rfl

/-- Where an expression of the publish section has no value, no policy is asked. -/
theorem completes_of_none (hopen : s.run.task.state.isCompleted = false) (hst : st ≠ .skipped)
    (h : evaluatePublish spec (s.firstSeen spec st info) = none) :
    s.completes spec st info = s.completes spec.withoutWaitAfter st info ∧ (s.completes spec st info).run.jobs = s.run.jobs := by
  rw [← seen_first] at h
  have hother : evaluatePublish spec.withoutWaitAfter
      (((s.load.setState st info).updateInboundContext spec.withoutWaitAfter).seen spec.withoutWaitAfter) = none := h
  obtain ⟨vars, hvars⟩ := publishVariables_of_none h
  obtain ⟨others, hothers⟩ := publishVariables_of_none hother
  have hsame : (((s.load.setState st info).updateInboundContext spec.withoutWaitAfter).publishVariables spec.withoutWaitAfter) =
      (((s.load.setState st info).updateInboundContext spec).publishVariables spec) := rfl
  rw [completes, completes, complete_of hopen hst, complete_of hopen hst, hsame, hvars, if_pos rfl, if_pos rfl]
  exact ⟨rfl, rfl⟩

/-- Policies are not asked about a task that is skipped. -/
theorem completes_skipped (spec : PublishingSpec) (s : PublishingRun) (info : Option String) :
    s.completes spec .skipped info = s.completes spec.withoutWaitAfter .skipped info ∧
      (s.completes spec .skipped info).run.jobs = s.run.jobs := by
  have hskipped : ∀ spec : PublishingSpec, s.load.complete spec .skipped info =
      if (((s.load.setState .skipped info).updateInboundContext spec).publishVariables spec).2 then
        ((((s.load.setState .skipped info).updateInboundContext spec).publishVariables spec).1, true)
      else
        let s' := (((s.load.setState .skipped info).updateInboundContext spec).publishVariables spec).1.dropResult spec
        (s', (spec.exprs (s'.seen spec)).raises (.transitions 0)) := fun spec => by
    simp only [complete, State.isSkipped, beq_self_eq_true, Bool.not_true, Bool.and_false, Bool.false_eq_true, if_false, if_true]
  refine ⟨?_, ?_⟩
  · rw [completes, completes, hskipped, hskipped]
    rfl
  · have hpublish := publishVariables_eq spec ((s.load.setState .skipped info).updateInboundContext spec)
    obtain ⟨hjobs, -, -, -⟩ := dropResult_fields spec
      (((s.load.setState .skipped info).updateInboundContext spec).publishVariables spec).1
    have hrun : (((s.load.setState .skipped info).updateInboundContext spec).publishVariables spec).1.run.jobs = s.run.jobs := by
      split at hpublish
      next => rw [hpublish]; rfl
      next => obtain ⟨vars, hvars⟩ := hpublish; rw [hvars]; rfl
    rw [completes, hskipped]
    show (handling _ _).run.jobs = _
    rw [(handling_fields _ _).1]
    split
    · exact hrun
    · exact hjobs.trans hrun

theorem completes_of_completed (spec : PublishingSpec) (info : Option String) (hdone : s.run.task.state.isCompleted)
    (hst : st ≠ .skipped) :
    (s.completes spec st info).run = s.run ∧ (s.completes spec st info).published = s.published ∧
      (s.completes spec st info).stored = s.stored := by
  have hskipped : st.isSkipped = false := by simpa [State.isSkipped] using hst
  have hdone : s.load.run.task.state.isCompleted := hdone
  have hcomplete : s.load.complete spec st info = (s.load, false) := by
    simp only [complete, hdone, hskipped, Bool.not_false, Bool.and_true, if_true]
  rw [completes, hcomplete]
  exact ⟨rfl, rfl, rfl⟩

/-- The policies and the on-clauses do not publish. -/
theorem goOn_eq (spec : PublishingSpec) (s : PublishingRun) : (s.goOn spec).1 = { s with run := (s.goOn spec).1.run } :=
  afterTaskComplete_eq _ _

theorem ends_goOn (spec spec' : PublishingSpec) (s : PublishingRun) (st : State) (info : Option String) (vars : Contents)
    (globals : Dict) : (handling "Failed to complete task: " ((s.left spec st info vars globals).goOn spec')).commit.published = vars ∧
      (handling "Failed to complete task: " ((s.left spec st info vars globals).goOn spec')).commit.stored =
        s.stored.keep globals := by
  obtain ⟨hpublished, -, -, hstored⟩ := left_eq spec s st info vars globals
  unfold handling
  rw [goOn_eq]
  split <;> exact ⟨hpublished, hstored⟩

/-! ### Both completions -/

/-- A completion that is not postponed goes on as without `wait-after`. -/
theorem Parts.goOn (h : Parts spec.regular.policies early wait late) (halike : Alike spec a s) (hnot : delays spec a = false)
    (hquiet : ∀ p ∈ early ++ (wait.map Policy.waitAfter).toList, policyRaises spec s p = false) :
    (a.goOn spec).2 = (s.goOn spec.withoutWaitAfter).2 ∧ Alike spec (a.goOn spec).1 (s.goOn spec.withoutWaitAfter).1 := by
  have hwith : afterTaskComplete spec spec.regular.policies a = afterTaskComplete spec late a := by
    rcases h.cases a with ⟨⟨p, hp, hraises⟩, -⟩ | ⟨-, ⟨hdelays, -⟩ | ⟨-, heq⟩⟩
    · rw [policyRaises, halike.exprs] at hraises
      exact absurd (hraises.symm.trans (hquiet p hp)) (by rintro ⟨⟩)
    · exact absurd (hdelays.symm.trans hnot) (by rintro ⟨⟩)
    · exact heq
  have hwithout : afterTaskComplete spec.withoutWaitAfter spec.withoutWaitAfter.regular.policies s =
      afterTaskComplete spec late s := by
    rw [h.without, if_neg]
    intro hany
    obtain ⟨p, hp, hraises⟩ := List.any_eq_true.mp hany
    exact absurd (hraises.symm.trans (hquiet p (List.mem_append_left _ hp))) (by rintro ⟨⟩)
  obtain ⟨hraised, hlate⟩ := halike.afterTaskComplete h.late_ne
  simp only [PublishingRun.goOn, hwith, hwithout, hraised, hlate.state]
  refine ⟨?_, hlate⟩
  rw [hlate.exprs]
  rfl

/-- The policy postpones the completion where it has a delay. -/
theorem Parts.delays_left (h : Parts spec.regular.policies early wait late) :
    delays spec (s.left spec st info vars globals) = wait.any fun delay => s.postponedBy spec st info vars globals delay != 0 := by
  obtain ⟨-, -, -, hcontext⟩ := left_fields spec s st info vars globals
  rw [h.delays_eq, hcontext, seen_left]
  cases wait with
  | none => simp
  | some delay =>
    simp only [Option.any_some, postponedBy]
    cases s.run.task.runtimeContext.waitAfterSkip <;> simp

/-- After the delay, the row is as the first completion has left it. -/
theorem alike_second (spec : PublishingSpec) (s : PublishingRun) (st : State) (info : Option String) (n : Nat) {globals' : Dict}
    (hread : ReadAlike spec ((s.stored.keep globals).merge (.ofDict globals')) (s.stored.merge (.ofDict globals))) :
    Alike spec ((({ s.left spec st info vars globals with run := (s.left spec st info vars globals).run.delayed n } :
      PublishingRun).commit).left spec st info vars globals') (s.left spec st info vars globals) := by
  obtain ⟨hpublished, hin, hcontext, hstored⟩ := left_eq spec s st info vars globals
  obtain ⟨-, hstate, hinfo, -⟩ := left_fields spec s st info vars globals
  have hdropped : (s.left spec st info vars globals).dropResult spec = s.left spec st info vars globals := dropResult_dropResult
  generalize s.left spec st info vars globals = l at hpublished hin hcontext hstored hstate hinfo hdropped ⊢
  have hbefore : Alike spec (({ ({ l with run := l.run.delayed n } : PublishingRun).commit.load with
      run := (l.run.delayed n).setState st info none, inContext := l.inContext.update spec.inbound } :
        PublishingRun).withVariables vars globals') l := by
    refine ⟨hpublished.symm, ?_, ?_, ?_⟩
    · show l.inContext.update spec.inbound = l.inContext
      rw [hin, Contents.update_update]
    · show ReadAlike spec (Contents.merge l.commit.stored (.ofDict globals')) l.context
      rw [hstored, hcontext]
      exact hread
    · have hdelayed : (l.run.delayed n).task = (l.run.task.mapContext fun c => { c with waitAfterSkip := true }).withState
          .runningDelayed (some ("Delayed by 'wait-after' policy [delay=" ++ toString n ++ "]")) none := RegularRun.task_setState
      have hset : ((l.run.delayed n).setState st info none).task = (l.run.delayed n).task.withState st info none :=
        RegularRun.task_setState
      show TaskEx.mapContext _ ((l.run.delayed n).setState st info none).task = _
      rw [hset, hdelayed, ← hstate, ← hinfo]
      rfl
  have halike := hbefore.dropResult
  rwa [hdropped] at halike

/-- What the publish section reads after the delay. -/
theorem seen_second (spec : PublishingSpec) (s : PublishingRun) (st : State) (info : Option String) (n : Nat) :
    (({ s.left spec st info vars globals with run := (s.left spec st info vars globals).run.delayed n } :
      PublishingRun).commit).firstSeen spec st info = s.secondSeen spec st info vars globals := by
  obtain ⟨hpublished, hin, -, hstored⟩ := left_eq spec s st info vars globals
  have hseen := congrArg Seen.result (seen_left spec s st info vars globals)
  generalize s.left spec st info vars globals = l at hpublished hin hstored hseen ⊢
  have hresult : (l.run.delayed n).task.getTaskExecutionResult spec.withItems = l.run.task.getTaskExecutionResult spec.withItems := by
    have hdelayed : (l.run.delayed n).task = (l.run.task.mapContext fun c => { c with waitAfterSkip := true }).withState
        .runningDelayed (some ("Delayed by 'wait-after' policy [delay=" ++ toString n ++ "]")) none := RegularRun.task_setState
    rw [hdelayed]
    rfl
  have hseen : l.run.task.getTaskExecutionResult spec.withItems =
      (s.dropResult spec).run.task.getTaskExecutionResult spec.withItems := hseen
  show Seen.mk st info ((l.run.delayed n).task.getTaskExecutionResult spec.withItems) l.published
    (l.inContext.update spec.inbound) l.commit.stored = _
  rw [hresult, hseen, hpublished, hin, Contents.update_update, hstored]
  rfl

/-- What the policies after `wait-after` read while the task is delayed. -/
theorem seen_delayed (spec : PublishingSpec) (s : PublishingRun) (st : State) (info : Option String) (n : Nat) :
    ({ s.left spec st info vars globals with run := (s.left spec st info vars globals).run.delayed n } : PublishingRun).seen spec =
      { s.policiesSeen spec st info vars globals with
        state := .runningDelayed
        stateInfo := some ("Delayed by 'wait-after' policy [delay=" ++ toString n ++ "]") } := by
  rw [← seen_left]
  generalize s.left spec st info vars globals = l
  have hdelayed : (l.run.delayed n).task = (l.run.task.mapContext fun c => { c with waitAfterSkip := true }).withState
      .runningDelayed (some ("Delayed by 'wait-after' policy [delay=" ++ toString n ++ "]")) none := RegularRun.task_setState
  simp only [seen, hdelayed]
  rfl

/-- The completion that comes after the delay. -/
theorem Parts.second (h : Parts spec.regular.policies early wait late) {n : Nat} (hst : st ≠ .skipped)
    (hquiet : ∀ p ∈ early ++ (wait.map Policy.waitAfter).toList, policyRaises spec (s.left spec st info vars globals) p = false)
    {vars' : Contents} {globals' : Dict}
    (hagain : evaluatePublish spec (s.secondSeen spec st info vars globals) = some (vars', globals'))
    (hread : ReadAlike spec ((s.stored.keep globals).merge (.ofDict globals')) (s.stored.merge (.ofDict globals)))
    {d w : PublishingRun} (hd : d = ({ s.left spec st info vars globals with
      run := (s.left spec st info vars globals).run.delayed n } : PublishingRun).commit) (hw : w = d.completes spec st info) :
    w.run.task.state = (s.left spec st info vars globals).endState spec ∧ w.published = vars ∧ w.stored = s.stored.keep globals ↔
      vars' = vars ∧ (s.stored.keep globals).keep globals' = s.stored.keep globals := by
  obtain ⟨-, -, -, hstored⟩ := left_eq spec s st info vars globals
  have hopen : d.run.task.state.isCompleted = false := by
    rw [hd, show (_ : PublishingRun).run.task.state = .runningDelayed from RegularRun.state_setState]
    rfl
  have hkept : d.stored = s.stored.keep globals := by
    rw [hd]
    exact hstored
  have hpublish : evaluatePublish spec (d.firstSeen spec st info) = some (vars', globals') := by
    rw [hd, seen_second, hagain]
  have hskip : d.run.task.runtimeContext.waitAfterSkip = true := by
    rw [hd]
    show (RegularRun.delayed n _).task.runtimeContext.waitAfterSkip = true
    have hcontext : ((s.left spec st info vars globals).run.delayed n).task.runtimeContext =
        { (s.left spec st info vars globals).run.task.runtimeContext with waitAfterSkip := true } := RegularRun.runtimeContext_setState
    rw [hcontext]
  rw [completes_of_some hopen hst hpublish] at hw
  obtain ⟨hpublished, hends⟩ := ends_goOn spec spec d st info vars' globals'
  rw [← hw] at hpublished hends
  rw [hpublished, hends, hkept]
  constructor
  · rintro ⟨-, hvars, hkeep⟩
    exact ⟨hvars, hkeep⟩
  · rintro ⟨rfl, hkeep⟩
    refine ⟨?_, rfl, hkeep⟩
    have halike : Alike spec (d.left spec st info vars' globals') (s.left spec st info vars' globals) := by
      rw [hd]
      exact alike_second spec s st info n hread
    have hnot : delays spec (d.left spec st info vars' globals') = false := by
      rw [h.delays_left]
      cases wait with
      | none => rfl
      | some delay => simp [postponedBy, hskip]
    obtain ⟨hraised, hend⟩ := h.goOn halike hnot hquiet
    rw [hw]
    show (handling _ _).run.task.state = _
    rw [(handling_fields _ _).2, hraised, hend.state, endState, (handling_fields _ _).2]

/-- A completion that the task without `wait-after` has in the same way, and that schedules nothing. -/
theorem sameEnd_of_eq {other : PublishingRun} (hend : SameEnd (s.completes spec st info) other)
    (hjobs : (s.completes spec st info).run.jobs = s.run.jobs) : SameEnd (s.completesInTurn spec st info) other := by
  rw [completesInTurn, scheduled_none_of_jobs hjobs]
  exact hend

/-- The policies of the first completion, and what follows. -/
theorem Parts.first (h : Parts spec.regular.policies early wait late) (hopen : s.run.task.state.isCompleted = false)
    (hst : st ≠ .skipped) (hpublish : evaluatePublish spec (s.firstSeen spec st info) = some (vars, globals))
    (hsteady : s.Steady spec st info) :
    SameEnd (s.completesInTurn spec st info) (s.completes spec.withoutWaitAfter st info) ↔ s.PublishesTheSame spec st info := by
  obtain ⟨hjobs, hstate, hinfo, -⟩ := left_fields spec s st info vars globals
  have hcomes : ∀ {delay}, wait = some delay →
      (∀ p ∈ early, raisesOver spec (s.policiesSeen spec st info vars globals) p = false) →
        s.ComesToWait spec st info vars globals delay := fun hwait hquiet =>
    { isOpen := hopen
      state := hst
      publishes := hpublish
      policy := h.wait_mem hwait
      earlier := fun p hp hkind => hquiet p (h.mem_early hp hkind) }
  have hwith : s.completes spec st info =
      (handling "Failed to complete task: " ((s.left spec st info vars globals).goOn spec)).commit :=
    completes_of_some hopen hst hpublish
  have hwithout : s.completes spec.withoutWaitAfter st info =
      (handling "Failed to complete task: " ((s.left spec st info vars globals).goOn spec.withoutWaitAfter)).commit :=
    have hpublish : evaluatePublish spec.withoutWaitAfter (s.firstSeen spec.withoutWaitAfter st info) = some (vars, globals) := hpublish
    completes_of_some hopen hst hpublish
  -- The other side: the task without the policy.
  have hother : ∀ w : PublishingRun, SameEnd w (s.completes spec.withoutWaitAfter st info) ↔
      w.run.task.state = (s.left spec st info vars globals).endState spec ∧ w.published = vars ∧
        w.stored = s.stored.keep globals := fun w => by
    obtain ⟨hpublished, hstored⟩ := ends_goOn spec spec.withoutWaitAfter s st info vars globals
    rw [hwithout]
    constructor
    · rintro ⟨hstate, hsame, hkept⟩
      exact ⟨hstate, hsame.trans hpublished, hkept.trans hstored⟩
    · rintro ⟨hstate, hsame, hkept⟩
      exact ⟨hstate, hsame.trans hpublished.symm, hkept.trans hstored.symm⟩
  obtain ⟨hpublished, hstored⟩ := ends_goOn spec spec s st info vars globals
  rw [← hwith] at hpublished hstored
  -- A completion that is not postponed.
  have hnever : (∀ delay, wait = some delay → s.postponedBy spec st info vars globals delay = 0 ∨
      ∃ p ∈ early, raisesOver spec (s.policiesSeen spec st info vars globals) p) → s.PublishesTheSame spec st info :=
    fun hnone vars₁ globals₁ delay hwait hn => by
      have heq := hwait.publishes.symm.trans hpublish
      cases heq
      rcases hnone delay (h.wait_of_mem hwait.policy) with hzero | ⟨p, hp, hraises⟩
      · exact absurd hzero hn
      · have hquiet := hwait.earlier p (by rw [h.eq]; exact List.mem_append_left _ hp) (h.early p hp)
        exact absurd (hraises.symm.trans hquiet) (by rintro ⟨⟩)
  rcases h.cases (s.left spec st info vars globals) with ⟨⟨p, hp, hraises⟩, heq⟩ | ⟨hquiet, ⟨hdelays, heq⟩ | ⟨hnot, heq⟩⟩
  · -- A policy raises before the completion is postponed. It is none that the task has in both cases, or both end in `ERROR`.
    have hgo : (s.left spec st info vars globals).goOn spec = (s.left spec st info vars globals, true) := by
      simp [PublishingRun.goOn, heq]
    obtain ⟨hsame, hend⟩ := handling_fields "Failed to complete task: " (s.left spec st info vars globals, true)
    have hend : (s.completes spec st info).run.task.state = .error := by
      rw [hwith, hgo]
      exact hend
    have hkept : (s.completes spec st info).run.jobs = s.run.jobs := by
      rw [hwith, hgo]
      exact hsame.trans hjobs
    rw [completesInTurn, scheduled_none_of_jobs hkept, hother]
    dsimp only
    by_cases hearly : ∃ p ∈ early, policyRaises spec (s.left spec st info vars globals) p
    · obtain ⟨q, hq, hraises⟩ := hearly
      have hany : early.any (policyRaises spec (s.left spec st info vars globals)) = true := List.any_eq_true.mpr ⟨q, hq, hraises⟩
      have hfails : (s.left spec st info vars globals).endState spec = .error := by
        rw [endState, (handling_fields _ _).2, PublishingRun.goOn, h.without, if_pos hany]
        rfl
      refine iff_of_true ⟨hend.trans hfails.symm, hpublished, hstored⟩ (hnever fun delay _ => .inr ⟨q, hq, ?_⟩)
      rwa [policyRaises, seen_left] at hraises
    · have hquiet : ∀ p ∈ early, raisesOver spec (s.policiesSeen spec st info vars globals) p = false := fun q hq => by
        rw [← seen_left]
        exact Bool.eq_false_iff.mpr fun hraises => hearly ⟨q, hq, hraises⟩
      rcases List.mem_append.mp hp with hp | hp
      · exact absurd ⟨p, hp, hraises⟩ hearly
      · obtain ⟨delay, hwait, rfl⟩ := Option.map_eq_some_iff.mp (Option.mem_toList.mp hp)
        rw [policyRaises, seen_left] at hraises
        exact absurd (hraises.symm.trans (hsteady.wait (hcomes hwait hquiet))) (by rintro ⟨⟩)
  · -- The completion is postponed.
    obtain ⟨delay, n, hwait, hn, heq⟩ := heq
    have hquietEarly : ∀ p ∈ early, raisesOver spec (s.policiesSeen spec st info vars globals) p = false := fun p hp => by
      rw [← seen_left]
      exact hquiet p (List.mem_append_left _ hp)
    have hcomes := hcomes hwait hquietEarly
    have hpostponed : s.postponedBy spec st info vars globals delay ≠ 0 := by
      rw [h.delays_left, hwait] at hdelays
      simpa using hdelays
    have hby : n = s.postponedBy spec st info vars globals delay := by
      unfold postponedBy at hpostponed ⊢
      split at hpostponed
      · exact absurd rfl hpostponed
      next hskip => rw [if_neg hskip, hn, seen_left]
    have hdelayed : ((s.left spec st info vars globals).run.delayed n).task.state = .runningDelayed := RegularRun.state_setState
    have hlate : late.any (policyRaises spec { s.left spec st info vars globals with
        run := (s.left spec st info vars globals).run.delayed n }) = false := by
      refine List.any_eq_false.mpr fun p hp => ?_
      have hraises := hsteady.delayed hcomes hpostponed p (h.late_mem hp) (h.late p hp)
      rw [policyRaises, seen_delayed, hby]
      rw [raisesOver] at hraises
      rw [hraises]
      exact Bool.false_ne_true
    rw [hlate] at heq
    have hgo : (s.left spec st info vars globals).goOn spec =
        ({ s.left spec st info vars globals with run := (s.left spec st info vars globals).run.delayed n }, false) := by
      simp [PublishingRun.goOn, heq, hdelayed]
    have hwith : s.completes spec st info = ({ s.left spec st info vars globals with
        run := (s.left spec st info vars globals).run.delayed n } : PublishingRun).commit := by
      rw [hwith, hgo]
      rfl
    have hscheduled : s.scheduled (s.completes spec st info) = some (st, info) := by
      have hadded : (s.completes spec st info).run.jobs = s.run.jobs ++ [.completeTask 0 st info] := by
        have hown : ((s.left spec st info vars globals).run.delayed n).jobs = (s.left spec st info vars globals).run.jobs ++
          [.completeTask 0 (s.left spec st info vars globals).run.task.state
            (s.left spec st info vars globals).run.task.stateInfo] := rfl
        rw [hwith]
        show ((s.left spec st info vars globals).run.delayed n).jobs = _
        rw [hown, hjobs, hstate, hinfo]
      rw [scheduled, hadded, List.drop_left]
      rfl
    obtain ⟨vars', globals', hagain, hread⟩ := hsteady.again hcomes hpostponed
    have hsecond := h.second (n := n) hst hquiet hagain hread hwith rfl
    rw [completesInTurn, hscheduled, hother]
    dsimp only
    rw [hsecond, Contents.keep_eq_left_iff]
    constructor
    · rintro hsame vars₁ globals₁ delay₁ hwait₁ - vars₂ globals₂ hagain₂
      have heq := hwait₁.publishes.symm.trans hpublish
      cases heq
      have heq := hagain₂.symm.trans hagain
      cases heq
      exact hsame
    · exact fun hsame => hsame vars globals delay hcomes hpostponed vars' globals' hagain
  · -- It is not postponed.
    obtain ⟨hraised, hend⟩ := h.goOn (.refl _) hnot hquiet
    have hkept : s.scheduled (s.completes spec st info) = none := by
      obtain ⟨extra, hextra, hcompletion⟩ := jobs_afterTaskComplete spec h.late_ne (s.left spec st info vars globals)
      refine scheduled_none ?_ hcompletion
      rw [hwith]
      show (handling _ _).run.jobs = _
      rw [(handling_fields _ _).1, ← hjobs, ← hextra, ← heq]
      rfl
    have hstate : (s.completes spec st info).run.task.state = (s.left spec st info vars globals).endState spec := by
      rw [hwith]
      show (handling _ _).run.task.state = _
      rw [(handling_fields _ _).2, hraised, hend.state, endState, (handling_fields _ _).2]
    rw [completesInTurn, hkept, hother]
    refine iff_of_true ⟨hstate, hpublished, hstored⟩ (hnever fun delay hwait => .inl ?_)
    rw [h.delays_left, hwait] at hnot
    simpa using hnot

end PublishingRun

open PublishingRun

/-- A task with the policy that publishes its result. -/
def publishingTask : TaskSpec := { name := "t", policies := { waitAfter := .lit 5 }, keepResult := false }

/-- `x: <% task().result %>`, and a flag for the whole workflow. -/
def publishResult : Publish where
  branch seen := some (.ofDict [("x", .value (match seen.result with
    | .one (some value) => value
    | _ => "null"))])
  globals _ := some [("done", .value "true")]

def publishingSpec (keepResult : Bool) : PublishingSpec where
  regular := { policies := ({ tasks := [publishingTask] } : WorkflowSpec).buildPolicies publishingTask, keepResult }
  publish st := if st = .success then some publishResult else none
  exprs _ := {}
  inbound := .ofDict []

/-- The action of the task has just succeeded. -/
def succeeded : PublishingRun where
  run :=
    let execution : Execution := { index := 0, state := .success, accepted := true, output := some "42" }
    { task := { name := "t", state := .running, executions := [execution] } }
  published := .ofDict []
  inContext := .ofDict []
  stored := .ofDict []

end Mistral
