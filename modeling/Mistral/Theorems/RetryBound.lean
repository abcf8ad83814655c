import Mistral.Engine.RetryEffects

/-! The attempts of a task with a retry policy: how many there are, and when they stop. -/

namespace Mistral

namespace RegularRun
variable {spec : RegularSpec} {o : Oracle} {r : RetrySpec} {n : Nat} {s s' : RegularRun} {i : Nat} {st : State}
  {info : Option String} {processed : Option Bool}

/-! ### Attempts and their executions -/

/-- Which executions are completed, and which of them are accepted. -/
def marks (s : RegularRun) : List (Bool × Bool) := s.task.executions.map fun x => (x.state.isCompleted, x.accepted)

/-- The number of the last retry. -/
def retries (s : RegularRun) : Nat := s.task.runtimeContext.retryNo.getD 0

/-- The part of a state that the invariant is about, apart from the state of the task and the number of retries. -/
def ledger (s : RegularRun) : List (Bool × Bool) × List Nat × Nat × List StartTask × List Job × List Nat × List Nat :=
  (s.marks, s.startedBy, s.begun, s.starts, s.jobs, s.subStarts, s.subResults)

/-- Every execution has an attempt of its own. -/
structure Recorded (s : RegularRun) : Prop where
  length : s.startedBy.length = s.marks.length
  nodup : s.startedBy.Nodup
  range : ∀ k ∈ s.startedBy, 0 < k ∧ k ≤ s.begun

/-- Nothing is on its way to the task. -/
def Idle (s : RegularRun) : Prop := s.starts = [] ∧ s.jobs = [] ∧ s.subStarts = [] ∧ s.subResults = []

/-- Only results of the last attempt are accepted. With `ev`, where every expression has a value, all of them are. -/
structure Accepts (ev : Prop) (s : RegularRun) : Prop where
  only : ∀ (i : Nat) (c : Bool), s.marks[i]? = some (c, true) → c ∧ s.startedBy[i]? = some s.begun
  all : ev → ∀ (i : Nat) (a : Bool), s.marks[i]? = some (true, a) → s.startedBy[i]? = some s.begun → a

/-- Every attempt has ended, and nothing is on its way. -/
structure Still (ev : Prop) (n : Nat) (s : RegularRun) : Prop where
  idle : s.Idle
  recorded : s.Recorded
  accepts : s.Accepts ev
  settled : ∀ m ∈ s.marks, m.1
  le : s.begun ≤ n + 1

/-- The last attempt has ended, and the policy has not decided yet. -/
structure Quiet (ev : Prop) (n : Nat) (s : RegularRun) : Prop extends s.Still ev n where
  count : s.begun = s.retries + 1

/-- The next attempt may begin: every result of the attempts before it was dropped. -/
structure Ready (n : Nat) (s : RegularRun) : Prop where
  idle : s.Idle
  recorded : s.Recorded
  clean : ∀ m ∈ s.marks, m = (true, false)
  count : s.begun = s.retries
  le : s.begun ≤ n

/-- How far a run is: one thing is on its way at a time. The job for the next attempt is lost where its transaction is
    rolled back. -/
inductive Phase (ev : Prop) (n : Nat) (s : RegularRun) : Prop
  | fresh (h : ∃ name, s = RegularRun.start name false)
  | ready (hstate : ev → s.task.state = .runningDelayed) (hjobs : s.jobs = [.continueTask 0])
    (h : Ready n { s with jobs := [] })
  | lost (hev : ¬ev) (h : Ready n s)
  | action (hstate : s.task.state = .running) (hidle : s.Idle) (hrecorded : s.Recorded) (haccepts : s.Accepts ev)
    (hown : ∀ (i : Nat) (a : Bool), s.marks[i]? = some (false, a) → s.startedBy[i]? = some s.begun) (hcount : s.begun = s.retries + 1)
    (hle : s.begun ≤ n + 1)
  | asked (hstate : s.task.state = .running) (hsub : s.subStarts = [s.begun]) (hnew : s.begun ∉ s.startedBy)
    (h : Quiet ev n { s with subStarts := [] })
  | answered (i : Nat) (hstate : s.task.state = .running) (hres : s.subResults = [i])
    (hexecution : ∃ x, s.task.executions[i]? = some x ∧ x.state.isCompleted) (h : Quiet ev n { s with subResults := [] })
  | delayed (st : State) (info : Option String) (hst : st.isCompleted ∧ st ≠ .skipped)
    (hstate : ev → s.task.state = .runningDelayed) (hjobs : s.jobs = [.completeTask 0 st info])
    (h : Quiet ev n { s with jobs := [] })
  | done (hstate : s.task.state.isCompleted) (h : s.Still ev n)

variable {ev : Prop}

theorem Still.congr (h : s.Still ev n) (hledger : s'.ledger = s.ledger) : s'.Still ev n := by
  obtain ⟨hidle, ⟨hlength, hnodup, hrange⟩, ⟨honly, hall⟩, hsettled, hle⟩ := h
  simp only [ledger, Prod.mk.injEq] at hledger
  obtain ⟨hmarks, hstarted, hbegun, hstarts, hjobs, hsub, hres⟩ := hledger
  unfold Idle at hidle
  rw [← hmarks] at hlength honly hall hsettled
  rw [← hstarted] at hlength hnodup hrange honly hall
  rw [← hbegun] at hrange honly hall hle
  rw [← hstarts, ← hjobs, ← hsub, ← hres] at hidle
  exact ⟨hidle, ⟨hlength, hnodup, hrange⟩, ⟨honly, hall⟩, hsettled, hle⟩

theorem Quiet.congr (h : s.Quiet ev n) (hledger : s'.ledger = s.ledger) (hretries : s'.retries = s.retries) :
    s'.Quiet ev n := by
  refine ⟨h.toStill.congr hledger, ?_⟩
  simp only [ledger, Prod.mk.injEq] at hledger
  rw [hledger.2.2.1, hretries, h.count]

theorem Ready.congr (h : s.Ready n) (hledger : s'.ledger = s.ledger) (hretries : s'.retries = s.retries) :
    s'.Ready n := by
  obtain ⟨hidle, ⟨hlength, hnodup, hrange⟩, hclean, hcount, hle⟩ := h
  simp only [ledger, Prod.mk.injEq] at hledger
  obtain ⟨hmarks, hstarted, hbegun, hstarts, hjobs, hsub, hres⟩ := hledger
  unfold Idle at hidle
  rw [← hmarks] at hlength hclean
  rw [← hstarted] at hlength hnodup hrange
  rw [← hbegun] at hrange hcount hle
  rw [← hretries] at hcount
  rw [← hstarts, ← hjobs, ← hsub, ← hres] at hidle
  exact ⟨hidle, ⟨hlength, hnodup, hrange⟩, hclean, hcount, hle⟩

@[simp] theorem ledger_setState : (s.setState st info processed).ledger = s.ledger := by
  unfold setState
  split <;> rfl

@[simp] theorem retries_setState : (s.setState st info processed).retries = s.retries := by
  simp only [retries, setState]
  split <;> rfl

theorem ledger_destroyResult : (s.mapTask (·.destroyResult)).ledger = s.ledger := by
  simp [ledger, marks, mapTask, TaskEx.destroyResult, Function.comp_def]

/-- An exception before anything else is done ends the run. -/
theorem Ready.still (h : s.Ready n) (hev : ¬ev) : s.Still ev n where
  idle := h.idle
  recorded := h.recorded
  accepts := by
    refine ⟨fun i c hi => ?_, fun he => absurd he hev⟩
    cases h.clean _ (List.mem_of_getElem? hi)
  settled m hm := by rw [h.clean m hm]
  le := Nat.le_succ_of_le h.le

/-! ### The end of an attempt -/

theorem stops_iff {k : Nat} (hst : st ≠ .cancelled) : r.stops (o.outbound 0) st k n ↔ n ≤ k ∨ r.Stops o st := by
  simp only [RetrySpec.stops, RetrySpec.Stops, Bool.or_eq_true, Bool.and_eq_true, beq_iff_eq, bne_iff_ne, ne_eq,
    Bool.not_eq_true', decide_eq_false_iff_not, not_lt, hst, false_or]
  tauto

theorem marks_invalidateResult {f : RuntimeContext → RuntimeContext} :
    (s.mapTask fun e => e.invalidateResult.mapContext f).marks = s.marks.map fun m => (m.1, false) := by
  simp [marks, mapTask, TaskEx.invalidateResult, TaskEx.mapContext, Function.comp_def]

@[simp] theorem marks_setState : (s.setState st info processed).marks = s.marks := by
  rw [marks, executions_setState]
  rfl

/-- A job that leads to the next attempt. -/
theorem Ready.later (h : Ready n s) (info : Option String) :
    ((s.setState .runningDelayed info none).addJob (.continueTask 0)).task.state = .runningDelayed ∧
      ((s.setState .runningDelayed info none).addJob (.continueTask 0)).jobs = [.continueTask 0] ∧
      Ready n { (s.setState .runningDelayed info none).addJob (.continueTask 0) with jobs := [] } := by
  obtain ⟨hstarts, hjobs, hsub, hres⟩ := h.idle
  have hledger : (s.setState .runningDelayed info none).ledger = s.ledger := ledger_setState
  have hretries : (s.setState .runningDelayed info none).retries = s.retries := retries_setState
  refine ⟨state_setState, ?_, h.congr ?_ hretries⟩
  · show s.jobs ++ [.continueTask 0] = _
    rw [hjobs]
    rfl
  · simp only [ledger, Prod.mk.injEq] at hledger ⊢
    exact ⟨hledger.1, hledger.2.1, hledger.2.2.1, hledger.2.2.2.1, hjobs.symm, hledger.2.2.2.2.2⟩

/-- `retry` decides: it stops at the bound and for its reasons, and otherwise the next attempt is on its way. -/
theorem Quiet.retry (h : s.Quiet ev n) (hn : (o.task 0).natExpr r.count = n) (hjoin : spec.join = false)
    (hdone : s.task.state.isCompleted) :
    (s.begun = n + 1 ∨ r.Stops o s.task.state) ∧ (s.retryAfterTaskComplete spec o r).task.state = s.task.state ∧
      (s.retryAfterTaskComplete spec o r).Still ev n ∨
    ¬(s.begun = n + 1 ∨ r.Stops o s.task.state) ∧
      (s.retryAfterTaskComplete spec o r).task.state = .runningDelayed ∧
      (s.retryAfterTaskComplete spec o r).jobs = [.continueTask 0] ∧
      Ready n { s.retryAfterTaskComplete spec o r with jobs := [] } := by
  have hbegun := h.count
  have hle := h.le
  simp only [retryAfterTaskComplete, hn, hdone, Bool.not_true, Bool.false_or]
  by_cases hzero : n = 0
  · rw [if_pos hzero]
    exact .inl ⟨.inl (by omega), rfl, h.toStill⟩
  rw [if_neg hzero]
  by_cases hcancelled : s.task.state = .cancelled
  · rw [if_pos (by simp [State.isCancelled, hcancelled])]
    exact .inl ⟨.inr (.inl hcancelled), rfl, h.toStill⟩
  rw [if_neg (by simpa [State.isCancelled] using hcancelled)]
  by_cases hstops : r.stops (o.outbound 0) s.task.state (s.task.runtimeContext.retryNo.getD 0) n
  · rw [if_pos hstops]
    have hwhy : s.begun = n + 1 ∨ r.Stops o s.task.state := by
      refine ((stops_iff hcancelled).mp hstops).imp_left fun hbound => ?_
      have hbound : n ≤ s.retries := hbound
      omega
    exact .inl ⟨hwhy, rfl, h.toStill⟩
  · rw [if_neg hstops]
    have hnot : ¬(n ≤ s.retries ∨ r.Stops o s.task.state) := fun hwhy => hstops ((stops_iff hcancelled).mpr hwhy)
    rw [not_or] at hnot
    refine .inr ⟨?_, ?_⟩
    · rintro (hbound | hwhy)
      · exact hnot.1 (by omega)
      · exact hnot.2 hwhy
    simp only [startRetry, hjoin, Bool.false_eq_true, if_false]
    generalize hs' : (s.mapTask fun e => e.invalidateResult.mapContext fun c =>
      { c with retryNo := some (s.task.runtimeContext.retryNo.getD 0 + 1) }) = s'
    have hmarks : s'.marks = s.marks.map fun m => (m.1, false) := by
      rw [← hs', marks_invalidateResult]
    have hidle : s'.Idle := by
      subst hs'
      exact h.idle
    have hready : Ready n s' := by
      refine ⟨hidle, ?_, fun m hm => ?_, ?_, ?_⟩
      · subst hs'
        obtain ⟨hlength, hnodup, hrange⟩ := h.recorded
        exact ⟨by rw [hmarks, List.length_map]; exact hlength, hnodup, hrange⟩
      · rw [hmarks] at hm
        obtain ⟨m', hm', rfl⟩ := List.mem_map.mp hm
        rw [h.settled m' hm']
      · subst hs'
        exact hbegun
      · subst hs'
        have hnot := hnot.1
        show s.begun ≤ n
        omega
    exact hready.later _

/-- The completion of a task, where a `MistralException` ends the run. -/
def Ended (ev : Prop) (n : Nat) (p : RegularRun × Bool) : Prop :=
  if p.2 then ∀ info, Phase ev n (p.1.setState .error info none) else Phase ev n p.1

theorem handling_of_false {p : RegularRun × Bool} {what : String} (h : p.2 = false) : handling what p = p.1 := by
  rw [handling, h]
  rfl

theorem Ended.handling {p : RegularRun × Bool} (h : RegularRun.Ended ev n p) (what : String) :
    Phase ev n (handling what p) := by
  unfold RegularRun.handling
  unfold RegularRun.Ended at h
  split
  next hraised =>
    rw [if_pos hraised] at h
    exact h _
  next hraised =>
    rw [if_neg hraised] at h
    exact h

theorem Still.error (h : s.Still ev n) (info : Option String) : Phase ev n (s.setState .error info none) :=
  .done (by rw [state_setState]; rfl) (h.congr ledger_setState)

theorem Quiet.setState (h : s.Quiet ev n) : (s.setState st info processed).Quiet ev n :=
  h.congr ledger_setState retries_setState

theorem Quiet.judged (h : s.Quiet ev n) : (s.judged spec o).Quiet ev n := by
  unfold RegularRun.judged
  split
  · exact h.setState
  · exact h

theorem judged_state (spec : RegularSpec) (o : Oracle) (s : RegularRun) :
    (s.judged spec o).task.state = if s.task.state = .success ∧ failsOn spec o then .error else s.task.state := by
  unfold judged
  split
  · exact state_setState
  · rfl

/-- A completion that `wait-after` delays. -/
theorem Quiet.later (h : s.Quiet ev n) (delay : Nat) (hst : s.task.state.isCompleted ∧ s.task.state ≠ .skipped) :
    (s.delayed delay).task.state = .runningDelayed ∧ Phase ev n (s.delayed delay) ∧
      (¬ev → ∀ info, Phase ev n ((s.delayed delay).setState .error info none)) := by
  obtain ⟨hstarts, hjobs, hsub, hres⟩ := h.idle
  have hstate : (s.delayed delay).task.state = .runningDelayed := state_setState
  have hjobs' : (s.delayed delay).jobs = [.completeTask 0 s.task.state s.task.stateInfo] := by
    show s.jobs ++ _ = _
    rw [hjobs]
    rfl
  have hmarks : (s.delayed delay).marks = s.marks := marks_setState
  have hretries : (s.delayed delay).retries = s.retries := retries_setState
  have hquiet : ∀ s' : RegularRun, s'.ledger = (s.delayed delay).ledger → s'.retries = (s.delayed delay).retries →
      Quiet ev n { s' with jobs := [] } := fun s' hledger hsame => by
    refine h.congr ?_ (hsame.trans hretries)
    simp only [ledger, Prod.mk.injEq] at hledger ⊢
    exact ⟨hledger.1.trans hmarks, hledger.2.1, hledger.2.2.1, hledger.2.2.2.1, hjobs.symm, hledger.2.2.2.2.2⟩
  refine ⟨hstate, .delayed _ _ hst (fun _ => hstate) hjobs' (hquiet _ rfl rfl), fun hev info => ?_⟩
  exact .delayed s.task.state s.task.stateInfo hst (fun h => absurd h hev) hjobs' (hquiet _ ledger_setState retries_setState)

theorem Quiet.destroyResult (h : s.Quiet ev n) : (s.mapTask (·.destroyResult)).Quiet ev n :=
  h.congr ledger_destroyResult rfl

@[simp] theorem begun_setState : (s.setState st info processed).begun = s.begun := rfl

@[simp] theorem begun_judged : (s.judged spec o).begun = s.begun := by
  unfold RegularRun.judged
  split <;> rfl

@[simp] theorem begun_retry : (s.retryAfterTaskComplete spec o r).begun = s.begun := by
  simp only [retryAfterTaskComplete, startRetry]
  split
  · rfl
  split
  · rfl
  split
  · rfl
  split <;> rfl

/-- The policies after the completion of an attempt. -/
theorem Quiet.after (h : s.Quiet ev n) (hr : Retried spec r) (hn : (o.task 0).natExpr r.count = n)
    (hev : ev → o.Evaluates) (hst : s.task.state.isCompleted ∧ s.task.state ≠ .skipped) {p : RegularRun × Bool}
    (hafter : After spec o r s p) (hno : o.Evaluates → p.2 = false) :
    (if p.2 then ∀ info, Phase ev n (p.1.setState .error info none)
      else Phase ev n p.1 ∧ (p.1.task.state ≠ .runningDelayed → ∀ info, Phase ev n (p.1.setState .error info none))) ∧
    p.1.begun = s.begun ∧
    (o.Evaluates → (p.1.task.state.isCompleted ↔
      ∃ st, s.endsIn spec o s.task.state = some st ∧ (s.begun = n + 1 ∨ r.Stops o st))) := by
  cases hafter with
  | early => exact ⟨by simpa using fun info => h.toStill.error info, rfl, fun h => absurd (hno h) (by rintro ⟨⟩)⟩
  | delayed delay raised hdelays =>
    obtain ⟨hstate, hphase, hraised⟩ := h.later delay hst
    refine ⟨?_, rfl, fun _ => ?_⟩
    · cases raised with
      | true =>
        refine hraised fun h => ?_
        exact absurd (hno (hev h)) (by rintro ⟨⟩)
      | false => exact ⟨hphase, fun hne => absurd hstate hne⟩
    · rw [hstate, endsIn, if_pos hdelays]
      exact ⟨by rintro ⟨⟩, by rintro ⟨_, ⟨⟩, _⟩⟩
  | late hdelays =>
    exact ⟨by simpa using fun info => h.judged.toStill.error info, begun_judged, fun h => absurd (hno h) (by rintro ⟨⟩)⟩
  | decided hdelays =>
    have hends : s.endsIn spec o s.task.state = some (s.judged spec o).task.state := by
      rw [endsIn, if_neg (by simp [hdelays]), judged_state]
    have hdone : (s.judged spec o).task.state.isCompleted := by
      rw [judged_state]
      split
      · rfl
      · exact hst.1
    have hbegun : (s.judged spec o).begun = s.begun := begun_judged
    rcases h.judged.retry hn hr.join hdone with ⟨hwhy, hstate, hstill⟩ | ⟨hwhy, hstate, hjobs, hready⟩
    · rw [hbegun] at hwhy
      have hdone : ((s.judged spec o).retryAfterTaskComplete spec o r).task.state.isCompleted := by rwa [hstate]
      exact ⟨⟨.done hdone hstill, fun _ info => hstill.error info⟩, begun_retry.trans hbegun,
        fun _ => ⟨fun _ => ⟨_, hends, hwhy⟩, fun _ => hdone⟩⟩
    · rw [hbegun] at hwhy
      refine ⟨⟨.ready (fun _ => hstate) hjobs hready, fun hne => absurd hstate hne⟩, begun_retry.trans hbegun, fun _ => ?_⟩
      rw [hstate]
      refine ⟨(by rintro ⟨⟩), ?_⟩
      rintro ⟨st, hst, hstops⟩
      cases hends.symm.trans hst
      exact absurd hstops hwhy

/-- The completion of an attempt. -/
theorem Quiet.complete (h : s.Quiet ev n) (st : State) (info : Option String) (hr : Retried spec r) (hn : (o.task 0).natExpr r.count = n)
    (hev : ev → o.Evaluates) (hopen : s.task.state.isCompleted = false) (hst : st.isCompleted ∧ st ≠ .skipped) :
    RegularRun.Ended ev n (s.complete spec o st info) ∧ (s.complete spec o st info).1.begun = s.begun ∧
    (o.Evaluates → (s.complete spec o st info).2 = false ∧ ((s.complete spec o st info).1.task.state.isCompleted ↔
      ∃ st', s.endsIn spec o st = some st' ∧ (s.begun = n + 1 ∨ r.Stops o st'))) := by
  have hskipped : st.isSkipped = false := by simpa [State.isSkipped] using hst.2
  simp only [RegularRun.complete, hopen, Bool.false_and, Bool.false_eq_true, if_false, hskipped]
  have hset : (s.setState st info none).Quiet ev n := h.setState
  cases hpublish : o.raises (.publish 0) with
  | true =>
    refine ⟨fun info => hset.toStill.error info, rfl, fun h => ?_⟩
    rw [h.raises _ (Site.noConfusion ·)] at hpublish
    cases hpublish
  | false =>
    simp only [Bool.false_eq_true, if_false]
    generalize hs' : (if spec.keepResult then s.setState st info none else
      (s.setState st info none).mapTask (·.destroyResult)) = s'
    have hquiet : s'.Quiet ev n := by
      rw [← hs']
      split
      · exact hset
      · exact hset.destroyResult
    have hstate : s'.task.state = st := by
      rw [← hs']
      split <;> exact state_setState
    have hbegun : s'.begun = s.begun := by
      rw [← hs']
      split <;> rfl
    have hends : s'.endsIn spec o st = s.endsIn spec o st := by
      refine endsIn_congr ?_
      rw [← hs']
      split <;> exact runtimeContext_setState
    obtain ⟨hafter, hno⟩ := runAfter_after hr o s'
    obtain ⟨hphase, hsame, hiff⟩ := hquiet.after hr hn hev (hstate.symm ▸ hst) hafter hno
    rw [hstate, hends, hbegun] at hiff
    refine ⟨?_, hsame.trans hbegun, fun h => ⟨?_, hiff h⟩⟩
    · unfold RegularRun.Ended
      cases hraised : (s'.runAfter spec o).2 with
      | true => simpa [hraised] using hphase
      | false =>
        simp only [hraised, Bool.false_eq_true, if_false, Bool.false_or] at hphase ⊢
        split
        next htransitions =>
          simp only [Bool.and_eq_true, bne_iff_ne] at htransitions
          exact hphase.2 htransitions.1
        next => exact hphase.1
    · rw [hno h, h.raises (.transitions 0) (Site.noConfusion ·)]
      simp

/-! ### The beginning of an attempt -/

/-- The next attempt begins: its execution is not there yet. -/
theorem Ready.begin (h : Ready n s) : Quiet ev n { s with begun := s.begun + 1, inProgress := true } where
  idle := h.idle
  recorded := ⟨h.recorded.length, h.recorded.nodup, fun k hk => ⟨(h.recorded.range k hk).1,
    Nat.le_succ_of_le (h.recorded.range k hk).2⟩⟩
  accepts := by
    refine ⟨fun i c hi => ?_, fun _ i a _ hi => ?_⟩
    · cases h.clean _ (List.mem_of_getElem? hi)
    · have hle := (h.recorded.range _ (List.mem_of_getElem? hi)).2
      exact absurd hle (Nat.not_succ_le_self _)
  settled m hm := by rw [h.clean m hm]
  le := Nat.succ_le_succ h.le
  count := congrArg (· + 1) h.count

/-- The execution of a new attempt. -/
theorem Quiet.act (h : s.Quiet ev n) (hstate : s.task.state = .running) (hnew : s.begun ∉ s.startedBy) (hpos : 0 < s.begun) :
    Phase ev n { s.mapTask (·.addExecution { index := 0 }) with startedBy := s.startedBy ++ [s.begun] } := by
  have hmarks : (s.mapTask (·.addExecution { index := 0 })).marks = s.marks ++ [(false, false)] := by
    simp [marks, mapTask, TaskEx.addExecution, State.isCompleted]
  have hlength := h.recorded.length
  refine .action hstate h.idle ⟨?_, ?_, ?_⟩ ⟨?_, ?_⟩ ?_ h.count h.le
  · show (s.startedBy ++ [s.begun]).length = (s.mapTask (·.addExecution { index := 0 })).marks.length
    rw [hmarks, List.length_append, List.length_append, hlength]
    rfl
  · exact List.nodup_append.mpr ⟨h.recorded.nodup, List.nodup_singleton _, fun a ha b hb => by
      cases List.mem_singleton.mp hb
      rintro rfl
      exact hnew ha⟩
  · intro k hk
    rcases List.mem_append.mp hk with hk | hk
    · exact h.recorded.range k hk
    · cases List.mem_singleton.mp hk
      exact ⟨hpos, Nat.le_refl _⟩
  · intro i c hi
    change (s.mapTask (·.addExecution { index := 0 })).marks[i]? = _ at hi
    rw [hmarks] at hi
    rcases Lists.getElem?_append_singleton hi with hi | ⟨-, heq⟩
    · exact absurd (List.mem_of_getElem? (h.accepts.only i c hi).2) hnew
    · cases heq
  · intro _ i a hi hstarted
    change (s.mapTask (·.addExecution { index := 0 })).marks[i]? = _ at hi
    rw [hmarks] at hi
    rcases Lists.getElem?_append_singleton hi with hi | ⟨-, heq⟩
    · have hlt : i < s.startedBy.length := hlength ▸ (List.getElem?_eq_some_iff.mp hi).1
      rw [List.getElem?_append_left hlt] at hstarted
      exact absurd (List.mem_of_getElem? hstarted) hnew
    · cases heq
  · intro i a hi
    change (s.mapTask (·.addExecution { index := 0 })).marks[i]? = _ at hi
    rw [hmarks] at hi
    rcases Lists.getElem?_append_singleton hi with hi | ⟨rfl, -⟩
    · exact absurd (h.settled _ (List.mem_of_getElem? hi)) Bool.false_ne_true
    · show (s.startedBy ++ [s.begun])[s.marks.length]? = some s.begun
      rw [← hlength]
      simp

/-- The end of an attempt whose action can not be scheduled. -/
def unscheduled (spec : RegularSpec) (o : Oracle) (s : RegularRun) : Option State :=
  if o.raises (.schedule 0 0) then s.endsIn spec o .error else none

theorem unscheduled_congr (h : s'.task.runtimeContext = s.task.runtimeContext) :
    s'.unscheduled spec o = s.unscheduled spec o := by
  rw [unscheduled, unscheduled, endsIn_congr h]

theorem Ready.scheduleActions (h : Ready n s) (hr : Retried spec r) (hn : (o.task 0).natExpr r.count = n)
    (hev : ev → o.Evaluates) (hstate : s.task.state = .running) :
    RegularRun.Ended ev n (s.scheduleActions spec o) ∧
    (o.Evaluates → (s.scheduleActions spec o).2 = false ∧ ((s.scheduleActions spec o).1.task.state.isCompleted ↔
      ∃ st, s.unscheduled spec o = some st ∧ ((s.scheduleActions spec o).1.begun = n + 1 ∨ r.Stops o st))) := by
  unfold RegularRun.scheduleActions
  cases hinput : o.raises (.input 0) with
  | true =>
    have hnot : ¬o.Evaluates := fun h => by
      rw [h.raises _ (Site.noConfusion ·)] at hinput
      cases hinput
    exact ⟨fun info => (h.still fun he => hnot (hev he)).error info, fun h => absurd h hnot⟩
  | false =>
    simp only [Bool.false_eq_true, if_false]
    have hbegin : Quiet ev n { s with begun := s.begun + 1, inProgress := true } := h.begin
    have hopen : s.task.state.isCompleted = false := by
      rw [hstate]
      rfl
    have hnew : s.begun + 1 ∉ s.startedBy := fun hmem => Nat.not_succ_le_self _ (h.recorded.range _ hmem).2
    cases hschedule : o.raises (.schedule 0 0) with
    | true =>
      simp only [if_true]
      cases hlib : o.fromLib (.schedule 0 0) with
      | true =>
        have hnot : ¬o.Evaluates := fun h => by
          rw [h.fromLib] at hlib
          cases hlib
        exact ⟨fun info => hbegin.toStill.error info, fun h => absurd h hnot⟩
      | false =>
        simp only [Bool.false_eq_true, if_false]
        obtain ⟨hended, hbegun, hiff⟩ := hbegin.complete .error "Failed to schedule" hr hn hev hopen ⟨rfl, (by rintro ⟨⟩)⟩
        refine ⟨hended, fun he => ⟨(hiff he).1, ?_⟩⟩
        rw [(hiff he).2, hbegun, unscheduled, hschedule, if_pos rfl]
        exact Iff.rfl
    | false =>
      simp only [Bool.false_eq_true, if_false]
      have hnone : ∀ s' : RegularRun, s'.task.state = .running → (s'.task.state.isCompleted ↔
          ∃ st, s.unscheduled spec o = some st ∧ (s'.begun = n + 1 ∨ r.Stops o st)) := fun s' hs' => by
        rw [hs', unscheduled, hschedule]
        simp [State.isCompleted]
      split
      · refine ⟨.asked hstate ?_ hnew (hbegin.congr ?_ rfl), fun _ => ⟨rfl, hnone _ hstate⟩⟩
        · show s.subStarts ++ [s.begun + 1] = [s.begun + 1]
          rw [h.idle.2.2.1]
          rfl
        · exact congrArg (fun l => (s.marks, s.startedBy, s.begun + 1, s.starts, s.jobs, l, s.subResults))
            h.idle.2.2.1.symm
      · exact ⟨hbegin.act hstate hnew (Nat.succ_pos _), fun _ => ⟨rfl, hnone _ hstate⟩⟩

theorem marks_resetActions (h : ∀ m ∈ s.marks, m = (true, false)) (reset : Bool) :
    (s.mapTask (·.resetActions reset)).marks = s.marks := by
  simp only [marks, mapTask, TaskEx.resetActions, List.map_map]
  refine List.map_congr_left fun x hx => ?_
  have hmark : (x.state.isCompleted, x.accepted) = (true, false) := h _ (List.mem_map_of_mem hx)
  rw [Prod.mk.injEq] at hmark
  simp only [Function.comp_apply]
  split <;> simp [hmark]

/-- An attempt of a task that runs already. -/
theorem Ready.runExisting (h : Ready n s) (hr : Retried spec r) (hn : (o.task 0).natExpr r.count = n)
    (hev : ev → o.Evaluates) (reset : Bool) :
    RegularRun.Ended ev n (s.runExisting spec o false reset) ∧
    (o.Evaluates → (s.runExisting spec o false reset).2 = false ∧
      ((s.runExisting spec o false reset).1.task.state.isCompleted ↔ ∃ st, s.unscheduled spec o = some st ∧
        ((s.runExisting spec o false reset).1.begun = n + 1 ∨ r.Stops o st))) := by
  simp only [RegularRun.runExisting, Bool.false_eq_true, if_false, Bool.false_and, Bool.or_self]
  have hset : (s.setState .running none (some false)).Ready n := h.congr ledger_setState retries_setState
  have hready : ((s.setState .running none (some false)).mapTask (·.resetActions reset)).Ready n := by
    refine hset.congr ?_ rfl
    have hmarks := marks_resetActions hset.clean reset
    simp only [ledger, Prod.mk.injEq]
    exact ⟨hmarks, rfl, rfl, rfl, rfl, rfl, rfl⟩
  have hstate : ((s.setState .running none (some false)).mapTask (·.resetActions reset)).task.state = .running :=
    state_setState
  have hskip : ((s.setState .running none (some false)).mapTask (·.resetActions reset)).unscheduled spec o =
      s.unscheduled spec o := by
    refine unscheduled_congr ?_
    exact runtimeContext_setState
  have hschedule := hready.scheduleActions hr hn hev hstate
  rw [hskip] at hschedule
  exact hschedule

theorem Oracle.Evaluates.not_escapes {o : Oracle} (h : o.Evaluates) : schedulingEscapes o = false := by
  rw [schedulingEscapes, h.fromLib, Bool.and_false]

/-- `continue_task` begins the next attempt, or its transaction is rolled back. -/
theorem Ready.continueTask (h : Ready n s) (hr : Retried spec r) (hn : (o.task 0).natExpr r.count = n)
    (hev : ev → o.Evaluates) :
    Phase ev n (s.continueTask spec o) ∧
    (o.Evaluates → ((s.continueTask spec o).task.state.isCompleted ↔ ∃ st, s.unscheduled spec o = some st ∧
        ((s.continueTask spec o).begun = n + 1 ∨ r.Stops o st))) := by
  have hset : (s.setState .running none none).Ready n := h.congr ledger_setState retries_setState
  obtain ⟨hended, hiff⟩ := hset.runExisting hr hn hev false
  unfold RegularRun.continueTask
  cases hescapes : schedulingEscapes o with
  | true =>
    have hnot : ¬o.Evaluates := fun he => by
      rw [Oracle.Evaluates.not_escapes he] at hescapes
      cases hescapes
    simp only [if_true]
    exact ⟨.lost (fun he => hnot (hev he)) h, fun he => absurd he hnot⟩
  | false =>
    simp only [Bool.false_eq_true, if_false]
    refine ⟨hended.handling _, fun he => ?_⟩
    obtain ⟨hraised, hiff⟩ := hiff he
    have hskip : (s.setState .running none none).unscheduled spec o = s.unscheduled spec o := by
      exact unscheduled_congr runtimeContext_setState
    rw [hskip] at hiff
    rw [handling_of_false hraised]
    exact hiff

/-! ### The first attempt -/

/-- The policy `wait-before` delays the start. -/
def delaysStart (spec : RegularSpec) (o : Oracle) : Bool :=
  spec.policies.any fun p => match p with
    | .waitBefore delay => (o.task 0).natExpr delay != 0
    | _ => false

/-- What `wait-before` does where it delays the start. -/
def held (delay : Nat) (s : RegularRun) : RegularRun :=
  ((s.mapTask (·.mapContext fun c => { c with waitBeforeSkip := true })).setState .runningDelayed
    (some ("Delayed by 'wait-before' policy [delay=" ++ toString delay ++ "]")) none).addJob (.continueTask 0)

/-- Policies that do nothing before a task starts. -/
theorem runPolicies_of_inert {ps : List Policy} (h : ∀ p ∈ ps, p.kind ∈ [.waitAfter, .failOn, .retry]) :
    ∃ raised, runPolicies (fun p => p.kind != .failOn && o.raises (.policy 0 p.kind)) (fun s p => s.beforeTaskStart o p) ps
      s = (s, raised) ∧ (o.Evaluates → raised = false) := by
  induction ps with
  | nil => exact ⟨false, rfl, fun _ => rfl⟩
  | cons p ps ih =>
    obtain ⟨hp, hps⟩ := List.forall_mem_cons.mp h
    have hinert : s.beforeTaskStart o p = s := by
      cases p <;> simp_all [Policy.kind, RegularRun.beforeTaskStart]
    simp only [runPolicies]
    split
    next hraises =>
      refine ⟨true, rfl, fun hev => ?_⟩
      rw [hev.raises _ (Site.noConfusion ·), Bool.and_false] at hraises
      cases hraises
    next =>
      rw [hinert]
      exact ih hps

theorem runBefore_cases (h : Retried spec r) (o : Oracle) (hstate : s.task.state = .running)
    (hskip : s.task.runtimeContext.waitBeforeSkip = false) :
    ¬o.Evaluates ∧ s.runBefore spec o = (s, true) ∨
    delaysStart spec o = true ∧ (∃ delay raised, s.runBefore spec o = (s.held delay, raised) ∧ (o.Evaluates → raised = false)) ∨
    delaysStart spec o = false ∧ s.runBefore spec o = (s, false) := by
  obtain ⟨waitBefore, waitAfter, failOn, hpolicies⟩ := h.policies_eq
  have hdelays : delaysStart spec o = waitBefore.any fun delay => (o.task 0).natExpr delay != 0 := by
    rw [delaysStart, hpolicies]
    cases waitBefore <;> cases waitAfter <;> cases failOn <;> simp [retryPolicies]
  have hrest : ∀ p ∈ (waitAfter.map Policy.waitAfter).toList ++ ((failOn.map Policy.failOn).toList ++ [.retry r]),
      p.kind ∈ [PolicyKind.waitAfter, .failOn, .retry] := by
    intro p hp
    simp only [List.mem_append, Option.mem_toList, Option.map_eq_some_iff, List.mem_singleton] at hp
    rcases hp with ⟨_, -, rfl⟩ | ⟨_, -, rfl⟩ | rfl <;> simp [Policy.kind]
  have hlist : spec.policies = (waitBefore.map Policy.waitBefore).toList ++
      ((waitAfter.map Policy.waitAfter).toList ++ ((failOn.map Policy.failOn).toList ++ [.retry r])) := by
    rw [hpolicies, retryPolicies, List.append_assoc, List.append_assoc]
  have hinert : ∀ s' : RegularRun, ¬o.Evaluates ∧ runPolicies (fun p => p.kind != .failOn && o.raises (.policy 0 p.kind))
      (fun s p => s.beforeTaskStart o p) ((waitAfter.map Policy.waitAfter).toList ++
        ((failOn.map Policy.failOn).toList ++ [.retry r])) s' = (s', true) ∨
      runPolicies (fun p => p.kind != .failOn && o.raises (.policy 0 p.kind)) (fun s p => s.beforeTaskStart o p)
        ((waitAfter.map Policy.waitAfter).toList ++ ((failOn.map Policy.failOn).toList ++ [.retry r])) s' =
          (s', false) := by
    intro s'
    obtain ⟨raised, hrun, hraised⟩ := runPolicies_of_inert (o := o) (s := s') hrest
    cases raised with
    | true => exact .inl ⟨fun hev => absurd (hraised hev) (by rintro ⟨⟩), hrun⟩
    | false => exact .inr hrun
  rw [RegularRun.runBefore, hlist, hdelays]
  cases waitBefore with
  | none =>
    rcases hinert s with ⟨hev, hrun⟩ | hrun
    · exact .inl ⟨hev, hrun⟩
    · exact .inr (.inr ⟨rfl, hrun⟩)
  | some delay =>
    simp only [Option.map_some, Option.toList_some, List.cons_append, List.nil_append, runPolicies, Option.any_some]
    split
    next hraises =>
      refine .inl ⟨fun hev => ?_, rfl⟩
      rw [hev.raises _ (Site.noConfusion ·), Bool.and_false] at hraises
      cases hraises
    next =>
      have hidle : s.task.state ≠ .idle := by simp [hstate]
      by_cases hzero : (o.task 0).natExpr delay = 0
      · have hsame : s.beforeTaskStart o (.waitBefore delay) = s := by simp [RegularRun.beforeTaskStart, hzero]
        rw [hsame]
        rcases hinert s with ⟨hev, hrun⟩ | hrun
        · exact .inl ⟨hev, hrun⟩
        · exact .inr (.inr ⟨by simp [hzero], hrun⟩)
      · have hheld : s.beforeTaskStart o (.waitBefore delay) = s.held ((o.task 0).natExpr delay) := by
          simp [RegularRun.beforeTaskStart, hzero, hskip, hidle, held]
        rw [hheld]
        refine .inr (.inl ⟨by simpa using hzero, (o.task 0).natExpr delay, ?_⟩)
        rcases hinert (s.held ((o.task 0).natExpr delay)) with ⟨hev, hrun⟩ | hrun
        · exact ⟨true, hrun, fun h => absurd h hev⟩
        · exact ⟨false, hrun, fun _ => rfl⟩

/-- `_run_new`, where nothing was done before. -/
theorem Ready.runNew (h : Ready n s) (hr : Retried spec r) (hn : (o.task 0).natExpr r.count = n)
    (hev : ev → o.Evaluates) (hidle : s.task.state = .idle) (hskip : s.task.runtimeContext.waitBeforeSkip = false) :
    RegularRun.Ended ev n (s.runNew spec o) ∧
    (o.Evaluates → (s.runNew spec o).2 = false ∧ ((s.runNew spec o).1.task.state.isCompleted ↔
      ∃ st, (if delaysStart spec o then none else s.unscheduled spec o) = some st ∧
        ((s.runNew spec o).1.begun = n + 1 ∨ r.Stops o st))) := by
  have hset : (s.setState .running s.task.stateInfo none).Ready n := h.congr ledger_setState retries_setState
  have hstate : (s.setState .running s.task.stateInfo none).task.state = .running := state_setState
  have hcontext : (s.setState .running s.task.stateInfo none).task.runtimeContext = s.task.runtimeContext :=
    runtimeContext_setState
  simp only [RegularRun.runNew, hidle, if_true]
  generalize s.setState .running s.task.stateInfo none = s' at hset hstate hcontext ⊢
  rcases runBefore_cases hr o hstate (hcontext ▸ hskip) with ⟨hnot, hrun⟩ | ⟨hdelays, delay, raised, hrun, hraised⟩ |
    ⟨hdelays, hrun⟩
  · rw [hrun]
    exact ⟨fun info => (hset.still fun he => hnot (hev he)).error info, fun he => absurd he hnot⟩
  · have hready : (s'.mapTask (·.mapContext fun c => { c with waitBeforeSkip := true })).Ready n := hset.congr rfl rfl
    obtain ⟨hdelayed, hjobs, hlater⟩ := hready.later
      (some ("Delayed by 'wait-before' policy [delay=" ++ toString delay ++ "]"))
    have hne : (s'.held delay).task.state != .running := by
      rw [show (s'.held delay).task.state = .runningDelayed from hdelayed]
      rfl
    rw [hrun]
    simp only [hne, Bool.or_true, if_true]
    refine ⟨?_, fun he => ⟨hraised he, ?_⟩⟩
    · cases raised with
      | true =>
        intro info
        refine .ready (fun he => absurd (hraised (hev he)) nofun) hjobs (hlater.congr ?_ retries_setState)
        have hledger : ((s'.held delay).setState .error info none).ledger = (s'.held delay).ledger := ledger_setState
        simp only [ledger, Prod.mk.injEq] at hledger ⊢
        exact ⟨hledger.1, hledger.2.1, hledger.2.2.1, hledger.2.2.2.1, trivial, hledger.2.2.2.2.2⟩
      | false => exact .ready (fun _ => hdelayed) hjobs hlater
    · rw [show (s'.held delay).task.state = .runningDelayed from hdelayed, if_pos hdelays]
      exact ⟨nofun, nofun⟩
  · rw [hrun]
    simp only [hstate, Bool.false_or, bne_self_eq_false, Bool.false_eq_true, if_false]
    have hschedule := hset.scheduleActions hr hn hev hstate
    rw [unscheduled_congr hcontext] at hschedule
    rw [if_neg (by simp [hdelays])]
    exact hschedule

theorem ready_start (name : String) (n : Nat) : Ready n { RegularRun.start name false with starts := [] } where
  idle := ⟨rfl, rfl, rfl, rfl⟩
  recorded := ⟨rfl, List.nodup_nil, fun _ hk => absurd hk List.not_mem_nil⟩
  clean _ hm := absurd hm List.not_mem_nil
  count := rfl
  le := Nat.zero_le _

/-! ### Results -/

theorem marks_setExecution {f : Execution → Execution} {x : Execution} (hx : s.task.executions[i]? = some x)
    (hf : (f x).state.isCompleted) :
    (s.mapTask (·.setExecution i f)).marks = s.marks.modify i fun _ => (true, (f x).accepted) := by
  simp only [marks, mapTask, TaskEx.setExecution]
  refine List.ext_getElem? fun j => ?_
  simp only [List.getElem?_map, List.getElem?_modify]
  by_cases hij : i = j
  · subst hij
    rw [hx]
    simp [hf]
  · cases s.task.executions[j]? with
    | none => rfl
    | some y => simp [hij]

theorem accept_getElem? (hopen : s.incomplete i) (result : ActionResult) :
    ∃ y : Execution, (s.accept i result).task.executions[i]? = some y ∧ y.state = result.state := by
  obtain ⟨x, hx, -⟩ := incomplete_iff.mp hopen
  refine ⟨{ x with state := result.state, output := result.output, accepted := true, notTask := result.notTask }, ?_, rfl⟩
  simp [RegularRun.accept, mapTask, TaskEx.setExecution, hx]

/-- The end of the execution that the last attempt waits for. -/
theorem quiet_setExecution (hidle : s.Idle) (hrecorded : s.Recorded) (haccepts : s.Accepts ev)
    (hown : ∀ (i : Nat) (a : Bool), s.marks[i]? = some (false, a) → s.startedBy[i]? = some s.begun)
    (hcount : s.begun = s.retries + 1) (hle : s.begun ≤ n + 1) (hopen : s.incomplete i) {f : Execution → Execution}
    (hf : ∀ x, (f x).state.isCompleted) (haccepted : ev → ∀ x, (f x).accepted) :
    (s.mapTask (·.setExecution i f)).Quiet ev n := by
  obtain ⟨x, hx, hstate⟩ := incomplete_iff.mp hopen
  have hmark : s.marks[i]? = some (false, x.accepted) := by simp [marks, hx, hstate]
  have hmarks := marks_setExecution hx (hf x)
  have hother : ∀ (j : Nat) (m : Bool × Bool), (s.mapTask (·.setExecution i f)).marks[j]? = some m →
      j = i ∧ m = (true, (f x).accepted) ∨ j ≠ i ∧ s.marks[j]? = some m := fun j m hj => by
    rw [hmarks, List.getElem?_modify] at hj
    obtain ⟨m', hm', heq⟩ := Option.map_eq_some_iff.mp hj
    split at heq
    next hij => exact .inl ⟨hij.symm, heq.symm⟩
    next hij => exact .inr ⟨Ne.symm hij, by rw [hm', ← heq]⟩
  refine ⟨⟨hidle, ⟨?_, hrecorded.nodup, hrecorded.range⟩, ⟨?_, ?_⟩, ?_, hle⟩, hcount⟩
  · rw [hmarks, List.length_modify]
    exact hrecorded.length
  · intro j c hj
    rcases hother j _ hj with ⟨rfl, heq⟩ | ⟨-, hj⟩
    · exact ⟨(Prod.mk.inj heq).1, hown j _ hmark⟩
    · exact haccepts.only j c hj
  · intro he j a hj hstarted
    rcases hother j _ hj with ⟨-, heq⟩ | ⟨-, hj⟩
    · exact (Prod.mk.inj heq).2.symm ▸ haccepted he x
    · exact haccepts.all he j a hj hstarted
  · intro m hm
    obtain ⟨j, hj⟩ := List.mem_iff_getElem?.mp hm
    rcases hother j m hj with ⟨-, rfl⟩ | ⟨hne, hj⟩
    · rfl
    · -- Only one execution is from the last attempt.
      by_contra hfalse
      have hm : m = (false, m.2) := Prod.ext (by simpa using hfalse) rfl
      have hlast : s.startedBy[j]? = some s.begun := hown j m.2 (hm ▸ hj)
      have hlt : j < s.startedBy.length := (List.getElem?_eq_some_iff.mp hlast).1
      exact hne ((List.getElem?_inj hlt hrecorded.nodup).mp (hlast.trans (hown i _ hmark).symm))

theorem Quiet.onActionComplete (h : s.Quiet ev n) (hr : Retried spec r) (hn : (o.task 0).natExpr r.count = n)
    (hev : ev → o.Evaluates) (hopen : s.task.state.isCompleted = false) {x : Execution} (hx : x.state.isCompleted) (i : Nat) :
    Phase ev n (s.onActionComplete spec o i x) ∧ (o.Evaluates → ((s.onActionComplete spec o i x).task.state.isCompleted ↔
      ∃ st, s.endsIn spec o x.state = some st ∧ ((s.onActionComplete spec o i x).begun = n + 1 ∨ r.Stops o st))) := by
  simp only [RegularRun.onActionComplete]
  generalize hs' : ({ s with completedBy := _ } : RegularRun) = s'
  have hquiet : s'.Quiet ev n := by
    rw [← hs']
    exact h.congr rfl rfl
  have htask : s'.task = s.task := by rw [← hs']
  obtain ⟨hended, hbegun, hiff⟩ := hquiet.complete x.state (if x.state = .success then none else x.output) hr hn hev
    (htask ▸ hopen) ⟨hx, x.notTask.2⟩
  refine ⟨hended.handling _, fun he => ?_⟩
  obtain ⟨hraised, hiff⟩ := hiff he
  have hbegun' : s'.begun = s.begun := by rw [← hs']
  rw [endsIn_congr (congrArg TaskEx.runtimeContext htask), hbegun'] at hiff
  rw [handling_of_false hraised, hbegun, hbegun']
  exact hiff

/-! ### Steps -/

/-- The state that the last attempt ends in with this step: a result comes in, or a delayed completion goes on, or the
    action of the attempt can not be scheduled. -/
def attemptEnd (spec : RegularSpec) (s : RegularRun) : RegularEvent × Oracle → Option State
  | (.actionResult i result, o) => if !spec.subworkflow && s.incomplete i then s.endsIn spec o result.state else none
  | (.subworkflowResult i, o) =>
    if i ∈ s.subResults then s.task.executions[i]?.bind fun x => s.endsIn spec o x.state else none
  | (.runJob j _, o) =>
    if j ∈ s.jobs then
      match j with
      | .completeTask _ st _ => s.endsIn spec o st
      | .continueTask _ => s.unscheduled spec o
      | _ => none
    else none
  | (.startTask m, o) => if m ∈ s.starts ∧ ¬delaysStart spec o then s.unscheduled spec o else none
  | _ => none

attribute [grind =] attemptEnd

/-- After the step `l` from `s` to `s'`, a task that was completed is the same, and any other one is completed exactly
    where its last attempt ended and was the last one allowed, or one of the reasons to stop holds. -/
def StopsWell (spec : RegularSpec) (r : RetrySpec) (n : Nat) (s : RegularRun) (l : RegularEvent × Oracle) (s' : RegularRun) :
    Prop :=
  if s.task.state.isCompleted then s'.task = s.task ∧ s'.begun = s.begun
  else s'.task.state.isCompleted ↔ ∃ st, s.attemptEnd spec l = some st ∧ (s'.begun = n + 1 ∨ r.Stops l.2 st)

theorem stopsWell_self {l : RegularEvent × Oracle} (h : s.attemptEnd spec l = none) : StopsWell spec r n s l s := by
  unfold StopsWell
  split
  · exact ⟨rfl, rfl⟩
  next hopen =>
    rw [h]
    simp [hopen]

theorem stopsWell_of_open {l : RegularEvent × Oracle} (hopen : s.task.state.isCompleted = false)
    (h : s'.task.state.isCompleted ↔ ∃ st, s.attemptEnd spec l = some st ∧ (s'.begun = n + 1 ∨ r.Stops l.2 st)) :
    StopsWell spec r n s l s' := by
  rw [StopsWell, if_neg (by simp [hopen])]
  exact h

theorem stopsWell_of_running {l : RegularEvent × Oracle} (h : s.task.state = .running) (h' : s'.task.state = .running)
    (hend : s.attemptEnd spec l = none) : StopsWell spec r n s l s' := by
  have hopen : State.running.isCompleted = false := rfl
  refine stopsWell_of_open (h ▸ hopen) ?_
  rw [hend, h', hopen]
  simp

/-- Where nothing is on its way that a step could take, it does nothing. -/
theorem Phase.starts (h : Phase ev n s) : s.starts = [] ∨ ∃ name, s = RegularRun.start name false := by
  cases h with
  | fresh h => exact .inr h
  | ready _ _ h => exact .inl h.idle.1
  | lost _ h => exact .inl h.idle.1
  | action _ hidle => exact .inl hidle.1
  | asked _ _ _ h | answered _ _ _ _ h | delayed _ _ _ _ _ h => exact .inl h.idle.1
  | done _ h => exact .inl h.idle.1

theorem Phase.jobs (h : Phase ev n s) : s.jobs = [] ∨
    (s.jobs = [.continueTask 0] ∧ (ev → s.task.state = .runningDelayed) ∧ Ready n { s with jobs := [] }) ∨
    ∃ st info, s.jobs = [.completeTask 0 st info] ∧ (st.isCompleted ∧ st ≠ .skipped) ∧
      (ev → s.task.state = .runningDelayed) ∧ Quiet ev n { s with jobs := [] } := by
  cases h with
  | fresh h =>
    obtain ⟨name, rfl⟩ := h
    exact .inl rfl
  | ready hstate hjobs h => exact .inr (.inl ⟨hjobs, hstate, h⟩)
  | lost _ h => exact .inl h.idle.2.1
  | action _ hidle => exact .inl hidle.2.1
  | asked _ _ _ h | answered _ _ _ _ h => exact .inl h.idle.2.1
  | delayed st info hst hstate hjobs h => exact .inr (.inr ⟨st, info, hjobs, hst, hstate, h⟩)
  | done _ h => exact .inl h.idle.2.1

theorem not_incomplete_of_marks (h : ∀ m ∈ s.marks, m.1) (i : Nat) : s.incomplete i = false := by
  by_contra hopen
  obtain ⟨x, hx, hstate⟩ := incomplete_iff.mp (Bool.eq_true_of_not_eq_false hopen)
  have hmark := h _ (List.mem_map_of_mem (List.mem_of_getElem? hx))
  rw [hstate] at hmark
  cases hmark

theorem Phase.incomplete (h : Phase ev n s) (hopen : s.incomplete i) :
    s.task.state = .running ∧ s.Idle ∧ ∀ f : Execution → Execution, (∀ x, (f x).state.isCompleted) →
      (ev → ∀ x, (f x).accepted) → (s.mapTask (·.setExecution i f)).Quiet ev n := by
  have hnot : ∀ s' : RegularRun, s'.task = s.task → (∀ m ∈ s'.marks, m.1) → False := fun s' htask hmarks => by
    have hfalse := not_incomplete_of_marks hmarks i
    rw [RegularRun.incomplete, htask] at hfalse
    exact absurd (hopen.symm.trans hfalse) nofun
  cases h with
  | fresh h =>
    obtain ⟨name, rfl⟩ := h
    simp [RegularRun.incomplete, RegularRun.start] at hopen
  | ready _ _ h => exact (hnot _ rfl fun m hm => by rw [h.clean m hm]).elim
  | lost _ h => exact (hnot _ rfl fun m hm => by rw [h.clean m hm]).elim
  | action hstate hidle hrecorded haccepts hown hcount hle =>
    exact ⟨hstate, hidle, fun f hf haccepted =>
      quiet_setExecution hidle hrecorded haccepts hown hcount hle hopen hf haccepted⟩
  | asked _ _ _ h | answered _ _ _ _ h | delayed _ _ _ _ _ h => exact (hnot _ rfl h.settled).elim
  | done _ h => exact (hnot _ rfl h.settled).elim

theorem Phase.accept (h : Phase ev n s) (hopen : s.incomplete i) (result : ActionResult) :
    (s.accept i result).Quiet ev n :=
  (h.incomplete hopen).2.2 _ (fun _ => by cases result <;> rfl) fun _ _ => rfl

theorem Phase.asked_cases (h : Phase ev n s) : s.subStarts = [] ∨
    (s.task.state = .running ∧ s.subStarts = [s.begun] ∧ s.begun ∉ s.startedBy ∧ Quiet ev n { s with subStarts := [] }) := by
  cases h with
  | fresh h =>
    obtain ⟨name, rfl⟩ := h
    exact .inl rfl
  | ready _ _ h => exact .inl h.idle.2.2.1
  | lost _ h => exact .inl h.idle.2.2.1
  | action _ hidle => exact .inl hidle.2.2.1
  | asked hstate hsub hnew h => exact .inr ⟨hstate, hsub, hnew, h⟩
  | answered _ _ _ _ h | delayed _ _ _ _ _ h => exact .inl h.idle.2.2.1
  | done _ h => exact .inl h.idle.2.2.1

theorem Phase.answered_cases (h : Phase ev n s) : s.subResults = [] ∨
    ∃ i, s.task.state = .running ∧ s.subResults = [i] ∧ (∃ x, s.task.executions[i]? = some x ∧ x.state.isCompleted) ∧
      Quiet ev n { s with subResults := [] } := by
  cases h with
  | fresh h =>
    obtain ⟨name, rfl⟩ := h
    exact .inl rfl
  | ready _ _ h => exact .inl h.idle.2.2.2
  | lost _ h => exact .inl h.idle.2.2.2
  | action _ hidle => exact .inl hidle.2.2.2
  | asked _ _ _ h => exact .inl h.idle.2.2.2
  | answered i hstate hres hexecution h => exact .inr ⟨i, hstate, hres, hexecution, h⟩
  | delayed _ _ _ _ _ h => exact .inl h.idle.2.2.2
  | done _ h => exact .inl h.idle.2.2.2

/-- What a step keeps: how far the run is, and why it stops. -/
abbrev Kept (ev : Prop) (spec : RegularSpec) (r : RetrySpec) (n : Nat) (s : RegularRun) (l : RegularEvent × Oracle) : Prop :=
  Phase ev n (step spec s l) ∧ (ev → StopsWell spec r n s l (step spec s l))

theorem Phase.startTask (h : Phase ev n s) (hr : Retried spec r) (m : StartTask) (hn : (o.task 0).natExpr r.count = n)
    (hev : ev → o.Evaluates) : Kept ev spec r n s (.startTask m, o) := by
  by_cases hm : m ∈ s.starts
  case neg =>
    simp only [Kept, step, if_neg hm]
    exact ⟨h, fun _ => stopsWell_self (by simp [attemptEnd, hm])⟩
  obtain hnone | ⟨name, rfl⟩ := h.starts
  · rw [hnone] at hm
    cases hm
  have hmessage := List.mem_singleton.mp hm
  obtain ⟨hended, hiff⟩ := (ready_start name n).runNew hr hn hev rfl rfl
  have hrun : step spec (RegularRun.start name false) (.startTask m, o) =
      handling "Failed to run task: " ({ RegularRun.start name false with starts := [] }.runNew spec o) := by
    rw [step, if_pos hm, hmessage]
    rfl
  rw [Kept, hrun]
  refine ⟨hended.handling _, fun he => stopsWell_of_open rfl ?_⟩
  obtain ⟨hraised, hiff⟩ := hiff (hev he)
  rw [handling_of_false hraised]
  have hend : attemptEnd spec (RegularRun.start name false) (.startTask m, o) =
      if delaysStart spec o then none else (RegularRun.start name false).unscheduled spec o := by
    rw [attemptEnd]
    cases delaysStart spec o <;> simp [hm]
  rw [hend]
  exact hiff

theorem Phase.runJob (h : Phase ev n s) (hr : Retried spec r) (j : Job) (logical : State)
    (hn : (o.task 0).natExpr r.count = n) (hev : ev → o.Evaluates) : Kept ev spec r n s (.runJob j logical, o) := by
  by_cases hj : j ∈ s.jobs
  case neg =>
    simp only [Kept, step, if_neg hj]
    exact ⟨h, fun _ => stopsWell_self (by simp [attemptEnd, hj])⟩
  have hjobs := h.jobs
  simp only [Kept, step, if_pos hj]
  obtain hnone | ⟨hone, hstate, hready⟩ | ⟨st, info, hone, hst, hstate, hquiet⟩ := hjobs
  · rw [hnone] at hj
    cases hj
  · rw [hone] at hj
    obtain rfl := List.mem_singleton.mp hj
    rw [hone, List.erase_cons_head]
    obtain ⟨hphase, hiff⟩ := hready.continueTask hr hn hev
    refine ⟨hphase, fun he => stopsWell_of_open (by rw [hstate he]; rfl) ?_⟩
    rw [attemptEnd, hone, if_pos (List.mem_singleton_self _)]
    exact hiff (hev he)
  · rw [hone] at hj
    obtain rfl := List.mem_singleton.mp hj
    rw [hone, List.erase_cons_head]
    cases hdone : s.task.state.isCompleted with
    | true =>
      have hskipped : st.isSkipped = false := by simpa [State.isSkipped] using hst.2
      have hsame : { s with jobs := [] }.completeTask spec o st info = { s with jobs := [] } := by
        simp [RegularRun.completeTask, RegularRun.complete, hdone, hskipped, handling]
      refine ⟨?_, fun he => ?_⟩
      · show Phase ev n ({ s with jobs := [] }.completeTask spec o st info)
        rw [hsame]
        exact .done hdone hquiet.toStill
      · rw [hstate he] at hdone
        cases hdone
    | false =>
      obtain ⟨hended, hbegun, hiff⟩ := hquiet.complete st info hr hn hev hdone hst
      refine ⟨hended.handling _, fun he => stopsWell_of_open hdone ?_⟩
      obtain ⟨hraised, hiff⟩ := hiff (hev he)
      rw [attemptEnd, hone, if_pos (List.mem_singleton_self _)]
      rw [RegularRun.run, RegularRun.completeTask, handling_of_false hraised, hbegun]
      exact hiff

theorem Phase.actionResult (h : Phase ev n s) (hr : Retried spec r) (i : Nat) (result : ActionResult)
    (hn : (o.task 0).natExpr r.count = n) (hev : ev → o.Evaluates) : Kept ev spec r n s (.actionResult i result, o) := by
  by_cases hopen : (!spec.subworkflow && s.incomplete i) = true
  case neg =>
    simp only [Kept, step, RegularRun.actionResult, if_neg hopen]
    exact ⟨h, fun _ => stopsWell_self (by simp only [attemptEnd, if_neg hopen])⟩
  rw [Bool.and_eq_true] at hopen
  obtain ⟨hstate, -, hquiet⟩ := h.incomplete hopen.2
  by_cases hstored : o.raises (.result 0 i) = true
  · -- The task is forced to fail.
    have hnot : ¬o.Evaluates := fun he => by
      rw [he.raises _ (Site.noConfusion ·)] at hstored
      cases hstored
    rw [← Bool.and_eq_true] at hopen
    simp only [Kept, step, RegularRun.actionResult, if_pos hopen, if_pos hstored]
    exact ⟨(hquiet _ (fun _ => rfl) fun he => absurd (hev he) hnot).toStill.error _, fun he => absurd (hev he) hnot⟩
  obtain ⟨y, hy, hresult⟩ := accept_getElem? hopen.2 result
  have hrunning : (s.accept i result).task.state.isCompleted = false := by
    show s.task.state.isCompleted = false
    rw [hstate]
    rfl
  have hdone : y.state.isCompleted := by
    rw [hresult]
    cases result <;> rfl
  obtain ⟨hphase, hiff⟩ := (h.accept hopen.2 result).onActionComplete hr hn hev hrunning hdone i
  rw [← Bool.and_eq_true] at hopen
  simp only [Kept, step, RegularRun.actionResult, if_pos hopen, if_neg hstored, hy]
  refine ⟨hphase, fun he => stopsWell_of_open hrunning ?_⟩
  rw [attemptEnd, if_pos hopen, ← hresult]
  exact hiff (hev he)

theorem Phase.subworkflowStarted (h : Phase ev n s) (attempt : Nat) : Kept ev spec r n s (.subworkflowStarted attempt, o) := by
  simp only [Kept, step, RegularRun.subworkflowStarted]
  split
  next hmem =>
    obtain hnone | ⟨hstate, hsub, hnew, hquiet⟩ := h.asked_cases
    · rw [hnone] at hmem
      cases hmem
    · rw [hsub] at hmem
      obtain rfl := List.mem_singleton.mp hmem
      rw [hsub, List.erase_cons_head]
      have hpos : 0 < s.begun := by
        have hcount : s.begun = s.retries + 1 := hquiet.count
        omega
      exact ⟨hquiet.act hstate hnew hpos, fun _ => stopsWell_of_running hstate hstate rfl⟩
  next => exact ⟨h, fun _ => stopsWell_self rfl⟩

theorem Phase.subworkflowCompleted (h : Phase ev n s) (i : Nat) (result : ActionResult) :
    Kept ev spec r n s (.subworkflowCompleted i result, o) := by
  simp only [Kept, step, RegularRun.subworkflowCompleted]
  split
  next hopen =>
    rw [Bool.and_eq_true] at hopen
    obtain ⟨hstate, hidle, -⟩ := h.incomplete hopen.2
    obtain ⟨y, hy, hresult⟩ := accept_getElem? hopen.2 result
    have hres : s.subResults ++ [i] = [i] := by
      rw [hidle.2.2.2]
      rfl
    rw [hres]
    refine ⟨.answered i hstate rfl ?_ ?_, fun _ => stopsWell_of_running hstate hstate rfl⟩
    · refine ⟨y, hy, ?_⟩
      rw [hresult]
      cases result <;> rfl
    · refine (h.accept hopen.2 result).congr ?_ rfl
      exact congrArg (fun l => ((s.accept i result).marks, s.startedBy, s.begun, s.starts, s.jobs, s.subStarts, l))
        hidle.2.2.2.symm
  next => exact ⟨h, fun _ => stopsWell_self rfl⟩

theorem Phase.subworkflowResult (h : Phase ev n s) (hr : Retried spec r) (i : Nat) (hn : (o.task 0).natExpr r.count = n)
    (hev : ev → o.Evaluates) : Kept ev spec r n s (.subworkflowResult i, o) := by
  by_cases hmem : i ∈ s.subResults
  case neg =>
    simp only [Kept, step, RegularRun.subworkflowResult, if_neg hmem]
    exact ⟨h, fun _ => stopsWell_self (by simp only [attemptEnd, if_neg hmem])⟩
  obtain hnone | ⟨j, hstate, hres, ⟨y, hy, hdone⟩, hquiet⟩ := h.answered_cases
  · rw [hnone] at hmem
    cases hmem
  rw [hres] at hmem
  obtain rfl := List.mem_singleton.mp hmem
  have hrunning : s.task.state.isCompleted = false := by
    rw [hstate]
    rfl
  obtain ⟨hphase, hiff⟩ := hquiet.onActionComplete hr hn hev hrunning hdone i
  simp only [Kept, step, RegularRun.subworkflowResult, hres, List.mem_singleton, if_true, List.erase_cons_head, hy]
  refine ⟨hphase, fun he => stopsWell_of_open hrunning ?_⟩
  simp only [attemptEnd, hres, List.mem_singleton, if_true, hy, Option.bind_some]
  exact hiff (hev he)

theorem Phase.step (h : Phase ev n s) (hr : Retried spec r) {l : RegularEvent × Oracle} (hl : OneRun r n s l)
    (hev : ev → l.2.Evaluates) : Kept ev spec r n s l := by
  obtain ⟨e, o⟩ := l
  obtain ⟨hof, hn⟩ := hl
  cases e with
  | startTask m => exact h.startTask hr m hn hev
  | runJob j logical => exact h.runJob hr j logical hn hev
  | actionResult i result => exact h.actionResult hr i result hn hev
  | subworkflowStarted attempt => exact h.subworkflowStarted attempt
  | subworkflowCompleted i result => exact h.subworkflowCompleted i result
  | subworkflowResult i => exact h.subworkflowResult hr i hn hev
  | executionUpdate | defer | scheduleIfNeeded | resume | rerun | skip | rerunInSubworkflow => exact hof.elim

/-! ### Runs -/

/-- Different attempts from the first to the last one are at most as many as the last one says. -/
theorem length_le_of_attempts {l : List Nat} {k : Nat} (hnodup : l.Nodup) (hrange : ∀ a ∈ l, 0 < a ∧ a ≤ k) : l.length ≤ k := by
  have hsub : l ⊆ List.range' 1 k := fun a ha => by
    obtain ⟨hpos, hle⟩ := hrange a ha
    exact List.mem_range'_1.mpr ⟨hpos, by omega⟩
  have hlen := (List.subperm_of_subset hnodup hsub).length_le
  rwa [List.length_range'] at hlen

theorem Recorded.executions_length (h : s.Recorded) : s.task.executions.length = s.startedBy.length := by
  rw [h.length, marks, List.length_map]

theorem Recorded.executions_le (h : s.Recorded) : s.task.executions.length ≤ s.begun := by
  rw [h.executions_length]
  exact length_le_of_attempts h.nodup h.range

theorem Phase.executions_le (h : Phase ev n s) : s.begun ≤ n + 1 ∧ s.task.executions.length + s.subStarts.length ≤ s.begun := by
  have hnone : ∀ s' : RegularRun, s'.task = s.task → s'.begun = s.begun → s'.Recorded → s.subStarts = [] →
      s.task.executions.length + s.subStarts.length ≤ s.begun := fun s' htask hbegun hrecorded hsub => by
    have hle := hrecorded.executions_le
    rw [htask, hbegun] at hle
    rw [hsub]
    exact hle
  cases h with
  | fresh h =>
    obtain ⟨name, rfl⟩ := h
    exact ⟨Nat.zero_le _, Nat.le_refl _⟩
  | ready _ _ h => exact ⟨Nat.le_succ_of_le h.le, hnone { s with jobs := [] } rfl rfl h.recorded h.idle.2.2.1⟩
  | lost _ h => exact ⟨Nat.le_succ_of_le h.le, hnone s rfl rfl h.recorded h.idle.2.2.1⟩
  | action _ hidle hrecorded _ _ _ hle => exact ⟨hle, hnone _ rfl rfl hrecorded hidle.2.2.1⟩
  | asked _ hsub hnew h =>
    obtain ⟨hlength, hnodup, hrange⟩ := h.recorded
    have hbegun : s.begun = s.retries + 1 := h.count
    have hlen : (s.begun :: s.startedBy).length ≤ s.begun :=
      length_le_of_attempts (List.nodup_cons.mpr ⟨hnew, hnodup⟩) (List.forall_mem_cons.mpr ⟨⟨by omega, Nat.le_refl _⟩, hrange⟩)
    have hexecutions : s.task.executions.length = s.startedBy.length := h.recorded.executions_length
    rw [hsub, hexecutions]
    exact ⟨h.le, hlen⟩
  | answered _ _ _ _ h => exact ⟨h.le, hnone { s with subResults := [] } rfl rfl h.recorded h.idle.2.2.1⟩
  | delayed _ _ _ _ _ h => exact ⟨h.le, hnone { s with jobs := [] } rfl rfl h.recorded h.idle.2.2.1⟩
  | done _ h => exact ⟨h.le, hnone _ rfl rfl h.recorded h.idle.2.2.1⟩

theorem marks_getElem? {x : Execution} (h : s.task.executions[i]? = some x) : s.marks[i]? = some (x.state.isCompleted, x.accepted) := by
  simp [marks, h]

/-- The results that a task has accepted when it is completed. -/
theorem Phase.accepts (h : Phase ev n s) (hdone : s.task.state.isCompleted) {x : Execution}
    (hx : s.task.executions[i]? = some x) :
    (x.accepted → s.startedBy[i]? = some s.begun) ∧ (ev → s.startedBy[i]? = some s.begun → x.accepted) := by
  have hrunning : s.task.state ≠ .running := fun hstate => by
    rw [hstate] at hdone
    cases hdone
  have hmark := marks_getElem? hx
  have hstill : ∀ s' : RegularRun, s'.task = s.task → s'.startedBy = s.startedBy → s'.begun = s.begun → s'.Still ev n →
      (x.accepted → s.startedBy[i]? = some s.begun) ∧ (ev → s.startedBy[i]? = some s.begun → x.accepted) :=
    fun s' htask hstarted hbegun hstill => by
      have hmark' : s'.marks[i]? = some (x.state.isCompleted, x.accepted) := by rw [marks, htask]; exact hmark
      rw [← hstarted, ← hbegun]
      have hcompleted : x.state.isCompleted = true := hstill.settled _ (List.mem_of_getElem? hmark')
      refine ⟨fun haccepted => ?_, fun he => ?_⟩
      · rw [haccepted] at hmark'
        exact (hstill.accepts.only i _ hmark').2
      · rw [hcompleted] at hmark'
        exact hstill.accepts.all he i _ hmark'
  cases h with
  | fresh h =>
    obtain ⟨name, rfl⟩ := h
    cases hdone
  | ready hstate _ h =>
    have haccepted : x.accepted = false := congrArg Prod.snd (h.clean _ (List.mem_of_getElem? hmark))
    refine ⟨fun h => absurd (haccepted.symm.trans h) nofun, fun he => ?_⟩
    rw [hstate he] at hdone
    cases hdone
  | lost hev h =>
    have haccepted : x.accepted = false := congrArg Prod.snd (h.clean _ (List.mem_of_getElem? hmark))
    exact ⟨fun h => absurd (haccepted.symm.trans h) Bool.false_ne_true, fun he => absurd he hev⟩
  | action hstate => exact absurd hstate hrunning
  | asked hstate => exact absurd hstate hrunning
  | answered _ hstate => exact absurd hstate hrunning
  | delayed _ _ _ _ _ h => exact hstill { s with jobs := [] } rfl rfl rfl h.toStill
  | done _ h => exact hstill _ rfl rfl rfl h

theorem phase_start (name : String) : Phase ev n (RegularRun.start name false) := .fresh ⟨name, rfl⟩

/-- How far the runs are whose steps meet the guard. -/
theorem phase_of_reach (hr : Retried spec r) {guard : RegularRun → RegularEvent × Oracle → Prop}
    (hguard : ∀ s l, guard s l → OneRun r n s l ∧ (ev → l.2.Evaluates)) (h : (regularSystem spec).Reach guard s) :
    Phase ev n s := by
  refine h.invariant (fun s ⟨name, hs⟩ => ?_) fun s l _ hphase hl => ?_
  · rw [hs, hr.join]
    exact phase_start name
  · obtain ⟨hone, hev⟩ := hguard s l hl
    exact (hphase.step hr hone hev).1

end RegularRun

/-- In the runs whose steps meet the guard, the task makes at most `n + 1` attempts, every execution and every request
    to start one has an attempt of its own, and a completed task has accepted results of the last attempt only. -/
def BoundsAttempts (spec : RegularSpec) (n : Nat) (guard : RegularRun → RegularEvent × Oracle → Prop) : Prop :=
  ∀ s, (regularSystem spec).Reach guard s → s.begun ≤ n + 1 ∧ s.task.executions.length + s.subStarts.length ≤ s.begun ∧
    (s.task.state.isCompleted → ∀ (i : Nat) (x : Execution), s.task.executions[i]? = some x → x.accepted → s.startedBy[i]? = some s.begun)

/-- In the runs whose steps meet the guard, the task stops where it has to, and a completed task has accepted the result
    of the last attempt. -/
def StopsAttempts (spec : RegularSpec) (r : RetrySpec) (n : Nat) (guard : RegularRun → RegularEvent × Oracle → Prop) : Prop :=
  ∀ s, (regularSystem spec).Reach guard s → (∀ l, guard s l → RegularRun.StopsWell spec r n s l (s.step spec l)) ∧
    (s.task.state.isCompleted → ∀ (i : Nat) (x : Execution), s.task.executions[i]? = some x → s.startedBy[i]? = some s.begun → x.accepted)

/-- A task that breaks its retries. -/
def breaking : RetrySpec := { count := .lit 2, delay := .lit 1, breakOn := "<% $.final %>" }

/-- A task with a delay before and after its attempts. -/
def breakingTask : TaskSpec :=
  { name := "t", policies := { retry := some breaking, waitBefore := .lit 3, waitAfter := .lit 5 } }

def breakingSpec : RegularSpec := { policies := ({ tasks := [breakingTask] } : WorkflowSpec).buildPolicies breakingTask }

theorem retried_breaking : Retried breakingSpec breaking :=
  ⟨⟨{ tasks := [breakingTask] }, breakingTask, rfl⟩, by decide, by decide, rfl⟩

end Mistral
