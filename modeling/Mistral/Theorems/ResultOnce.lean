import Mistral.Engine.ActionResults

/-! The result of an action is recorded once, as long as no request reads the action execution while another one that
    found it incomplete is in progress, and nothing goes wrong with a result that is recorded. -/

namespace Mistral
namespace Results
variable {τ : Type} {c : ResultRequests τ} {s : Results τ} {t u : τ}

/-- The stored result is that of request `o`, or of none; the task gets it once. -/
structure Recorded (c : ResultRequests τ) (s : Results τ) (o : Option τ) : Prop where
  who : ∀ t, s.step t = .committed ↔ o = some t
  action : s.action.committed = o.elim c.action fun t => (c.result t).row
  notified : s.jobs + s.notified = if o.isSome then 1 else 0
  capacity : s.capacity = c.capacity + if c.withItems ∧ c.task.isCompleted = false then s.notified else 0
  jobs : s.jobs ≠ 0 → c.withItems
  task : s.task.committed = if c.withItems ∨ c.task.isCompleted then c.task else o.elim c.task fun t => (c.result t).state

/-- A request reads the action execution only when no other one that found it incomplete is in progress. Its result is
    recorded without an error, and gives a task that it completes its state. -/
def OneByOne (c : ResultRequests τ) (s : Results τ) : ResultEvent τ → Prop
  | .run t =>
    match s.step t with
    | .readAction => ∀ u, u ≠ t → (s.step u).inProgress = false
    | .update _ => c.error t = none
    | .notify task => ¬(c.withItems ∨ task.isCompleted) → c.completion t = none
    | _ => True
  | _ => True

/-- What a request in progress has written so far. -/
def Wrote (c : ResultRequests τ) (s : Results τ) (t : τ) : Prop :=
  match s.step t with
  | .readTask => s.action.pending = none ∧ s.task.pending = none
  | .update st => st = c.task ∧ s.action.pending = none ∧ s.task.pending = none
  | .notify st => st = c.task ∧ s.action.pending = some (t, (c.result t).row) ∧ s.task.pending = none
  | .commit => s.action.pending = some (t, (c.result t).row) ∧
      s.task.pending = if c.withItems ∨ c.task.isCompleted then none else some (t, (c.result t).state)
  | .failTask _ | .commitFailure => False
  | _ => True

theorem isCompleted_result (r : ActionResult) : r.state.isCompleted := by cases r <;> rfl

theorem Recorded.congr {s' : Results τ} {o : Option τ} (h : s.Recorded c o) (hstep : s'.step = s.step)
    (haction : s'.action.committed = s.action.committed) (htask : s'.task.committed = s.task.committed)
    (hjobs : s'.jobs = s.jobs) (hnotified : s'.notified = s.notified) (hcapacity : s'.capacity = s.capacity) :
    s'.Recorded c o where
  who := by rw [hstep]; exact h.who
  action := haction ▸ h.action
  notified := by rw [hjobs, hnotified]; exact h.notified
  capacity := by rw [hcapacity, hnotified]; exact h.capacity
  jobs := hjobs ▸ h.jobs
  task := htask ▸ h.task

theorem not_committed (h : s.Recorded c none) : s.step t ≠ .committed := fun hst => by
  cases (h.who t).mp hst

/-- A job tells the task about the result. -/
theorem Recorded.runJob {o : Option τ} (h : s.Recorded c o) : s.runJob.Recorded c o := by
  unfold Results.runJob
  split
  · exact h
  next hjobs =>
    have hw : c.withItems := h.jobs hjobs
    have htask : s.task.committed = c.task := by simpa [hw] using h.task
    have hcapacity := h.capacity
    refine { who := h.who, action := h.action, notified := ?_, capacity := ?_, jobs := fun _ => hw, task := h.task }
    · have := h.notified
      simp only
      omega
    · simp only [hw, true_and, htask] at hcapacity ⊢
      cases hcomplete : c.task.isCompleted <;> simp [hcomplete] at hcapacity ⊢ <;> omega

section
variable [DecidableEq τ]

theorem Wrote.pending_rollback (h : s.Wrote c t) (ht : (s.step t).inProgress) :
    (s.action.rollback t).pending = none ∧ (s.task.rollback t).pending = none := by
  unfold Wrote at h
  cases hstep : s.step t with rw [hstep] at h
  | readTask => simp [Cell.rollback, h]
  | update st => simp [Cell.rollback, h]
  | notify st => simp [Cell.rollback, h]
  | commit =>
    obtain ⟨haction, htask⟩ := h
    refine ⟨by simp [Cell.rollback, haction], ?_⟩
    split at htask <;> simp [Cell.rollback, htask]
  | failTask st => exact h.elim
  | commitFailure => exact h.elim
  | readAction | committed | rejected | rolledBack => simp [hstep, ResultStep.inProgress] at ht

/-- Nobody is in progress, or one request is, and none has committed before it. -/
inductive Serial (c : ResultRequests τ) (s : Results τ) : Prop
  | idle (o : Option τ) (h : s.Recorded c o) (haction : s.action.pending = none) (htask : s.task.pending = none)
      (hnone : ∀ t, (s.step t).inProgress = false) : Serial c s
  | busy (t : τ) (h : s.Recorded c none) (hwrote : s.Wrote c t) (ht : (s.step t).inProgress)
      (halone : ∀ u, u ≠ t → (s.step u).inProgress = false) : Serial c s

theorem step_goTo {st : ResultStep} : (s.goTo t st).step u = if u = t then st else s.step u := by
  simp [goTo, Function.update_apply]

/-- A step of `t` that commits nothing. -/
theorem Recorded.goTo {o : Option τ} {st : ResultStep} (h : s.Recorded c o) (hold : s.step t ≠ .committed)
    (hnew : st ≠ .committed) : (s.goTo t st).Recorded c o where
  who u := by
    rw [step_goTo]
    split
    next heq =>
      subst heq
      exact ⟨fun hst => absurd hst hnew, fun ho => absurd ((h.who u).mpr ho) hold⟩
    next => exact h.who u
  action := h.action
  notified := h.notified
  capacity := h.capacity
  jobs := h.jobs
  task := h.task

/-- Others are still not in progress after a step of `t`. -/
theorem alone_goTo {st : ResultStep} (halone : ∀ u, u ≠ t → (s.step u).inProgress = false) :
    ∀ u, u ≠ t → ((s.goTo t st).step u).inProgress = false := fun u hu => by
  rw [step_goTo, if_neg hu]
  exact halone u hu

/-- The request that is in progress takes its next statement. -/
theorem serial_execute_busy (h : s.Recorded c none) (hwrote : s.Wrote c t) (ht : (s.step t).inProgress)
    (halone : ∀ u, u ≠ t → (s.step u).inProgress = false) (hplain : s.OneByOne c (.run t)) :
    Serial c (s.execute c t) := by
  have hne : s.step t ≠ .committed := fun hst => by simp [hst, ResultStep.inProgress] at ht
  have htask : s.task.committed = c.task := by simpa using h.task
  unfold Wrote at hwrote
  unfold OneByOne at hplain
  unfold execute
  cases hstep : s.step t with simp only [hstep] at hwrote hplain
  | readTask =>
    refine .busy t (h.goTo hne (by rintro ⟨⟩)) ?_ (by simp [step_goTo, ResultStep.inProgress]) (alone_goTo halone)
    simp only [Wrote, step_goTo, if_true]
    exact ⟨(Cell.read_of_none hwrote.2).trans htask, hwrote⟩
  | update st =>
    obtain ⟨rfl, haction, hpending⟩ := hwrote
    have hfree : s.action.blocker t = none := by simp [Cell.blocker, haction]
    simp only [update, hfree, hplain, Option.isSome_none, Bool.false_eq_true, if_false]
    have hgo : (s.goTo t (.notify c.task)).Recorded c none := h.goTo hne (by rintro ⟨⟩)
    refine .busy t (hgo.congr rfl rfl rfl rfl rfl rfl) ?_ (by simp [step_goTo, ResultStep.inProgress]) (alone_goTo halone)
    simp only [Wrote, step_goTo, if_true]
    exact ⟨trivial, rfl, hpending⟩
  | notify st =>
    obtain ⟨rfl, haction, hpending⟩ := hwrote
    have hgo : (s.goTo t .commit).Recorded c none := h.goTo hne (by rintro ⟨⟩)
    simp only
    by_cases hskip : c.withItems ∨ c.task.isCompleted
    · rw [if_pos hskip]
      refine .busy t hgo ?_ (by simp [step_goTo, ResultStep.inProgress]) (alone_goTo halone)
      simp only [Wrote, step_goTo, if_true, if_pos hskip]
      exact ⟨haction, hpending⟩
    · have hfree : s.task.blocker t = none := by simp [Cell.blocker, hpending]
      have hread : s.task.read t = c.task := by rw [Cell.read_of_none hpending, htask]
      simp only [if_neg hskip, setTask, hfree, hread, hplain hskip, Option.isSome_none, Option.getD_none,
        Bool.false_eq_true, if_false, if_true]
      refine .busy t (hgo.congr rfl rfl rfl rfl rfl rfl) ?_ (by simp [step_goTo, ResultStep.inProgress]) (alone_goTo halone)
      simp only [Wrote, step_goTo, if_true, if_neg hskip]
      exact ⟨haction, rfl⟩
  | commit =>
    obtain ⟨haction, hpending⟩ := hwrote
    have hnotified : s.jobs + s.notified = 0 := by simpa using h.notified
    have haction' : s.action.commit t = ⟨(c.result t).row, none⟩ := Cell.commit_of_pending haction
    have htask' : s.task.commit t = ⟨if c.withItems ∨ c.task.isCompleted then c.task else (c.result t).state, none⟩ := by
      split at hpending
      next hskip => rw [Cell.commit_of_ne (by simp [hpending]), if_pos hskip, ← htask, ← hpending]
      next hskip => rw [Cell.commit_of_pending hpending, if_neg hskip]
    simp only [commit]
    refine .idle (some t) { who := fun u => ?_, action := ?_, notified := ?_, capacity := ?_, jobs := fun hjobs => ?_,
                            task := ?_ } ?_ ?_ fun u => ?_
    · simp only [step_goTo]
      split
      next heq => simp [heq]
      next hne => exact ⟨fun hu => absurd hu (not_committed h), fun ho => absurd (Option.some.inj ho).symm hne⟩
    · rw [haction']
      rfl
    · simp only [Option.isSome_some, if_true]
      split <;> omega
    · have hcapacity := h.capacity
      have hzero : s.notified = 0 := by omega
      rw [hzero, ite_self] at hcapacity
      show s.capacity = _
      rw [hcapacity]
      by_cases hw : c.withItems <;> simp [hw, hzero]
    · by_contra hw
      simp only [if_neg hw] at hjobs
      omega
    · rw [htask']
      rfl
    · rw [haction']
    · rw [htask']
    · by_cases hu : u = t
      · subst hu
        simp [step_goTo, ResultStep.inProgress]
      · exact alone_goTo halone u hu
  | readAction | committed | rejected | rolledBack => simp [hstep, ResultStep.inProgress] at ht

theorem execute_of_ended (hread : s.step t ≠ .readAction) (hend : (s.step t).inProgress = false) : s.execute c t = s := by
  unfold execute
  cases hstep : s.step t with
  | readAction => exact absurd hstep hread
  | readTask | update _ | failTask _ | notify _ | commit | commitFailure =>
    simp [hstep, ResultStep.inProgress] at hend
  | committed | rejected | rolledBack => rfl

/-- A request reads the action execution while nobody is in progress. -/
theorem serial_execute_idle {o : Option τ} (h : s.Recorded c o) (haction : s.action.pending = none)
    (htask : s.task.pending = none) (hnone : ∀ u, (s.step u).inProgress = false) : Serial c (s.execute c t) := by
  by_cases hread : s.step t = .readAction
  · have hne : s.step t ≠ .committed := by simp [hread]
    simp only [execute, hread]
    rw [Cell.read_of_none haction]
    split
    · refine .idle o (h.goTo hne (by rintro ⟨⟩)) haction htask fun u => ?_
      rw [step_goTo]
      split
      · rfl
      · exact hnone u
    next hincomplete =>
      obtain rfl : o = none := by
        cases o with
        | none => rfl
        | some u =>
          rw [h.action] at hincomplete
          exact absurd (isCompleted_result (c.result u)) hincomplete
      refine .busy t (h.goTo hne (by rintro ⟨⟩)) ?_ (by simp [step_goTo, ResultStep.inProgress]) (alone_goTo fun u _ => hnone u)
      simp only [Wrote, step_goTo, if_true]
      exact ⟨haction, htask⟩
  · rw [execute_of_ended hread (hnone t)]
    exact .idle o h haction htask hnone

theorem Serial.next {e : ResultEvent τ} (hs : Serial c s) (he : s.OneByOne c e) : Serial c (s.next c e) := by
  cases hs with
  | idle o h haction htask hnone =>
    cases e with
    | run t => exact serial_execute_idle h haction htask hnone
    | rollback t =>
      simp only [Results.next, hnone t, Bool.false_eq_true, if_false]
      exact .idle o h haction htask hnone
    | job =>
      refine .idle o h.runJob ?_ ?_ ?_ <;> simp only [Results.next, runJob] <;> split <;> assumption
  | busy t h hwrote ht halone =>
    cases e with
    | run u =>
      by_cases hu : u = t
      · subst hu
        exact serial_execute_busy h hwrote ht halone he
      · have hread : s.step u ≠ .readAction := fun hread => by
          simp only [OneByOne, hread] at he
          have := he t (Ne.symm hu)
          simp [ht] at this
        simp only [Results.next]
        rw [execute_of_ended hread (halone u hu)]
        exact .busy t h hwrote ht halone
    | rollback u =>
      simp only [Results.next]
      split
      next hprogress =>
        obtain rfl : u = t := by
          by_contra hu
          simp [halone u hu] at hprogress
        have hne : s.step u ≠ .committed := not_committed h
        have hgo : (s.goTo u .rolledBack).Recorded c none := h.goTo hne nofun
        refine .idle none (hgo.congr rfl Cell.committed_rollback Cell.committed_rollback rfl rfl rfl) ?_ ?_ fun v => ?_
        · exact (hwrote.pending_rollback ht).1
        · exact (hwrote.pending_rollback ht).2
        · by_cases hv : v = u
          · subst hv
            simp [step_goTo, ResultStep.inProgress]
          · exact alone_goTo halone v hv
      · exact .busy t h hwrote ht halone
    | job =>
      have hjobs : s.jobs = 0 := by
        have := h.notified
        simp only [Option.isSome_none, Bool.false_eq_true, if_false] at this
        omega
      simp only [Results.next, runJob, if_pos hjobs]
      exact .busy t h hwrote ht halone

end

theorem serial_start : Serial c (start c) :=
  .idle none { who := fun t => by simp [start], action := rfl, notified := rfl, capacity := by simp [start],
               jobs := fun h => absurd rfl h, task := by simp [start] } rfl rfl fun _ => rfl

section
variable [DecidableEq τ]

/-- In every run, the stored result is that of one request at most. -/
def RecordsOnce (c : ResultRequests τ) (guard : Results τ → ResultEvent τ → Prop) : Prop :=
  ∀ s, (resultSystem c).Reach guard s → ∃ o, s.Recorded c o

end
end Results

/-- The result of an action is recorded once, where requests read the action execution one by one. -/
theorem action_result_recorded_once {τ : Type} [DecidableEq τ] (c : ResultRequests τ) :
    Results.RecordsOnce c (Results.OneByOne c) := fun s hreach => by
  have hserial : Results.Serial c s :=
    hreach.invariant (fun _ hinit => hinit ▸ Results.serial_start) fun _ _ _ hs he => hs.next he
  cases hserial with
  | idle o h => exact ⟨o, h⟩
  | busy t h => exact ⟨none, h⟩

local instance requests_neZero : NeZero 2 := ⟨Nat.succ_ne_zero 1⟩

/-- An executor brings success and a heartbeat checker an error, for an action of a running task. -/
def successAndError : ResultRequests (Fin 2) where
  result t := if t = 0 then .success "ok" else .error "expired"
  error _ := none
  completion _ := none
  withItems := false
  action := { state := .running }
  task := .running
  capacity := 0

/-- Both requests find the action execution incomplete; the task succeeds and the stored action is in error. -/
theorem concurrent_results_both_recorded :
    ¬Results.RecordsOnce successAndError fun _ _ => True := fun h => by
  let events : List (ResultEvent (Fin 2)) :=
    [.run 0, .run 0, .run 1, .run 1, .run 0, .run 0, .run 0, .run 1, .run 1, .run 1]
  have hreach : (resultSystem successAndError).Reach (fun _ _ => True)
      ((resultSystem successAndError).run (Results.start successAndError) events) :=
    .run (.init rfl) (by simp [events, System.Guarded])
  obtain ⟨o, ho⟩ := h _ hreach
  have haction : ({ state := .error, output := some "expired", accepted := true } : ActionRow) =
      o.elim successAndError.action fun t => (successAndError.result t).row := ho.action
  have htask : State.success = o.elim successAndError.task fun t => (successAndError.result t).state := ho.task
  cases o with
  | none => cases haction
  | some t =>
    by_cases ht : t = 0
    · simp [successAndError, ht, ActionResult.row, ActionResult.state] at haction
    · simp [successAndError, ht, ActionResult.state] at htask

end Mistral
