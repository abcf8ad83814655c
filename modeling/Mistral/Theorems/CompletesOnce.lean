import Mistral.Engine.TaskAttempts

/-! The completion logic of a task runs once in each active period of it, where skip requests and forced failures find
    the task open, and attempts have written nothing when they lose it. -/

namespace Mistral

namespace TaskRow
variable {τ : Type} {row : TaskRow τ} {t : τ} {st : State} {info : Option String}

/-- One attempt has got through if the task is completed, and none if it is not. -/
def Once (row : TaskRow τ) : Prop := row.passed.length = if row.state.isCompleted then 1 else 0

/-- Only `t` has got through. -/
def By (t : τ) (row : TaskRow τ) : Prop := row.passed = if row.state.isCompleted then [t] else []

/-- A new period begins with a state, or nobody has got through in the present one but `t`. -/
def Free (row : TaskRow τ) (t : τ) (st : State) : Prop := row.By t ∨ row.state.isCompleted = false ∨ row.state.opens st

theorem By.once (h : row.By t) : row.Once := by
  unfold By at h
  unfold Once
  rw [h]
  split <;> rfl

theorem once_of_same {row' : TaskRow τ} (hstate : row'.state = row.state) (hpassed : row'.passed = row.passed)
    (h : row.Once) : row'.Once := by
  unfold Once at *
  rw [hstate, hpassed, h]

theorem differs_of_completed (hrow : row.state.isCompleted = false) (hst : st.isCompleted) : row.differs st info := by
  have hne : row.state ≠ st := fun h => by simp [h, hst] at hrow
  simp [TaskRow.differs, hne]

variable [DecidableEq τ]

theorem by_withState (hrow : row.Once) (hfree : row.Free t st) : (row.withState t st info).By t := by
  have hbase : (if row.state.opens st then [] else row.passed) = [] ∨
      (if row.state.opens st then [] else row.passed) = [t] ∧ st.isCompleted := by
    by_cases hopens : row.state.opens st
    · simp [hopens]
    · simp only [if_neg hopens]
      obtain hby | hopen | hopens' := hfree
      · unfold By at hby
        by_cases hcompleted : row.state.isCompleted
        · rw [if_pos hcompleted] at hby
          have hst : st.isCompleted := by
            by_contra hst
            simp [State.opens, hcompleted, hst] at hopens
          exact .inr ⟨hby, hst⟩
        · rw [if_neg hcompleted] at hby
          exact .inl hby
      · unfold Once at hrow
        rw [hopen] at hrow
        exact .inl (List.length_eq_zero_iff.mp (by simpa using hrow))
      · exact absurd hopens' hopens
  unfold By withState pass
  simp only
  split
  · obtain h | ⟨h, -⟩ := hbase <;> simp [h]
  next hst =>
    obtain h | ⟨-, hcompleted⟩ := hbase
    · exact h
    · exact absurd hcompleted hst

theorem pass_of_by (h : row.By t) : row.pass t = row := by
  unfold By at h
  unfold pass
  split
  next hcompleted =>
    rw [if_pos hcompleted] at h
    have hinsert : row.passed.insert t = row.passed := by simp [h]
    rw [hinsert]
  · rfl

end TaskRow

namespace TaskAttempt

/-- A skip request. -/
def IsSkip (a : TaskAttempt) : Prop := ∃ env, a = .skip env

/-- The attempt found the task open. -/
def Found (a : TaskAttempt) (st : State) : Prop :=
  match a with
  | .complete .. => st.isCompleted = false
  | .skip _ => st.isCompleted = false ∨ st = .error
  | _ => True

/-- The attempt may have written the task before it comes to `set_state`. -/
def WritesBefore (a : TaskAttempt) : Prop :=
  match a with
  | .complete .. | .skip _ => True
  | _ => False

theorem IsSkip.writesBefore {a : TaskAttempt} (h : a.IsSkip) : a.WritesBefore := by
  obtain ⟨env, rfl⟩ := h
  trivial

theorem IsSkip.not_fail {a : TaskAttempt} (h : a.IsSkip) (msg : String) : a ≠ .fail msg := by
  obtain ⟨env, rfl⟩ := h
  simp

end TaskAttempt

/-- What an attempt has done when it comes to its next statement: `own` and `wf` are what it has written, and
    `committed` is the workflow for everybody else. -/
def AttemptTx.Ok {τ : Type} (a : TaskAttempt) (tx : AttemptTx τ) (own : Option (TaskRow τ))
    (wf : Option WorkflowColumns) (committed : WorkflowColumns) : Prop :=
  match tx.step with
  | .load => own = none ∧ wf = none ∧ tx.passed = false ∧ tx.dispatches = false
  | .loadWorkflow => a.Found tx.row.state ∧ own = none ∧ wf = none ∧ tx.passed = false ∧ tx.dispatches = false
  | .updateEnv =>
    a.IsSkip ∧ a.Found tx.row.state ∧ own = none ∧ wf = none ∧ tx.passed = false ∧ tx.dispatches = false
  | .runWorkflow => a.IsSkip ∧ a.Found tx.row.state ∧ own = none ∧ tx.passed = false ∧ tx.dispatches = false
  | .cleanUp =>
    a.IsSkip ∧ a.Found tx.row.state ∧ own = none ∧ tx.passed = false ∧ tx.dispatches = false ∧
      (tx.hasCommand ∨ tx.row.isLeft = false ∧ tx.wf.backlog = [] ∧ (wf = none ∨ wf = some committed))
  | .pollBacklog =>
    a.IsSkip ∧ a.Found tx.row.state ∧ tx.passed = false ∧ tx.dispatches = false ∧
      (tx.hasCommand ∨ own = none ∧ tx.wf.backlog = [] ∧ (wf = none ∨ wf = some committed))
  | .runBacklog => a.IsSkip ∧ a.Found tx.row.state ∧ tx.passed = false ∧ tx.dispatches = false
  | .increaseCapacity =>
    a.Found tx.row.state ∧ own = none ∧ wf = none ∧ tx.passed = false ∧ tx.dispatches = false ∧ a.WritesBefore
  | .setState =>
    a.Found tx.row.state ∧ (own = none ∨ a.WritesBefore) ∧ (wf = none ∨ a.IsSkip) ∧ tx.passed = false ∧
      tx.dispatches = false ∧ ∀ msg, a ≠ .fail msg
  | .policies | .commands => own = some tx.row ∧ (wf = none ∨ a.IsSkip) ∧ tx.passed ∧ tx.dispatches = false
  | .runTask | .failTask _ => (own = some tx.row ∧ tx.passed ∨ own = none) ∧ wf = none ∧ tx.dispatches = false
  | .failWorkflow => (tx.passed ∨ own = none ∧ tx.wf.state.isPausedOrCompleted) ∧ wf = none ∧ tx.dispatches = false
  | .commit => tx.passed ∨ own = none ∧ (wf = none ∨ wf = some committed) ∧ tx.dispatches = false
  | .ended => own = none ∧ wf = none

theorem AttemptTx.Ok.committed {τ : Type} {a : TaskAttempt} {tx : AttemptTx τ} {own : Option (TaskRow τ)}
    {c c' : WorkflowColumns} (h : tx.Ok a own none c) : tx.Ok a own none c' := by
  unfold AttemptTx.Ok at h ⊢
  cases hstep : tx.step with rw [hstep] at h
  | commit | cleanUp | pollBacklog => simpa using h
  | _ => exact h

namespace Attempts
variable {τ : Type} [DecidableEq τ] {kind : τ → TaskAttempt} {s s' : Attempts τ} {t u : τ}

/-- Every attempt has done what its next statement needs, and stored rows have one attempt that got through. -/
structure Ok (kind : τ → TaskAttempt) (s : Attempts τ) : Prop where
  once : s.task.committed.Once
  own : ∀ t row, s.task.own t = some row → row.Once ∧ ((s.txs t).passed → row.By t)
  tx : ∀ t, (s.txs t).Ok (kind t) (s.task.own t) (s.wf.own t) s.wf.committed

/-- A step of others leaves an attempt alone. -/
structure Apart (s s' : Attempts τ) (t : τ) : Prop where
  tx : s'.txs t = s.txs t
  task : s'.task.own t = s.task.own t
  wf : s'.wf.own t = s.wf.own t
  committed : s.wf.own t ≠ none → s'.wf.committed = s.wf.committed

theorem Apart.ok (h : s.Apart s' t) (hok : (s.txs t).Ok (kind t) (s.task.own t) (s.wf.own t) s.wf.committed) :
    (s'.txs t).Ok (kind t) (s'.task.own t) (s'.wf.own t) s'.wf.committed := by
  rw [h.tx, h.task, h.wf]
  by_cases hwf : s.wf.own t = none
  · rw [hwf] at hok ⊢
    exact hok.committed
  · rw [h.committed hwf]
    exact hok

theorem Ok.step (h : s.Ok kind) (hapart : ∀ u, u ≠ t → s.Apart s' u) (honce : s'.task.committed.Once)
    (hown : ∀ row, s'.task.own t = some row → row.Once ∧ ((s'.txs t).passed → row.By t))
    (htx : (s'.txs t).Ok (kind t) (s'.task.own t) (s'.wf.own t) s'.wf.committed) : s'.Ok kind where
  once := honce
  own u row hrow := by
    by_cases hu : u = t
    · subst hu
      exact hown row hrow
    · rw [(hapart u hu).tx]
      exact h.own u row ((hapart u hu).task ▸ hrow)
  tx u := by
    by_cases hu : u = t
    · subst hu
      exact htx
    · exact (hapart u hu).ok (h.tx u)

@[simp] theorem setTx_same {tx : AttemptTx τ} : (s.setTx t tx).txs t = tx := by simp [setTx]

@[simp] theorem goTo_same {st : AttemptStep} : (s.goTo t st).txs t = { s.txs t with step := st } := by simp [goTo]

theorem setTx_of_ne {tx : AttemptTx τ} (hu : u ≠ t) : (s.setTx t tx).txs u = s.txs u := by
  simp [setTx, hu]

theorem apart_setTx {tx : AttemptTx τ} (hu : u ≠ t) : s.Apart (s.setTx t tx) u :=
  ⟨setTx_of_ne hu, rfl, rfl, fun _ => rfl⟩

/-- What an attempt reads, it has written, or it is committed. -/
theorem Ok.once_read (h : s.Ok kind) : (s.task.read t).Once := by
  cases hown : s.task.own t with
  | some row => rw [Cell.read_of_own hown]; exact (h.own t row hown).1
  | none => rw [Cell.read_of_own_none hown]; exact h.once

/-- A statement that only changes the record of its attempt, and does not bring it through `set_state`. -/
theorem Ok.setTx (h : s.Ok kind) {tx : AttemptTx τ} (hpassed : tx.passed → (s.txs t).passed)
    (htx : tx.Ok (kind t) (s.task.own t) (s.wf.own t) s.wf.committed) : (s.setTx t tx).Ok kind := by
  refine h.step (t := t) (fun _ => apart_setTx) h.once (fun row hrow => ?_) (by rw [setTx_same]; exact htx)
  rw [setTx_same]
  exact ⟨(h.own t row hrow).1, fun hp => (h.own t row hrow).2 (hpassed hp)⟩

theorem Ok.goTo (h : s.Ok kind) {st : AttemptStep}
    (htx : AttemptTx.Ok (kind t) { s.txs t with step := st } (s.task.own t) (s.wf.own t) s.wf.committed) :
    (s.goTo t st).Ok kind := h.setTx id htx

theorem apart_writeTask {row : TaskRow τ} {tx : AttemptTx τ} (hfree : s.task.blocker t = none) (hu : u ≠ t) :
    s.Apart ({ s with task := s.task.write t row }.setTx t tx) u :=
  ⟨setTx_of_ne hu, Cell.own_write_of_ne hfree hu, rfl, fun _ => rfl⟩

theorem apart_writeWorkflow {wf : WorkflowColumns} {tx : AttemptTx τ} (hfree : s.wf.blocker t = none) (hu : u ≠ t) :
    s.Apart ({ s with wf := s.wf.write t wf }.setTx t tx) u :=
  ⟨setTx_of_ne hu, rfl, Cell.own_write_of_ne hfree hu, fun _ => rfl⟩

/-- A statement that writes the workflow. -/
theorem Ok.writeWorkflow (h : s.Ok kind) {wf : WorkflowColumns} {tx : AttemptTx τ} (hfree : s.wf.blocker t = none)
    (hpassed : tx.passed → (s.txs t).passed)
    (htx : tx.Ok (kind t) (s.task.own t) (some wf) s.wf.committed) :
    ({ s with wf := s.wf.write t wf }.setTx t tx).Ok kind := by
  refine h.step (t := t) (fun u hu => apart_writeWorkflow hfree hu) h.once (fun row hrow => ?_) ?_
  · rw [setTx_same]
    exact ⟨(h.own t row hrow).1, fun hp => (h.own t row hrow).2 (hpassed hp)⟩
  · rw [setTx_same]
    show tx.Ok (kind t) (s.task.own t) ((s.wf.write t wf).own t) s.wf.committed
    rwa [Cell.own_write]

/-- A statement that writes the task. -/
theorem Ok.writeTask (h : s.Ok kind) {row : TaskRow τ} {tx : AttemptTx τ} (hfree : s.task.blocker t = none)
    (hrow : row.Once ∧ (tx.passed → row.By t))
    (htx : tx.Ok (kind t) (some row) (s.wf.own t) s.wf.committed) :
    ({ s with task := s.task.write t row }.setTx t tx).Ok kind := by
  refine h.step (t := t) (fun u hu => apart_writeTask hfree hu) h.once (fun row' hrow' => ?_) ?_
  · obtain rfl : row = row' := by simpa [Attempts.setTx] using hrow'
    rw [setTx_same]
    exact hrow
  · rw [setTx_same]
    show tx.Ok (kind t) ((s.task.write t row).own t) (s.wf.own t) s.wf.committed
    rwa [Cell.own_write]

/-- What `set_state` can do. -/
inductive SetState (s : Attempts τ) (t : τ) (st : State) (info : Option String) (won lost : AttemptStep) :
    Attempts τ → Prop
  | waits : SetState s t st info won lost s
  | same (hsame : (s.txs t).row.differs st info = false) :
      SetState s t st info won lost (s.setTx t { s.txs t with step := won, passed := true })
  | wrote {row : TaskRow τ} (hfree : s.task.blocker t = none) (hread : (s.task.read t).state = (s.txs t).row.state)
      (hrow : row = (s.task.read t).withState t st info) :
      SetState s t st info won lost
        ({ s with task := s.task.write t row }.setTx t { s.txs t with row, step := won, passed := true })
  | lost (hread : (s.task.read t).state ≠ (s.txs t).row.state) : SetState s t st info won lost (s.goTo t lost)

theorem setState_cases (s : Attempts τ) (t : τ) (st : State) (info : Option String) (won lost : AttemptStep) :
    SetState s t st info won lost (s.setState t st info won lost) := by
  simp only [setState]
  by_cases hdiffers : (s.txs t).row.differs st info
  · rw [if_pos hdiffers]
    split
    · exact .waits
    next hfree =>
      split
      next hread => exact .wrote (by simpa using hfree) hread rfl
      next hread => exact .lost hread
  · rw [if_neg hdiffers]
    exact .same (by simpa using hdiffers)

/-- `set_state` of an attempt that finds the task open for it. -/
theorem Ok.setState (h : s.Ok kind) {st : State} {info : Option String} {won lost : AttemptStep}
    (hfree : (s.task.read t).state = (s.txs t).row.state → (s.task.read t).Free t st)
    (hsame : (s.txs t).row.differs st info = false →
      ((s.txs t).passed ∨ s.task.own t = none) ∧
        AttemptTx.Ok (kind t) { s.txs t with step := won, passed := true } (s.task.own t) (s.wf.own t) s.wf.committed)
    (hwrote : ∀ row : TaskRow τ,
      AttemptTx.Ok (kind t) { s.txs t with row, step := won, passed := true } (some row) (s.wf.own t) s.wf.committed)
    (hlost : (s.task.read t).state ≠ (s.txs t).row.state →
      AttemptTx.Ok (kind t) { s.txs t with step := lost } (s.task.own t) (s.wf.own t) s.wf.committed) :
    (s.setState t st info won lost).Ok kind := by
  generalize hs : s.setState t st info won lost = s'
  have hcases := hs ▸ setState_cases s t st info won lost
  cases hcases with
  | waits => exact h
  | same hdiffers =>
    obtain ⟨hpassed, htx⟩ := hsame hdiffers
    refine h.step (t := t) (fun _ => apart_setTx) h.once (fun row hrow => ?_) (by rw [setTx_same]; exact htx)
    -- An attempt that has written the task is through already.
    obtain hpassed | hnone := hpassed
    · exact ⟨(h.own t row hrow).1, fun _ => (h.own t row hrow).2 hpassed⟩
    · cases hnone.symm.trans hrow
  | lost hread => exact h.goTo (hlost hread)
  | @wrote row hblocker hread hrow =>
    have hby : row.By t := hrow ▸ TaskRow.by_withState h.once_read (hfree hread)
    exact h.writeTask hblocker ⟨hby.once, fun _ => hby⟩ (hwrote row)

/-- `set_state` of an attempt that has got through it before. -/
theorem Ok.setState_own (h : s.Ok kind) {st : State} {info : Option String} {won lost : AttemptStep}
    (hown : s.task.own t = some (s.txs t).row) (hpassed : (s.txs t).passed)
    (hwon : ∀ row : TaskRow τ,
      AttemptTx.Ok (kind t) { s.txs t with row, step := won, passed := true } (some row) (s.wf.own t) s.wf.committed) :
    (s.setState t st info won lost).Ok kind := by
  have hread : s.task.read t = (s.txs t).row := Cell.read_of_own hown
  refine h.setState (fun _ => .inl ?_) (fun _ => ⟨.inl hpassed, ?_⟩) hwon fun hne =>
    absurd (congrArg TaskRow.state hread) hne
  · rw [hread]
    exact (h.own t _ hown).2 hpassed
  · rw [hown]
    exact hwon _

/-- The task and the workflow are to others what they are to the attempt. -/
def LeavesAlone (s : Attempts τ) (t : τ) : Prop := s.task.own t = none ∧ s.wf.read t = s.wf.committed

theorem LeavesAlone.wf (h : s.LeavesAlone t) : s.wf.own t = none ∨ s.wf.own t = some s.wf.committed := by
  cases hown : s.wf.own t with
  | none => exact .inl rfl
  | some row => exact .inr (by rw [← h.2, Cell.read_of_own hown])

/-- Skip requests find the task open. An attempt that finds the task changed has not written anything before; so has one
    that finds the completed workflow changed which it runs again, and it has nothing to write. No restored command
    pauses or completes the workflow. Forced failures come from the attempt that changed the task, or find it open and
    unchanged, or leave the workflow alone. -/
def FindsOpen (kind : τ → TaskAttempt) (s : Attempts τ) : AttemptEvent τ → Prop
  | .run t =>
    let row := s.task.read t
    let tx := s.txs t
    match tx.step with
    | .load => (kind t).IsSkip → row.state.isCompleted = false ∨ row.state = .error
    | .runWorkflow =>
      (s.wf.read t).state = tx.wf.state ∨ tx.hasCommand ∨
        s.LeavesAlone t ∧ tx.row.isLeft = false ∧ tx.wf.backlog = []
    | .setState => row.state = tx.row.state ∨ s.LeavesAlone t
    | .failTask _ =>
      (s.task.own t).isSome ∨
        if row.state = tx.row.state then tx.row.state.isCompleted = false else tx.wf.state.isPausedOrCompleted
    | _ => True
  | .restored .. => False
  | _ => True

/-- The end of a transaction leaves the others alone. -/
theorem apart_commit (hu : u ≠ t) : s.Apart (s.commit t) u where
  tx := setTx_of_ne hu
  task := Cell.own_commit_of_ne hu
  wf := Cell.own_commit_of_ne hu
  committed hne := by
    obtain ⟨v, hv⟩ := Option.ne_none_iff_exists'.mp hne
    exact Cell.committed_commit_of_own hv hu

theorem apart_rollback (hu : u ≠ t) : s.Apart (s.rollback t) u where
  tx := setTx_of_ne hu
  task := Cell.own_rollback_of_ne hu
  wf := Cell.own_rollback_of_ne hu
  committed _ := Cell.committed_rollback

theorem Ok.commit (h : s.Ok kind) : (s.commit t).Ok kind := by
  refine h.step (t := t) (fun u hu => apart_commit hu) ?_ (fun row hrow => ?_) ?_
  · simp only [Attempts.commit, Cell.committed_commit]
    exact h.once_read
  · simp [Attempts.commit] at hrow
  · simp [Attempts.commit, AttemptTx.Ok]

theorem Ok.rollback (h : s.Ok kind) : (s.rollback t).Ok kind := by
  refine h.step (t := t) (fun u hu => apart_rollback hu) ?_ (fun row hrow => ?_) ?_
  · simpa [Attempts.rollback] using h.once
  · simp [Attempts.rollback] at hrow
  · simp [Attempts.rollback, AttemptTx.Ok]

theorem Ok.load (h : s.Ok kind) (hstep : (s.txs t).step = .load) (hfinds : s.FindsOpen kind (.run t)) :
    (s.load kind t).Ok kind := by
  have htx := h.tx t
  simp only [AttemptTx.Ok, hstep] at htx
  simp only [FindsOpen, hstep] at hfinds
  refine h.setTx id ?_
  simp only [AttemptTx.Ok]
  cases hkind : kind t with
  | complete st info capacity =>
    by_cases hcompleted : (s.task.read t).state.isCompleted
    · simp only [if_pos hcompleted]
      exact ⟨htx.1, htx.2.1⟩
    · simp only [if_neg hcompleted]
      exact ⟨eq_false_of_ne_true hcompleted, htx⟩
  | skip env => exact ⟨hfinds ⟨env, hkind⟩, htx⟩
  | fail | reopen => exact ⟨trivial, htx⟩

theorem Ok.loadWorkflow (h : s.Ok kind) (hstep : (s.txs t).step = .loadWorkflow) : (s.loadWorkflow kind t).Ok kind := by
  have htx := h.tx t
  simp only [AttemptTx.Ok, hstep] at htx
  obtain ⟨hfound, hown, hwf, hpassed, hdispatches⟩ := htx
  refine h.setTx id ?_
  simp only [AttemptTx.Ok]
  cases hkind : kind t with
  | skip env => exact ⟨⟨env, rfl⟩, hkind ▸ hfound, hown, hwf, hpassed, hdispatches⟩
  | fail msg => exact ⟨.inr hown, hwf, hdispatches⟩
  | complete => exact ⟨hkind ▸ hfound, hown, hwf, hpassed, hdispatches, trivial⟩
  | reopen => exact ⟨hkind ▸ hfound, .inl hown, .inl hwf, hpassed, hdispatches, by simp⟩

theorem Ok.updateEnv (h : s.Ok kind) (hstep : (s.txs t).step = .updateEnv) : (s.updateEnv kind t).Ok kind := by
  have htx := h.tx t
  simp only [AttemptTx.Ok, hstep] at htx
  obtain ⟨hskip, hfound, hown, hwf, hpassed, hdispatches⟩ := htx
  simp only [Attempts.updateEnv]
  split
  · exact h.goTo ⟨hown, hwf⟩
  · split
    · exact h.goTo ⟨hskip, hfound, hown, hpassed, hdispatches⟩
    · split
      · exact h.rollback
      · split
        · exact h
        next hfree =>
          exact h.writeWorkflow (by simpa using hfree) id ⟨hskip, hfound, hown, hpassed, hdispatches⟩
    · exact h

theorem Ok.runWorkflow (h : s.Ok kind) (hstep : (s.txs t).step = .runWorkflow) (hfinds : s.FindsOpen kind (.run t)) :
    (s.runWorkflow t).Ok kind := by
  have htx := h.tx t
  simp only [AttemptTx.Ok, hstep] at htx
  simp only [FindsOpen, hstep] at hfinds
  obtain ⟨hskip, hfound, hown, hpassed, hdispatches⟩ := htx
  simp only [Attempts.runWorkflow]
  split
  · exact h.rollback
  · split
    · exact h
    next hfree =>
      split
      · exact h.writeWorkflow (by simpa using hfree) id ⟨hskip, hfound, hown, hpassed, hdispatches, .inl rfl⟩
      next hread =>
        refine h.goTo ⟨hskip, hfound, hown, hpassed, hdispatches, ?_⟩
        obtain hcommand | ⟨halone, hleft, hbacklog⟩ := hfinds.resolve_left hread
        · exact .inl hcommand
        · exact .inr ⟨hleft, hbacklog, halone.wf⟩

theorem Ok.cleanUp (h : s.Ok kind) (hstep : (s.txs t).step = .cleanUp) : (s.cleanUp t).Ok kind := by
  have htx := h.tx t
  simp only [AttemptTx.Ok, hstep] at htx
  obtain ⟨hskip, hfound, hown, hpassed, hdispatches, hcommand⟩ := htx
  simp only [Attempts.cleanUp]
  split
  · refine h.goTo ⟨hskip, hfound, hpassed, hdispatches, ?_⟩
    obtain hcommand | ⟨-, hbacklog, hwf⟩ := hcommand
    · exact .inl hcommand
    · exact .inr ⟨hown, hbacklog, hwf⟩
  next hdirty =>
    -- Without a command, a task that is not left as it is has a mark to get.
    have hcommand : (s.txs t).hasCommand := by
      obtain hcommand | ⟨hleft, -, -⟩ := hcommand
      · exact hcommand
      · by_contra hnone
        simp [TaskRow.isClean, hleft, hnone] at hdirty
    split
    · exact h
    next hfree =>
      refine h.writeTask (by simpa using hfree) ⟨TaskRow.once_of_same rfl rfl h.once_read, ?_⟩
        ⟨hskip, hfound, hpassed, hdispatches, .inl hcommand⟩
      simp [hpassed]

theorem Ok.pollBacklog (h : s.Ok kind) (hstep : (s.txs t).step = .pollBacklog) : (s.pollBacklog t).Ok kind := by
  have htx := h.tx t
  simp only [AttemptTx.Ok, hstep] at htx
  obtain ⟨hskip, hfound, hpassed, hdispatches, hcommand⟩ := htx
  simp only [Attempts.pollBacklog]
  split
  · split
    · exact h.goTo ⟨hfound, .inr hskip.writesBefore, .inr hskip, hpassed, hdispatches, hskip.not_fail⟩
    next hnone =>
      obtain ⟨hown, -, hwf⟩ := hcommand.resolve_left hnone
      exact h.goTo (.inr ⟨hown, hwf, hdispatches⟩)
  next hbacklog =>
    have hcommand : (s.txs t).hasCommand := hcommand.resolve_right fun hnone => hbacklog hnone.2.1
    simp only [if_pos hcommand]
    split
    · exact h
    next hfree =>
      exact h.writeWorkflow (by simpa using hfree) id ⟨hskip, hfound, hpassed, hdispatches⟩

theorem Ok.increaseCapacity (h : s.Ok kind) (hstep : (s.txs t).step = .increaseCapacity) :
    (s.increaseCapacity kind t).Ok kind := by
  have htx := h.tx t
  simp only [AttemptTx.Ok, hstep] at htx
  obtain ⟨hfound, hown, hwf, hpassed, hdispatches, hbefore⟩ := htx
  have hfail : ∀ msg, kind t ≠ .fail msg := fun msg hmsg => by
    rw [hmsg] at hbefore
    exact hbefore
  simp only [Attempts.increaseCapacity]
  split
  · split
    · exact h
    next hfree =>
      refine h.writeTask (by simpa using hfree) ⟨TaskRow.once_of_same rfl rfl h.once_read, ?_⟩
        ⟨hfound, .inr hbefore, .inl hwf, hpassed, hdispatches, hfail⟩
      simp [hpassed]
  · exact h.goTo ⟨hfound, .inl hown, .inl hwf, hpassed, hdispatches, hfail⟩

theorem Ok.execute_setState (h : s.Ok kind) (hstep : (s.txs t).step = .setState) (hfinds : s.FindsOpen kind (.run t)) :
    (s.execute kind t).Ok kind := by
  have htx := h.tx t
  simp only [AttemptTx.Ok, hstep] at htx
  obtain ⟨hfound, hown, hwf, hpassed, hdispatches, hfail⟩ := htx
  simp only [FindsOpen, hstep] at hfinds
  simp only [execute, hstep]
  cases hkind : kind t with
  | reopen st info =>
    have hwf : s.wf.own t = none := hwf.resolve_right (by rintro ⟨env, henv⟩; simp [hkind] at henv)
    have hown : s.task.own t = none := hown.resolve_right (by simp [hkind, TaskAttempt.WritesBefore])
    refine h.setState (fun _ => ?_) (fun _ => ⟨.inr hown, ?_⟩) (fun row => ?_) fun _ => ?_
    · by_cases hcompleted : (s.task.read t).state.isCompleted
      · exact .inr (.inr (by simp [State.opens, hcompleted, st.2]))
      · exact .inr (.inl (eq_false_of_ne_true hcompleted))
    · exact ⟨.inr hown, hwf, hdispatches⟩
    · exact ⟨.inl ⟨rfl, rfl⟩, hwf, hdispatches⟩
    · exact ⟨.inr hown, hwf, hdispatches⟩
  | complete st info capacity =>
    have hwf : s.wf.own t = none := hwf.resolve_right (by rintro ⟨env, henv⟩; simp [hkind] at henv)
    rw [hkind] at hfound
    refine h.setState (fun hread => .inr (.inl (hread ▸ hfound))) (fun hsame => ?_) (fun row => ?_) fun hne => ?_
    · have hdiffers : (s.txs t).row.differs st info := TaskRow.differs_of_completed hfound st.2.1
      exact absurd (hsame.symm.trans hdiffers) Bool.false_ne_true
    · exact ⟨rfl, .inl hwf, rfl, hdispatches⟩
    · exact .inr ⟨(hfinds.resolve_left hne).1, .inl hwf, hdispatches⟩
  | skip env =>
    rw [hkind] at hfound
    refine h.setState (fun hread => ?_) (fun hsame => ?_) (fun row => ?_) fun hne => ?_
    · obtain hopen | herror := hfound
      · exact .inr (.inl (hread ▸ hopen))
      · exact .inr (.inr (by simp [State.opens, hread, herror, TaskAttempt.state]))
    · obtain hopen | herror := hfound
      · exact absurd (TaskRow.differs_of_completed hopen rfl) (by simpa using hsame)
      · simp [TaskRow.differs, herror, TaskAttempt.state] at hsame
    · exact ⟨rfl, .inr ⟨env, hkind⟩, rfl, hdispatches⟩
    · exact .inr ⟨(hfinds.resolve_left hne).1, (hfinds.resolve_left hne).wf, hdispatches⟩
  | fail msg =>
    exact absurd hkind (hfail msg)

theorem Ok.commands (h : s.Ok kind) (hstep : (s.txs t).step = .commands) : (s.commands t).Ok kind := by
  have htx := h.tx t
  simp only [AttemptTx.Ok, hstep] at htx
  obtain ⟨hown, -, hpassed, -⟩ := htx
  have hread : s.task.read t = (s.txs t).row := Cell.read_of_own hown
  have hfree : s.task.blocker t = none := Cell.free_of_own hown
  simp only [Attempts.commands]
  split
  · exact h.goTo (.inl hpassed)
  · simp only [hfree, Option.isSome_none, Bool.false_eq_true, if_false]
    have hby : (s.txs t).row.By t := (h.own t _ hown).2 hpassed
    rw [hread, TaskRow.pass_of_by hby]
    exact h.writeTask hfree ⟨TaskRow.once_of_same rfl rfl hby.once, fun _ => hby⟩ (.inl hpassed)

theorem Ok.failTask (h : s.Ok kind) {msg : String} (hstep : (s.txs t).step = .failTask msg)
    (hfinds : s.FindsOpen kind (.run t)) : (s.setState t .error msg .failWorkflow .failWorkflow).Ok kind := by
  have htx := h.tx t
  simp only [AttemptTx.Ok, hstep] at htx
  simp only [FindsOpen, hstep] at hfinds
  obtain ⟨hown, hwf, hdispatches⟩ := htx
  obtain ⟨hown, hpassed⟩ | hown := hown
  · exact h.setState_own hown hpassed fun row => ⟨.inl rfl, hwf, hdispatches⟩
  · simp only [hown, Option.isSome_none, Bool.false_eq_true, false_or] at hfinds
    refine h.setState (fun hread => ?_) (fun _ => ⟨.inr hown, .inl rfl, hwf, hdispatches⟩)
      (fun row => ⟨.inl rfl, hwf, hdispatches⟩) fun hne => ?_
    · rw [if_pos hread] at hfinds
      exact .inr (.inl (hread ▸ hfinds))
    · rw [if_neg hne] at hfinds
      exact ⟨.inr ⟨hown, hfinds⟩, hwf, hdispatches⟩

theorem Ok.failWorkflow (h : s.Ok kind) (hstep : (s.txs t).step = .failWorkflow) : (s.failWorkflow t).Ok kind := by
  have htx := h.tx t
  simp only [AttemptTx.Ok, hstep] at htx
  obtain ⟨hpassed, hwf, hdispatches⟩ := htx
  simp only [Attempts.failWorkflow]
  split
  · refine h.goTo ?_
    obtain hpassed | ⟨hown, -⟩ := hpassed
    · exact .inl hpassed
    · exact .inr ⟨hown, .inl hwf, hdispatches⟩
  next hgoes =>
    have hpassed : (s.txs t).passed := hpassed.resolve_right fun hlost => hgoes hlost.2
    split
    · exact h
    next hfree =>
      split
      · exact h.writeWorkflow (by simpa using hfree) id (.inl hpassed)
      · exact h.goTo (.inl hpassed)

theorem Ok.execute (h : s.Ok kind) (hfinds : s.FindsOpen kind (.run t)) : (s.execute kind t).Ok kind := by
  have htx := h.tx t
  cases hstep : (s.txs t).step with
  | setState => exact h.execute_setState hstep hfinds
  | load =>
    simp only [Attempts.execute, hstep]
    exact h.load hstep hfinds
  | loadWorkflow =>
    simp only [Attempts.execute, hstep]
    exact h.loadWorkflow hstep
  | updateEnv =>
    simp only [Attempts.execute, hstep]
    exact h.updateEnv hstep
  | runWorkflow =>
    simp only [Attempts.execute, hstep]
    exact h.runWorkflow hstep hfinds
  | cleanUp =>
    simp only [Attempts.execute, hstep]
    exact h.cleanUp hstep
  | pollBacklog =>
    simp only [Attempts.execute, hstep]
    exact h.pollBacklog hstep
  | runBacklog =>
    simp only [Attempts.execute, hstep]
    simp only [AttemptTx.Ok, hstep] at htx
    obtain ⟨hskip, hfound, hpassed, hdispatches⟩ := htx
    exact h.goTo ⟨hfound, .inr hskip.writesBefore, .inr hskip, hpassed, hdispatches, hskip.not_fail⟩
  | increaseCapacity =>
    simp only [Attempts.execute, hstep]
    exact h.increaseCapacity hstep
  | runTask =>
    simp only [Attempts.execute, hstep]
    simp only [AttemptTx.Ok, hstep] at htx
    obtain ⟨⟨-, hpassed⟩ | hown, hwf, hdispatches⟩ := htx
    · exact h.goTo (.inl hpassed)
    · exact h.goTo (.inr ⟨hown, .inl hwf, hdispatches⟩)
  | policies =>
    simp only [Attempts.execute, hstep]
    simp only [AttemptTx.Ok, hstep] at htx
    exact h.goTo htx
  | commands =>
    simp only [Attempts.execute, hstep]
    exact h.commands hstep
  | failTask msg =>
    simp only [Attempts.execute, hstep]
    exact h.failTask hstep hfinds
  | failWorkflow =>
    simp only [Attempts.execute, hstep]
    exact h.failWorkflow hstep
  | commit =>
    simp only [Attempts.execute, hstep]
    exact h.commit
  | ended =>
    simp only [Attempts.execute, hstep]
    exact h

theorem Ok.policy (h : s.Ok kind) {st : State} {info : Option String} : (s.policy kind t st info).Ok kind := by
  simp only [Attempts.policy]
  split
  next hkind =>
    split
    next hpolicy =>
      have htx := h.tx t
      simp only [AttemptTx.Ok, hpolicy.1] at htx
      obtain ⟨hown, hwf, hpassed, hdispatches⟩ := htx
      exact h.setState_own hown hpassed fun row => ⟨rfl, hwf, rfl, hdispatches⟩
    · exact h
  · exact h

theorem Ok.raise (h : s.Ok kind) {msg : String} : (s.raise kind t msg).Ok kind := by
  have htx := h.tx t
  have hnone {a : TaskAttempt} (hkind : kind t = a) (ha : ¬a.IsSkip) (hwf : s.wf.own t = none ∨ (kind t).IsSkip) :
      s.wf.own t = none := hwf.resolve_right (hkind ▸ ha)
  unfold Attempts.raise
  split
  next hkind hstep =>
    simp only [AttemptTx.Ok, hstep] at htx
    obtain ⟨hown, hwf, hpassed, hdispatches⟩ := htx
    exact h.goTo ⟨.inl ⟨hown, hpassed⟩, hnone hkind (by simp [TaskAttempt.IsSkip]) hwf, hdispatches⟩
  next hkind hstep =>
    simp only [AttemptTx.Ok, hstep] at htx
    obtain ⟨hown, hwf, hpassed, hdispatches⟩ := htx
    exact h.goTo ⟨.inl ⟨hown, hpassed⟩, hnone hkind (by simp [TaskAttempt.IsSkip]) hwf, hdispatches⟩
  next hkind hstep =>
    simp only [AttemptTx.Ok, hstep] at htx
    exact h.goTo htx
  · exact h

theorem Ok.next (h : s.Ok kind) {e : AttemptEvent τ} (hfinds : s.FindsOpen kind e) : (s.step kind e).Ok kind := by
  cases e with
  | run t => exact h.execute hfinds
  | restored => exact hfinds.elim
  | policy t st info => exact h.policy
  | raise t msg => exact h.raise
  | rollback t =>
    simp only [Attempts.step]
    split
    · exact h
    · exact h.rollback
  | workflow st =>
    simp only [Attempts.step]
    split
    next hst =>
      have hnone : ∀ t, s.wf.own t = none := fun t => by simp [Cell.own, hst.1]
      refine ⟨h.once, h.own, fun t => ?_⟩
      have htx := h.tx t
      rw [hnone t] at htx
      exact htx.committed
    · exact h

theorem ok_start {task : OpenState} {runtimeContext : DictColumn} {wf : WorkflowColumns} :
    (start task runtimeContext wf : Attempts τ).Ok kind where
  once := by simp [start, TaskRow.Once, task.2]
  own t row hrow := by simp [start, Cell.own] at hrow
  tx t := by simp [start, AttemptTx.Ok, Cell.own]

/-- One attempt has got through in the active period of the task if it is completed, and none if it is not. The others
    leave the task, the workflow and what is dispatched as they are. -/
structure Completed (kind : τ → TaskAttempt) (s : Attempts τ) : Prop where
  once : s.task.committed.Once
  others : ∀ t, (s.txs t).step = .commit → (s.txs t).passed = false →
    (s.execute kind t).task.committed = s.task.committed ∧ (s.execute kind t).wf.committed = s.wf.committed ∧
      (s.execute kind t).dispatched = s.dispatched

theorem Ok.completed (h : s.Ok kind) : s.Completed kind where
  once := h.once
  others t hstep hlost := by
    have htx := h.tx t
    simp only [AttemptTx.Ok, hstep] at htx
    obtain ⟨hown, hwf, hdispatches⟩ := htx.resolve_left (by simp [hlost])
    simp only [Attempts.execute, hstep, Attempts.commit, Cell.committed_commit, hdispatches, Bool.false_eq_true,
      if_false]
    refine ⟨Cell.read_of_own_none hown, ?_, trivial⟩
    obtain hnone | hsame := hwf
    · exact Cell.read_of_own_none hnone
    · exact Cell.read_of_own hsame

/-- In every run, the completion logic runs once in each active period. -/
def CompletesOnce (kind : τ → TaskAttempt) (guard : Attempts τ → AttemptEvent τ → Prop) : Prop :=
  ∀ s, (attemptSystem kind).Reach guard s → s.Completed kind

end Attempts

/-- An error, and two requests to skip the task. -/
def failedAndSkippedTwice (t : Fin 3) : TaskAttempt := if t = 0 then .complete ⟨.error, by decide⟩ "boom" else .skip

end Mistral
