import Mistral.Engine.WorkflowStarts

/-! Requests with one id start one workflow execution, whatever their order. -/

namespace Mistral.Starts
variable {τ α : Type} {s s' : Starts τ α} {t u : τ} {e : StartedExecution τ α} {r : StartRequest α} {p : StartPhase τ α}

/-! ### What holds of the starts -/

/-- What a start has done when it is in a phase. -/
def PhaseOk (s : Starts τ α) (u : τ) : StartPhase τ α → Prop
  | .created r => s.row = { committed := none, pending := some (u, some { creator := u, request := r }) } ∧ u ∉ s.creations
  | .returned e operations =>
    e.creator ∈ s.creations ∧ (s.deletions = 0 → s.row.committed = some e) ∧ (u ∈ s.creations → e.creator = u) ∧
      (operations = true → u ∈ s.creations ∧ u ∉ s.launched)
  | .duplicate _ => u ∉ s.creations ∧ (s.deletions = 0 → s.row.committed.isSome)
  | _ => u ∉ s.creations

/-- The invariant: the row that is there was created by one of the transactions, each created at most one, and what
    was created and not deleted is there. -/
structure Ok (s : Starts τ α) : Prop where
  phase : ∀ u, s.PhaseOk u (s.phase u)
  pending : ∀ u v, s.row.pending = some (u, v) → ∃ r, s.phase u = .created r
  committed : ∀ e, s.row.committed = some e → e.creator ∈ s.creations
  count : s.creations.length = s.deletions + if s.row.committed.isSome then 1 else 0
  creations : s.creations.Nodup
  launched : s.launched.Nodup
  launchedBy : s.launched ⊆ s.creations

/-- What others need of a state: nothing about them has changed. -/
structure Keeps (s s' : Starts τ α) (u : τ) : Prop where
  phase : s'.phase u = s.phase u
  created : ∀ r, s.phase u = .created r → s'.row = s.row
  creations : s.creations ⊆ s'.creations
  own : u ∈ s'.creations → u ∈ s.creations
  launched : u ∈ s'.launched → u ∈ s.launched
  committed : s'.deletions = 0 → s.deletions = 0 ∧ ∀ e, s.row.committed = some e → s'.row.committed = some e

theorem PhaseOk.keeps (h : s.PhaseOk u (s.phase u)) (hkeeps : Keeps s s' u) : s'.PhaseOk u (s'.phase u) := by
  rw [hkeeps.phase]
  cases hp : s.phase u with
  | created r =>
    rw [hp] at h
    exact ⟨(hkeeps.created r hp).trans h.1, fun hmem => h.2 (hkeeps.own hmem)⟩
  | returned e operations =>
    rw [hp] at h
    obtain ⟨hcreator, hcommitted, hown, hoperations⟩ := h
    refine ⟨hkeeps.creations hcreator, fun hzero => ?_, fun hmem => hown (hkeeps.own hmem), fun ho => ?_⟩
    · obtain ⟨hzero, hkept⟩ := hkeeps.committed hzero
      exact hkept e (hcommitted hzero)
    · exact ⟨hkeeps.creations (hoperations ho).1, fun hmem => (hoperations ho).2 (hkeeps.launched hmem)⟩
  | duplicate r =>
    rw [hp] at h
    refine ⟨fun hmem => h.1 (hkeeps.own hmem), fun hzero => ?_⟩
    obtain ⟨hzero, hkept⟩ := hkeeps.committed hzero
    obtain ⟨e, he⟩ := Option.isSome_iff_exists.mp (h.2 hzero)
    rw [hkept e he]
    rfl
  | idle | looking r | sent r | starting r | failed =>
    rw [hp] at h
    exact fun hmem => h (hkeeps.own hmem)

section

section
variable [DecidableEq τ]

@[simp] theorem phase_goTo : (s.goTo t p).phase u = if u = t then p else s.phase u := by
  simp [goTo, Function.update_apply]

@[simp] theorem row_goTo : (s.goTo t p).row = s.row := rfl

@[simp] theorem creations_goTo : (s.goTo t p).creations = s.creations := rfl

@[simp] theorem launched_goTo : (s.goTo t p).launched = s.launched := rfl

@[simp] theorem deletions_goTo : (s.goTo t p).deletions = s.deletions := rfl

/-- A start goes on without writing anything. -/
theorem Ok.goTo (h : s.Ok) (hp : s.PhaseOk t p) (hcreated : ∀ r, s.phase t ≠ .created r) : (s.goTo t p).Ok where
  phase u := by
    by_cases hu : u = t
    · subst hu
      simpa [PhaseOk] using hp
    · refine (h.phase u).keeps ?_
      exact { phase := by simp [hu], created := fun _ _ => rfl, creations := List.Subset.refl _, own := id, launched := id,
              committed := fun hzero => ⟨hzero, fun _ => id⟩ }
  pending u v hv := by
    obtain ⟨r, hr⟩ := h.pending u v hv
    have hu : u ≠ t := fun heq => hcreated r (heq ▸ hr)
    exact ⟨r, by simp [hu, hr]⟩
  committed := h.committed
  count := h.count
  creations := h.creations
  launched := h.launched
  launchedBy := h.launchedBy

end

/-! ### Steps -/

/-- Only a start that has inserted its row has a write that is not committed. -/
theorem Ok.not_pending (h : s.Ok) (hcreated : ∀ r, s.phase t ≠ .created r) : s.row.pending.map Prod.fst ≠ some t := by
  intro hp
  obtain ⟨⟨u, v⟩, hpending, hu⟩ := Option.map_eq_some_iff.mp hp
  obtain ⟨r, hr⟩ := h.pending u v hpending
  exact hcreated r (hu ▸ hr)

/-- The row is inserted by one start at a time. -/
theorem Ok.inserted_unique (h : s.Ok) {r' : StartRequest α} (hu : s.phase u = .created r') (ht : s.phase t = .created r) :
    u = t := by
  have hphaseu := h.phase u
  have hphaset := h.phase t
  rw [hu] at hphaseu
  rw [ht] at hphaset
  have hrow := hphaseu.1.symm.trans hphaset.1
  simp only [Cell.mk.injEq, Option.some.injEq, Prod.mk.injEq] at hrow
  exact hrow.2.1

theorem Ok.delete (h : s.Ok) : s.delete.Ok := by
  unfold Starts.delete
  split
  next hrow =>
    simp only [Bool.and_eq_true, Option.isNone_iff_eq_none] at hrow
    refine { phase := fun u => (h.phase u).keeps ?_, pending := fun u v hv => (by cases hv)
             committed := fun e he => (by cases he), count := ?_, creations := h.creations, launched := h.launched
             launchedBy := h.launchedBy }
    · refine { phase := rfl, created := fun r hr => ?_, creations := List.Subset.refl _, own := id, launched := id
               committed := fun hzero => by cases hzero }
      have hother := h.phase u
      rw [hr] at hother
      rw [hother.1] at hrow
      cases hrow.1
    · have hcount := h.count
      rw [if_pos hrow.2] at hcount
      exact hcount
  · exact h

section
variable [DecidableEq τ]

theorem Ok.read (h : s.Ok) (hcreated : ∀ r, s.phase t ≠ .created r) : s.row.read t = s.row.committed := by
  cases hp : s.row.pending with
  | none => exact Cell.read_of_none hp
  | some w =>
    obtain ⟨u, v⟩ := w
    exact Cell.read_of_ne hp fun hu => h.not_pending hcreated (by simp [hp, hu])

theorem Ok.load (h : s.Ok) (hcreated : ∀ r, s.phase t ≠ .created r) (hload : s.load t r = some e) :
    s.row.committed = some e ∧ e.request.project = r.project := by
  rw [Starts.load, h.read hcreated, Option.filter_eq_some_iff, beq_iff_eq] at hload
  exact hload

/-- A start that finds the execution returns it. -/
theorem Ok.returns (h : s.Ok) (hcreated : ∀ r, s.phase t ≠ .created r) (hnew : t ∉ s.creations)
    (hload : s.load t r = some e) : (s.goTo t (.returned e false)).Ok := by
  obtain ⟨hcommitted, -⟩ := h.load hcreated hload
  refine h.goTo ⟨h.committed e hcommitted, fun _ => hcommitted, fun hmem => absurd hmem hnew, fun ho => ?_⟩ hcreated
  cases ho

theorem Ok.begin (h : s.Ok) (hp : t ∉ s.creations → s.PhaseOk t p) : (s.begin t p).Ok := by
  unfold Starts.begin
  split
  next hphase =>
    have hnew := h.phase t
    rw [hphase] at hnew
    exact h.goTo (hp hnew) (by simp [hphase])
  · exact h

theorem Ok.create (h : s.Ok) (hphase : s.phase t = .starting r) : (s.create t r).Ok := by
  have hcreated : ∀ r', s.phase t ≠ .created r' := by simp [hphase]
  have hnew : t ∉ s.creations := by
    have := h.phase t
    rwa [hphase] at this
  unfold Starts.create
  split
  · exact h
  next hfree =>
    split
    next hread => exact h.goTo ⟨hnew, fun _ => by rwa [← h.read hcreated]⟩ hcreated
    next hread =>
      have hpending : s.row.pending = none := by
        cases hp : s.row.pending with
        | none => rfl
        | some w =>
          have hw : w.1 = t := by simpa [Cell.blocker, hp] using hfree
          exact absurd (by simp [hp, hw]) (h.not_pending hcreated)
      have hcommitted : s.row.committed = none := by simpa [h.read hcreated] using hread
      have hrow : s.row.write t (some { creator := t, request := r }) =
          { committed := none, pending := some (t, some { creator := t, request := r }) } := by
        rw [Cell.write, hcommitted]
      refine { phase := fun u => ?_, pending := fun u v hv => ?_, committed := fun e he => ?_, count := ?_,
               creations := h.creations, launched := h.launched, launchedBy := h.launchedBy }
      · by_cases hu : u = t
        · subst hu
          simpa [PhaseOk, hrow] using hnew
        · refine (h.phase u).keeps ?_
          refine { phase := by simp [hu], created := fun r' hr' => ?_, creations := List.Subset.refl _, own := id,
                   launched := id, committed := fun hzero => ⟨hzero, fun e he => ?_⟩ }
          · have hother := h.phase u
            rw [hr'] at hother
            rw [hother.1] at hpending
            cases hpending
          · rw [hcommitted] at he
            cases he
      · have hut : t = u := by
          rw [hrow] at hv
          simp only [Option.some.injEq, Prod.mk.injEq] at hv
          exact hv.1
        exact ⟨r, by simp [hut]⟩
      · rw [hrow] at he
        cases he
      · have hcount := h.count
        rw [hcommitted] at hcount
        rw [hrow]
        exact hcount

theorem Ok.commit (h : s.Ok) (hphase : s.phase t = .created r) : (s.commit t r).Ok := by
  obtain ⟨hrow, hnew⟩ : s.row = { committed := none, pending := some (t, some { creator := t, request := r }) } ∧
      t ∉ s.creations := by
    have := h.phase t
    rwa [hphase] at this
  have hcommit : s.row.commit t = { committed := some { creator := t, request := r } } := by
    rw [Cell.commit_of_pending (by rw [hrow])]
  have hlaunched : t ∉ s.launched := fun hmem => hnew (h.launchedBy hmem)
  refine { phase := fun u => ?_, pending := fun u v hv => ?_, committed := fun e he => ?_, count := ?_
           creations := List.nodup_cons.mpr ⟨hnew, h.creations⟩, launched := h.launched
           launchedBy := fun u hu => List.mem_cons_of_mem _ (h.launchedBy hu) }
  · by_cases hu : u = t
    · subst hu
      have : (s.commit u r).PhaseOk u (.returned { creator := u, request := r } true) :=
        ⟨List.mem_cons_self, fun _ => congrArg Cell.committed hcommit, fun _ => rfl, fun _ => ⟨List.mem_cons_self, hlaunched⟩⟩
      simpa [Starts.commit] using this
    · refine (h.phase u).keeps ?_
      refine { phase := by simp [Starts.commit, hu], created := fun r' hr' => ?_
               creations := List.subset_cons_self _ _, own := fun hmem => ?_, launched := id
               committed := fun hzero => ⟨hzero, fun e he => ?_⟩ }
      · exact absurd (h.inserted_unique hr' hphase) hu
      · rcases List.mem_cons.mp hmem with heq | hmem
        · exact absurd heq hu
        · exact hmem
      · rw [hrow] at he
        cases he
  · have hv : (s.row.commit t).pending = some (u, v) := hv
    rw [hcommit] at hv
    cases hv
  · have he : (s.row.commit t).committed = some e := he
    rw [hcommit, Option.some.injEq] at he
    exact he ▸ List.mem_cons_self
  · have hcount := h.count
    rw [hrow] at hcount
    show (t :: s.creations).length = s.deletions + if (s.row.commit t).committed.isSome then 1 else 0
    rw [hcommit]
    simpa using hcount

theorem Ok.execute (h : s.Ok) : (s.execute t).Ok := by
  have hphase := h.phase t
  unfold Starts.execute
  split
  next r hp =>
    rw [hp] at hphase
    split
    next e hload => exact h.returns (by simp [hp]) hphase hload
    · exact h.goTo hphase (by simp [hp])
  next r hp =>
    rw [hp] at hphase
    exact h.goTo hphase (by simp [hp])
  next r hp => exact h.create hp
  next r hp => exact h.commit hp
  next r hp =>
    rw [hp] at hphase
    split
    next e hload => exact h.returns (by simp [hp]) hphase.1 hload
    · exact h.goTo hphase.1 (by simp [hp])
  · exact h

theorem Ok.launch (h : s.Ok) : (s.launch t).Ok := by
  unfold Starts.launch
  split
  next e hp =>
    have hphase := h.phase t
    rw [hp] at hphase
    obtain ⟨hcreator, hcommitted, hown, hoperations⟩ := hphase
    obtain ⟨hmem, hnew⟩ := hoperations rfl
    refine { phase := fun u => ?_, pending := fun u v hv => ?_, committed := h.committed, count := h.count
             creations := h.creations, launched := List.nodup_cons.mpr ⟨hnew, h.launched⟩
             launchedBy := List.cons_subset.mpr ⟨hmem, h.launchedBy⟩ }
    · by_cases hu : u = t
      · subst hu
        simp only [phase_goTo, if_true]
        exact ⟨hcreator, hcommitted, hown, fun ho => (by cases ho)⟩
      · refine (h.phase u).keeps ?_
        refine { phase := by simp [hu], created := fun _ _ => rfl, creations := List.Subset.refl _, own := id
                 launched := fun hmem => ?_, committed := fun hzero => ⟨hzero, fun _ => id⟩ }
        rcases List.mem_cons.mp hmem with heq | hmem
        · exact absurd heq hu
        · exact hmem
    · obtain ⟨r, hr⟩ := h.pending u v hv
      have hu : u ≠ t := fun heq => by
        rw [heq, hp] at hr
        cases hr
      exact ⟨r, by simp [hu, hr]⟩
  · exact h

/-- A start whose transaction is rolled back. -/
theorem Ok.rollback (h : s.Ok) (hnew : t ∉ s.creations) (hp : ∀ s' : Starts τ α, t ∉ s'.creations → s'.PhaseOk t p) :
    ({ s.goTo t p with row := s.row.rollback t } : Starts τ α).Ok := by
  by_cases hcreated : ∃ r, s.phase t = .created r
  · obtain ⟨r, hr⟩ := hcreated
    obtain ⟨hrow, -⟩ : s.row = { committed := none, pending := some (t, some { creator := t, request := r }) } ∧
        t ∉ s.creations := by
      have := h.phase t
      rwa [hr] at this
    have hback : s.row.rollback t = { committed := none } := by
      rw [hrow]
      simp [Cell.rollback]
    rw [hback]
    refine { phase := fun u => ?_, pending := fun u v hv => (by cases hv), committed := fun e he => (by cases he), count := ?_
             creations := h.creations, launched := h.launched, launchedBy := h.launchedBy }
    · by_cases hu : u = t
      · subst hu
        simp only [phase_goTo, if_true]
        exact hp _ hnew
      · refine (h.phase u).keeps ?_
        refine { phase := by simp [hu], created := fun r' hr' => ?_, creations := List.Subset.refl _, own := id
                 launched := id, committed := fun hzero => ⟨hzero, fun e he => ?_⟩ }
        · exact absurd (h.inserted_unique hr' hr) hu
        · rw [hrow] at he
          cases he
    · have hcount := h.count
      rw [hrow] at hcount
      exact hcount
  · have hne : ∀ r, s.phase t ≠ .created r := fun r hr => hcreated ⟨r, hr⟩
    rw [Cell.rollback_of_ne (h.not_pending hne)]
    exact h.goTo (hp s hnew) hne

theorem Ok.retry (h : s.Ok) : (s.retry t).Ok := by
  have hphase := h.phase t
  unfold Starts.retry
  split
  next r hp =>
    rw [hp] at hphase
    exact h.rollback hphase fun _ hnew => hnew
  next r hp =>
    rw [hp] at hphase
    exact h.rollback hphase.2 fun _ hnew => hnew
  next r hp =>
    rw [hp] at hphase
    exact h.rollback hphase.1 fun _ hnew => hnew
  · exact h

theorem Ok.fail (h : s.Ok) : (s.fail t).Ok := by
  have hphase := h.phase t
  cases hp : s.phase t with
  | idle | failed =>
    simp only [Starts.fail, hp]
    exact h
  | returned e operations =>
    simp only [Starts.fail, hp]
    rw [hp] at hphase
    obtain ⟨hcreator, hcommitted, hown, -⟩ := hphase
    exact h.goTo ⟨hcreator, hcommitted, hown, fun ho => (by cases ho)⟩ (by simp [hp])
  | created r =>
    simp only [Starts.fail, hp]
    rw [hp] at hphase
    exact h.rollback hphase.2 fun _ hnew => hnew
  | duplicate r =>
    simp only [Starts.fail, hp]
    rw [hp] at hphase
    exact h.rollback hphase.1 fun _ hnew => hnew
  | looking r | sent r | starting r =>
    simp only [Starts.fail, hp]
    rw [hp] at hphase
    exact h.rollback hphase fun _ hnew => hnew

theorem Ok.step (h : s.Ok) (ev : StartEvent τ α) : (s.step ev).Ok := by
  cases ev with
  | post t r => exact h.begin fun hnew => hnew
  | deliver t r => exact h.begin fun hnew => hnew
  | run t => exact h.execute
  | launch t => exact h.launch
  | retry t => exact h.retry
  | fail t => exact h.fail
  | delete => exact h.delete

end

theorem ok_start : Ok ({} : Starts τ α) where
  phase u hmem := by cases hmem
  pending u v hv := by cases hv
  committed e he := by cases he
  count := rfl
  creations := List.nodup_nil
  launched := List.nodup_nil
  launchedBy := List.nil_subset _

/-! ### Runs -/

/-- The executions that starts have created follow one another, each after the deletion of the one before; a start returns
    one of them, and only the start that has created it dispatches its first tasks, once at most. -/
structure OneAtATime (s : Starts τ α) : Prop where
  count : s.creations.length = s.deletions + if s.row.committed.isSome then 1 else 0
  creations : s.creations.Nodup
  launched : s.launched.Nodup
  launchedBy : s.launched ⊆ s.creations
  returned : ∀ u e operations, s.phase u = .returned e operations → e.creator ∈ s.creations ∧ (u ∈ s.creations → e.creator = u)
  pending : ∀ u e, s.phase u = .returned e true → u ∈ s.creations ∧ u ∉ s.launched

theorem Ok.oneAtATime (h : s.Ok) : s.OneAtATime where
  count := h.count
  creations := h.creations
  launched := h.launched
  launchedBy := h.launchedBy
  returned u e operations hp := by
    have hphase := h.phase u
    rw [hp] at hphase
    exact ⟨hphase.1, hphase.2.2.1⟩
  pending u e hp := by
    have hphase := h.phase u
    rw [hp] at hphase
    exact hphase.2.2.2 rfl

section
variable [DecidableEq τ]

/-- While the execution is not deleted, every start that returns has returned it, and one that finds the id taken returns it
    next if it is of the same project. -/
structure OneAnswer (s : Starts τ α) : Prop where
  returned : ∀ u e operations, s.phase u = .returned e operations → s.row.committed = some e
  duplicate : ∀ u r, s.phase u = .duplicate r → ∃ e, s.row.committed = some e ∧
    (e.request.project = r.project → (s.execute u).phase u = .returned e false)

theorem Ok.oneAnswer (h : s.Ok) (hzero : s.deletions = 0) : s.OneAnswer where
  returned u e operations hp := by
    have hphase := h.phase u
    rw [hp] at hphase
    exact hphase.2.1 hzero
  duplicate u r hp := by
    have hphase := h.phase u
    rw [hp] at hphase
    obtain ⟨e, he⟩ := Option.isSome_iff_exists.mp (hphase.2 hzero)
    refine ⟨e, he, fun hproject => ?_⟩
    have hload : s.load u r = some e := by
      rw [Starts.load, h.read (by simp [hp]), he]
      simp [hproject]
    simp [Starts.execute, hp, hload]

end
end
end Mistral.Starts

namespace Mistral

/-- Whatever requests, deliveries, retries, failures and deletions there are for one id, in every order of their statements:
    the executions of the id follow one another, and requests between two deletions are answered with the same one. -/
theorem starts_of_one_id {τ α : Type} [DecidableEq τ] (s : Starts τ α)
    (h : (startSystem τ α).Reach (fun _ _ => True) s) : s.OneAtATime ∧ (s.deletions = 0 → s.OneAnswer) := by
  have hok : s.Ok := h.invariant (fun _ hinit => hinit ▸ Starts.ok_start) fun _ ev _ hok _ => hok.step ev
  exact ⟨hok.oneAtATime, hok.oneAnswer⟩

def firstRequest : StartRequest Nat := { project := "p", content := 1 }

def secondRequest : StartRequest Nat := { project := "p", content := 2 }

/-- Two requests at the same time. Neither of them finds the execution at first. -/
def racingStarts : List (StartEvent Nat Nat) :=
  [.post 0 firstRequest, .post 1 secondRequest, .run 0, .run 1, .run 0, .run 1, .run 0, .run 1, .run 0, .run 1, .run 1,
    .launch 0]

/-- The second start waits for the first one, and returns its execution. -/
theorem second_start_returns_first :
    ((startSystem Nat Nat).run {} racingStarts).phase 1 = .returned { creator := 0, request := firstRequest } false ∧
      ((startSystem Nat Nat).run {} racingStarts).OneAtATime ∧ ((startSystem Nat Nat).run {} racingStarts).OneAnswer := by
  have hreach : (startSystem Nat Nat).Reach (fun _ _ => True) ((startSystem Nat Nat).run {} racingStarts) :=
    .run (.init rfl) (by simp [racingStarts, System.Guarded])
  obtain ⟨hone, hanswer⟩ := starts_of_one_id _ hreach
  exact ⟨by decide, hone, hanswer (by decide)⟩

end Mistral
