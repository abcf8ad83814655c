import Mistral.Scheduler.LegacyScheduler

/-! A delayed call is invoked once at most, whatever number of legacy schedulers there is and whenever they fail. -/

namespace Mistral

/-! ### The life of one call -/

/-- Where a worker has a call. -/
inductive CallPlace
  | marked
  | held
  | done
  deriving DecidableEq, Repr

/-- The calls that a worker may still invoke. -/
def CallWorker.calls {ι : Type} : CallWorker ι → List ι
  | .capturing candidates result => candidates ++ result
  | .preparing dbCalls => dbCalls
  | .invoking _ delayedCalls => delayedCalls
  | _ => []

def CallWorker.at {ι : Type} : CallWorker ι → CallPlace → List ι
  | .capturing _ result, .marked => result
  | .preparing dbCalls, .held => dbCalls
  | .invoking _ delayedCalls, .held => delayedCalls
  | .invoking invoked _, .done => invoked
  | .deleting dbCalls, .done => dbCalls
  | _, _ => []

/-- The life of a call. A call that is stuck is marked in its row, but no worker has it any more. -/
inductive Life (τ : Type)
  | unborn
  | scheduled (t : τ)
  | dropped
  | waiting
  | marked (t : τ)
  | held (t : τ)
  | invoked (t : τ) (clock : Nat)
  | stuck (invoked : Option (τ × Nat))
  | deleted (t : τ) (clock : Nat)
  deriving DecidableEq, Repr

namespace Life
variable {τ : Type}

/-- The row of the call, if it is for the time `e`. -/
def cell (e : Nat) : Life τ → Cell τ (Option CallRow)
  | unborn | dropped | deleted _ _ => { committed := none }
  | scheduled t => { committed := none, pending := some (t, some { executionTime := e }) }
  | waiting => { committed := some { executionTime := e } }
  | marked t =>
    { committed := some { executionTime := e }, pending := some (t, some { executionTime := e, processing := true }) }
  | held _ | invoked _ _ | stuck _ => { committed := some { executionTime := e, processing := true } }

def log (e : Nat) : Life τ → CallLog τ
  | unborn => {}
  | scheduled _ | dropped => { created := some e }
  | waiting | marked _ | held _ => { created := some e, stored := true }
  | invoked t clock => { created := some e, stored := true, invoked := [(t, clock)] }
  | stuck by' => { created := some e, stored := true, invoked := by'.toList }
  | deleted t clock => { created := some e, stored := true, invoked := [(t, clock)], deleted := some t }

/-- The worker that has the call, and where. -/
def place : Life τ → Option (τ × CallPlace)
  | marked t => some (t, .marked)
  | held t => some (t, .held)
  | invoked t _ => some (t, .done)
  | _ => none

def isStuck : Life τ → Bool
  | stuck _ => true
  | _ => false

end Life

namespace CallStore
variable {τ ι : Type} {conf : SchedulerConf} {s s' : CallStore τ ι} {t u : τ} {j : ι} {l l' : Life τ} {e e' : Nat}

/-- A call is somewhere in its life: its row and its log say so, and so does what the workers have. -/
structure Fits (s : CallStore τ ι) (j : ι) (l : Life τ) (e : Nat) : Prop where
  cell : s.rows j = l.cell e
  log : s.log j = l.log e
  place : ∀ u p, j ∈ (s.workers u).at p ↔ l.place = some (u, p)
  scheduling : ∀ u, l = .scheduled u → s.workers u = .scheduling

/-- The invariant: every call is in one stage of its life, and no worker has it twice. -/
structure Ok (s : CallStore τ ι) : Prop where
  fits : ∀ j, ∃ l e, s.Fits j l e
  nodup : ∀ u p, ((s.workers u).at p).Nodup

/-! ### Steps -/

/-- A step of `t` leaves a call as it is that `t` does not have before and after. -/
theorem Fits.keep (h : s.Fits j l e) (hrow : s'.rows j = s.rows j) (hlog : s'.log j = s.log j)
    (hothers : ∀ u, u ≠ t → s'.workers u = s.workers u) (hplace : ∀ p, j ∈ (s'.workers t).at p ↔ j ∈ (s.workers t).at p)
    (hscheduling : l = .scheduled t → s'.workers t = .scheduling) : s'.Fits j l e where
  cell := hrow.trans h.cell
  log := hlog.trans h.log
  place u p := by
    by_cases hu : u = t
    · subst hu
      rw [hplace, h.place]
    · rw [hothers u hu, h.place]
  scheduling u hl := by
    by_cases hu : u = t
    · subst hu
      exact hscheduling hl
    · rw [hothers u hu]
      exact h.scheduling u hl

/-- A step of `t` that takes a call further. -/
theorem Fits.move (h : s.Fits j l e) (hrow : s'.rows j = l'.cell e') (hlog : s'.log j = l'.log e')
    (hothers : ∀ u, u ≠ t → s'.workers u = s.workers u) (hl : ∀ u p, u ≠ t → l.place ≠ some (u, p))
    (hl' : ∀ u p, u ≠ t → l'.place ≠ some (u, p)) (hplace : ∀ p, j ∈ (s'.workers t).at p ↔ l'.place = some (t, p))
    (hscheduling : ∀ u, l' = .scheduled u → s'.workers u = .scheduling) : s'.Fits j l' e' where
  cell := hrow
  log := hlog
  place u p := by
    by_cases hu : u = t
    · subst hu
      exact hplace p
    · rw [hothers u hu, h.place]
      exact iff_of_false (hl u p hu) (hl' u p hu)
  scheduling := hscheduling

theorem place_marked : l.place = some (t, .marked) ↔ l = .marked t := by
  cases l <;> simp [Life.place]

theorem place_held : l.place = some (t, .held) ↔ l = .held t := by
  cases l <;> simp [Life.place]

theorem place_done : l.place = some (t, .done) ↔ ∃ clock, l = .invoked t clock := by
  cases l <;> simp [Life.place]

theorem place_of_ne {p : CallPlace} (h : l.place = some (t, p)) (hu : u ≠ t) (q : CallPlace) : l.place ≠ some (u, q) := by
  rw [h]
  intro heq
  simp only [Option.some.injEq, Prod.mk.injEq] at heq
  exact hu heq.1.symm

/-- Every call is somewhere in its life after the step too, and the step has left no call stuck. -/
def Carries (s s' : CallStore τ ι) : Prop :=
  ∀ j l e, s.Fits j l e → ∃ l' e', s'.Fits j l' e' ∧ (l'.isStuck → l.isStuck)

theorem nodup_of_others (hok : s.Ok) (hothers : ∀ u, u ≠ t → s'.workers u = s.workers u)
    (ht : ∀ p, ((s'.workers t).at p).Nodup) (u : τ) (p : CallPlace) : ((s'.workers u).at p).Nodup := by
  by_cases hu : u = t
  · subst hu
    exact ht p
  · rw [hothers u hu]
    exact hok.nodup u p

/-- A worker has a call in one place only. -/
theorem Ok.place_unique (hok : s.Ok) {p q : CallPlace} (hp : j ∈ (s.workers t).at p) (hq : j ∈ (s.workers t).at q) : p = q := by
  obtain ⟨l, e, h⟩ := hok.fits j
  have heq := ((h.place t p).mp hp).symm.trans ((h.place t q).mp hq)
  simpa using heq

section
variable [DecidableEq τ] {w : CallWorker ι}

@[simp] theorem workers_setWorker : (s.setWorker t w).workers u = if u = t then w else s.workers u := by
  simp [setWorker, Function.update_apply]

@[simp] theorem rows_setWorker : (s.setWorker t w).rows = s.rows := rfl

@[simp] theorem log_setWorker : (s.setWorker t w).log = s.log := rfl

/-- A worker goes on with the calls that it has. -/
theorem carries_setWorker (hw : s.workers t ≠ .scheduling) (hplace : ∀ p, w.at p = (s.workers t).at p) :
    s.Carries (s.setWorker t w) := by
  intro j l e h
  refine ⟨l, e, h.keep (t := t) rfl rfl (fun u hu => by simp [hu]) (fun p => by simp [hplace]) ?_, id⟩
  exact fun hl => absurd (h.scheduling t hl) hw

theorem carries_commitScheduled (hw : s.workers t = .scheduling) : s.Carries (s.commitScheduled t) := by
  intro j l e h
  have hplace : ∀ p, l.place ≠ some (t, p) := fun p hp => by
    have := (h.place t p).mpr hp
    rw [hw] at this
    cases p <;> cases this
  by_cases hl : l = .scheduled t
  · subst hl
    refine ⟨.waiting, e, h.move (t := t) ?_ ?_ (fun u hu => by simp [commitScheduled, hu]) (by simp [Life.place])
      (by simp [Life.place]) (fun p => ?_) (by simp), by simp [Life.isStuck]⟩
    · simp [commitScheduled, h.cell, Life.cell, Cell.commit, Cell.read]
    · simp [commitScheduled, h.cell, h.log, Life.cell, Life.log, Cell.own]
    · cases p <;> simp [commitScheduled, CallWorker.at, Life.place]
  · have hown : (s.rows j).own t = none := by
      rw [h.cell]
      cases l <;> simp_all [Life.cell, Cell.own, Life.place]
    have hpending : (s.rows j).pending.map Prod.fst ≠ some t := by
      rw [h.cell]
      cases l <;> simp_all [Life.cell, Life.place]
    refine ⟨l, e, h.keep (t := t) ?_ ?_ (fun u hu => by simp [commitScheduled, hu]) (fun p => ?_) fun h => absurd h hl, id⟩
    · simp [commitScheduled, Cell.commit_of_ne hpending]
    · simp [commitScheduled, hown]
    · cases p <;> simp [commitScheduled, CallWorker.at, hw]

theorem carries_commitCaptures {result : List ι} (hw : s.workers t = .capturing [] result) :
    s.Carries (s.commitCaptures t result) := by
  intro j l e h
  have hat : ∀ p, ((s.commitCaptures t result).workers t).at p = match p with | .held => result | _ => [] := by
    intro p
    cases p <;> cases result <;> simp [commitCaptures, CallWorker.at]
  have hothers : ∀ u, u ≠ t → (s.commitCaptures t result).workers u = s.workers u := fun u hu => by
    simp [commitCaptures, hu]
  by_cases hj : j ∈ result
  · have hl : l.place = some (t, .marked) := (h.place t .marked).mp (by rw [hw]; exact hj)
    obtain rfl := place_marked.mp hl
    refine ⟨.held t, e, h.move (t := t) ?_ ?_ hothers (fun u p hu => place_of_ne hl hu p)
      (fun u p hu => place_of_ne (place_held.mpr rfl) hu p) (fun p => ?_) (by simp), by simp [Life.isStuck]⟩
    · simp [commitCaptures, h.cell, Life.cell, Cell.commit, Cell.read]
    · simp [commitCaptures, h.log, Life.log]
    · rw [hat]
      cases p <;> simp [Life.place, hj]
  · have hne : ∀ p, l.place ≠ some (t, p) := fun p hp => by
      have := (h.place t p).mpr hp
      rw [hw] at this
      cases p <;> simp [CallWorker.at, hj] at this
    have hpending : (s.rows j).pending.map Prod.fst ≠ some t := by
      rw [h.cell]
      cases l <;> simp_all [Life.cell, Life.place]
      rintro rfl
      exact absurd (h.scheduling _ rfl) (by simp [hw])
    refine ⟨l, e, h.keep (t := t) ?_ rfl hothers (fun p => ?_) fun hl => ?_, id⟩
    · simp [commitCaptures, Cell.commit_of_ne hpending]
    · rw [hat, hw]
      cases p <;> simp [CallWorker.at, hj]
    · exact absurd (h.scheduling t hl) (by simp [hw])

/-- An update that counts the row finds the call waiting. -/
theorem waiting_of_capture (h : s.Fits j l e) (hfree : (s.rows j).blocker t = none) {row : CallRow}
    (hread : (s.rows j).read t = some row) (hrow : row.processing = false) (hw : s.workers t ≠ .scheduling) :
    l = .waiting ∧ row = { executionTime := e } := by
  have hcell := h.cell
  rw [hcell] at hfree hread
  cases l with
  | waiting => exact ⟨rfl, by simpa [Life.cell, Cell.read, eq_comm] using hread⟩
  | scheduled u =>
    by_cases hu : u = t
    · subst hu
      exact absurd (h.scheduling u rfl) hw
    · simp [Life.cell, Cell.read, hu] at hread
  | marked u =>
    have hu : u = t := by simpa [Life.cell, Cell.blocker] using hfree
    simp only [Life.cell, Cell.read, hu, if_true, Option.some.injEq] at hread
    subst hread
    cases hrow
  | held u | invoked u clock | stuck by' =>
    simp only [Life.cell, Cell.read, Option.some.injEq] at hread
    subst hread
    cases hrow
  | unborn | dropped | deleted u clock => simp [Life.cell, Cell.read] at hread

/-- What a worker has captured gets stuck when it fails. -/
theorem fits_fail (h : s.Fits j l e) :
    ∃ l' e', (s.fail t).Fits j l' e' ∧ (l'.isStuck → l.isStuck ∨ ∃ p, p ≠ .marked ∧ j ∈ (s.workers t).at p) := by
  have hat : ∀ p, ((s.fail t).workers t).at p = [] := fun p => by simp [fail, CallWorker.at]
  have hothers : ∀ u, u ≠ t → (s.fail t).workers u = s.workers u := fun u hu => by simp [fail, hu]
  have hrow : (s.fail t).rows j = (l.cell e).rollback t := by rw [← h.cell]; rfl
  have hlog : (s.fail t).log j = l.log e := h.log
  by_cases hl : l = .scheduled t
  · subst hl
    refine ⟨.dropped, e, h.move (t := t) ?_ hlog hothers (by simp [Life.place]) (by simp [Life.place]) (fun p => ?_)
      (by simp), by simp [Life.isStuck]⟩
    · simp [hrow, Life.cell, Cell.rollback]
    · rw [hat]
      simp [Life.place]
  by_cases hplace : ∃ p, l.place = some (t, p)
  · obtain ⟨p, hp⟩ := hplace
    have hne : ∀ u q, u ≠ t → l.place ≠ some (u, q) := fun u q hu => place_of_ne hp hu q
    cases p with
    | marked =>
      obtain rfl := place_marked.mp hp
      refine ⟨.waiting, e, h.move (t := t) ?_ hlog hothers hne (by simp [Life.place]) (fun q => ?_) (by simp),
        by simp [Life.isStuck]⟩
      · simp [hrow, Life.cell, Cell.rollback]
      · rw [hat]
        simp [Life.place]
    | held =>
      obtain rfl := place_held.mp hp
      refine ⟨.stuck none, e, h.move (t := t) ?_ hlog hothers hne (by simp [Life.place]) (fun q => ?_) (by simp),
        fun _ => .inr ⟨.held, by simp, (h.place t .held).mpr hp⟩⟩
      · simp [hrow, Life.cell, Cell.rollback]
      · rw [hat]
        simp [Life.place]
    | done =>
      obtain ⟨clock, rfl⟩ := place_done.mp hp
      refine ⟨.stuck (some (t, clock)), e, h.move (t := t) ?_ hlog hothers hne (by simp [Life.place]) (fun q => ?_)
        (by simp), fun _ => .inr ⟨.done, by simp, (h.place t .done).mpr hp⟩⟩
      · simp [hrow, Life.cell, Cell.rollback]
      · rw [hat]
        simp [Life.place]
  · have hpending : (l.cell e).pending.map Prod.fst ≠ some t := by
      cases l <;> simp_all [Life.cell, Life.place]
    refine ⟨l, e, h.keep (t := t) ?_ rfl hothers (fun p => ?_) fun h => absurd h hl, fun h => .inl h⟩
    · rw [hrow, Cell.rollback_of_ne hpending, h.cell]
    · rw [hat, h.place]
      exact iff_of_false (by simp) fun hp => hplace ⟨p, hp⟩

variable [DecidableEq ι] {j' : ι}

theorem carries_schedule {n : Nat} : s.Carries (s.schedule conf t j' n) := by
  unfold schedule
  split
  next hnew =>
    obtain ⟨hidle, hcreated⟩ := hnew
    have hempty : ∀ p, (s.workers t).at p = [] := fun p => by
      rcases hidle with hidle | hidle <;> rw [hidle] <;> cases p <;> rfl
    intro j l e h
    by_cases hj : j = j'
    · subst hj
      have hl : l = .unborn := by
        rw [h.log] at hcreated
        cases l <;> simp [Life.log] at hcreated
        rfl
      subst hl
      refine ⟨.scheduled t, s.now conf + n, h.move (t := t) ?_ ?_ (fun u hu => by simp [setRow, setLog, hu])
        (by simp [Life.place]) (by simp [Life.place]) (fun p => ?_) ?_, by simp [Life.isStuck]⟩
      · simp [setRow, setLog, h.cell, Life.cell, Cell.write]
      · simp [setRow, setLog, h.log, Life.log]
      · cases p <;> simp [CallWorker.at, Life.place]
      · intro u hu
        cases hu
        simp
    · refine ⟨l, e, h.keep (t := t) ?_ ?_ (fun u hu => by simp [setRow, setLog, hu]) (fun p => ?_) fun _ => ?_, id⟩
      · simp [setRow, setLog, hj]
      · simp [setRow, setLog, hj]
      · rw [hempty]
        cases p <;> simp [CallWorker.at]
      · simp
  · exact fun j l e h => ⟨l, e, h, id⟩

theorem carries_capture {candidates result : List ι} (hw : s.workers t = .capturing (j' :: candidates) result) :
    s.Carries (s.capture t j' candidates result) := by
  have hscheduling : s.workers t ≠ .scheduling := by simp [hw]
  have hskip : s.Carries (s.setWorker t (.capturing candidates result)) :=
    carries_setWorker hscheduling fun p => by rw [hw]; cases p <;> rfl
  unfold capture
  split
  · exact fun j l e h => ⟨l, e, h, id⟩
  next hfree =>
    split
    next row hread =>
      split
      next hrow =>
        intro j l e h
        by_cases hj : j = j'
        · subst hj
          obtain ⟨rfl, rfl⟩ := waiting_of_capture h (by simpa using hfree) hread hrow hscheduling
          refine ⟨.marked t, e, h.move (t := t) ?_ ?_ (fun u hu => by simp [setRow, hu]) (by simp [Life.place])
            (fun u p hu => place_of_ne (place_marked.mpr rfl) hu p) (fun p => ?_) (by simp), by simp [Life.isStuck]⟩
          · simp [setRow, h.cell, Life.cell, Cell.write]
          · simp [setRow, h.log, Life.log]
          · cases p <;> simp [CallWorker.at, Life.place]
        · refine ⟨l, e, h.keep (t := t) ?_ rfl (fun u hu => by simp [setRow, hu]) (fun p => ?_) fun hl => ?_, id⟩
          · simp [setRow, hj]
          · cases p <;> simp [setRow, CallWorker.at, hw, hj]
          · exact absurd (h.scheduling t hl) hscheduling
      · exact hskip
    · exact hskip

theorem carries_invoke {invoked delayedCalls : List ι} (hw : s.workers t = .invoking invoked (j' :: delayedCalls))
    (hnodup : (j' :: delayedCalls).Nodup) : s.Carries (s.invoke t j' invoked delayedCalls) := by
  intro j l e h
  by_cases hj : j = j'
  · subst hj
    have hl : l.place = some (t, .held) := (h.place t .held).mp (by rw [hw]; exact List.mem_cons_self)
    obtain rfl := place_held.mp hl
    refine ⟨.invoked t s.clock, e, h.move (t := t) ?_ ?_ (fun u hu => by simp [invoke, setLog, hu])
      (fun u p hu => place_of_ne hl hu p) (fun u p hu => place_of_ne (place_done.mpr ⟨_, rfl⟩) hu p) (fun p => ?_)
      (by simp), by simp [Life.isStuck]⟩
    · simp [invoke, setLog, h.cell, Life.cell]
    · simp [invoke, setLog, h.log, Life.log]
    · cases p <;> simp [invoke, setLog, CallWorker.at, Life.place, (List.nodup_cons.mp hnodup).1]
  · refine ⟨l, e, h.keep (t := t) rfl ?_ (fun u hu => by simp [invoke, setLog, hu]) (fun p => ?_) fun hl => ?_, id⟩
    · simp [invoke, setLog, hj]
    · cases p <;> simp [invoke, setLog, CallWorker.at, hw, hj]
    · exact absurd (h.scheduling t hl) (by simp [hw])

theorem carries_deleteCalls {dbCalls : List ι} (hw : s.workers t = .deleting dbCalls) :
    s.Carries (s.deleteCalls t dbCalls) := by
  unfold deleteCalls
  split
  · exact fun j l e h => ⟨l, e, h, id⟩
  · intro j l e h
    by_cases hj : j ∈ dbCalls
    · have hl : l.place = some (t, .done) := (h.place t .done).mp (by rw [hw]; exact hj)
      obtain ⟨clock, rfl⟩ := place_done.mp hl
      refine ⟨.deleted t clock, e, h.move (t := t) ?_ ?_ (fun u hu => by simp [hu]) (fun u p hu => place_of_ne hl hu p)
        (by simp [Life.place]) (fun p => ?_) (by simp), by simp [Life.isStuck]⟩
      · simp [hj, Life.cell]
      · simp [hj, h.cell, h.log, Life.cell, Life.log, Cell.read]
      · cases p <;> simp [CallWorker.at, Life.place]
    · refine ⟨l, e, h.keep (t := t) ?_ ?_ (fun u hu => by simp [hu]) (fun p => ?_) fun hl => ?_, id⟩
      · simp [hj]
      · simp [hj]
      · cases p <;> simp [CallWorker.at, hw, hj]
      · exact absurd (h.scheduling t hl) (by simp [hw])

theorem carries_poll {calls : List ι} : s.Carries (s.poll conf t calls) := by
  unfold poll
  split
  next hidle => exact carries_setWorker (by simp [hidle]) fun p => by rw [hidle]; cases p <;> rfl
  · exact fun j l e h => ⟨l, e, h, id⟩

theorem carries_execute (hok : s.Ok) : s.Carries (s.execute t) := by
  cases hw : s.workers t with
  | idle =>
    simp only [execute, hw]
    exact fun j l e h => ⟨l, e, h, id⟩
  | scheduling =>
    simp only [execute, hw]
    exact carries_commitScheduled hw
  | capturing candidates result =>
    cases candidates with
    | nil =>
      simp only [execute, hw]
      exact carries_commitCaptures hw
    | cons j candidates =>
      simp only [execute, hw]
      exact carries_capture hw
  | preparing dbCalls =>
    simp only [execute, hw]
    exact carries_setWorker (by simp [hw]) fun p => by rw [hw]; cases p <;> rfl
  | invoking invoked delayedCalls =>
    cases delayedCalls with
    | nil =>
      simp only [execute, hw]
      exact carries_setWorker (by simp [hw]) fun p => by rw [hw]; cases p <;> rfl
    | cons j delayedCalls =>
      simp only [execute, hw]
      have hnodup := hok.nodup t .held
      rw [hw] at hnodup
      exact carries_invoke hw hnodup
  | deleting dbCalls =>
    simp only [execute, hw]
    exact carries_deleteCalls hw

/-! ### Runs -/

theorem nodup_capture (hok : s.Ok) {candidates result : List ι} (hw : s.workers t = .capturing (j' :: candidates) result)
    (u : τ) (p : CallPlace) : (((s.capture t j' candidates result).workers u).at p).Nodup := by
  have hresult : result.Nodup := by
    have := hok.nodup t .marked
    rwa [hw] at this
  have hskip : ∀ p, (((s.setWorker t (.capturing candidates result)).workers t).at p).Nodup := by
    intro p
    cases p <;> simp [CallWorker.at, hresult]
  unfold capture
  split
  · exact hok.nodup u p
  next hfree =>
    split
    next row hread =>
      split
      next hrow =>
        refine nodup_of_others (t := t) hok (fun u hu => by simp [setRow, hu]) (fun p => ?_) u p
        obtain ⟨l, e, h⟩ := hok.fits j'
        obtain ⟨rfl, -⟩ := waiting_of_capture h (by simpa using hfree) hread hrow (by simp [hw])
        have hnew : j' ∉ result := fun hmem => by
          have := (h.place t .marked).mp (by rw [hw]; exact hmem)
          cases this
        cases p <;> simp [CallWorker.at, List.nodup_append, hresult]
        exact fun a ha => fun heq => hnew (heq ▸ ha)
      · exact nodup_of_others (t := t) hok (fun u hu => by simp [hu]) hskip u p
    · exact nodup_of_others (t := t) hok (fun u hu => by simp [hu]) hskip u p

theorem nodup_execute (hok : s.Ok) (u : τ) (p : CallPlace) : (((s.execute t).workers u).at p).Nodup := by
  have hnodup := hok.nodup t
  cases hw : s.workers t with
  | idle =>
    simp only [execute, hw]
    exact hok.nodup u p
  | scheduling =>
    simp only [execute, hw]
    refine nodup_of_others (t := t) hok (fun u hu => by simp [commitScheduled, hu]) (fun p => ?_) u p
    simp [commitScheduled, CallWorker.at]
  | capturing candidates result =>
    cases candidates with
    | nil =>
      simp only [execute, hw]
      refine nodup_of_others (t := t) hok (fun u hu => by simp [commitCaptures, hu]) (fun p => ?_) u p
      have hresult := hnodup .marked
      rw [hw] at hresult
      cases result <;> cases p <;> simp_all [commitCaptures, CallWorker.at]
    | cons j candidates =>
      simp only [execute, hw]
      exact nodup_capture hok hw u p
  | preparing dbCalls =>
    simp only [execute, hw]
    refine nodup_of_others (t := t) hok (fun u hu => by simp [hu]) (fun p => ?_) u p
    have hheld := hnodup .held
    rw [hw] at hheld
    cases p <;> simp_all [CallWorker.at]
  | invoking invoked delayedCalls =>
    have hheld := hnodup .held
    have hdone := hnodup .done
    rw [hw] at hheld hdone
    cases delayedCalls with
    | nil =>
      simp only [execute, hw]
      refine nodup_of_others (t := t) hok (fun u hu => by simp [hu]) (fun p => ?_) u p
      cases p <;> simp_all [CallWorker.at]
    | cons j delayedCalls =>
      simp only [execute, hw]
      refine nodup_of_others (t := t) hok (fun u hu => by simp [invoke, setLog, hu]) (fun p => ?_) u p
      have hnew : j ∉ invoked := fun hmem => by
        have := hok.place_unique (t := t) (p := .done) (q := .held) (by rw [hw]; exact hmem)
          (by rw [hw]; exact List.mem_cons_self)
        cases this
      cases p with
      | marked => simp [invoke, CallWorker.at]
      | held =>
        have hrest : delayedCalls.Nodup := (List.nodup_cons.mp hheld).2
        simpa [invoke, CallWorker.at] using hrest
      | done =>
        have hrest : (invoked ++ [j]).Nodup := List.nodup_append.mpr ⟨hdone, by simp, by
          intro a ha b hb heq
          rw [List.mem_singleton.mp hb] at heq
          exact hnew (heq ▸ ha)⟩
        simpa [invoke, CallWorker.at] using hrest
  | deleting dbCalls =>
    simp only [execute, hw]
    unfold deleteCalls
    split
    · exact hok.nodup u p
    · refine nodup_of_others (t := t) hok (fun u hu => by simp [hu]) (fun p => ?_) u p
      simp [CallWorker.at]

theorem Ok.step (hok : s.Ok) (ev : CallEvent τ ι) : (s.step conf ev).Ok := by
  have hcarries : ∀ {s'}, s.Carries s' → (∀ u p, ((s'.workers u).at p).Nodup) → s'.Ok := by
    intro s' hs' hnodup
    refine ⟨fun j => ?_, hnodup⟩
    obtain ⟨l, e, h⟩ := hok.fits j
    obtain ⟨l', e', h', -⟩ := hs' j l e h
    exact ⟨l', e', h'⟩
  cases ev with
  | schedule t j n =>
    refine hcarries carries_schedule fun u p => ?_
    simp only [CallStore.step, CallStore.schedule]
    split
    · refine nodup_of_others (t := t) hok (fun u hu => by simp [setRow, setLog, hu]) (fun p => ?_) u p
      simp [CallWorker.at]
    · exact hok.nodup u p
  | poll t calls =>
    refine hcarries carries_poll fun u p => ?_
    simp only [CallStore.step, CallStore.poll]
    split
    · refine nodup_of_others (t := t) hok (fun u hu => by simp [hu]) (fun p => ?_) u p
      cases p <;> simp [CallWorker.at]
    · exact hok.nodup u p
  | run t => exact hcarries (carries_execute hok) (nodup_execute hok)
  | fail t =>
    refine ⟨fun j => ?_, fun u p => ?_⟩
    · obtain ⟨l, e, h⟩ := hok.fits j
      obtain ⟨l', e', h', -⟩ := fits_fail (t := t) h
      exact ⟨l', e', h'⟩
    · refine nodup_of_others (t := t) hok (fun u hu => by simp [CallStore.step, fail, hu]) (fun p => ?_) u p
      simp [CallStore.step, fail, CallWorker.at]
  | tick n => exact ⟨fun j => (hok.fits j).imp fun l h => h.imp fun e h => ⟨h.cell, h.log, h.place, h.scheduling⟩, hok.nodup⟩

end

/-! ### Time -/

variable (conf s j) in
/-- A second from now, the time of the call has come. -/
def Due : Prop := ∃ e, (s.log j).created = some e ∧ e < s.now conf + conf.second

variable (conf s) in
/-- No worker has a call before it is due, and none was invoked before. -/
structure OnTime : Prop where
  worker : ∀ u, ∀ j ∈ (s.workers u).calls, s.Due conf j
  invoked : ∀ j, ∀ x ∈ (s.log j).invoked, ∃ e, (s.log j).created = some e ∧ e < x.2 + conf.second

theorem Due.later (h : s.Due conf j) (hclock : s.clock ≤ s'.clock)
    (hcreated : ∀ e, (s.log j).created = some e → (s'.log j).created = some e) : s'.Due conf j := by
  obtain ⟨e, he, hlt⟩ := h
  have hle : s.now conf ≤ s'.now conf := Nat.mul_le_mul_right _ (Nat.div_le_div_right hclock)
  exact ⟨e, hcreated e he, by omega⟩

theorem OnTime.next (h : s.OnTime conf) (hclock : s.clock ≤ s'.clock)
    (hcreated : ∀ j e, (s.log j).created = some e → (s'.log j).created = some e)
    (hworkers : ∀ u, ∀ j ∈ (s'.workers u).calls, j ∈ (s.workers u).calls ∨ s.Due conf j)
    (hinvoked : ∀ j, ∀ x ∈ (s'.log j).invoked, x ∈ (s.log j).invoked ∨ s.Due conf j ∧ x.2 = s.clock) : s'.OnTime conf where
  worker u j hj := by
    rcases hworkers u j hj with hold | hdue
    · exact (h.worker u j hold).later hclock (hcreated j)
    · exact hdue.later hclock (hcreated j)
  invoked j x hx := by
    rcases hinvoked j x hx with hold | ⟨⟨e, he, hlt⟩, hnow⟩
    · obtain ⟨e, he, hlt⟩ := h.invoked j x hold
      exact ⟨e, hcreated j e he, hlt⟩
    · have hle : s.now conf ≤ s.clock := Nat.div_mul_le_self _ _
      exact ⟨e, hcreated j e he, by omega⟩

/-- A step of `t` that invokes nothing. -/
theorem OnTime.worker_step (h : s.OnTime conf) (hclock : s'.clock = s.clock) (hlog : ∀ j, (s'.log j).created = (s.log j).created)
    (hinvoked : ∀ j, (s'.log j).invoked = (s.log j).invoked) (hothers : ∀ u, u ≠ t → s'.workers u = s.workers u)
    (ht : ∀ j ∈ (s'.workers t).calls, j ∈ (s.workers t).calls ∨ s.Due conf j) : s'.OnTime conf := by
  refine h.next (Nat.le_of_eq hclock.symm) (fun j e he => by rw [hlog, he]) (fun u j hj => ?_) fun j x hx => ?_
  · by_cases hu : u = t
    · subst hu
      exact ht j hj
    · rw [hothers u hu] at hj
      exact .inl hj
  · rw [hinvoked] at hx
    exact .inl hx

section
variable [DecidableEq τ]

theorem Fits.time (h : s.Fits j l e) {row : CallRow} (hread : (s.rows j).read t = some row) :
    (s.log j).created = some row.executionTime := by
  rw [h.cell] at hread
  rw [h.log]
  cases l with
  | unborn | dropped | deleted u clock => simp [Life.cell, Cell.read] at hread
  | scheduled u | marked u =>
    simp only [Life.cell, Cell.read] at hread
    split at hread <;> cases hread
    all_goals rfl
  | waiting | held u | invoked u clock | stuck by' =>
    simp only [Life.cell, Cell.read, Option.some.injEq] at hread
    subst hread
    rfl

theorem Ok.due (hok : s.Ok) (h : s.toStart conf t j = true) : s.Due conf j := by
  unfold toStart at h
  split at h
  next row hread =>
    obtain ⟨l, e, hfits⟩ := hok.fits j
    simp only [Bool.and_eq_true, decide_eq_true_eq] at h
    exact ⟨row.executionTime, hfits.time hread, h.1⟩
  · cases h

variable [DecidableEq ι]

/-- A worker gets calls only by a poll, and invokes only those that it has. -/
theorem OnTime.execute (h : s.OnTime conf) : (s.execute t).OnTime conf := by
  have hsub : ∀ {w : CallWorker ι}, w.calls ⊆ (s.workers t).calls → (s.setWorker t w).OnTime conf := by
    intro w hw
    exact h.worker_step (t := t) rfl (fun _ => rfl) (fun _ => rfl) (fun u hu => by simp [hu])
      fun j hj => .inl (hw (by simpa using hj))
  cases hw : s.workers t with
  | idle =>
    simp only [CallStore.execute, hw]
    exact h
  | scheduling =>
    simp only [CallStore.execute, hw, commitScheduled]
    -- The commit changes the log of its calls, but neither when they were created nor what was invoked.
    refine h.worker_step (t := t) rfl (fun j => ?_) (fun j => ?_) (fun u hu => by simp [hu]) fun j hj => ?_
    · dsimp only
      split <;> rfl
    · dsimp only
      split <;> rfl
    · simp [CallWorker.calls] at hj
  | capturing candidates result =>
    cases candidates with
    | nil =>
      simp only [CallStore.execute, hw, commitCaptures]
      refine h.worker_step (t := t) rfl (fun _ => rfl) (fun _ => rfl) (fun u hu => by simp [hu]) fun j hj => .inl ?_
      rw [hw]
      cases result with
      | nil => simp [CallWorker.calls] at hj
      | cons j' result => simpa [CallWorker.calls] using hj
    | cons j' candidates =>
      have hskip : (s.setWorker t (.capturing candidates result)).OnTime conf :=
        hsub (by rw [hw]; exact List.subset_cons_self _ _)
      simp only [CallStore.execute, hw, capture]
      split
      · exact h
      · split
        · split
          -- A candidate that is captured moves to the result, so the worker has no other calls than before.
          · refine h.worker_step (t := t) rfl (fun _ => rfl) (fun _ => rfl) (fun u hu => by simp [setRow, hu])
              fun j hj => .inl ?_
            rw [hw]
            simp only [setRow, workers_setWorker, if_true, CallWorker.calls, List.mem_append, List.cons_append,
              List.mem_cons, List.not_mem_nil, or_false] at hj ⊢
            rcases hj with hj | hj | hj
            · exact .inr (.inl hj)
            · exact .inr (.inr hj)
            · exact .inl hj
          · exact hskip
        · exact hskip
  | preparing dbCalls =>
    simp only [CallStore.execute, hw]
    exact hsub (by rw [hw]; exact List.Subset.refl _)
  | invoking invoked delayedCalls =>
    cases delayedCalls with
    | nil =>
      simp only [CallStore.execute, hw]
      exact hsub (List.nil_subset _)
    | cons j' delayedCalls =>
      simp only [CallStore.execute, hw, invoke]
      -- The call that is invoked now is one of the worker's, and these are due.
      have hdue : s.Due conf j' := h.worker t j' (by rw [hw]; exact List.mem_cons_self)
      refine h.next (Nat.le_refl _) (fun j e he => ?_) (fun u j hj => ?_) fun j x hx => ?_
      · by_cases hj : j = j'
        · subst hj
          simpa [setLog] using he
        · simpa [setLog, hj] using he
      · by_cases hu : u = t
        · subst hu
          rw [hw]
          exact .inl (List.mem_cons_of_mem _ (by simpa [setLog, CallWorker.calls] using hj))
        · exact .inl (by simpa [setLog, hu] using hj)
      · by_cases hj : j = j'
        · subst hj
          have hx : x = (t, s.clock) ∨ x ∈ (s.log j).invoked := by simpa [setLog] using hx
          rcases hx with rfl | hx
          · exact .inr ⟨hdue, rfl⟩
          · exact .inl hx
        · exact .inl (by simpa [setLog, hj] using hx)
  | deleting dbCalls =>
    simp only [CallStore.execute, hw, deleteCalls]
    split
    · exact h
    · refine h.worker_step (t := t) rfl (fun j => ?_) (fun j => ?_) (fun u hu => by simp [hu]) fun j hj => ?_
      · dsimp only
        split <;> rfl
      · dsimp only
        split <;> rfl
      · simp [CallWorker.calls] at hj

theorem OnTime.step (hok : s.Ok) (h : s.OnTime conf) (ev : CallEvent τ ι) : (s.step conf ev).OnTime conf := by
  cases ev with
  | schedule t j' n =>
    simp only [CallStore.step, CallStore.schedule]
    split
    next hnew =>
      refine h.next (Nat.le_refl _) (fun j e he => ?_) (fun u j hj => .inl ?_) fun j x hx => .inl ?_
      · by_cases hj : j = j'
        · subst hj
          rw [hnew.2] at he
          cases he
        · simpa [setRow, setLog, hj] using he
      · by_cases hu : u = t
        · simp [hu, CallWorker.calls] at hj
        · simpa [setRow, setLog, hu] using hj
      · by_cases hj : j = j'
        · subst hj
          simpa [setRow, setLog] using hx
        · simpa [setRow, setLog, hj] using hx
    · exact h
  | poll t calls =>
    simp only [CallStore.step, CallStore.poll]
    split
    · refine h.worker_step (t := t) rfl (fun _ => rfl) (fun _ => rfl) (fun u hu => by simp [hu]) fun j hj => .inr ?_
      have hmem : j ∈ calls ∧ s.toStart conf t j = true := by simpa [CallWorker.calls] using hj
      exact hok.due hmem.2
    · exact h
  | run t => exact h.execute
  | fail t =>
    refine h.worker_step (t := t) rfl (fun _ => rfl) (fun _ => rfl) (fun u hu => by simp [CallStore.step, fail, hu])
      fun j hj => ?_
    simp [CallStore.step, fail, CallWorker.calls] at hj
  | tick n => exact h.next (Nat.le_add_right _ _) (fun _ _ he => he) (fun _ _ hj => .inl hj) fun _ _ hx => .inl hx

end

/-! ### What a run has invoked -/

theorem fits_start (j : ι) : ({} : CallStore τ ι).Fits j .unborn 0 where
  cell := rfl
  log := rfl
  place u p := by cases p <;> simp [CallWorker.at, Life.place]
  scheduling u h := by cases h

theorem ok_start : Ok ({} : CallStore τ ι) where
  fits j := ⟨_, _, fits_start j⟩
  nodup u p := by cases p <;> exact List.nodup_nil

/-- A call is invoked once at most, and not more than a second before its time; its row is deleted by the one that has
    invoked it, and stays until then. -/
structure InvokedOnce (conf : SchedulerConf) (s : CallStore τ ι) (j : ι) : Prop where
  once : (s.log j).invoked.length ≤ 1
  onTime : ∀ x ∈ (s.log j).invoked, ∃ e, (s.log j).created = some e ∧ e < x.2 + conf.second
  deleted : ∀ t, (s.log j).deleted = some t → ∃ clock, (s.log j).invoked = [(t, clock)]
  kept : (s.log j).stored → (s.log j).deleted = none → (s.rows j).committed.isSome
  unmarked : ∀ row, (s.rows j).committed = some row → row.processing = false → (s.log j).invoked = []

/-- The call waits in its row, or it was invoked once and is deleted. -/
def Settled (s : CallStore τ ι) (j : ι) : Prop :=
  (∃ row, (s.rows j).committed = some row ∧ row.processing = false ∧ (s.log j).invoked = []) ∨
    ((s.rows j).committed = none ∧ ∃ t clock, (s.log j).invoked = [(t, clock)] ∧ (s.log j).deleted = some t)

theorem Ok.invokedOnce (hok : s.Ok) (h : s.OnTime conf) (j : ι) : s.InvokedOnce conf j := by
  obtain ⟨l, e, hfits⟩ := hok.fits j
  refine { once := ?_, onTime := h.invoked j, deleted := ?_, kept := ?_, unmarked := ?_ } <;>
    simp only [hfits.cell, hfits.log] <;> cases l <;> simp [Life.cell, Life.log]

theorem Fits.settled (h : s.Fits j l e) (hstuck : l.isStuck = false) (hidle : ∀ u, s.workers u = .idle)
    (hstored : (s.log j).stored) : s.Settled j := by
  have hplace : l.place = none := by
    rcases hp : l.place with _ | ⟨u, p⟩
    · rfl
    · have := (h.place u p).mpr hp
      rw [hidle] at this
      cases p <;> cases this
  rw [h.log] at hstored
  unfold Settled
  rw [h.cell, h.log]
  cases l <;> simp_all [Life.cell, Life.log, Life.place, Life.isStuck]

/-- A scheduler fails only while it has no call that it has captured. -/
def FailsEarly (s : CallStore τ ι) : CallEvent τ ι → Prop
  | .fail t => ∀ p, p ≠ .marked → (s.workers t).at p = []
  | _ => True

/-- No call is stuck. -/
def Unstuck (s : CallStore τ ι) : Prop := ∀ j, ∃ l e, s.Fits j l e ∧ l.isStuck = false

section
variable [DecidableEq τ] [DecidableEq ι]

theorem Unstuck.step (hok : s.Ok) (h : s.Unstuck) {ev : CallEvent τ ι} (hev : s.FailsEarly ev) :
    (s.step conf ev).Unstuck := by
  have hcarries : ∀ {s'}, s.Carries s' → s'.Unstuck := by
    intro s' hs' j
    obtain ⟨l, e, hfits, hl⟩ := h j
    obtain ⟨l', e', hfits', hl'⟩ := hs' j l e hfits
    refine ⟨l', e', hfits', ?_⟩
    by_contra hne
    rw [hl' (by simpa using hne)] at hl
    cases hl
  cases ev with
  | schedule t j n => exact hcarries carries_schedule
  | poll t calls => exact hcarries carries_poll
  | run t => exact hcarries (carries_execute hok)
  | fail t =>
    intro j
    obtain ⟨l, e, hfits, hl⟩ := h j
    obtain ⟨l', e', hfits', hl'⟩ := fits_fail (t := t) hfits
    refine ⟨l', e', hfits', ?_⟩
    by_contra hne
    rcases hl' (by simpa using hne) with hstuck | ⟨p, hp, hmem⟩
    · rw [hstuck] at hl
      cases hl
    · rw [hev p hp] at hmem
      cases hmem
  | tick n => exact fun j => (h j).imp fun l h => h.imp fun e h => ⟨⟨h.1.cell, h.1.log, h.1.place, h.1.scheduling⟩, h.2⟩

end
end CallStore

/-- However many legacy schedulers share the calls, in every order of their statements and whenever they fail, a call is
    invoked once at most. If none fails between its capture of calls and their deletion, no stored call is left over when
    all of them are idle. -/
theorem delayed_calls_once {τ ι : Type} [DecidableEq τ] [DecidableEq ι] (conf : SchedulerConf) :
    (∀ s, (legacySchedulers τ ι conf).Reach (fun _ _ => True) s → ∀ j, s.InvokedOnce conf j) ∧
      ∀ s, (legacySchedulers τ ι conf).Reach CallStore.FailsEarly s → (∀ u, s.workers u = .idle) →
        ∀ j, (s.log j).stored → s.Settled j := by
  have hok : ∀ {guard} {s}, (legacySchedulers τ ι conf).Reach guard s → s.Ok := fun hreach =>
    hreach.invariant (fun _ hinit => hinit ▸ CallStore.ok_start) fun _ ev _ h _ => h.step ev
  refine ⟨fun s hreach j => ?_, fun s hreach hidle j hstored => ?_⟩
  · have honTime : s.OnTime conf := by
      refine hreach.invariant (fun _ hinit => ?_) fun _ ev hreach h _ => h.step (hok hreach) ev
      rw [hinit]
      exact ⟨fun u j hj => (by cases hj), fun j x hx => (by cases hx)⟩
    exact (hok hreach).invokedOnce honTime j
  · have hunstuck : s.Unstuck := by
      refine hreach.invariant (fun _ hinit => ?_) fun _ _ hreach h hev => h.step (hok hreach) hev
      rw [hinit]
      exact fun j => ⟨_, _, CallStore.fits_start j, rfl⟩
    obtain ⟨l, e, hfits, hl⟩ := hunstuck j
    exact hfits.settled hl hidle hstored

end Mistral
