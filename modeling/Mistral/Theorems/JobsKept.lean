import Mistral.Lib.Lists
import Mistral.Scheduler.DefaultScheduler

/-! Scheduled jobs are neither lost nor run twice within a capture. -/

namespace Mistral

theorem SchedulerConf.utcNowSec_mono (conf : SchedulerConf) {a b : Nat} (h : a ≤ b) : conf.utcNowSec a ≤ conf.utcNowSec b :=
  Nat.mul_le_mul_right _ (Nat.div_le_div_right h)

theorem SchedulerConf.utcNowSec_le (conf : SchedulerConf) (a : Nat) : conf.utcNowSec a ≤ a := Nat.div_mul_le_self _ _

theorem SchedulerConf.lt_utcNowSec (conf : SchedulerConf) (a : Nat) : a < conf.utcNowSec a + conf.second := by
  have := Nat.mod_lt a conf.second_pos
  have := Nat.div_add_mod' a conf.second
  unfold utcNowSec
  omega

namespace JobStore
variable {τ ι : Type} [DecidableEq τ] {conf : SchedulerConf} {s s' : JobStore τ ι} {t u : τ} {j : ι}

/-- What is stored about a job, and what has happened to it. -/
structure JobOk (conf : SchedulerConf) (s : JobStore τ ι) (j : ι) : Prop where
  row : ∀ row, (s.rows j).committed = some row →
    (s.log j).stored ∧ (s.log j).deleted = none ∧ row.capturedAt = (s.log j).captures.head?.map (·.recorded)
  gone : (s.log j).stored → (s.rows j).committed = none → (s.log j).deleted.isSome
  fresh : (s.log j).stored = false →
    (s.rows j).committed = none ∧ (s.log j).captures = [] ∧ (s.log j).invoked = [] ∧ (s.log j).deleted = none
  created : (s.log j).created = false → s.rows j = { committed := none } ∧ (s.log j).stored = false
  past : ∀ c ∈ (s.log j).captures, c.recorded = conf.utcNowSec c.clock ∧ c.clock ≤ s.clock
  apart : (s.log j).captures.Pairwise fun later earlier => earlier.recorded + conf.capturedJobTimeout ≤ later.recorded
  deleted : ∀ w, (s.log j).deleted = some w → (∃ c ∈ (s.log j).captures, c.worker = w) ∧ w ∈ (s.log j).invoked

/-- A capture that is not committed yet. -/
structure Capturing (conf : SchedulerConf) (s : JobStore τ ι) (t : τ) (j : ι) (c : Capture τ) : Prop where
  worker : c.worker = t
  recorded : c.recorded = conf.utcNowSec c.clock
  clock : c.clock ≤ s.clock
  row : ∃ row, (s.rows j).own t = some (some row) ∧ row.capturedAt = some c.recorded
  stored : (s.log j).stored
  kept : (s.log j).deleted = none
  later : ∀ c' ∈ (s.log j).captures, c'.recorded + conf.capturedJobTimeout ≤ c.recorded

/-- What a worker has done when it comes to its next statement. -/
def WorkerOk (conf : SchedulerConf) (s : JobStore τ ι) (t : τ) : Prop :=
  match s.workers t with
  | .idle => ∀ j, (s.rows j).own t = none
  | .scheduling => ∀ j x, (s.rows j).own t = some x →
      (∃ executeAt, x = some { executeAt }) ∧ (s.log j).created ∧ (s.log j).stored = false
  | .capturing todo captured =>
    (∀ j c, (j, some c) ∈ todo → c + conf.capturedJobTimeout ≤ s.now conf) ∧
      (todo.map (·.1) ++ captured.map (·.1)).Nodup ∧
      (∀ j, (s.rows j).own t ≠ none → j ∈ captured.map (·.1)) ∧ ∀ j c, (j, c) ∈ captured → s.Capturing conf t j c
  | .invoking todo =>
    (∀ j, (s.rows j).own t = none) ∧ ∀ j ∈ todo, ∃ c ∈ (s.log j).captures, c.worker = t
  | .deleting j todo =>
    (∀ j, (s.rows j).own t = none) ∧ t ∈ (s.log j).invoked ∧ ∀ j' ∈ j :: todo, ∃ c ∈ (s.log j').captures, c.worker = t

/-- The invariant, by jobs and by workers. -/
structure Ok (conf : SchedulerConf) (s : JobStore τ ι) : Prop where
  job : ∀ j, s.JobOk conf j
  worker : ∀ t, s.WorkerOk conf t

/-- The same has happened to a job but for its invocations. -/
structure SameRecord (a b : JobLog τ) : Prop where
  created : a.created = b.created
  stored : a.stored = b.stored
  captures : a.captures = b.captures
  deleted : a.deleted = b.deleted

omit [DecidableEq τ] in
theorem sameRecord_of_eq {a b : JobLog τ} (h : a = b) : SameRecord a b := by
  subst h
  exact ⟨rfl, rfl, rfl, rfl⟩

/-- What a step of others does to a worker. -/
structure Leaves (s s' : JobStore τ ι) (u : τ) : Prop where
  worker : s'.workers u = s.workers u
  clock : s.clock ≤ s'.clock
  own : ∀ j, (s'.rows j).own u = (s.rows j).own u
  log : ∀ j, (s.rows j).own u ≠ none → SameRecord (s'.log j) (s.log j)
  captures : ∀ j, (s.log j).captures ⊆ (s'.log j).captures
  invoked : ∀ j, (s.log j).invoked ⊆ (s'.log j).invoked

theorem Capturing.congr {c : Capture τ} (h : s.Capturing conf u j c) (hclock : s.clock ≤ s'.clock)
    (hown : (s'.rows j).own u = (s.rows j).own u) (hlog : SameRecord (s'.log j) (s.log j)) : s'.Capturing conf u j c where
  worker := h.worker
  recorded := h.recorded
  clock := Nat.le_trans h.clock hclock
  row := hown ▸ h.row
  stored := hlog.stored ▸ h.stored
  kept := hlog.deleted ▸ h.kept
  later := hlog.captures ▸ h.later

theorem Capturing.leaves {c : Capture τ} (h : s.Capturing conf u j c) (hleaves : Leaves s s' u) :
    s'.Capturing conf u j c := by
  obtain ⟨row, hown, -⟩ := h.row
  exact h.congr hleaves.clock (hleaves.own j) (hleaves.log j (by simp [hown]))

theorem WorkerOk.leaves (h : s.WorkerOk conf u) (hleaves : Leaves s s' u) : s'.WorkerOk conf u := by
  have hcaptured : ∀ j, (∃ c ∈ (s.log j).captures, c.worker = u) → ∃ c ∈ (s'.log j).captures, c.worker = u :=
    fun j ⟨c, hc, hw⟩ => ⟨c, hleaves.captures j hc, hw⟩
  unfold WorkerOk at h ⊢
  rw [hleaves.worker]
  cases hw : s.workers u with
  | idle =>
    rw [hw] at h
    exact fun j => by rw [hleaves.own]; exact h j
  | scheduling =>
    rw [hw] at h
    intro j x hx
    rw [hleaves.own] at hx
    have hlog := hleaves.log j (by simp [hx])
    rw [hlog.created, hlog.stored]
    exact h j x hx
  | capturing todo captured =>
    rw [hw] at h
    obtain ⟨htodo, hnodup, hown, hcapturing⟩ := h
    refine ⟨fun j c hc => Nat.le_trans (htodo j c hc) (conf.utcNowSec_mono hleaves.clock), hnodup, fun j hj => ?_,
      fun j c hc => (hcapturing j c hc).leaves hleaves⟩
    rw [hleaves.own] at hj
    exact hown j hj
  | invoking todo =>
    rw [hw] at h
    exact ⟨fun j => by rw [hleaves.own]; exact h.1 j, fun j hj => hcaptured j (h.2 j hj)⟩
  | deleting j todo =>
    rw [hw] at h
    exact ⟨fun j => by rw [hleaves.own]; exact h.1 j, hleaves.invoked j h.2.1, fun j' hj' => hcaptured j' (h.2.2 j' hj')⟩

/-- A step of `t`. -/
theorem Ok.next (h : s.Ok conf) (hjob : ∀ j, s'.JobOk conf j) (hleaves : ∀ u, u ≠ t → Leaves s s' u)
    (ht : s'.WorkerOk conf t) : s'.Ok conf where
  job := hjob
  worker u := by
    by_cases hu : u = t
    · subst hu
      exact ht
    · exact (h.worker u).leaves (hleaves u hu)

omit [DecidableEq τ] in
/-- A step that commits nothing about a job. -/
theorem JobOk.congr (h : s.JobOk conf j) (hclock : s.clock ≤ s'.clock)
    (hcommitted : (s'.rows j).committed = (s.rows j).committed) (hlog : s'.log j = s.log j)
    (hrow : (s.log j).created = false → s'.rows j = s.rows j) : s'.JobOk conf j where
  row := by rw [hcommitted, hlog]; exact h.row
  gone := by rw [hcommitted, hlog]; exact h.gone
  fresh := by rw [hcommitted, hlog]; exact h.fresh
  created hcreated := by
    rw [hlog] at hcreated ⊢
    rw [hrow hcreated]
    exact h.created hcreated
  past := by
    rw [hlog]
    exact fun c hc => ⟨(h.past c hc).1, Nat.le_trans (h.past c hc).2 hclock⟩
  apart := by rw [hlog]; exact h.apart
  deleted := by rw [hlog]; exact h.deleted

@[simp] theorem workers_setWorker {w : Worker τ ι} : (s.setWorker t w).workers u = if u = t then w else s.workers u := by
  simp [setWorker, Function.update_apply]

@[simp] theorem rows_setWorker {w : Worker τ ι} : (s.setWorker t w).rows = s.rows := rfl

@[simp] theorem log_setWorker {w : Worker τ ι} : (s.setWorker t w).log = s.log := rfl

@[simp] theorem clock_setWorker {w : Worker τ ι} : (s.setWorker t w).clock = s.clock := rfl

@[simp] theorem now_setWorker {w : Worker τ ι} : (s.setWorker t w).now conf = s.now conf := rfl

/-- A step that only changes what a worker does. -/
theorem Ok.setWorker (h : s.Ok conf) {w : Worker τ ι} (ht : (s.setWorker t w).WorkerOk conf t) :
    (s.setWorker t w).Ok conf :=
  h.next (fun j => (h.job j).congr (Nat.le_refl _) rfl rfl fun _ => rfl)
    (fun u hu => { worker := by simp [hu], clock := Nat.le_refl _, own := fun _ => rfl, log := fun _ _ => sameRecord_of_eq rfl,
                   captures := fun _ => List.Subset.refl _, invoked := fun _ => List.Subset.refl _ }) ht

/-- A step that changes neither the stored jobs nor the workers. -/
theorem Ok.leaves (h : s.Ok conf) (hworkers : s'.workers = s.workers) (hclock : s.clock ≤ s'.clock)
    (hrows : s'.rows = s.rows) (hlog : s'.log = s.log) : s'.Ok conf where
  job j := (h.job j).congr hclock (by rw [hrows]) (by rw [hlog]) fun _ => by rw [hrows]
  worker u := (h.worker u).leaves
    { worker := by rw [hworkers], clock := hclock, own := fun _ => by rw [hrows],
      log := fun _ _ => sameRecord_of_eq (by rw [hlog])
      captures := fun _ => by rw [hlog]; exact List.Subset.refl _
      invoked := fun _ => by rw [hlog]; exact List.Subset.refl _ }

theorem keys_candidates (jobs : List ι) : ((jobs.filterMap (s.candidate? conf t)).map (·.1)).Sublist jobs := by
  induction jobs with
  | nil => exact List.Sublist.refl _
  | cons j jobs ih =>
    rw [List.filterMap_cons]
    cases hc : s.candidate? conf t j with
    | none => exact ih.cons j
    | some e =>
      have hkey : e.1 = j := by
        simp only [candidate?] at hc
        split at hc
        · simp only [Option.ite_none_right_eq_some, Option.some.injEq] at hc
          rw [← hc.2]
        · cases hc
      rw [List.map_cons, hkey]
      exact ih.cons_cons j

theorem captured_of_candidate {e : ι × Option Nat} (h : s.candidate? conf t j = some e) {c : Nat} (hc : e.2 = some c) :
    c + conf.capturedJobTimeout ≤ s.now conf := by
  simp only [candidate?] at h
  split at h
  next row _ =>
    simp only [Option.ite_none_right_eq_some, Option.some.injEq] at h
    obtain ⟨⟨-, hcaptured⟩, rfl⟩ := h
    have hc : row.capturedAt = some c := hc
    rw [hc] at hcaptured
    simpa using hcaptured
  · cases h

section
variable [DecidableEq ι]

theorem Ok.poll (h : s.Ok conf) {jobs : List ι} : (s.poll conf t jobs).Ok conf := by
  unfold JobStore.poll
  split
  next hidle =>
    have hown := h.worker t
    simp only [WorkerOk, hidle.1] at hown
    refine h.setWorker ?_
    simp only [WorkerOk, workers_setWorker, if_true]
    refine ⟨fun j c hc => ?_, ?_, fun j hj => absurd (hown j) hj, by rintro _ _ ⟨⟩⟩
    · obtain ⟨j', -, hcandidate⟩ := List.mem_filterMap.mp hc
      exact captured_of_candidate hcandidate rfl
    · simpa using hidle.2.sublist (keys_candidates jobs)
  · exact h

theorem Ok.dispatch (h : s.Ok conf) : (s.dispatch conf t j).Ok conf := by
  unfold JobStore.dispatch
  split
  next executeAt hmemory =>
    split
    next hidle =>
      have hown := h.worker t
      simp only [WorkerOk, hidle.1] at hown
      have hok : (s.setWorker t (.capturing [(j, none)] [])).Ok conf := by
        refine h.setWorker ?_
        simp only [WorkerOk, workers_setWorker, if_true]
        exact ⟨fun j' c hc => by simp at hc, by simp, fun j hj => absurd (hown j) hj, by rintro _ _ ⟨⟩⟩
      exact hok.leaves rfl (Nat.le_refl _) rfl rfl
    · exact h
  · exact h

theorem Ok.schedule (h : s.Ok conf) {n : Nat} : (s.schedule conf t j n).Ok conf := by
  unfold JobStore.schedule
  split
  next hnew =>
    have hjob := h.job j
    obtain ⟨hrow, hstored⟩ := hjob.created hnew.2
    obtain ⟨hcommitted, hcaptures, hinvoked, hdeleted⟩ := hjob.fresh hstored
    have hnone : ∀ u, (s.rows j).own u = none := fun u => by simp [hrow, Cell.own]
    refine h.next (t := t) (fun j' => ?_) (fun u hu => ?_) ?_
    · by_cases hj : j' = j
      · subst hj
        refine { row := ?_, gone := ?_, fresh := ?_, created := ?_, past := ?_, apart := ?_, deleted := ?_ } <;>
          simp [setRow, setLog, Cell.write, hcommitted, hstored, hcaptures, hinvoked, hdeleted]
      · exact (h.job j').congr (Nat.le_refl _) (by simp [setRow, setLog, hj]) (by simp [setRow, setLog, hj])
          fun _ => by simp [setRow, setLog, hj]
    · have hfree : (s.rows j).blocker t = none := by simp [hrow, Cell.blocker]
      refine { worker := ?_, clock := Nat.le_refl _, own := fun j' => ?_, log := fun j' hj' => ?_,
               captures := fun j' => ?_, invoked := fun j' => ?_ }
      · simp [setRow, setLog, hu]
      all_goals by_cases hj : j' = j
      all_goals try simp [setRow, setLog, hj, Cell.own_write_of_ne hfree hu]
      · subst hj
        exact absurd (hnone u) hj'
      · exact sameRecord_of_eq (by simp)
    · simp only [WorkerOk, workers_setWorker, if_true]
      intro j' x hx
      by_cases hj : j' = j
      · subst hj
        simp only [setRow, setLog, rows_setWorker, Function.update_self, Cell.own_write, Option.some.injEq] at hx
        exact ⟨⟨_, hx.symm⟩, by simp [setLog, setRow], by simp [setLog, setRow, hstored]⟩
      · simp only [setRow, setLog, rows_setWorker, Function.update_of_ne hj] at hx
        have hworker := h.worker t
        unfold WorkerOk at hworker
        obtain hidle | hscheduling := hnew.1
        · rw [hidle] at hworker
          rw [hworker j'] at hx
          cases hx
        · rw [hscheduling] at hworker
          simpa [setRow, setLog, hj] using hworker j' x hx
  · exact h

omit [DecidableEq τ] [DecidableEq ι] in
/-- The captures of a job before are the timeout ago when a worker may capture it again. -/
theorem JobOk.later (h : s.JobOk conf j) {row : JobRow} (hrow : (s.rows j).committed = some row)
    (hcopy : ∀ c, row.capturedAt = some c → c + conf.capturedJobTimeout ≤ s.now conf) :
    ∀ c ∈ (s.log j).captures, c.recorded + conf.capturedJobTimeout ≤ s.now conf := by
  have hhead := (h.row row hrow).2.2
  intro c hc
  cases hcaptures : (s.log j).captures with
  | nil => simp [hcaptures] at hc
  | cons last before =>
    rw [hcaptures] at hhead hc
    have hlast := hcopy last.recorded hhead
    obtain rfl | hc := List.mem_cons.mp hc
    · exact hlast
    · have hapart := h.apart
      rw [hcaptures] at hapart
      have := List.rel_of_pairwise_cons hapart hc
      omega

theorem Ok.capture (h : s.Ok conf) {copy : Option Nat} {todo : List (ι × Option Nat)} {captured : List (ι × Capture τ)}
    (hworker : s.workers t = .capturing ((j, copy) :: todo) captured) :
    (s.capture conf t j copy todo captured).Ok conf := by
  have hok := h.worker t
  simp only [WorkerOk, hworker] at hok
  obtain ⟨htodo, hnodup, hown, hcapturing⟩ := hok
  rw [List.map_cons, List.cons_append, List.nodup_cons, List.mem_append, not_or] at hnodup
  obtain ⟨⟨htodo', hj⟩, hnodup⟩ := hnodup
  have hskip : (s.setWorker t (.capturing todo captured)).Ok conf := by
    refine h.setWorker ?_
    simp only [WorkerOk, workers_setWorker, if_true]
    exact ⟨fun j' c hc => htodo j' c (List.mem_cons_of_mem _ hc), hnodup, hown,
      fun j' c hc => (hcapturing j' c hc).congr (Nat.le_refl _) rfl (sameRecord_of_eq rfl)⟩
  unfold JobStore.capture
  split
  · exact h
  next hfree =>
    split
    next row hread =>
      split
      next hcopy =>
        have hfree : (s.rows j).blocker t = none := by simpa using hfree
        have hnone : (s.rows j).own t = none := by
          by_contra hne
          exact hj (hown j hne)
        have hcommitted : (s.rows j).committed = some row := by rw [← Cell.read_of_own_none hnone, hread]
        obtain ⟨hstored, hdeleted, -⟩ := (h.job j).row row hcommitted
        have hlater := (h.job j).later hcommitted fun c hc => htodo j c (by simp [← hcopy, hc])
        refine h.next (t := t) (fun j' => ?_) (fun u hu => ?_) ?_
        · refine (h.job j').congr (Nat.le_refl _) ?_ rfl fun hcreated => ?_
          · by_cases hj' : j' = j
            · subst hj'
              simp [setRow, Cell.write]
            · simp [setRow, hj']
          · by_cases hj' : j' = j
            · subst hj'
              simp [((h.job j').created hcreated).2] at hstored
            · simp [setRow, hj']
        · refine { worker := by simp [setRow, hu], clock := Nat.le_refl _, own := fun j' => ?_,
                   log := fun _ _ => sameRecord_of_eq rfl, captures := fun _ => List.Subset.refl _, invoked := fun _ => List.Subset.refl _ }
          by_cases hj' : j' = j
          · subst hj'
            simp [setRow, Cell.own_write_of_ne hfree hu]
          · simp [setRow, hj']
        · simp only [WorkerOk, workers_setWorker, if_true]
          refine ⟨fun j' c hc => htodo j' c (List.mem_cons_of_mem _ hc), ?_, fun j' hj' => ?_, fun j' c hc => ?_⟩
          · rw [List.map_append, ← List.append_assoc]
            refine ((List.perm_append_singleton j _).nodup_iff).mpr (List.nodup_cons.mpr ⟨?_, hnodup⟩)
            simp only [List.mem_append, not_or]
            exact ⟨htodo', hj⟩
          · by_cases hjj : j' = j
            · simp [hjj]
            · simp only [setRow, rows_setWorker, Function.update_of_ne hjj] at hj'
              simp [hown j' hj']
          · obtain hc | hc := List.mem_append.mp hc
            · have hjj : j' ≠ j := fun heq => hj (heq ▸ List.mem_map_of_mem hc)
              exact (hcapturing j' c hc).congr (Nat.le_refl _) (by simp [setRow, hjj]) (sameRecord_of_eq rfl)
            · obtain ⟨rfl, rfl⟩ : j' = j ∧ c = _ := by simpa using hc
              exact { worker := rfl, recorded := rfl, clock := Nat.le_refl _,
                      row := ⟨{ row with capturedAt := some (s.now conf) }, by simp [setRow], rfl⟩, stored := hstored, kept := hdeleted, later := hlater }
      · exact hskip
    · exact hskip

end

/-- The commit of a transaction leaves other workers alone, where it logs only for jobs that it has written. -/
theorem leaves_commit (hworker : s'.workers u = s.workers u) (hclock : s'.clock = s.clock) (hu : u ≠ t)
    (hrows : s'.rows = fun j => (s.rows j).commit t) (hlog : ∀ j, (s.rows j).own t = none → s'.log j = s.log j)
    (hcaptures : ∀ j, (s.log j).captures ⊆ (s'.log j).captures) (hinvoked : ∀ j, (s'.log j).invoked = (s.log j).invoked) :
    Leaves s s' u where
  worker := hworker
  clock := hclock ▸ Nat.le_refl _
  own j := by rw [hrows]; exact Cell.own_commit_of_ne hu
  log j hj := by
    refine sameRecord_of_eq (hlog j ?_)
    by_contra ht
    obtain ⟨v, hv⟩ := Option.ne_none_iff_exists'.mp hj
    obtain ⟨w, hw⟩ := Option.ne_none_iff_exists'.mp ht
    rw [Cell.own_eq_some_iff] at hv hw
    exact hu (Prod.mk.inj (Option.some.inj (hv.symm.trans hw))).1
  captures := hcaptures
  invoked j := (hinvoked j) ▸ List.Subset.refl _

theorem Ok.commitScheduled (h : s.Ok conf) (hworker : s.workers t = .scheduling) : (s.commitScheduled t).Ok conf := by
  have hok := h.worker t
  simp only [WorkerOk, hworker] at hok
  refine h.next (t := t) (fun j => ?_) (fun u hu => ?_) ?_
  · have hjob := h.job j
    cases hown : (s.rows j).own t with
    | none =>
      refine hjob.congr (Nat.le_refl _) ?_ ?_ fun hcreated => ?_
      · exact (Cell.committed_commit).trans (Cell.read_of_own_none hown)
      · simp [JobStore.commitScheduled, hown]
      · refine Cell.commit_of_ne fun hp => ?_
        simp [(hjob.created hcreated).1] at hp
    | some x =>
      obtain ⟨⟨executeAt, rfl⟩, hcreated, hstored⟩ := hok j x hown
      obtain ⟨-, hcaptures, hinvoked, hdeleted⟩ := hjob.fresh hstored
      have hcommitted : ((s.rows j).commit t).committed = some { executeAt } := by
        rw [Cell.committed_commit, Cell.read_of_own hown]
      refine { row := ?_, gone := ?_, fresh := ?_, created := ?_, past := ?_, apart := ?_, deleted := ?_ } <;>
        simp [JobStore.commitScheduled, hown, hcommitted, hcaptures, hdeleted, hcreated]
  · refine leaves_commit (by simp [JobStore.commitScheduled, hu]) rfl hu rfl (fun j hj => ?_) (fun j => ?_) fun j => ?_
    · simp [JobStore.commitScheduled, hj]
    · simp only [JobStore.commitScheduled]
      split <;> exact List.Subset.refl _
    · simp only [JobStore.commitScheduled]
      split <;> rfl
  · simp [WorkerOk, JobStore.commitScheduled]

section
variable [DecidableEq ι]

theorem Ok.commitCaptures (h : s.Ok conf) {captured : List (ι × Capture τ)}
    (hworker : s.workers t = .capturing [] captured) : (s.commitCaptures t captured).Ok conf := by
  have hok := h.worker t
  simp only [WorkerOk, hworker] at hok
  obtain ⟨-, hnodup, hown, hcapturing⟩ := hok
  have hnodup : (captured.map (·.1)).Nodup := by simpa using hnodup
  have hlookup : ∀ j, (s.rows j).own t = none → captured.lookup j = none := fun j hnone => by
    rw [List.lookup_eq_none_iff]
    intro e he
    have hne : j ≠ e.1 := fun heq => by
      obtain ⟨row, hrow, -⟩ := (hcapturing e.1 e.2 he).row
      rw [← heq, hnone] at hrow
      cases hrow
    simpa using hne
  refine h.next (t := t) (fun j => ?_) (fun u hu => ?_) ?_
  · have hjob := h.job j
    by_cases hnone : (s.rows j).own t = none
    · refine hjob.congr (Nat.le_refl _) ?_ ?_ fun hcreated => ?_
      · exact (Cell.committed_commit).trans (Cell.read_of_own_none hnone)
      · simp [JobStore.commitCaptures, JobLog.addCapture, hlookup j hnone]
      · refine Cell.commit_of_ne fun hp => ?_
        simp [(hjob.created hcreated).1] at hp
    · obtain ⟨e, he, rfl⟩ := List.mem_map.mp (hown j hnone)
      have hc := hcapturing e.1 e.2 he
      obtain ⟨row, hrow, hcapturedAt⟩ := hc.row
      have hlog : (s.commitCaptures t captured).log e.1 =
          { s.log e.1 with captures := e.2 :: (s.log e.1).captures } := by
        simp [JobStore.commitCaptures, JobLog.addCapture, Lists.lookup_of_mem hnodup he]
      have hcommitted : ((s.commitCaptures t captured).rows e.1).committed = some row := by
        simp only [JobStore.commitCaptures, Cell.committed_commit]
        exact Cell.read_of_own hrow
      refine { row := fun row' hrow' => ?_, gone := ?_, fresh := ?_, created := fun hcreated => ?_,
               past := fun c hmem => ?_, apart := ?_, deleted := ?_ } <;> rw [hlog] at *
      · obtain rfl : row = row' := Option.some.inj (hcommitted.symm.trans hrow')
        exact ⟨hc.stored, hc.kept, hcapturedAt⟩
      · rw [hcommitted]
        simp
      · simp [hc.stored]
      · have := (hjob.created hcreated).2
        simp [hc.stored] at this
      · obtain rfl | hmem := List.mem_cons.mp hmem
        · exact ⟨hc.recorded, hc.clock⟩
        · exact hjob.past c hmem
      · exact List.pairwise_cons.mpr ⟨hc.later, hjob.apart⟩
      · simp [hc.kept]
  · refine leaves_commit (by simp [JobStore.commitCaptures, hu]) rfl hu rfl (fun j hj => ?_) (fun j => ?_) fun j => ?_
    · simp [JobStore.commitCaptures, JobLog.addCapture, hlookup j hj]
    · simp only [JobStore.commitCaptures, JobLog.addCapture]
      split
      · exact List.subset_cons_self _ _
      · exact List.Subset.refl _
    · simp only [JobStore.commitCaptures, JobLog.addCapture]
      split <;> rfl
  · simp only [WorkerOk, JobStore.commitCaptures, workers_setWorker, if_true]
    refine ⟨fun j => Cell.own_commit, fun j hj => ?_⟩
    obtain ⟨e, he, rfl⟩ := List.mem_map.mp hj
    simp only [JobLog.addCapture, Lists.lookup_of_mem hnodup he]
    exact ⟨e.2, List.mem_cons_self, (hcapturing e.1 e.2 he).worker⟩

theorem Ok.invoke (h : s.Ok conf) {todo : List ι} (hworker : s.workers t = .invoking (j :: todo)) :
    ((s.setLog j { s.log j with invoked := t :: (s.log j).invoked }).setWorker t (.deleting j todo)).Ok conf := by
  have hok := h.worker t
  simp only [WorkerOk, hworker] at hok
  obtain ⟨hown, htodo⟩ := hok
  obtain ⟨c, hc, -⟩ := htodo j List.mem_cons_self
  refine h.next (t := t) (fun j' => ?_) (fun u hu => ?_) ?_
  · have hjob := h.job j'
    by_cases hj : j' = j
    · subst hj
      have hstored : (s.log j').stored := by
        by_contra hstored
        simp [(hjob.fresh (eq_false_of_ne_true hstored)).2.1] at hc
      refine { row := ?_, gone := ?_, fresh := ?_, created := ?_, past := ?_, apart := ?_, deleted := ?_ } <;>
        simp only [setLog, rows_setWorker, log_setWorker, clock_setWorker, Function.update_self]
      · exact hjob.row
      · exact hjob.gone
      · simp [hstored]
      · exact hjob.created
      · exact hjob.past
      · exact hjob.apart
      · exact fun w hw => ⟨(hjob.deleted w hw).1, List.mem_cons_of_mem _ (hjob.deleted w hw).2⟩
    · exact hjob.congr (Nat.le_refl _) rfl (by simp [setLog, hj]) fun _ => rfl
  · refine { worker := by simp [setLog, hu], clock := Nat.le_refl _, own := fun _ => rfl, log := fun j' _ => ?_,
             captures := fun j' => ?_, invoked := fun j' => ?_ } <;> by_cases hj : j' = j
    · subst hj
      constructor <;> simp [setLog]
    · exact sameRecord_of_eq (by simp [setLog, hj])
    · subst hj
      simp [setLog]
    · simp [setLog, hj]
    · subst hj
      simp [setLog]
    · simp [setLog, hj]
  · simp only [WorkerOk, workers_setWorker, if_true]
    refine ⟨hown, by simp [setLog], fun j' hj' => ?_⟩
    obtain ⟨c', hc', hw⟩ := htodo j' hj'
    refine ⟨c', ?_, hw⟩
    by_cases hjj : j' = j
    · subst hjj
      simpa [setLog] using hc'
    · simpa [setLog, hjj] using hc'

theorem Ok.delete (h : s.Ok conf) {todo : List ι} (hworker : s.workers t = .deleting j todo) :
    (s.delete t j todo).Ok conf := by
  have hok := h.worker t
  simp only [WorkerOk, hworker] at hok
  obtain ⟨hown, hinvoked, htodo⟩ := hok
  unfold JobStore.delete
  split
  · exact h
  next hfree =>
    have hpending : (s.rows j).pending = none := Cell.pending_of_free (by simpa using hfree) (hown j)
    split
    next hread =>
      rw [Cell.read_of_own_none (hown j)] at hread
      obtain ⟨row, hrow⟩ := Option.isSome_iff_exists.mp hread
      have hstored := ((h.job j).row row hrow).1
      refine h.next (t := t) (fun j' => ?_) (fun u hu => ?_) ?_
      · have hjob := h.job j'
        by_cases hj : j' = j
        · subst hj
          refine { row := ?_, gone := ?_, fresh := ?_, created := ?_, past := ?_, apart := ?_, deleted := ?_ } <;>
            simp only [setRow, setLog, rows_setWorker, log_setWorker, clock_setWorker, Function.update_self]
          · rintro _ ⟨⟩
          · exact fun _ _ => rfl
          · simp [hstored]
          · exact fun hcreated => absurd (hjob.created hcreated).2 (by simp [hstored])
          · exact hjob.past
          · exact hjob.apart
          · intro w hw
            obtain rfl := Option.some.inj hw
            exact ⟨htodo j' List.mem_cons_self, hinvoked⟩
        · exact hjob.congr (Nat.le_refl _) (by simp [setRow, setLog, hj]) (by simp [setRow, setLog, hj])
            fun _ => by simp [setRow, setLog, hj]
      · refine { worker := by simp [setRow, setLog, hu], clock := Nat.le_refl _, own := fun j' => ?_, log := fun j' hj' => ?_,
                 captures := fun j' => ?_, invoked := fun j' => ?_ } <;> by_cases hj : j' = j
        · subst hj
          simp [setRow, setLog, Cell.own, hpending]
        · simp [setRow, setLog, hj]
        · subst hj
          simp [Cell.own, hpending] at hj'
        · exact sameRecord_of_eq (by simp [setRow, setLog, hj])
        · subst hj
          simp [setRow, setLog]
        · simp [setRow, setLog, hj]
        · subst hj
          simp [setRow, setLog]
        · simp [setRow, setLog, hj]
      · simp only [WorkerOk, workers_setWorker, if_true]
        refine ⟨fun j' => ?_, fun j' hj' => ?_⟩
        · by_cases hj : j' = j
          · subst hj
            simp [setRow, setLog, Cell.own]
          · simpa [setRow, setLog, hj] using hown j'
        · obtain ⟨c, hc, hw⟩ := htodo j' (List.mem_cons_of_mem _ hj')
          refine ⟨c, ?_, hw⟩
          by_cases hj : j' = j
          · subst hj
            simpa [setRow, setLog] using hc
          · simpa [setRow, setLog, hj] using hc
    · refine h.setWorker ?_
      simpa [WorkerOk] using hown

end

theorem Ok.crash (h : s.Ok conf) : (s.crash t).Ok conf := by
  refine h.next (t := t) (fun j => ?_) (fun u hu => ?_) ?_
  · refine (h.job j).congr (Nat.le_refl _) Cell.committed_rollback rfl fun hcreated => Cell.rollback_of_ne fun hp => ?_
    simp [((h.job j).created hcreated).1] at hp
  · exact { worker := by simp [JobStore.crash, hu], clock := Nat.le_refl _, own := fun _ => Cell.own_rollback_of_ne hu,
            log := fun _ _ => sameRecord_of_eq rfl, captures := fun _ => List.Subset.refl _
            invoked := fun _ => List.Subset.refl _ }
  · simp [WorkerOk, JobStore.crash]

section
variable [DecidableEq ι]

theorem Ok.execute (h : s.Ok conf) : (s.execute conf t).Ok conf := by
  cases hworker : s.workers t with
  | idle =>
    simp only [JobStore.execute, hworker]
    exact h
  | scheduling =>
    simp only [JobStore.execute, hworker]
    exact h.commitScheduled hworker
  | capturing todo captured =>
    cases todo with
    | nil =>
      simp only [JobStore.execute, hworker]
      exact h.commitCaptures hworker
    | cons e todo =>
      simp only [JobStore.execute, hworker]
      exact h.capture hworker
  | invoking todo =>
    cases todo with
    | nil =>
      simp only [JobStore.execute, hworker]
      have hok := h.worker t
      simp only [WorkerOk, hworker] at hok
      refine h.setWorker ?_
      simpa [WorkerOk] using hok.1
    | cons j todo =>
      simp only [JobStore.execute, hworker]
      exact h.invoke hworker
  | deleting j todo =>
    simp only [JobStore.execute, hworker]
    exact h.delete hworker

theorem Ok.step (h : s.Ok conf) (e : JobEvent τ ι) : (s.step conf e).Ok conf := by
  cases e with
  | schedule t j n => exact h.schedule
  | dispatch t j => exact h.dispatch
  | forget j => exact h.leaves rfl (Nat.le_refl _) rfl rfl
  | poll t jobs => exact h.poll
  | run t => exact h.execute
  | crash t => exact h.crash
  | tick n => exact h.leaves rfl (Nat.le_add_right _ _) rfl rfl

end

theorem ok_start : Ok conf ({} : JobStore τ ι) where
  job _ :=
    { row := nofun, gone := nofun, fresh := fun _ => ⟨rfl, rfl, rfl, rfl⟩, created := fun _ => ⟨rfl, rfl⟩, past := nofun
      apart := .nil, deleted := nofun }
  worker _ := fun _ => rfl

/-! ### At most one invocation -/

/-- A row of the job is stored, maybe by a transaction that has not ended. -/
def Visible (s : JobStore τ ι) (j : ι) (row : JobRow) : Prop :=
  (s.rows j).committed = some row ∨ ∃ u, (s.rows j).own u = some (some row)

/-- The capture of the job has not timed out. -/
def InTime (conf : SchedulerConf) (s : JobStore τ ι) (j : ι) : Prop :=
  ∀ row c, s.Visible j row → row.capturedAt = some c → s.now conf < c + conf.capturedJobTimeout

end JobStore

/-- The jobs that a worker has captured and not invoked, after the one that it may have to delete. -/
def Worker.todo {τ ι : Type} : Worker τ ι → List ι
  | invoking todo | deleting _ todo => todo
  | _ => []

def Worker.jobs {τ ι : Type} : Worker τ ι → List ι
  | invoking todo => todo
  | deleting j todo => j :: todo
  | _ => []

namespace JobStore
variable {τ ι : Type} [DecidableEq τ] {conf : SchedulerConf} {s s' : JobStore τ ι} {t u : τ} {j : ι}

/-- The job is captured once and invoked once, at most. -/
structure Once (conf : SchedulerConf) (j : ι) (s : JobStore τ ι) : Prop where
  inTime : s.InTime conf j
  captures : (s.log j).captures.length ≤ 1
  invoked : (s.log j).invoked.length ≤ 1
  uncaptured : (s.log j).captures = [] → (s.log j).invoked = []
  todo : ∀ t, j ∈ (s.workers t).todo → (s.log j).invoked = []
  nodup : ∀ t, (s.workers t).jobs.Nodup

/-- A step that does not capture, invoke or store the job again. -/
theorem Once.congr (h : s.Once conf j) (hinTime : s'.InTime conf j)
    (hcaptures : (s'.log j).captures = (s.log j).captures) (hinvoked : (s'.log j).invoked = (s.log j).invoked)
    (htodo : ∀ t, (s'.workers t).todo ⊆ (s.workers t).todo ∧ (s'.workers t).jobs.Nodup) : s'.Once conf j where
  inTime := hinTime
  captures := hcaptures ▸ h.captures
  invoked := hinvoked ▸ h.invoked
  uncaptured := by rw [hcaptures, hinvoked]; exact h.uncaptured
  todo t ht := by rw [hinvoked]; exact h.todo t ((htodo t).1 ht)
  nodup t := (htodo t).2

/-- Rows of the job that are there after a step were there before, or are not captured. -/
theorem InTime.rows (h : s.InTime conf j) (hnow : s'.now conf = s.now conf)
    (hrows : ∀ row, s'.Visible j row → s.Visible j row ∨ row.capturedAt = none) : s'.InTime conf j := fun row c hrow hc => by
  rw [hnow]
  obtain hrow | hnone := hrows row hrow
  · exact h row c hrow hc
  · rw [hnone] at hc
    cases hc

theorem visible_of_read {row : JobRow} (h : (s.rows j).read t = some row) : s.Visible j row := by
  cases hown : (s.rows j).own t with
  | none =>
    rw [Cell.read_of_own_none hown] at h
    exact .inl h
  | some x =>
    rw [Cell.read_of_own hown] at h
    exact .inr ⟨t, h ▸ hown⟩

/-- The end of a transaction shows no new row. -/
theorem visible_of_commit {row : JobRow} (hrows : s'.rows j = (s.rows j).commit t) (h : s'.Visible j row) :
    s.Visible j row := by
  unfold Visible at h
  rw [hrows, Cell.committed_commit] at h
  obtain h | ⟨u, hu⟩ := h
  · exact visible_of_read h
  · by_cases hut : u = t
    · subst hut
      simp at hu
    · rw [Cell.own_commit_of_ne hut] at hu
      exact .inr ⟨u, hu⟩

theorem visible_of_rollback {row : JobRow} (hrows : s'.rows j = (s.rows j).rollback t) (h : s'.Visible j row) :
    s.Visible j row := by
  unfold Visible at h
  rw [hrows, Cell.committed_rollback] at h
  obtain h | ⟨u, hu⟩ := h
  · exact .inl h
  · by_cases hut : u = t
    · subst hut
      simp at hu
    · rw [Cell.own_rollback_of_ne hut] at hu
      exact .inr ⟨u, hu⟩

theorem visible_of_write {row row' : JobRow} (hfree : (s.rows j).blocker t = none)
    (hrows : s'.rows j = (s.rows j).write t (some row')) (h : s'.Visible j row) : s.Visible j row ∨ row = row' := by
  unfold Visible at h
  rw [hrows] at h
  obtain h | ⟨u, hu⟩ := h
  · exact .inl (.inl h)
  · by_cases hut : u = t
    · subst hut
      exact .inr (by simpa using hu.symm)
    · rw [Cell.own_write_of_ne hfree hut] at hu
      exact .inl (.inr ⟨u, hu⟩)

theorem visible_of_eq {row : JobRow} (hrows : s'.rows j = s.rows j) (h : s'.Visible j row) : s.Visible j row := by
  unfold Visible at h ⊢
  rwa [hrows] at h

/-- A worker that turns to something else has nothing to invoke. -/
theorem todo_setWorker (h : s.Once conf j) {w : Worker τ ι} (hw : w.todo ⊆ (s.workers t).todo) (hnodup : w.jobs.Nodup) :
    ∀ u, (if u = t then w else s.workers u).todo ⊆ (s.workers u).todo ∧ (if u = t then w else s.workers u).jobs.Nodup := by
  intro u
  split
  next hu =>
    subst hu
    exact ⟨hw, hnodup⟩
  · exact ⟨List.Subset.refl _, h.nodup u⟩

/-- A worker that has a job to invoke has captured it. -/
theorem captured_of_todo (h : s.Ok conf) (ht : j ∈ (s.workers t).todo) : ∃ c ∈ (s.log j).captures, c.worker = t := by
  have hok := h.worker t
  unfold WorkerOk at hok
  cases hworker : s.workers t with rw [hworker] at hok ht
  | invoking todo => exact hok.2 j ht
  | deleting j' todo => exact hok.2.2 j (List.mem_cons_of_mem _ ht)
  | idle | scheduling | capturing => cases ht

/-- A row that a worker may capture again has not been captured: the deadline has not passed. -/
theorem captures_nil (h : s.Ok conf) (honce : s.Once conf j) {row : JobRow} (hrow : (s.rows j).committed = some row)
    (hlater : ∀ c ∈ (s.log j).captures, c.recorded + conf.capturedJobTimeout ≤ s.now conf) : (s.log j).captures = [] := by
  cases hcaptures : (s.log j).captures with
  | nil => rfl
  | cons c before =>
    have hhead := ((h.job j).row row hrow).2.2
    rw [hcaptures] at hhead
    have := honce.inTime row c.recorded (.inl hrow) hhead
    have := hlater c (by simp [hcaptures])
    omega

theorem Once.setWorker (honce : s.Once conf j) {w : Worker τ ι} (hw : w.todo ⊆ (s.workers t).todo) (hnodup : w.jobs.Nodup) :
    (s.setWorker t w).Once conf j :=
  honce.congr (honce.inTime.rows rfl fun _ hvisible => .inl hvisible) rfl rfl
    (by simpa using todo_setWorker honce hw hnodup)

section
variable [DecidableEq ι] {j' : ι}

theorem Once.schedule (h : s.Ok conf) (honce : s.Once conf j) {n : Nat} : (s.schedule conf t j' n).Once conf j := by
  unfold JobStore.schedule
  split
  next hnew =>
    obtain ⟨hrow, -⟩ := (h.job j').created hnew.2
    have hfree : (s.rows j').blocker t = none := by simp [hrow, Cell.blocker]
    refine honce.congr (honce.inTime.rows rfl fun row hvisible => ?_) ?_ ?_ ?_
    · by_cases hj : j = j'
      · subst hj
        obtain hvisible | rfl := visible_of_write hfree (by simp [setRow, setLog]; rfl) hvisible
        · exact .inl hvisible
        · exact .inr rfl
      · exact .inl (visible_of_eq (by simp [setRow, setLog, hj]) hvisible)
    · by_cases hj : j = j'
      · subst hj
        simp [setLog]
      · simp [setLog, setRow, hj]
    · by_cases hj : j = j'
      · subst hj
        simp [setLog]
      · simp [setLog, setRow, hj]
    · simpa [setRow, setLog] using todo_setWorker honce (w := .scheduling) (List.nil_subset _) List.nodup_nil
  · exact honce

theorem Once.dispatch (honce : s.Once conf j) : (s.dispatch conf t j').Once conf j := by
  unfold JobStore.dispatch
  split
  · split
    · have hworker : (s.setWorker t (.capturing [(j', none)] [])).Once conf j :=
        honce.setWorker (List.nil_subset _) List.nodup_nil
      exact hworker.congr hworker.inTime rfl rfl fun u => ⟨List.Subset.refl _, hworker.nodup u⟩
    · exact honce
  · exact honce

theorem Once.poll (honce : s.Once conf j) {jobs : List ι} : (s.poll conf t jobs).Once conf j := by
  unfold JobStore.poll
  split
  · exact honce.setWorker (List.nil_subset _) List.nodup_nil
  · exact honce

theorem Once.capture (honce : s.Once conf j) {copy : Option Nat} {todo : List (ι × Option Nat)}
    {captured : List (ι × Capture τ)} : (s.capture conf t j' copy todo captured).Once conf j := by
  have hskip : (s.setWorker t (.capturing todo captured)).Once conf j := honce.setWorker (List.nil_subset _) List.nodup_nil
  unfold JobStore.capture
  split
  · exact honce
  next hfree =>
    split
    next row hread =>
      split
      · refine honce.congr (fun row' c hvisible hc => ?_) rfl rfl ?_
        · by_cases hj : j = j'
          · subst hj
            obtain hvisible | rfl := visible_of_write (by simpa using hfree) (by simp [setRow]; rfl) hvisible
            · exact honce.inTime row' c hvisible hc
            · obtain rfl := Option.some.inj hc
              have := conf.second_pos
              have := conf.second_le
              show s.now conf < s.now conf + conf.capturedJobTimeout
              omega
          · exact honce.inTime row' c (visible_of_eq (by simp [setRow, hj]) hvisible) hc
        · simpa [setRow] using todo_setWorker honce (w := .capturing _ _) (List.nil_subset _) List.nodup_nil
      · exact hskip
    · exact hskip

theorem Once.commitCaptures (h : s.Ok conf) (honce : s.Once conf j) {captured : List (ι × Capture τ)}
    (hworker : s.workers t = .capturing [] captured) : (s.commitCaptures t captured).Once conf j := by
  have hok := h.worker t
  simp only [WorkerOk, hworker] at hok
  obtain ⟨-, hnodup, -, hcapturing⟩ := hok
  have hnodup : (captured.map (·.1)).Nodup := by simpa using hnodup
  have hinTime : (s.commitCaptures t captured).InTime conf j :=
    honce.inTime.rows rfl fun row hvisible => .inl (visible_of_commit (t := t) rfl hvisible)
  have hjobs : ∀ u, ((s.commitCaptures t captured).workers u).jobs.Nodup := fun u => by
    simp only [JobStore.commitCaptures, workers_setWorker]
    split
    · exact hnodup
    · exact honce.nodup u
  by_cases hj : j ∈ captured.map (·.1)
  · obtain ⟨e, he, rfl⟩ := List.mem_map.mp hj
    have hc := hcapturing e.1 e.2 he
    have hlog : (s.commitCaptures t captured).log e.1 = { s.log e.1 with captures := e.2 :: (s.log e.1).captures } := by
      simp [JobStore.commitCaptures, JobLog.addCapture, Lists.lookup_of_mem hnodup he]
    obtain ⟨row, hrow⟩ : ∃ row, (s.rows e.1).committed = some row := by
      rw [← Option.ne_none_iff_exists']
      intro hgone
      have := (h.job e.1).gone hc.stored hgone
      simp [hc.kept] at this
    have hnow : e.2.recorded ≤ s.now conf := by
      rw [hc.recorded]
      exact conf.utcNowSec_mono hc.clock
    have hcaptures : (s.log e.1).captures = [] :=
      captures_nil h honce hrow fun c hmem => Nat.le_trans (hc.later c hmem) hnow
    have hinvoked := honce.uncaptured hcaptures
    refine { inTime := hinTime, captures := ?_, invoked := ?_, uncaptured := ?_, todo := fun u hu => ?_, nodup := hjobs } <;>
      rw [hlog]
    · simp [hcaptures]
    · exact honce.invoked
    · exact fun _ => hinvoked
    · exact hinvoked
  · have hlog : (s.commitCaptures t captured).log j = s.log j := by
      have hlookup : captured.lookup j = none := by
        rw [List.lookup_eq_none_iff]
        intro e he
        have hne : j ≠ e.1 := fun heq => hj (heq ▸ List.mem_map_of_mem he)
        simpa using hne
      simp [JobStore.commitCaptures, JobLog.addCapture, hlookup]
    refine { inTime := hinTime, captures := ?_, invoked := ?_, uncaptured := ?_, todo := fun u hu => ?_, nodup := hjobs } <;>
      rw [hlog]
    · exact honce.captures
    · exact honce.invoked
    · exact honce.uncaptured
    · refine honce.todo u ?_
      simp only [JobStore.commitCaptures, workers_setWorker] at hu
      split at hu
      · exact absurd hu hj
      · exact hu

omit [DecidableEq ι] in
theorem Once.commitScheduled (honce : s.Once conf j) : (s.commitScheduled t).Once conf j := by
  refine honce.congr (honce.inTime.rows rfl fun row hvisible => .inl (visible_of_commit (t := t) rfl hvisible)) ?_ ?_ ?_
  · simp only [JobStore.commitScheduled]
    split <;> rfl
  · simp only [JobStore.commitScheduled]
    split <;> rfl
  · simpa [JobStore.commitScheduled] using todo_setWorker honce (w := .idle) (List.nil_subset _) List.nodup_nil

theorem Once.invoke (h : s.Ok conf) (honce : s.Once conf j) {todo : List ι} (hworker : s.workers t = .invoking (j' :: todo)) :
    ((s.setLog j' { s.log j' with invoked := t :: (s.log j').invoked }).setWorker t (.deleting j' todo)).Once conf j := by
  have hnodup : (j' :: todo).Nodup := by
    have := honce.nodup t
    rwa [hworker] at this
  have hworkers := todo_setWorker (t := t) honce (w := .deleting j' todo)
    (by rw [hworker]; exact List.subset_cons_self _ _) hnodup
  by_cases hj : j = j'
  · subst hj
    have hnone : (s.log j).invoked = [] := honce.todo t (by rw [hworker]; exact List.mem_cons_self)
    refine { inTime := honce.inTime.rows rfl fun _ hvisible => .inl hvisible, captures := ?_, invoked := ?_
             uncaptured := fun hnil => ?_, todo := fun u hu => ?_, nodup := fun u => ?_ }
    · simpa [setLog] using honce.captures
    · simp [setLog, hnone]
    · have hok := h.worker t
      simp only [WorkerOk, hworker] at hok
      obtain ⟨c, hc, -⟩ := hok.2 j List.mem_cons_self
      have hnil : (s.log j).captures = [] := by simpa [setLog] using hnil
      simp [hnil] at hc
    · -- Nobody else has captured the job, and the worker has it once.
      exfalso
      simp only [setLog, workers_setWorker] at hu
      split at hu
      · exact (List.nodup_cons.mp hnodup).1 hu
      next hut =>
        obtain ⟨c, hc, hcw⟩ := captured_of_todo h hu
        obtain ⟨c', hc', hcw'⟩ := captured_of_todo (t := t) h (by rw [hworker]; exact List.mem_cons_self)
        have hle := honce.captures
        obtain ⟨c₀, hcaptures⟩ : ∃ c₀, (s.log j).captures = [c₀] := by
          rcases hcs : (s.log j).captures with _ | ⟨c₀, _ | ⟨c₁, cs⟩⟩
          · simp [hcs] at hc
          · exact ⟨c₀, rfl⟩
          · simp [hcs] at hle
        rw [hcaptures, List.mem_singleton] at hc hc'
        subst hc hc'
        exact hut (hcw.symm.trans hcw')
    · simpa [setLog] using (hworkers u).2
  · refine honce.congr (honce.inTime.rows rfl fun _ hvisible => .inl hvisible) ?_ ?_ ?_
    · simp [setLog, hj]
    · simp [setLog, hj]
    · simpa [setLog] using hworkers

theorem Once.delete (honce : s.Once conf j) {todo : List ι} (hworker : s.workers t = .deleting j' todo) :
    (s.delete t j' todo).Once conf j := by
  have hnodup : (j' :: todo).Nodup := by
    have := honce.nodup t
    rwa [hworker] at this
  unfold JobStore.delete
  split
  · exact honce
  · split
    · refine honce.congr (honce.inTime.rows rfl fun row hvisible => .inl ?_) ?_ ?_ ?_
      · by_cases hj : j = j'
        · subst hj
          simp [Visible, setRow, setLog, Cell.own] at hvisible
        · exact visible_of_eq (by simp [setRow, setLog, hj]) hvisible
      · by_cases hj : j = j'
        · subst hj
          simp [setRow, setLog]
        · simp [setRow, setLog, hj]
      · by_cases hj : j = j'
        · subst hj
          simp [setRow, setLog]
        · simp [setRow, setLog, hj]
      · simpa [setRow, setLog] using todo_setWorker (t := t) honce (w := .invoking todo)
          (by rw [hworker]; exact List.Subset.refl _) (List.nodup_cons.mp hnodup).2
    · exact honce.setWorker (List.nil_subset _) List.nodup_nil

omit [DecidableEq ι] in
theorem Once.crash (honce : s.Once conf j) : (s.crash t).Once conf j :=
  honce.congr (honce.inTime.rows rfl fun row hvisible => .inl (visible_of_rollback (t := t) rfl hvisible)) rfl rfl
    (by simpa [JobStore.crash] using todo_setWorker honce (w := .idle) (List.nil_subset _) List.nodup_nil)

theorem Once.execute (h : s.Ok conf) (honce : s.Once conf j) : (s.execute conf t).Once conf j := by
  cases hworker : s.workers t with
  | idle =>
    simp only [JobStore.execute, hworker]
    exact honce
  | scheduling =>
    simp only [JobStore.execute, hworker]
    exact honce.commitScheduled
  | capturing todo captured =>
    cases todo with
    | nil =>
      simp only [JobStore.execute, hworker]
      exact honce.commitCaptures h hworker
    | cons e todo =>
      simp only [JobStore.execute, hworker]
      exact honce.capture
  | invoking todo =>
    cases todo with
    | nil =>
      simp only [JobStore.execute, hworker]
      exact honce.setWorker (List.nil_subset _) List.nodup_nil
    | cons j' todo =>
      simp only [JobStore.execute, hworker]
      exact honce.invoke h hworker
  | deleting j' todo =>
    simp only [JobStore.execute, hworker]
    exact honce.delete hworker

end

/-- The row of the job is deleted before its capture times out. -/
def DeletedInTime (conf : SchedulerConf) (j : ι) (s : JobStore τ ι) : JobEvent τ ι → Prop
  | .tick n => InTime conf { s with clock := s.clock + n } j
  | _ => True

theorem Once.step [DecidableEq ι] (h : s.Ok conf) (honce : s.Once conf j) {e : JobEvent τ ι}
    (he : s.DeletedInTime conf j e) : (s.step conf e).Once conf j := by
  cases e with
  | schedule t j' n => exact honce.schedule h
  | dispatch t j' => exact honce.dispatch
  | forget j' => exact honce.congr honce.inTime rfl rfl fun u => ⟨List.Subset.refl _, honce.nodup u⟩
  | poll t jobs => exact honce.poll
  | run t => exact honce.execute h
  | crash t => exact honce.crash
  | tick n => exact honce.congr he rfl rfl fun u => ⟨List.Subset.refl _, honce.nodup u⟩

theorem once_start : Once conf j ({} : JobStore τ ι) where
  inTime row c hvisible := by simp [Visible, Cell.own] at hvisible
  captures := Nat.zero_le _
  invoked := Nat.zero_le _
  uncaptured _ := rfl
  todo t ht := by cases ht
  nodup t := List.nodup_nil

/-- A job row is deleted after an invocation by a worker that captured the job, and is there as long as the job is not
    invoked; the times in the row are the timeout apart, and so are the captures but for less than a second. -/
structure Kept (conf : SchedulerConf) (s : JobStore τ ι) : Prop where
  deleted : ∀ j w, (s.log j).deleted = some w → (∃ c ∈ (s.log j).captures, c.worker = w) ∧ w ∈ (s.log j).invoked
  stored : ∀ j, (s.log j).stored → (s.log j).invoked = [] → (s.rows j).committed.isSome
  apart : ∀ j, (s.log j).captures.Pairwise fun later earlier =>
    earlier.recorded + conf.capturedJobTimeout ≤ later.recorded ∧
      earlier.clock + conf.capturedJobTimeout < later.clock + conf.second

theorem Ok.kept (h : s.Ok conf) : s.Kept conf where
  deleted j := (h.job j).deleted
  stored j hstored hinvoked := by
    by_contra hgone
    have hdeleted := (h.job j).gone hstored (by simpa using hgone)
    obtain ⟨w, hw⟩ := Option.isSome_iff_exists.mp hdeleted
    have := ((h.job j).deleted w hw).2
    simp [hinvoked] at this
  apart j := by
    refine (h.job j).apart.imp_of_mem fun {later earlier} hlater hearlier hle => ⟨hle, ?_⟩
    have hl := (h.job j).past later hlater
    have he := (h.job j).past earlier hearlier
    have := conf.utcNowSec_le later.clock
    have := conf.lt_utcNowSec earlier.clock
    omega

/-- In every run, jobs are kept, and a job that is deleted in time is invoked once at most. -/
def KeepsJobs (τ ι : Type) [DecidableEq τ] [DecidableEq ι] (conf : SchedulerConf) : Prop :=
  (∀ s, (schedulerSystem τ ι conf).Reach (fun _ _ => True) s → s.Kept conf) ∧
    ∀ j s, (schedulerSystem τ ι conf).Reach (DeletedInTime conf j) s → (s.log j).invoked.length ≤ 1

end JobStore

/-- Scheduled jobs are neither lost nor run twice within a capture. -/
theorem scheduled_jobs_kept {τ ι : Type} [DecidableEq τ] [DecidableEq ι] (conf : SchedulerConf) :
    JobStore.KeepsJobs τ ι conf := by
  have hok : ∀ {guard} {s}, (schedulerSystem τ ι conf).Reach guard s → s.Ok conf := fun hreach =>
    hreach.invariant (fun _ hinit => hinit ▸ JobStore.ok_start) fun _ e _ h _ => h.step e
  refine ⟨fun s hreach => (hok hreach).kept, fun j s hreach => ?_⟩
  have honce : s.Once conf j :=
    hreach.invariant (fun _ hinit => hinit ▸ JobStore.once_start) fun _ _ hreach honce he => honce.step (hok hreach) he
  exact honce.invoked

/-- Each worker that has captured the job has invoked it before the capture times out. -/
def JobStore.InvokedInTime {τ ι : Type} (conf : SchedulerConf) (j : ι) (s : JobStore τ ι) : JobEvent τ ι → Prop
  | .tick n => ∀ c ∈ (s.log j).captures, c.worker ∉ (s.log j).invoked →
      conf.utcNowSec (s.clock + n) < c.recorded + conf.capturedJobTimeout
  | _ => True

/-- A second has ten ticks, and captures time out after a second. -/
def tenTicks : SchedulerConf := { second := 10, pickupJobAfter := 10, capturedJobTimeout := 10, second_pos := by decide, second_le := by decide }

/-- An instance crashes between the invocation and the deletion, and the job is invoked again, although both invocations
    end at once. Captures late in one second and early in another one are closer than the timeout. -/
theorem job_invoked_twice :
    (¬∀ j s, (schedulerSystem (Fin 3) (Fin 1) tenTicks).Reach (JobStore.InvokedInTime tenTicks j) s →
      (s.log j).invoked.length ≤ 1) ∧
    ¬∀ s, (schedulerSystem (Fin 3) (Fin 1) tenTicks).Reach (fun _ _ => True) s → ∀ j, (s.log j).captures.Pairwise
      fun later earlier => earlier.clock + tenTicks.capturedJobTimeout ≤ later.clock := by
  let events : List (JobEvent (Fin 3) (Fin 1)) :=
    [.schedule 0 0 0, .run 0, .dispatch 1 0, .run 1, .run 1, .run 1, .crash 1, .tick 20, .poll 2 [0], .run 2, .run 2, .run 2]
  let close : List (JobEvent (Fin 3) (Fin 1)) :=
    [.schedule 0 0 0, .run 0, .tick 39, .dispatch 1 0, .run 1, .run 1, .crash 1, .tick 1, .poll 2 [0], .run 2, .run 2]
  refine ⟨fun h => ?_, fun h => ?_⟩
  · have hreach : (schedulerSystem (Fin 3) (Fin 1) tenTicks).Reach (JobStore.InvokedInTime tenTicks 0)
        ((schedulerSystem (Fin 3) (Fin 1) tenTicks).run {} events) := by
      refine .run (.init rfl) ⟨trivial, trivial, trivial, trivial, trivial, trivial, trivial, ?_, trivial, trivial, trivial,
        trivial, trivial⟩
      unfold JobStore.InvokedInTime
      decide
    exact absurd (h 0 _ hreach) (by decide)
  · have hreach : (schedulerSystem (Fin 3) (Fin 1) tenTicks).Reach (fun _ _ => True)
        ((schedulerSystem (Fin 3) (Fin 1) tenTicks).run {} close) :=
      .run (.init rfl) (by simp [close, System.Guarded])
    exact absurd (h _ hreach 0) (by decide)

end Mistral
