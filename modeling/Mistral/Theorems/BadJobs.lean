import Mathlib.Data.List.TakeWhile
import Mistral.Scheduler.JobPasses
import Mistral.Lib.Excepts

/-! What jobs that cannot be prepared, or whose calls raise, do to the other jobs of their batch. -/

namespace Mistral
namespace JobPasses

/-! ### Batches -/

section
variable {α : Type} (good : α → Bool) (sound : α → Prop) {l : List α}

/-- A loop that the first bad element ends comes to all sound ones iff none of them is behind a bad one. -/
theorem forall_mem_takeWhile_iff (hsound : ∀ a, sound a → good a) (hl : l.Nodup) :
    (∀ a ∈ l, sound a → a ∈ l.takeWhile good) ↔ l.Pairwise fun a b => good a ∨ ¬sound b := by
  induction l with
  | nil => simp
  | cons a l ih =>
    obtain ⟨ha, hl⟩ := List.nodup_cons.mp hl
    rw [List.pairwise_cons, ← ih hl, List.forall_mem_cons, List.takeWhile_cons]
    cases hgood : good a with
    | true =>
      have hne : ∀ b ∈ l, b ≠ a := fun b hb hba => ha (hba ▸ hb)
      simp +contextual [hne]
    | false =>
      have hnot : ¬sound a := fun h => by simp [hsound a h] at hgood
      simp +contextual [hnot]

end

section
variable {α β κ : Type} [DecidableEq κ] {l : List α} (id : α → κ) {key : β → κ} {f : α → List β} {a : α}

/-- Of what each element contributes under its own key, a key has what its element contributes. -/
theorem filter_flatMap_eq (hl : (l.map id).Nodup) (hkey : ∀ a, ∀ b ∈ f a, key b = id a) (ha : a ∈ l) :
    (l.flatMap f).filter (key · = id a) = f a := by
  induction l with
  | nil => cases ha
  | cons b l ih =>
    obtain ⟨hb, hl⟩ := List.nodup_cons.mp hl
    rw [List.flatMap_cons, List.filter_append]
    rcases List.mem_cons.mp ha with rfl | ha
    · have hself : (f a).filter (key · = id a) = f a :=
        List.filter_eq_self.mpr fun x hx => decide_eq_true (hkey a x hx)
      have hnone : (l.flatMap f).filter (key · = id a) = [] := by
        rw [List.filter_eq_nil_iff]
        intro x hx hxa
        obtain ⟨c, hc, hx⟩ := List.mem_flatMap.mp hx
        exact hb (List.mem_map.mpr ⟨c, hc, (hkey c x hx).symm.trans (of_decide_eq_true hxa)⟩)
      rw [hself, hnone, List.append_nil]
    · have hnone : (f b).filter (key · = id a) = [] := by
        rw [List.filter_eq_nil_iff]
        intro x hx hxa
        exact hb (List.mem_map.mpr ⟨a, ha, (of_decide_eq_true hxa).symm.trans (hkey b x hx)⟩)
      rw [hnone, List.nil_append, ih hl ha]

theorem limit_sublist (batchSize : Option Nat) (l : List α) : (limit batchSize l).Sublist l := by
  cases batchSize with
  | none => exact .refl l
  | some n => exact List.take_sublist n l

omit [DecidableEq κ] in
/-- A batch has some of the rows that match, each once. -/
theorem batch_spec (hl : (l.map id).Nodup) (batchSize : Option Nat) (p : α → Bool) (le : α → α → Prop) [DecidableRel le] :
    ((limit batchSize ((l.filter p).insertionSort le)).map id).Nodup ∧
      ∀ a ∈ limit batchSize ((l.filter p).insertionSort le), a ∈ l ∧ p a := by
  have hsub := limit_sublist batchSize ((l.filter p).insertionSort le)
  have hperm := List.perm_insertionSort le (l.filter p)
  refine ⟨?_, fun a ha => List.mem_filter.mp (hperm.mem_iff.mp (hsub.subset ha))⟩
  exact ((hperm.map id).nodup_iff.mpr (hl.sublist (List.filter_sublist.map id))).sublist (hsub.map id)

end

/-! ### Targets -/

variable {Ctx Arg Obj Exc : Type} (code : Installed Ctx Arg Obj Exc)

/-- The preparation of the job does not raise. -/
def Prepares (job : String) (t : Target Ctx Arg) : Prop := raises (prepareTarget code job t) = false

instance (job : String) (t : Target Ctx Arg) : Decidable (Prepares code job t) :=
  inferInstanceAs (Decidable (raises (prepareTarget code job t) = false))

/-- Neither the preparation of the job nor its call raises. -/
def Sound (job : String) (t : Target Ctx Arg) : Prop :=
  ∃ p, prepareTarget code job t = .ok p ∧ raises (callTarget code p) = false

/-- Of all that a pass has done, with the job it has made one call, which did not raise, and has then deleted the job. -/
structure Spared (events : List Done) (left : List String) (job : String) : Prop where
  done : events.filter (·.job = job) = [.invoked job false, .deleted job]
  gone : job ∉ left

variable {code} {job : String} {t : Target Ctx Arg} {p : Prepared Ctx Arg Obj}

theorem prepares_iff : Prepares code job t ↔ ∃ p, prepareTarget code job t = .ok p := by
  unfold Prepares
  cases prepareTarget code job t with
  | error e => exact ⟨nofun, fun ⟨_, h⟩ => nomatch h⟩
  | ok p => exact ⟨fun _ => ⟨p, rfl⟩, fun _ => rfl⟩

theorem Sound.prepares (h : Sound code job t) : Prepares code job t :=
  have ⟨p, hp, _⟩ := h
  prepares_iff.mpr ⟨p, hp⟩

/-- What is prepared is the job itself. -/
theorem prepareTarget_job (h : prepareTarget code job t = .ok p) : p.job = job := by
  obtain ⟨m, -, h⟩ := bind_ok.mp h
  obtain ⟨args, -, h⟩ := bind_ok.mp h
  cases h
  rfl

theorem invoke_of_sound (h : Sound code job t) (hp : prepareTarget code job t = .ok p) :
    invoke code p = .invoked job false := by
  obtain ⟨q, hq, hcall⟩ := h
  cases hp.symm.trans hq
  rw [invoke, hcall, prepareTarget_job hp]

variable (code) in
/-- What the call of a job that can be prepared adds to the log. -/
def called (job : String) (t : Target Ctx Arg) : List Done :=
  match prepareTarget code job t with
  | .ok p => [invoke code p]
  | .error _ => []

theorem called_eq (hp : prepareTarget code job t = .ok p) : called code job t = [invoke code p] := by
  rw [called, hp]

theorem called_of_sound (h : Sound code job t) : called code job t = [.invoked job false] := by
  obtain ⟨p, hp, -⟩ := id h
  rw [called_eq hp, invoke_of_sound h hp]

theorem called_job {d : Done} (hd : d ∈ called code job t) : d.job = job := by
  unfold called at hd
  split at hd
  · next p hp =>
    cases List.mem_singleton.mp hd
    exact prepareTarget_job hp
  · cases hd

/-! ### The legacy scheduler -/

namespace DelayedCalls
variable (code) (conf : SchedulerConf) (batchSize : Option Nat) (s : DelayedCalls Ctx Arg)

/-- A pass calls every sound job of its batch once, and then deletes it. -/
def PassOk : Prop :=
  ∃ events, (s.processDelayedCalls code conf batchSize).log = s.log ++ events ∧
    ∀ c ∈ s.getDelayedCallsToStart conf batchSize, Sound code c.id c.toTarget →
      Spared events ((s.processDelayedCalls code conf batchSize).calls.map (·.id)) c.id

/-- No sound job is captured and has not been invoked. -/
def NoneStarves : Prop :=
  ∀ c ∈ s.calls, c.processing → Sound code c.id c.toTarget → ∃ raised, .invoked c.id raised ∈ s.log

/-- In the batch of the next pass every job can be prepared, or no job is sound. -/
def Harmless : Prop :=
  ∀ b ∈ s.getDelayedCallsToStart conf batchSize, ∀ c ∈ s.getDelayedCallsToStart conf batchSize,
    Prepares code b.id b.toTarget ∨ ¬Sound code c.id c.toTarget

/-- Calls have different ids, and only calls that are not sound stay in processing. -/
structure Ok : Prop where
  ids : (s.calls.map (·.id)).Nodup
  captured : ∀ c ∈ s.calls, c.processing → ¬Sound code c.id c.toTarget

variable {code conf batchSize s}

theorem captureCalls_ids : (s.captureCalls conf batchSize).calls.map (·.id) = s.calls.map (·.id) := by
  rw [captureCalls, List.map_map]
  refine List.map_congr_left fun c _ => ?_
  rw [Function.comp_apply]
  split <;> rfl

variable (conf batchSize) in
theorem batch_ok (hids : (s.calls.map (·.id)).Nodup) :
    ((s.getDelayedCallsToStart conf batchSize).map (·.id)).Nodup ∧
      ∀ c ∈ s.getDelayedCallsToStart conf batchSize, c ∈ s.calls := by
  obtain ⟨hnodup, hmem⟩ := batch_spec (fun c : DelayedCall Ctx Arg => c.id) hids batchSize
    (fun c => c.executionTime < conf.utcNowSec s.clock + conf.second ∧ !c.processing)
    fun c d => c.executionTime ≤ d.executionTime
  exact ⟨hnodup, fun c hc => (hmem c hc).1⟩

/-- If the preparation of some job raises, the batch is captured, and that is all. -/
theorem processDelayedCalls_raises {b : DelayedCall Ctx Arg} (hb : b ∈ s.getDelayedCallsToStart conf batchSize)
    (hraises : ¬Prepares code b.id b.toTarget) :
    s.processDelayedCalls code conf batchSize = s.captureCalls conf batchSize := by
  unfold processDelayedCalls
  cases h : prepareCalls code (s.getDelayedCallsToStart conf batchSize) with
  | error e => simp only [h]
  | ok prepared =>
    obtain ⟨i, hi, rfl⟩ := List.getElem_of_mem hb
    have hprepared := mapM_ok.mp h
    have hi' : i < prepared.length := hprepared.length_eq ▸ hi
    exact absurd (prepares_iff.mpr ⟨prepared[i], hprepared.get hi hi'⟩) hraises

theorem prepareCalls_ok {dbCalls : List (DelayedCall Ctx Arg)} (h : ∀ c ∈ dbCalls, Prepares code c.id c.toTarget) :
    ∃ prepared, prepareCalls code dbCalls = .ok prepared ∧
      prepared.map (invoke code) = dbCalls.flatMap fun c => called code c.id c.toTarget := by
  obtain ⟨prepared, hprepared⟩ := exists_mapM_ok fun c hc => prepares_iff.mp (h c hc)
  refine ⟨prepared, hprepared, ?_⟩
  have hforall := mapM_ok.mp hprepared
  clear hprepared h
  induction hforall with
  | nil => rfl
  | cons hp _ ih => rw [List.map_cons, List.flatMap_cons, ih, called_eq hp, List.singleton_append]

/-- If no preparation raises, the batch is called and then deleted. -/
theorem processDelayedCalls_eq
    (h : ∀ c ∈ s.getDelayedCallsToStart conf batchSize, Prepares code c.id c.toTarget) :
    s.processDelayedCalls code conf batchSize =
      { s with
        calls := s.calls.filter (·.id ∉ (s.getDelayedCallsToStart conf batchSize).map (·.id))
        log := s.log ++ ((s.getDelayedCallsToStart conf batchSize).flatMap (fun c => called code c.id c.toTarget) ++
          (s.getDelayedCallsToStart conf batchSize).map fun c => .deleted c.id) } := by
  obtain ⟨prepared, hprepared, hevents⟩ := prepareCalls_ok h
  have hfilter : (s.captureCalls conf batchSize).calls.filter
      (·.id ∉ (s.getDelayedCallsToStart conf batchSize).map (·.id)) =
      s.calls.filter (·.id ∉ (s.getDelayedCallsToStart conf batchSize).map (·.id)) := by
    rw [captureCalls]
    generalize (s.getDelayedCallsToStart conf batchSize).map (·.id) = ids
    induction s.calls with
    | nil => rfl
    | cons c calls ih => by_cases hc : c.id ∈ ids <;> simpa [hc] using ih
  simp only [processDelayedCalls, hprepared, deleteCalls, invokeCalls, hevents, hfilter, List.append_assoc]
  rfl

/-- A pass spares the sound jobs of its batch iff its batch is harmless. -/
theorem passOk_iff (hids : (s.calls.map (·.id)).Nodup) :
    s.PassOk code conf batchSize ↔ s.Harmless code conf batchSize := by
  obtain ⟨hnodup, hmem⟩ := batch_ok conf batchSize hids
  constructor
  · rintro ⟨events, -, hspared⟩ b hb c hc
    by_contra hbad
    obtain ⟨hraises, hsound⟩ := not_or.mp hbad
    have hgone := (hspared c hc (not_not.mp hsound)).gone
    rw [processDelayedCalls_raises hb hraises, captureCalls_ids] at hgone
    exact hgone (List.mem_map_of_mem (hmem c hc))
  · intro hharmless
    by_cases hall : ∀ b ∈ s.getDelayedCallsToStart conf batchSize, Prepares code b.id b.toTarget
    · rw [PassOk, processDelayedCalls_eq hall]
      refine ⟨_, rfl, fun c hc hsound => ⟨?_, ?_⟩⟩
      · rw [List.filter_append, List.map_eq_flatMap, filter_flatMap_eq (fun c : DelayedCall Ctx Arg => c.id) hnodup
          (fun a b hb => called_job hb) hc, filter_flatMap_eq (fun c : DelayedCall Ctx Arg => c.id) hnodup
          (fun a b hb => by rw [List.mem_singleton.mp hb]; rfl) hc, called_of_sound hsound]
        rfl
      · simp only [List.mem_map, List.mem_filter, decide_eq_true_eq, not_exists, not_and]
        exact fun d hd hdc => hd.2 c hc hdc.symm
    · simp only [not_forall] at hall
      obtain ⟨b, hb, hraises⟩ := hall
      refine ⟨[], ?_, fun c hc hsound => absurd hsound ((hharmless b hb c hc).resolve_left hraises)⟩
      rw [processDelayedCalls_raises hb hraises, List.append_nil]
      rfl

theorem Ok.schedule (h : s.Ok code) (c : DelayedCall Ctx Arg) : (s.schedule c).Ok code := by
  unfold DelayedCalls.schedule
  split
  · exact h
  · next hid =>
    refine ⟨List.nodup_cons.mpr ⟨hid, h.ids⟩, fun d hd hprocessing => ?_⟩
    rcases List.mem_cons.mp hd with rfl | hd
    · cases hprocessing
    · exact h.captured d hd hprocessing

/-- After a pass over a harmless batch no sound job is captured. -/
theorem Ok.pass (h : s.Ok code) (hharmless : s.Harmless code conf batchSize) :
    (s.processDelayedCalls code conf batchSize).Ok code := by
  by_cases hall : ∀ b ∈ s.getDelayedCallsToStart conf batchSize, Prepares code b.id b.toTarget
  · rw [processDelayedCalls_eq hall]
    exact ⟨h.ids.sublist (List.filter_sublist.map _), fun c hc => h.captured c (List.mem_filter.mp hc).1⟩
  · simp only [not_forall] at hall
    obtain ⟨b, hb, hraises⟩ := hall
    rw [processDelayedCalls_raises hb hraises]
    refine ⟨by rw [captureCalls_ids]; exact h.ids, fun c hc => ?_⟩
    obtain ⟨d, hd, rfl⟩ := List.mem_map.mp hc
    by_cases hcaptured : d.id ∈ (s.getDelayedCallsToStart conf batchSize).map (·.id)
    · rw [if_pos hcaptured]
      intro _
      obtain ⟨e, he, hed⟩ := List.mem_map.mp hcaptured
      obtain rfl := List.inj_on_of_nodup_map h.ids ((batch_ok conf batchSize h.ids).2 e he) hd hed
      exact (hharmless b hb e he).resolve_left hraises
    · rw [if_neg hcaptured]
      exact h.captured d hd

theorem Ok.step (h : s.Ok code) (e : PassEvent (DelayedCall Ctx Arg))
    (hharmless : e = .pass → s.Harmless code conf batchSize) : (s.step code conf batchSize e).Ok code := by
  cases e with
  | schedule c => exact h.schedule c
  | tick n => exact ⟨h.ids, h.captured⟩
  | pass => exact h.pass (hharmless rfl)

theorem Ok.noneStarves (h : s.Ok code) : s.NoneStarves code := fun c hc hprocessing hsound =>
  absurd hsound (h.captured c hc hprocessing)

end DelayedCalls

/-! ### The default scheduler -/

namespace ScheduledJobs
variable (code) (conf : SchedulerConf) (batchSize : Option Nat) (s : ScheduledJobs Ctx Arg)

/-- A pass calls every sound job of its batch once, and then deletes it. -/
def PassOk : Prop :=
  ∃ events, (s.processStoreJobs code conf batchSize).log = s.log ++ events ∧
    ∀ j ∈ s.getScheduledJobsToStart conf batchSize, Sound code j.id j.toTarget →
      Spared events ((s.processStoreJobs code conf batchSize).jobs.map (·.id)) j.id

/-- No sound job is captured and has not been invoked. -/
def NoneStarves : Prop :=
  ∀ j ∈ s.jobs, j.capturedAt.isSome → Sound code j.id j.toTarget → ∃ raised, .invoked j.id raised ∈ s.log

/-- In the batch of the next pass no sound job is behind one that cannot be prepared. -/
def Harmless : Prop :=
  (s.getScheduledJobsToStart conf batchSize).Pairwise fun b j =>
    Prepares code b.id b.toTarget ∨ ¬Sound code j.id j.toTarget

/-- Jobs have different ids, and only jobs that are not sound stay captured. -/
structure Ok : Prop where
  ids : (s.jobs.map (·.id)).Nodup
  captured : ∀ j ∈ s.jobs, j.capturedAt.isSome → ¬Sound code j.id j.toTarget

/-- The jobs that the loop of a pass comes to. -/
def reached (jobs : List (ScheduledJob Ctx Arg)) : List (ScheduledJob Ctx Arg) :=
  jobs.takeWhile fun j => Prepares code j.id j.toTarget

/-- What the loop adds to the log for a job. -/
def events (j : ScheduledJob Ctx Arg) : List Done := called code j.id j.toTarget ++ [.deleted j.id]

variable {code conf batchSize s}

/-- The loop calls and deletes the jobs before the first one that cannot be prepared. -/
theorem runJobs_eq {jobs : List (ScheduledJob Ctx Arg)} (hnodup : (jobs.map (·.id)).Nodup)
    (hstored : ∀ j ∈ jobs, j.id ∈ s.jobs.map (·.id)) :
    s.runJobs code jobs = { s with
      jobs := s.jobs.filter (·.id ∉ (reached code jobs).map (·.id))
      log := s.log ++ (reached code jobs).flatMap (events code) } := by
  induction jobs generalizing s with
  | nil => simp [runJobs, reached]
  | cons j jobs ih =>
    obtain ⟨hj, hnodup⟩ := List.nodup_cons.mp hnodup
    obtain ⟨hjstored, hstored⟩ := List.forall_mem_cons.mp hstored
    unfold runJobs
    cases hp : prepareTarget code j.id j.toTarget with
    | error e =>
      have hraises : ¬Prepares code j.id j.toTarget := fun h => by
        obtain ⟨p, hp'⟩ := prepares_iff.mp h
        cases hp.symm.trans hp'
      simp [reached, hraises]
    | ok p =>
      have hprepares : Prepares code j.id j.toTarget := prepares_iff.mpr ⟨p, hp⟩
      have hreached : reached code (j :: jobs) = j :: reached code jobs := by simp [reached, hprepares]
      simp only [deleteScheduledJob?, if_pos hjstored]
      rw [ih hnodup, hreached]
      · simp only [List.filter_filter, List.flatMap_cons, events, called_eq hp, List.map_cons, List.mem_cons, not_or,
          Bool.decide_and, List.append_assoc, ne_eq, Bool.and_comm]
      · intro i hi
        obtain ⟨r, hr, hri⟩ := List.mem_map.mp (hstored i hi)
        refine List.mem_map.mpr ⟨r, List.mem_filter.mpr ⟨hr, decide_eq_true fun hrj => hj ?_⟩, hri⟩
        exact List.mem_map.mpr ⟨i, hi, hri.symm.trans hrj⟩

theorem captureScheduledJobs_ids : (s.captureScheduledJobs conf batchSize).jobs.map (·.id) = s.jobs.map (·.id) := by
  rw [captureScheduledJobs, List.map_map]
  refine List.map_congr_left fun j _ => ?_
  rw [Function.comp_apply]
  split <;> rfl

variable (conf batchSize) in
theorem batch_ok (hids : (s.jobs.map (·.id)).Nodup) :
    ((s.getScheduledJobsToStart conf batchSize).map (·.id)).Nodup ∧
      ∀ j ∈ s.getScheduledJobsToStart conf batchSize, j ∈ s.jobs := by
  obtain ⟨hnodup, hmem⟩ := batch_spec (fun j : ScheduledJob Ctx Arg => j.id) hids batchSize
    (fun j => j.executeAt + conf.pickupJobAfter < conf.utcNowSec s.clock ∧
      j.capturedAt.all (· + conf.capturedJobTimeout ≤ conf.utcNowSec s.clock))
    fun i j => i.executeAt ≤ j.executeAt
  exact ⟨hnodup, fun j hj => (hmem j hj).1⟩

theorem processStoreJobs_eq (hids : (s.jobs.map (·.id)).Nodup) :
    s.processStoreJobs code conf batchSize = { s with
      jobs := (s.captureScheduledJobs conf batchSize).jobs.filter
        (·.id ∉ (reached code (s.getScheduledJobsToStart conf batchSize)).map (·.id))
      log := s.log ++ (reached code (s.getScheduledJobsToStart conf batchSize)).flatMap (events code) } := by
  obtain ⟨hnodup, hmem⟩ := batch_ok conf batchSize hids
  rw [processStoreJobs, runJobs_eq hnodup]
  · rfl
  · intro j hj
    rw [captureScheduledJobs_ids]
    exact List.mem_map_of_mem (hmem j hj)

/-- A pass spares the sound jobs of its batch iff none of them is behind one that cannot be prepared. -/
theorem passOk_iff (hids : (s.jobs.map (·.id)).Nodup) :
    s.PassOk code conf batchSize ↔ s.Harmless code conf batchSize := by
  obtain ⟨hnodup, hmem⟩ := batch_ok conf batchSize hids
  rw [PassOk, processStoreJobs_eq hids, Harmless]
  have hiff := forall_mem_takeWhile_iff (fun j => decide (Prepares code j.id j.toTarget))
    (fun j : ScheduledJob Ctx Arg => Sound code j.id j.toTarget) (fun j hj => decide_eq_true hj.prepares) hnodup.of_map
  simp only [decide_eq_true_eq] at hiff
  rw [← hiff]
  constructor
  · rintro ⟨_, _, hspared⟩ j hj hsound
    by_contra hnot
    have hstored : j.id ∈ (s.captureScheduledJobs conf batchSize).jobs.map (·.id) := by
      rw [captureScheduledJobs_ids]
      exact List.mem_map_of_mem (hmem j hj)
    obtain ⟨r, hr, hrj⟩ := List.mem_map.mp hstored
    refine (hspared j hj hsound).gone (List.mem_map.mpr ⟨r, List.mem_filter.mpr ⟨hr, decide_eq_true fun hreached => ?_⟩, hrj⟩)
    obtain ⟨i, hi, hir⟩ := List.mem_map.mp hreached
    obtain rfl := List.inj_on_of_nodup_map hnodup ((List.takeWhile_sublist _).subset hi) hj (hir.trans hrj)
    exact hnot hi
  · refine fun h => ⟨_, rfl, fun j hj hsound => ⟨?_, ?_⟩⟩
    · have hreached : ((reached code (s.getScheduledJobsToStart conf batchSize)).map (·.id)).Nodup :=
        hnodup.sublist ((List.takeWhile_sublist _).map _)
      rw [filter_flatMap_eq (fun j : ScheduledJob Ctx Arg => j.id) hreached ?_ (h j hj hsound), events,
        called_of_sound hsound]
      · rfl
      · intro i d hd
        rcases List.mem_append.mp hd with hd | hd
        · exact called_job hd
        · rw [List.mem_singleton.mp hd]
          rfl
    · simp only [List.mem_map, List.mem_filter, decide_eq_true_eq, not_exists, not_and]
      exact fun r hr hrj => hr.2 j (h j hj hsound) hrj.symm

theorem Ok.persistJob (h : s.Ok code) (job : ScheduledJob Ctx Arg) : (s.persistJob job).Ok code := by
  unfold ScheduledJobs.persistJob
  split
  · exact h
  · next hid =>
    refine ⟨List.nodup_cons.mpr ⟨hid, h.ids⟩, fun j hj hcaptured => ?_⟩
    rcases List.mem_cons.mp hj with rfl | hj
    · cases hcaptured
    · exact h.captured j hj hcaptured

/-- After a pass over a harmless batch no sound job is captured. -/
theorem Ok.pass (h : s.Ok code) (hharmless : s.Harmless code conf batchSize) :
    (s.processStoreJobs code conf batchSize).Ok code := by
  obtain ⟨events, -, hspared⟩ := (passOk_iff h.ids).mpr hharmless
  rw [processStoreJobs_eq h.ids] at hspared ⊢
  have hids : ((s.captureScheduledJobs conf batchSize).jobs.map (·.id)).Nodup := by
    rw [captureScheduledJobs_ids]
    exact h.ids
  refine ⟨hids.sublist (List.filter_sublist.map _), fun j hj => ?_⟩
  have hleft : j.id ∈ ((s.captureScheduledJobs conf batchSize).jobs.filter
      (·.id ∉ (reached code (s.getScheduledJobsToStart conf batchSize)).map (·.id))).map (·.id) := List.mem_map_of_mem hj
  obtain ⟨i, hi, rfl⟩ := List.mem_map.mp (List.mem_filter.mp hj).1
  by_cases hcaptured : i.id ∈ (s.getScheduledJobsToStart conf batchSize).map (·.id)
  · rw [if_pos hcaptured] at hleft ⊢
    intro _ hsound
    obtain ⟨k, hk, hki⟩ := List.mem_map.mp hcaptured
    obtain rfl := List.inj_on_of_nodup_map h.ids ((batch_ok conf batchSize h.ids).2 k hk) hi hki
    exact (hspared k hk hsound).gone hleft
  · rw [if_neg hcaptured]
    exact h.captured i hi

theorem Ok.step (h : s.Ok code) (e : PassEvent (ScheduledJob Ctx Arg))
    (hharmless : e = .pass → s.Harmless code conf batchSize) : (s.step code conf batchSize e).Ok code := by
  cases e with
  | schedule job => exact h.persistJob job
  | tick n => exact ⟨h.ids, h.captured⟩
  | pass => exact h.pass (hharmless rfl)

theorem Ok.noneStarves (h : s.Ok code) : s.NoneStarves code := fun j hj hcaptured hsound =>
  absurd hsound (h.captured j hj hcaptured)

end ScheduledJobs

/-! ### Runs -/

section
variable (code) (conf : SchedulerConf) (batchSize : Option Nat)

/-- In a run of the legacy scheduler each pass spares the sound jobs of its batch, and none is left captured. -/
def LegacySpares (ls : List (PassEvent (DelayedCall Ctx Arg))) : Prop :=
  (legacySystem code conf batchSize).Guarded (fun s l => l = .pass → s.PassOk code conf batchSize) {} ls ∧
    ((legacySystem code conf batchSize).run {} ls).NoneStarves code

/-- In a run of the default scheduler each pass spares the sound jobs of its batch, and none is left captured. -/
def StoreSpares (ls : List (PassEvent (ScheduledJob Ctx Arg))) : Prop :=
  (storeSystem code conf batchSize).Guarded (fun s l => l = .pass → s.PassOk code conf batchSize) {} ls ∧
    ((storeSystem code conf batchSize).run {} ls).NoneStarves code

end

/-- Bad jobs spare the others in exactly the runs whose passes are over harmless batches. -/
theorem bad_jobs_spare_others (conf : SchedulerConf) (batchSize : Option Nat) :
    (∀ ls, LegacySpares code conf batchSize ls ↔
      (legacySystem code conf batchSize).Guarded (fun s l => l = .pass → s.Harmless code conf batchSize) {} ls) ∧
    ∀ ls, StoreSpares code conf batchSize ls ↔
      (storeSystem code conf batchSize).Guarded (fun s l => l = .pass → s.Harmless code conf batchSize) {} ls := by
  constructor
  · intro ls
    have hinit : ({} : DelayedCalls Ctx Arg).Ok code := ⟨List.nodup_nil, fun _ h => nomatch h⟩
    rw [LegacySpares, System.guarded_congr (·.Ok code) hinit
      (fun s l h => imp_congr_right fun _ => DelayedCalls.passOk_iff h.ids) fun s l h hl => h.step l hl]
    exact and_iff_left_of_imp fun h => (h.invariant hinit fun s l h hl => h.step l hl).noneStarves
  · intro ls
    have hinit : ({} : ScheduledJobs Ctx Arg).Ok code := ⟨List.nodup_nil, fun _ h => nomatch h⟩
    rw [StoreSpares, System.guarded_congr (·.Ok code) hinit
      (fun s l h => imp_congr_right fun _ => ScheduledJobs.passOk_iff h.ids) fun s l h hl => h.step l hl]
    exact and_iff_left_of_imp fun h => (h.invariant hinit fun s l h hl => h.step l hl).noneStarves

/-- No module has the class `Gone`. -/
def withoutGone : Installed Unit Unit String String where
  importClass path := if path = "Gone" then .error "ImportError" else .ok path
  construct := .ok
  getattr _ name := .ok name
  deserialize _ arg := .ok arg
  deserializeContext _ := .ok ()
  call _ _ _ := .ok ()
  keyError name := name

/-- A second is one tick, and a captured job may be captured again a minute later. -/
def minuteTimeout : SchedulerConf where
  second := 1
  pickupJobAfter := 0
  capturedJobTimeout := 60
  second_pos := by decide
  second_le := by decide

/-- The first of two jobs cannot be prepared. Neither scheduler calls the second one, and both leave it captured. -/
theorem bad_job_blocks_batch :
    ¬LegacySpares withoutGone minuteTimeout none
      [.schedule { id := "bad", targetMethodName := "Gone", authContext := (), executionTime := 0 },
        .schedule { id := "good", targetMethodName := "Good", authContext := (), executionTime := 1 }, .tick 2, .pass] ∧
    ¬StoreSpares withoutGone minuteTimeout none
      [.schedule { id := "bad", targetMethodName := "Gone", authContext := (), executeAt := 0 },
        .schedule { id := "good", targetMethodName := "Good", authContext := (), executeAt := 1 }, .tick 2, .pass] := by
  constructor
  · rintro ⟨-, hstarves⟩
    obtain ⟨raised, hinvoked⟩ := hstarves
      { id := "good", targetMethodName := "Good", authContext := (), executionTime := 1, processing := true }
      (List.mem_cons_self ..) rfl ⟨⟨"good", (), "Good", []⟩, rfl, rfl⟩
    cases hinvoked
  · rintro ⟨-, hstarves⟩
    obtain ⟨raised, hinvoked⟩ := hstarves
      { id := "good", targetMethodName := "Good", authContext := (), executeAt := 1, capturedAt := some 2 }
      (List.mem_cons_self ..) rfl ⟨⟨"good", (), "Good", []⟩, rfl, rfl⟩
    cases hinvoked

end JobPasses
end Mistral
