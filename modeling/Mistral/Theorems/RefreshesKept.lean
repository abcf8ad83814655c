import Mistral.Scheduler.RefreshJobs
import Mistral.Theorems.AffectedJoins
import Mistral.Theorems.JobsKept
import Mistral.Theorems.JoinFinal

/-! A join that waits without a reason is refreshed, as long as the checks do not take a job in memory for one that is
    still to run. -/

namespace Mistral

/-! ### The log of a job -/

namespace JobStore
variable {τ ι : Type} {conf : SchedulerConf} {s : JobStore τ ι} {t : τ} {j : ι}

theorem captures_addCapture [DecidableEq ι] (j : ι) (captured : List (ι × Capture τ)) (log : JobLog τ) :
    log.captures ⊆ (JobLog.addCapture j captured log).captures ∧
      (JobLog.addCapture j captured log).invoked = log.invoked ∧
      (JobLog.addCapture j captured log).created = log.created ∧
      (JobLog.addCapture j captured log).stored = log.stored := by
  unfold JobLog.addCapture
  split
  · exact ⟨List.subset_cons_self _ _, rfl, rfl, rfl⟩
  · exact ⟨List.Subset.refl _, rfl, rfl, rfl⟩

/-- Only jobs that were captured are invoked. -/
def InvokedCaptured (s : JobStore τ ι) : Prop := ∀ j, (s.log j).invoked ≠ [] → (s.log j).captures ≠ []

variable [DecidableEq τ]

/-- What a step does to the log of a job: it is created, stored, captured or deleted, and invoked only by a worker that
    comes to it. -/
structure LogGrows (conf : SchedulerConf) [DecidableEq ι] (s : JobStore τ ι) (e : JobEvent τ ι) (j : ι) : Prop where
  created : (s.log j).created → ((s.step conf e).log j).created
  stored : (s.log j).stored → ((s.step conf e).log j).stored
  captures : (s.log j).captures ⊆ ((s.step conf e).log j).captures
  invoked : ((s.step conf e).log j).invoked = (s.log j).invoked ∨
    ∃ t todo, e = .run t ∧ s.workers t = .invoking (j :: todo)

theorem LogGrows.of_eq [DecidableEq ι] {e : JobEvent τ ι} (h : (s.step conf e).log j = s.log j) : s.LogGrows conf e j := by
  constructor <;> rw [h]
  · exact id
  · exact id
  · exact List.Subset.refl _
  · exact .inl rfl

/-- A row that was never captured is that of a job that was never invoked. -/
theorem not_invoked (h : s.InvokedCaptured) (hok : s.Ok conf) {row : JobRow} (hrow : (s.rows j).committed = some row)
    (hcaptured : row.capturedAt = none) : (s.log j).invoked = [] := by
  by_contra hinvoked
  obtain ⟨-, -, hsame⟩ := (hok.job j).row row hrow
  rw [hcaptured] at hsame
  have hnone := h j hinvoked
  cases hlist : (s.log j).captures with
  | nil => exact hnone hlist
  | cons c cs =>
    rw [hlist] at hsame
    cases hsame

variable [DecidableEq ι]

theorem logGrows_run (s : JobStore τ ι) (t : τ) (j : ι) : s.LogGrows conf (.run t) j := by
  have hstep : s.step conf (.run t) = s.execute conf t := rfl
  cases hworker : s.workers t with
  | idle => exact .of_eq (by rw [hstep, execute, hworker])
  | scheduling =>
    have hlog : (s.step conf (.run t)).log j =
        if ((s.rows j).own t).isSome then { s.log j with stored := true } else s.log j := by
      rw [hstep, execute, hworker]
      rfl
    constructor <;> rw [hlog] <;> split <;> simp
  | capturing todo captured =>
    cases todo with
    | nil =>
      have hlog : (s.step conf (.run t)).log j = JobLog.addCapture j captured (s.log j) := by
        rw [hstep, execute, hworker]
        rfl
      obtain ⟨hcaptures, hinvoked, hcreated, hstored⟩ := captures_addCapture j captured (s.log j)
      rw [← hlog] at hcaptures hinvoked hcreated hstored
      exact ⟨fun h => hcreated ▸ h, fun h => hstored ▸ h, hcaptures, .inl hinvoked⟩
    | cons e todo =>
      refine .of_eq ?_
      rw [hstep, execute, hworker]
      simp only [capture]
      split
      · rfl
      · split
        · split <;> rfl
        · rfl
  | invoking todo =>
    cases todo with
    | nil => exact .of_eq (by rw [hstep, execute, hworker]; rfl)
    | cons j' todo =>
      by_cases hj : j = j'
      · subst hj
        have hlog : (s.step conf (.run t)).log j = { s.log j with invoked := t :: (s.log j).invoked } := by
          rw [hstep, execute, hworker]
          simp [setLog]
        exact ⟨fun h => by rw [hlog]; exact h, fun h => by rw [hlog]; exact h, by rw [hlog]; exact List.Subset.refl _,
          .inr ⟨t, todo, rfl, hworker⟩⟩
      · refine .of_eq ?_
        rw [hstep, execute, hworker]
        simp [setLog, hj]
  | deleting j' todo =>
    have hlog : (s.step conf (.run t)).log j = s.log j ∨
        (s.step conf (.run t)).log j = { s.log j with deleted := some t } := by
      rw [hstep, execute, hworker]
      simp only [delete]
      split
      · exact .inl rfl
      · split
        · by_cases hj : j = j'
          · subst hj
            exact .inr (by simp [setLog])
          · exact .inl (by simp [setLog, setRow, hj])
        · exact .inl rfl
    rcases hlog with hlog | hlog
    · exact .of_eq hlog
    · constructor <;> rw [hlog]
      · exact id
      · exact id
      · exact List.Subset.refl _
      · exact .inl rfl

theorem logGrows (s : JobStore τ ι) (e : JobEvent τ ι) (j : ι) : s.LogGrows conf e j := by
  cases e with
  | schedule t j' n =>
    by_cases hfree : (s.workers t = .idle ∨ s.workers t = .scheduling) ∧ (s.log j').created = false
    · have hlog : (s.step conf (.schedule t j' n)).log j =
          if j = j' then { s.log j with created := true } else s.log j := by
        rw [step, schedule, if_pos hfree]
        by_cases hj : j = j'
        · subst hj
          simp [setLog, setRow, setWorker]
        · simp [setLog, setRow, setWorker, hj]
      constructor <;> rw [hlog] <;> split <;> simp
    · exact .of_eq (by rw [step, schedule, if_neg hfree])
  | dispatch t j' =>
    refine .of_eq ?_
    rw [step, dispatch]
    split
    · split <;> rfl
    · rfl
  | forget j' => exact .of_eq rfl
  | poll t jobs =>
    refine .of_eq ?_
    rw [step, poll]
    split <;> rfl
  | run t => exact logGrows_run s t j
  | crash t => exact .of_eq rfl
  | tick n => exact .of_eq rfl

theorem InvokedCaptured.step (h : s.InvokedCaptured) (hok : s.Ok conf) (e : JobEvent τ ι) :
    (s.step conf e).InvokedCaptured := by
  intro j hinvoked hnone
  have hgrows : s.LogGrows conf e j := logGrows s e j
  have hcaptures : (s.log j).captures = [] := List.eq_nil_of_subset_nil (hnone ▸ hgrows.captures)
  obtain hsame | ⟨t, todo, -, hworker⟩ := hgrows.invoked
  · exact h j (hsame ▸ hinvoked) hcaptures
  · have htodo : j ∈ (s.workers t).todo := by simp [hworker, Worker.todo]
    obtain ⟨c, hc, -⟩ := captured_of_todo hok htodo
    rw [hcaptures] at hc
    cases hc

/-- A job in the store that was never invoked stays so until a worker invokes it. -/
theorem uninvoked_step (h : s.Ok conf) (hrow : (s.rows j).committed.isSome) (hinvoked : (s.log j).invoked = [])
    (e : JobEvent τ ι) (hnot : ∀ t todo, e = .run t → s.workers t ≠ .invoking (j :: todo)) :
    ((s.step conf e).rows j).committed.isSome ∧ ((s.step conf e).log j).invoked = [] := by
  have hgrows : s.LogGrows conf e j := logGrows s e j
  have hkept : ((s.step conf e).log j).invoked = [] := by
    obtain hsame | ⟨t, todo, he, hworker⟩ := hgrows.invoked
    · rw [hsame, hinvoked]
    · exact absurd hworker (hnot t todo he)
  obtain ⟨row, hrow⟩ := Option.isSome_iff_exists.mp hrow
  exact ⟨(h.step e).kept.stored j (hgrows.stored ((h.job j).row row hrow).1) hkept, hkept⟩

/-- The row that a transaction has inserted stays its own during the steps of others. -/
theorem own_capture {u : τ} (hu : u ≠ t) (j' : ι) (copy : Option Nat) (todo : List (ι × Option Nat))
    (captured : List (ι × Capture τ)) :
    (s.capture conf t j' copy todo captured).workers u = s.workers u ∧
      ((s.capture conf t j' copy todo captured).rows j).own u = (s.rows j).own u := by
  unfold JobStore.capture
  split
  · exact ⟨rfl, rfl⟩
  next hfree =>
    split
    · split
      · refine ⟨by simp [setRow, hu], ?_⟩
        by_cases hj : j = j'
        · subst hj
          have hfree : (s.rows j).blocker t = none := by simpa using hfree
          simp [setRow, Cell.own_write_of_ne hfree hu]
        · simp [setRow, hj]
      · exact ⟨by simp [hu], rfl⟩
    · exact ⟨by simp [hu], rfl⟩

theorem own_delete {u : τ} (hu : u ≠ t) {j' : ι} {todo : List ι} :
    (s.delete t j' todo).workers u = s.workers u ∧
      ((s.rows j).own u ≠ none → ((s.delete t j' todo).rows j).own u = (s.rows j).own u) := by
  unfold JobStore.delete
  split
  · exact ⟨rfl, fun _ => rfl⟩
  next hfree =>
    split
    · refine ⟨by simp [setRow, setLog, hu], fun hown => ?_⟩
      by_cases hj : j = j'
      · subst hj
        obtain ⟨x, hx⟩ := Option.ne_none_iff_exists'.mp hown
        have hpending := Cell.own_eq_some_iff.mp hx
        simp [Cell.blocker, hpending, hu] at hfree
      · simp [setRow, setLog, hj]
    · exact ⟨by simp [hu], fun _ => rfl⟩

theorem own_run {u : τ} (hu : u ≠ t) : (s.step conf (.run t)).workers u = s.workers u ∧
    ((s.rows j).own u ≠ none → ((s.step conf (.run t)).rows j).own u = (s.rows j).own u) := by
  have hstep : s.step conf (.run t) = s.execute conf t := rfl
  rw [hstep]
  cases hworker : s.workers t with
  | idle =>
    rw [execute, hworker]
    exact ⟨rfl, fun _ => rfl⟩
  | scheduling =>
    rw [execute, hworker]
    exact ⟨by simp [commitScheduled, hu], fun _ => Cell.own_commit_of_ne hu⟩
  | capturing todo captured =>
    cases todo with
    | nil =>
      rw [execute, hworker]
      exact ⟨by simp [commitCaptures, hu], fun _ => Cell.own_commit_of_ne hu⟩
    | cons e todo =>
      rw [execute, hworker]
      obtain ⟨hsame, hown⟩ := own_capture (j := j) hu e.1 e.2 todo captured
      exact ⟨hsame, fun _ => hown⟩
  | invoking todo =>
    cases todo with
    | nil =>
      rw [execute, hworker]
      exact ⟨by simp [hu], fun _ => rfl⟩
    | cons j' todo =>
      rw [execute, hworker]
      exact ⟨by simp [setLog, hu], fun _ => rfl⟩
  | deleting j' todo =>
    rw [execute, hworker]
    exact own_delete hu

/-- A transaction that schedules goes on during the steps of others. -/
theorem scheduling_step (h : s.Ok conf) {u : τ} (hworker : s.workers u = .scheduling) (hown : (s.rows j).own u ≠ none)
    {e : JobEvent τ ι} (hrun : e ≠ .run u) (hcrash : e ≠ .crash u) (hschedule : ∀ j' n, e ≠ .schedule u j' n) :
    (s.step conf e).workers u = .scheduling ∧ ((s.step conf e).rows j).own u ≠ none := by
  have hidle : ∀ t, s.workers t = .idle → u ≠ t := by
    rintro t ht rfl
    rw [hworker] at ht
    cases ht
  cases e with
  | schedule t j' n =>
    have hu : u ≠ t := fun heq => hschedule j' n (heq ▸ rfl)
    rw [step, schedule]
    split
    next hnew =>
      refine ⟨by simp [setRow, setLog, setWorker, hu, hworker], ?_⟩
      by_cases hj : j = j'
      · subst hj
        rw [((h.job j).created hnew.2).1] at hown
        simp [Cell.own] at hown
      · simpa [setRow, setLog, setWorker, hj] using hown
    · exact ⟨hworker, hown⟩
  | dispatch t j' =>
    rw [step, dispatch]
    split
    · split
      next hready => exact ⟨by simp [setWorker, hidle t hready.1, hworker], hown⟩
      · exact ⟨hworker, hown⟩
    · exact ⟨hworker, hown⟩
  | forget j' => exact ⟨hworker, hown⟩
  | poll t jobs =>
    rw [step, poll]
    split
    next hready => exact ⟨by simp [hidle t hready.1, hworker], hown⟩
    · exact ⟨hworker, hown⟩
  | run t =>
    have hu : u ≠ t := fun heq => hrun (heq ▸ rfl)
    have hkept : (s.step conf (.run t)).workers u = s.workers u ∧
        ((s.rows j).own u ≠ none → ((s.step conf (.run t)).rows j).own u = (s.rows j).own u) := own_run hu
    exact ⟨hkept.1.trans hworker, by rw [hkept.2 hown]; exact hown⟩
  | crash t =>
    have hu : u ≠ t := fun heq => hcrash (heq ▸ rfl)
    refine ⟨by simp [step, crash, hu, hworker], ?_⟩
    have hrow : ((s.step conf (.crash t)).rows j).own u = (s.rows j).own u := Cell.own_rollback_of_ne hu
    rw [hrow]
    exact hown
  | tick n => exact ⟨hworker, hown⟩

/-- A job that a transaction has scheduled is in the store when it commits. -/
theorem uninvoked_commit (h : s.Ok conf) (hworker : s.workers t = .scheduling) (hown : (s.rows j).own t ≠ none) :
    ((s.step conf (.run t)).rows j).committed.isSome ∧ ((s.step conf (.run t)).log j).invoked = [] := by
  obtain ⟨x, hx⟩ := Option.ne_none_iff_exists'.mp hown
  have hok := h.worker t
  simp only [WorkerOk, hworker] at hok
  obtain ⟨⟨executeAt, rfl⟩, -, hstored⟩ := hok j x hx
  have hstep : s.step conf (.run t) = s.commitScheduled t := by
    show s.execute conf t = _
    rw [execute, hworker]
  have hcommitted : ((s.rows j).commit t).committed = some { executeAt } := by
    rw [Cell.committed_commit, Cell.read_of_own hx]
  rw [hstep]
  refine ⟨by simp [commitScheduled, hcommitted], ?_⟩
  simp [commitScheduled, hx, ((h.job j).fresh hstored).2.2.1]

end JobStore

/-! ### Task executions -/

section
variable {spec : WorkflowSpec} {tasks : List TaskEx} {name name' : String} {i k : TaskId} {e : TaskEx}

theorem mem_rowsOf : (i, e) ∈ rowsOf tasks ↔ tasks[i]? = some e := by
  simp only [rowsOf, List.mem_map, Prod.mk.injEq, Prod.exists]
  constructor
  · rintro ⟨e', i', hmem, rfl, rfl⟩
    exact List.mem_zipIdx_iff_getElem?.mp hmem
  · exact fun h => ⟨e, i, List.mem_zipIdx_iff_getElem?.mpr h, rfl, rfl⟩

theorem rowsOf_modify {f : TaskEx → TaskEx} :
    rowsOf (tasks.modify i f) = (rowsOf tasks).map fun r => if r.1 = i then (r.1, f r.2) else r := by
  refine List.ext_getElem? fun k => ?_
  simp only [rowsOf, List.getElem?_map, List.getElem?_zipIdx, List.getElem?_modify, Option.map_map, Nat.zero_add]
  cases tasks[k]? with
  | none => rfl
  | some e =>
    by_cases hk : i = k
    · simp [hk]
    · simp [hk, Ne.symm hk]

theorem lastNamed_modify {f : TaskEx → TaskEx} (hf : ∀ e, (f e).name = e.name) :
    lastNamed (rowsOf (tasks.modify i f)) name =
      (lastNamed (rowsOf tasks) name).map fun r => if r.1 = i then (r.1, f r.2) else r := by
  have hname : (fun r : TaskId × TaskEx => r.2.name == name) ∘ (fun r => if r.1 = i then (r.1, f r.2) else r) =
      fun r => r.2.name == name := by
    funext r
    simp only [Function.comp_apply]
    split
    · rw [hf]
    · rfl
  unfold lastNamed
  rw [rowsOf_modify, ← List.map_reverse, List.find?_map, hname]

theorem lastNamed_append : lastNamed (rowsOf (tasks ++ [e])) name =
    if e.name = name then some (tasks.length, e) else lastNamed (rowsOf tasks) name := by
  simp [lastNamed, rowsOf, List.zipIdx_append, List.find?_cons]
  split <;> simp_all

/-- A change of an execution of another task is not found. -/
theorem lastNamed_modify_of_ne {f : TaskEx → TaskEx} (hf : ∀ e, (f e).name = e.name)
    (hi : ∀ e, tasks[i]? = some e → e.name ≠ name) :
    lastNamed (rowsOf (tasks.modify i f)) name = lastNamed (rowsOf tasks) name := by
  rw [lastNamed_modify hf]
  cases hlast : lastNamed (rowsOf tasks) name with
  | none => rfl
  | some r =>
    obtain ⟨k, e⟩ := r
    obtain ⟨hmem, hname⟩ := lastNamed_some hlast
    have hne : k ≠ i := fun heq => hi e (heq ▸ mem_rowsOf.mp hmem) hname
    simp [hne]

/-- A join has one execution at most. -/
def JoinsOnce (spec : WorkflowSpec) (names : List String) : Prop :=
  ∀ (i k : Nat) name u, names[i]? = some name → names[k]? = some name → spec.getTask name = some u → u.isJoin → i = k

theorem map_name_modify {f : TaskEx → TaskEx} (hf : ∀ e, (f e).name = e.name) :
    (tasks.modify i f).map (·.name) = tasks.map (·.name) := by
  refine List.ext_getElem? fun k => ?_
  simp only [List.getElem?_map, List.getElem?_modify]
  cases tasks[k]? with
  | none => rfl
  | some e =>
    by_cases hk : i = k
    · simp [hk, hf]
    · simp [hk]

theorem JoinsOnce.lastNamed (h : JoinsOnce spec (tasks.map (·.name))) {u : TaskSpec} (hi : tasks[i]? = some e)
    (hu : spec.getTask e.name = some u) (hjoin : u.isJoin) : Mistral.lastNamed (rowsOf tasks) e.name = some (i, e) := by
  cases hlast : Mistral.lastNamed (rowsOf tasks) e.name with
  | none => exact absurd rfl (lastNamed_none.mp hlast (i, e) (mem_rowsOf.mpr hi))
  | some r =>
    obtain ⟨k, e'⟩ := r
    obtain ⟨hmem, hname⟩ := lastNamed_some hlast
    have hk : tasks[k]? = some e' := mem_rowsOf.mp hmem
    have hname : e'.name = e.name := hname
    obtain rfl : k = i := h k i e.name u (by simp [hk, hname]) (by simp [hi]) hu hjoin
    rw [hk] at hi
    cases hi
    rfl

/-! ### The commands of a completed task -/

/-- What a command does: it makes a join wait again, or adds an execution. -/
theorem runCommand_cases (spec : WorkflowSpec) (tasks : List TaskEx) (name : String) :
    runCommand spec tasks name = tasks ∧ spec.getTask name = none ∨
    (∃ u i e, spec.getTask name = some u ∧ u.isJoin ∧ tasks[i]? = some e ∧ e.name = name ∧
      runCommand spec tasks name = tasks.modify i fun e => { e with state := .waiting }) ∨
    ∃ u e, spec.getTask name = some u ∧ e.name = name ∧ runCommand spec tasks name = tasks ++ [e] ∧
      (u.isJoin → e.state = .waiting ∧ name ∉ tasks.map (·.name)) := by
  unfold runCommand
  cases hu : spec.getTask name with
  | none => exact .inl ⟨rfl, rfl⟩
  | some u =>
    dsimp only
    split
    next hjoin =>
      cases hfind : tasks.findIdx? (·.name == name) with
      | some i =>
        obtain ⟨hlt, hname, -⟩ := List.findIdx?_eq_some_iff_getElem.mp hfind
        exact .inr (.inl ⟨u, i, tasks[i], rfl, hjoin, List.getElem?_eq_getElem hlt, by simpa using hname, rfl⟩)
      | none =>
        refine .inr (.inr ⟨u, _, rfl, rfl, rfl, fun _ => ⟨rfl, ?_⟩⟩)
        rw [List.findIdx?_eq_none_iff] at hfind
        rintro hmem
        obtain ⟨e, he, rfl⟩ := List.mem_map.mp hmem
        simpa using hfind e he
    next hjoin => exact .inr (.inr ⟨u, _, rfl, rfl, rfl, fun h => absurd h hjoin⟩)

theorem JoinsOnce.runCommand (h : JoinsOnce spec (tasks.map (·.name))) (name : String) :
    JoinsOnce spec ((runCommand spec tasks name).map (·.name)) := by
  obtain ⟨hsame, -⟩ | ⟨u, i, e, -, -, -, -, hmodify⟩ | ⟨u, e, hu, hname, happend, hnew⟩ := runCommand_cases spec tasks name
  · rw [hsame]
    exact h
  · rw [hmodify, map_name_modify (f := fun e => { e with state := .waiting }) fun _ => rfl]
    exact h
  · rw [happend, List.map_append]
    intro i k n v hi hk hv hjoin
    simp only [List.map_cons, List.map_nil, List.getElem?_append, List.getElem?_singleton, List.length_map] at hi hk
    split at hi
    · split at hk
      · exact h i k n v hi hk hv hjoin
      · split at hk
        · obtain rfl := Option.some.inj hk
          rw [hname, hu] at hv
          cases hv
          exact absurd (hname ▸ List.mem_of_getElem? hi) (hnew hjoin).2
        · cases hk
    · split at hi
      · obtain rfl := Option.some.inj hi
        split at hk
        · rw [hname, hu] at hv
          cases hv
          exact absurd (hname ▸ List.mem_of_getElem? hk) (hnew hjoin).2
        · split at hk
          · omega
          · cases hk
      · cases hi

/-- The executions of other tasks stay. -/
theorem lastNamed_runCommand_of_ne (hne : name' ≠ name) :
    lastNamed (rowsOf (runCommand spec tasks name)) name' = lastNamed (rowsOf tasks) name' := by
  obtain ⟨hsame, -⟩ | ⟨u, i, e, -, -, hi, hname, hmodify⟩ | ⟨u, e, -, hname, happend, -⟩ := runCommand_cases spec tasks name
  · rw [hsame]
  · rw [hmodify]
    refine lastNamed_modify_of_ne (fun _ => rfl) fun e' he' => ?_
    rw [hi] at he'
    cases he'
    exact hname ▸ hne.symm
  · rw [happend, lastNamed_append, if_neg (hname ▸ hne.symm)]

/-- A task that is found waits. -/
def FoundWaiting (tasks : List TaskEx) (name : String) : Prop :=
  ∃ i e, lastNamed (rowsOf tasks) name = some (i, e) ∧ e.state = .waiting

theorem foundWaiting_runCommand (h : JoinsOnce spec (tasks.map (·.name))) {u : TaskSpec} (hu : spec.getTask name = some u)
    (hjoin : u.isJoin) : FoundWaiting (runCommand spec tasks name) name := by
  obtain ⟨-, hnone⟩ | ⟨v, i, e, -, -, hi, rfl, hmodify⟩ | ⟨v, e, hv, hname, happend, hnew⟩ := runCommand_cases spec tasks name
  · rw [hu] at hnone
    cases hnone
  · refine ⟨i, { e with state := .waiting }, ?_, rfl⟩
    rw [hmodify, lastNamed_modify (f := fun e => { e with state := .waiting }) (fun _ => rfl), h.lastNamed hi hu hjoin]
    simp
  · rw [hu] at hv
    cases hv
    refine ⟨tasks.length, e, ?_, (hnew hjoin).1⟩
    rw [happend, lastNamed_append, if_pos hname]

/-- An execution that is there after a command was there before, or is of the task of the command. -/
theorem getElem?_runCommand (h : (runCommand spec tasks name)[i]? = some e) : tasks[i]? = some e ∨ e.name = name := by
  obtain ⟨hsame, -⟩ | ⟨u, k, e', -, -, hk, hname, hmodify⟩ | ⟨u, e', -, hname, happend, -⟩ := runCommand_cases spec tasks name
  · exact .inl (hsame ▸ h)
  · rw [hmodify, List.getElem?_modify] at h
    by_cases hik : k = i
    · subst hik
      rw [hk] at h
      simp only [if_true, Option.map_eq_map, Option.map_some, Option.some.injEq] at h
      exact .inr (h ▸ hname)
    · refine .inl ?_
      cases ht : tasks[i]? with
      | none =>
        rw [ht] at h
        cases h
      | some e'' =>
        rw [ht] at h
        simpa [hik] using h
  · rw [happend, List.getElem?_append] at h
    split at h
    · exact .inl h
    · rw [List.getElem?_singleton] at h
      split at h
      · exact .inr (Option.some.inj h ▸ hname)
      · cases h

/-- The commands of a completed task, one after another. -/
def runCommands (spec : WorkflowSpec) (tasks : List TaskEx) (names : List String) : List TaskEx :=
  names.foldl (runCommand spec) tasks

theorem completedTasks_eq {state : State} {next : List (String × Option TriggerEvent)} :
    completedTasks spec tasks i state next =
      runCommands spec (tasks.modify i fun e => { e with state, nextTasks := some next }) (next.map (·.1)) := by
  rw [completedTasks, runCommands, List.foldl_map]

variable {names : List String}

theorem JoinsOnce.runCommands (h : JoinsOnce spec (tasks.map (·.name))) (names : List String) :
    JoinsOnce spec ((runCommands spec tasks names).map (·.name)) := by
  induction names generalizing tasks with
  | nil => exact h
  | cons name names ih => exact ih (h.runCommand name)

theorem lastNamed_runCommands_of_not_mem (h : name ∉ names) :
    lastNamed (rowsOf (runCommands spec tasks names)) name = lastNamed (rowsOf tasks) name := by
  induction names generalizing tasks with
  | nil => rfl
  | cons n names ih =>
    obtain ⟨hne, hnot⟩ := List.ne_and_not_mem_of_not_mem_cons h
    exact (ih hnot).trans (lastNamed_runCommand_of_ne hne)

theorem foundWaiting_runCommands (h : JoinsOnce spec (tasks.map (·.name))) {u : TaskSpec}
    (hu : spec.getTask name = some u) (hjoin : u.isJoin) (hmem : name ∈ names ∨ FoundWaiting tasks name) :
    FoundWaiting (runCommands spec tasks names) name := by
  induction names generalizing tasks with
  | nil => exact hmem.resolve_left List.not_mem_nil
  | cons n names ih =>
    refine ih (h.runCommand n) ?_
    by_cases hn : name = n
    · exact .inr (hn ▸ foundWaiting_runCommand h (hn ▸ hu) hjoin)
    · refine hmem.imp (fun hmem => (List.mem_cons.mp hmem).resolve_left hn) fun hwait => ?_
      unfold FoundWaiting
      rw [lastNamed_runCommand_of_ne hn]
      exact hwait

theorem getElem?_runCommands (h : (runCommands spec tasks names)[i]? = some e) : tasks[i]? = some e ∨ e.name ∈ names := by
  induction names generalizing tasks with
  | nil => exact .inl h
  | cons name names ih =>
    obtain h | h := ih h
    · refine (getElem?_runCommand h).imp_right fun hname => ?_
      rw [hname]
      exact List.mem_cons_self
    · exact .inr (List.mem_cons_of_mem _ h)

end

/-! ### Verdicts -/

section
variable {spec : WorkflowSpec} {found found' : String → Option (TaskId × TaskEx)} {join : Join} {j t u : TaskSpec}

/-- What the evaluation looks up later is what it looks up earlier, or goes on. -/
def GoesOn (spec : WorkflowSpec) (found found' : String → Option (TaskId × TaskEx)) (j : TaskSpec) : Prop :=
  ∀ u, Looked spec found' j u →
    found u.name = found' u.name ∨ ∃ i e, found' u.name = some (i, e) ∧ e.state.isCompleted = false

theorem GoesOn.lookup (h : GoesOn spec found found' j) (hu : Looked spec found' j u) {i : TaskId} {e : TaskEx}
    (he : found' u.name = some (i, e)) (hdone : e.state.isCompleted) : found u.name = some (i, e) := by
  obtain hsame | ⟨i', e', he', hopen⟩ := h u hu
  · rw [hsame, he]
  · rw [he] at he'
    cases he'
    rw [hdone] at hopen
    cases hopen

theorem GoesOn.missing (h : GoesOn spec found found' j) (hu : Looked spec found' j u) (hnone : found' u.name = none) :
    found u.name = none := by
  obtain hsame | ⟨i, e, he, -⟩ := h u hu
  · rw [hsame, hnone]
  · rw [hnone] at he
    cases he

theorem GoesOn.closed (h : GoesOn spec found found' j) (hclosed : Closed spec found' u) (hu : Looked spec found' j u)
    (hnone : found' u.name = none) : Closed spec found u := by
  induction hclosed with
  | @mk u hins hpast hup ih =>
    refine ⟨hins, fun w hw i e he => ?_, fun w hw hwnone => ?_⟩
    · have hlooked : Looked spec found' j w := hu.up hnone hw
      obtain hsame | ⟨i', e', he', hopen⟩ := h w hlooked
      · exact hpast w hw i e (hsame ▸ he)
      · obtain ⟨hdone, -⟩ := hpast w hw i' e' he'
        rw [hdone] at hopen
        cases hopen
    · have hlooked : Looked spec found' j w := hu.up hnone hw
      cases hfound : found' w.name with
      | none => exact ih w hw hfound hlooked hfound
      | some r =>
        obtain ⟨i, e⟩ := r
        obtain ⟨hdone, -⟩ := hpast w hw i e hfound
        rw [h.lookup hlooked hfound hdone] at hwnone
        cases hwnone

theorem GoesOn.triggers (h : GoesOn spec found found' j) (hu : u ∈ spec.findInboundTaskSpecs j)
    (htriggers : Triggers found' j u) : Triggers found j u := by
  obtain ⟨i, e, he, hdone, hmem⟩ := htriggers
  exact ⟨i, e, h.lookup (.inbound hu) he hdone, hdone, hmem⟩

theorem GoesOn.misses (h : GoesOn spec found found' j) (hu : u ∈ spec.findInboundTaskSpecs j)
    (hmisses : Misses spec found' j u) : Misses spec found j u := by
  obtain ⟨i, e, he, hdone, hnot⟩ | ⟨hnone, hclosed⟩ := hmisses
  · exact .inl ⟨i, e, h.lookup (.inbound hu) he hdone, hdone, hnot⟩
  · exact .inr ⟨h.missing (.inbound hu) hnone, h.closed hclosed (.inbound hu) hnone⟩

theorem decideJoin_state (l : List Induced) (join : Join) : (decideJoin l join).state = .running ∨
    (decideJoin l join).state = .error ∨ (decideJoin l join).state = .waiting := by
  have hcardinality : ∀ n, (cardinalityState l n).state = .running ∨ (cardinalityState l n).state = .error ∨
      (cardinalityState l n).state = .waiting := by
    intro n
    unfold cardinalityState
    split
    · exact .inl rfl
    · split
      · exact .inr (.inl rfl)
      · exact .inr (.inr rfl)
  cases join with
  | all =>
    simp only [decideJoin, allState]
    split
    · exact .inl rfl
    · split
      · exact .inr (.inl rfl)
      · exact .inr (.inr rfl)
  | one => exact hcardinality 1
  | number n => exact hcardinality n

theorem joinVerdict_state {l : LogicalState} (h : joinVerdict spec found join j = .ok l) :
    l.state = .running ∨ l.state = .error ∨ l.state = .waiting := by
  by_cases hins : spec.findInboundTaskSpecs j = []
  · unfold joinVerdict at h
    rw [if_pos hins] at h
    cases h
    exact .inl rfl
  · obtain ⟨ins, -, rfl⟩ := joinVerdict_ok hins h
    exact decideJoin_state ins join

/-- A join with a verdict later has had it before. -/
theorem GoesOn.verdict (h : GoesOn spec found found' j) {l l' : LogicalState} (hl : joinVerdict spec found join j = .ok l)
    (hl' : joinVerdict spec found' join j = .ok l') (hne : l'.state ≠ .waiting) : l.state = l'.state := by
  by_cases hins : spec.findInboundTaskSpecs j = []
  · have hverdict : ∀ found, joinVerdict spec found join j = .ok { state := .running } := fun found => by
      unfold joinVerdict
      rw [if_pos hins]
      rfl
    rw [hverdict] at hl hl'
    cases hl
    cases hl'
    rfl
  obtain ⟨ins, hcontributions, rfl⟩ := joinVerdict_ok hins hl
  obtain ⟨ins', hcontributions', rfl⟩ := joinVerdict_ok hins hl'
  have hlength : ins.length = ins'.length := hcontributions.length_eq.symm.trans hcontributions'.length_eq
  have hrunning : countState ins' .running ≤ countState ins .running :=
    countState_le hcontributions' hcontributions fun u hu x' x hx' hx hst =>
      (induced_ok hx).1.mpr (h.triggers hu ((induced_ok hx').1.mp hst))
  have herror : countState ins' .error ≤ countState ins .error :=
    countState_le hcontributions' hcontributions fun u hu x' x hx' hx hst =>
      (induced_ok hx).2.1.mpr (h.misses hu ((induced_ok hx').2.1.mp hst))
  have hdecided : (decideJoin ins' join).state = .running ∨ (decideJoin ins' join).state = .error := by
    obtain hst | hst | hst := decideJoin_state ins' join
    · exact .inl hst
    · exact .inr hst
    · exact absurd hst hne
  exact decideJoin_final (totalDepth_of_induced hcontributions') (totalDepth_of_induced hcontributions) hlength hrunning
    herror List.countP_le_length (countState_add_le nofun) hdecided

/-! ### Affected joins -/

variable {rows : List (TaskId × TaskEx)} {i : TaskId}

/-- The search comes to the execution of a join that its clauses lead to. -/
theorem mem_affected (ht : t ∈ spec.tasks)
    (hreach : Worklist.Reachable (clausesAfter spec rows) (spec.findOutboundTaskNames t).toFinset j.name)
    (hne : j.name ≠ t.name) (hi : joinExecution spec rows j.name = some i) :
    i ∈ findIndirectlyAffectedTaskExecutions spec rows t := by
  obtain ⟨w, hrun, hdone, hsame⟩ := findIndirectlyAffected_rounds spec rows t
  have hmem := Worklist.mem_found hrun (clausesAfter_start ht) hdone hreach hne hi
  rwa [hsame, List.mem_toFinset] at hmem

/-- A join that looks up `u` is reached through `u`, if the search goes on there. -/
theorem Looked.reachable_through (h : Looked spec (lastNamed rows) j u)
    (hu : u.name ∈ spec.findOutboundTaskNames t) (hgo : joinExecution spec rows u.name = none) :
    Worklist.Reachable (clausesAfter spec rows) (spec.findOutboundTaskNames t).toFinset j.name := by
  obtain ⟨a, ha, hpath⟩ := h.reachable
  refine ⟨u.name, List.mem_toFinset.mpr hu, hpath.head ?_⟩
  simpa [clausesAfter, addedNames, WorkflowSpec.getTask_of_mem h.mem_tasks, hgo] using ha

end

/-! ### Completions -/

namespace RefreshRun
variable {ε τ ι : Type} {spec : WorkflowSpec} {s s' : RefreshRun ε τ ι} {i k : TaskId}

/-- What is to come stays while the checks become more and the store is left alone. -/
theorem RefreshComing.more (h : s.RefreshComing i) (hchecks : ∀ check ∈ s.checks, check ∈ s'.checks)
    (hchecking : s'.checking = s.checking) (hkeys : s'.keys = s.keys) (hjobs : s'.jobs = s.jobs) : s'.RefreshComing i := by
  obtain ⟨check, hcheck, hname⟩ | ⟨t, ht⟩ | ⟨j, hj, hto⟩ := h
  · exact .inl ⟨check, hchecks check hcheck, hname⟩
  · exact .inr (.inl ⟨t, by rw [hchecking, ht]⟩)
  · refine .inr (.inr ⟨j, hkeys ▸ hj, ?_⟩)
    unfold ToEvaluate at hto ⊢
    rw [hjobs]
    exact hto

theorem getElem?_runCommand_of_ne {tasks : List TaskEx} {name : String} {e : TaskEx} (h : tasks[i]? = some e)
    (hne : ∀ u, spec.getTask e.name = some u → u.isJoin → e.name ≠ name) : (runCommand spec tasks name)[i]? = some e := by
  obtain ⟨hsame, -⟩ | ⟨u, k, e', hu, hjoin, hk, hname, hmodify⟩ | ⟨u, e', -, -, happend, -⟩ := runCommand_cases spec tasks name
  · rw [hsame, h]
  · have hki : k ≠ i := by
      rintro rfl
      rw [h] at hk
      cases hk
      exact hne u (hname ▸ hu) hjoin hname
    rw [hmodify, List.getElem?_modify_ne _ _ hki, h]
  · obtain ⟨hlt, -⟩ := List.getElem?_eq_some_iff.mp h
    rw [happend, List.getElem?_append_left hlt, h]

theorem getElem?_runCommands_of_not_mem {tasks : List TaskEx} {names : List String} {e : TaskEx} (h : tasks[i]? = some e)
    (hnot : ∀ u, spec.getTask e.name = some u → u.isJoin → e.name ∉ names) :
    (runCommands spec tasks names)[i]? = some e := by
  induction names generalizing tasks with
  | nil => exact h
  | cons name names ih =>
    refine ih (getElem?_runCommand_of_ne h fun u hu hjoin => ?_) fun u hu hjoin => ?_
    · exact (List.ne_and_not_mem_of_not_mem_cons (hnot u hu hjoin)).1
    · exact (List.ne_and_not_mem_of_not_mem_cons (hnot u hu hjoin)).2

theorem joinExecution_of_once {tasks : List TaskEx} {e : TaskEx} {u : TaskSpec}
    (honce : JoinsOnce spec (tasks.map (·.name))) (hi : tasks[i]? = some e) (hu : spec.getTask e.name = some u)
    (hjoin : u.isJoin) : joinExecution spec (rowsOf tasks) u.name = some i := by
  obtain ⟨hmem, hname⟩ := WorkflowSpec.getTask_eq_some hu
  unfold joinExecution
  rw [WorkflowSpec.getTask_of_mem hmem]
  simp [hjoin, hname, honce.lastNamed hi hu hjoin]

theorem logical_eq (spec : WorkflowSpec) {u : TaskSpec} (hjoin : u.isJoin) : ∃ join, ∀ rows (e : TaskEx),
    getLogicalTaskState spec rows u e = joinVerdict spec (lastNamed rows) join u := by
  obtain ⟨join, hj⟩ := Option.isSome_iff_exists.mp hjoin
  refine ⟨join, fun rows e => ?_⟩
  rw [getLogicalTaskState, hj]
  exact getJoinLogicalState_eq

variable {own : TaskSpec} {e : TaskEx} {state : State} {next : List (String × Option TriggerEvent)} {result : TaskResult}

/-- The executions before the commands of a completed task. -/
theorem getElem?_completed (h : (s.tasks.modify i fun e => { e with state, nextTasks := some next })[k]? = some e)
    (hk : k ≠ i) : s.tasks[k]? = some e := by
  rwa [List.getElem?_modify_ne _ _ hk.symm] at h

/-- After a completion, a join that the search does not come to has waited before with the same verdict, unless it was not
    known. -/
theorem goesOn_completed (hrow : s.tasks[i]? = some e) (hown : spec.getTask e.name = some own)
    (honce : JoinsOnce spec (s.tasks.map (·.name))) {names : List String}
    (hnext : ∀ n ∈ names, n ∈ spec.findOutboundTaskNames own) {mid : List TaskEx}
    (hmid : mid = s.tasks.modify i fun e => { e with state, nextTasks := some next }) {u : TaskSpec}
    (hk : joinExecution spec (rowsOf (runCommands spec mid names)) u.name = some k) (hne : u.name ≠ own.name)
    (hnot : k ∉ findIndirectlyAffectedTaskExecutions spec (rowsOf (runCommands spec mid names)) own) :
    GoesOn spec (lastNamed (rowsOf s.tasks)) (lastNamed (rowsOf (runCommands spec mid names))) u := by
  obtain ⟨hmem, hname⟩ := WorkflowSpec.getTask_eq_some hown
  have honce' : JoinsOnce spec (mid.map (·.name)) := by
    rw [hmid, map_name_modify (f := fun e => { e with state, nextTasks := some next }) fun _ => rfl]
    exact honce
  intro v hv
  have hvne : v.name ≠ own.name := fun heq => hnot (by
    obtain rfl := WorkflowSpec.eq_of_name hv.mem_tasks hmem heq
    exact mem_affected hmem hv.reachable hne hk)
  by_cases hvmem : v.name ∈ names
  · have hvget := WorkflowSpec.getTask_of_mem hv.mem_tasks
    by_cases hvjoin : v.isJoin
    · -- A join that was created, or waits again.
      obtain ⟨x, ex, hex, hwait⟩ := foundWaiting_runCommands honce' hvget hvjoin (.inl hvmem)
      exact .inr ⟨x, ex, hex, by rw [hwait]; rfl⟩
    · refine absurd (mem_affected hmem (hv.reachable_through (hnext _ hvmem) ?_) hne hk) hnot
      simp [joinExecution, hvget, hvjoin]
  · refine .inl ?_
    rw [lastNamed_runCommands_of_not_mem hvmem, hmid,
      lastNamed_modify_of_ne (f := fun e => { e with state, nextTasks := some next }) fun _ => rfl]
    intro e' he'
    rw [hrow] at he'
    cases he'
    exact fun heq => hvne (heq.symm.trans hname.symm)

/-! ### Steps -/

variable {conf : SchedulerConf} {engineOf : τ → ε} {t : τ}

/-- Every logical state can be computed. -/
def Evaluates (spec : WorkflowSpec) (s : RefreshRun ε τ ι) : Prop := ∀ i e, ¬s.Waits spec i (.error e)

/-- If `i` is an execution of a join, the clauses of the join do not name it. -/
def NotItself (spec : WorkflowSpec) (s : RefreshRun ε τ ι) (i : TaskId) : Prop :=
  ∀ e u, s.tasks[i]? = some e → spec.getTask e.name = some u → u.isJoin → u.name ∉ spec.findOutboundTaskNames u

/-- If `i` is an execution of a join, the completed executions of its inbound tasks have stored their next tasks. -/
def Recorded (spec : WorkflowSpec) (s : RefreshRun ε τ ι) (i : TaskId) : Prop :=
  ∀ e u, s.tasks[i]? = some e → spec.getTask e.name = some u → u.isJoin → ∀ e' ∈ s.tasks,
    e'.name ∈ (spec.findInboundTaskSpecs u).map (·.name) → e'.state ∈ upstreamStates → e'.nextTasks.isSome

/-- After a completion, a refresh is to come for every join that waits without a reason, if one was to come before. -/
theorem wakesUp_completion {engine : ε} (hrow : s.tasks[i]? = some e) (hown : spec.getTask e.name = some own)
    (honce : JoinsOnce spec (s.tasks.map (·.name))) (hst : state.isCompleted) (hrunning : s.running)
    (hself : own.isJoin → own.name ∉ spec.findOutboundTaskNames own) (heval : ∀ k ≠ i, ∀ err, ¬s.Waits spec k (.error err))
    (hwakes : ∀ k ≠ i, s.WakesUp spec k) (k : TaskId) :
    (s.commitCompletion spec engine own i state next).WakesUp spec k := by
  obtain ⟨hmem, hname⟩ := WorkflowSpec.getTask_eq_some hown
  have hst' : state ≠ .waiting := by
    rintro rfl
    cases hst
  rintro l ⟨e', u, he', hwait, hu, hjoin, hl⟩ hne
  unfold commitCompletion at he' hl ⊢
  simp only [hrunning, if_true, completedTasks_eq] at he' hl ⊢
  generalize hfilter : next.filter (·.1 ∈ spec.findOutboundTaskNames own) = next' at he' hl ⊢
  generalize hmid : s.tasks.modify i (fun e => { e with state, nextTasks := some next' }) = mid at he' hl ⊢
  have hnext : ∀ n ∈ next'.map (·.1), n ∈ spec.findOutboundTaskNames own := by
    rintro n hn
    obtain ⟨x, hx, rfl⟩ := List.mem_map.mp hn
    rw [← hfilter] at hx
    simpa using (List.mem_filter.mp hx).2
  have hself' : own.isJoin → own.name ∉ next'.map (·.1) := by
    exact fun hjoin hn => hself hjoin (hnext _ hn)
  have honce' : JoinsOnce spec (mid.map (·.name)) := by
    rw [← hmid, map_name_modify (f := fun e => { e with state, nextTasks := some next' }) fun _ => rfl]
    exact honce
  obtain ⟨humem, huname⟩ := WorkflowSpec.getTask_eq_some hu
  have hmidrow : mid[i]? = some { e with state, nextTasks := some next' } := by
    rw [← hmid, List.getElem?_modify_eq, hrow]
    rfl
  have hdone : (runCommands spec mid (next'.map (·.1)))[i]? = some { e with state, nextTasks := some next' } := by
    refine getElem?_runCommands_of_not_mem hmidrow fun v hv hvjoin => ?_
    have hv : spec.getTask e.name = some v := hv
    rw [hown] at hv
    cases hv
    exact hname ▸ hself' hvjoin
  have hki : k ≠ i := by
    rintro rfl
    rw [hdone] at he'
    cases he'
    exact hst' hwait
  have hold : e'.name ∉ next'.map (·.1) → s.tasks[k]? = some e' := fun hnot => by
    obtain hkept | hnew := getElem?_runCommands he'
    · rw [← hmid] at hkept
      exact getElem?_completed hkept hki
    · exact absurd hnew hnot
  have hune : u.name ≠ own.name := by
    intro heq
    obtain rfl := WorkflowSpec.eq_of_name humem hmem heq
    have hsame : e'.name = e.name := huname.symm.trans hname
    have hk := hold (by rw [hsame, ← hname]; exact hself' hjoin)
    exact hki (honce k i e.name u (by simp [hk, hsame]) (by simp [hrow]) hown hjoin)
  have hexec := joinExecution_of_once (honce'.runCommands _) he' hu hjoin
  simp only [hdone, Option.map_some, Option.getD_some, hst, if_true]
  by_cases haffected : k ∈ findIndirectlyAffectedTaskExecutions spec (rowsOf (runCommands spec mid (next'.map (·.1)))) own
  · exact .inl ⟨⟨engine, k⟩, List.mem_append_right _ (List.mem_map_of_mem haffected), rfl⟩
  · have hnot : e'.name ∉ next'.map (·.1) := fun hin => by
      refine haffected (mem_affected hmem ⟨u.name, ?_, .refl⟩ hune hexec)
      rw [List.mem_toFinset, huname]
      exact hnext _ hin
    have hgoes := goesOn_completed hrow hown honce hnext hmid.symm hexec hune haffected
    obtain ⟨join, hlogical⟩ := logical_eq spec hjoin
    have hk := hold hnot
    cases hbefore : getLogicalTaskState spec (rowsOf s.tasks) u e' with
    | error err => exact absurd ⟨e', u, hk, hwait, hu, hjoin, hbefore⟩ (heval k hki err)
    | ok l₀ =>
      have hsame : l₀.state = l.state := by
        rw [hlogical] at hbefore hl
        exact hgoes.verdict hbefore hl hne
      have hcoming := hwakes k hki l₀ ⟨e', u, hk, hwait, hu, hjoin, hbefore⟩ (hsame ▸ hne)
      exact hcoming.more (fun check hcheck => List.mem_append_left _ hcheck) rfl rfl rfl

/-- A join that is started does not wait any more, and the others find it as before. -/
theorem wakesUp_setTask (hrow : s.tasks[i]? = some e) (hwait : e.state.isCompleted = false)
    (hwakes : ∀ k ≠ i, s.WakesUp spec k) (k : TaskId) : (s.setTask i .running).WakesUp spec k := by
  rintro l ⟨e', u, he', hwait', hu, hjoin, hl⟩ hne
  have hki : k ≠ i := by
    rintro rfl
    simp only [setTask, List.getElem?_modify_eq, hrow, Option.map_eq_map, Option.map_some, Option.some.injEq] at he'
    rw [← he'] at hwait'
    cases hwait'
  have hk : s.tasks[k]? = some e' := by
    simp only [setTask] at he'
    rwa [List.getElem?_modify_ne _ _ hki.symm] at he'
  obtain ⟨join, hlogical⟩ := logical_eq spec hjoin
  have hsame : joinVerdict spec (lastNamed (rowsOf s.tasks)) join u =
      joinVerdict spec (lastNamed (rowsOf (s.setTask i .running).tasks)) join u := by
    refine joinVerdict_congr fun v _ => ?_
    simp only [setTask]
    rw [lastNamed_modify (f := fun e => { e with state := .running }) fun _ => rfl]
    cases hlast : lastNamed (rowsOf s.tasks) v.name with
    | none => exact .inl rfl
    | some r =>
      obtain ⟨x, ex⟩ := r
      by_cases hx : x = i
      · subst hx
        have hex := mem_rowsOf.mp (lastNamed_some hlast).1
        rw [hrow] at hex
        cases hex
        exact .inr ⟨x, e, x, { e with state := .running }, rfl, by simp, hwait, rfl⟩
      · exact .inl (by simp [hx])
  have hcoming := hwakes k hki l ⟨e', u, hk, hwait', hu, hjoin, by rw [hlogical, hsame, ← hlogical _ e', hl]⟩ hne
  exact hcoming.more (fun _ => id) rfl rfl rfl

/-- The inbound context of a join raises nothing when the inbound tasks that are completed have stored their next tasks. -/
theorem resultOf_eq (hrow : s.tasks[i]? = some e) (hown : spec.getTask e.name = some own) (hself : s.NotItself spec i)
    (hrecorded : s.Recorded spec i) : s.resultOf spec own i state result = result := by
  obtain ⟨-, hname⟩ := WorkflowSpec.getTask_eq_some hown
  have hupstream : own.isJoin → ∀ r ∈ rowsOf (s.setTask i state).tasks,
      r.2.name ∈ (spec.findInboundTaskSpecs own).map (·.name) → r.2.state ∈ upstreamStates → r.2.nextTasks.isSome := by
    rintro hjoin ⟨k, e'⟩ hr hinbound hst
    have hk : (s.tasks.modify i fun e => { e with state })[k]? = some e' := mem_rowsOf.mp hr
    by_cases hki : k = i
    · -- The join would be an inbound task of itself.
      subst hki
      rw [List.getElem?_modify_eq, hrow] at hk
      cases hk
      obtain ⟨v, hv, hvname⟩ := List.mem_map.mp hinbound
      obtain ⟨hmem, hexists⟩ := WorkflowSpec.mem_findInboundTaskSpecs.mp hv
      obtain rfl := WorkflowSpec.eq_of_name hmem (WorkflowSpec.getTask_eq_some hown).1 (hvname.trans hname.symm)
      exact absurd (of_decide_eq_true hexists) (hself e v hrow hown hjoin)
    · rw [List.getElem?_modify_ne _ _ (Ne.symm hki)] at hk
      exact hrecorded e own hrow hown hjoin e' (List.mem_of_getElem? hk) hinbound hst
  obtain ⟨upstream, hok⟩ : ∃ upstream, getUpstreamTaskExecutions spec (rowsOf (s.setTask i state).tasks) own [] = .ok upstream :=
    upstream_ok hupstream
  rw [resultOf, hok]
  rfl

/-- Two states that differ in what the engines have in memory. -/
structure Alike (s s' : RefreshRun ε τ ι) : Prop where
  running : s'.running = s.running
  tasks : s'.tasks = s.tasks
  checks : s'.checks = s.checks
  checking : s'.checking = s.checking
  jobs : s'.jobs = s.jobs
  keys : s'.keys = s.keys

theorem Alike.refl (s : RefreshRun ε τ ι) : Alike s s := ⟨rfl, rfl, rfl, rfl, rfl, rfl⟩

theorem alike_markCaptured [DecidableEq ε] [DecidableEq ι] (s : RefreshRun ε τ ι) (t : τ) : Alike s (s.markCaptured engineOf t) := by
  unfold markCaptured
  split
  · exact .refl s
  · split
    · exact .refl s
    · exact ⟨rfl, rfl, rfl, rfl, rfl, rfl⟩

section
variable [DecidableEq τ]

/-- What holds of the jobs and of the joins. -/
structure Base (spec : WorkflowSpec) (conf : SchedulerConf) (s : RefreshRun ε τ ι) : Prop where
  jobs : s.jobs.Ok conf
  invoked : s.jobs.InvokedCaptured
  joins : JoinsOnce spec (s.tasks.map (·.name))
  checking : ∀ t i, s.checking t = some i →
    s.jobs.workers t = .scheduling ∧ ∃ j, (j, i) ∈ s.keys ∧ (s.jobs.rows j).own t ≠ none
  keys : (s.keys.map (·.1)).Nodup
  created : ∀ j i, (j, i) ∈ s.keys → (s.jobs.log j).created

theorem Base.commitCompletion {engine : ε} (h : s.Base spec conf) :
    (s.commitCompletion spec engine own i state next).Base spec conf := by
  have hmid : ∀ next', JoinsOnce spec
      ((s.tasks.modify i fun e => { e with state, nextTasks := some next' }).map (·.name)) := fun next' => by
    rw [map_name_modify (f := fun e => { e with state, nextTasks := some next' }) fun _ => rfl]
    exact h.joins
  unfold RefreshRun.commitCompletion
  dsimp only
  split
  · refine { jobs := h.jobs, invoked := h.invoked, joins := ?_, checking := h.checking, keys := h.keys, created := h.created }
    rw [completedTasks_eq]
    exact (hmid _).runCommands _
  · exact { jobs := h.jobs, invoked := h.invoked, joins := hmid _, checking := h.checking, keys := h.keys, created := h.created }

/-- A refresh is to come for every join that waits without a reason. -/
structure Ok (spec : WorkflowSpec) (conf : SchedulerConf) (s : RefreshRun ε τ ι) : Prop extends s.Base spec conf where
  wakesUp : s.running → ∀ i, s.WakesUp spec i

theorem Ok.alike (h : s.Ok spec conf) (halike : Alike s s') : s'.Ok spec conf where
  jobs := halike.jobs ▸ h.jobs
  invoked := halike.jobs ▸ h.invoked
  joins := halike.tasks ▸ h.joins
  checking := by rw [halike.checking, halike.keys, halike.jobs]; exact h.checking
  keys := halike.keys ▸ h.keys
  created := by rw [halike.keys, halike.jobs]; exact h.created
  wakesUp hrunning i l hwaits hne := by
    unfold Waits at hwaits
    rw [halike.tasks] at hwaits
    refine (h.wakesUp (halike.running ▸ hrunning) i l hwaits hne).more ?_ halike.checking halike.keys halike.jobs
    rw [halike.checks]
    exact fun _ => id

theorem Ok.completion {engine : ε} (h : s.Base spec conf) (hrow : s.tasks[i]? = some e)
    (hown : spec.getTask e.name = some own) (hst : state.isCompleted) (hself : s.NotItself spec i)
    (heval : ∀ k ≠ i, ∀ err, ¬s.Waits spec k (.error err)) (hwakes : s.running → ∀ k ≠ i, s.WakesUp spec k) :
    (s.commitCompletion spec engine own i state next).Ok spec conf where
  toBase := h.commitCompletion
  wakesUp hrunning k := by
    have hrunning : s.running := by
      revert hrunning
      unfold commitCompletion
      dsimp only
      split
      · exact id
      · exact id
    exact wakesUp_completion hrow hown h.joins hst hrunning (hself e own hrow hown) heval (hwakes hrunning) k

theorem Base.setTask (h : s.Base spec conf) : (s.setTask i state).Base spec conf := by
  refine { jobs := h.jobs, invoked := h.invoked, joins := ?_, checking := h.checking, keys := h.keys, created := h.created }
  simp only [RefreshRun.setTask]
  rw [map_name_modify (f := fun e => { e with state }) fun _ => rfl]
  exact h.joins

/-- When a task is forced to fail, so is the workflow, and its joins wait for nothing. -/
theorem Ok.forceFailTask (h : s.Base spec conf) : (s.forceFailTask i).Ok spec conf where
  jobs := h.jobs
  invoked := h.invoked
  joins := by
    have hset : (s.setTask i .error).Base spec conf := h.setTask
    exact hset.joins
  checking := h.checking
  keys := h.keys
  created := h.created
  wakesUp hrunning := by cases hrunning

theorem Ok.complete {engine : ε} (h : s.Ok spec conf) (heval : s.Evaluates spec) (hself : s.NotItself spec i) :
    (s.complete spec engine i state result).Ok spec conf := by
  unfold RefreshRun.complete
  split
  · exact h
  next e hrow =>
    split
    · exact h
    next own hown =>
      split
      next hready =>
        unfold completeTask
        split
        · exact Ok.completion h.toBase hrow hown hready.2.2 hself (fun k _ err => heval k err) fun hrunning k _ =>
            h.wakesUp hrunning k
        next err _ =>
          -- What the handler does not catch leaves everything as it was.
          unfold failed
          split
          · exact Ok.forceFailTask h.toBase
          · exact h
      · exact h

/-- After the refresh of a join, it does not wait without a reason. -/
theorem Ok.refreshTaskState {engine : ε} (h : s.Base spec conf) (hself : s.NotItself spec i) (hrecorded : s.Recorded spec i)
    (hcaught : ∀ err, result = .error err → (err.caught? false).isSome)
    (heval : ∀ k ≠ i, ∀ err, ¬s.Waits spec k (.error err)) (hwakes : s.running → ∀ k ≠ i, s.WakesUp spec k) :
    (s.refreshTaskState spec engine i result).Ok spec conf := by
  have hsame : (s.running → s.WakesUp spec i) → s.Ok spec conf := fun hi => by
    refine ⟨h, fun hrunning k => ?_⟩
    by_cases hk : k = i
    · exact hk ▸ hi hrunning
    · exact hwakes hrunning k hk
  unfold RefreshRun.refreshTaskState
  split
  next hnone =>
    refine hsame fun _ l => ?_
    rintro ⟨e, u, he, -⟩
    rw [hnone] at he
    cases he
  next e hrow =>
    split
    next hskip =>
      refine hsame fun hrunning l => ?_
      rintro ⟨e', u, he', hwait, -⟩
      rw [hrow] at he'
      cases he'
      rw [hwait, hrunning] at hskip
      rcases hskip with hskip | hskip | hskip <;> cases hskip
    next hgo =>
      rw [not_or, not_or] at hgo
      split
      next hnone =>
        refine hsame fun _ l => ?_
        rintro ⟨e', u, he', -, hu, -⟩
        rw [hrow] at he'
        cases he'
        rw [hnone] at hu
        cases hu
      next own hown =>
        have hverdict : ∀ l, s.Waits spec i l → l = getLogicalTaskState spec (rowsOf s.tasks) own e := by
          rintro l ⟨e', u, he', -, hu, -, hl⟩
          rw [hrow] at he'
          cases he'
          rw [hown] at hu
          cases hu
          exact hl.symm
        split
        next err herr =>
          refine hsame fun _ l hwaits => ?_
          have := hverdict _ hwaits
          rw [herr] at this
          cases this
        next l hl =>
          split
          next hst =>
            unfold continueTask
            rw [resultOf_eq hrow hown hself hrecorded]
            split
            · exact ⟨h.setTask, fun hrunning => wakesUp_setTask hrow (eq_false_of_ne_true hgo.1) (hwakes hrunning)⟩
            next err =>
              rw [failed, if_pos (hcaught err rfl)]
              exact Ok.forceFailTask h
          next hst =>
            unfold completeTask
            rw [resultOf_eq hrow hown hself hrecorded]
            split
            · exact Ok.completion h hrow hown rfl hself heval hwakes
            next err =>
              rw [failed, if_pos (Exc.caught?_lib (hcaught err rfl))]
              exact Ok.forceFailTask h
          next hrunning herror =>
            refine hsame fun _ l' hwaits hne => ?_
            have hll := hverdict _ hwaits
            rw [hl] at hll
            cases hll
            obtain ⟨e', u, -, -, -, hjoin, hlogical⟩ := hwaits
            obtain ⟨join, hlogical'⟩ := logical_eq spec hjoin
            rw [hlogical'] at hlogical
            obtain hst | hst | hst := joinVerdict_state hlogical
            · exact absurd hst hrunning
            · exact absurd hst herror
            · exact absurd hst hne

theorem ok_initial {tasks : List TaskEx} (h : ∀ e ∈ tasks, ∀ u, spec.getTask e.name = some u → u.isJoin = false) :
    ({ tasks } : RefreshRun ε τ ι).Ok spec conf where
  jobs := JobStore.ok_start
  invoked j hj := absurd rfl hj
  joins i k name u hi hk hu hjoin := by
    simp only [List.getElem?_map, Option.map_eq_some_iff] at hi
    obtain ⟨e, he, rfl⟩ := hi
    rw [h e (List.mem_of_getElem? he) u hu] at hjoin
    cases hjoin
  checking t i ht := by cases ht
  keys := List.nodup_nil
  created j i hj := by cases hj
  wakesUp _ i l hwaits := by
    obtain ⟨e, u, he, -, hu, hjoin, -⟩ := hwaits
    rw [h e (List.mem_of_getElem? he) u hu] at hjoin
    cases hjoin

end

/-! ### The jobs -/

section
variable [DecidableEq τ]

theorem key_unique (h : s.Base spec conf) {j : ι} (hi : (j, i) ∈ s.keys) (hk : (j, k) ∈ s.keys) : i = k := by
  have hinj := List.inj_on_of_nodup_map h.keys hi hk rfl
  exact (Prod.mk.inj hinj).2

/-- A job that the check finds will be evaluated. -/
theorem coming_of_hasScheduledJobs (h : s.Base spec conf) (hidle : s.jobs.workers t = .idle)
    (hsafe : ∀ j, (j, i) ∈ s.keys → s.inMemoryJobs (engineOf t) j = some none →
      s.ToEvaluate j ∨ ∃ u, s.checking u = some i) (hfound : s.hasScheduledJobs engineOf t i) :
    (∃ u, s.checking u = some i) ∨ ∃ j, (j, i) ∈ s.keys ∧ s.ToEvaluate j := by
  obtain ⟨⟨j, key⟩, hj, hfound⟩ := List.any_eq_true.mp hfound
  simp only [Bool.and_eq_true, beq_iff_eq, Bool.or_eq_true] at hfound
  obtain ⟨rfl, hmemory | hstore⟩ := hfound
  · obtain hto | hchecking := hsafe j hj hmemory
    · exact .inr ⟨j, hj, hto⟩
    · exact .inl hchecking
  · have hown : (s.jobs.rows j).own t = none := by
      have hworker := h.jobs.worker t
      unfold JobStore.WorkerOk at hworker
      rw [hidle] at hworker
      exact hworker j
    rw [Cell.read_of_own_none hown, Option.any_eq_true] at hstore
    obtain ⟨row, hrow, hcaptured⟩ := hstore
    exact .inr ⟨j, hj, by simp [hrow], JobStore.not_invoked h.invoked h.jobs hrow (by simpa using hcaptured)⟩

section
variable [DecidableEq ι]

/-- The step meets the condition under which no wake-up is lost: the logical states of the waiting joins can be computed
    where a task is completed, and no join triggers itself; a refresh finds the next tasks of the inbound tasks, and raises
    nothing that its handlers do not catch; a check that finds a job in memory that is not captured finds
    one that will be evaluated, or whose transaction goes on; and a check that is rolled back is repeated. -/
def Safe (spec : WorkflowSpec) (engineOf : τ → ε) (s : RefreshRun ε τ ι) : RefreshEvent ε τ ι → Prop
  | .complete _ i _ _ => s.Evaluates spec ∧ s.NotItself spec i
  | .run t result => ∀ j todo i, s.jobs.workers t = .invoking (j :: todo) → s.keys.lookup j = some i →
      s.Evaluates spec ∧ s.NotItself spec i ∧ s.Recorded spec i ∧
        ∀ err, result = .error err → (err.caught? false).isSome
  | .scheduleIfNeeded t check _ => ∀ j, (j, check.taskEx) ∈ s.keys → s.inMemoryJobs (engineOf t) j = some none →
      s.ToEvaluate j ∨ ∃ u, s.checking u = some check.taskEx
  | .rollback t again => (s.checking t).isSome → again
  | _ => True

theorem lookup_key (h : s.Base spec conf) {j : ι} (hi : (j, i) ∈ s.keys) : s.keys.lookup j = some i := by
  cases hlookup : s.keys.lookup j with
  | none =>
    have hnot := List.lookup_eq_none_iff.mp hlookup (j, i) hi
    simp at hnot
  | some k =>
    obtain ⟨l₁, l₂, hkeys, -⟩ := List.lookup_eq_some_iff.mp hlookup
    rw [key_unique h hi (k := k) (by simp [hkeys])]

/-- What the insertion of a new job does to the transaction. -/
theorem schedule_new (conf : SchedulerConf) (hidle : s.jobs.workers t = .idle) {j : ι} (hnew : (s.jobs.log j).created = false) :
    (s.jobs.step conf (.schedule t j 0)).workers t = .scheduling ∧
      ((s.jobs.step conf (.schedule t j 0)).rows j).own t ≠ none ∧
      ((s.jobs.step conf (.schedule t j 0)).log j).created := by
  have hready : (s.jobs.workers t = .idle ∨ s.jobs.workers t = .scheduling) ∧ (s.jobs.log j).created = false :=
    ⟨.inl hidle, hnew⟩
  rw [JobStore.step, JobStore.schedule, if_pos hready]
  simp [JobStore.setWorker, JobStore.setRow, JobStore.setLog]

/-- A step of the scheduler that evaluates no join. -/
theorem Base.jobs_step (h : s.Base spec conf) (e : JobEvent τ ι) (hjobs : s'.jobs = s.jobs.step conf e)
    (htasks : s'.tasks = s.tasks) (hkeys : s'.keys = s.keys)
    (hchecking : ∀ t i, s'.checking t = some i → s.checking t = some i ∧ e ≠ .run t ∧ e ≠ .crash t)
    (hschedule : ∀ t j n, e ≠ .schedule t j n) : s'.Base spec conf where
  jobs := hjobs ▸ h.jobs.step e
  invoked := hjobs ▸ h.invoked.step h.jobs e
  joins := htasks ▸ h.joins
  checking t i ht := by
    obtain ⟨ht, hrun, hcrash⟩ := hchecking t i ht
    obtain ⟨hworker, j, hj, hown⟩ := h.checking t i ht
    obtain ⟨hworker', hown'⟩ := JobStore.scheduling_step h.jobs hworker hown hrun hcrash (hschedule t)
    rw [hjobs, hkeys]
    exact ⟨hworker', j, hj, hown'⟩
  keys := hkeys ▸ h.keys
  created j i hj := by
    rw [hjobs]
    exact (JobStore.logGrows s.jobs e j).created (h.created j i (hkeys ▸ hj))

/-- What is to come stays during a step of the scheduler that does not evaluate the join. -/
theorem RefreshComing.jobs_step (h : s.RefreshComing i) (hbase : s.Base spec conf) (e : JobEvent τ ι)
    (hjobs : s'.jobs = s.jobs.step conf e) (hkeys : s'.keys = s.keys)
    (hchecks : ∀ check ∈ s.checks, check ∈ s'.checks)
    (hchecking : ∀ t, s.checking t = some i → s'.checking t = some i ∨ s'.RefreshComing i)
    (hnot : ∀ j, (j, i) ∈ s.keys → ∀ t todo, e = .run t → s.jobs.workers t ≠ .invoking (j :: todo)) :
    s'.RefreshComing i := by
  obtain ⟨check, hcheck, hname⟩ | ⟨t, ht⟩ | ⟨j, hj, hrow, hinvoked⟩ := h
  · exact .inl ⟨check, hchecks check hcheck, hname⟩
  · obtain ht | hcoming := hchecking t ht
    · exact .inr (.inl ⟨t, ht⟩)
    · exact hcoming
  · refine .inr (.inr ⟨j, hkeys ▸ hj, ?_⟩)
    unfold ToEvaluate
    rw [hjobs]
    exact JobStore.uninvoked_step hbase.jobs hrow hinvoked e (hnot j hj)

theorem WakesUp.jobs_step (h : s.WakesUp spec i) (hbase : s.Base spec conf) (e : JobEvent τ ι)
    (hjobs : s'.jobs = s.jobs.step conf e) (htasks : s'.tasks = s.tasks) (hkeys : s'.keys = s.keys)
    (hchecks : ∀ check ∈ s.checks, check ∈ s'.checks)
    (hchecking : ∀ t, s.checking t = some i → s'.checking t = some i ∨ s'.RefreshComing i)
    (hnot : ∀ j, (j, i) ∈ s.keys → ∀ t todo, e = .run t → s.jobs.workers t ≠ .invoking (j :: todo)) :
    s'.WakesUp spec i := by
  intro l hwaits hne
  unfold Waits at hwaits
  rw [htasks] at hwaits
  exact (h l hwaits hne).jobs_step hbase e hjobs hkeys hchecks hchecking hnot

/-- A worker that schedules nothing leaves the checks alone. -/
theorem Ok.run_other (h : s.Ok spec conf) {s' : RefreshRun ε τ ι} (e : JobEvent τ ι)
    (hjobs : s'.jobs = s.jobs.step conf e) (htasks : s'.tasks = s.tasks) (hrunning : s'.running = s.running)
    (hkeys : s'.keys = s.keys) (hchecks : s'.checks = s.checks) (hchecking : s'.checking = s.checking)
    (hothers : ∀ t i, s.checking t = some i → e ≠ .run t ∧ e ≠ .crash t) (hschedule : ∀ t j n, e ≠ .schedule t j n)
    (hnot : ∀ i j, (j, i) ∈ s.keys → ∀ t todo, e = .run t → s.jobs.workers t ≠ .invoking (j :: todo)) :
    s'.Ok spec conf where
  toBase := h.toBase.jobs_step e hjobs htasks hkeys (fun t i ht => by
    rw [hchecking] at ht
    exact ⟨ht, hothers t i ht⟩) hschedule
  wakesUp hrun i := (h.wakesUp (hrunning ▸ hrun) i).jobs_step h.toBase e hjobs htasks hkeys
    (fun check hcheck => hchecks ▸ hcheck) (fun t ht => .inl (by rw [hchecking, ht])) fun j hj => hnot i j hj

theorem Ok.dispatch (h : s.Ok spec conf) {job : ι} : (s.dispatch conf engineOf t job).Ok spec conf := by
  unfold RefreshRun.dispatch
  split
  · dsimp only
    split
    · exact h
    · exact h.run_other (.dispatch t job) rfl rfl rfl rfl rfl rfl (fun _ _ _ => ⟨nofun, nofun⟩) (fun _ _ _ => nofun)
        fun _ _ _ _ _ => nofun
  · exact h

section
variable [DecidableEq ε]

theorem alike_forget (s : RefreshRun ε τ ι) (t : τ) : Alike s (s.forget engineOf t) := by
  unfold forget
  split
  · exact ⟨rfl, rfl, rfl, rfl, rfl, rfl⟩
  · exact .refl s

theorem Ok.run (h : s.Ok spec conf) (hsafe : s.Safe spec engineOf (.run t result)) :
    (s.run spec conf engineOf t result).Ok spec conf := by
  have hothers : s.jobs.workers t ≠ .scheduling → ∀ u i, s.checking u = some i →
      (JobEvent.run t : JobEvent τ ι) ≠ .run u ∧ (JobEvent.run t : JobEvent τ ι) ≠ .crash u := by
    refine fun hworker u i hu => ⟨fun heq => ?_, nofun⟩
    cases heq
    exact hworker (h.checking t i hu).1
  have hother : (∀ i j, (j, i) ∈ s.keys → ∀ todo, s.jobs.workers t ≠ .invoking (j :: todo)) →
      s.jobs.workers t ≠ .scheduling → ({ s with jobs := s.jobs.step conf (.run t) } : RefreshRun ε τ ι).Ok spec conf :=
    fun hnot hworker => h.run_other (.run t) rfl rfl rfl rfl rfl rfl (hothers hworker) (fun _ _ _ => nofun)
      fun i j hj u todo heq => by
        cases heq
        exact hnot i j hj todo
  unfold RefreshRun.run
  cases hworker : s.jobs.workers t with
  | scheduling =>
    dsimp only
    have hbase : ({ s with jobs := s.jobs.step conf (.run t), checking := Function.update s.checking t none } :
        RefreshRun ε τ ι).Base spec conf := by
      refine h.toBase.jobs_step (.run t) rfl rfl rfl (fun u i hu => ?_) fun _ _ _ => nofun
      by_cases hut : u = t
      · subst hut
        simp at hu
      · simp only [Function.update_of_ne hut] at hu
        exact ⟨hu, fun heq => hut (JobEvent.run.inj heq).symm, nofun⟩
    refine ⟨hbase, fun hrunning i => (h.wakesUp hrunning i).jobs_step h.toBase (.run t) rfl rfl rfl (fun _ => id)
      (fun u hu => ?_) fun j _ u todo heq => ?_⟩
    · by_cases hut : u = t
      · subst hut
        obtain ⟨-, j, hj, hown⟩ := h.checking u i hu
        exact .inr (.inr (.inr ⟨j, hj, JobStore.uninvoked_commit h.jobs hworker hown⟩))
      · exact .inl (by simp [hut, hu])
    · cases heq
      rw [hworker]
      nofun
  | invoking todo =>
    cases todo with
    | nil =>
      dsimp only
      refine ((hother (fun _ _ _ _ => ?_) ?_).alike (alike_markCaptured _ t)).alike (alike_forget _ t)
      · rw [hworker]
        nofun
      · rw [hworker]
        nofun
    | cons j todo =>
      dsimp only
      have hscheduling : s.jobs.workers t ≠ .scheduling := by
        rw [hworker]
        nofun
      split
      next i hi =>
        obtain ⟨heval, hself, hrecorded, hcaught⟩ := hsafe j todo i hworker hi
        have hbase : ({ s with jobs := s.jobs.step conf (.run t) } : RefreshRun ε τ ι).Base spec conf :=
          h.toBase.jobs_step (.run t) rfl rfl rfl (fun u i hu => ⟨hu, hothers hscheduling u i hu⟩) fun _ _ _ => nofun
        refine Ok.refreshTaskState hbase hself hrecorded hcaught (fun k _ err => heval k err) fun hrunning k hk => ?_
        refine (h.wakesUp hrunning k).jobs_step h.toBase (.run t) rfl rfl rfl (fun _ => id) (fun _ => .inl)
          fun j' hj' u todo' heq hworker' => hk ?_
        cases heq
        rw [hworker] at hworker'
        cases hworker'
        rw [lookup_key h.toBase hj'] at hi
        exact Option.some.inj hi
      next hnone =>
        refine hother (fun i j' hj' todo' hworker' => ?_) hscheduling
        rw [hworker] at hworker'
        cases hworker'
        rw [lookup_key h.toBase hj'] at hnone
        cases hnone
  | idle | capturing | deleting =>
    dsimp only
    refine ((hother (fun _ _ _ _ => ?_) ?_).alike (alike_markCaptured _ t)).alike (alike_forget _ t)
    · rw [hworker]
      nofun
    · rw [hworker]
      nofun

theorem Ok.scheduleIfNeeded (h : s.Ok spec conf) {check : RefreshCheck ε} {job : ι}
    (hsafe : s.Safe spec engineOf (.scheduleIfNeeded t check job)) :
    (s.scheduleIfNeeded conf engineOf t check job).Ok spec conf := by
  unfold RefreshRun.scheduleIfNeeded
  split
  next hready =>
    obtain ⟨-, -, hidle, hnew⟩ := hready
    have hothers : ∀ c ∈ s.checks, c ≠ check → c ∈ s.checks.erase check := fun c hc hne =>
      (List.mem_erase_of_ne hne).mpr hc
    have hidle' : ∀ {u i}, s.checking u = some i → u ≠ t := by
      rintro u i hu rfl
      rw [(h.checking u i hu).1] at hidle
      cases hidle
    dsimp only
    split
    next hfound =>
      refine ⟨{ jobs := h.jobs, invoked := h.invoked, joins := h.joins, checking := h.checking, keys := h.keys
                created := h.created }, fun hrunning i l hwaits hne => ?_⟩
      have hcoming : s.RefreshComing i := h.wakesUp hrunning i l hwaits hne
      obtain ⟨c, hc, rfl⟩ | hlater := hcoming
      · by_cases hcheck : c = check
        · subst hcheck
          have hlater := coming_of_hasScheduledJobs h.toBase hidle hsafe hfound
          exact .inr hlater
        · exact .inl ⟨c, hothers c hc hcheck, rfl⟩
      · exact .inr hlater
    next hnone =>
      have hfresh : ∀ i, (job, i) ∉ s.keys := fun i hi => by
        have hcreated := h.created job i hi
        rw [hnew] at hcreated
        cases hcreated
      obtain ⟨hworker, hown, hcreated⟩ := schedule_new conf hidle hnew
      refine ⟨{ jobs := h.jobs.step (.schedule t job 0), invoked := h.invoked.step h.jobs (.schedule t job 0), joins := h.joins, checking := fun u i hu => ?_
                keys := ?_, created := fun j i hj => ?_ }, fun hrunning i l hwaits hne => ?_⟩
      · by_cases hut : u = t
        · subst hut
          simp only [Function.update_self, Option.some.injEq] at hu
          subst hu
          exact ⟨hworker, job, List.mem_cons_self, hown⟩
        · simp only [Function.update_of_ne hut] at hu
          obtain ⟨hw, j, hj, ho⟩ := h.checking u i hu
          obtain ⟨hw', ho'⟩ := JobStore.scheduling_step (e := .schedule t job 0) h.jobs hw ho nofun nofun
            fun j' n heq => hut (JobEvent.schedule.inj heq).1.symm
          exact ⟨hw', j, List.mem_cons_of_mem _ hj, ho'⟩
      · refine List.nodup_cons.mpr ⟨fun hmem => ?_, h.keys⟩
        obtain ⟨⟨j, i⟩, hj, rfl⟩ := List.mem_map.mp hmem
        exact hfresh i hj
      · obtain hj | hj := List.mem_cons.mp hj
        · cases hj
          exact hcreated
        · exact (JobStore.logGrows s.jobs (.schedule t job 0) j).created (h.created j i hj)
      · have hcoming : s.RefreshComing i := h.wakesUp hrunning i l hwaits hne
        obtain ⟨c, hc, rfl⟩ | ⟨u, hu⟩ | ⟨j, hj, hrow, hinvoked⟩ := hcoming
        · by_cases hcheck : c = check
          · subst hcheck
            exact .inr (.inl ⟨t, Function.update_self _ _ _⟩)
          · exact .inl ⟨c, hothers c hc hcheck, rfl⟩
        · exact .inr (.inl ⟨u, by simpa [hidle' hu] using hu⟩)
        · exact .inr (.inr ⟨j, List.mem_cons_of_mem _ hj, JobStore.uninvoked_step h.jobs hrow hinvoked _ nofun⟩)
  · exact h

theorem Ok.rollback (h : s.Ok spec conf) {again : Bool} (hsafe : s.Safe spec engineOf (.rollback t again)) :
    (s.rollback conf engineOf t again).Ok spec conf := by
  refine Ok.alike ?_ (alike_forget _ t)
  have hchecking : ∀ u i, Function.update s.checking t none u = some i → u ≠ t ∧ s.checking u = some i := by
    intro u i hu
    by_cases hut : u = t
    · subst hut
      simp at hu
    · exact ⟨hut, by simpa [hut] using hu⟩
  refine ⟨h.toBase.jobs_step (.crash t) rfl rfl rfl (fun u i hu => ?_) fun _ _ _ => nofun, fun hrunning i => ?_⟩
  · obtain ⟨hut, hu⟩ := hchecking u i hu
    exact ⟨hu, nofun, fun heq => hut (JobEvent.crash.inj heq).symm⟩
  · refine (h.wakesUp hrunning i).jobs_step h.toBase (.crash t) rfl rfl rfl (fun c hc => ?_) (fun u hu => ?_) fun _ _ _ _ => nofun
    · dsimp only
      split
      · exact List.mem_append_left _ hc
      · exact hc
    · by_cases hut : u = t
      · subst hut
        obtain rfl : again = true := hsafe (by simp [hu])
        exact .inr (.inl ⟨⟨engineOf u, i⟩, by simp [hu], rfl⟩)
      · exact .inl (by simpa [hut] using hu)

theorem Ok.step (h : s.Ok spec conf) {e : RefreshEvent ε τ ι} (hsafe : s.Safe spec engineOf e) :
    (s.step spec conf engineOf e).Ok spec conf := by
  cases e with
  | complete engine i state result => exact h.complete hsafe.1 hsafe.2
  | scheduleIfNeeded t check job => exact h.scheduleIfNeeded hsafe
  | rollback t again => exact h.rollback hsafe
  | dispatch t job => exact h.dispatch
  | poll t jobs =>
    exact h.run_other (.poll t jobs) rfl rfl rfl rfl rfl rfl (fun _ _ _ => ⟨nofun, nofun⟩) (fun _ _ _ => nofun)
      fun _ _ _ _ _ => nofun
  | run t result => exact h.run hsafe
  | endWorkflow =>
    exact ⟨{ jobs := h.jobs, invoked := h.invoked, joins := h.joins, checking := h.checking, keys := h.keys
             created := h.created }, fun hrunning => nomatch hrunning⟩
  | tick n =>
    exact h.run_other (.tick n) rfl rfl rfl rfl rfl rfl (fun _ _ _ => ⟨nofun, nofun⟩) (fun _ _ _ => nofun)
      fun _ _ _ _ _ => nofun

end
end
end
end RefreshRun

/-- In every state that steps of a kind reach, a refresh is to come for every join of a running workflow that waits while its
    logical state is another. -/
def NoLostWakeUp (ε τ ι : Type) [DecidableEq ε] [DecidableEq τ] [DecidableEq ι]
    (guard : WorkflowSpec → (τ → ε) → RefreshRun ε τ ι → RefreshEvent ε τ ι → Prop) : Prop :=
  ∀ spec conf engineOf s, (refreshSystem ε τ ι spec conf engineOf).Reach (guard spec engineOf) s → s.running →
    ∀ i l, s.Waits spec i (.ok l) → l.state ≠ .waiting → s.RefreshComing i

/-- No wake-up is lost in a run whose checks find no job in memory that is not to be evaluated any more. -/
theorem no_wake_up_lost (ε τ ι : Type) [DecidableEq ε] [DecidableEq τ] [DecidableEq ι] :
    NoLostWakeUp ε τ ι RefreshRun.Safe := by
  intro spec conf engineOf s hreach hrunning
  have hok : s.Ok spec conf := hreach.invariant (fun s hinit => by
    obtain ⟨tasks, rfl, htasks⟩ := hinit
    exact RefreshRun.ok_initial htasks) fun s e _ h hsafe => h.step hsafe
  exact hok.wakesUp hrunning

theorem twoInbound_nodup : ["a", "b", "j"].Nodup := by decide

/-- The join `j` waits for `a` and `b`. -/
def twoInboundSpec : WorkflowSpec where
  tasks := [{ name := "a", onSuccess := [{ name := "j" }] }, { name := "b", onSuccess := [{ name := "j" }] },
    { name := "j", join := some .all }]
  nodup := twoInbound_nodup

/-- Both inbound tasks run. -/
def twoInboundTasks : List TaskEx := [{ name := "a", state := .running }, { name := "b", state := .running }]

local instance refresh_neZero₂ : NeZero 2 := ⟨Nat.succ_ne_zero 1⟩

local instance refresh_neZero₃ : NeZero 3 := ⟨Nat.succ_ne_zero 2⟩

/-- The transaction of a check is rolled back, and its job in memory makes the later checks do nothing. -/
def lostRefresh : List (RefreshEvent Unit (Fin 2) (Fin 3)) :=
  [.complete () 0 .success (.ok [("j", some (.clause .onSuccess))]),
    .complete () 1 .success (.ok [("j", some (.clause .onSuccess))]),
    .scheduleIfNeeded 0 ⟨(), 2⟩ 0, .rollback 0 true, .scheduleIfNeeded 0 ⟨(), 2⟩ 1, .scheduleIfNeeded 0 ⟨(), 2⟩ 2,
    .dispatch 1 0, .run 1 (.ok []), .run 1 (.ok []), .run 1 (.ok [])]

theorem rolled_back_check_loses_refresh : ¬NoLostWakeUp Unit (Fin 2) (Fin 3) fun _ _ _ _ => True := by
  intro h
  let sys := refreshSystem Unit (Fin 2) (Fin 3) twoInboundSpec tenTicks fun _ => ()
  have hreach : sys.Reach (fun _ _ => True) (sys.run { tasks := twoInboundTasks } lostRefresh) := by
    refine .run (.init ⟨twoInboundTasks, rfl, ?_⟩) (by simp [lostRefresh, System.Guarded])
    decide
  have hcoming := h twoInboundSpec tenTicks (fun _ => ()) _ hreach (by decide) 2
    { state := .running, triggeredBy := [⟨0, some (.clause .onSuccess)⟩, ⟨1, some (.clause .onSuccess)⟩] }
    ⟨{ name := "j", state := .waiting }, { name := "j", join := some .all }, by decide, rfl, by decide, by decide, by decide⟩ (by rintro ⟨⟩)
  have hchecks : (sys.run { tasks := twoInboundTasks } lostRefresh).checks = [] := by decide
  have hchecking : ∀ t, (sys.run { tasks := twoInboundTasks } lostRefresh).checking t = none := by decide
  have hrows : ∀ j, ((sys.run { tasks := twoInboundTasks } lostRefresh).jobs.rows j).committed = none := by decide
  obtain ⟨check, hcheck, -⟩ | ⟨t, ht⟩ | ⟨j, -, hrow, -⟩ := hcoming
  · rw [hchecks] at hcheck
    cases hcheck
  · rw [hchecking] at ht
    cases ht
  · rw [hrows] at hrow
    cases hrow

end Mistral
