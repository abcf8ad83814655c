import Mathlib.Algebra.GroupWithZero.Nat
import Mistral.Lib.Worklists
import Mistral.Workflow.JoinVerdicts

/-! The search of `find_indirectly_affected_task_executions` (`mistral/workflow/direct_workflow.py`). The names to look at
    are a set, and `pop` takes any of them. -/

namespace Mistral

section
variable (spec : WorkflowSpec) (rows : List (TaskId × TaskEx))

/-- `t_execs_cache.get(name)` for the name of a join: its execution. -/
def joinExecution (name : String) : Option TaskId :=
  match spec.getTask name with
  | none => none
  | some u => if u.isJoin then (lastNamed rows name).map (·.1) else none

/-- What a name that was taken from the set adds to it: nothing for an engine command and for a join that has an
    execution. -/
def addedNames (name : String) : List String :=
  match spec.getTask name with
  | none => []
  | some u => if (joinExecution spec rows name).isSome then [] else spec.findOutboundTaskNames u

def clausesAfter (name : String) : Finset String := (addedNames spec rows name).toFinset

/-- The loop before its first round. -/
def affectedStart (t : TaskSpec) : Worklist String TaskId := .begin t.name (spec.findOutboundTaskNames t).toFinset

/-- Rounds of the loop, one after another. -/
def AffectedRounds : Worklist String TaskId → Worklist String TaskId → Prop :=
  Worklist.Rounds (clausesAfter spec rows) (joinExecution spec rows)

end

variable {spec : WorkflowSpec} {rows : List (TaskId × TaskEx)} {t u : TaskSpec} {name : String}

theorem addedNames_cases (spec : WorkflowSpec) (rows : List (TaskId × TaskEx)) (name : String) :
    addedNames spec rows name = [] ∨
      ∃ u ∈ spec.tasks, u.name = name ∧ addedNames spec rows name = spec.findOutboundTaskNames u := by
  unfold addedNames
  cases hu : spec.getTask name with
  | none => exact .inl rfl
  | some u =>
    obtain ⟨hmem, hname⟩ := WorkflowSpec.getTask_eq_some hu
    dsimp only
    split
    · exact .inl rfl
    · exact .inr ⟨u, hmem, hname, rfl⟩

theorem clausesAfter_subset (name : String) :
    clausesAfter spec rows name ⊆ (spec.tasks.flatMap spec.findOutboundTaskNames).toFinset := by
  intro n hn
  simp only [clausesAfter, List.mem_toFinset, List.mem_flatMap] at hn ⊢
  rcases addedNames_cases spec rows name with hnone | ⟨u, hu, -, hadded⟩
  · rw [hnone] at hn
    cases hn
  · exact ⟨u, hu, hadded ▸ hn⟩

/-- The loop comes to an end. -/
theorem affected_terminates (spec : WorkflowSpec) (rows : List (TaskId × TaskEx)) :
    WellFounded fun w' w => Worklist.Round (clausesAfter spec rows) (joinExecution spec rows) w w' :=
  Worklist.wellFounded_round clausesAfter_subset

theorem clausesAfter_start (ht : t ∈ spec.tasks) :
    clausesAfter spec rows t.name ⊆ (spec.findOutboundTaskNames t).toFinset := by
  intro n hn
  rw [clausesAfter, List.mem_toFinset] at hn
  rw [List.mem_toFinset]
  rcases addedNames_cases spec rows t.name with hnone | ⟨u, hu, hname, hadded⟩
  · rw [hnone] at hn
    cases hn
  · obtain rfl := WorkflowSpec.eq_of_name hu ht hname
    exact hadded ▸ hn

/-! ### The engine's order -/

/-- How many names the tasks that were not visited yet may add. -/
def unvisited (tasks : List TaskSpec) (spec : WorkflowSpec) (visited : List String) : ℕ :=
  (tasks.map fun u => if u.name ∈ visited then 0 else (spec.findOutboundTaskNames u).length).sum

theorem unvisited_cons_le {tasks : List TaskSpec} {visited : List String} :
    unvisited tasks spec (name :: visited) ≤ unvisited tasks spec visited := by
  induction tasks with
  | nil => exact Nat.le_refl _
  | cons u us ih =>
    simp only [unvisited, List.map_cons, List.sum_cons, List.mem_cons] at ih ⊢
    refine Nat.add_le_add ?_ ih
    split
    · exact Nat.zero_le _
    next hnot =>
      rw [if_neg fun hmem => hnot (.inr hmem)]

theorem unvisited_cons {tasks : List TaskSpec} {visited : List String} (hu : u ∈ tasks) (hnot : u.name ∉ visited) :
    unvisited tasks spec (u.name :: visited) + (spec.findOutboundTaskNames u).length ≤ unvisited tasks spec visited := by
  induction tasks with
  | nil => cases hu
  | cons u' us ih =>
    rcases List.mem_cons.mp hu with rfl | hu
    · have hrest : unvisited us spec (u.name :: visited) ≤ unvisited us spec visited := unvisited_cons_le
      simp only [unvisited, List.map_cons, List.sum_cons, List.mem_cons, true_or, if_true, if_neg hnot] at hrest ⊢
      omega
    · have hrest := ih hu
      have hfirst : unvisited [u'] spec (u.name :: visited) ≤ unvisited [u'] spec visited := unvisited_cons_le
      simp only [unvisited, List.map_cons, List.sum_cons, List.map_nil, List.sum_nil] at hrest hfirst ⊢
      omega

/-- A round of the engine's search that takes a new name. -/
theorem searchAffected_cons {fuel : ℕ} {visited clauses : List String} (h : name ∉ visited) :
    searchAffected spec rows (fuel + 1) visited (name :: clauses) =
      (joinExecution spec rows name).toList ++ searchAffected spec rows fuel (name :: visited)
        (clauses ++ (addedNames spec rows name).dedup.filter (· ∉ clauses)) := by
  cases hget : spec.getTask name with
  | none => simp [searchAffected, addedNames, joinExecution, h, hget]
  | some u =>
    cases hjoin : u.isJoin with
    | false => simp [searchAffected, addedNames, joinExecution, h, hget, hjoin]
    | true =>
      cases hlast : lastNamed rows name with
      | none => simp [searchAffected, addedNames, joinExecution, h, hget, hjoin, hlast]
      | some r => simp [searchAffected, addedNames, joinExecution, h, hget, hjoin, hlast]

/-- The search of the engine is one of the loop's runs, in which the set is a list and its first name is taken. -/
theorem searchAffected_rounds {fuel : ℕ} {visited clauses : List String} {w : Worklist String TaskId}
    (hseen : w.seen = visited.toFinset) (htodo : w.todo = clauses.toFinset) (hnodup : clauses.Nodup)
    (hfuel : clauses.length + unvisited spec.tasks spec visited < fuel) :
    ∃ w', AffectedRounds spec rows w w' ∧ w'.todo = ∅ ∧
      w'.found = w.found ∪ (searchAffected spec rows fuel visited clauses).toFinset := by
  induction fuel generalizing visited clauses w with
  | zero => exact absurd hfuel (Nat.not_lt_zero _)
  | succ fuel ih =>
    cases clauses with
    | nil => exact ⟨w, .refl, by simpa using htodo, by simp [searchAffected]⟩
    | cons name clauses =>
      obtain ⟨hhead, hnodup⟩ := List.nodup_cons.mp hnodup
      have hmem : name ∈ w.todo := by simp [htodo]
      have herase : w.todo.erase name = clauses.toFinset := by
        rw [htodo, List.toFinset_cons, Finset.erase_insert (by simpa using hhead)]
      have hround : Worklist.Round (clausesAfter spec rows) (joinExecution spec rows) w (w.take _ _ name) :=
        ⟨name, hmem, rfl⟩
      rw [List.length_cons] at hfuel
      by_cases hold : name ∈ visited
      · have hin : name ∈ w.seen := by simpa [hseen] using hold
        obtain ⟨w', hrun, hdone, hfound⟩ := ih (w := w.take (clausesAfter spec rows) (joinExecution spec rows) name)
          (by rw [Worklist.seen_take, hseen, Finset.insert_eq_of_mem (by simpa using hold)])
          (by rw [Worklist.todo_take_of_mem hin, herase]) hnodup (by omega)
        refine ⟨w', .head hround hrun, hdone, ?_⟩
        rw [hfound, Worklist.found_take_of_mem hin, searchAffected, if_pos hold]
      · have hin : name ∉ w.seen := by simpa [hseen] using hold
        have hseen' : (w.take (clausesAfter spec rows) (joinExecution spec rows) name).seen =
            (name :: visited).toFinset := by
          rw [Worklist.seen_take, hseen, List.toFinset_cons]
        have htodo' : (w.take (clausesAfter spec rows) (joinExecution spec rows) name).todo =
            (clauses ++ (addedNames spec rows name).dedup.filter (· ∉ clauses)).toFinset := by
          ext n
          simp only [Worklist.todo_take_of_not_mem hin, herase, clausesAfter, Finset.mem_union, List.mem_toFinset,
            List.mem_append, List.mem_filter, List.mem_dedup, decide_eq_true_eq]
          tauto
        have hnodup' : (clauses ++ (addedNames spec rows name).dedup.filter (· ∉ clauses)).Nodup := by
          refine List.Nodup.append hnodup ((List.nodup_dedup _).filter _) fun n hn hn' => ?_
          simp only [List.mem_filter, decide_eq_true_eq] at hn'
          exact hn'.2 hn
        have hadded : ((addedNames spec rows name).dedup.filter (· ∉ clauses)).length ≤
            (addedNames spec rows name).length :=
          (List.length_filter_le _ _).trans (List.dedup_sublist _).length_le
        have hmeasure : unvisited spec.tasks spec (name :: visited) + (addedNames spec rows name).length ≤
            unvisited spec.tasks spec visited := by
          rcases addedNames_cases spec rows name with hnone | ⟨u, hu, rfl, hadded⟩
          · rw [hnone]
            exact unvisited_cons_le
          · rw [hadded]
            exact unvisited_cons hu hold
        obtain ⟨w', hrun, hdone, hfound⟩ := ih (w := w.take (clausesAfter spec rows) (joinExecution spec rows) name)
          hseen' htodo' hnodup' (by rw [List.length_append]; omega)
        refine ⟨w', .head hround hrun, hdone, ?_⟩
        rw [hfound, Worklist.found_take_of_not_mem hin, searchAffected_cons hold, List.toFinset_append,
          Finset.union_assoc]
        congr 1
        ext x
        simp

theorem foldl_outbound (us : List TaskSpec) (n : ℕ) :
    us.foldl (fun n u => n + (spec.findOutboundTaskNames u).length) n =
      n + (us.map fun u => (spec.findOutboundTaskNames u).length).sum := by
  induction us generalizing n with
  | nil => rfl
  | cons u us ih =>
    rw [List.foldl_cons, ih, List.map_cons, List.sum_cons, Nat.add_assoc]

/-- What the engine finds is what one run of the loop finds: the rounds that it is given are enough. -/
theorem findIndirectlyAffected_rounds (spec : WorkflowSpec) (rows : List (TaskId × TaskEx)) (t : TaskSpec) :
    ∃ w, AffectedRounds spec rows (affectedStart spec t) w ∧ w.todo = ∅ ∧
      w.found = (findIndirectlyAffectedTaskExecutions spec rows t).toFinset := by
  have hle : unvisited spec.tasks spec [t.name] ≤
      (spec.tasks.map fun u => (spec.findOutboundTaskNames u).length).sum := by
    refine unvisited_cons_le.trans ?_
    simp [unvisited]
  have hdedup : (spec.findOutboundTaskNames t).dedup.length ≤ (spec.findOutboundTaskNames t).length :=
    (List.dedup_sublist _).length_le
  have hseen : (affectedStart spec t).seen = [t.name].toFinset := by simp [Worklist.seen, affectedStart, Worklist.begin]
  have htodo : (affectedStart spec t).todo = (spec.findOutboundTaskNames t).dedup.toFinset := by
    ext
    simp [affectedStart, Worklist.begin]
  have hfuel : (spec.findOutboundTaskNames t).dedup.length + unvisited spec.tasks spec [t.name] <
      (t :: spec.tasks).foldl (fun n u => n + (spec.findOutboundTaskNames u).length) 1 := by
    rw [foldl_outbound, List.map_cons, List.sum_cons]
    omega
  obtain ⟨w, hrun, hdone, hfound⟩ := searchAffected_rounds hseen htodo (List.nodup_dedup _) hfuel
  exact ⟨w, hrun, hdone, by rw [hfound]; simp [affectedStart, Worklist.begin, findIndirectlyAffectedTaskExecutions]⟩

end Mistral
