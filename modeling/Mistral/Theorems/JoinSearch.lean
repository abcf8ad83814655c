import Mistral.Lang.Validation
import Mistral.Workflow.JoinVerdicts

/-! When the evaluation of joins ends, and that the cache of task executions does not change it. -/

namespace Mistral

section
variable {spec : WorkflowSpec} {rows : List (TaskId × TaskEx)} {found : String → Option (TaskId × TaskEx)} {join : Join}
  {j t : TaskSpec}

/-- The route search from every task ends, and so does the evaluation of every join. -/
def JoinEvaluationEnds (spec : WorkflowSpec) (rows : List (TaskId × TaskEx)) : Prop :=
  (∀ t ∈ spec.tasks, ∀ (depth : Nat) (c : Cache), c.Holds rows [] →
    ∃ fuel, (possibleRoute spec rows fuel t depth).run c ≠ .error recursionError) ∧
  ∀ t ∈ spec.tasks, ∀ join, t.join = some join → getJoinLogicalState spec rows join t ≠ .error recursionError

theorem Reads.run_error {α : Type} {names : List String} {m : CacheM α} {r : Except Exc α} {c : Cache} {e : Exc}
    (h : Reads rows names m r) (hc : c.Holds rows names) : m.run c = .error e ↔ r = .error e := by
  have hm := h c hc
  cases r with
  | ok a =>
    obtain ⟨c', hrun, -⟩ := hm
    rw [hrun]
    exact ⟨nofun, nofun⟩
  | error e' =>
    have hm : m.run c = .error e' := hm
    rw [hm, Except.error.injEq, Except.error.injEq]

theorem notIterable_ne : notIterable ≠ recursionError := by decide

theorem not_rel_self {α : Type} {r : α → α → Prop} {a : α} (h : Acc r a) : ¬r a a := by
  induction h with
  | intro a _ ih => exact fun haa => ih a haa haa

/-- A search that does not run into the bound comes to an outcome. -/
theorem not_cycle_of_ends {fuel depth : Nat} (h : search spec found fuel t depth ≠ .error recursionError) :
    ¬Relation.TransGen (Descends spec found) t t := by
  have hacc : Acc (fun u t => Descends spec found t u) t := by
    have hfinds : Finds spec found t fuel (search spec found fuel t depth) := search_finds
    generalize search spec found fuel t depth = r at h hfinds
    cases hfinds with
    | route _ hopen => exact hopen.acc
    | noRoute _ hclosed => exact hclosed.acc
    | raises hblind => exact hblind.acc
    | deep => exact absurd rfl h
  exact fun hcycle => not_rel_self hacc.transGen (Relation.transGen_swap.mpr hcycle)

theorem search_ends (h : NoCycle spec found) {depth : Nat} :
    search spec found (spec.tasks.length + 1) t depth ≠ .error recursionError := by
  have hfinds : Finds spec found t (spec.tasks.length + 1) (search spec found (spec.tasks.length + 1) t depth) := search_finds
  generalize search spec found (spec.tasks.length + 1) t depth = r at hfinds
  cases hfinds with
  | route | noRoute => nofun
  | raises => exact fun heq => notIterable_ne (Except.error.inj heq)
  | deep l hl hchain => exact absurd (exists_cycle (by omega) hchain) h

theorem joinVerdict_ends (h : NoCycle spec found) : joinVerdict spec found join j ≠ .error recursionError := by
  unfold joinVerdict
  split
  · nofun
  · cases hins : (spec.findInboundTaskSpecs j).mapM (induced spec found j) with
    | ok ins => nofun
    | error e =>
      obtain ⟨u, -, hu⟩ := mapM_error hins
      have hcontributes : Contributes spec found j u (.error e) := hu ▸ contributes
      intro heq
      obtain ⟨he, -⟩ | ⟨-, hcycle⟩ := hcontributes.of_error
      · rw [he] at heq
        exact notIterable_ne (Except.error.inj heq)
      · exact hcycle h

theorem holds_nil : Cache.Holds rows [] [] := ⟨fun _ _ hv => (by cases hv), fun _ hname => absurd hname List.not_mem_nil⟩

/-- The evaluation of joins ends if and only if the search never goes up from a task to the same task. -/
theorem join_evaluation_ends_iff (spec : WorkflowSpec) (rows : List (TaskId × TaskEx)) :
    JoinEvaluationEnds spec rows ↔ NoCycle spec (lastNamed rows) := by
  constructor
  · rintro ⟨hends, -⟩ ⟨t, hcycle⟩
    obtain ⟨u, -, hlast⟩ := Relation.TransGen.tail'_iff.mp hcycle
    have ht : t ∈ spec.tasks := (WorkflowSpec.mem_findInboundTaskSpecs.mp hlast.1.mem).1
    obtain ⟨fuel, hfuel⟩ := hends t ht 1 [] holds_nil
    rw [ne_eq, Reads.run_error reads_possibleRoute holds_nil] at hfuel
    exact not_cycle_of_ends hfuel hcycle
  · intro hnone
    refine ⟨fun t _ depth c hc => ⟨spec.tasks.length + 1, ?_⟩, fun t _ join _ => ?_⟩
    · rw [ne_eq, Reads.run_error reads_possibleRoute hc]
      exact search_ends hnone
    · rw [getJoinLogicalState_eq]
      exact joinVerdict_ends hnone

/-- A join after a start task and after a cycle that nothing leads to. -/
def cycleSpec : WorkflowSpec where
  tasks := [{ name := "s", onSuccess := [{ name := "j" }] }, { name := "a", onSuccess := [{ name := "b" }] },
    { name := "b", onSuccess := [{ name := "a" }, { name := "j" }] }, { name := "j", join := some .all }]

/-- The specification is accepted. When the start task has triggered the join, the search for the other inbound task of the
    join goes round the cycle. -/
theorem search_goes_round_cycle :
    ¬∀ spec name rows, spec.Accepted name → JoinEvaluationEnds spec rows := by
  intro h
  let rows : List (TaskId × TaskEx) :=
    [(0, { name := "s", state := .success, nextTasks := some [("j", some (.clause .onSuccess))] }),
      (1, { name := "j", state := .waiting })]
  have hends : JoinEvaluationEnds cycleSpec rows := h cycleSpec "w" rows rfl
  have hj : { name := "j", join := some .all } ∈ cycleSpec.tasks := by decide
  exact hends.2 _ hj .all rfl (by decide)

/-! ### The cache -/

/-- A cache with all task executions of the workflow. -/
def fullCache (spec : WorkflowSpec) (rows : List (TaskId × TaskEx)) : Cache :=
  (spec.tasks.map (·.name)).map fun name => (name, lastNamed rows name)

theorem fullCache_holds : (fullCache spec rows).Holds rows ((spec.findInboundTaskSpecs j).map (·.name)) := by
  refine ⟨fun name v hv => ?_, fun name hname => ?_⟩
  · rw [fullCache, lookup_map] at hv
    split at hv
    · exact (Option.some.inj hv).symm
    · cases hv
  · obtain ⟨u, hu, rfl⟩ := List.mem_map.mp hname
    rw [fullCache, lookup_map, if_pos (List.mem_map_of_mem (WorkflowSpec.mem_findInboundTaskSpecs.mp hu).1)]
    rfl

/-- The cache that is bounded and extended on demand leads to the verdict that all task executions lead to, and no lookup of
    an inbound task misses it. -/
theorem cache_is_transparent (spec : WorkflowSpec) (rows : List (TaskId × TaskEx)) (join : Join) (j : TaskSpec) :
    getJoinLogicalState spec rows join j = joinLogicalStateFrom spec rows (fullCache spec rows) join j ∧
    (∀ u ∈ spec.findInboundTaskSpecs j, ((prepareTaskExecutionsCache spec rows j).lookup u.name).isSome) ∧
    ∀ t, ∀ u ∈ spec.findInboundTaskSpecs t, ∀ (c c' : Cache) (a : Option (TaskId × TaskEx)),
      (cachedExecution spec rows t u).run c = .ok (a, c') → (c'.lookup u.name).isSome := by
  refine ⟨?_, fun u hu => prepare_holds.2 u.name (List.mem_map_of_mem hu), fun t u hu c c' a hrun => ?_⟩
  · rw [getJoinLogicalState_eq, joinLogicalStateFrom_eq fullCache_holds]
  · cases hlookup : c.lookup u.name with
    | some v =>
      simp [cachedExecution, hlookup] at hrun
      cases hrun
      rw [hlookup]
      rfl
    | none =>
      simp [cachedExecution, hlookup] at hrun
      cases hrun
      rw [List.lookup_append, Option.isSome_or, prepare_holds.2 u.name (List.mem_map_of_mem hu), Bool.true_or]

end
end Mistral
