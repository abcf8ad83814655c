import Mistral.Lib.Excepts
import Mistral.Workflow.Routes

/-! The verdict on a join, from what its inbound tasks contribute. -/

namespace Mistral

section
variable (spec : WorkflowSpec) (found : String → Option (TaskId × TaskEx)) (j u : TaskSpec)

/-- The execution of `u` has triggered the join `j`. -/
def Triggers : Prop :=
  ∃ i e, found u.name = some (i, e) ∧ e.state.isCompleted ∧ j.name ∈ (e.nextTasks.getD []).map (·.1)

/-- `u` never triggers `j`: its execution is completed and has not, or no route leads to it. -/
def Misses : Prop :=
  (∃ i e, found u.name = some (i, e) ∧ e.state.isCompleted ∧ j.name ∉ (e.nextTasks.getD []).map (·.1)) ∨
  found u.name = none ∧ Closed spec found u

/-- The execution of `u` is going on, or there is a route to `u`. -/
def Pends : Prop :=
  (∃ i e, found u.name = some (i, e) ∧ e.state.isCompleted = false) ∨ found u.name = none ∧ Open spec found u

/-- The search of the route to `u` raises. -/
def Raises : Prop := found u.name = none ∧ Blind spec found u

/-- The search never goes up from a task to the same task. -/
def NoCycle : Prop := ¬∃ t, Relation.TransGen (Descends spec found) t t

/-- What an inbound task contributes. -/
inductive Contributes : Except Exc Induced → Prop
  | running (i : TaskId) (event : Option TriggerEvent) (h : Triggers found j u) :
    Contributes (.ok ⟨u.name, some i, .running, 1, event⟩)
  | error (i : Option TaskId) (depth : Nat) (event : Option TriggerEvent) (h : Misses spec found j u) :
    Contributes (.ok ⟨u.name, i, .error, depth, event⟩)
  | waiting (i : Option TaskId) (depth : Nat) (h : Pends spec found u) : Contributes (.ok ⟨u.name, i, .waiting, depth, none⟩)
  | raises (h : Raises spec found u) : Contributes (.error notIterable)
  | deep (h : ¬NoCycle spec found) : Contributes (.error recursionError)

end

section
variable {spec : WorkflowSpec} {found : String → Option (TaskId × TaskEx)} {j u : TaskSpec}

theorem lookup_reverse_none {β : Type} {l : List (String × β)} {name : String} :
    l.reverse.lookup name = none ↔ name ∉ l.map (·.1) := by
  rw [List.lookup_eq_none_iff]
  simp only [List.mem_reverse, List.mem_map, not_exists, not_and, bne_iff_ne, ne_eq]
  exact ⟨fun h p hp heq => h p hp heq.symm, fun h p hp heq => h p hp heq.symm⟩

theorem contributes : Contributes spec found j u (induced spec found j u) := by
  unfold induced
  cases hu : found u.name with
  | none =>
    have hfinds : Finds spec found u (spec.tasks.length + 1) (search spec found (spec.tasks.length + 1) u 1) := search_finds
    dsimp only
    generalize search spec found (spec.tasks.length + 1) u 1 = r at hfinds
    cases hfinds with
    | route depth hopen => exact .waiting none depth (.inr ⟨hu, hopen⟩)
    | noRoute depth hclosed => exact .error none depth _ (.inr ⟨hu, hclosed⟩)
    | raises hblind => exact .raises ⟨hu, hblind⟩
    | deep l hl hchain => exact .deep fun hnone => hnone (exists_cycle (by omega) hchain)
  | some r =>
    obtain ⟨i, e⟩ := r
    dsimp only
    split
    next hopen =>
      rw [Bool.not_eq_true'] at hopen
      exact .waiting _ _ (.inl ⟨i, e, hu, hopen⟩)
    next hdone =>
      have hdone : e.state.isCompleted := by simpa using hdone
      cases hlookup : (e.nextTasks.getD []).reverse.lookup j.name with
      | none => exact .error _ _ _ (.inl ⟨i, e, hu, hdone, lookup_reverse_none.mp hlookup⟩)
      | some event =>
        refine .running _ _ ⟨i, e, hu, hdone, by_contra fun hnot => ?_⟩
        rw [lookup_reverse_none.mpr hnot] at hlookup
        cases hlookup

theorem Contributes.of_error {e : Exc} (h : Contributes spec found j u (.error e)) :
    e = notIterable ∧ Raises spec found u ∨ e = recursionError ∧ ¬NoCycle spec found := by
  generalize hr : (Except.error e : Except Exc Induced) = r at h
  cases h with
  | raises hblind => exact .inl ⟨Except.error.inj hr, hblind⟩
  | deep hcycle => exact .inr ⟨Except.error.inj hr, hcycle⟩
  | _ => cases hr

/-- The search of a route that raises is not counted. -/
theorem Contributes.not_raises {x : Induced} (h : Contributes spec found j u (.ok x)) : ¬Raises spec found u := by
  rintro ⟨hnone, hblind⟩
  generalize hr : (Except.ok x : Except Exc Induced) = r at h
  cases h with
  | running i event htriggers =>
    obtain ⟨i, e, he, -⟩ := htriggers
    rw [hnone] at he
    cases he
  | error i depth event hmisses =>
    obtain ⟨i, e, he, -⟩ | ⟨-, hclosed⟩ := hmisses
    · rw [hnone] at he
      cases he
    · exact hblind.not_closed hclosed
  | waiting i depth hpends =>
    obtain ⟨i, e, he, -⟩ | ⟨-, hopen⟩ := hpends
    · rw [hnone] at he
      cases he
    · exact hblind.not_open hopen
  | _ => cases hr

/-! ### Lookups -/

section
variable {rows : List (TaskId × TaskEx)} {name : String} {r : TaskId × TaskEx}

theorem lastNamed_some (h : lastNamed rows name = some r) : r ∈ rows ∧ r.2.name = name := by
  unfold lastNamed at h
  have hname := List.find?_some h
  exact ⟨List.mem_reverse.mp (List.mem_of_find?_eq_some h), by simpa using hname⟩

theorem lastNamed_none : lastNamed rows name = none ↔ ∀ r ∈ rows, r.2.name ≠ name := by
  unfold lastNamed
  rw [List.find?_eq_none]
  simp

/-- No task has two executions. -/
def UniqueNames (rows : List (TaskId × TaskEx)) : Prop := ∀ r ∈ rows, ∀ r' ∈ rows, r.2.name = r'.2.name → r = r'

theorem UniqueNames.lastNamed (h : UniqueNames rows) (hr : r ∈ rows) : lastNamed rows r.2.name = some r := by
  cases hfound : Mistral.lastNamed rows r.2.name with
  | none => exact absurd rfl (lastNamed_none.mp hfound r hr)
  | some r' =>
    obtain ⟨hr', hname⟩ := lastNamed_some hfound
    rw [h r' hr' r hr hname]

end
end
/-! ### What a verdict depends on -/

/-- The evaluation of `t` looks up `u`: an inbound task of `t`, or of a task without an execution that is looked up. -/
inductive Looked (spec : WorkflowSpec) (found : String → Option (TaskId × TaskEx)) (t : TaskSpec) : TaskSpec → Prop
  | inbound {u : TaskSpec} (h : u ∈ spec.findInboundTaskSpecs t) : Looked spec found t u
  | up {u v : TaskSpec} (h : Looked spec found t v) (hv : found v.name = none) (hu : u ∈ spec.findInboundTaskSpecs v) :
    Looked spec found t u

section
variable {spec : WorkflowSpec} {found found' : String → Option (TaskId × TaskEx)} {join : Join} {j t u : TaskSpec}

/-- Two lookups find the same execution, or two that are going on. -/
def Agree (r r' : Option (TaskId × TaskEx)) : Prop :=
  r = r' ∨ ∃ i e i' e', r = some (i, e) ∧ r' = some (i', e') ∧ e.state.isCompleted = false ∧ e'.state.isCompleted = false

theorem Looked.trans (h : Looked spec found t u) (hu : found u.name = none) {v : TaskSpec} (hv : Looked spec found u v) :
    Looked spec found t v := by
  induction hv with
  | inbound hmem => exact h.up hu hmem
  | up _ hnone hmem ih => exact ih.up hnone hmem

theorem searchVia_congr {fuel : Nat} {us : List TaskSpec} {depth : Nat} (hus : ∀ u ∈ us, Agree (found u.name) (found' u.name))
    (h : ∀ u ∈ us, found u.name = none → ∀ depth, search spec found fuel u depth = search spec found' fuel u depth) :
    searchVia found (search spec found fuel) t us depth = searchVia found' (search spec found' fuel) t us depth := by
  induction us generalizing depth with
  | nil => rfl
  | cons u us ih =>
    obtain ⟨hu, hus⟩ := List.forall_mem_cons.mp hus
    obtain ⟨hsearch, h⟩ := List.forall_mem_cons.mp h
    have ih : ∀ depth, searchVia found (search spec found fuel) t us depth =
        searchVia found' (search spec found' fuel) t us depth := fun _ => ih hus h
    simp only [searchVia]
    obtain hsame | ⟨i, e, i', e', he, he', hopen, hopen'⟩ := hu
    · rw [← hsame]
      cases hfound : found u.name with
      | none =>
        dsimp only
        rw [hsearch hfound]
        simp only [ih]
      | some r => simp only [ih]
    · rw [he, he']
      dsimp only
      rw [hopen, hopen']
      rfl

theorem search_congr {fuel depth : Nat} (h : ∀ u, Looked spec found t u → Agree (found u.name) (found' u.name)) :
    search spec found fuel t depth = search spec found' fuel t depth := by
  induction fuel generalizing t depth with
  | zero => rfl
  | succ fuel ih =>
    have hvia : searchVia found (search spec found fuel) t (spec.findInboundTaskSpecs t) depth =
        searchVia found' (search spec found' fuel) t (spec.findInboundTaskSpecs t) depth := by
      refine searchVia_congr (fun u hu => h u (.inbound hu)) fun u hu hnone depth => ih fun v hv => ?_
      exact h v (Looked.trans (.inbound hu) hnone hv)
    simp only [search]
    split
    · rfl
    · exact hvia

/-- A contribution without the execution that is waited for. -/
def Induced.plain (x : Induced) : Induced := if x.state = .waiting then { x with taskEx := none } else x

@[simp] theorem Induced.plain_state (x : Induced) : x.plain.state = x.state := by
  unfold plain
  split <;> rfl

@[simp] theorem Induced.plain_name (x : Induced) : x.plain.name = x.name := by
  unfold plain
  split <;> rfl

@[simp] theorem Induced.plain_depth (x : Induced) : x.plain.depth = x.depth := by
  unfold plain
  split <;> rfl

theorem triggeredBy_plain {l : List Induced} {st : State} (hst : st ≠ .waiting) :
    triggeredBy (l.map Induced.plain) st = triggeredBy l st := by
  unfold triggeredBy
  rw [List.filterMap_map]
  refine List.filterMap_congr fun x _ => ?_
  simp only [Function.comp_apply, Induced.plain_state]
  split
  next hx =>
    have hplain : x.plain = x := if_neg fun hw => hst (hx.symm.trans hw)
    rw [hplain]
  · rfl

/-- The verdict does not depend on which execution is waited for. -/
theorem decideJoin_plain {l : List Induced} : decideJoin (l.map Induced.plain) join = decideJoin l join := by
  have hcount : ∀ st, countState (l.map Induced.plain) st = countState l st := fun st => by
    simp [countState, Function.comp_def]
  have hdepth : ∀ st, totalDepth (l.map Induced.plain) st = totalDepth l st := fun st => by
    simp [totalDepth, List.filter_map, Function.comp_def]
  have hnames : ∀ what st, namesMessage (l.map Induced.plain) what st = namesMessage l what st := fun what st => by
    simp [namesMessage, List.filter_map, Function.comp_def]
  have hrunning : triggeredBy (l.map Induced.plain) .running = triggeredBy l .running := triggeredBy_plain nofun
  have herror : triggeredBy (l.map Induced.plain) .error = triggeredBy l .error := triggeredBy_plain nofun
  have hcardinality : ∀ n, cardinalityState (l.map Induced.plain) n = cardinalityState l n := fun n => by
    simp only [cardinalityState, hcount, hnames, hrunning, List.length_map]
  cases join with
  | all => simp only [decideJoin, allState, hcount, hdepth, hnames, hrunning, herror, List.length_map]
  | one => exact hcardinality 1
  | number n => exact hcardinality n

/-- What an inbound task contributes, up to the execution that is waited for. -/
theorem induced_congr (hu : Agree (found u.name) (found' u.name))
    (h : found u.name = none → ∀ v, Looked spec found u v → Agree (found v.name) (found' v.name)) :
    (induced spec found j u).map Induced.plain = (induced spec found' j u).map Induced.plain := by
  unfold induced
  obtain hsame | ⟨i, e, i', e', he, he', hopen, hopen'⟩ := hu
  · rw [← hsame]
    cases hfound : found u.name with
    | none => simp only [search_congr (h hfound)]
    | some r => rfl
  · rw [he, he']
    dsimp only
    rw [hopen, hopen']
    rfl

/-- The verdict depends on the executions that are looked up, and not on which one is waited for. -/
theorem joinVerdict_congr (h : ∀ u, Looked spec found j u → Agree (found u.name) (found' u.name)) :
    joinVerdict spec found join j = joinVerdict spec found' join j := by
  have hplain : ∀ found : String → Option (TaskId × TaskEx), joinVerdict spec found join j =
      if spec.findInboundTaskSpecs j = [] then .ok { state := .running }
      else (((spec.findInboundTaskSpecs j).mapM fun u => (induced spec found j u).map Induced.plain).map (decideJoin · join)) :=
    fun found => by
      unfold joinVerdict
      split
      · rfl
      · rw [← map_mapM]
        cases (spec.findInboundTaskSpecs j).mapM (induced spec found j) with
        | error e => rfl
        | ok l => exact congrArg Except.ok decideJoin_plain.symm
  have hmap : ((spec.findInboundTaskSpecs j).mapM fun u => (induced spec found j u).map Induced.plain) =
      (spec.findInboundTaskSpecs j).mapM fun u => (induced spec found' j u).map Induced.plain :=
    mapM_congr fun u hu => induced_congr (h u (.inbound hu)) fun hnone v hv => h v (Looked.trans (.inbound hu) hnone hv)
  rw [hplain, hplain, hmap]

end

end Mistral
