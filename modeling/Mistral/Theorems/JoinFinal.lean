import Mistral.Lang.Validation
import Mistral.Workflow.JoinVerdicts

/-! A verdict `RUNNING` or `ERROR` on a join stays, because an inbound task that has triggered the join or never will keeps
    what it contributes. -/

namespace Mistral

/-! ### Counting -/

section
variable {join : Join} {l l' : List Induced}

/-- What decides between the verdicts. -/
theorem cardinalityState_state {n : Int} : ((cardinalityState l n).state = .running ↔ n ≤ countState l .running) ∧
    ((cardinalityState l n).state = .error ↔ (countState l .running : Int) < n ∧ l.length - n < countState l .error) ∧
    ((cardinalityState l n).state = .waiting → 1 ≤ (cardinalityState l n).cardinality) := by
  unfold cardinalityState
  split
  · simp
    omega
  · split
    · simp
      omega
    · simp
      omega

theorem allState_state (hdepth : totalDepth l .running = countState l .running) (hle : countState l .running ≤ l.length) :
    ((allState l).state = .running ↔ l.length = countState l .running) ∧
    ((allState l).state = .error ↔ l.length ≠ countState l .running ∧ 0 < countState l .error) ∧
    ((allState l).state = .waiting → 1 ≤ (allState l).cardinality) := by
  unfold allState
  split
  · simp
    omega
  · split
    · simp
      omega
    · simp only [hdepth]
      simp
      omega

/-- A verdict stays while the inbound tasks that have triggered the join, and those that never will, become more. -/
theorem decideJoin_final (hdepth : totalDepth l .running = countState l .running)
    (hdepth' : totalDepth l' .running = countState l' .running) (hlength : l'.length = l.length)
    (hrunning : countState l .running ≤ countState l' .running) (herror : countState l .error ≤ countState l' .error)
    (hle : countState l .running ≤ l.length)
    (hle' : countState l' .running + countState l' .error ≤ l'.length)
    (h : (decideJoin l join).state = .running ∨ (decideJoin l join).state = .error) :
    (decideJoin l' join).state = (decideJoin l join).state := by
  have hcardinality : ∀ n, (cardinalityState l n).state = .running ∨ (cardinalityState l n).state = .error →
      (cardinalityState l' n).state = (cardinalityState l n).state := by
    rintro n (hst | hst)
    · rw [hst, cardinalityState_state.1]
      have := cardinalityState_state.1.mp hst
      omega
    · rw [hst, cardinalityState_state.2.1]
      have := cardinalityState_state.2.1.mp hst
      omega
  cases join with
  | all =>
    obtain ⟨hr, he, -⟩ := allState_state hdepth hle
    obtain ⟨hr', he', -⟩ := allState_state hdepth' (by omega)
    obtain hst | hst := h
    · have hst : (allState l).state = .running := hst
      show (allState l').state = (allState l).state
      rw [hst, hr']
      have := hr.mp hst
      omega
    · have hst : (allState l).state = .error := hst
      show (allState l').state = (allState l).state
      rw [hst, he']
      have := he.mp hst
      omega
  | one => exact hcardinality 1 h
  | number n => exact hcardinality n h

theorem decideJoin_cardinality (hdepth : totalDepth l .running = countState l .running)
    (hle : countState l .running ≤ l.length) (h : (decideJoin l join).state = .waiting) :
    1 ≤ (decideJoin l join).cardinality := by
  cases join with
  | all => exact (allState_state hdepth hle).2.2 h
  | one => exact cardinalityState_state.2.2 h
  | number n => exact cardinalityState_state.2.2 h

theorem countState_add_le {st st' : State} (hne : st ≠ st') : countState l st + countState l st' ≤ l.length := by
  induction l with
  | nil => exact Nat.le_refl _
  | cons x l ih =>
    simp only [countState, List.countP_cons, List.length_cons] at *
    by_cases hst : x.state = st
    · simp [hst, hne]
      omega
    · simp [hst]
      split <;> omega

theorem totalDepth_eq {st : State} (h : ∀ x ∈ l, x.state = st → x.depth = 1) : totalDepth l st = countState l st := by
  induction l with
  | nil => rfl
  | cons x l ih =>
    obtain ⟨hx, hl⟩ := List.forall_mem_cons.mp h
    have ih := ih hl
    simp only [totalDepth, countState, List.filter_cons, List.countP_cons] at *
    by_cases hst : x.state = st
    · simp [hst, hx hst, ih]
      omega
    · simp [hst, ih]

/-- If more rounds of a loop contribute a state, it is counted more often. -/
theorem countState_le {us : List TaskSpec} {f f' : TaskSpec → Except Exc Induced} {st : State}
    (hl : List.Forall₂ (fun u x => f u = .ok x) us l) (hl' : List.Forall₂ (fun u x => f' u = .ok x) us l')
    (h : ∀ u ∈ us, ∀ x x', f u = .ok x → f' u = .ok x' → x.state = st → x'.state = st) :
    countState l st ≤ countState l' st := by
  induction hl generalizing l' with
  | nil =>
    cases hl'
    exact Nat.le_refl _
  | @cons u x us l hx _ ih =>
    cases hl' with
    | @cons _ x' _ l' hx' hl' =>
      obtain ⟨hu, hus⟩ := List.forall_mem_cons.mp h
      have hle := ih hl' hus
      have hhead := hu x x' hx hx'
      simp only [countState, List.countP_cons] at *
      by_cases hst : x.state = st
      · simp [hst, hhead hst]
        omega
      · simp [hst]
        omega

end

/-! ### Runs -/

/-- What a run without reruns does to the task executions: each task has one at most, a completed one keeps its state and its
    next tasks, and a new one is for a start task, or for a next task of a completed one. Next tasks come from the
    on-clauses. -/
structure Advances (spec : WorkflowSpec) (rows rows' : List (TaskId × TaskEx)) : Prop where
  ids : (rows'.map (·.1)).Nodup
  unique : UniqueNames rows'
  kept : ∀ i e, (i, e) ∈ rows → ∃ e', (i, e') ∈ rows' ∧ e'.name = e.name ∧
    (e.state.isCompleted → e'.state = e.state ∧ e'.nextTasks = e.nextTasks)
  begun : ∀ r ∈ rows', (∀ e, (r.1, e) ∉ rows) → (∃ t ∈ spec.findStartTasks, t.name = r.2.name) ∨
    ∃ r' ∈ rows', r'.2.state.isCompleted ∧ r.2.name ∈ (r'.2.nextTasks.getD []).map (·.1)
  linked : ∀ r ∈ rows', r.2.state.isCompleted → ∀ name ∈ (r.2.nextTasks.getD []).map (·.1),
    ∃ t ∈ spec.tasks, t.name = r.2.name ∧ spec.transitionExists t name

/-- The states of a run, from the first on. -/
def Run (spec : WorkflowSpec) : List (TaskId × TaskEx) → List (TaskId × TaskEx) → Prop := Relation.ReflTransGen (Advances spec)

section
variable {spec : WorkflowSpec} {rows rows' : List (TaskId × TaskEx)} {join : Join} {j u : TaskSpec}

/-- The execution of a task stays the one that is found. -/
theorem Advances.found {name : String} {i : TaskId} {e : TaskEx} (h : Advances spec rows rows')
    (he : lastNamed rows name = some (i, e)) :
    ∃ e', lastNamed rows' name = some (i, e') ∧ (e.state.isCompleted → e'.state = e.state ∧ e'.nextTasks = e.nextTasks) := by
  obtain ⟨hmem, hname⟩ := lastNamed_some he
  obtain ⟨e', hmem', hname', hkept⟩ := h.kept i e hmem
  refine ⟨e', ?_, hkept⟩
  have hfound := h.unique.lastNamed hmem'
  rwa [show e'.name = name from hname'.trans hname] at hfound

/-- A task that no route leads to gets no execution. -/
theorem Advances.closed (h : Advances spec rows rows') (hu : u ∈ spec.tasks)
    (hnone : lastNamed rows u.name = none) (hclosed : Closed spec (lastNamed rows) u) :
    lastNamed rows' u.name = none ∧ Closed spec (lastNamed rows') u := by
  induction hclosed with
  | @mk u hins hpast hup ih =>
    have hins' : ∀ w ∈ spec.findInboundTaskSpecs u, w ∈ spec.tasks := fun w hw =>
      (WorkflowSpec.mem_findInboundTaskSpecs.mp hw).1
    have hpast' : ∀ w ∈ spec.findInboundTaskSpecs u, ∀ i e, lastNamed rows' w.name = some (i, e) → e.Ignores u := by
      intro w hw i' e' he'
      cases hfound : lastNamed rows w.name with
      | none =>
        rw [(ih w hw hfound (hins' w hw) hfound).1] at he'
        cases he'
      | some r =>
        obtain ⟨i, e⟩ := r
        obtain ⟨hdone, next, hnext, hnot⟩ := hpast w hw i e hfound
        obtain ⟨e'', he'', hkept⟩ := h.found hfound
        rw [he''] at he'
        cases he'
        obtain ⟨hstate, hnexts⟩ := hkept hdone
        exact ⟨by rw [hstate]; exact hdone, next, by rw [hnexts]; exact hnext, hnot⟩
    refine ⟨lastNamed_none.mpr fun r hr hname => ?_, hins, hpast', fun w hw hwnone => ?_⟩
    · have hnew : ∀ e, (r.1, e) ∉ rows := fun e he => by
        obtain ⟨e', he', hname', -⟩ := h.kept r.1 e he
        have heq : r = (r.1, e') := List.inj_on_of_nodup_map h.ids hr he' rfl
        rw [heq] at hname
        exact lastNamed_none.mp hnone (r.1, e) he (hname'.symm.trans hname)
      obtain ⟨t, ht, htname⟩ | ⟨r', hr', hdone, hmem⟩ := h.begun r hr hnew
      · obtain ⟨ht, hstart⟩ := List.mem_filter.mp ht
        cases WorkflowSpec.eq_of_name ht hu (htname.trans hname)
        simp [WorkflowSpec.hasInboundTransitions, hins] at hstart
      · obtain ⟨w, hw, hwname, hexists⟩ := h.linked r' hr' hdone _ hmem
        have hin : w ∈ spec.findInboundTaskSpecs u := WorkflowSpec.mem_findInboundTaskSpecs.mpr ⟨hw, hname ▸ hexists⟩
        have hfound := h.unique.lastNamed hr'
        rw [← hwname] at hfound
        obtain ⟨-, next, hnext, hnot⟩ := hpast' w hin r'.1 r'.2 hfound
        rw [hnext, hname] at hmem
        exact hnot hmem
    · cases hfound : lastNamed rows w.name with
      | none => exact (ih w hw hfound (hins' w hw) hfound).2
      | some r =>
        obtain ⟨e'', he'', -⟩ := h.found hfound
        rw [hwnone] at he''
        cases he''

theorem Advances.triggers (h : Advances spec rows rows') (htriggers : Triggers (lastNamed rows) j u) :
    Triggers (lastNamed rows') j u := by
  obtain ⟨i, e, he, hdone, hmem⟩ := htriggers
  obtain ⟨e', he', hkept⟩ := h.found he
  obtain ⟨hstate, hnexts⟩ := hkept hdone
  exact ⟨i, e', he', by rwa [hstate], by rwa [hnexts]⟩

theorem Advances.misses (h : Advances spec rows rows') (hu : u ∈ spec.tasks)
    (hmisses : Misses spec (lastNamed rows) j u) : Misses spec (lastNamed rows') j u := by
  obtain ⟨i, e, he, hdone, hnot⟩ | ⟨hnone, hclosed⟩ := hmisses
  · obtain ⟨e', he', hkept⟩ := h.found he
    obtain ⟨hstate, hnexts⟩ := hkept hdone
    exact .inl ⟨i, e', he', by rwa [hstate], by rwa [hnexts]⟩
  · exact .inr (h.closed hu hnone hclosed)

/-- An inbound task that has triggered the join, or never will, stays one. -/
theorem Run.keeps (h : Run spec rows rows') (hu : u ∈ spec.tasks) :
    (Triggers (lastNamed rows) j u → Triggers (lastNamed rows') j u) ∧
    (Misses spec (lastNamed rows) j u → Misses spec (lastNamed rows') j u) := by
  induction h with
  | refl => exact ⟨id, id⟩
  | tail _ hstep ih =>
    exact ⟨fun htriggers => hstep.triggers (ih.1 htriggers), fun hmisses => hstep.misses hu (ih.2 hmisses)⟩

/-! ### Verdicts -/

theorem noCycle_of_acyclic {found : String → Option (TaskId × TaskEx)} (h : spec.Acyclic) : NoCycle spec found := by
  rintro ⟨t, hcycle⟩
  obtain ⟨u, -, hlast⟩ := Relation.TransGen.tail'_iff.mp hcycle
  have ht : t ∈ spec.tasks := (WorkflowSpec.mem_findInboundTaskSpecs.mp hlast.1.mem).1
  have hedges : ∀ w, Relation.TransGen (Descends spec found) t w → w ∈ spec.tasks ∧ Relation.TransGen spec.Edge w t := by
    intro w hw
    induction hw with
    | single hstep => exact ⟨(WorkflowSpec.mem_findInboundTaskSpecs.mp hstep.1.mem).1, .single ((WorkflowSpec.edge_iff ht).mpr hstep.1.mem)⟩
    | tail _ hstep ih =>
      exact ⟨(WorkflowSpec.mem_findInboundTaskSpecs.mp hstep.1.mem).1, .head ((WorkflowSpec.edge_iff ih.1).mpr hstep.1.mem) ih.2⟩
  exact h t (hedges t hcycle).2

/-- The verdict `RUNNING` or `ERROR` on a join stays as long as the condition holds, and a join that waits needs at least one
    more inbound task. -/
def VerdictsFinal (spec : WorkflowSpec) (condition : List (TaskId × TaskEx) → TaskSpec → Prop) : Prop :=
  spec.Acyclic → ∀ rows rows', Run spec [] rows → Run spec rows rows' → ∀ join, ∀ j ∈ spec.tasks, ∀ l,
    getJoinLogicalState spec rows join j = .ok l →
    (l.state = .running ∨ l.state = .error →
      ((∃ l', getJoinLogicalState spec rows' join j = .ok l' ∧ l'.state = l.state) ↔ condition rows' j)) ∧
    (l.state = .waiting → 1 ≤ l.cardinality)

/-- No search of a route to an inbound task comes to an execution without a list of next tasks. -/
def Searchable (spec : WorkflowSpec) (rows : List (TaskId × TaskEx)) (j : TaskSpec) : Prop :=
  ∀ u ∈ spec.findInboundTaskSpecs j, ¬Raises spec (lastNamed rows) u

section
variable {found : String → Option (TaskId × TaskEx)}

theorem Misses.not_triggers (h : Misses spec found j u) : ¬Triggers found j u := by
  rintro ⟨i, e, he, -, hmem⟩
  obtain ⟨i', e', he', -, hnot⟩ | ⟨hnone, -⟩ := h
  · rw [he] at he'
    cases he'
    exact hnot hmem
  · rw [hnone] at he
    cases he

theorem Pends.not_triggers (h : Pends spec found u) : ¬Triggers found j u := by
  rintro ⟨i, e, he, hdone, -⟩
  obtain ⟨i', e', he', hopen⟩ | ⟨hnone, -⟩ := h
  · rw [he] at he'
    cases he'
    rw [hopen] at hdone
    cases hdone
  · rw [hnone] at he
    cases he

theorem Pends.not_misses (h : Pends spec found u) : ¬Misses spec found j u := by
  rintro (⟨i, e, he, hdone, -⟩ | ⟨hnone, hclosed⟩)
  · obtain ⟨i', e', he', hopen⟩ | ⟨hnone, -⟩ := h
    · rw [he] at he'
      cases he'
      rw [hopen] at hdone
      cases hdone
    · rw [hnone] at he
      cases he
  · obtain ⟨i', e', he', -⟩ | ⟨-, hopen⟩ := h
    · rw [hnone] at he'
      cases he'
    · exact hopen.not_closed hclosed

/-- What an inbound task contributes, and why. -/
theorem induced_ok {x : Induced} (h : induced spec found j u = .ok x) :
    (x.state = .running ↔ Triggers found j u) ∧ (x.state = .error ↔ Misses spec found j u) ∧
      (x.state = .running → x.depth = 1) ∧ ¬Raises spec found u := by
  have hcontributes : Contributes spec found j u (.ok x) := h ▸ contributes
  have hraises := hcontributes.not_raises
  generalize hr : (Except.ok x : Except Exc Induced) = r at hcontributes
  cases hcontributes with
  | running i event htriggers =>
    cases hr
    exact ⟨iff_of_true rfl htriggers, iff_of_false nofun fun hmisses => hmisses.not_triggers htriggers, fun _ => rfl, hraises⟩
  | error i depth event hmisses =>
    cases hr
    exact ⟨iff_of_false nofun hmisses.not_triggers, iff_of_true rfl hmisses, nofun, hraises⟩
  | waiting i depth hpends =>
    cases hr
    exact ⟨iff_of_false nofun hpends.not_triggers, iff_of_false nofun hpends.not_misses, nofun, hraises⟩
  | _ => cases hr

/-- A verdict on a join with inbound tasks comes from their contributions. -/
theorem joinVerdict_ok {l : LogicalState} (hins : spec.findInboundTaskSpecs j ≠ [])
    (h : joinVerdict spec found join j = .ok l) :
    ∃ ins, List.Forall₂ (fun u x => induced spec found j u = .ok x) (spec.findInboundTaskSpecs j) ins ∧
      decideJoin ins join = l := by
  unfold joinVerdict at h
  rw [if_neg hins] at h
  cases hmap : (spec.findInboundTaskSpecs j).mapM (induced spec found j) with
  | error e =>
    rw [hmap] at h
    cases h
  | ok ins =>
    rw [hmap] at h
    exact ⟨ins, mapM_ok.mp hmap, Except.ok.inj h⟩

theorem joinVerdict_of_ok {ins : List Induced} (hins : spec.findInboundTaskSpecs j ≠ [])
    (h : (spec.findInboundTaskSpecs j).mapM (induced spec found j) = .ok ins) :
    joinVerdict spec found join j = .ok (decideJoin ins join) := by
  unfold joinVerdict
  rw [if_neg hins, h]
  rfl

theorem totalDepth_of_induced {ins : List Induced} {us : List TaskSpec}
    (h : List.Forall₂ (fun u x => induced spec found j u = .ok x) us ins) :
    totalDepth ins .running = countState ins .running := by
  refine totalDepth_eq fun x hx hst => ?_
  obtain ⟨u, -, hu⟩ := forall₂_mem_right h hx
  exact (induced_ok hu).2.2.1 hst

/-- Without a search that raises, there is a verdict. -/
theorem exists_verdict (hacyclic : spec.Acyclic) (h : ∀ u ∈ spec.findInboundTaskSpecs j, ¬Raises spec found u) :
    ∃ ins, (spec.findInboundTaskSpecs j).mapM (induced spec found j) = .ok ins := by
  refine exists_mapM_ok fun u hu => ?_
  cases hind : induced spec found j u with
  | ok x => exact ⟨x, rfl⟩
  | error e =>
    have hcontributes : Contributes spec found j u (.error e) := hind ▸ contributes
    obtain ⟨-, hraises⟩ | ⟨-, hcycle⟩ := hcontributes.of_error
    · exact absurd hraises (h u hu)
    · exact absurd (noCycle_of_acyclic hacyclic) hcycle

end

/-- The verdict stays as long as no search for the join comes to an execution without a list of next tasks. -/
theorem join_verdicts_final (spec : WorkflowSpec) : VerdictsFinal spec (Searchable spec) := by
  intro hacyclic rows rows' _ hrun join j hj l hl
  rw [getJoinLogicalState_eq] at hl ⊢
  by_cases hins : spec.findInboundTaskSpecs j = []
  · have hverdict : ∀ found, joinVerdict spec found join j = .ok { state := .running } := fun found => by
      unfold joinVerdict
      rw [if_pos hins]
      rfl
    rw [hverdict] at hl ⊢
    cases hl
    refine ⟨fun _ => iff_of_true ⟨_, rfl, rfl⟩ fun u hu => ?_, nofun⟩
    rw [hins] at hu
    cases hu
  obtain ⟨ins, hcontributions, rfl⟩ := joinVerdict_ok hins hl
  have hdepth := totalDepth_of_induced hcontributions
  have hle : countState ins .running ≤ ins.length := List.countP_le_length
  refine ⟨fun hdecided => ⟨?_, fun hsearch => ?_⟩, decideJoin_cardinality hdepth hle⟩
  · rintro ⟨l', hl', -⟩ u hu
    obtain ⟨ins', hcontributions', -⟩ := joinVerdict_ok hins hl'
    obtain ⟨x, -, hx⟩ := forall₂_mem_right hcontributions'.flip hu
    exact (induced_ok hx).2.2.2
  · obtain ⟨ins', hins'⟩ := exists_verdict hacyclic hsearch
    refine ⟨_, joinVerdict_of_ok hins hins', ?_⟩
    have hcontributions' := mapM_ok.mp hins'
    have hkeeps : ∀ u ∈ spec.findInboundTaskSpecs j, u ∈ spec.tasks := fun u hu =>
      (WorkflowSpec.mem_findInboundTaskSpecs.mp hu).1
    have hlength : ins'.length = ins.length := hcontributions'.length_eq.symm.trans hcontributions.length_eq
    have hrunning : countState ins .running ≤ countState ins' .running :=
      countState_le hcontributions hcontributions' fun u hu x x' hx hx' hst =>
        (induced_ok hx').1.mpr ((hrun.keeps (hkeeps u hu)).1 ((induced_ok hx).1.mp hst))
    have herror : countState ins .error ≤ countState ins' .error :=
      countState_le hcontributions hcontributions' fun u hu x x' hx hx' hst =>
        (induced_ok hx').2.1.mpr ((hrun.keeps (hkeeps u hu)).2 ((induced_ok hx).2.1.mp hst))
    exact decideJoin_final hdepth (totalDepth_of_induced hcontributions') hlength hrunning herror hle
      (countState_add_le nofun) hdecided

end

/-- A specification whose transitions go from earlier tasks to later ones. -/
theorem acyclic_of_rank {spec : WorkflowSpec} (rank : TaskSpec → Nat)
    (h : ∀ t ∈ spec.tasks, ∀ u ∈ spec.tasks, spec.transitionExists t u.name → rank t < rank u) : spec.Acyclic := by
  intro t hcycle
  have hlt : ∀ u, Relation.TransGen spec.Edge t u → rank t < rank u := by
    intro u hu
    induction hu with
    | single hedge => exact h _ hedge.1 _ hedge.2.1 hedge.2.2
    | tail _ hedge ih => exact Nat.lt_trans ih (h _ hedge.1 _ hedge.2.1 hedge.2.2)
  exact Nat.lt_irrefl _ (hlt t hcycle)

/-- `join: one` after a start task, and after a task that another start task leads to. -/
def detourSpec : WorkflowSpec where
  tasks := [{ name := "v", onSuccess := [{ name := "u" }] }, { name := "u", onSuccess := [{ name := "j" }] },
    { name := "x", onSuccess := [{ name := "j" }] }, { name := "j", join := some .one }]

/-- `x` has triggered the join while `v` is running. Then `v` is forced to fail, and gets no list of next tasks. -/
theorem forced_failure_takes_verdict_back : ¬VerdictsFinal detourSpec fun _ _ => True := by
  intro h
  let x : TaskId × TaskEx := (1, { name := "x", state := .success, nextTasks := some [("j", some (.clause .onSuccess))] })
  let j : TaskId × TaskEx := (2, { name := "j", state := .waiting })
  let before : List (TaskId × TaskEx) := [(0, { name := "v", state := .running }), x, j]
  let after : List (TaskId × TaskEx) := [(0, { name := "v", state := .error }), x, j]
  have hacyclic : detourSpec.Acyclic := acyclic_of_rank (fun t => detourSpec.tasks.findIdx (·.name == t.name)) (by decide)
  have hbegun : ∀ r ∈ before, (∃ t ∈ detourSpec.findStartTasks, t.name = r.2.name) ∨
      ∃ r' ∈ before, r'.2.state.isCompleted ∧ r.2.name ∈ (r'.2.nextTasks.getD []).map (·.1) := by decide
  have hbegun' : ∀ r ∈ after, (∃ t ∈ detourSpec.findStartTasks, t.name = r.2.name) ∨
      ∃ r' ∈ after, r'.2.state.isCompleted ∧ r.2.name ∈ (r'.2.nextTasks.getD []).map (·.1) := by decide
  have hbefore : Advances detourSpec [] before :=
    ⟨by decide, by unfold UniqueNames; decide, fun _ _ h => absurd h List.not_mem_nil, fun r hr _ => hbegun r hr, by decide⟩
  have hkept : ∀ r ∈ before, ∃ r' ∈ after, r'.1 = r.1 ∧ r'.2.name = r.2.name ∧
      (r.2.state.isCompleted → r'.2.state = r.2.state ∧ r'.2.nextTasks = r.2.nextTasks) := by decide
  have hafter : Advances detourSpec before after := by
    refine ⟨by decide, by unfold UniqueNames; decide, fun i e he => ?_, fun r hr _ => hbegun' r hr, by decide⟩
    obtain ⟨r', hr', rfl, hname, hsame⟩ := hkept (i, e) he
    exact ⟨r'.2, hr', hname, hsame⟩
  have hj : { name := "j", join := some .one } ∈ detourSpec.tasks := by decide
  have hverdict : getJoinLogicalState detourSpec before .one { name := "j", join := some .one } =
      .ok { state := .running, triggeredBy := [⟨1, some (.clause .onSuccess)⟩] } := by decide
  obtain ⟨hfinal, -⟩ := h hacyclic before after (.single hbefore) (.single hafter) .one _ hj _ hverdict
  obtain ⟨l', hl', -⟩ := (hfinal (.inl rfl)).mpr trivial
  have hraise : getJoinLogicalState detourSpec after .one { name := "j", join := some .one } = .error notIterable := by decide
  rw [hraise] at hl'
  cases hl'

end Mistral
