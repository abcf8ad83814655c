import Mathlib.Data.List.Chain
import Mathlib.Data.List.Perm.Subperm
import Mathlib.Logic.Relation
import Mistral.Workflow.RouteSearch

/-! What the route search of joins finds. It goes over the inbound tasks of a task in their order, passes those that no
    route comes through, and goes up at a task without an execution. -/

namespace Mistral

/-! ### Executions -/

/-- The completed execution of an inbound task has not triggered `t`. -/
def TaskEx.Ignores (e : TaskEx) (t : TaskSpec) : Prop :=
  e.state.isCompleted ∧ ∃ next, e.nextTasks = some next ∧ t.name ∉ next.map (·.1)

/-- The execution of an inbound task has triggered `t`, or may still do so. -/
def TaskEx.Leads (e : TaskEx) (t : TaskSpec) : Prop :=
  e.state.isCompleted = false ∨ ∃ next, e.nextTasks = some next ∧ t.name ∈ next.map (·.1)

/-- The execution is completed, and has no list of next tasks. -/
def TaskEx.Unrecorded (e : TaskEx) : Prop := e.state.isCompleted ∧ e.nextTasks = none

theorem TaskEx.kinds (e : TaskEx) (t : TaskSpec) : e.Ignores t ∨ e.Leads t ∨ e.Unrecorded := by
  by_cases hdone : e.state.isCompleted
  · cases hnext : e.nextTasks with
    | none => exact .inr (.inr ⟨hdone, hnext⟩)
    | some next =>
      by_cases hmem : t.name ∈ next.map (·.1)
      · exact .inr (.inl (.inr ⟨next, hnext, hmem⟩))
      · exact .inl ⟨hdone, next, hnext, hmem⟩
  · exact .inr (.inl (.inl (eq_false_of_ne_true hdone)))

theorem TaskEx.Leads.not_ignores {e : TaskEx} {t : TaskSpec} (h : e.Leads t) : ¬e.Ignores t := by
  rintro ⟨hdone, next, hnext, hnot⟩
  obtain hopen | ⟨next', hnext', hmem⟩ := h
  · rw [hdone] at hopen
    cases hopen
  · rw [hnext] at hnext'
    cases hnext'
    exact hnot hmem

theorem TaskEx.Unrecorded.not_ignores {e : TaskEx} {t : TaskSpec} (h : e.Unrecorded) : ¬e.Ignores t := by
  rintro ⟨-, next, hnext, -⟩
  rw [h.2] at hnext
  cases hnext

theorem TaskEx.Unrecorded.not_leads {e : TaskEx} {t : TaskSpec} (h : e.Unrecorded) : ¬e.Leads t := by
  rintro (hopen | ⟨next, hnext, -⟩)
  · rw [h.1] at hopen
    cases hopen
  · rw [h.2] at hnext
    cases hnext

/-! ### Routes -/

section
variable (spec : WorkflowSpec) (found : String → Option (TaskId × TaskEx))

/-- No route leads to `t`, which has no execution. -/
inductive Closed : TaskSpec → Prop
  | mk {t : TaskSpec} (hins : spec.findInboundTaskSpecs t ≠ [])
    (hpast : ∀ u ∈ spec.findInboundTaskSpecs t, ∀ i e, found u.name = some (i, e) → e.Ignores t)
    (hup : ∀ u ∈ spec.findInboundTaskSpecs t, found u.name = none → Closed u) : Closed t

/-- The search for `t` goes on after its inbound task `u`. -/
def Passed (t u : TaskSpec) : Prop :=
  (∀ i e, found u.name = some (i, e) → e.Ignores t) ∧ (found u.name = none → Closed spec found u)

/-- The search for `t` comes to its inbound task `u`. -/
def Gets (t u : TaskSpec) : Prop :=
  ∃ pre post, spec.findInboundTaskSpecs t = pre ++ u :: post ∧ ∀ w ∈ pre, Passed spec found t w

/-- The search for `t` goes up at `u`. -/
def Descends (t u : TaskSpec) : Prop := Gets spec found t u ∧ found u.name = none

/-- The search for `t` finds a route. -/
inductive Open : TaskSpec → Prop
  | start {t : TaskSpec} (h : spec.findInboundTaskSpecs t = []) : Open t
  | leads {t u : TaskSpec} {i : TaskId} {e : TaskEx} (h : Gets spec found t u) (hu : found u.name = some (i, e))
    (he : e.Leads t) : Open t
  | up {t u : TaskSpec} (h : Descends spec found t u) (hu : Open u) : Open t

/-- The search for `t` comes to an execution without a list of next tasks. -/
inductive Blind : TaskSpec → Prop
  | here {t u : TaskSpec} {i : TaskId} {e : TaskEx} (h : Gets spec found t u) (hu : found u.name = some (i, e))
    (he : e.Unrecorded) : Blind t
  | up {t u : TaskSpec} (h : Descends spec found t u) (hu : Blind u) : Blind t

/-- What the search for `t` comes to with `fuel` nested calls at most. -/
inductive Finds (t : TaskSpec) (fuel : Nat) : Except Exc (Bool × Nat) → Prop
  | route (depth : Nat) (h : Open spec found t) : Finds t fuel (.ok (true, depth))
  | noRoute (depth : Nat) (h : Closed spec found t) : Finds t fuel (.ok (false, depth))
  | raises (h : Blind spec found t) : Finds t fuel (.error notIterable)
  | deep (l : List TaskSpec) (hl : l.length = fuel) (h : (t :: l).IsChain (Descends spec found)) :
    Finds t fuel (.error recursionError)

end

section
variable {spec : WorkflowSpec} {found : String → Option (TaskId × TaskEx)} {t u w : TaskSpec} {fuel depth : Nat}

theorem Closed.passed (h : Closed spec found t) (hu : u ∈ spec.findInboundTaskSpecs t) : Passed spec found t u := by
  cases h with
  | mk _ hpast hup => exact ⟨hpast u hu, hup u hu⟩

theorem Gets.mem (h : Gets spec found t u) : u ∈ spec.findInboundTaskSpecs t := by
  obtain ⟨pre, post, hins, -⟩ := h
  rw [hins]
  exact List.mem_append_right _ List.mem_cons_self

/-- The search stops at one inbound task. -/
theorem Gets.unique (h : Gets spec found t u) (h' : Gets spec found t w) (hu : ¬Passed spec found t u)
    (hw : ¬Passed spec found t w) : u = w := by
  obtain ⟨pre, post, hins, hpre⟩ := h
  obtain ⟨pre', post', hins', hpre'⟩ := h'
  rw [hins, List.append_eq_append_iff] at hins'
  obtain ⟨l, hl, hrest⟩ | ⟨l, hl, hrest⟩ := hins'
  · cases l with
    | nil =>
      cases hrest
      rfl
    | cons x l =>
      cases hrest
      exact absurd (hpre' u (hl ▸ List.mem_append_right _ List.mem_cons_self)) hu
  · cases l with
    | nil =>
      cases hrest
      rfl
    | cons x l =>
      cases hrest
      exact absurd (hpre w (hl ▸ List.mem_append_right _ List.mem_cons_self)) hw

theorem Passed.closed (h : Passed spec found t u) (hu : found u.name = none) : Closed spec found u := h.2 hu

/-! ### One outcome -/

theorem Open.not_closed (h : Open spec found t) : ¬Closed spec found t := by
  induction h with
  | start hnone =>
    rintro ⟨hins, -, -⟩
    exact hins hnone
  | leads hgets hu he => exact fun hclosed => he.not_ignores ((hclosed.passed hgets.mem).1 _ _ hu)
  | up hdescends _ ih => exact fun hclosed => ih ((hclosed.passed hdescends.1.mem).2 hdescends.2)

theorem Blind.not_closed (h : Blind spec found t) : ¬Closed spec found t := by
  induction h with
  | here hgets hu he => exact fun hclosed => he.not_ignores ((hclosed.passed hgets.mem).1 _ _ hu)
  | up hdescends _ ih => exact fun hclosed => ih ((hclosed.passed hdescends.1.mem).2 hdescends.2)

theorem not_passed_of_open (hu : found u.name = none) (h : Open spec found u) : ¬Passed spec found t u :=
  fun hpassed => h.not_closed (hpassed.2 hu)

theorem not_passed_of_blind (hu : found u.name = none) (h : Blind spec found u) : ¬Passed spec found t u :=
  fun hpassed => h.not_closed (hpassed.2 hu)

theorem not_passed_of_leads {i : TaskId} {e : TaskEx} (hu : found u.name = some (i, e)) (h : e.Leads t) :
    ¬Passed spec found t u := fun hpassed => h.not_ignores (hpassed.1 i e hu)

theorem not_passed_of_unrecorded {i : TaskId} {e : TaskEx} (hu : found u.name = some (i, e)) (h : e.Unrecorded) :
    ¬Passed spec found t u := fun hpassed => h.not_ignores (hpassed.1 i e hu)

theorem Blind.not_open (h : Blind spec found t) : ¬Open spec found t := by
  induction h with
  | here hgets hu he =>
    intro hopen
    cases hopen with
    | start hnone =>
      have hmem := hgets.mem
      rw [hnone] at hmem
      cases hmem
    | leads hgets' hu' he' =>
      cases hgets.unique hgets' (not_passed_of_unrecorded hu he) (not_passed_of_leads hu' he')
      rw [hu] at hu'
      cases hu'
      exact he.not_leads he'
    | up hdescends hopen =>
      cases hgets.unique hdescends.1 (not_passed_of_unrecorded hu he) (not_passed_of_open hdescends.2 hopen)
      rw [hdescends.2] at hu
      cases hu
  | @up t u hdescends hblind ih =>
    intro hopen
    have hnot : ¬Passed spec found t u := not_passed_of_blind hdescends.2 hblind
    cases hopen with
    | start hnone =>
      have hmem := hdescends.1.mem
      rw [hnone] at hmem
      cases hmem
    | leads hgets' hu' he' =>
      cases hdescends.1.unique hgets' hnot (not_passed_of_leads hu' he')
      rw [hdescends.2] at hu'
      cases hu'
    | up hdescends' hopen =>
      cases hdescends.1.unique hdescends'.1 hnot (not_passed_of_open hdescends'.2 hopen)
      exact ih hopen

/-! ### An outcome ends the search -/

/-- Where the search comes to an outcome, it does not go up forever. -/
theorem Closed.acc (h : Closed spec found t) : Acc (fun u t => Descends spec found t u) t := by
  induction h with
  | mk hins hpast hup ih => exact .intro _ fun u hu => ih u hu.1.mem hu.2

theorem Open.acc (h : Open spec found t) : Acc (fun u t => Descends spec found t u) t := by
  induction h with
  | start hnone =>
    refine .intro _ fun u hu => ?_
    have hmem := hu.1.mem
    rw [hnone] at hmem
    cases hmem
  | @leads t v i e hgets hv he =>
    refine .intro _ fun u hu => ?_
    by_cases hclosed : Closed spec found u
    · exact hclosed.acc
    · cases hgets.unique hu.1 (not_passed_of_leads hv he) fun hpassed => hclosed (hpassed.2 hu.2)
      rw [hu.2] at hv
      cases hv
  | @up t v hdescends hopen ih =>
    refine .intro _ fun u hu => ?_
    by_cases hclosed : Closed spec found u
    · exact hclosed.acc
    · cases hdescends.1.unique hu.1 (not_passed_of_open hdescends.2 hopen) fun hpassed => hclosed (hpassed.2 hu.2)
      exact ih

theorem Blind.acc (h : Blind spec found t) : Acc (fun u t => Descends spec found t u) t := by
  induction h with
  | @here t v i e hgets hv he =>
    refine .intro _ fun u hu => ?_
    by_cases hclosed : Closed spec found u
    · exact hclosed.acc
    · cases hgets.unique hu.1 (not_passed_of_unrecorded hv he) fun hpassed => hclosed (hpassed.2 hu.2)
      rw [hu.2] at hv
      cases hv
  | @up t v hdescends hblind ih =>
    refine .intro _ fun u hu => ?_
    by_cases hclosed : Closed spec found u
    · exact hclosed.acc
    · cases hdescends.1.unique hu.1 (not_passed_of_blind hdescends.2 hblind) fun hpassed => hclosed (hpassed.2 hu.2)
      exact ih

/-! ### The search -/

theorem nextTaskNames_of_none {e : TaskEx} (h : e.nextTasks = none) : nextTaskNames e = .error notIterable := by
  rw [nextTaskNames, h]
  rfl

/-- The loop over the inbound tasks `us`, after those that were passed. -/
theorem searchVia_finds (h : ∀ u depth, Finds spec found u fuel (search spec found fuel u depth)) {pre us : List TaskSpec}
    (hins : spec.findInboundTaskSpecs t = pre ++ us) (hne : spec.findInboundTaskSpecs t ≠ [])
    (hpre : ∀ w ∈ pre, Passed spec found t w) :
    Finds spec found t (fuel + 1) (searchVia found (search spec found fuel) t us depth) := by
  induction us generalizing pre depth with
  | nil =>
    rw [List.append_nil] at hins
    subst hins
    exact .noRoute _ ⟨hne, fun u hu => (hpre u hu).1, fun u hu => (hpre u hu).2⟩
  | cons u us ih =>
    have hgets : Gets spec found t u := ⟨pre, us, hins, hpre⟩
    have hnext : ∀ depth, Passed spec found t u →
        Finds spec found t (fuel + 1) (searchVia found (search spec found fuel) t us depth) := fun depth hu => by
      have hsplit : spec.findInboundTaskSpecs t = (pre ++ [u]) ++ us := by
        rw [hins, List.append_assoc]
        rfl
      refine ih hsplit fun w hw => ?_
      obtain hw | hw := List.mem_append.mp hw
      · exact hpre w hw
      · cases List.mem_singleton.mp hw
        exact hu
    simp only [searchVia]
    cases hu : found u.name with
    | none =>
      have hdescends : Descends spec found t u := ⟨hgets, hu⟩
      have hfinds := h u (depth + 1)
      dsimp only
      generalize search spec found fuel u (depth + 1) = r at hfinds
      cases hfinds with
      | route depth hopen => exact .route _ (.up hdescends hopen)
      | noRoute depth hclosed =>
        refine hnext depth ⟨fun i e he => ?_, fun _ => hclosed⟩
        rw [hu] at he
        cases he
      | raises hblind => exact .raises (.up hdescends hblind)
      | deep l hl hchain => exact .deep (u :: l) (by rw [List.length_cons, hl]) (.cons_cons hdescends hchain)
    | some r =>
      obtain ⟨i, e⟩ := r
      dsimp only
      obtain hignores | hleads | hunrecorded := e.kinds t
      · obtain ⟨hdone, next, hnexts, hnot⟩ := hignores
        rw [hdone, nextTaskNames_of_some hnexts]
        show Finds spec found t (fuel + 1) (if t.name ∈ next.map (·.1) then _ else _)
        rw [if_neg hnot]
        refine hnext depth ⟨fun i' e' he' => ?_, fun hnone => ?_⟩
        · rw [hu] at he'
          cases he'
          exact ⟨hdone, next, hnexts, hnot⟩
        · rw [hu] at hnone
          cases hnone
      · have hopen : Open spec found t := .leads hgets hu hleads
        split
        · exact .route _ hopen
        next hdone =>
          obtain hnot | ⟨next, hnexts, hmem⟩ := hleads
          · rw [hnot] at hdone
            exact absurd rfl hdone
          · rw [nextTaskNames_of_some hnexts]
            show Finds spec found t (fuel + 1) (if t.name ∈ next.map (·.1) then _ else _)
            rw [if_pos hmem]
            exact .route _ hopen
      · rw [hunrecorded.1, nextTaskNames_of_none hunrecorded.2]
        exact .raises (.here hgets hu hunrecorded)

/-- The search finds a route, finds that there is none, raises, or goes up as often as it is allowed to. -/
theorem search_finds : Finds spec found t fuel (search spec found fuel t depth) := by
  induction fuel generalizing t depth with
  | zero => exact .deep [] rfl (.singleton t)
  | succ fuel ih =>
    by_cases hnone : spec.findInboundTaskSpecs t = []
    · have hsearch : search spec found (fuel + 1) t depth = .ok (true, depth) := by
        simp only [search, hnone]
        rfl
      rw [hsearch]
      exact .route _ (.start hnone)
    · have hsearch : search spec found (fuel + 1) t depth =
          searchVia found (search spec found fuel) t (spec.findInboundTaskSpecs t) depth := by
        simp only [search]
      have hpre : ∀ w ∈ ([] : List TaskSpec), Passed spec found t w := fun _ hw => absurd hw List.not_mem_nil
      rw [hsearch]
      exact searchVia_finds (fun _ _ => ih) (List.nil_append _).symm hnone hpre

/-- A path that is longer than the specification comes to a task twice. -/
theorem exists_cycle {l : List TaskSpec} (hl : spec.tasks.length < l.length) (h : (t :: l).IsChain (Descends spec found)) :
    ∃ u, Relation.TransGen (Descends spec found) u u := by
  by_contra hnone
  have hpairs : (t :: l).Pairwise (Relation.TransGen (Descends spec found)) :=
    List.isChain_iff_pairwise.mp (h.imp fun _ _ => .single)
  have hsub : l ⊆ spec.tasks := fun u hu => by
    obtain ⟨w, -, hw⟩ := Relation.TransGen.tail'_iff.mp (List.rel_of_pairwise_cons hpairs hu)
    exact (WorkflowSpec.mem_findInboundTaskSpecs.mp hw.1.mem).1
  have hne : ∀ {u w : TaskSpec}, Relation.TransGen (Descends spec found) u w → u ≠ w := fun hrel heq => by
    rw [← heq] at hrel
    exact hnone ⟨_, hrel⟩
  have hnodup : l.Nodup := List.Pairwise.imp hne (List.Pairwise.of_cons hpairs)
  exact absurd (hnodup.subperm hsub).length_le (Nat.not_le.mpr hl)

end
end Mistral
