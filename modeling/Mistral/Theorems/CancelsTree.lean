import Mistral.Engine.TreeCancellation
import Mistral.Lib.Excepts
import Mistral.Theorems.ResumesTree

/-! Which workflow executions of a tree the cancellation of one reaches. -/

namespace Mistral

namespace WorkflowTree
variable {ω : Type} (tree : WorkflowTree ω)

/-- The executions that the cancellation of `x` comes to: it goes down to the incomplete sub-workflows of a workflow. -/
inductive CancelComes (wf : ω → WorkflowNode) (x : ω) : ω → Prop
  | start : CancelComes wf x x
  | sub {p c : ω} (h : CancelComes wf x p) (hparent : tree.parent c = some p) (hc : (wf c).state.isCompleted = false) :
    CancelComes wf x c

/-- An execution between `x` and `y` is completed. -/
def CutOff (wf : ω → WorkflowNode) (x y : ω) : Prop :=
  ∃ c, tree.Below x c ∧ tree.Below c y ∧ (wf c).state.isCompleted

end WorkflowTree

namespace Cancellation
variable {ω : Type} {tree : WorkflowTree ω} {msg : String} {wf wf' : ω → WorkflowNode} {x y p c d : ω}
  {s s' : Cancellation ω} {n : Nat}

/-- An execution that is cancelled if it is not completed. -/
def cancelled (msg : String) (node : WorkflowNode) : WorkflowNode :=
  if node.state.isCompleted then node else { node with state := .cancelled, output := some msg }

theorem isCompleted_cancelled (node : WorkflowNode) : (cancelled msg node).state.isCompleted := by
  unfold cancelled
  split
  · assumption
  · rfl

theorem cancelled_of_completed {node : WorkflowNode} (h : node.state.isCompleted) : cancelled msg node = node := if_pos h

/-! ### What is reached -/

theorem under_of_comes (h : tree.CancelComes wf x y) : tree.Under x y := by
  induction h with
  | start => exact .refl
  | sub _ hparent _ ih => exact ih.sub hparent

/-- Only the states of the descendants matter. -/
theorem comes_congr (hsame : ∀ z, tree.Below x z → wf z = wf' z) (h : tree.CancelComes wf x y) :
    tree.CancelComes wf' x y := by
  induction h with
  | start => exact .start
  | sub hp hparent hc ih => exact ih.sub hparent (hsame _ ((under_of_comes hp).trans_below hparent) ▸ hc)

theorem comes_of_child (hparent : tree.parent c = some x) (hc : (wf c).state.isCompleted = false)
    (h : tree.CancelComes wf c y) : tree.CancelComes wf x y := by
  induction h with
  | start => exact .sub .start hparent hc
  | sub _ hparent' hc' ih => exact ih.sub hparent' hc'

theorem comes_iff : tree.CancelComes wf x y ↔
    y = x ∨ ∃ c ∈ tree.subs x, (wf c).state.isCompleted = false ∧ tree.CancelComes wf c y := by
  constructor
  · intro h
    induction h with
    | start => exact .inl rfl
    | @sub p c _ hparent hc ih =>
      rcases ih with rfl | ⟨d, hd, hopen, hcomes⟩
      · exact .inr ⟨c, tree.mem_subs.mpr hparent, hc, .start⟩
      · exact .inr ⟨d, hd, hopen, hcomes.sub hparent hc⟩
  · rintro (rfl | ⟨c, hc, hopen, hcomes⟩)
    · exact .start
    · exact comes_of_child (tree.mem_subs.mp hc) hopen hcomes

/-- An execution is reached if it and those between are not completed. -/
theorem comes_of_not_cutOff (hopen : (wf y).state.isCompleted = false) (hcut : ¬tree.CutOff wf x y)
    (hy : tree.Below x y) : tree.CancelComes wf x y := by
  obtain ⟨p, hparent, hp⟩ := hy
  have hup : ∀ p, tree.Under x p → tree.Below p y → tree.CancelComes wf x p := by
    intro p hp
    induction hp with
    | refl => exact fun _ => .start
    | @sub c p hp hparent ih =>
      intro hcy
      have hbelow : tree.Below p y := by
        obtain ⟨q, hq, hcq⟩ := hcy
        exact ⟨q, hq, (WorkflowTree.below_of_parent hparent).under.trans hcq⟩
      refine (ih hbelow).sub hparent (Bool.eq_false_iff.mpr fun hcompleted => hcut ?_)
      exact ⟨c, hp.trans_below hparent, hcy, hcompleted⟩
  exact (hup p hp (WorkflowTree.below_of_parent hparent)).sub hparent hopen

/-- Nothing below a completed sub-workflow is reached. -/
theorem not_comes_of_cutOff (hcut : tree.CutOff wf x y) : ¬tree.CancelComes wf x y := by
  obtain ⟨c, hxc, hcy, hcompleted⟩ := hcut
  have hunder : tree.Under c y := hcy.under
  clear hcy
  intro h
  induction h with
  | start => exact hxc.ne (hunder.antisymm hxc.under).symm
  | @sub p y hp hparent hopen ih =>
    by_cases hne : y = c
    · subst hne
      rw [hcompleted] at hopen
      cases hopen
    · obtain ⟨q, hq, hcq⟩ := hunder.strict hne
      rw [hparent] at hq
      cases hq
      exact ih hcq

/-! ### What is changed -/

variable [DecidableEq ω]

/-- The executions that satisfy `P` are cancelled, and the others stay. -/
def Cancels (msg : String) (P : ω → Prop) (wf wf' : ω → WorkflowNode) : Prop :=
  ∀ y, (P y → wf' y = cancelled msg (wf y)) ∧ (¬P y → wf' y = wf y)

theorem cancels_cancelWorkflow (h : s.cancelWorkflow tree msg x = .ok s') : Cancels msg (· = x) s.wf s'.wf := by
  unfold cancelWorkflow at h
  split at h
  · next hcompleted =>
    cases h
    refine fun y => ⟨?_, fun _ => rfl⟩
    rintro rfl
    exact (cancelled_of_completed hcompleted).symm
  · next hopen =>
    split at h
    · cases h
      refine fun y => ⟨?_, fun hne => Function.update_of_ne hne ..⟩
      rintro rfl
      show Function.update s.wf y _ y = _
      rw [Function.update_self, cancelled, if_neg hopen]
    · cases h

/-- The loop over sub-workflows, where each round cancels what it comes to. -/
theorem cancels_foldlM {step : ω → Cancellation ω → Except String (Cancellation ω)} {l : List ω}
    (hl : ∀ c ∈ l, tree.parent c = some x)
    (hstep : ∀ c ∈ l, ∀ s s', step c s = .ok s' → Cancels msg (tree.CancelComes s.wf c) s.wf s'.wf)
    (h : l.foldlM (fun s c => if (s.wf c).state.isCompleted then .ok s else step c s) s = .ok s') :
    Cancels msg (fun y => ∃ c ∈ l, (s.wf c).state.isCompleted = false ∧ tree.CancelComes s.wf c y) s.wf s'.wf := by
  induction l generalizing s with
  | nil =>
    cases h
    exact fun y => ⟨fun ⟨c, hc, _⟩ => absurd hc List.not_mem_nil, fun _ => rfl⟩
  | cons c l ih =>
    rw [List.foldlM_cons] at h
    obtain ⟨hlc, hll⟩ := List.forall_mem_cons.mp hl
    obtain ⟨hstepc, hstepl⟩ := List.forall_mem_cons.mp hstep
    obtain ⟨t, ht, h⟩ := bind_ok.mp h
    have ih := ih hll hstepl h
    by_cases hcompleted : (s.wf c).state.isCompleted
    · rw [if_pos hcompleted] at ht
      cases ht
      refine fun y => ⟨fun ⟨d, hd, hopen, hcomes⟩ => ?_, fun hnot => ?_⟩
      · rcases List.mem_cons.mp hd with rfl | hd
        · rw [hcompleted] at hopen
          cases hopen
        · exact (ih y).1 ⟨d, hd, hopen, hcomes⟩
      · exact (ih y).2 fun ⟨d, hd, hopen, hcomes⟩ => hnot ⟨d, List.mem_cons_of_mem _ hd, hopen, hcomes⟩
    · rw [if_neg hcompleted] at ht
      have hopenc : (s.wf c).state.isCompleted = false := Bool.eq_false_iff.mpr hcompleted
      have hcancels := hstepc s t ht
      have hct : (t.wf c).state.isCompleted := by
        rw [(hcancels c).1 .start]
        exact isCompleted_cancelled _
      -- The other sub-workflows and what is below them are as before.
      have hother : ∀ d ∈ l, d ≠ c → ∀ z, tree.Under d z → t.wf z = s.wf z := by
        intro d hd hne z hz
        refine (hcancels z).2 fun hcomes => hne ?_
        exact hz.child_unique (under_of_comes hcomes) (hll d hd) hlc
      have hlater : ∀ {y d}, d ∈ l → ((t.wf d).state.isCompleted = false ∧ tree.CancelComes t.wf d y ↔
          d ≠ c ∧ (s.wf d).state.isCompleted = false ∧ tree.CancelComes s.wf d y) := by
        intro y d hd
        by_cases hne : d = c
        · subst hne
          refine iff_of_false (fun h => ?_) fun h => h.1 rfl
          rw [hct] at h
          cases h.1
        · have hsame := hother d hd hne
          rw [hsame d .refl]
          refine ⟨fun h => ⟨hne, h.1, comes_congr (fun z hz => hsame z hz.under) h.2⟩, fun h => ⟨h.2.1, ?_⟩⟩
          exact comes_congr (fun z hz => (hsame z hz.under).symm) h.2.2
      intro y
      by_cases hcy : tree.CancelComes s.wf c y
      · refine ⟨fun _ => ?_, fun hnot => absurd ⟨c, List.mem_cons_self, hopenc, hcy⟩ hnot⟩
        have hnot : ¬∃ d ∈ l, (t.wf d).state.isCompleted = false ∧ tree.CancelComes t.wf d y := by
          rintro ⟨d, hd, hlate⟩
          obtain ⟨hne, -, hcomes⟩ := (hlater hd).mp hlate
          exact hne ((under_of_comes hcomes).child_unique (under_of_comes hcy) (hll d hd) hlc)
        rw [(ih y).2 hnot, (hcancels y).1 hcy]
      · refine ⟨fun ⟨d, hd, hopen, hcomes⟩ => ?_, fun hnot => ?_⟩
        · have hne : d ≠ c := by
            rintro rfl
            exact hcy hcomes
          have hd : d ∈ l := (List.mem_cons.mp hd).resolve_left hne
          rw [(ih y).1 ⟨d, hd, (hlater hd).mpr ⟨hne, hopen, hcomes⟩⟩, (hcancels y).2 hcy]
        · rw [(ih y).2 fun ⟨d, hd, hlate⟩ => ?_, (hcancels y).2 hcy]
          obtain ⟨-, hopen, hcomes⟩ := (hlater hd).mp hlate
          exact hnot ⟨d, List.mem_cons_of_mem _ hd, hopen, hcomes⟩

/-- What the cancellation comes to is cancelled, and everything else stays. -/
theorem cancels_stopWithin (hn : tree.height x ≤ n) (h : stopWithin tree msg n x s = .ok s') :
    Cancels msg (tree.CancelComes s.wf x) s.wf s'.wf := by
  induction n generalizing x s s' with
  | zero =>
    have hcancels := cancels_cancelWorkflow h
    have hleaf : ∀ y, tree.CancelComes s.wf x y ↔ y = x := by
      refine fun y => comes_iff.trans (or_iff_left ?_)
      rintro ⟨c, hc, -⟩
      have hlt := tree.height_lt (tree.mem_subs.mp hc)
      omega
    intro y
    rw [hleaf y]
    exact hcancels y
  | succ n ih =>
    obtain ⟨t, ht, h⟩ := bind_ok.mp h
    have hcancels := cancels_cancelWorkflow ht
    have hround : ∀ c ∈ tree.subs x, ∀ s s', stopWithin tree msg n c s = .ok s' →
        Cancels msg (tree.CancelComes s.wf c) s.wf s'.wf := by
      intro c hc s s' h
      have hlt := tree.height_lt (tree.mem_subs.mp hc)
      exact ih (by omega) h
    have hloop := cancels_foldlM (fun c hc => tree.mem_subs.mp hc) hround h
    have hsubs : ∀ c ∈ tree.subs x, ∀ z, tree.Under c z → t.wf z = s.wf z := by
      intro c hc z hz
      refine (hcancels z).2 ?_
      rintro rfl
      exact absurd (tree.height_lt (tree.mem_subs.mp hc)) (Nat.not_lt.mpr hz.height_le)
    have hloop' : ∀ y, (∃ c ∈ tree.subs x, (t.wf c).state.isCompleted = false ∧ tree.CancelComes t.wf c y) ↔
        ∃ c ∈ tree.subs x, (s.wf c).state.isCompleted = false ∧ tree.CancelComes s.wf c y := by
      refine fun y => exists_congr fun c => and_congr_right fun hc => ?_
      have hsame := hsubs c hc
      rw [hsame c .refl]
      exact and_congr_right fun _ => ⟨comes_congr fun z hz => hsame z hz.under,
        comes_congr fun z hz => (hsame z hz.under).symm⟩
    intro y
    rw [comes_iff]
    have hloop := hloop y
    simp only [hloop' y] at hloop
    by_cases hsub : ∃ c ∈ tree.subs x, (s.wf c).state.isCompleted = false ∧ tree.CancelComes s.wf c y
    · refine ⟨fun _ => ?_, fun hnot => absurd (.inr hsub) hnot⟩
      have hcancelled := hloop.1 hsub
      obtain ⟨c, hc, -, hcomes⟩ := hsub
      rw [hcancelled, hsubs c hc y (under_of_comes hcomes)]
    · refine ⟨fun h => ?_, fun hnot => ?_⟩
      · rw [hloop.2 hsub, (hcancels y).1 (h.resolve_right hsub)]
      · rw [hloop.2 hsub, (hcancels y).2 fun h => hnot (.inl h)]

end Cancellation

/-- When the cancellation of an execution returns, the descendants that satisfy `within` are completed, and those that were
    keep their state and output. -/
def CancellationReaches {ω : Type} [DecidableEq ω] (tree : WorkflowTree ω) (within : (ω → WorkflowNode) → ω → ω → Prop) :
    Prop :=
  ∀ msg wf root s', Cancellation.stopWorkflow tree msg root { wf } = .ok s' → ∀ y, tree.Below root y →
    (within wf root y → (s'.wf y).state.isCompleted) ∧ ((wf y).state.isCompleted → s'.wf y = wf y)

/-- Cancellation reaches all descendants but those below a sub-workflow that is completed already, which stay as they
    are. -/
theorem cancellation_reaches {ω : Type} [DecidableEq ω] (tree : WorkflowTree ω) :
    (CancellationReaches tree fun wf root y => ¬tree.CutOff wf root y) ∧
      ∀ msg wf root s', Cancellation.stopWorkflow tree msg root { wf } = .ok s' → ∀ y, tree.CutOff wf root y →
        s'.wf y = wf y := by
  have hcancels : ∀ {msg wf root s'}, Cancellation.stopWorkflow tree msg root { wf } = .ok s' →
      Cancellation.Cancels msg (tree.CancelComes wf root) wf s'.wf := fun h =>
    Cancellation.cancels_stopWithin (Nat.le_refl _) h
  refine ⟨fun msg wf root s' h y hy => ?_, fun msg wf root s' h y hcut => ?_⟩
  · obtain ⟨hreached, hother⟩ := hcancels h y
    have hkept : (wf y).state.isCompleted → s'.wf y = wf y := fun hcompleted => by
      by_cases hcomes : tree.CancelComes wf root y
      · rw [hreached hcomes, Cancellation.cancelled_of_completed hcompleted]
      · exact hother hcomes
    refine ⟨fun hcut => ?_, hkept⟩
    by_cases hcompleted : (wf y).state.isCompleted
    · rw [hkept hcompleted]
      exact hcompleted
    · rw [hreached (Cancellation.comes_of_not_cutOff (Bool.eq_false_iff.mpr hcompleted) hcut hy)]
      exact Cancellation.isCompleted_cancelled _
  · exact (hcancels h y).2 (Cancellation.not_comes_of_cutOff hcut)

local instance chain_neZero : NeZero 3 := ⟨Nat.succ_ne_zero 2⟩

/-- A workflow, its sub-workflow, and a sub-workflow of that. -/
def chainOfThree : WorkflowTree (Fin 3) where
  parent x := if x = 0 then none else some (x - 1)
  task x := x
  subs x := if x = 2 then [] else [x + 1]
  height x := 2 - x
  mem_subs := by decide
  height_lt := by decide
  root := by decide

/-- The sub-workflow has failed by a command, while its own sub-workflow runs. -/
theorem completed_subworkflow_shields : ¬CancellationReaches chainOfThree fun _ _ _ => True := by
  intro h
  let wf : Fin 3 → WorkflowNode := fun x => { state := if x = 1 then .error else .running }
  have hstop : Cancellation.stopWorkflow chainOfThree "stop" 0 { wf } =
      .ok { wf := Function.update wf 0 { state := .cancelled, output := some "stop" } } := rfl
  have hbelow : chainOfThree.Below 0 2 := ⟨1, rfl, .sub .refl rfl⟩
  exact absurd ((h "stop" wf 0 _ hstop 2 hbelow).1 trivial) (by decide)

end Mistral
