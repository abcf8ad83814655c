import Mistral.Theorems.PausesTree

/-! A request to resume runs the continuation of each workflow that it resumes once, where no update from below resumes a
    workflow that is being resumed from above. -/

namespace Mistral
namespace WorkflowTree
variable {ω : Type} {tree : WorkflowTree ω} {u v w x y p : ω}

theorem Under.trans (h : tree.Under w x) (h' : tree.Under x y) : tree.Under w y := by
  induction h' with
  | refl => exact h
  | sub _ hparent ih => exact ih.sub hparent

theorem Under.height_le (h : tree.Under w x) : tree.height x ≤ tree.height w := by
  induction h with
  | refl => exact Nat.le_refl _
  | sub _ hparent ih => exact Nat.le_trans (Nat.le_of_lt (tree.height_lt hparent)) ih

theorem Under.antisymm (h : tree.Under w x) (h' : tree.Under x w) : x = w := by
  cases h with
  | refl => rfl
  | sub hp hparent => exact absurd (tree.height_lt hparent) (Nat.not_lt.mpr (Nat.le_trans hp.height_le h'.height_le))

/-- The ancestors of a workflow are in a line. -/
theorem Under.comparable (hu : tree.Under u w) (hv : tree.Under v w) : tree.Under u v ∨ tree.Under v u := by
  induction hu with
  | refl => exact .inr hv
  | sub hp hparent ih =>
    cases hv with
    | refl => exact .inl (hp.sub hparent)
    | sub hp' hparent' =>
      rw [hparent] at hparent'
      cases hparent'
      exact ih hp'

/-- `x` is a descendant of `w`. -/
def Below (tree : WorkflowTree ω) (w x : ω) : Prop := ∃ p, tree.parent x = some p ∧ tree.Under w p

theorem Below.under (h : tree.Below w x) : tree.Under w x := by
  obtain ⟨p, hparent, hp⟩ := h
  exact hp.sub hparent

theorem Below.ne (h : tree.Below w x) : x ≠ w := by
  rintro rfl
  obtain ⟨p, hparent, hp⟩ := h
  exact absurd (tree.height_lt hparent) (Nat.not_lt.mpr hp.height_le)

theorem Under.strict (h : tree.Under w x) (hne : x ≠ w) : tree.Below w x := by
  cases h with
  | refl => exact absurd rfl hne
  | sub hp hparent => exact ⟨_, hparent, hp⟩

theorem below_of_parent (hparent : tree.parent x = some p) : tree.Below p x := ⟨p, hparent, .refl⟩

/-- The ancestors of a workflow with the same parent are the same. -/
theorem Under.child_unique (hx : tree.Under x w) (hy : tree.Under y w) (hxp : tree.parent x = some p)
    (hyp : tree.parent y = some p) : x = y := by
  by_contra hne
  obtain h | h := hx.comparable hy
  · obtain ⟨q, hq, hunder⟩ := h.strict (Ne.symm hne)
    rw [hyp] at hq
    cases hq
    exact (below_of_parent hxp).ne (hunder.antisymm (below_of_parent hxp).under).symm
  · obtain ⟨q, hq, hunder⟩ := h.strict hne
    rw [hxp] at hq
    cases hq
    exact (below_of_parent hyp).ne (hunder.antisymm (below_of_parent hyp).under).symm

theorem Under.trans_below (h : tree.Under w p) (hparent : tree.parent x = some p) : tree.Below w x := ⟨p, hparent, h⟩

end WorkflowTree

namespace TreeRun
variable {ω : Type} {tree : WorkflowTree ω} {o : TreeOracle ω} {s s' : TreeRun ω} {x y w p c : ω} {f g : Frame ω}
  {stack : List (Frame ω)}

/-! ### What a statement does -/

/-- The tasks that a dispatcher is about to start again. -/
def existing : List TreeCommand → List Nat
  | [] => []
  | .runExistingTask k :: cmds => k :: existing cmds
  | .next _ :: cmds => existing cmds

def pending : List (Frame ω) → List Nat
  | [] => []
  | .commands _ cmds :: stack => existing cmds ++ pending stack
  | _ :: stack => pending stack

/-- Workflows, tasks and logs are the same. -/
def Still (s s' : TreeRun ω) : Prop :=
  s'.wf = s.wf ∧ s'.tasks = s.tasks ∧ s'.continued = s.continued ∧ s'.starts = s.starts

/-- A frame of a request to resume, with what holds while it is on the stack. -/
def ResumingFrame (tree : WorkflowTree ω) (s : TreeRun ω) : Frame ω → Prop
  | .resumeSubs x todo => s.state x = .paused ∧ ∀ c ∈ todo, tree.parent c = some x
  | .resume x => s.state x = .paused ∧ ∀ c, tree.parent c = some x → s.state c ≠ .paused
  | .commands x _ | .update x => x ∈ s.continued
  | .handler _ _ => True
  | _ => False

theorem existing_append {l l' : List TreeCommand} : existing (l ++ l') = existing l ++ existing l' := by
  induction l with
  | nil => rfl
  | cons c l ih =>
    cases c with
    | next c => exact ih
    | runExistingTask k => exact congrArg (k :: ·) ih

theorem existing_next {l : List NextCommand} : existing (l.map .next) = [] := by
  induction l with
  | nil => rfl
  | cons c l ih => exact ih

theorem existing_runExistingTask {l : List Nat} : existing (l.map .runExistingTask) = l := by
  induction l with
  | nil => rfl
  | cons k l ih => exact congrArg (k :: ·) ih

section
variable [DecidableEq ω]

/-- The workflow that is continued goes on, or completes at once. -/
structure Continues (s s' : TreeRun ω) (x : ω) (stack : List (Frame ω)) (cmds : List TreeCommand) : Prop where
  wf : ∃ n, s'.wf = Function.update s.wf x n ∧ (n.state = .running ∨ n.state.isCompleted)
  tasks : s'.tasks = (s.processTasks x).tasks
  continued : s'.continued = x :: s.continued
  starts : s'.starts = s.starts
  raised : s'.raised = s.raised
  existing : existing cmds = [] ∨ existing cmds = (s.tasksOf x).filter fun k => s.tasks[k]?.any (·.state.isIdle)
  stack : s'.stack = .commands x cmds :: .update x :: stack ∨ s'.stack = .update x :: stack

theorem existing_continueCommands {cmds : List TreeCommand} (h : s.continueCommands o x = some cmds) :
    existing cmds = [] ∨ existing cmds = (s.tasksOf x).filter fun k => s.tasks[k]?.any (·.state.isIdle) := by
  unfold continueCommands at h
  split at h
  · obtain ⟨next, -, rfl⟩ := Option.map_eq_some_iff.mp h
    exact .inl existing_next
  · obtain ⟨next, -, rfl⟩ := Option.map_eq_some_iff.mp h
    right
    rw [existing_append, existing_next, List.append_nil, idleCommands, existing_runExistingTask]

/-- What is evaluated depends on the tasks. -/
theorem continueCommands_of_tasks {s s' : TreeRun ω} (h : s'.tasks = s.tasks) :
    s'.continueCommands o x = s.continueCommands o x := by
  have htasks : s'.tasksOf x = s.tasksOf x := by rw [tasksOf, tasksOf, h]
  have hidle : s'.idleCommands x = s.idleCommands x := by rw [idleCommands, idleCommands, htasks, h]
  have hnext : s'.nextCommands o x = s.nextCommands o x := by rw [nextCommands, nextCommands, htasks, h]
  rw [continueCommands, continueCommands, htasks, hidle, hnext]

theorem continues (hs : s.stack = stack) (hevaluates : s.Evaluates o x) :
    ∃ cmds, Continues s (s.resume o x) x stack cmds := by
  subst hs
  obtain ⟨hcmds, hfinal⟩ := hevaluates
  obtain ⟨cmds, hcmds⟩ := Option.isSome_iff_exists.mp hcmds
  generalize hr : s.setWf x { s.wf x with state := .running } = r
  have hwf : r.wf = Function.update s.wf x { s.wf x with state := .running } := by rw [← hr]; rfl
  have htasks : r.tasks = s.tasks := by rw [← hr]; rfl
  have hupdate : ∀ n, Function.update r.wf x n = Function.update s.wf x n := fun n => by
    rw [hwf, Function.update_idem]
  have hresume : s.resume o x = (r.push (.update x)).continueWorkflow o x cmds := by
    simp only [resume, hr, continueCommands_of_tasks htasks, hcmds]
  have hall : existing ((r.wf x).backlog.map .next ++ cmds) = existing cmds := by
    rw [existing_append, existing_next, List.nil_append]
  refine ⟨(r.wf x).backlog.map .next ++ cmds, ?_⟩
  have hexisting := existing_continueCommands hcmds
  rw [← hall] at hexisting
  have hprocessed : ((r.push (.update x)).processTasks x).tasks = (s.processTasks x).tasks := by rw [← hr]; rfl
  rw [hresume]
  simp only [continueWorkflow, hprocessed]
  split
  · split
    next hcompleted =>
      obtain ⟨e, he⟩ := Option.isSome_iff_exists.mp (hfinal hcompleted)
      simp only [complete, he]
      refine ⟨⟨_, hupdate _, .inr e.completed⟩, ?_, ?_, ?_, ?_, hexisting, .inr ?_⟩ <;> rw [← hr] <;> rfl
    · refine ⟨⟨_, hwf, .inl rfl⟩, ?_, ?_, ?_, ?_, hexisting, .inr ?_⟩ <;> rw [← hr] <;> rfl
  · refine ⟨⟨_, hupdate _, .inl ?_⟩, ?_, ?_, ?_, ?_, hexisting, .inl ?_⟩
    · show (r.wf x).state = .running
      rw [hwf, Function.update_self]
    all_goals rw [← hr]; rfl

/-- What a statement of a request to resume does. -/
inductive ResumeTick (tree : WorkflowTree ω) (s s' : TreeRun ω) : Prop
  | loopEnd {x : ω} {stack : List (Frame ω)} (hs : s.stack = .resumeSubs x [] :: stack) (hs' : s'.stack = .resume x :: stack)
    (hstill : Still s s')
  | skip {x c : ω} {todo : List ω} {stack : List (Frame ω)} (hs : s.stack = .resumeSubs x (c :: todo) :: stack)
    (hc : s.state c ≠ .paused) (hs' : s'.stack = .resumeSubs x todo :: stack) (hstill : Still s s')
  | enter {x c : ω} {todo : List ω} {stack : List (Frame ω)} (hs : s.stack = .resumeSubs x (c :: todo) :: stack)
    (hc : s.state c = .paused) (hs' : s'.stack = .resumeSubs c (tree.subs c) :: .resumeSubs x todo :: stack)
    (hstill : Still s s')
  | resume {x : ω} {stack : List (Frame ω)} {cmds : List TreeCommand} (hs : s.stack = .resume x :: stack)
    (h : Continues s s' x stack cmds)
  | pop {f : Frame ω} {stack : List (Frame ω)} (hs : s.stack = f :: stack) (hf : ∀ x, f ≠ .resume x)
    (hf' : ∀ x todo, f ≠ .resumeSubs x todo) (hs' : s'.stack = stack) (hstill : Still s s')
  | runTask {x : ω} {waiting : Bool} {cmds : List TreeCommand} {stack : List (Frame ω)}
    (hs : s.stack = .commands x (.next (.runTask waiting) :: cmds) :: stack) (hs' : s'.stack = .commands x cmds :: stack)
    (hwf : s'.wf = s.wf)
    (htasks : s'.tasks = s.tasks ++ [{ wf := x, state := if waiting then .waiting else .idle, processed := false }])
    (hcontinued : s'.continued = s.continued) (hstarts : s'.starts = s.tasks.length :: s.starts)
  | runExistingTask {x : ω} {k : Nat} {cmds : List TreeCommand} {stack : List (Frame ω)}
    (hs : s.stack = .commands x (.runExistingTask k :: cmds) :: stack) (hs' : s'.stack = .commands x cmds :: stack)
    (hwf : s'.wf = s.wf) (htasks : s'.tasks = s.tasks) (hcontinued : s'.continued = s.continued)
    (hstarts : s'.starts = k :: s.starts)
  | stop {x : ω} {e : WorkflowEnd} {cmds : List TreeCommand} {stack : List (Frame ω)}
    (hs : s.stack = .commands x (.next (.stop e) :: cmds) :: stack) (hs' : s'.stack = .commands x cmds :: stack)
    (hwf : ∃ n, s'.wf = Function.update s.wf x n ∧ n.state.isCompleted) (htasks : s'.tasks = s.tasks)
    (hcontinued : s'.continued = s.continued) (hstarts : s'.starts = s.starts)
  | update {x p : ω} {stack : List (Frame ω)} (hs : s.stack = .update x :: stack) (hparent : tree.parent x = some p)
    (hs' : s'.stack = stack) (hwf : s'.wf = s.wf) (htasks : s'.tasks = (s.updateTask tree x).tasks) (hcontinued : s'.continued = s.continued)
    (hstarts : s'.starts = s.starts)
  | up {x p : ω} {stack : List (Frame ω)} (hs : s.stack = .update x :: stack) (hp : ResumesParent tree s x p)
    (hs' : s'.stack = .resumeSubs p (tree.subs p) :: .handler p (tree.task x) :: stack) (hwf : s'.wf = s.wf)
    (htasks : s'.tasks = (s.updateTask tree x).tasks) (hcontinued : s'.continued = s.continued)
    (hstarts : s'.starts = s.starts)

end

/-- What a request to resume has done to the workflows. -/
structure Trail (tree : WorkflowTree ω) (w : ω) (s : TreeRun ω) : Prop where
  stored : ∀ x, (s.before x).state.isStored
  kept : ∀ x, (s.before x).state ≠ .paused → s.wf x = s.before x
  continued : ∀ x, x ∈ s.continued ↔ (s.before x).state = .paused ∧ s.state x ≠ .paused
  once : s.continued.Nodup
  went : ∀ x ∈ s.continued, s.state x = .running ∨ (s.state x).isCompleted
  reached : ∀ x p, tree.Under w p → tree.parent x = some p → s.state x = .paused → s.state p = .paused

/-- `resume_workflow` is going on for `x`. -/
def IsResume (x : ω) (f : Frame ω) : Prop := f = .resume x ∨ ∃ todo, f = .resumeSubs x todo

/-- The workflow that a call works on. -/
def Frame.about : Frame ω → Option ω
  | .resumeSubs x _ | .resume x | .commands x _ | .update x => some x
  | _ => none

/-- A call inside of the loop of `resume_workflow` for a workflow is for a workflow below. -/
def Inside (tree : WorkflowTree ω) (f g : Frame ω) : Prop :=
  (∀ y, g ≠ .resume y) ∧ ∀ x y todo, Frame.about f = some x → g = .resumeSubs y todo → tree.Below y x

/-- The calls that are going on in a request to resume. -/
structure Calls (tree : WorkflowTree ω) (w : ω) (s : TreeRun ω) : Prop where
  raised : s.raised = false
  frames : ∀ f ∈ s.stack, s.ResumingFrame tree f
  nested : s.stack.Pairwise (Inside tree)
  loops : ∀ x todo, .resumeSubs x todo ∈ s.stack → ∀ c, tree.parent c = some x → s.state c = .paused →
    c ∈ todo ∨ ∃ f ∈ s.stack, IsResume c f
  started : s.state w = .paused → ∃ f ∈ s.stack, IsResume w f

theorem Trail.state_of_isPausedOrIdle (h : Trail tree w s) (hx : (s.state x).isPausedOrIdle) : s.state x = .paused := by
  by_contra hne
  have hidle : s.state x = .idle := by
    simp only [State.isPausedOrIdle, State.isPaused, State.isIdle, Bool.or_eq_true, beq_iff_eq] at hx
    exact hx.resolve_left hne
  by_cases hbefore : (s.before x).state = .paused
  · obtain hrunning | hcompleted := h.went x ((h.continued x).mpr ⟨hbefore, hne⟩)
    · rw [hidle] at hrunning
      cases hrunning
    · rw [hidle] at hcompleted
      cases hcompleted
  · have hstored := h.stored x
    rw [← h.kept x hbefore] at hstored
    have hstored : (s.state x).isStored := hstored
    rw [hidle] at hstored
    cases hstored

theorem Trail.state_of_continued (h : Trail tree w s) (hx : x ∈ s.continued) : (s.state x).isPaused = false := by
  obtain hrunning | hcompleted := h.went x hx
  · rw [hrunning]
    rfl
  · obtain hst | hst | hst | hst := State.isCompleted_iff.mp hcompleted <;> rw [hst] <;> rfl

section
variable [DecidableEq ω]

theorem tick_cases (htrail : Trail tree w s) (h : Calls tree w s) (hcall : s.call = .resume w) (hguard : s.Undisturbed tree o)
    (hstack : s.stack ≠ []) : ResumeTick tree s (s.tick tree o) := by
  obtain ⟨f, stack, hs⟩ := List.exists_cons_of_ne_nil hstack
  have hframe := h.frames f (hs ▸ List.mem_cons_self)
  rw [tick_of_not_raised hs h.raised]
  have hstill : Still s { s with stack } := ⟨rfl, rfl, rfl, rfl⟩
  cases f with
  | resumeSubs x todo =>
    cases todo with simp only [execute]
    | nil => exact .loopEnd hs rfl ⟨rfl, rfl, rfl, rfl⟩
    | cons c todo =>
      split
      next hc => exact .enter hs (htrail.state_of_isPausedOrIdle hc) rfl ⟨rfl, rfl, rfl, rfl⟩
      next hc =>
        refine .skip hs (fun hpaused => hc ?_) rfl ⟨rfl, rfl, rfl, rfl⟩
        show (s.state c).isPausedOrIdle
        rw [hpaused]
        rfl
  | resume x =>
    have hpaused : s.state x = .paused := hframe.1
    simp only [execute]
    rw [if_pos]
    · rw [Undisturbed, hcall, hs] at hguard
      obtain ⟨cmds, hcmds⟩ := continues (o := o) (x := x) (s := { s with stack }) rfl hguard
      exact .resume hs ⟨hcmds.wf, hcmds.tasks, hcmds.continued, hcmds.starts, hcmds.raised, hcmds.existing, hcmds.stack⟩
    · show (s.state x).isValidTransition .running
      rw [hpaused]
      rfl
  | commands x cmds =>
    have hx : x ∈ s.continued := hframe
    cases cmds with simp only [execute]
    | nil => exact .pop hs (by simp) (by simp) rfl hstill
    | cons c cmds =>
      split
      · exact .pop hs (by simp) (by simp) rfl hstill
      next hopen =>
        rw [if_neg]
        · cases c with
          | runExistingTask k => exact .runExistingTask hs rfl rfl rfl rfl rfl
          | next c =>
            cases c with
            | runTask waiting => exact .runTask hs rfl rfl rfl rfl rfl
            | stop e => exact .stop hs rfl ⟨_, rfl, e.completed⟩ rfl rfl rfl
            | pause | fails =>
              rw [Undisturbed, hcall, hs] at hguard
              exact absurd hguard hopen
        · exact fun hpaused => Bool.false_ne_true ((htrail.state_of_continued hx).symm.trans hpaused)
  | update x =>
    have hx : (s.state x).isPaused = false := htrail.state_of_continued hframe
    simp only [execute]
    split
    · exact .pop hs (by simp) (by simp) rfl hstill
    next p hparent =>
      rw [if_neg]
      · split
        next hup =>
          simp only [Bool.and_eq_true, Bool.not_eq_true'] at hup
          obtain ⟨⟨hrunning, hnone⟩, hp⟩ := hup
          exact .up hs ⟨hparent, hrunning, hnone, hp⟩ rfl rfl rfl rfl rfl
        · exact .update hs hparent rfl rfl rfl rfl rfl
      · exact fun hpaused => Bool.false_ne_true (hx.symm.trans hpaused)
  | handler p k => exact .pop hs (by simp) (by simp) rfl hstill
  | _ => exact hframe.elim

end

/-! ### The workflows -/

theorem state_of_wf (hwf : s'.wf = s.wf) : s'.state = s.state :=
  funext fun x => congrArg WorkflowNode.state (congrFun hwf x)

theorem same_paused (hwf : s'.wf = s.wf) (y : ω) : s'.state y = .paused ↔ s.state y = .paused := by rw [state_of_wf hwf]

theorem not_paused_of_continued {n : WorkflowNode} (hn : n.state = .running ∨ n.state.isCompleted) : n.state ≠ .paused := by
  intro hpaused
  rw [hpaused] at hn
  obtain hn | hn := hn <;> cases hn

theorem Trail.congr (h : Trail tree w s) (hcall : SameCall s s') (hwf : s'.wf = s.wf) (hcontinued : s'.continued = s.continued) :
    Trail tree w s' := by
  obtain ⟨hstored, hkept, hcont, honce, hwent, hreached⟩ := h
  have hstate := state_of_wf hwf
  have hbefore := hcall.2.1
  constructor
  · rwa [hbefore]
  · rwa [hbefore, hwf]
  · rwa [hbefore, hstate, hcontinued]
  · rwa [hcontinued]
  · rwa [hstate, hcontinued]
  · rwa [hstate]

section
variable [DecidableEq ω]

theorem state_of_update {n : WorkflowNode} (hwf : s'.wf = Function.update s.wf x n) :
    s'.state y = if y = x then n.state else s.state y := by
  unfold state
  rw [hwf, Function.update_apply]
  split <;> rfl

/-- The workflow that a command completes was not paused. -/
theorem Trail.same_paused_of_stop {n : WorkflowNode} (h : Trail tree w s) (hwf : s'.wf = Function.update s.wf x n)
    (hn : n.state.isCompleted) (hx : x ∈ s.continued) (y : ω) : s'.state y = .paused ↔ s.state y = .paused := by
  rw [state_of_update hwf]
  split
  next heq =>
    subst heq
    exact iff_of_false (not_paused_of_continued (.inr hn)) ((h.continued y).mp hx).2
  · exact .rfl

/-- A paused workflow without paused sub-workflows is continued. -/
theorem Trail.resume {cmds : List TreeCommand} (h : Trail tree w s) (hcall : SameCall s s') (hcont : Continues s s' x stack cmds)
    (hx : s.state x = .paused) (hsubs : ∀ c, tree.parent c = some x → s.state c ≠ .paused) : Trail tree w s' := by
  obtain ⟨n, hwf, hn⟩ := hcont.wf
  have hstate : ∀ y, s'.state y = if y = x then n.state else s.state y := fun y => state_of_update hwf
  have hbefore := hcall.2.1
  have hnot : n.state ≠ .paused := not_paused_of_continued hn
  have hnew : x ∉ s.continued := fun hmem => ((h.continued x).mp hmem).2 hx
  have hxbefore : (s.before x).state = .paused := by
    by_contra hne
    exact hne ((congrArg WorkflowNode.state (h.kept x hne)).symm.trans hx)
  constructor
  · rw [hbefore]
    exact h.stored
  · rw [hbefore, hwf]
    intro y hy
    have hne : y ≠ x := fun heq => hy (heq ▸ hxbefore)
    rw [Function.update_of_ne hne]
    exact h.kept y hy
  · rw [hbefore, hcont.continued]
    intro y
    rw [List.mem_cons, hstate]
    split
    next heq => exact ⟨fun _ => ⟨heq ▸ hxbefore, hnot⟩, fun _ => .inl heq⟩
    next hne => exact (or_iff_right hne).trans (h.continued y)
  · rw [hcont.continued]
    exact List.nodup_cons.mpr ⟨hnew, h.once⟩
  · rw [hcont.continued]
    intro y hy
    rw [hstate]
    split
    · exact hn
    next hne => exact h.went y ((List.mem_cons.mp hy).resolve_left hne)
  · intro y p hp hparent hy
    rw [hstate] at hy ⊢
    split at hy
    · exact absurd hy hnot
    · split
      next heq => exact absurd hy (hsubs y (heq ▸ hparent))
      · exact h.reached y p hp hparent hy

/-- A command completes a workflow that has been continued. -/
theorem Trail.stop {n : WorkflowNode} (h : Trail tree w s) (hcall : SameCall s s') (hwf : s'.wf = Function.update s.wf x n)
    (hn : n.state.isCompleted) (hcontinued : s'.continued = s.continued) (hx : x ∈ s.continued) : Trail tree w s' := by
  have hstate : ∀ y, s'.state y = if y = x then n.state else s.state y := fun y => state_of_update hwf
  have hbefore := hcall.2.1
  obtain ⟨hxbefore, hxnot⟩ := (h.continued x).mp hx
  have hnot : n.state ≠ .paused := not_paused_of_continued (.inr hn)
  constructor
  · rw [hbefore]
    exact h.stored
  · rw [hbefore, hwf]
    intro y hy
    have hne : y ≠ x := fun heq => hy (heq ▸ hxbefore)
    rw [Function.update_of_ne hne]
    exact h.kept y hy
  · rw [hbefore, hcontinued]
    intro y
    rw [hstate]
    split
    next heq => exact ⟨fun _ => ⟨heq ▸ hxbefore, hnot⟩, fun _ => heq ▸ hx⟩
    · exact h.continued y
  · rw [hcontinued]
    exact h.once
  · rw [hcontinued]
    intro y hy
    rw [hstate]
    split
    · exact .inr hn
    · exact h.went y hy
  · intro y p hp hparent hy
    rw [hstate] at hy ⊢
    split at hy
    · exact absurd hy hnot
    · split
      next heq => exact absurd (h.reached y p hp hparent hy) (heq ▸ hxnot)
      · exact h.reached y p hp hparent hy

/-- Every statement keeps the trail. -/
theorem Trail.step (h : Trail tree w s) (hcalls : Calls tree w s) (hcall : SameCall s s') (htick : ResumeTick tree s s') :
    Trail tree w s' := by
  cases htick with
  | loopEnd _ _ hstill | skip _ _ _ hstill | enter _ _ _ hstill | pop _ _ _ _ hstill =>
    exact h.congr hcall hstill.1 hstill.2.2.1
  | resume hs hcont =>
    obtain ⟨hx, hsubs⟩ := hcalls.frames _ (hs ▸ List.mem_cons_self)
    exact h.resume hcall hcont hx hsubs
  | @stop x e cmds stack hs _ hwf _ hcontinued _ =>
    obtain ⟨n, hwf, hn⟩ := hwf
    have hx : s.ResumingFrame tree (.commands x (.next (.stop e) :: cmds)) := hcalls.frames _ (hs ▸ List.mem_cons_self)
    exact h.stop hcall hwf hn hcontinued hx
  | runTask _ _ hwf _ hcontinued _ | runExistingTask _ _ hwf _ hcontinued _ | update _ _ _ hwf _ hcontinued _
  | up _ _ _ hwf _ hcontinued _ => exact h.congr hcall hwf hcontinued

/-! ### The calls -/

theorem raised_tick (h : Calls tree w s) (hcall : s.call = .resume w) (hguard : s.Undisturbed tree o)
    (hs : s.stack = f :: stack) : (s.tick tree o).raised = false := by
  have hframe := h.frames f (hs ▸ List.mem_cons_self)
  rw [tick_of_not_raised hs h.raised]
  cases f with
  | resumeSubs x todo =>
    cases todo with simp only [execute]
    | nil => exact h.raised
    | cons c todo => split <;> exact h.raised
  | resume x =>
    have hpaused : s.state x = .paused := hframe.1
    simp only [execute]
    rw [if_pos]
    · rw [Undisturbed, hcall, hs] at hguard
      obtain ⟨cmds, hcmds⟩ := continues (o := o) (x := x) (s := { s with stack }) rfl hguard
      exact hcmds.raised.trans h.raised
    · show (s.state x).isValidTransition .running
      rw [hpaused]
      rfl
  | commands x cmds =>
    cases cmds with simp only [execute]
    | nil => exact h.raised
    | cons c cmds =>
      split
      · exact h.raised
      next hopen =>
        split
        · exact h.raised
        · cases c with
          | runExistingTask k => exact h.raised
          | next c =>
            cases c with
            | fails =>
              rw [Undisturbed, hcall, hs] at hguard
              exact absurd hguard hopen
            | _ => exact h.raised
  | update x =>
    simp only [execute]
    split
    · exact h.raised
    split
    · exact h.raised
    split <;> exact h.raised
  | handler p k => exact h.raised
  | _ => exact hframe.elim

end

/-- A workflow below a loop is not the workflow of the loop, and so on: the loop for `x` is innermost, so its paused
    sub-workflows are still to be resumed. -/
theorem Calls.mem_todo {todo : List ω} (h : Calls tree w s) (hs : s.stack = .resumeSubs x todo :: stack)
    (hparent : tree.parent c = some x) (hc : s.state c = .paused) : c ∈ todo := by
  have hnested := h.nested
  obtain hmem | ⟨f, hf, his⟩ := h.loops x todo (hs ▸ List.mem_cons_self) c hparent hc
  · exact hmem
  exfalso
  rw [hs] at hf hnested
  obtain rfl | hf := List.mem_cons.mp hf
  · obtain heq | ⟨todo', heq⟩ := his <;> cases heq
    exact (WorkflowTree.below_of_parent hparent).ne rfl
  · obtain ⟨hresume, hinside⟩ := List.rel_of_pairwise_cons hnested hf
    obtain rfl | ⟨todo', rfl⟩ := his
    · exact hresume c rfl
    · have hbelow := hinside x c todo' rfl rfl
      exact absurd (hbelow.under.antisymm (WorkflowTree.below_of_parent hparent).under) hbelow.ne

theorem ResumingFrame.mono (h : s.ResumingFrame tree f) (hpaused : ∀ y, s'.state y = .paused → s.state y = .paused)
    (hkeeps : ∀ y, IsResume y f → s.state y = .paused → s'.state y = .paused)
    (hcontinued : ∀ y ∈ s.continued, y ∈ s'.continued) : s'.ResumingFrame tree f := by
  cases f with
  | resumeSubs x todo => exact ⟨hkeeps x (.inr ⟨todo, rfl⟩) h.1, h.2⟩
  | resume x => exact ⟨hkeeps x (.inl rfl) h.1, fun c hparent hc => h.2 c hparent (hpaused c hc)⟩
  | commands x cmds => exact hcontinued x h
  | update x => exact hcontinued x h
  | _ => exact h

/-- A statement that pauses nothing. -/
theorem Calls.next {l l' : List (Frame ω)} (h : Calls tree w s) (hraised : s'.raised = false)
    (hpaused : ∀ y, s'.state y = .paused → s.state y = .paused)
    (hkeeps : ∀ f ∈ l', ∀ y, IsResume y f → s.state y = .paused → s'.state y = .paused)
    (hcontinued : ∀ y ∈ s.continued, y ∈ s'.continued) (hs : s.stack = l) (hs' : s'.stack = l')
    (hframes : ∀ f ∈ l', s.ResumingFrame tree f ∨ s'.ResumingFrame tree f) (hnested : l'.Pairwise (Inside tree))
    (hloops : ∀ x todo, .resumeSubs x todo ∈ l' → ∀ c, tree.parent c = some x → s'.state c = .paused →
      c ∈ todo ∨ ∃ f ∈ l', IsResume c f)
    (hstarted : s'.state w = .paused → (∃ f ∈ l, IsResume w f) → ∃ f ∈ l', IsResume w f) : Calls tree w s' := by
  subst hs hs'
  refine ⟨hraised, fun f hf => ?_, hnested, hloops, fun hw => hstarted hw (h.started (hpaused w hw))⟩
  obtain hframe | hframe := hframes f hf
  · exact hframe.mono hpaused (hkeeps f hf) hcontinued
  · exact hframe

theorem resume_head (h : IsResume c f → IsResume c g) : (∃ e ∈ f :: stack, IsResume c e) → ∃ e ∈ g :: stack, IsResume c e := by
  rintro ⟨e, he, his⟩
  obtain rfl | he := List.mem_cons.mp he
  · exact ⟨g, List.mem_cons_self, h his⟩
  · exact ⟨e, List.mem_cons_of_mem _ he, his⟩

theorem resume_tail (h : ¬IsResume c f) : (∃ e ∈ f :: stack, IsResume c e) → ∃ e ∈ stack, IsResume c e := by
  rintro ⟨e, he, his⟩
  obtain rfl | he := List.mem_cons.mp he
  · exact absurd his h
  · exact ⟨e, he, his⟩

/-- The innermost call is replaced by another one for the same workflow. -/
theorem Inside.replace (h : Inside tree f g) {f' : Frame ω} (hf : ∀ x, Frame.about f' = some x → Frame.about f = some x) :
    Inside tree f' g := ⟨h.1, fun x y todo hx => h.2 x y todo (hf x hx)⟩

/-- A statement that replaces the innermost call. -/
theorem Calls.replace (h : Calls tree w s) (hraised : s'.raised = false)
    (hpaused : ∀ y, s'.state y = .paused ↔ s.state y = .paused) (hcontinued : s'.continued = s.continued) (hs : s.stack = f :: stack) (hs' : s'.stack = g :: stack)
    (hframe : s.ResumingFrame tree g) (habout : ∀ x, Frame.about g = some x → Frame.about f = some x)
    (hresume : ∀ c, IsResume c f → s.state c = .paused → IsResume c g)
    (hloop : ∀ x todo, g = .resumeSubs x todo → ∀ c, tree.parent c = some x → s.state c = .paused → c ∈ todo) :
    Calls tree w s' := by
  have hframes := h.frames
  have hnested := h.nested
  have hloops := h.loops
  rw [hs] at hframes hnested hloops
  refine h.next hraised (fun y => (hpaused y).mp) (fun f _ y _ => (hpaused y).mpr) (fun y hy => by rwa [hcontinued]) hs hs'
    ?_ ?_ ?_ ?_
  · exact List.forall_mem_cons.mpr ⟨.inl hframe, fun f hf => .inl (hframes f (List.mem_cons_of_mem _ hf))⟩
  · obtain ⟨hhead, htail⟩ := List.pairwise_cons.mp hnested
    exact List.pairwise_cons.mpr ⟨fun e he => (hhead e he).replace habout, htail⟩
  · intro x todo hmem c hparent hc
    have hc := (hpaused c).mp hc
    obtain heq | hmem := List.mem_cons.mp hmem
    · exact .inl (hloop x todo heq.symm c hparent hc)
    · obtain htodo | hactive := hloops x todo (List.mem_cons_of_mem _ hmem) c hparent hc
      · exact .inl htodo
      · exact .inr (resume_head (fun his => hresume c his hc) hactive)
  · exact fun hw => resume_head fun his => hresume w his ((hpaused w).mp hw)

/-- The innermost call returns. -/
theorem Calls.pop (h : Calls tree w s) (hraised : s'.raised = false) (hstill : s'.state = s.state)
    (hcontinued : s'.continued = s.continued) (hs : s.stack = f :: stack) (hs' : s'.stack = stack)
    (hresume : ∀ c, ¬IsResume c f) : Calls tree w s' := by
  have hframes := h.frames
  have hnested := h.nested
  have hloops := h.loops
  rw [hs] at hframes hnested hloops
  refine h.next hraised (fun y hy => by rwa [hstill] at hy) (fun f _ y _ hy => by rwa [hstill])
    (fun y hy => by rwa [hcontinued]) hs hs' ?_ (List.pairwise_cons.mp hnested).2 ?_ ?_
  · exact fun f hf => .inl (hframes f (List.mem_cons_of_mem _ hf))
  · rw [hstill]
    intro x todo hmem c hparent hc
    obtain htodo | hactive := hloops x todo (List.mem_cons_of_mem _ hmem) c hparent hc
    · exact .inl htodo
    · exact .inr (resume_tail (hresume c) hactive)
  · exact fun _ => resume_tail (hresume w)

/-- The loop of a handler calls `resume_workflow` for a paused sub-workflow. -/
theorem Calls.enter {todo : List ω} (h : Calls tree w s) (hraised : s'.raised = false) (hstill : s'.state = s.state)
    (hcontinued : s'.continued = s.continued) (hs : s.stack = .resumeSubs x (c :: todo) :: stack)
    (hs' : s'.stack = .resumeSubs c (tree.subs c) :: .resumeSubs x todo :: stack) (hc : s.state c = .paused) :
    Calls tree w s' := by
  have hframes := h.frames
  have hnested := h.nested
  have hloops := h.loops
  have htodo := fun d => h.mem_todo (c := d) hs
  rw [hs] at hframes hnested hloops
  obtain ⟨hhead, htail⟩ := List.forall_mem_cons.mp hframes
  have hparent : tree.parent c = some x := hhead.2 c List.mem_cons_self
  have hactive : ∀ d, (∃ f ∈ Frame.resumeSubs x (c :: todo) :: stack, IsResume d f) →
      ∃ f ∈ Frame.resumeSubs c (tree.subs c) :: Frame.resumeSubs x todo :: stack, IsResume d f := fun d hd => by
    have hkept : IsResume d (.resumeSubs x (c :: todo)) → IsResume d (.resumeSubs x todo) := by
      rintro (heq | ⟨todo', heq⟩) <;> cases heq
      exact .inr ⟨_, rfl⟩
    obtain ⟨f, hf, his⟩ := resume_head hkept hd
    exact ⟨f, List.mem_cons_of_mem _ hf, his⟩
  refine h.next hraised (fun y hy => by rwa [hstill] at hy) (fun f _ y _ hy => by rwa [hstill])
    (fun y hy => by rwa [hcontinued]) hs hs' ?_ ?_ ?_ ?_
  · refine List.forall_mem_cons.mpr ⟨.inl ⟨hc, fun d hd => tree.mem_subs.mp hd⟩, List.forall_mem_cons.mpr ⟨.inl ?_, ?_⟩⟩
    · exact ⟨hhead.1, fun d hd => hhead.2 d (List.mem_cons_of_mem _ hd)⟩
    · exact fun f hf => .inl (htail f hf)
  · obtain ⟨hpair, hrest⟩ := List.pairwise_cons.mp hnested
    have hsame : ∀ g ∈ stack, Inside tree (.resumeSubs x todo) g := fun g hg => (hpair g hg).replace fun _ hx => hx
    refine List.pairwise_cons.mpr ⟨List.forall_mem_cons.mpr ⟨⟨nofun, ?_⟩, fun g hg => ⟨(hpair g hg).1, ?_⟩⟩,
      List.pairwise_cons.mpr ⟨hsame, hrest⟩⟩
    · intro x' y todo' hx' hy
      cases hx'
      cases hy
      exact WorkflowTree.below_of_parent hparent
    · intro x' y todo' hx' hy
      cases hx'
      exact ((hpair g hg).2 x y todo' rfl hy).under.trans_below hparent
  · rw [hstill]
    intro y todo' hmem d hd hdpaused
    obtain heq | hmem := List.mem_cons.mp hmem
    · cases heq
      exact .inl (tree.mem_subs.mpr hd)
    obtain heq | hmem := List.mem_cons.mp hmem
    · cases heq
      obtain rfl | hd := List.mem_cons.mp (htodo d hd hdpaused)
      · exact .inr ⟨_, List.mem_cons_self, .inr ⟨_, rfl⟩⟩
      · exact .inl hd
    · obtain hd | hd := hloops y todo' (List.mem_cons_of_mem _ hmem) d hd hdpaused
      · exact .inl hd
      · exact .inr (hactive d hd)
  · exact fun _ => hactive w

section
variable [DecidableEq ω]

omit [DecidableEq ω] in
/-- An update goes on to resume the parent, whose sub-workflows are not being resumed. -/
theorem Calls.up {k : Nat} (h : Calls tree w s) (hraised : s'.raised = false) (hstill : s'.state = s.state)
    (hcontinued : s'.continued = s.continued) (hs : s.stack = .update x :: stack)
    (hs' : s'.stack = .resumeSubs p (tree.subs p) :: .handler p k :: stack) (hparent : tree.parent x = some p)
    (hp : s.state p = .paused) (hfree : ∀ todo, Frame.resumeSubs p todo ∉ stack) : Calls tree w s' := by
  have hframes := h.frames
  have hnested := h.nested
  have hloops := h.loops
  rw [hs] at hframes hnested hloops
  have hactive : ∀ d, (∃ f ∈ Frame.update x :: stack, IsResume d f) →
      ∃ f ∈ Frame.resumeSubs p (tree.subs p) :: Frame.handler p k :: stack, IsResume d f := fun d hd => by
    obtain ⟨f, hf, his⟩ := resume_tail (by simp [IsResume]) hd
    exact ⟨f, List.mem_cons_of_mem _ (List.mem_cons_of_mem _ hf), his⟩
  refine h.next hraised (fun y hy => by rwa [hstill] at hy) (fun f _ y _ hy => by rwa [hstill])
    (fun y hy => by rwa [hcontinued]) hs hs' ?_ ?_ ?_ ?_
  · refine List.forall_mem_cons.mpr ⟨.inl ⟨hp, fun d hd => tree.mem_subs.mp hd⟩,
      List.forall_mem_cons.mpr ⟨.inl trivial, fun f hf => .inl (hframes f (List.mem_cons_of_mem _ hf))⟩⟩
  · obtain ⟨hpair, hrest⟩ := List.pairwise_cons.mp hnested
    refine List.pairwise_cons.mpr ⟨List.forall_mem_cons.mpr ⟨⟨nofun, nofun⟩, fun g hg => ⟨(hpair g hg).1, ?_⟩⟩,
      List.pairwise_cons.mpr ⟨fun g hg => ⟨(hpair g hg).1, nofun⟩, hrest⟩⟩
    intro x' y todo hx' hy
    cases hx'
    obtain ⟨q, hq, hy'⟩ := (hpair g hg).2 x y todo rfl hy
    rw [hparent] at hq
    cases hq
    refine hy'.strict fun heq => ?_
    subst heq hy
    exact hfree todo hg
  · rw [hstill]
    intro y todo hmem d hd hdpaused
    obtain heq | hmem := List.mem_cons.mp hmem
    · cases heq
      exact .inl (tree.mem_subs.mpr hd)
    have hmem : Frame.resumeSubs y todo ∈ stack := (List.mem_cons.mp hmem).resolve_left nofun
    obtain hd | hd := hloops y todo (List.mem_cons_of_mem _ hmem) d hd hdpaused
    · exact .inl hd
    · exact .inr (hactive d hd)
  · exact fun _ => hactive w

/-- A workflow is continued, and is not paused any more. -/
theorem Calls.resume {cmds : List TreeCommand} (h : Calls tree w s) (hraised : s'.raised = false)
    (hcont : Continues s s' x stack cmds) (hs : s.stack = .resume x :: stack) : Calls tree w s' := by
  have hframes := h.frames
  have hnested := h.nested
  have hloops := h.loops
  rw [hs] at hframes hnested hloops
  obtain ⟨n, hwf, hn⟩ := hcont.wf
  have hstate : ∀ y, s'.state y = if y = x then n.state else s.state y := fun y => state_of_update hwf
  have hnot : n.state ≠ .paused := not_paused_of_continued hn
  have hx : x ∈ s'.continued := hcont.continued ▸ List.mem_cons_self
  obtain ⟨hpair, hrest⟩ := List.pairwise_cons.mp hnested
  have hother : ∀ f ∈ stack, ∀ y, IsResume y f → y ≠ x := by
    rintro f hf y (rfl | ⟨todo, rfl⟩)
    · exact absurd rfl ((hpair _ hf).1 y)
    · exact ((hpair _ hf).2 x y todo rfl rfl).ne.symm
  have hactive : ∀ d, s'.state d = .paused → (∃ f ∈ Frame.resume x :: stack, IsResume d f) → ∃ f ∈ stack, IsResume d f :=
    fun d hd => resume_tail fun his => by
      obtain heq | ⟨todo, heq⟩ := his <;> cases heq
      rw [hstate, if_pos rfl] at hd
      exact hnot hd
  have hpaused : ∀ y, s'.state y = .paused → s.state y = .paused := fun y hy => by
    rw [hstate] at hy
    split at hy
    · exact absurd hy hnot
    · exact hy
  have hkeeps : ∀ f ∈ stack, ∀ y, IsResume y f → s.state y = .paused → s'.state y = .paused := fun f hf y his hy => by
    rw [hstate, if_neg (hother f hf y his)]
    exact hy
  have hcontinued : ∀ y ∈ s.continued, y ∈ s'.continued := fun y hy => hcont.continued ▸ List.mem_cons_of_mem _ hy
  -- The stack has the update of `x` now, and perhaps its commands.
  have hall : ∀ new : List (Frame ω), s'.stack = new ++ stack → (∀ f ∈ new, s'.ResumingFrame tree f) →
      (new ++ stack).Pairwise (Inside tree) → (∀ f ∈ new, ∀ y, ¬IsResume y f) → Calls tree w s' := by
    intro new hs' hnew hpairwise hnone
    refine h.next hraised hpaused (fun f hf y his => ?_) hcontinued hs hs' (fun f hf => ?_) hpairwise ?_ fun hw hactive' => ?_
    · obtain hf | hf := List.mem_append.mp hf
      · exact absurd his (hnone f hf y)
      · exact hkeeps f hf y his
    · obtain hf | hf := List.mem_append.mp hf
      · exact .inr (hnew f hf)
      · exact .inl (hframes f (List.mem_cons_of_mem _ hf))
    · intro y todo hmem d hd hdpaused
      obtain hmem | hmem := List.mem_append.mp hmem
      · exact absurd (.inr ⟨todo, rfl⟩) (hnone _ hmem y)
      · obtain hd' | hd' := hloops y todo (List.mem_cons_of_mem _ hmem) d hd (hpaused d hdpaused)
        · exact .inl hd'
        · obtain ⟨f, hf, his⟩ := hactive d hdpaused hd'
          exact .inr ⟨f, List.mem_append_right _ hf, his⟩
    · obtain ⟨f, hf, his⟩ := hactive w hw hactive'
      exact ⟨f, List.mem_append_right _ hf, his⟩
  have hinside : ∀ f : Frame ω, Frame.about f = some x → ∀ g ∈ stack, Inside tree f g := fun f hf g hg =>
    (hpair g hg).replace fun y hy => by
      rw [hf] at hy
      exact hy
  obtain hs' | hs' := hcont.stack
  · refine hall [.commands x cmds, .update x] hs' ?_ ?_ ?_
    · exact List.forall_mem_cons.mpr ⟨hx, List.forall_mem_cons.mpr ⟨hx, nofun⟩⟩
    · refine List.pairwise_cons.mpr ⟨List.forall_mem_cons.mpr ⟨⟨nofun, nofun⟩, hinside _ rfl⟩,
        List.pairwise_cons.mpr ⟨hinside _ rfl, hrest⟩⟩
    · simp [IsResume]
  · refine hall [.update x] hs' ?_ ?_ ?_
    · exact List.forall_mem_cons.mpr ⟨hx, nofun⟩
    · exact List.pairwise_cons.mpr ⟨hinside _ rfl, hrest⟩
    · simp [IsResume]

/-- Every statement keeps what holds of the calls. -/
theorem Calls.step (h : Calls tree w s) (htrail : Trail tree w s) (hcall : s.call = .resume w) (hguard : s.Undisturbed tree o)
    (hraised : s'.raised = false) (htick : ResumeTick tree s s') : Calls tree w s' := by
  cases htick with
  | @loopEnd x stack hs hs' hstill =>
    have hx : s.ResumingFrame tree (.resumeSubs x []) := h.frames _ (hs ▸ List.mem_cons_self)
    refine h.replace hraised (same_paused hstill.1) hstill.2.2.1 hs hs' ⟨hx.1, fun c hparent hc => ?_⟩ (fun _ hx => hx)
      ?_ nofun
    · cases h.mem_todo hs hparent hc
    · rintro c (heq | ⟨todo, heq⟩) - <;> cases heq
      exact .inl rfl
  | @skip x c todo stack hs hc hs' hstill =>
    have hx : s.ResumingFrame tree (.resumeSubs x (c :: todo)) := h.frames _ (hs ▸ List.mem_cons_self)
    refine h.replace hraised (same_paused hstill.1) hstill.2.2.1 hs hs'
      ⟨hx.1, fun d hd => hx.2 d (List.mem_cons_of_mem _ hd)⟩ (fun _ hx => hx) ?_ ?_
    · rintro d (heq | ⟨todo, heq⟩) - <;> cases heq
      exact .inr ⟨_, rfl⟩
    · rintro y todo' heq d hparent hd
      cases heq
      obtain rfl | hd := List.mem_cons.mp (h.mem_todo hs hparent hd)
      · exact absurd ‹_› hc
      · exact hd
  | enter hs hc hs' hstill => exact h.enter hraised (state_of_wf hstill.1) hstill.2.2.1 hs hs' hc
  | resume hs hcont => exact h.resume hraised hcont hs
  | pop hs hf hf' hs' hstill =>
    refine h.pop hraised (state_of_wf hstill.1) hstill.2.2.1 hs hs' ?_
    rintro c (heq | ⟨todo, heq⟩)
    · exact hf c heq
    · exact hf' c todo heq
  | @runTask x waiting cmds stack hs hs' hwf _ hcontinued _ =>
    have hx : s.ResumingFrame tree (.commands x (.next (.runTask waiting) :: cmds)) := h.frames _ (hs ▸ List.mem_cons_self)
    exact h.replace hraised (same_paused hwf) hcontinued hs hs' hx (fun _ hx => hx) (by simp [IsResume]) nofun
  | @runExistingTask x k cmds stack hs hs' hwf _ hcontinued _ =>
    have hx : s.ResumingFrame tree (.commands x (.runExistingTask k :: cmds)) := h.frames _ (hs ▸ List.mem_cons_self)
    exact h.replace hraised (same_paused hwf) hcontinued hs hs' hx (fun _ hx => hx) (by simp [IsResume]) nofun
  | @stop x e cmds stack hs hs' hwf _ hcontinued _ =>
    have hx : s.ResumingFrame tree (.commands x (.next (.stop e) :: cmds)) := h.frames _ (hs ▸ List.mem_cons_self)
    obtain ⟨n, hwf, hn⟩ := hwf
    exact h.replace hraised (htrail.same_paused_of_stop hwf hn hx) hcontinued hs hs' hx (fun _ hx => hx)
      (by simp [IsResume]) nofun
  | update hs _ hs' hwf _ hcontinued _ =>
    exact h.pop hraised (state_of_wf hwf) hcontinued hs hs' (by simp [IsResume])
  | @up x p stack hs hp hs' hwf _ hcontinued _ =>
    refine h.up hraised (state_of_wf hwf) hcontinued hs hs' hp.1 (htrail.state_of_isPausedOrIdle hp.2.2.2) ?_
    rw [Undisturbed, hcall, hs] at hguard
    exact hguard p hp

end
end TreeRun
end Mistral
