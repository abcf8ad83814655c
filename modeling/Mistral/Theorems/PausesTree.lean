import Mathlib.Data.Fintype.Card
import Mathlib.Tactic.Linarith
import Mistral.Engine.WorkflowTrees
import Mistral.Lib.Progress

/-! What a request to pause or to resume a workflow of a tree has to do, and that a request to pause does it where it comes
    to every running workflow. -/

namespace Mistral
namespace WorkflowTree
variable {ω : Type} (tree : WorkflowTree ω)

/-- `x` is `w` or a descendant of it. -/
inductive Under (w : ω) : ω → Prop
  | refl : Under w w
  | sub {x p : ω} (h : Under w p) (hparent : tree.parent x = some p) : Under w x

/-- The workflows that a request to pause `w` comes to: it goes down to the incomplete sub-workflows of a workflow, and up
    from a running one. -/
inductive Comes (wf : ω → WorkflowNode) (w : ω) : ω → Prop
  | start : Comes wf w w
  | sub {x c : ω} (h : Comes wf w x) (hparent : tree.parent c = some x) (hc : (wf c).state.isCompleted = false) : Comes wf w c
  | parent {x p : ω} (h : Comes wf w x) (hx : (wf x).state = .running) (hparent : tree.parent x = some p) : Comes wf w p

end WorkflowTree

namespace TreeRun
variable {ω : Type} {tree : WorkflowTree ω} {o : TreeOracle ω} {s : TreeRun ω}

section
variable [DecidableEq ω]

/-- The update of `x` goes on to resume the workflow `p`. -/
def ResumesParent (tree : WorkflowTree ω) (s : TreeRun ω) (x p : ω) : Prop :=
  tree.parent x = some p ∧ (s.state x).isRunning ∧ (s.updateTask tree x).anyPaused p = false ∧ (s.state p).isPausedOrIdle

/-- A request to pause comes to every running workflow of the tree, and a request to resume finds a paused parent of
    every paused workflow below. -/
def Fits (tree : WorkflowTree ω) (s : TreeRun ω) : Prop :=
  match s.call with
  | .pause w => ∀ x, (s.before x).state = .running → tree.Comes s.before w x
  | .resume w =>
    ∀ x p, tree.Under w p → tree.parent x = some p → (s.before x).state = .paused → (s.before p).state = .paused

/-- The on-clauses of the tasks that go on in `x` can be evaluated, and so can the output of `x` if its tasks are all
    completed. -/
def Evaluates (o : TreeOracle ω) (s : TreeRun ω) (x : ω) : Prop :=
  (s.continueCommands o x).isSome ∧
    (((s.processTasks x).tasks.filter (·.wf = x)).all (·.state.isCompleted) →
      (o.final ((s.processTasks x).tasks.filter (·.wf = x))).isSome)

/-- In a request to resume, no update from below resumes a workflow whose sub-workflows are being resumed, no command
    of a backlog pauses a workflow again, and no expression and no command raises an error. -/
def Undisturbed (tree : WorkflowTree ω) (o : TreeOracle ω) (s : TreeRun ω) : Prop :=
  match s.call, s.stack with
  | .resume _, .update x :: stack => ∀ p, ResumesParent tree s x p → ∀ todo, Frame.resumeSubs p todo ∉ stack
  | .resume _, .resume x :: _ => s.Evaluates o x
  | .resume _, .commands x (.next .pause :: _) :: _ => (s.state x).isCompleted
  | .resume _, .commands x (.next .fails :: _) :: _ => (s.state x).isCompleted
  | _, _ => True

def Straight (tree : WorkflowTree ω) (o : TreeOracle ω) (s : TreeRun ω) (_ : Unit) : Prop :=
  s.Fits tree ∧ s.Undisturbed tree o

/-- Every workflow that is not completed is paused, and the others are as before. -/
structure Paused (s : TreeRun ω) : Prop where
  returns : s.raised = false
  paused : ∀ x, (s.state x).isCompleted = false → s.state x = .paused
  completed : ∀ x, (s.before x).state.isCompleted → s.wf x = s.before x

/-- `w` and its descendants are not paused any more. Ancestors are resumed only if no task was paused but the one towards
    `w`. The continuation has run once for each workflow that is resumed, and no task has got two requests to start. -/
structure Resumed (tree : WorkflowTree ω) (w : ω) (s : TreeRun ω) : Prop where
  returns : s.raised = false
  resumed : ∀ x, tree.Under w x → s.state x ≠ .paused
  ancestors : ∀ x p, tree.Under x w → tree.parent x = some p → (s.before p).state = .paused → s.state p ≠ .paused →
    ∀ k e, s.tasksBefore[k]? = some e → e.wf = p → k ≠ tree.task x → e.state ≠ .paused
  once : s.continued.Nodup
  continued : ∀ x, x ∈ s.continued ↔ (s.before x).state = .paused ∧ s.state x ≠ .paused
  starts : s.starts.Nodup
  completed : ∀ x, (s.before x).state.isCompleted → s.wf x = s.before x

/-- The request has done what it has to do. -/
def Done (tree : WorkflowTree ω) (s : TreeRun ω) : Prop :=
  match s.call with
  | .pause _ => s.Paused
  | .resume w => s.Resumed tree w

/-- Every request ends, and has done what it has to do then. -/
def PausesAndResumes (tree : WorkflowTree ω) (o : TreeOracle ω) (guard : TreeRun ω → Unit → Prop) : Prop :=
  ∀ s, (treeSystem tree o).Reach guard s →
    (∃ n, (∀ k, k < n → guard ((tick tree o)^[k] s) ()) → ((tick tree o)^[n] s).stack = []) ∧
    (s.stack = [] → s.Done tree)

end
end TreeRun

/-! ### The measure -/

namespace WorkflowTree
variable {ω : Type} (tree : WorkflowTree ω)

/-- The statements of a loop over the sub-workflows of `x`, and of the calls in it. -/
def callWeight (x : ω) : Nat := 3 + ((tree.subs x).attach.map fun ⟨c, _⟩ => 1 + callWeight c).sum

termination_by tree.height x

decreasing_by exact tree.height_lt (tree.mem_subs.mp ‹_›)

def loopWeight (todo : List ω) : Nat := 3 + (todo.map fun c => 1 + tree.callWeight c).sum

theorem callWeight_eq (x : ω) : tree.callWeight x = tree.loopWeight (tree.subs x) := by
  rw [callWeight, loopWeight, List.map_attach_eq_pmap, List.pmap_eq_map]

@[simp] theorem loopWeight_nil : tree.loopWeight [] = 3 := rfl

@[simp] theorem loopWeight_cons {c : ω} {todo : List ω} :
    tree.loopWeight (c :: todo) = tree.loopWeight todo + tree.callWeight c + 1 := by
  simp only [loopWeight, List.map_cons, List.sum_cons]
  omega

end WorkflowTree

/-- The statements of a frame, and of the calls in it. -/
def Frame.weight {ω : Type} (tree : WorkflowTree ω) : Frame ω → Nat
  | pauseSubs _ todo | resumeSubs _ todo => tree.loopWeight todo
  | pause _ | resume _ => 2
  | commands _ cmds => 1 + cmds.length
  | update x => 3 + (tree.parent x).elim 0 tree.callWeight
  | handler _ _ => 1

theorem Frame.weight_pos {ω : Type} {tree : WorkflowTree ω} (f : Frame ω) : 0 < f.weight tree := by
  cases f <;>
  · simp only [Frame.weight, WorkflowTree.loopWeight]
    omega

namespace TreeRun
variable {ω : Type} {tree : WorkflowTree ω} {o : TreeOracle ω} {s : TreeRun ω} {x y w p c : ω} {f : Frame ω}
  {stack : List (Frame ω)}

def weight (tree : WorkflowTree ω) (stack : List (Frame ω)) : Nat := (stack.map (Frame.weight tree)).sum

@[simp] theorem weight_cons : weight tree (f :: stack) = f.weight tree + weight tree stack := rfl

/-- The workflows in a state. -/
def count [Fintype ω] (s : TreeRun ω) (st : State) : Nat := (Finset.univ.filter fun x => s.state x = st).card

/-! ### Updates -/

/-- What the request has found does not change. -/
def SameCall (s s' : TreeRun ω) : Prop := s'.call = s.call ∧ s'.before = s.before ∧ s'.tasksBefore = s.tasksBefore

theorem SameCall.refl : SameCall s s := ⟨rfl, rfl, rfl⟩

section
variable [DecidableEq ω]

@[simp] theorem state_setWf {n : WorkflowNode} : (s.setWf x n).state y = if y = x then n.state else s.state y := by
  unfold state setWf
  simp only [Function.update_apply]
  split <;> rfl

theorem sameCall_resume : SameCall s (s.resume o x) := by
  simp only [resume]
  split
  · simp only [continueWorkflow, complete]
    split
    · split
      · split <;> exact ⟨rfl, rfl, rfl⟩
      · exact ⟨rfl, rfl, rfl⟩
    · exact ⟨rfl, rfl, rfl⟩
  · exact ⟨rfl, rfl, rfl⟩

theorem sameCall_execute : SameCall s (s.execute tree o f) := by
  cases f with
  | pauseSubs x todo | resumeSubs x todo =>
    cases todo with simp only [execute]
    | nil => exact ⟨rfl, rfl, rfl⟩
    | cons c todo => split <;> exact ⟨rfl, rfl, rfl⟩
  | pause x =>
    simp only [execute]
    split
    · exact .refl
    split <;> exact ⟨rfl, rfl, rfl⟩
  | resume x =>
    simp only [execute]
    split
    · exact sameCall_resume
    · exact ⟨rfl, rfl, rfl⟩
  | commands x cmds =>
    cases cmds with simp only [execute]
    | nil => exact .refl
    | cons c cmds =>
      split
      · exact .refl
      split
      · exact ⟨rfl, rfl, rfl⟩
      · rcases c with ⟨_ | _ | _ | _⟩ | _ <;> exact ⟨rfl, rfl, rfl⟩
  | update x =>
    simp only [execute]
    split
    · exact .refl
    split
    · exact ⟨rfl, rfl, rfl⟩
    split <;> exact ⟨rfl, rfl, rfl⟩
  | handler => exact .refl

theorem sameCall_tick : SameCall s (s.tick tree o) := by
  unfold tick
  split
  · exact .refl
  next f stack _ =>
    extract_lets s'
    have hs' : SameCall s s' := ⟨rfl, rfl, rfl⟩
    split
    · cases f with
      | handler p k =>
        simp only [unwind, forceFail]
        split <;> exact ⟨rfl, rfl, rfl⟩
      | _ => exact hs'
    · exact sameCall_execute (s := s')

theorem tick_of_raised (hs : s.stack = f :: stack) (hraised : s.raised) :
    s.tick tree o = { s with stack }.unwind f := by
  simp only [tick, hs, hraised, if_true]

theorem tick_of_not_raised (hs : s.stack = f :: stack) (hraised : s.raised = false) :
    s.tick tree o = { s with stack }.execute tree o f := by
  simp only [tick, hs, hraised, Bool.false_eq_true, if_false]

/-! ### Pausing -/

/-- The calls of a request to pause. An update comes when its workflow has been paused. -/
def PausingFrame (s : TreeRun ω) : Frame ω → Prop
  | .pauseSubs _ _ | .pause _ | .handler _ _ => True
  | .update x => s.state x = .paused
  | _ => False

/-- A call for a completed workflow comes from an update, whose handler is around it. -/
def Caught (before : ω → WorkflowNode) : List (Frame ω) → Prop
  | [] => True
  | .pauseSubs x _ :: stack | .pause x :: stack =>
    ((before x).state.isCompleted → ∃ k rest, stack = .handler x k :: rest) ∧ Caught before stack
  | _ :: stack => Caught before stack

/-- `pause_workflow` is going on for `x`. -/
def IsPause (x : ω) (f : Frame ω) : Prop := f = .pause x ∨ ∃ todo, f = .pauseSubs x todo

/-- `O` are the workflows that `pause_workflow` has been called for. -/
structure PauseOk (tree : WorkflowTree ω) (w : ω) (O : ω → Prop) (s : TreeRun ω) : Prop where
  stored : ∀ x, (s.before x).state.isStored
  kept : ∀ x, s.wf x = s.before x ∨ (s.before x).state = .running ∧ s.wf x = { s.before x with state := .paused }
  frames : ∀ f ∈ s.stack, s.PausingFrame f
  caught : Caught s.before s.stack
  raised : s.raised → ∃ p k stack, s.stack = .handler p k :: stack ∧ (s.before p).state.isCompleted
  begun : O w
  self : ∀ x, O x → (s.before x).state.isCompleted = false → s.state x = .paused ∨ ∃ f ∈ s.stack, IsPause x f
  subs : ∀ x c, O x → tree.parent c = some x → (s.before c).state.isCompleted = false →
    O c ∨ ∃ todo, c ∈ todo ∧ .pauseSubs x todo ∈ s.stack
  up : ∀ x p, tree.parent x = some p → (s.before x).state = .running → s.state x = .paused → O p ∨ .update x ∈ s.stack

/-- What a statement of a request to pause does. -/
inductive PauseTick (tree : WorkflowTree ω) (s s' : TreeRun ω) : Prop
  | handled {p : ω} {k : Nat} {stack : List (Frame ω)} (hs : s.stack = .handler p k :: stack) (hs' : s'.stack = stack)
    (hwf : s'.wf = s.wf) (hraised : s'.raised = false)
  | loopEnd {x : ω} {stack : List (Frame ω)} (hs : s.stack = .pauseSubs x [] :: stack) (hs' : s'.stack = .pause x :: stack)
    (hwf : s'.wf = s.wf) (hraised : s'.raised = false)
  | skip {x c : ω} {todo : List ω} {stack : List (Frame ω)} (hs : s.stack = .pauseSubs x (c :: todo) :: stack)
    (hc : (s.before c).state.isCompleted) (hs' : s'.stack = .pauseSubs x todo :: stack) (hwf : s'.wf = s.wf)
    (hraised : s'.raised = false)
  | enter {x c : ω} {todo : List ω} {stack : List (Frame ω)} (hs : s.stack = .pauseSubs x (c :: todo) :: stack)
    (hc : (s.before c).state.isCompleted = false)
    (hs' : s'.stack = .pauseSubs c (tree.subs c) :: .pauseSubs x todo :: stack) (hwf : s'.wf = s.wf)
    (hraised : s'.raised = false)
  | already {x : ω} {stack : List (Frame ω)} (hs : s.stack = .pause x :: stack) (hx : s.state x = .paused)
    (hs' : s'.stack = stack) (hwf : s'.wf = s.wf) (hraised : s'.raised = false)
  | pause {x : ω} {stack : List (Frame ω)} (hs : s.stack = .pause x :: stack) (hx : (s.before x).state = .running)
    (hrunning : s.state x = .running) (hs' : s'.stack = .update x :: stack)
    (hwf : s'.wf = Function.update s.wf x { s.before x with state := .paused }) (hraised : s'.raised = false)
  | raise {x : ω} {stack : List (Frame ω)} (hs : s.stack = .pause x :: stack) (hx : (s.before x).state.isCompleted)
    (hs' : s'.stack = stack) (hwf : s'.wf = s.wf) (hraised : s'.raised = true)
  | top {x : ω} {stack : List (Frame ω)} (hs : s.stack = .update x :: stack) (hx : tree.parent x = none)
    (hs' : s'.stack = stack) (hwf : s'.wf = s.wf) (hraised : s'.raised = false)
  | up {x p : ω} {stack : List (Frame ω)} (hs : s.stack = .update x :: stack) (hx : tree.parent x = some p)
    (hs' : s'.stack = .pauseSubs p (tree.subs p) :: .handler p (tree.task x) :: stack) (hwf : s'.wf = s.wf)
    (hraised : s'.raised = false)

end

namespace PauseOk
variable {O : ω → Prop}

theorem state_eq (h : PauseOk tree w O s) (x : ω) :
    s.state x = (s.before x).state ∨ (s.before x).state = .running ∧ s.state x = .paused := by
  obtain hx | ⟨hrunning, hx⟩ := h.kept x
  · exact .inl (congrArg WorkflowNode.state hx)
  · exact .inr ⟨hrunning, congrArg WorkflowNode.state hx⟩

/-- A workflow that is not paused is running, or was completed before. -/
theorem running_or_completed (h : PauseOk tree w O s) (hx : s.state x ≠ .paused) :
    (s.before x).state = .running ∧ s.wf x = s.before x ∨ (s.before x).state.isCompleted := by
  obtain hkept | ⟨-, hwf⟩ := h.kept x
  · have hstored := h.stored x
    have hstate : s.state x = (s.before x).state := congrArg WorkflowNode.state hkept
    rw [hstate] at hx
    simp only [State.isStored, Bool.or_eq_true, beq_iff_eq] at hstored
    obtain (hrunning | hpaused) | hcompleted := hstored
    · exact .inl ⟨hrunning, hkept⟩
    · exact absurd hpaused hx
    · exact .inr hcompleted
  · exact absurd (congrArg WorkflowNode.state hwf) hx

/-- A statement that changes neither workflows nor the workflows that are opened. -/
theorem same {s' : TreeRun ω} {l l' : List (Frame ω)} (h : PauseOk tree w O s) (hcall : SameCall s s')
    (hwf : s'.wf = s.wf) (hs : s.stack = l) (hs' : s'.stack = l') (hframes : ∀ f ∈ l', s.PausingFrame f)
    (hcaught : Caught s.before l')
    (hraised : s'.raised → ∃ p k stack, l' = .handler p k :: stack ∧ (s.before p).state.isCompleted)
    (hself : ∀ x, (s.before x).state.isCompleted = false → s.state x ≠ .paused → (∃ f ∈ l, IsPause x f) →
      ∃ f ∈ l', IsPause x f)
    (hsubs : ∀ x c, (s.before c).state.isCompleted = false → (∃ todo, c ∈ todo ∧ .pauseSubs x todo ∈ l) →
      ∃ todo, c ∈ todo ∧ .pauseSubs x todo ∈ l')
    (hup : ∀ x p, tree.parent x = some p → .update x ∈ l → .update x ∈ l') : PauseOk tree w O s' := by
  subst hs hs'
  have hstate : s'.state = s.state := funext fun x => congrArg WorkflowNode.state (congrFun hwf x)
  have hbefore : s'.before = s.before := hcall.2.1
  have hframe : ∀ f, s.PausingFrame f → s'.PausingFrame f := fun f hf => by
    cases f with
    | update x => exact (congrFun hstate x).trans hf
    | _ => exact hf
  constructor
  · rw [hbefore]
    exact h.stored
  · rw [hbefore, hwf]
    exact h.kept
  · exact fun f hf => hframe f (hframes f hf)
  · rw [hbefore]
    exact hcaught
  · rw [hbefore]
    exact hraised
  · exact h.begun
  · rw [hbefore, hstate]
    intro x hx hc
    by_cases hp : s.state x = .paused
    · exact .inl hp
    · exact .inr (hself x hc hp ((h.self x hx hc).resolve_left hp))
  · rw [hbefore]
    intro x c hx hparent hc
    obtain hO | hloop := h.subs x c hx hparent hc
    · exact .inl hO
    · exact .inr (hsubs x c hc hloop)
  · rw [hbefore, hstate]
    intro x p hparent hx hp
    obtain hO | hupdate := h.up x p hparent hx hp
    · exact .inl hO
    · exact .inr (hup x p hparent hupdate)

/-- `pause_workflow` is called for `y`. -/
theorem enter {s' : TreeRun ω} {l : List (Frame ω)} (h : PauseOk tree w O s) (hcall : SameCall s s')
    (hwf : s'.wf = s.wf) (hraised : s'.raised = false) (hs : s.stack = l)
    (hstack : s'.stack = .pauseSubs y (tree.subs y) :: stack) (hframes : ∀ f ∈ stack, s.PausingFrame f)
    (hcaught : Caught s.before (.pauseSubs y (tree.subs y) :: stack))
    (hself : ∀ x, (∃ f ∈ l, IsPause x f) → ∃ f ∈ stack, IsPause x f)
    (hsubs : ∀ x c, (∃ todo, c ∈ todo ∧ .pauseSubs x todo ∈ l) → c = y ∨ ∃ todo, c ∈ todo ∧ .pauseSubs x todo ∈ stack)
    (hup : ∀ x p, tree.parent x = some p → .update x ∈ l → p = y ∨ .update x ∈ stack) :
    PauseOk tree w (fun x => x = y ∨ O x) s' := by
  subst hs
  have hstate : s'.state = s.state := funext fun x => congrArg WorkflowNode.state (congrFun hwf x)
  have hbefore : s'.before = s.before := hcall.2.1
  constructor
  · rw [hbefore]
    exact h.stored
  · rw [hbefore, hwf]
    exact h.kept
  · intro f hf
    rw [hstack] at hf
    obtain rfl | hf := List.mem_cons.mp hf
    · trivial
    · have hf := hframes f hf
      cases f with
      | update x => exact (congrFun hstate x).trans hf
      | _ => exact hf
  · rw [hbefore, hstack]
    exact hcaught
  · intro h
    rw [hraised] at h
    cases h
  · exact .inr h.begun
  · rw [hbefore, hstate, hstack]
    rintro x (rfl | hx) hc
    · exact .inr ⟨_, List.mem_cons_self, .inr ⟨_, rfl⟩⟩
    · obtain hp | hf := h.self x hx hc
      · exact .inl hp
      · obtain ⟨f, hf, his⟩ := hself x hf
        exact .inr ⟨f, List.mem_cons_of_mem _ hf, his⟩
  · rw [hbefore, hstack]
    rintro x c (rfl | hx) hparent hc
    · exact .inr ⟨_, tree.mem_subs.mpr hparent, List.mem_cons_self⟩
    · obtain hO | hloop := h.subs x c hx hparent hc
      · exact .inl (.inr hO)
      · obtain rfl | ⟨todo, hmem, hloop⟩ := hsubs x c hloop
        · exact .inl (.inl rfl)
        · exact .inr ⟨todo, hmem, List.mem_cons_of_mem _ hloop⟩
  · rw [hbefore, hstate, hstack]
    intro x p hparent hx hp
    obtain hO | hupdate := h.up x p hparent hx hp
    · exact .inl (.inr hO)
    · obtain rfl | hupdate := hup x p hparent hupdate
      · exact .inl (.inl rfl)
      · exact .inr (List.mem_cons_of_mem _ hupdate)

theorem not_raised {s' : TreeRun ω} {P : Prop} (h : s'.raised = false) : s'.raised → P := fun h' => by
  rw [h] at h'
  cases h'

theorem tail_of_ne {g : Frame ω} (h : g ∈ f :: stack) (hne : g ≠ f) : g ∈ stack := (List.mem_cons.mp h).resolve_left hne

theorem comes (h : PauseOk tree w O s) (hstack : s.stack = []) (hx : tree.Comes s.before w x) : O x := by
  induction hx with
  | start => exact h.begun
  | @sub x c _ hparent hc ih =>
    obtain hO | ⟨todo, -, hloop⟩ := h.subs x c ih hparent hc
    · exact hO
    · rw [hstack] at hloop
      cases hloop
  | @parent x p _ hrunning hparent ih =>
    have hopen : (s.before x).state.isCompleted = false := by
      rw [hrunning]
      rfl
    obtain hp | ⟨f, hf, -⟩ := h.self x ih hopen
    · obtain hO | hupdate := h.up x p hparent hrunning hp
      · exact hO
      · rw [hstack] at hupdate
        cases hupdate
    · rw [hstack] at hf
      cases hf

theorem isCompleted_iff (h : PauseOk tree w O s) (x : ω) : (s.state x).isCompleted = (s.before x).state.isCompleted := by
  obtain hx | ⟨hrunning, hx⟩ := h.state_eq x
  · rw [hx]
  · rw [hrunning, hx]
    rfl

section
variable [DecidableEq ω]

theorem tick_cases (h : PauseOk tree w O s) (hstack : s.stack ≠ []) : PauseTick tree s (s.tick tree o) := by
  obtain ⟨f, stack, hs⟩ := List.exists_cons_of_ne_nil hstack
  have hframe := h.frames f (hs ▸ List.mem_cons_self)
  by_cases hraised : s.raised
  · obtain ⟨p, k, rest, hs', hcompleted⟩ := h.raised hraised
    rw [hs] at hs'
    cases hs'
    have hp : (s.state p).isPausedOrCompleted := by
      rw [State.isPausedOrCompleted, h.isCompleted_iff, hcompleted, Bool.or_true]
    have hfail : (forceFail { s with stack, raised := false } p k) =
        { s with stack, raised := false, tasks := s.tasks.modify k fun e => { e with state := .error } } := if_pos hp
    rw [tick_of_raised hs hraised]
    refine .handled hs ?_ ?_ ?_ <;> simp only [unwind, hfail]
  have hraised : s.raised = false := by simpa using hraised
  rw [tick_of_not_raised hs hraised]
  cases f with
  | pauseSubs x todo =>
    cases todo with simp only [execute]
    | nil => exact .loopEnd hs rfl rfl hraised
    | cons c todo =>
      split
      next hc => exact .skip hs ((h.isCompleted_iff c).symm.trans hc) rfl rfl hraised
      next hc => exact .enter hs ((h.isCompleted_iff c).symm.trans (eq_false_of_ne_true hc)) rfl rfl hraised
  | pause x =>
    simp only [execute]
    split
    next hx =>
      have hx : s.state x = .paused := eq_of_beq hx
      exact .already hs hx rfl rfl hraised
    next hx =>
      have hx : s.state x ≠ .paused := fun heq => hx (beq_iff_eq.mpr heq)
      obtain ⟨hrunning, hkept⟩ | hcompleted := h.running_or_completed hx
      · have hstate : s.state x = .running := (congrArg WorkflowNode.state hkept).trans hrunning
        rw [if_pos]
        · exact .pause hs hrunning hstate rfl (by rw [← hkept]; rfl) hraised
        · show (s.state x).isValidTransition .paused
          rw [hstate]
          rfl
      · rw [if_neg]
        · exact .raise hs hcompleted rfl rfl rfl
        · have hcompleted := (h.isCompleted_iff x).trans hcompleted
          show ¬(s.state x).isValidTransition .paused
          obtain hst | hst | hst | hst := State.isCompleted_iff.mp hcompleted <;> rw [hst] <;> decide
  | update x =>
    have hpaused : s.state x = .paused := hframe
    simp only [execute]
    split
    next hx => exact .top hs hx rfl rfl hraised
    next p hx =>
      rw [if_pos]
      · exact .up hs hx rfl rfl hraised
      · exact beq_iff_eq.mpr hpaused
  | handler p k => exact .handled hs rfl rfl hraised
  | _ => exact hframe.elim

/-- A workflow is paused. -/
theorem pause {s' : TreeRun ω} (h : PauseOk tree w O s) (hcall : SameCall s s') (hs : s.stack = .pause x :: stack)
    (hs' : s'.stack = .update x :: stack) (hx : (s.before x).state = .running)
    (hwf : s'.wf = Function.update s.wf x { s.before x with state := .paused }) (hraised : s'.raised = false) :
    PauseOk tree w O s' := by
  have hstate : ∀ y, s'.state y = if y = x then .paused else s.state y := fun y => by
    unfold state
    rw [hwf, Function.update_apply]
    split <;> rfl
  have hbefore : s'.before = s.before := hcall.2.1
  have hstack : ∀ f ∈ stack, f ∈ s.stack := fun f hf => hs ▸ List.mem_cons_of_mem _ hf
  constructor
  · rw [hbefore]
    exact h.stored
  · rw [hbefore, hwf]
    intro y
    rw [Function.update_apply]
    split
    next heq => exact .inr ⟨heq ▸ hx, by rw [heq]⟩
    · exact h.kept y
  · intro f hf
    rw [hs'] at hf
    obtain rfl | hf := List.mem_cons.mp hf
    · exact (hstate x).trans (if_pos rfl)
    · have hf := h.frames f (hstack f hf)
      cases f with
      | update y =>
        refine (hstate y).trans ?_
        split
        · rfl
        · exact hf
      | _ => exact hf
  · have hcaught := h.caught
    rw [hs] at hcaught
    rw [hbefore, hs']
    exact hcaught.2
  · intro h
    rw [hraised] at h
    cases h
  · exact h.begun
  · rw [hbefore, hs']
    intro y hy hc
    rw [hstate]
    split
    · exact .inl rfl
    next hne =>
      obtain hp | ⟨f, hf, his⟩ := h.self y hy hc
      · exact .inl hp
      · rw [hs] at hf
        obtain rfl | hf := List.mem_cons.mp hf
        · obtain heq | ⟨todo, heq⟩ := his
          · cases heq
            exact absurd rfl hne
          · cases heq
        · exact .inr ⟨f, List.mem_cons_of_mem _ hf, his⟩
  · rw [hbefore, hs']
    intro y c hy hparent hc
    obtain hO | ⟨todo, hmem, hloop⟩ := h.subs y c hy hparent hc
    · exact .inl hO
    · rw [hs] at hloop
      obtain heq | hloop := List.mem_cons.mp hloop
      · cases heq
      · exact .inr ⟨todo, hmem, List.mem_cons_of_mem _ hloop⟩
  · rw [hbefore, hs']
    intro y p hparent hy hp
    rw [hstate] at hp
    split at hp
    next heq => exact .inr (heq ▸ List.mem_cons_self)
    · obtain hO | hupdate := h.up y p hparent hy hp
      · exact .inl hO
      · rw [hs] at hupdate
        obtain heq | hupdate := List.mem_cons.mp hupdate
        · cases heq
        · exact .inr (List.mem_cons_of_mem _ hupdate)

omit [DecidableEq ω] in
theorem tail_of_not {P : Frame ω → Prop} (h : ∃ g ∈ f :: stack, P g) (hnot : ¬P f) : ∃ g ∈ stack, P g := by
  obtain ⟨g, hg, hP⟩ := h
  exact ⟨g, tail_of_ne hg fun heq => hnot (heq ▸ hP), hP⟩

omit [DecidableEq ω] in
/-- A statement that is done with the frame on top, where that frame neither pauses a workflow that is still open, nor
    goes over sub-workflows, nor tells a parent. -/
theorem popped {s' : TreeRun ω} (h : PauseOk tree w O s) (hcall : SameCall s s') (hwf : s'.wf = s.wf)
    (hs : s.stack = f :: stack) (hs' : s'.stack = stack) (hcaught : Caught s.before stack)
    (hraised : s'.raised → ∃ p k rest, stack = .handler p k :: rest ∧ (s.before p).state.isCompleted)
    (hself : ∀ x, (s.before x).state.isCompleted = false → s.state x ≠ .paused → ¬IsPause x f)
    (hsubs : ∀ x todo, .pauseSubs x todo ≠ f) (hup : ∀ x p, tree.parent x = some p → .update x ≠ f) :
    PauseOk tree w O s' := by
  have hframes := h.frames
  rw [hs] at hframes
  refine h.same hcall hwf hs hs' (fun g hg => hframes g (List.mem_cons_of_mem _ hg)) hcaught hraised ?_ ?_ ?_
  · exact fun x hx hne hg => tail_of_not hg (hself x hx hne)
  · exact fun x c _ ⟨todo, hmem, hloop⟩ => ⟨todo, hmem, tail_of_ne hloop (hsubs x todo)⟩
  · exact fun x p hparent hupdate => tail_of_ne hupdate (hup x p hparent)

/-- Every statement of a request to pause keeps the invariant. -/
theorem step (h : PauseOk tree w O s) (hstack : s.stack ≠ []) : ∃ O, PauseOk tree w O (s.tick tree o) := by
  have hcall : SameCall s (s.tick tree o) := sameCall_tick
  have hframes := h.frames
  have hcaught := h.caught
  cases h.tick_cases (o := o) hstack with
  | handled hs hs' hwf hraised =>
    rw [hs] at hcaught
    exact ⟨O, h.popped hcall hwf hs hs' hcaught (not_raised hraised) (by simp [IsPause]) nofun nofun⟩
  | @loopEnd x stack hs hs' hwf hraised =>
    -- All sub-workflows of `x` have been asked, and the loop gives way to the pause of `x` itself.
    rw [hs] at hframes hcaught
    refine ⟨O, h.same hcall hwf hs hs' ?_ hcaught (not_raised hraised) ?_ ?_ ?_⟩
    · exact List.forall_mem_cons.mpr ⟨trivial, fun f hf => hframes f (List.mem_cons_of_mem _ hf)⟩
    · rintro y - - ⟨f, hf, his⟩
      obtain rfl | hf := List.mem_cons.mp hf
      · refine ⟨_, List.mem_cons_self, .inl ?_⟩
        obtain heq | ⟨todo, heq⟩ := his <;> cases heq
        rfl
      · exact ⟨f, List.mem_cons_of_mem _ hf, his⟩
    · rintro y c - ⟨todo, hmem, hloop⟩
      obtain heq | hloop := List.mem_cons.mp hloop
      · cases heq
        cases hmem
      · exact ⟨todo, hmem, List.mem_cons_of_mem _ hloop⟩
    · exact fun y p _ hupdate => List.mem_cons_of_mem _ (tail_of_ne hupdate nofun)
  | @skip x c todo stack hs hc hs' hwf hraised =>
    -- A sub-workflow that is completed is passed over.
    rw [hs] at hframes hcaught
    refine ⟨O, h.same hcall hwf hs hs' ?_ hcaught (not_raised hraised) ?_ ?_ ?_⟩
    · exact List.forall_mem_cons.mpr ⟨trivial, fun f hf => hframes f (List.mem_cons_of_mem _ hf)⟩
    · rintro y - - ⟨f, hf, his⟩
      obtain rfl | hf := List.mem_cons.mp hf
      · refine ⟨_, List.mem_cons_self, .inr ⟨todo, ?_⟩⟩
        obtain heq | ⟨todo', heq⟩ := his <;> cases heq
        rfl
      · exact ⟨f, List.mem_cons_of_mem _ hf, his⟩
    · rintro y d hd ⟨todo', hmem, hloop⟩
      obtain heq | hloop := List.mem_cons.mp hloop
      · cases heq
        obtain rfl | hmem := List.mem_cons.mp hmem
        · rw [hc] at hd
          cases hd
        · exact ⟨todo, hmem, List.mem_cons_self⟩
      · exact ⟨todo', hmem, List.mem_cons_of_mem _ hloop⟩
    · exact fun y p _ hupdate => List.mem_cons_of_mem _ (tail_of_ne hupdate nofun)
  | @enter x c todo stack hs hc hs' hwf hraised =>
    -- The loop calls itself for the sub-workflow `c`, which is opened here.
    rw [hs] at hframes hcaught
    refine ⟨_, h.enter hcall hwf hraised hs hs' ?_ ?_ ?_ ?_ ?_⟩
    · exact List.forall_mem_cons.mpr ⟨trivial, fun f hf => hframes f (List.mem_cons_of_mem _ hf)⟩
    · refine ⟨fun hcompleted => ?_, hcaught⟩
      rw [hc] at hcompleted
      cases hcompleted
    · rintro y ⟨f, hf, his⟩
      obtain rfl | hf := List.mem_cons.mp hf
      · refine ⟨_, List.mem_cons_self, .inr ⟨todo, ?_⟩⟩
        obtain heq | ⟨todo', heq⟩ := his <;> cases heq
        rfl
      · exact ⟨f, List.mem_cons_of_mem _ hf, his⟩
    · rintro y d ⟨todo', hmem, hloop⟩
      obtain heq | hloop := List.mem_cons.mp hloop
      · cases heq
        obtain rfl | hmem := List.mem_cons.mp hmem
        · exact .inl rfl
        · exact .inr ⟨todo, hmem, List.mem_cons_self⟩
      · exact .inr ⟨todo', hmem, List.mem_cons_of_mem _ hloop⟩
    · exact fun y p _ hupdate => .inr (List.mem_cons_of_mem _ (tail_of_ne hupdate nofun))
  | @already x stack hs hx hs' hwf hraised =>
    -- Only `x` is left without the pause that was on top, and `x` is paused.
    rw [hs] at hcaught
    refine ⟨O, h.popped hcall hwf hs hs' hcaught.2 (not_raised hraised) (fun y _ hy => ?_) nofun nofun⟩
    rintro (heq | ⟨todo, heq⟩) <;> cases heq
    exact hy hx
  | pause hs hx hrunning hs' hwf hraised => exact ⟨O, h.pause hcall hs hs' hx hwf hraised⟩
  | @raise x stack hs hx hs' hwf hraised =>
    -- A completed workflow can not be paused: the handler of its parent is below, and catches what is raised.
    rw [hs] at hcaught
    obtain ⟨k, rest, hrest⟩ := hcaught.1 hx
    refine ⟨O, h.popped hcall hwf hs hs' hcaught.2 (fun _ => ⟨x, k, rest, hrest, hx⟩) (fun y hy _ => ?_) nofun nofun⟩
    rintro (heq | ⟨todo, heq⟩) <;> cases heq
    rw [hx] at hy
    cases hy
  | @top x stack hs hx hs' hwf hraised =>
    -- The root has no parent that is to be told.
    rw [hs] at hcaught
    refine ⟨O, h.popped hcall hwf hs hs' hcaught (not_raised hraised) (by simp [IsPause]) nofun fun y p hparent heq => ?_⟩
    cases heq
    rw [hx] at hparent
    cases hparent
  | @up x p stack hs hx hs' hwf hraised =>
    -- The parent of `x` is told and pauses too, so it is opened here.
    rw [hs] at hframes hcaught
    refine ⟨_, h.enter hcall hwf hraised hs hs' ?_ ?_ ?_ ?_ ?_⟩
    · exact List.forall_mem_cons.mpr ⟨trivial, fun f hf => hframes f (List.mem_cons_of_mem _ hf)⟩
    · exact ⟨fun _ => ⟨_, _, rfl⟩, hcaught⟩
    · intro y hf
      obtain ⟨f, hf, his⟩ := tail_of_not hf (by simp [IsPause])
      exact ⟨f, List.mem_cons_of_mem _ hf, his⟩
    · exact fun y c ⟨todo, hmem, hloop⟩ => .inr ⟨todo, hmem, List.mem_cons_of_mem _ (tail_of_ne hloop nofun)⟩
    · intro y q hparent hupdate
      obtain heq | hupdate := List.mem_cons.mp hupdate
      · cases heq
        rw [hx] at hparent
        exact .inl (Option.some.inj hparent).symm
      · exact .inr (List.mem_cons_of_mem _ hupdate)

omit [DecidableEq ω] in
/-- When a request to pause has ended, every workflow that it comes to is paused. -/
theorem paused (h : PauseOk tree w O s) (hcall : s.call = .pause w) (hfits : s.Fits tree) (hstack : s.stack = []) :
    s.Paused := by
  refine ⟨?_, fun x hx => ?_, fun x hx => ?_⟩
  · by_contra hraised
    obtain ⟨p, k, stack, hs, -⟩ := h.raised (by simpa using hraised)
    rw [hstack] at hs
    cases hs
  · by_contra hne
    obtain ⟨hrunning, -⟩ | hcompleted := h.running_or_completed hne
    · have hcomes : tree.Comes s.before w x := by
        rw [Fits, hcall] at hfits
        exact hfits x hrunning
      rw [h.isCompleted_iff] at hx
      obtain hp | ⟨f, hf, -⟩ := h.self x (h.comes hstack hcomes) hx
      · exact hne hp
      · rw [hstack] at hf
        cases hf
    · rw [h.isCompleted_iff, hcompleted] at hx
      cases hx
  · obtain hkept | ⟨hrunning, -⟩ := h.kept x
    · exact hkept
    · rw [hrunning] at hx
      cases hx

/-- Every statement decreases the number of running workflows, or the weight of the stack. -/
theorem decreases [Fintype ω] (h : PauseOk tree w O s) (hstack : s.stack ≠ []) :
    toLex ((s.tick tree o).count .running, weight tree (s.tick tree o).stack) <
      toLex (s.count .running, weight tree s.stack) := by
  have hsame : (s.tick tree o).wf = s.wf → weight tree (s.tick tree o).stack < weight tree s.stack →
      toLex ((s.tick tree o).count .running, weight tree (s.tick tree o).stack) <
        toLex (s.count .running, weight tree s.stack) := fun hwf hlt => by
    have hstate : (s.tick tree o).state = s.state := funext fun x => congrArg WorkflowNode.state (congrFun hwf x)
    rw [count, count, hstate]
    exact Prod.Lex.right _ hlt
  cases h.tick_cases (o := o) hstack with
  | handled hs hs' hwf _ | loopEnd hs hs' hwf _ | skip hs _ hs' hwf _ | already hs _ hs' hwf _ | raise hs _ hs' hwf _
  | top hs _ hs' hwf _ =>
    refine hsame hwf ?_
    rw [hs, hs']
    simp only [weight_cons, Frame.weight, WorkflowTree.loopWeight_cons, WorkflowTree.loopWeight_nil]
    omega
  | enter hs _ hs' hwf _ =>
    refine hsame hwf ?_
    rw [hs, hs']
    simp only [weight_cons, Frame.weight, WorkflowTree.loopWeight_cons, ← WorkflowTree.callWeight_eq]
    omega
  | up hs hx hs' hwf _ =>
    refine hsame hwf ?_
    rw [hs, hs']
    simp only [weight_cons, Frame.weight, ← WorkflowTree.callWeight_eq, hx, Option.elim_some]
    omega
  | @pause x stack hs hx hrunning hs' hwf _ =>
    refine Prod.Lex.left _ _ (Finset.card_lt_card ?_)
    have hstate : ∀ y, (s.tick tree o).state y = if y = x then .paused else s.state y := fun y => by
      unfold state
      rw [hwf, Function.update_apply]
      split <;> rfl
    refine Finset.ssubset_iff_subset_ne.mpr ⟨fun y hy => ?_, fun heq => ?_⟩
    · simp only [Finset.mem_filter, Finset.mem_univ, true_and, hstate] at hy ⊢
      split at hy
      · cases hy
      · exact hy
    · have hmem : x ∈ Finset.univ.filter fun y => s.state y = .running := by simpa using hrunning
      rw [← heq] at hmem
      simp [hstate] at hmem

end
end PauseOk

theorem pauseOk_start {wf : ω → WorkflowNode} {tasks : List (TaskNode ω)} (hw : (wf w).state = .running)
    (hstored : ∀ x, (wf x).state.isStored) : PauseOk tree w (fun x => x = w) (start tree (.pause w) wf tasks) where
  stored := hstored
  kept _ := .inl rfl
  frames := List.forall_mem_cons.mpr ⟨trivial, nofun⟩
  caught := by
    refine ⟨fun hcompleted => ?_, trivial⟩
    have hcompleted : (wf w).state.isCompleted := hcompleted
    rw [hw] at hcompleted
    cases hcompleted
  raised := nofun
  begun := rfl
  self x hx _ := .inr ⟨_, List.mem_cons_self, .inr ⟨tree.subs w, by rw [hx]⟩⟩
  subs x c hx hparent _ := by
    subst hx
    exact .inr ⟨_, tree.mem_subs.mpr hparent, List.mem_cons_self⟩
  up x p hparent hx hp := by
    have hx : (wf x).state = .running := hx
    have hp : (wf x).state = .paused := hp
    rw [hx] at hp
    cases hp

end TreeRun
end Mistral
