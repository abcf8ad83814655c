import Mathlib.Data.List.TakeWhile
import Mistral.Engine.Dispatcher

/-! What `_rearrange_commands` leaves of a list of commands. -/

namespace Mistral

variable {ls : ListSort}

theorem Cmd.isTask_eq (cmd : Cmd) : cmd.isTask = (!cmd.isNoop && !cmd.isSetWorkflowState) := by
  cases cmd <;> rfl

theorem rearrange_tasks {cmds : List Cmd} (h : ∀ cmd ∈ cmds, cmd.isTask) : rearrangeCommands ls cmds = ls.sort cmds := by
  simp only [Cmd.isTask_eq, Bool.and_eq_true] at h
  have hnoop : cmds.filter (!·.isNoop) = cmds := List.filter_eq_self.mpr fun cmd hcmd => (h cmd hcmd).1
  have hstate : cmds.dropWhile (!·.isSetWorkflowState) = [] := List.dropWhile_eq_nil_iff.mpr fun cmd hcmd => (h cmd hcmd).2
  simp [rearrangeCommands, hnoop, hstate]

/-- A command that sets the state of the workflow, between commands for tasks and any other commands. -/
theorem rearrange_state {before tail : List Cmd} {cmd : Cmd} (hbefore : ∀ c ∈ before, c.isTask)
    (hcmd : cmd.isSetWorkflowState) (htail : ∀ c ∈ tail, c.isNoop = false) :
    rearrangeCommands ls (before ++ cmd :: tail) = ls.sort before ++ cmd :: if cmd.isPause then tail else [] := by
  simp only [Cmd.isTask_eq, Bool.and_eq_true] at hbefore
  have hne : cmd.isNoop = false := by cases cmd <;> simp_all [Cmd.isSetWorkflowState, Cmd.isNoop]
  have hnoop : (before ++ cmd :: tail).filter (!·.isNoop) = before ++ cmd :: tail := by
    refine List.filter_eq_self.mpr fun c hc => ?_
    rcases List.mem_append.mp hc with hc | hc
    · exact (hbefore c hc).1
    · rcases List.mem_cons.mp hc with rfl | hc
      · simp [hne]
      · simp [htail c hc]
  have htake : (before ++ cmd :: tail).takeWhile (!·.isSetWorkflowState) = before := by
    rw [List.takeWhile_append_of_pos fun c hc => (hbefore c hc).2]
    simp [hcmd]
  have hdrop : (before ++ cmd :: tail).dropWhile (!·.isSetWorkflowState) = cmd :: tail := by
    rw [List.dropWhile_append_of_pos fun c hc => (hbefore c hc).2]
    simp [hcmd]
  simp only [rearrangeCommands, hnoop, htake, hdrop]

/-- A rearranged list has sorted commands for tasks, and at most one command for the state of the workflow after
    them; something comes after that one only if it pauses the workflow. -/
theorem rearrange_cases (ls : ListSort) (cmds : List Cmd) :
    (∃ l, (∀ c ∈ l, c.isTask) ∧ rearrangeCommands ls cmds = ls.sort l) ∨
    ∃ before cmd tail, (∀ c ∈ before, c.isTask) ∧ cmd.isSetWorkflowState ∧ (∀ c ∈ tail, c.isNoop = false) ∧
      (cmd.isPause = false → tail = []) ∧ rearrangeCommands ls cmds = ls.sort before ++ cmd :: tail := by
  have hnoop : ∀ c ∈ cmds.filter (!·.isNoop), c.isNoop = false := fun c hc => by
    simpa using (List.mem_filter.mp hc).2
  unfold rearrangeCommands
  dsimp only
  generalize cmds.filter (!·.isNoop) = l at hnoop
  split
  next hdrop =>
    refine .inl ⟨l, fun c hc => ?_, rfl⟩
    have hstate := List.dropWhile_eq_nil_iff.mp hdrop c hc
    simpa [Cmd.isTask_eq, hnoop c hc] using hstate
  next cmd tail hdrop =>
    have htail : ∀ c ∈ cmd :: tail, c ∈ l := fun c hc => (List.dropWhile_sublist _).subset (by rw [hdrop]; exact hc)
    refine .inr ⟨l.takeWhile (!·.isSetWorkflowState), cmd, if cmd.isPause then tail else [], fun c hc => ?_, ?_, fun c hc => ?_,
      fun h => by simp [h], rfl⟩
    · have hstate := List.mem_takeWhile_imp hc
      simpa [Cmd.isTask_eq, hnoop c ((List.takeWhile_sublist _).subset hc)] using hstate
    · have := List.head?_dropWhile_not (!·.isSetWorkflowState) l
      rw [hdrop] at this
      simpa using this
    · split at hc
      · exact hnoop c (htail c (List.mem_cons_of_mem cmd hc))
      · cases hc

/-- Rearranging again changes at most the order. -/
theorem rearrange_rearrange_perm (ls : ListSort) (cmds : List Cmd) :
    (rearrangeCommands ls (rearrangeCommands ls cmds)).Perm (rearrangeCommands ls cmds) := by
  have hsorted : ∀ {l : List Cmd}, (∀ c ∈ l, c.isTask) → ∀ c ∈ ls.sort l, c.isTask := fun h c hc =>
    h c ((ls.perm _).mem_iff.mp hc)
  rcases rearrange_cases ls cmds with ⟨l, hl, heq⟩ | ⟨before, cmd, tail, hbefore, hcmd, htail, hpause, heq⟩
  · rw [heq, rearrange_tasks (hsorted hl)]
    exact ls.perm _
  · rw [heq, rearrange_state (hsorted hbefore) hcmd htail]
    refine (ls.perm _).append (.cons cmd ?_)
    split
    · exact .refl _
    next h => rw [hpause (by simpa using h)]

theorem mem_rearrangeCommands {cmds : List Cmd} {cmd : Cmd} (h : cmd ∈ rearrangeCommands ls cmds) :
    cmd ∈ cmds := by
  unfold rearrangeCommands at h
  simp only at h
  have hsub : ∀ c, c ∈ cmds.filter (!·.isNoop) → c ∈ cmds := fun c hc => (List.mem_filter.mp hc).1
  split at h
  · exact hsub _ ((ls.perm _).mem_iff.mp h)
  next stateCmd tail heq =>
  have hdrop : ∀ c ∈ stateCmd :: tail, c ∈ cmds := fun c hc =>
    hsub c ((List.dropWhile_sublist _).subset (heq ▸ hc))
  rcases List.mem_append.mp h with h | h
  · exact hsub _ ((List.takeWhile_sublist _).subset ((ls.perm _).mem_iff.mp h))
  · rcases List.mem_cons.mp h with rfl | h
    · exact hdrop _ List.mem_cons_self
    · refine hdrop _ (List.mem_cons_of_mem _ ?_)
      split at h
      · exact h
      · cases h

/-- What is left is not a `Noop`. -/
theorem isNoop_of_mem_rearrange {cmds : List Cmd} {cmd : Cmd} (h : cmd ∈ rearrangeCommands ls cmds) : cmd.isNoop = false := by
  rcases rearrange_cases ls cmds with ⟨l, hl, heq⟩ | ⟨before, c, tail, hbefore, hc, htail, -, heq⟩ <;> rw [heq] at h
  · have := hl cmd ((ls.perm _).mem_iff.mp h)
    simp only [Cmd.isTask_eq, Bool.and_eq_true, Bool.not_eq_true'] at this
    exact this.1
  · rcases List.mem_append.mp h with h | h
    · have := hbefore cmd ((ls.perm _).mem_iff.mp h)
      simp only [Cmd.isTask_eq, Bool.and_eq_true, Bool.not_eq_true'] at this
      exact this.1
    · rcases List.mem_cons.mp h with rfl | h
      · cases cmd <;> simp_all [Cmd.isSetWorkflowState, Cmd.isNoop]
      · exact htail cmd h

/-- Nothing is left of `Noop` commands only. -/
theorem rearrange_eq_nil_iff {cmds : List Cmd} : rearrangeCommands ls cmds = [] ↔ ∀ cmd ∈ cmds, cmd.isNoop := by
  have hfilter : cmds.filter (!·.isNoop) = [] ↔ ∀ cmd ∈ cmds, cmd.isNoop := by simp [List.filter_eq_nil_iff]
  rw [← hfilter]
  unfold rearrangeCommands
  dsimp only
  split
  next hdrop => exact ⟨fun h => (h ▸ ls.perm _).symm.eq_nil, fun h => by rw [h]; exact (ls.perm []).eq_nil⟩
  next c tail hdrop =>
    refine ⟨fun h => by simp at h, fun h => ?_⟩
    rw [h] at hdrop
    cases hdrop

end Mistral
