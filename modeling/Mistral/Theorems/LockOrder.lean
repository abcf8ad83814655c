import Mathlib.Data.String.Basic
import Mistral.Engine.Rearranging
import Mistral.Lib.Sorting

/-! When the order in which commands are dispatched, and joins are locked, does not depend on how the commands
    are sorted. -/

namespace Mistral

/-- A sorting algorithm, called with `_compare_task_commands`. -/
def ListSort.of (A : Sorting.Algorithm Cmd) : ListSort := ⟨A.sort compareTaskCommands, A.perm compareTaskCommands⟩

/-- The commands before the first one that sets the state of the workflow. -/
def sortedPart (cmds : List Cmd) : List Cmd := (cmds.filter (!·.isNoop)).takeWhile (!·.isSetWorkflowState)

/-- That command, and what is kept after it. -/
def statePart (cmds : List Cmd) : List Cmd :=
  match (cmds.filter (!·.isNoop)).dropWhile (!·.isSetWorkflowState) with
  | [] => []
  | stateCmd :: tail => stateCmd :: if stateCmd.isPause then tail else []

def Cmd.key (cmd : Cmd) : String := cmd.uniqueKey?.getD ""

/-- Nothing but the order of the sorted part changes: commands that do not wait keep their order, and those that wait
    come after them in the order of their keys. -/
structure Rearranged (cmds res : List Cmd) : Prop where
  parts : ∃ sorted, res = sorted ++ statePart cmds ∧ sorted.Perm (sortedPart cmds) ∧
    sorted.filter (!·.isWaiting) = (sortedPart cmds).filter (!·.isWaiting) ∧
    sorted = sorted.filter (!·.isWaiting) ++ sorted.filter (·.isWaiting) ∧
    (sorted.filter (·.isWaiting)).Pairwise (·.key ≤ ·.key)

/-- The keys of the joins, in the order in which they are locked. -/
def lockOrder (cmds : List Cmd) : List String := ((sortedPart cmds).filter (·.isWaiting)).map (·.key)

/-! ### The two parts -/

theorem isSetWorkflowState_of_mem_sortedPart {cmds : List Cmd} {cmd : Cmd} (h : cmd ∈ sortedPart cmds) :
    cmd.isSetWorkflowState = false := by
  simpa using List.mem_takeWhile_imp h

theorem rearrangeCommands_eq (ls : ListSort) (cmds : List Cmd) :
    rearrangeCommands ls cmds = ls.sort (sortedPart cmds) ++ statePart cmds := by
  unfold rearrangeCommands statePart sortedPart
  dsimp only
  cases hdrop : (cmds.filter (!·.isNoop)).dropWhile (!·.isSetWorkflowState) with
  | nil =>
    have htake := List.takeWhile_append_dropWhile (p := (!Cmd.isSetWorkflowState ·)) (l := cmds.filter (!·.isNoop))
    rw [hdrop, List.append_nil] at htake
    rw [htake, List.append_nil]
  | cons stateCmd tail => rfl

theorem sortedPart_rearrangeCommands (ls : ListSort) (cmds : List Cmd) :
    sortedPart (rearrangeCommands ls cmds) = ls.sort (sortedPart cmds) := by
  have hnoop : (rearrangeCommands ls cmds).filter (!·.isNoop) = rearrangeCommands ls cmds :=
    List.filter_eq_self.mpr fun cmd hcmd => by rw [isNoop_of_mem_rearrange hcmd]; rfl
  have hsorted : ∀ cmd ∈ ls.sort (sortedPart cmds), (!cmd.isSetWorkflowState) = true := fun cmd hcmd => by
    rw [isSetWorkflowState_of_mem_sortedPart ((ls.perm _).mem_iff.mp hcmd)]
    rfl
  have hstate : (statePart cmds).takeWhile (!·.isSetWorkflowState) = [] := by
    unfold statePart
    split
    next => rfl
    next stateCmd tail hdrop =>
      have hhead := List.head?_dropWhile_not (!·.isSetWorkflowState) (cmds.filter (!·.isNoop))
      rw [hdrop] at hhead
      exact List.takeWhile_cons_of_neg (by simpa using hhead)
  rw [sortedPart, hnoop, rearrangeCommands_eq, List.takeWhile_append_of_pos hsorted, hstate, List.append_nil]

/-! ### The comparison -/

/-- The order that is meant: a command that waits is above all others, and above those with a smaller key. -/
def Below (a b : Cmd) : Prop := a.isWaiting → b.isWaiting ∧ a.key ≤ b.key

theorem weakOrder_below : Sorting.WeakOrder Below where
  total a b := by
    unfold Below
    cases ha : a.isWaiting with
    | false => exact .inl nofun
    | true =>
      cases hb : b.isWaiting with
      | false => exact .inr nofun
      | true => exact (String.le_total a.key b.key).imp (fun h _ => ⟨rfl, h⟩) fun h _ => ⟨rfl, h⟩
  trans a b c hab hbc ha := by
    obtain ⟨hb, hab⟩ := hab ha
    obtain ⟨hc, hbc⟩ := hbc hb
    exact ⟨hc, String.le_trans hab hbc⟩

theorem compareTaskCommands_neg (a b : Cmd) :
    compareTaskCommands a b < 0 ↔ (a.isWaiting = true → b.isWaiting = true ∧ a.key < b.key) := by
  unfold compareTaskCommands Cmd.key
  cases ha : a.isWaiting with
  | false => simp
  | true =>
    cases hb : b.isWaiting with
    | false => simp
    | true =>
      by_cases hkey : a.uniqueKey? = b.uniqueKey?
      · simp [hkey]
      · by_cases hlt : a.uniqueKey?.getD "" < b.uniqueKey?.getD ""
        · simp [hkey, hlt]
        · simp only [Bool.not_true, Bool.false_eq_true, if_false, if_neg hkey, if_neg hlt, forall_const, true_and]
          exact ⟨fun h => absurd h (by decide), fun h => absurd h hlt⟩

/-- Of two commands each is below the other exactly where neither waits. -/
theorem both_neg_iff (a b : Cmd) :
    (compareTaskCommands a b < 0 ∧ compareTaskCommands b a < 0) ↔ a.isWaiting = false ∧ b.isWaiting = false := by
  rw [compareTaskCommands_neg, compareTaskCommands_neg]
  constructor
  · rintro ⟨hab, hba⟩
    cases ha : a.isWaiting with
    | false =>
      cases hb : b.isWaiting with
      | false => exact ⟨rfl, rfl⟩
      | true => exact absurd (hba hb).1 (by simp [ha])
    | true =>
      obtain ⟨hb, hlt⟩ := hab ha
      exact absurd (hba hb).2 (lt_asymm hlt)
  · rintro ⟨ha, hb⟩
    simp [ha, hb]

theorem neg_iff_not_below {a b : Cmd} (h : a.isWaiting ∨ b.isWaiting) : compareTaskCommands a b < 0 ↔ ¬Below b a := by
  rw [compareTaskCommands_neg, Below]
  cases ha : a.isWaiting <;> cases hb : b.isWaiting <;> simp_all

/-- At most one command that does not wait. -/
theorem pairwise_waiting_iff {l : List Cmd} :
    l.Pairwise (fun a b => a.isWaiting = true ∨ b.isWaiting = true) ↔ (l.filter (!·.isWaiting)).length ≤ 1 := by
  induction l with
  | nil => simp
  | cons a l ih =>
    rw [List.pairwise_cons, ih]
    cases ha : a.isWaiting with
    | true => simp [ha]
    | false =>
      have hnil : (∀ b ∈ l, b.isWaiting = true) ↔ l.filter (!·.isWaiting) = [] := by simp [List.filter_eq_nil_iff]
      simp only [Bool.false_eq_true, false_or, hnil, List.filter_cons, ha, Bool.not_false, if_true, List.length_cons]
      constructor
      · rintro ⟨hnone, -⟩
        rw [hnone]
        exact Nat.le_refl 1
      · intro hlen
        have hnone : l.filter (!·.isWaiting) = [] := List.length_eq_zero_iff.mp (by omega)
        exact ⟨hnone, by rw [hnone]; exact Nat.zero_le 1⟩

theorem agrees_of_length {l : List Cmd} (h : (l.filter (!·.isWaiting)).length ≤ 1) :
    Sorting.Agrees compareTaskCommands Below l :=
  (pairwise_waiting_iff.mpr h).imp fun hab => ⟨neg_iff_not_below hab, neg_iff_not_below hab.symm⟩

/-! ### What every algorithm makes of it -/

theorem filter_eq_of_perm {p : Cmd → Bool} {l l' : List Cmd} (hperm : l'.Perm l) (h : (l.filter p).length ≤ 1) :
    l'.filter p = l.filter p := by
  have hperm := hperm.filter p
  match heq : l.filter p with
  | [] => rw [heq] at hperm; exact hperm.eq_nil
  | [a] => rw [heq] at hperm; exact hperm.eq_singleton
  | a :: b :: tail => rw [heq] at h; simp at h

theorem sort_waiting (A : Sorting.Algorithm Cmd) {l : List Cmd} (h : (l.filter (!·.isWaiting)).length ≤ 1) :
    ((A.sort compareTaskCommands l).filter (·.isWaiting)).Pairwise (·.key ≤ ·.key) := by
  have hsorted := A.sorted weakOrder_below (agrees_of_length h)
  refine (hsorted.filter (·.isWaiting)).imp_of_mem fun ha _ hab => (hab (List.mem_filter.mp ha).2).2

theorem rearranged (A : Sorting.Algorithm Cmd) {cmds : List Cmd} (h : ((sortedPart cmds).filter (!·.isWaiting)).length ≤ 1) :
    Rearranged cmds (rearrangeCommands (.of A) cmds) := by
  have hsorted := A.sorted weakOrder_below (agrees_of_length h)
  have hperm := A.perm compareTaskCommands (sortedPart cmds)
  refine ⟨_, rearrangeCommands_eq _ cmds, hperm, filter_eq_of_perm hperm h, ?_, sort_waiting A h⟩
  have htwo := Sorting.eq_filter_append (p := (!Cmd.isWaiting ·)) (hsorted.imp fun {a b} hab hb => by
    cases ha : a.isWaiting with
    | false => rfl
    | true => simp [(hab ha).1] at hb)
  simp only [Bool.not_not] at htwo
  exact htwo

theorem lockOrder_eq (A A' : Sorting.Algorithm Cmd) {cmds cmds' : List Cmd}
    (h : ((sortedPart cmds).filter (!·.isWaiting)).length ≤ 1) (hperm : (sortedPart cmds').Perm (sortedPart cmds)) :
    lockOrder (rearrangeCommands (.of A) cmds) = lockOrder (rearrangeCommands (.of A') cmds') := by
  have h' : ((sortedPart cmds').filter (!·.isWaiting)).length ≤ 1 := by rwa [(hperm.filter _).length_eq]
  have hsame : (A.sort compareTaskCommands (sortedPart cmds)).Perm (A'.sort compareTaskCommands (sortedPart cmds')) :=
    (A.perm _ _).trans (hperm.symm.trans (A'.perm _ _).symm)
  have hleft : (((A.sort compareTaskCommands (sortedPart cmds)).filter (·.isWaiting)).map (·.key)).Pairwise (· ≤ ·) :=
    List.pairwise_map.mpr (sort_waiting A h)
  have hright : (((A'.sort compareTaskCommands (sortedPart cmds')).filter (·.isWaiting)).map (·.key)).Pairwise (· ≤ ·) :=
    List.pairwise_map.mpr (sort_waiting A' h')
  unfold lockOrder
  rw [sortedPart_rearrangeCommands, sortedPart_rearrangeCommands]
  exact List.Perm.eq_of_pairwise (fun a b _ _ => String.le_antisymm) hleft hright ((hsame.filter _).map _)

/-! ### Sorting by insertion -/

/-- Every algorithm rearranges the commands soundly, and locks joins in the same order, exactly where at most one command
    of the sorted part does not wait. -/
theorem rearranges_soundly_iff (cmds : List Cmd) :
    ((∀ A, Rearranged cmds (rearrangeCommands (.of A) cmds)) ∧
      (∀ A A' cmds', (sortedPart cmds').Perm (sortedPart cmds) →
        lockOrder (rearrangeCommands (.of A) cmds) = lockOrder (rearrangeCommands (.of A') cmds')) ∧
      (sortedPart cmds).Pairwise fun a b => ¬(compareTaskCommands a b < 0 ∧ compareTaskCommands b a < 0)) ↔
    ((sortedPart cmds).filter (!·.isWaiting)).length ≤ 1 := by
  have hpairs : ((sortedPart cmds).Pairwise fun a b => ¬(compareTaskCommands a b < 0 ∧ compareTaskCommands b a < 0)) ↔
      ((sortedPart cmds).filter (!·.isWaiting)).length ≤ 1 := by
    rw [← pairwise_waiting_iff]
    refine List.Pairwise.iff fun a b => ?_
    rw [both_neg_iff]
    cases a.isWaiting <;> cases b.isWaiting <;> simp
  constructor
  · rintro ⟨-, -, hcmp⟩
    exact hpairs.mp hcmp
  · intro h
    exact ⟨fun A => rearranged A h, fun A A' cmds' => lockOrder_eq A A' h, hpairs.mpr h⟩

/-- Two tasks in a row are started in the opposite order. -/
theorem plain_commands_reversed : ¬∀ (A : Sorting.Algorithm Cmd) (cmds : List Cmd),
    Rearranged cmds (rearrangeCommands (.of A) cmds) := fun h => by
  let first : Cmd := .runTask { taskSpec := { name := "t1" } } false none
  let second : Cmd := .runTask { taskSpec := { name := "t2" } } false none
  obtain ⟨sorted, heq, -, hplain, -⟩ := (h Sorting.insertion [first, second]).parts
  have hres : rearrangeCommands (.of Sorting.insertion) [first, second] = [second, first] := by decide
  rw [hres, show statePart [first, second] = [] from rfl, List.append_nil] at heq
  rw [← heq] at hplain
  revert hplain
  decide

end Mistral
