import Mathlib.Data.Fin.VecNotation
import Mistral.Theorems.ResumesTree

/-! A request to pause pauses a whole tree, and a request to resume continues every workflow that it resumes once, where
    nothing disturbs it. -/

namespace Mistral
namespace TreeRun
variable {ω : Type} {tree : WorkflowTree ω} {o : TreeOracle ω} {s s' : TreeRun ω} {x y w p c : ω} {f g : Frame ω}
  {stack : List (Frame ω)}

/-! ### The tasks -/

theorem pending_sublist : (pending stack).Sublist (pending (f :: stack)) := by
  cases f with
  | commands => exact List.sublist_append_right _ _
  | _ => exact .refl _

section
variable [DecidableEq ω]

/-- A statement keeps every task, and its state but for the task that an update is about. -/
theorem tasks_step {k : Nat} {e : TaskNode ω} (htick : ResumeTick tree s s') (he : s.tasks[k]? = some e) :
    ∃ e', s'.tasks[k]? = some e' ∧ e'.wf = e.wf ∧
      (e'.state = e.state ∨ ∃ x p stack, s.stack = .update x :: stack ∧ tree.parent x = some p ∧ k = tree.task x) := by
  have hupdated : ∀ x, ∃ e', (s.updateTask tree x).tasks[k]? = some e' ∧ e'.wf = e.wf ∧
      (e'.state = e.state ∨ k = tree.task x) := fun x => by
    simp only [updateTask, List.getElem?_modify, he, Option.map_eq_map, Option.map_some]
    refine ⟨_, rfl, ?_⟩
    split
    next heq => exact ⟨by split <;> rfl, .inr heq.symm⟩
    · exact ⟨rfl, .inl rfl⟩
  cases htick with
  | loopEnd _ _ hstill | skip _ _ _ hstill | enter _ _ _ hstill | pop _ _ _ _ hstill =>
    exact ⟨e, by rw [hstill.2.1, he], rfl, .inl rfl⟩
  | @resume x stack cmds _ hcont =>
    rw [hcont.tasks]
    simp only [processTasks, List.getElem?_map, he, Option.map_some]
    refine ⟨_, rfl, ?_⟩
    split <;> exact ⟨rfl, .inl rfl⟩
  | runTask _ _ _ htasks _ _ =>
    refine ⟨e, ?_, rfl, .inl rfl⟩
    rw [htasks, List.getElem?_append_left (List.getElem?_eq_some_iff.mp he).1, he]
  | runExistingTask _ _ _ htasks _ _ | stop _ _ _ htasks _ _ => exact ⟨e, by rw [htasks, he], rfl, .inl rfl⟩
  | @update x p stack hs hparent _ _ htasks _ _ =>
    rw [htasks]
    obtain ⟨e', he', hwf, hstate | hk⟩ := hupdated x
    · exact ⟨e', he', hwf, .inl hstate⟩
    · exact ⟨e', he', hwf, .inr ⟨x, p, stack, hs, hparent, hk⟩⟩
  | @up x p stack hs hp _ _ htasks _ _ =>
    rw [htasks]
    obtain ⟨e', he', hwf, hstate | hk⟩ := hupdated x
    · exact ⟨e', he', hwf, .inl hstate⟩
    · exact ⟨e', he', hwf, .inr ⟨x, p, stack, hs, hp.1, hk⟩⟩

theorem continued_step (htick : ResumeTick tree s s') : ∀ y ∈ s.continued, y ∈ s'.continued := fun y hy => by
  cases htick with
  | loopEnd _ _ hstill | skip _ _ _ hstill | enter _ _ _ hstill | pop _ _ _ _ hstill =>
    rw [hstill.2.2.1]
    exact hy
  | resume _ hcont =>
    rw [hcont.continued]
    exact List.mem_cons_of_mem _ hy
  | runTask _ _ _ _ hcontinued _ | runExistingTask _ _ _ _ hcontinued _ | stop _ _ _ _ hcontinued _
  | update _ _ _ _ _ hcontinued _ | up _ _ _ _ _ hcontinued _ =>
    rw [hcontinued]
    exact hy

/-- The requests to start tasks that were sent or are about to be sent are for different tasks of workflows that have been
    continued. -/
structure Starts (s : TreeRun ω) : Prop where
  nodup : (s.starts ++ pending s.stack).Nodup
  known : ∀ k ∈ s.starts ++ pending s.stack, ∃ e, s.tasks[k]? = some e ∧ e.wf ∈ s.continued

/-- No request is added. -/
theorem Starts.sub (h : Starts s) (htick : ResumeTick tree s s')
    (hsub : (s'.starts ++ pending s'.stack).Subperm (s.starts ++ pending s.stack)) : Starts s' := by
  refine ⟨?_, fun k hk => ?_⟩
  · obtain ⟨l, hperm, hl⟩ := hsub
    exact hperm.nodup_iff.mp (h.nodup.sublist hl)
  · obtain ⟨e, he, hwf⟩ := h.known k (hsub.subset hk)
    obtain ⟨e', he', hwf', -⟩ := tasks_step htick he
    exact ⟨e', he', hwf' ▸ continued_step htick _ hwf⟩

theorem mem_tasksOf {k : Nat} (h : k ∈ s.tasksOf x) : ∃ e, s.tasks[k]? = some e ∧ e.wf = x := by
  obtain ⟨-, hany⟩ := List.mem_filter.mp h
  obtain ⟨e, he, hwf⟩ := (Option.any_eq_true _ _).mp hany
  exact ⟨e, he, of_decide_eq_true hwf⟩

theorem nodup_tasksOf {q : Nat → Bool} : ((s.tasksOf x).filter q).Nodup := (List.nodup_range.filter _).filter _

/-- The idle tasks of a workflow that is continued get a request each. -/
theorem Starts.resume {cmds : List TreeCommand} (h : Starts s) (hx : x ∉ s.continued) (hcont : Continues s s' x stack cmds)
    (hs : s.stack = .resume x :: stack) (htick : ResumeTick tree s s') : Starts s' := by
  have hsame : s.starts ++ pending s.stack = s.starts ++ pending stack := by rw [hs]; rfl
  obtain hs' | hs' := hcont.stack
  · obtain hnone | hidle := hcont.existing
    · refine h.sub htick ?_
      rw [hsame, hs', hcont.starts]
      show (s.starts ++ (existing cmds ++ pending stack)).Subperm _
      rw [hnone]
      exact .refl _
    · have hnew : ∀ k ∈ existing cmds, ∃ e, s.tasks[k]? = some e ∧ e.wf = x := fun k hk => by
        rw [hidle] at hk
        exact mem_tasksOf (List.mem_filter.mp hk).1
      have hperm : (s'.starts ++ pending s'.stack).Perm (existing cmds ++ (s.starts ++ pending stack)) := by
        rw [hs', hcont.starts]
        exact List.perm_append_comm_assoc ..
      refine ⟨hperm.nodup_iff.mpr (List.nodup_append.mpr ⟨hidle ▸ nodup_tasksOf, hsame ▸ h.nodup, ?_⟩), fun k hk => ?_⟩
      · rintro k hk l hl rfl
        obtain ⟨e, he, hwf⟩ := hnew k hk
        obtain ⟨e', he', hwf'⟩ := h.known k (hsame ▸ hl)
        rw [he] at he'
        cases he'
        exact hx (hwf ▸ hwf')
      · obtain hk | hk := List.mem_append.mp (hperm.subset hk)
        · obtain ⟨e, he, hwf⟩ := hnew k hk
          obtain ⟨e', he', hwf', -⟩ := tasks_step htick he
          exact ⟨e', he', by rw [hwf', hwf, hcont.continued]; exact List.mem_cons_self⟩
        · obtain ⟨e, he, hwf⟩ := h.known k (hsame ▸ hk)
          obtain ⟨e', he', hwf', -⟩ := tasks_step htick he
          exact ⟨e', he', hwf' ▸ continued_step htick _ hwf⟩
  · refine h.sub htick ?_
    rw [hsame, hs', hcont.starts]
    exact .refl _

/-- Every statement keeps what holds of the requests. -/
theorem Starts.step (h : Starts s) (htrail : Trail tree w s) (hcalls : Calls tree w s) (htick : ResumeTick tree s s') :
    Starts s' := by
  have htick' := htick
  cases htick with
  | loopEnd hs hs' hstill | skip hs _ hs' hstill | enter hs _ hs' hstill =>
    refine h.sub htick' ?_
    rw [hs, hs', hstill.2.2.2]
    exact .refl _
  | pop hs _ _ hs' hstill =>
    refine h.sub htick' ?_
    rw [hs, hs', hstill.2.2.2]
    exact (List.Sublist.append_left pending_sublist _).subperm
  | @resume x stack cmds hs hcont =>
    have hx : s.ResumingFrame tree (.resume x) := hcalls.frames _ (hs ▸ List.mem_cons_self)
    exact h.resume (fun hmem => ((htrail.continued x).mp hmem).2 hx.1) hcont hs htick'
  | @runTask x waiting cmds stack hs hs' _ htasks hcontinued hstarts =>
    have hx : s.ResumingFrame tree (.commands x (.next (.runTask waiting) :: cmds)) := hcalls.frames _ (hs ▸ List.mem_cons_self)
    have hsame : pending s'.stack = pending s.stack := by rw [hs, hs']; rfl
    have hlist : s'.starts ++ pending s'.stack = s.tasks.length :: (s.starts ++ pending s.stack) := by
      rw [hstarts, hsame]
      rfl
    refine ⟨hlist ▸ List.nodup_cons.mpr ⟨fun hmem => ?_, h.nodup⟩, fun k hk => ?_⟩
    · obtain ⟨e, he, -⟩ := h.known _ hmem
      exact absurd (List.getElem?_eq_some_iff.mp he).1 (Nat.lt_irrefl _)
    · rw [hlist] at hk
      obtain rfl | hk := List.mem_cons.mp hk
      · have hx : x ∈ s.continued := hx
        exact ⟨_, by rw [htasks, List.getElem?_concat_length], hcontinued ▸ hx⟩
      · obtain ⟨e, he, hwf⟩ := h.known k hk
        obtain ⟨e', he', hwf', -⟩ := tasks_step htick' he
        exact ⟨e', he', hwf' ▸ continued_step htick' _ hwf⟩
  | runExistingTask hs hs' _ htasks hcontinued hstarts =>
    refine h.sub htick' ?_
    rw [hs, hs', hstarts]
    exact List.perm_middle.symm.subperm
  | stop hs hs' _ htasks hcontinued hstarts =>
    refine h.sub htick' ?_
    rw [hs, hs', hstarts]
    exact .refl _
  | update hs _ hs' _ _ _ hstarts | up hs _ hs' _ _ _ hstarts =>
    refine h.sub htick' ?_
    rw [hs, hs', hstarts]
    exact .refl _

end

/-! ### The ancestors -/

/-- `a` is the highest workflow that the request has come to. The tasks above are as before, but for the one towards `a`,
    and the ancestors up to `a` had no other paused task. -/
structure Climbed (tree : WorkflowTree ω) (w a : ω) (s : TreeRun ω) : Prop where
  under : tree.Under a w
  continued : ∀ x ∈ s.continued, tree.Under a x
  calls : ∀ f ∈ s.stack, ∀ x, Frame.about f = some x → tree.Under a x
  linked : ∀ x p, tree.parent x = some p → ∃ e, s.tasks[tree.task x]? = some e ∧ e.wf = p
  tasks : ∀ k e, s.tasksBefore[k]? = some e → ∃ e', s.tasks[k]? = some e' ∧ e'.wf = e.wf ∧
    (e'.state = e.state ∨ tree.Under a e.wf ∨ k = tree.task a)
  ancestors : ∀ x p, tree.Under x w → tree.parent x = some p → tree.Under a p →
    ∀ k e, s.tasksBefore[k]? = some e → e.wf = p → k ≠ tree.task x → e.state ≠ .paused

variable {a : ω}

section
variable [DecidableEq ω]

theorem Climbed.tasks_step (h : Climbed tree w a s) (hcall : SameCall s s') (htick : ResumeTick tree s s') :
    ∀ k e, s'.tasksBefore[k]? = some e → ∃ e', s'.tasks[k]? = some e' ∧ e'.wf = e.wf ∧
      (e'.state = e.state ∨ tree.Under a e.wf ∨ k = tree.task a) := by
  rw [hcall.2.2]
  intro k e he
  obtain ⟨e₁, he₁, hwf₁, hstate₁⟩ := h.tasks k e he
  obtain ⟨e₂, he₂, hwf₂, hstate₂⟩ := TreeRun.tasks_step htick he₁
  refine ⟨e₂, he₂, hwf₂.trans hwf₁, ?_⟩
  obtain hsame | ⟨x, p, stack, hs, hparent, rfl⟩ := hstate₂
  · rw [hsame]
    exact hstate₁
  · -- The task of `x` is updated, which `a` has started, or a workflow below.
    have hx : tree.Under a x := h.calls _ (hs ▸ List.mem_cons_self) x rfl
    obtain ⟨e', he', hwf'⟩ := h.linked x p hparent
    rw [he₁] at he'
    cases he'
    by_cases hxa : x = a
    · exact .inr (.inr (by rw [hxa]))
    · obtain ⟨q, hq, hunder⟩ := hx.strict hxa
      rw [hparent] at hq
      cases hq
      exact .inr (.inl (by rw [← hwf₁, hwf']; exact hunder))

theorem Climbed.linked_step (h : Climbed tree w a s) (htick : ResumeTick tree s s') :
    ∀ x p, tree.parent x = some p → ∃ e, s'.tasks[tree.task x]? = some e ∧ e.wf = p := fun x p hparent => by
  obtain ⟨e, he, hwf⟩ := h.linked x p hparent
  obtain ⟨e', he', hwf', -⟩ := TreeRun.tasks_step htick he
  exact ⟨e', he', hwf'.trans hwf⟩

/-- A statement for a workflow below `a`. -/
theorem Climbed.keep (h : Climbed tree w a s) (hcall : SameCall s s') (htick : ResumeTick tree s s')
    (hcontinued : ∀ x ∈ s'.continued, tree.Under a x) (hcalls : ∀ f ∈ s'.stack, ∀ x, Frame.about f = some x → tree.Under a x) :
    Climbed tree w a s' :=
  ⟨h.under, hcontinued, hcalls, h.linked_step htick, h.tasks_step hcall htick, by rw [hcall.2.2]; exact h.ancestors⟩

/-- The parent of `a` is resumed: it has no paused task, and the other tasks of it are as before. -/
theorem Climbed.climb (h : Climbed tree w a s) (hcall : SameCall s s') (htick : ResumeTick tree s s')
    (hs : s.stack = .update a :: stack) (hp : ResumesParent tree s a p)
    (hs' : s'.stack = .resumeSubs p (tree.subs p) :: .handler p (tree.task a) :: stack)
    (htasks : s'.tasks = (s.updateTask tree a).tasks) (hcontinued : s'.continued = s.continued) : Climbed tree w p s' := by
  have hbelow : tree.Below p a := WorkflowTree.below_of_parent hp.1
  have htasksStep := h.tasks_step hcall htick
  have hlinked := h.linked_step htick
  refine ⟨hbelow.under.trans h.under, fun x hx => ?_, fun f hf x hx => ?_, hlinked, fun k e he => ?_, ?_⟩
  · rw [hcontinued] at hx
    exact hbelow.under.trans (h.continued x hx)
  · rw [hs'] at hf
    obtain rfl | hf := List.mem_cons.mp hf
    · cases hx
      exact .refl
    obtain rfl | hf := List.mem_cons.mp hf
    · cases hx
    · exact hbelow.under.trans (h.calls f (hs ▸ List.mem_cons_of_mem _ hf) x hx)
  · obtain ⟨e', he', hwf, hstate | hunder | rfl⟩ := htasksStep k e he
    · exact ⟨e', he', hwf, .inl hstate⟩
    · exact ⟨e', he', hwf, .inr (.inl (hbelow.under.trans hunder))⟩
    · obtain ⟨e₁, he₁, hwf₁⟩ := hlinked a p hp.1
      rw [he'] at he₁
      cases he₁
      exact ⟨e', he', hwf, .inr (.inl (by rw [← hwf, hwf₁]; exact .refl))⟩
  · intro x q hx hparent hq k e he hwf hk
    have hcomparable : tree.Under a q ∨ q = p := by
      obtain ha | ha := h.under.comparable ((WorkflowTree.below_of_parent hparent).under.trans hx)
      · exact .inl ha
      · by_cases heq : a = q
        · exact .inl (heq ▸ .refl)
        · obtain ⟨p', hp', hunder⟩ := ha.strict heq
          rw [hp.1] at hp'
          cases hp'
          exact .inr (hq.antisymm hunder)
    obtain ha | rfl := hcomparable
    · rw [hcall.2.2] at he
      exact h.ancestors x q hx hparent ha k e he hwf hk
    · have hxa : x = a := hx.child_unique h.under hparent hp.1
      subst hxa
      intro hpaused
      obtain ⟨e', he', hwf', hstate | hunder | hk'⟩ := htasksStep k e he
      · have hnone := hp.2.2.1
        rw [anyPaused, ← htasks] at hnone
        rw [List.any_eq_false] at hnone
        refine hnone e' (List.mem_of_getElem? he') ?_
        rw [hwf', hwf, hstate, hpaused]
        simp [State.isPaused]
      · rw [hwf] at hunder
        exact hbelow.ne (hunder.antisymm hbelow.under).symm
      · exact hk hk'

/-- Every statement keeps what holds of the ancestors, or climbs. -/
theorem Climbed.step (h : Climbed tree w a s) (hcalls : Calls tree w s) (hcall : SameCall s s') (htick : ResumeTick tree s s') :
    ∃ a, Climbed tree w a s' := by
  have hkeep := h.keep hcall htick
  have habout := h.calls
  cases htick with
  | loopEnd hs hs' hstill | skip hs _ hs' hstill =>
    refine ⟨a, hkeep (fun y hy => h.continued y (hstill.2.2.1 ▸ hy)) ?_⟩
    rw [hs] at habout
    obtain ⟨hhead, htail⟩ := List.forall_mem_cons.mp habout
    rw [hs']
    exact List.forall_mem_cons.mpr ⟨hhead, htail⟩
  | @enter x c todo stack hs _ hs' hstill =>
    have hx : s.ResumingFrame tree (.resumeSubs x (c :: todo)) := hcalls.frames _ (hs ▸ List.mem_cons_self)
    refine ⟨a, hkeep (fun y hy => h.continued y (hstill.2.2.1 ▸ hy)) ?_⟩
    rw [hs] at habout
    obtain ⟨hhead, htail⟩ := List.forall_mem_cons.mp habout
    rw [hs']
    refine List.forall_mem_cons.mpr ⟨fun y hy => ?_, List.forall_mem_cons.mpr ⟨hhead, htail⟩⟩
    cases hy
    exact (hhead x rfl).sub (hx.2 c List.mem_cons_self)
  | @resume x stack cmds hs hcont =>
    rw [hs] at habout
    obtain ⟨hhead, htail⟩ := List.forall_mem_cons.mp habout
    refine ⟨a, hkeep (fun y hy => ?_) ?_⟩
    · rw [hcont.continued] at hy
      obtain rfl | hy := List.mem_cons.mp hy
      · exact hhead y rfl
      · exact h.continued y hy
    · have hupdate : ∀ f ∈ Frame.update x :: stack, ∀ y, Frame.about f = some y → tree.Under a y :=
        List.forall_mem_cons.mpr ⟨hhead, htail⟩
      obtain hs' | hs' := hcont.stack
      · rw [hs']
        exact List.forall_mem_cons.mpr ⟨hhead, hupdate⟩
      · rw [hs']
        exact hupdate
  | pop hs _ _ hs' hstill =>
    refine ⟨a, hkeep (fun y hy => h.continued y (hstill.2.2.1 ▸ hy)) fun f hf => ?_⟩
    exact habout f (hs ▸ List.mem_cons_of_mem _ (hs' ▸ hf))
  | runTask hs hs' _ _ hcontinued _ | runExistingTask hs hs' _ _ hcontinued _ | stop hs hs' _ _ hcontinued _ =>
    refine ⟨a, hkeep (fun y hy => h.continued y (hcontinued ▸ hy)) ?_⟩
    rw [hs] at habout
    obtain ⟨hhead, htail⟩ := List.forall_mem_cons.mp habout
    rw [hs']
    exact List.forall_mem_cons.mpr ⟨hhead, htail⟩
  | update hs _ hs' _ _ hcontinued _ =>
    refine ⟨a, hkeep (fun y hy => h.continued y (hcontinued ▸ hy)) fun f hf => ?_⟩
    exact habout f (hs ▸ List.mem_cons_of_mem _ (hs' ▸ hf))
  | @up x p stack hs hp hs' hwf htasks hcontinued hstarts =>
    by_cases hxa : x = a
    · subst hxa
      exact ⟨p, h.climb hcall (.up hs hp hs' hwf htasks hcontinued hstarts) hs hp hs' htasks hcontinued⟩
    · refine ⟨a, hkeep (fun y hy => h.continued y (hcontinued ▸ hy)) ?_⟩
      rw [hs] at habout
      obtain ⟨hhead, htail⟩ := List.forall_mem_cons.mp habout
      rw [hs']
      refine List.forall_mem_cons.mpr ⟨fun y hy => ?_, List.forall_mem_cons.mpr ⟨nofun, htail⟩⟩
      cases hy
      obtain ⟨q, hq, hunder⟩ := (hhead x rfl).strict hxa
      rw [hp.1] at hq
      cases hq
      exact hunder

/-! ### Resuming -/

/-- What holds in every state of a request to resume. -/
structure ResumeOk (tree : WorkflowTree ω) (w : ω) (s : TreeRun ω) : Prop where
  trail : Trail tree w s
  calls : Calls tree w s
  starts : Starts s
  climbed : ∃ a, Climbed tree w a s

theorem ResumeOk.tick_cases (h : ResumeOk tree w s) (hcall : s.call = .resume w) (hguard : s.Undisturbed tree o)
    (hstack : s.stack ≠ []) : ResumeTick tree s (s.tick tree o) :=
  TreeRun.tick_cases h.trail h.calls hcall hguard hstack

/-- Every statement of a request to resume keeps the invariant. -/
theorem ResumeOk.step (h : ResumeOk tree w s) (hcall : s.call = .resume w) (hguard : s.Undisturbed tree o)
    (hstack : s.stack ≠ []) : ResumeOk tree w (s.tick tree o) := by
  have htick := h.tick_cases (o := o) hcall hguard hstack
  have hsame : SameCall s (s.tick tree o) := sameCall_tick
  obtain ⟨f, stack, hs⟩ := List.exists_cons_of_ne_nil hstack
  obtain ⟨a, ha⟩ := h.climbed
  exact ⟨h.trail.step h.calls hsame htick, h.calls.step h.trail hcall hguard (raised_tick h.calls hcall hguard hs) htick,
    h.starts.step h.trail h.calls htick, ha.step h.calls hsame htick⟩

/-- Every statement decreases the number of paused workflows, or the weight of the stack. -/
theorem ResumeOk.decreases [Fintype ω] (h : ResumeOk tree w s) (hcall : s.call = .resume w) (hguard : s.Undisturbed tree o)
    (hstack : s.stack ≠ []) :
    toLex ((s.tick tree o).count .paused, weight tree (s.tick tree o).stack) <
      toLex (s.count .paused, weight tree s.stack) := by
  have hsame : (∀ y, (s.tick tree o).state y = .paused ↔ s.state y = .paused) →
      weight tree (s.tick tree o).stack < weight tree s.stack →
      toLex ((s.tick tree o).count .paused, weight tree (s.tick tree o).stack) <
        toLex (s.count .paused, weight tree s.stack) := fun hstate hlt => by
    rw [count, count, Finset.filter_congr fun y _ => hstate y]
    exact Prod.Lex.right _ hlt
  cases h.tick_cases (o := o) hcall hguard hstack with
  | loopEnd hs hs' hstill | skip hs _ hs' hstill =>
    refine hsame (same_paused hstill.1) ?_
    rw [hs, hs']
    simp only [weight_cons, Frame.weight, WorkflowTree.loopWeight_cons, WorkflowTree.loopWeight_nil]
    omega
  | enter hs _ hs' hstill =>
    refine hsame (same_paused hstill.1) ?_
    rw [hs, hs']
    simp only [weight_cons, Frame.weight, WorkflowTree.loopWeight_cons, ← WorkflowTree.callWeight_eq]
    omega
  | @pop f stack hs _ _ hs' hstill =>
    refine hsame (same_paused hstill.1) ?_
    rw [hs, hs', weight_cons]
    exact Nat.lt_add_of_pos_left f.weight_pos
  | runTask hs hs' hwf _ _ _ | runExistingTask hs hs' hwf _ _ _ =>
    refine hsame (same_paused hwf) ?_
    rw [hs, hs']
    simp only [weight_cons, Frame.weight, List.length_cons]
    omega
  | @stop x e cmds stack hs hs' hwf _ _ _ =>
    have hx : s.ResumingFrame tree (.commands x (.next (.stop e) :: cmds)) := h.calls.frames _ (hs ▸ List.mem_cons_self)
    obtain ⟨n, hwf, hn⟩ := hwf
    refine hsame (h.trail.same_paused_of_stop hwf hn hx) ?_
    rw [hs, hs']
    simp only [weight_cons, Frame.weight, List.length_cons]
    omega
  | update hs hparent hs' hwf _ _ _ =>
    refine hsame (same_paused hwf) ?_
    rw [hs, hs', weight_cons]
    exact Nat.lt_add_of_pos_left (Frame.weight_pos _)
  | up hs hp hs' hwf _ _ _ =>
    refine hsame (same_paused hwf) ?_
    rw [hs, hs']
    simp only [weight_cons, Frame.weight, ← WorkflowTree.callWeight_eq, hp.1, Option.elim_some]
    omega
  | @resume x stack cmds hs hcont =>
    refine Prod.Lex.left _ _ (Finset.card_lt_card ?_)
    have hx : s.ResumingFrame tree (.resume x) := h.calls.frames _ (hs ▸ List.mem_cons_self)
    obtain ⟨n, hwf, hn⟩ := hcont.wf
    have hnot : n.state ≠ .paused := not_paused_of_continued hn
    have hstate : ∀ y, (s.tick tree o).state y = if y = x then n.state else s.state y := fun y => state_of_update hwf
    refine Finset.ssubset_iff_subset_ne.mpr ⟨fun y hy => ?_, fun heq => ?_⟩
    · simp only [Finset.mem_filter, Finset.mem_univ, true_and, hstate] at hy ⊢
      split at hy
      · exact absurd hy hnot
      · exact hy
    · have hmem : x ∈ Finset.univ.filter fun y => s.state y = .paused := by simpa using hx.1
      rw [← heq] at hmem
      simp only [Finset.mem_filter, Finset.mem_univ, true_and, hstate, if_true] at hmem
      exact hnot hmem

end

/-- When a request to resume has ended, it has done what it has to do. -/
theorem ResumeOk.resumed (h : ResumeOk tree w s) (hstack : s.stack = []) : s.Resumed tree w := by
  have hnone : ∀ x, ¬∃ f ∈ s.stack, IsResume x f := by
    rintro x ⟨f, hf, -⟩
    rw [hstack] at hf
    cases hf
  obtain ⟨a, ha⟩ := h.climbed
  refine ⟨h.calls.raised, fun x hx => ?_, fun x p hx hparent hp hresumed => ?_, h.trail.once, h.trail.continued, ?_, ?_⟩
  · induction hx with
    | refl => exact fun hw => hnone w (h.calls.started hw)
    | @sub x p hp hparent ih => exact fun hx => ih (h.trail.reached x p hp hparent hx)
  · exact ha.ancestors x p hx hparent (ha.continued p ((h.trail.continued p).mpr ⟨hp, hresumed⟩))
  · exact (List.nodup_append.mp h.starts.nodup).1
  · intro x hx
    refine h.trail.kept x fun hpaused => ?_
    rw [hpaused] at hx
    cases hx

theorem resumeOk_start {wf : ω → WorkflowNode} {tasks : List (TaskNode ω)} (hw : (wf w).state = .paused)
    (hstored : ∀ x, (wf x).state.isStored)
    (hlinked : ∀ x p, tree.parent x = some p → tasks[tree.task x]?.map TaskNode.wf = some p)
    (hfits : (start tree (.resume w) wf tasks).Fits tree) : ResumeOk tree w (start tree (.resume w) wf tasks) where
  trail :=
    { stored := hstored
      kept := fun _ _ => rfl
      continued := fun x => iff_of_false List.not_mem_nil fun h => h.2 h.1
      once := .nil
      went := nofun
      reached := hfits }
  calls :=
    { raised := rfl
      frames := List.forall_mem_cons.mpr ⟨⟨hw, fun c hc => tree.mem_subs.mp hc⟩, nofun⟩
      nested := List.pairwise_singleton _ _
      loops := fun x todo hmem c hparent _ => by
        cases List.mem_singleton.mp hmem
        exact .inl (tree.mem_subs.mpr hparent)
      started := fun _ => ⟨_, List.mem_cons_self, .inr ⟨_, rfl⟩⟩ }
  starts := ⟨.nil, nofun⟩
  climbed := by
    refine ⟨w, .refl, nofun, ?_, fun x p hparent => ?_, fun k e he => ⟨e, he, rfl, .inl rfl⟩, ?_⟩
    · refine List.forall_mem_cons.mpr ⟨fun x hx => ?_, nofun⟩
      cases hx
      exact .refl
    · obtain ⟨e, he, hwf⟩ := Option.map_eq_some_iff.mp (hlinked x p hparent)
      exact ⟨e, he, hwf⟩
    · intro x p hx hparent hp
      exact absurd (Nat.le_trans hp.height_le hx.height_le) (Nat.not_le.mpr (tree.height_lt hparent))

/-! ### Requests -/

/-- What holds in every state of a request, if it fits the tree. -/
def RequestOk (tree : WorkflowTree ω) (s : TreeRun ω) : Prop :=
  match s.call with
  | .pause w => ∃ O, PauseOk tree w O s
  | .resume w => ResumeOk tree w s

/-- What a request decreases. -/
def progress [Fintype ω] (tree : WorkflowTree ω) (s : TreeRun ω) : ℕ ×ₗ ℕ :=
  match s.call with
  | .pause _ => toLex (s.count .running, weight tree s.stack)
  | .resume _ => toLex (s.count .paused, weight tree s.stack)

theorem SameCall.fits (h : SameCall s s') (hfits : s.Fits tree) : s'.Fits tree := by
  rw [Fits, h.1, h.2.1]
  exact hfits

section
variable [DecidableEq ω]

/-- Every statement of a request keeps the invariant and comes closer to the end. -/
theorem RequestOk.step [Fintype ω] (h : RequestOk tree s) (hguard : s.Undisturbed tree o) (hstack : s.stack ≠ []) :
    RequestOk tree (s.tick tree o) ∧ (s.tick tree o).progress tree < s.progress tree := by
  have hcall : (s.tick tree o).call = s.call := sameCall_tick.1
  unfold RequestOk progress at *
  rw [hcall]
  cases hs : s.call with rw [hs] at h
  | pause w =>
    obtain ⟨O, hO⟩ := h
    exact ⟨hO.step hstack, hO.decreases hstack⟩
  | resume w => exact ⟨h.step hs hguard hstack, h.decreases hs hguard hstack⟩

omit [DecidableEq ω] in
theorem RequestOk.done (h : RequestOk tree s) (hfits : s.Fits tree) (hstack : s.stack = []) : s.Done tree := by
  unfold RequestOk at h
  unfold Done
  cases hs : s.call with rw [hs] at h
  | pause w =>
    obtain ⟨O, hO⟩ := h
    exact hO.paused hs hfits hstack
  | resume w => exact h.resumed hstack

theorem requestOk_init (h : (treeSystem tree o).init s) :
    s.stack ≠ [] ∧ (s.Fits tree → RequestOk tree s) := by
  obtain ⟨call, wf, tasks, rfl, hvalid, hstored, hlinked⟩ := h
  cases call with
  | pause w => exact ⟨List.cons_ne_nil _ _, fun _ => ⟨_, pauseOk_start hvalid hstored⟩⟩
  | resume w => exact ⟨List.cons_ne_nil _ _, fun hfits => resumeOk_start hvalid hstored hlinked hfits⟩

/-- A request that has ended fits the tree, because its statements do. -/
theorem requestOk_reach [Fintype ω] (h : (treeSystem tree o).Reach (Straight tree o) s) :
    (s.stack ≠ [] ∨ s.Fits tree) ∧ (s.Fits tree → RequestOk tree s) := by
  refine h.invariant (I := fun s => (s.stack ≠ [] ∨ s.Fits tree) ∧ (s.Fits tree → RequestOk tree s)) (fun s hinit => ?_)
    fun s _ _ ih hguard => ?_
  · obtain ⟨hstack, hok⟩ := requestOk_init hinit
    exact ⟨.inl hstack, hok⟩
  · refine ⟨.inr (sameCall_tick.fits hguard.1), fun _ => ?_⟩
    have hok := ih.2 hguard.1
    by_cases hstack : s.stack = []
    · have hsame : s.tick tree o = s := by rw [tick, hstack]
      show RequestOk tree (s.tick tree o)
      rw [hsame]
      exact hok
    · exact (hok.step hguard.2 hstack).1

end
end TreeRun

/-- Requests to pause and to resume a workflow of a tree end, and do what they have to do. -/
theorem tree_pauses_and_resumes {ω : Type} [DecidableEq ω] [Fintype ω] (tree : WorkflowTree ω) (o : TreeOracle ω) :
    TreeRun.PausesAndResumes tree o (TreeRun.Straight tree o) := by
  intro s hreach
  obtain ⟨hends, hok⟩ := TreeRun.requestOk_reach hreach
  refine ⟨?_, fun hstack => ?_⟩
  · have hstep : ∀ s : TreeRun ω, (s.Fits tree → s.RequestOk tree) → s.Straight tree o () → ¬s.stack = [] →
        ((s.tick tree o).Fits tree → (s.tick tree o).RequestOk tree) ∧ (s.tick tree o).progress tree < s.progress tree :=
      fun s hok hguard hstack => by
        obtain ⟨hkeeps, hlt⟩ := (hok hguard.1).step (o := o) hguard.2 hstack
        exact ⟨fun _ => hkeeps, hlt⟩
    exact exists_iterate hstep hok
  · have hfits := hends.resolve_left (absurd hstack)
    exact (hok hfits).done hfits hstack

theorem TreeRun.run_call {ω : Type} [DecidableEq ω] {tree : WorkflowTree ω} {o : TreeOracle ω} {s : TreeRun ω}
    {l : List Unit} : ((treeSystem tree o).run s l).call = s.call := by
  induction l generalizing s with
  | nil => rfl
  | cons _ l ih => exact ih.trans sameCall_tick.1

/-- A workflow with one sub-workflow. -/
def WorkflowTree.pair : WorkflowTree (Fin 2) where
  parent := ![none, some 0]
  task := ![0, 0]
  subs := ![[1], []]
  height := ![1, 0]
  mem_subs {x c} := by decide +revert
  height_lt {x c} := by decide +revert
  root {x y} := by decide +revert

/-- The sub-workflow and an idle task of a paused workflow wait. The update of the sub-workflow resumes the workflow, which
    is resumed once more when the loop over its sub-workflows has ended: its idle task is started twice. -/
theorem update_resumes_workflow_again :
    ¬TreeRun.PausesAndResumes WorkflowTree.pair
      ⟨fun _ => some [], fun _ _ => some [], fun _ => some ⟨.success, none, by decide⟩⟩ fun _ _ => True := by
  intro h
  let o : TreeOracle (Fin 2) := ⟨fun _ => some [], fun _ _ => some [], fun _ => some ⟨.success, none, by decide⟩⟩
  let tasks : List (TaskNode (Fin 2)) := [⟨0, .paused, false⟩, ⟨0, .idle, false⟩, ⟨1, .running, false⟩]
  let s := TreeRun.start WorkflowTree.pair (.resume 0) (fun _ => { state := .paused }) tasks
  let statements := List.replicate 16 ()
  have hinit : (treeSystem WorkflowTree.pair o).init s := ⟨_, _, _, rfl, rfl, fun _ => rfl, by decide⟩
  have hreach : (treeSystem WorkflowTree.pair o).Reach (fun _ _ => True) ((treeSystem WorkflowTree.pair o).run s statements) :=
    .run (.init hinit) (by simp [statements, List.replicate, System.Guarded])
  have hstack : ((treeSystem WorkflowTree.pair o).run s statements).stack = [] := by decide +kernel
  have hstarts : ¬((treeSystem WorkflowTree.pair o).run s statements).starts.Nodup := by decide +kernel
  have hcall : ((treeSystem WorkflowTree.pair o).run s statements).call = .resume 0 := TreeRun.run_call
  generalize (treeSystem WorkflowTree.pair o).run s statements = r at *
  have hdone := (h r hreach).2 hstack
  rw [TreeRun.Done, hcall] at hdone
  exact hstarts hdone.starts

end Mistral
