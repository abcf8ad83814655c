import Mathlib.Algebra.GroupWithZero.Nat
import Mathlib.Data.Fintype.EquivFin
import Mathlib.Data.Fintype.Sets
import Mistral.Theorems.ReverseOnce

/-! A reverse workflow succeeds through its target only, as long as nothing that the target requires is part of a cycle,
    no task is skipped, and the transactions that look for the next tasks load the task executions one after another. -/

namespace Mistral

/-- Nothing that the target requires requires itself. -/
def ReverseWorkflow.Acyclic (w : ReverseWorkflow) : Prop := ∀ n ∈ w.order, ¬Relation.TransGen w.spec.Requires n n

namespace Reverse
variable {τ : Type} {w : ReverseWorkflow} {s s' : Reverse τ} {t u : τ} {tx ux : ReverseTx} {n : String}

/-- Tasks complete, and no transaction loads the task executions while another one that has loaded them is in
    progress. -/
def InTurn (s : Reverse τ) : ReverseEvent τ → Prop
  | .skip _ _ | .pause => False
  | .run t => ∀ tx, s.txs t = some tx → tx.asks ≠ none → tx.success = none →
    ∀ u ux, u ≠ t → s.txs u = some ux → ux.success = none
  | _ => True

/-! ### What is committed, and what a transaction sees -/

/-- An execution of the task is committed. -/
def Exists (s : Reverse τ) (n : String) : Prop := ∃ r ∈ s.rows, r.key = n ∧ r.cell.committed ≠ none

/-- An execution of the task has succeeded. -/
def Done (s : Reverse τ) (n : String) : Prop := ∃ r ∈ s.rows, r.key = n ∧ r.cell.committed = some .success

section
variable [DecidableEq τ]

/-- The transaction sees an execution of the task. -/
def Present (s : Reverse τ) (t : τ) (n : String) : Prop := ∃ r ∈ s.rows, r.key = n ∧ r.cell.read t ≠ none

end

theorem Done.exists (h : s.Done n) : s.Exists n := by
  obtain ⟨r, hr, hkey, hc⟩ := h
  exact ⟨r, hr, hkey, by simp [hc]⟩

/-! ### Rows and transactions -/

/-- The transaction that starts the workflow is alone, and every other one has updated a task that was not completed. -/
structure Working (s : Reverse τ) : Prop where
  unstarted : s.wf.committed = .idle → (∀ r ∈ s.rows, r.cell.committed = none) ∧
    ∀ t, s.txs t ≠ none → s.wf.pending = some (t, .running)
  started : s.wf.committed ≠ .idle → s.wf.pending = none ∧ ∀ t, s.txs t ≠ none → ∃ r ∈ s.rows,
    r.cell.pending.map Prod.fst = some t ∧ ∃ old, r.cell.committed = some old ∧ old.isCompleted = false
  notPaused : s.wf.committed ≠ .paused
  active : ∀ r ∈ s.rows, ∀ u v, r.cell.pending = some (u, v) → s.txs u ≠ none ∧ v ≠ none ∧ v ≠ some .skipped
  notSkipped : ∀ r ∈ s.rows, r.cell.committed ≠ some .skipped

theorem Working.create (h : s.Working) (htx : s.txs t = some tx) :
    ({ s with rows := s.rows ++ [⟨n, { committed := none, pending := some (t, some .idle) }⟩] } : Reverse τ).Working := by
  refine ⟨fun hidle => ⟨fun r hr => ?_, (h.unstarted hidle).2⟩, fun hidle => ⟨(h.started hidle).1, fun u hu => ?_⟩,
    h.notPaused, fun r hr u v hp => ?_, fun r hr => ?_⟩
  · obtain hr | hr := List.mem_append.mp hr
    · exact (h.unstarted hidle).1 r hr
    · obtain rfl := List.mem_singleton.mp hr
      rfl
  · obtain ⟨r, hr, hr'⟩ := (h.started hidle).2 u hu
    exact ⟨r, List.mem_append_left _ hr, hr'⟩
  · obtain hr | hr := List.mem_append.mp hr
    · exact h.active r hr u v hp
    · obtain rfl := List.mem_singleton.mp hr
      cases hp
      exact ⟨by simp [htx], nofun, nofun⟩
  · obtain hr | hr := List.mem_append.mp hr
    · exact h.notSkipped r hr
    · obtain rfl := List.mem_singleton.mp hr
      nofun

/-- The row that `complete` updates, in the new list. -/
theorem updated_mem {i : Nat} {st : State} {r : Row τ State} (hrow : s.rows[i]? = some r) :
    ({ r with cell := r.cell.write t (some st) } : Row τ State) ∈ (s.write t i st).rows := by
  refine List.mem_of_getElem? (i := i) ?_
  simp [write, hrow]

/-- Every other row stays. -/
theorem mem_write_of_ne {i : Nat} {st : State} {r r' : Row τ State} (hrow : s.rows[i]? = some r) (hr' : r' ∈ s.rows)
    (hne : r' ≠ r) : r' ∈ (s.write t i st).rows := by
  obtain ⟨j, hj⟩ := List.mem_iff_getElem?.mp hr'
  have hij : i ≠ j := by
    rintro rfl
    exact hne (Option.some.inj (hj.symm.trans hrow))
  exact List.mem_of_getElem? (i := j) (by simp [write, hij, hj])

/-- Before the workflow has started, nobody else is there. -/
theorem Working.alone (h : s.Working) (htx : s.txs t ≠ none) (hidle : s.wf.committed = .idle) (hu : u ≠ t) :
    s.txs u = none := by
  by_contra hne
  have hp := ((h.unstarted hidle).2 t htx).symm.trans ((h.unstarted hidle).2 u hne)
  exact hu (by simpa using hp.symm)

section
variable [DecidableEq τ]

/-- A transaction goes on. -/
theorem Working.setTx (h : s.Working) (htx : s.txs t = some tx) : (s.setTx t (some ux)).Working := by
  have htxs : ∀ {u}, (s.setTx t (some ux)).txs u ≠ none ↔ s.txs u ≠ none := fun {u} => by
    rw [txs_setTx]
    split
    next heq => simp [heq, htx]
    next => exact Iff.rfl
  refine ⟨fun hidle => ⟨(h.unstarted hidle).1, fun u hu => (h.unstarted hidle).2 u (htxs.mp hu)⟩,
    fun hidle => ⟨(h.started hidle).1, fun u hu => (h.started hidle).2 u (htxs.mp hu)⟩, h.notPaused,
    fun r hr u v hp => ?_, h.notSkipped⟩
  obtain ⟨hu, hv⟩ := h.active r hr u v hp
  exact ⟨htxs.mpr hu, hv⟩

theorem Working.complete {i : Nat} {r : Row τ State} {old st : State} (h : s.Working) (hrow : s.rows[i]? = some r)
    (hcell : r.cell = ⟨some old, none⟩) (hold : old.isCompleted = false) (hns : st ≠ .skipped) :
    ((s.write t i st).setTx t (some ux)).Working := by
  have hstarted : s.wf.committed ≠ .idle := fun hidle => by
    have := (h.unstarted hidle).1 r (List.mem_of_getElem? hrow)
    simp [hcell] at this
  refine ⟨fun hidle => absurd hidle hstarted, fun _ => ⟨(h.started hstarted).1, fun u hu => ?_⟩, h.notPaused,
    fun r' hr' u v hp => ?_, fun r' hr' => ?_⟩
  · rw [txs_setTx] at hu
    split at hu
    next heq =>
      subst heq
      exact ⟨_, updated_mem hrow, by simp [Cell.write], old, by simp [Cell.write, hcell], hold⟩
    next =>
      obtain ⟨r', hr', hp, hold'⟩ := (h.started hstarted).2 u hu
      refine ⟨r', mem_write_of_ne hrow hr' ?_, hp, hold'⟩
      rintro rfl
      simp [hcell] at hp
  · rw [txs_setTx]
    obtain hr' | rfl := mem_write hrow hr'
    · obtain ⟨hu, hv⟩ := h.active r' hr' u v hp
      refine ⟨?_, hv⟩
      split
      · rintro ⟨⟩
      · exact hu
    · cases hp
      exact ⟨by simp, (by rintro ⟨⟩), by simpa using hns⟩
  · obtain hr' | rfl := mem_write hrow hr'
    · exact h.notSkipped r' hr'
    · simpa [Cell.write] using h.notSkipped r (List.mem_of_getElem? hrow)

/-- The end of a transaction. Its workflow state is the one it wrote, if it commits, or the old one. -/
theorem Working.finish {f : Cell τ (Option State) → Cell τ (Option State)} {wf : Cell τ State} (h : s.Working)
    (hsame : ∀ c, c.pending.map Prod.fst ≠ some t → f c = c)
    (hends : ∀ c, c.pending.map Prod.fst = some t → (f c).pending = none)
    (hcommitted : ∀ c, (f c).committed = c.committed ∨ ∃ v, c.pending = some (t, v) ∧ (f c).committed = v)
    (hunstarted : wf.committed = .idle → (∀ r ∈ s.rows, (f r.cell).committed = none) ∧
      ∀ u, u ≠ t → s.txs u = none)
    (hwf : wf.committed ≠ .paused) (hpending : wf.committed ≠ .idle → wf.pending = none)
    (hstarted : wf.committed ≠ .idle → s.wf.committed = .idle → ∀ u, u ≠ t → s.txs u = none) :
    ({ s with wf, rows := s.rows.map fun r => { r with cell := f r.cell }, txs := Function.update s.txs t none } :
      Reverse τ).Working := by
  have htxs : ∀ {u}, Function.update s.txs t none u ≠ none → s.txs u ≠ none ∧ u ≠ t := fun {u} hu => by
    rw [Function.update_apply] at hu
    split at hu
    · exact absurd rfl hu
    next hne => exact ⟨hu, hne⟩
  refine ⟨fun hidle => ⟨fun r hr => ?_, fun u hu => ?_⟩, fun hidle => ⟨hpending hidle, fun u hu => ?_⟩, hwf,
    fun r hr u v hp => ?_, fun r hr => ?_⟩
  · obtain ⟨r₀, hr₀, rfl⟩ := List.mem_map.mp hr
    exact (hunstarted hidle).1 r₀ hr₀
  · exact absurd ((hunstarted hidle).2 u (htxs hu).2) (htxs hu).1
  · obtain ⟨hu, hne⟩ := htxs hu
    by_cases hold : s.wf.committed = .idle
    · exact absurd (hstarted hidle hold u hne) hu
    · obtain ⟨r, hr, hp, hold⟩ := (h.started hold).2 u hu
      have heq : f r.cell = r.cell := hsame _ (by simpa [hp] using hne)
      exact ⟨_, List.mem_map.mpr ⟨r, hr, rfl⟩, by simp only [heq, hp], by simpa only [heq] using hold⟩
  · obtain ⟨r₀, hr₀, rfl⟩ := List.mem_map.mp hr
    have hne : r₀.cell.pending.map Prod.fst ≠ some t := fun hp₀ => by
      rw [hends _ hp₀] at hp
      cases hp
    simp only [hsame _ hne] at hp
    obtain ⟨hu, hv⟩ := h.active r₀ hr₀ u v hp
    have hut : u ≠ t := by
      rintro rfl
      exact hne (by simp [hp])
    exact ⟨by simpa [Function.update_apply, hut] using hu, hv⟩
  · obtain ⟨r₀, hr₀, rfl⟩ := List.mem_map.mp hr
    obtain heq | ⟨v, hp, heq⟩ := hcommitted r₀.cell
    · simpa only [heq] using h.notSkipped r₀ hr₀
    · simpa only [heq] using (h.active r₀ hr₀ t v hp).2.2

theorem Working.commit (h : s.Working) (htx : s.txs t ≠ none) : (s.commit t).Working := by
  have hnew : (s.wf.commit t).committed ≠ .idle := fun hidle => by
    by_cases hold : s.wf.committed = .idle
    · rw [Cell.commit_of_pending ((h.unstarted hold).2 t htx)] at hidle
      cases hidle
    · rw [Cell.commit_of_ne (by simp [(h.started hold).1])] at hidle
      exact hold hidle
  refine h.finish (f := fun c => c.commit t) (fun c => Cell.commit_of_ne) (fun c hp => by simp [Cell.commit, hp]) (fun c => ?_)
    (fun hidle => absurd hidle hnew) ?_ (fun _ => ?_) fun _ hidle u hu => h.alone htx hidle hu
  · rcases hp : c.pending with _ | ⟨u, v⟩
    · exact .inl (by rw [Cell.commit_of_ne (by simp [hp])])
    · by_cases hut : u = t
      · subst hut
        exact .inr ⟨v, rfl, by rw [Cell.commit_of_pending hp]⟩
      · exact .inl (by rw [Cell.commit_of_ne (by simpa [hp] using hut)])
  · by_cases hold : s.wf.committed = .idle
    · rw [Cell.commit_of_pending ((h.unstarted hold).2 t htx)]
      rintro ⟨⟩
    · rw [Cell.commit_of_ne (by simp [(h.started hold).1])]
      exact h.notPaused
  · by_cases hold : s.wf.committed = .idle
    · rw [Cell.commit_of_pending ((h.unstarted hold).2 t htx)]
    · rw [Cell.commit_of_ne (by simp [(h.started hold).1])]
      exact (h.started hold).1

theorem Working.rollback (h : s.Working) (htx : s.txs t ≠ none) : (s.rollback t).Working := by
  refine h.finish (f := fun c => c.rollback t) (fun c => Cell.rollback_of_ne) (fun c hp => by simp [Cell.rollback, hp])
    (fun c => .inl Cell.committed_rollback) (fun hidle => ?_) ?_ (fun hidle => ?_) fun hidle hold => ?_ <;>
    rw [Cell.committed_rollback] at *
  · exact ⟨fun r hr => by rw [Cell.committed_rollback, (h.unstarted hidle).1 r hr], fun u hu => h.alone htx hidle hu⟩
  · exact h.notPaused
  · rw [Cell.rollback_of_ne (by simp [(h.started hidle).1])]
    exact (h.started hidle).1
  · exact absurd hold hidle

/-! ### No task is overlooked -/

/-- Transactions look for the next tasks. -/
def Open (s : Reverse τ) : Prop := s.wf.committed = .idle ∨ s.wf.committed = .running

/-- Every task that requires something has an execution. -/
def AllExist (w : ReverseWorkflow) (s : Reverse τ) : Prop :=
  ∀ n ∈ w.order, w.spec.getTaskRequires n ≠ [] → s.Exists n

/-- Where the tasks are that the transaction started with. -/
def Looked (w : ReverseWorkflow) (s : Reverse τ) (t : τ) (tx : ReverseTx) : Prop :=
  ∀ n ∈ w.order, n ∈ tx.todo ∨ tx.asks = some n ∨ n ∈ tx.cmds ∨ s.Present t n ∨
    w.spec.getTaskRequires n ≠ [] ∧ ∃ names, tx.success = some names ∧ ∃ req ∈ w.spec.getTaskRequires n, req ∉ names

/-- The invariant: where a task can start, its execution exists or a transaction is about to create it. -/
structure Covered (w : ReverseWorkflow) (s : Reverse τ) : Prop where
  initial : s.wf.committed ≠ .idle → ∀ n ∈ w.order, w.spec.getTaskRequires n = [] → s.Exists n
  next : s.wf.committed = .running → ∀ n ∈ w.order, w.spec.getTaskRequires n ≠ [] →
    (∀ req ∈ w.spec.getTaskRequires n, s.Done req) → s.Exists n
  looked : s.Open → ∀ t tx, s.txs t = some tx → s.Looked w t tx
  loaded : s.Open → ∀ t tx names, s.txs t = some tx → tx.success = some names →
    ∀ n, s.Done n → n ∈ names ∨ s.AllExist w
  own : ∀ t tx names, s.txs t = some tx → tx.success = some names →
    ∀ r ∈ s.rows, r.cell.pending = some (t, some .success) → r.key ∈ names
  single : ∀ t u tx ux, s.txs t = some tx → s.txs u = some ux → tx.success ≠ none → ux.success ≠ none → t = u

/-- What the rows are to others after a step of `t` that does not commit. -/
structure Grows (s s' : Reverse τ) (t : τ) : Prop where
  exist : ∀ n, s.Exists n → s'.Exists n
  done : ∀ n, s'.Done n → s.Done n
  present : ∀ u n, u ≠ t → s.Present u n → s'.Present u n
  pending : ∀ r' ∈ s'.rows, ∀ u, u ≠ t → r'.cell.pending = some (u, some .success) →
    ∃ r ∈ s.rows, r.key = r'.key ∧ r.cell.pending = some (u, some .success)

theorem Grows.of_rows (hrows : s'.rows = s.rows) : Grows s s' t := by
  constructor <;> simp only [Exists, Done, Present, hrows]
  exacts [fun _ => id, fun _ => id, fun _ _ _ => id, fun r hr _ _ hp => ⟨r, hr, rfl, hp⟩]

theorem Grows.looked (h : Grows s s' t) (hu : u ≠ t) (hl : s.Looked w u ux) : s'.Looked w u ux := by
  intro n hn
  obtain h' | h' | h' | h' | h' := hl n hn
  · exact .inl h'
  · exact .inr (.inl h')
  · exact .inr (.inr (.inl h'))
  · exact .inr (.inr (.inr (.inl (h.present u n hu h'))))
  · exact .inr (.inr (.inr (.inr h')))

/-- Transactions other than `t` are as before. -/
theorem Covered.grow (h : s.Covered w) (hg : Grows s s' t) (hwf : s'.wf.committed = s.wf.committed)
    (htxs : ∀ u, u ≠ t → s'.txs u = s.txs u)
    (hlooked : s.Open → ∀ ux, s'.txs t = some ux → s'.Looked w t ux)
    (hnames : ∀ ux names, s'.txs t = some ux → ux.success = some names →
      (s.Open → ∀ n, s.Done n → n ∈ names ∨ s.AllExist w) ∧
      (∀ r ∈ s'.rows, r.cell.pending = some (t, some .success) → r.key ∈ names) ∧
      ∀ u vx, u ≠ t → s.txs u = some vx → vx.success = none) : s'.Covered w := by
  have hall : s.AllExist w → s'.AllExist w := fun hall n hn hreq => hg.exist n (hall n hn hreq)
  have hopen : s'.Open → s.Open := by
    unfold Open
    rw [hwf]
    exact id
  refine { initial := fun hidle n hn hreq => hg.exist n (h.initial (hwf ▸ hidle) n hn hreq),
           next := fun hrun n hn hreq hdone => hg.exist n (h.next (hwf ▸ hrun) n hn hreq fun r hr => hg.done r (hdone r hr)),
           looked := fun ho u ux hu => ?_, loaded := fun ho u ux names hu hs n hn => ?_,
           own := fun u ux names hu hs r hr hp => ?_, single := fun u v ux vx hu hv hus hvs => ?_ }
  · by_cases hut : u = t
    · subst hut
      exact hlooked (hopen ho) ux hu
    · exact hg.looked hut (h.looked (hopen ho) u ux (htxs u hut ▸ hu))
  · have hn := hg.done n hn
    by_cases hut : u = t
    · subst hut
      exact ((hnames ux names hu hs).1 (hopen ho) n hn).imp_right hall
    · exact (h.loaded (hopen ho) u ux names (htxs u hut ▸ hu) hs n hn).imp_right hall
  · by_cases hut : u = t
    · subst hut
      exact (hnames ux names hu hs).2.1 r hr hp
    · obtain ⟨r₀, hr₀, hkey, hp⟩ := hg.pending r hr u hut hp
      exact hkey ▸ h.own u ux names (htxs u hut ▸ hu) hs r₀ hr₀ hp
  · obtain ⟨unames, hun⟩ := Option.ne_none_iff_exists'.mp hus
    obtain ⟨vnames, hvn⟩ := Option.ne_none_iff_exists'.mp hvs
    by_cases hut : u = t <;> by_cases hvt : v = t
    · rw [hut, hvt]
    · subst hut
      exact absurd ((hnames ux unames hu hun).2.2 v vx hvt (htxs v hvt ▸ hv)) hvs
    · subst hvt
      exact absurd ((hnames vx vnames hv hvn).2.2 u ux hut (htxs u hut ▸ hu)) hus
    · exact h.single u v ux vx (htxs u hut ▸ hu) (htxs v hvt ▸ hv) hus hvs

/-- A transaction goes on without loading anything or writing. -/
theorem Covered.setTx (h : s.Covered w) (htx : s.txs t = some tx) (hsuccess : ux.success = tx.success)
    (hlooked : s.Open → s.Looked w t ux) : (s.setTx t (some ux)).Covered w := by
  refine h.grow (t := t) (.of_rows rfl) rfl (fun u hu => by simp [txs_setTx, hu]) (fun ho vx hv => ?_) fun vx names hv hs => ?_
  · rw [txs_setTx, if_pos rfl] at hv
    cases hv
    exact hlooked ho
  · rw [txs_setTx, if_pos rfl] at hv
    cases hv
    rw [hsuccess] at hs
    refine ⟨fun ho => h.loaded ho t tx names htx hs, h.own t tx names htx hs, fun u vx hu hvx => ?_⟩
    by_contra hne
    exact hu (h.single u t vx tx hvx htx hne (by simp [hs]))

/-- A task is updated, and a transaction begins that looks at all tasks of an open workflow. -/
theorem Covered.complete {i : Nat} {r : Row τ State} {old st : State} (h : s.Covered w) (hrow : s.rows[i]? = some r)
    (hcell : r.cell = ⟨some old, none⟩) :
    ((s.write t i st).setTx t (some { todo := if s.wf.committed.isPausedOrCompleted then [] else w.order })).Covered w := by
  have hback : ∀ r' ∈ (s.write t i st).rows, ∃ r₀ ∈ s.rows, r₀.key = r'.key ∧ r₀.cell.committed = r'.cell.committed ∧
      ∀ u v, u ≠ t → r'.cell.pending = some (u, v) → r₀.cell.pending = some (u, v) := fun r' hr' => by
    obtain hr' | rfl := mem_write hrow hr'
    · exact ⟨r', hr', rfl, rfl, fun _ _ _ => id⟩
    · refine ⟨r, List.mem_of_getElem? hrow, rfl, rfl, fun u v hu hp => ?_⟩
      cases hp
      exact absurd rfl hu
  have hforth : ∀ r₀ ∈ s.rows, ∃ r' ∈ (s.write t i st).rows, r'.key = r₀.key ∧ r'.cell.committed = r₀.cell.committed ∧
      ∀ u, u ≠ t → r'.cell.read u = r₀.cell.read u := fun r₀ hr₀ => by
    by_cases heq : r₀ = r
    · subst heq
      refine ⟨_, updated_mem hrow, rfl, rfl, fun u hu => Cell.read_write_of_free (fun v hv => ?_) hu⟩
      simp [hcell, Cell.Blocks] at hv
    · exact ⟨r₀, mem_write_of_ne hrow hr₀ heq, rfl, rfl, fun _ _ => rfl⟩
  refine h.grow (t := t) { exist := fun n hn => ?_, done := fun n hn => ?_, present := fun u n hu hn => ?_,
                           pending := fun r' hr' u hu hp => ?_ }
    rfl (fun u hu => by simp [txs_setTx, hu, write]) (fun ho ux hu n hn => ?_) fun ux names hu hs => ?_
  · obtain ⟨r₀, hr₀, hkey, hc⟩ := hn
    obtain ⟨r', hr', hkey', hc', -⟩ := hforth r₀ hr₀
    exact ⟨r', hr', hkey'.trans hkey, hc' ▸ hc⟩
  · obtain ⟨r', hr', hkey, hc⟩ := hn
    obtain ⟨r₀, hr₀, hkey', hc', -⟩ := hback r' hr'
    exact ⟨r₀, hr₀, hkey'.trans hkey, hc'.trans hc⟩
  · obtain ⟨r₀, hr₀, hkey, hread⟩ := hn
    obtain ⟨r', hr', hkey', -, hread'⟩ := hforth r₀ hr₀
    exact ⟨r', hr', hkey'.trans hkey, by rwa [hread' u hu]⟩
  · obtain ⟨r₀, hr₀, hkey', -, hp'⟩ := hback r' hr'
    exact ⟨r₀, hr₀, hkey', hp' u _ hu hp⟩
  · rw [txs_setTx, if_pos rfl] at hu
    cases hu
    have hrun : s.wf.committed.isPausedOrCompleted = false := by
      obtain ho | ho := ho <;> rw [ho] <;> decide
    exact .inl (by simpa [hrun] using hn)
  · rw [txs_setTx, if_pos rfl] at hu
    cases hu
    cases hs

theorem Covered.create {cmds : List String} (h : s.Covered w) (htx : s.txs t = some tx) (hcmds : tx.cmds = n :: cmds) :
    ({ s.setTx t (some { tx with cmds }) with
      rows := s.rows ++ [⟨n, { committed := none, pending := some (t, some .idle) }⟩] } : Reverse τ).Covered w := by
  have hold : ∀ {p : Row τ State → Prop}, (∃ r ∈ s.rows, p r) →
      ∃ r ∈ s.rows ++ [⟨n, { committed := none, pending := some (t, some .idle) }⟩], p r := fun ⟨r, hr, hp⟩ =>
    ⟨r, List.mem_append_left _ hr, hp⟩
  have hnew : ∀ {p : Row τ State → Prop}, (∃ r ∈ s.rows ++ [⟨n, { committed := none, pending := some (t, some .idle) }⟩], p r) →
      ¬p ⟨n, { committed := none, pending := some (t, some .idle) }⟩ → ∃ r ∈ s.rows, p r := fun ⟨r, hr, hp⟩ hne => by
    obtain hr | hr := List.mem_append.mp hr
    · exact ⟨r, hr, hp⟩
    · exact absurd (List.mem_singleton.mp hr ▸ hp) hne
  refine h.grow (t := t) { exist := fun m => hold, done := fun m hm => hnew hm (by simp), present := fun u m hu => hold,
                           pending := fun r hr u hu hp => ?_ }
    rfl (fun u hu => by simp [txs_setTx, hu]) (fun ho ux hux m hm => ?_) fun ux names hux hs => ?_
  · obtain hr | hr := List.mem_append.mp hr
    · exact ⟨r, hr, rfl, hp⟩
    · obtain rfl := List.mem_singleton.mp hr
      cases hp
  · simp only [txs_setTx, if_true, Option.some.injEq] at hux
    subst hux
    obtain h' | h' | h' | h' | h' := h.looked ho t tx htx m hm
    · exact .inl h'
    · exact .inr (.inl h')
    · obtain rfl | h' := List.mem_cons.mp (hcmds ▸ h')
      · refine .inr (.inr (.inr (.inl ⟨_, List.mem_append_right _ (List.mem_singleton_self _), rfl, ?_⟩)))
        rw [Cell.read_of_pending rfl]
        nofun
      · exact .inr (.inr (.inl h'))
    · exact .inr (.inr (.inr (.inl (hold h'))))
    · exact .inr (.inr (.inr (.inr h')))
  · simp only [txs_setTx, if_true, Option.some.injEq] at hux
    subst hux
    refine ⟨fun ho => h.loaded ho t tx names htx hs, fun r hr hp => ?_, fun u vx hu hvx => ?_⟩
    · obtain hr | hr := List.mem_append.mp hr
      · exact h.own t tx names htx hs r hr hp
      · obtain rfl := List.mem_singleton.mp hr
        cases hp
    · by_contra hne
      exact hu (h.single u t vx tx hvx htx hne (by simp [show tx.success = some names from hs]))

/-- The requirements of a task are checked; the task executions may be loaded for it. -/
theorem Covered.require {success found : List String} (h : s.Covered w) (hloaded : s.Loaded w) (htx : s.txs t = some tx)
    (hasks : tx.asks = some n) (hsuccess : success = tx.success.getD (s.successNames t))
    (hfound : found = if (w.spec.getTaskRequires n).all (· ∈ success) then [n] else [])
    (hturn : tx.success = none → ∀ u ux, u ≠ t → s.txs u = some ux → ux.success = none) :
    (s.setTx t (some { tx with asks := none, success := some success, cmds := tx.cmds ++ found })).Covered w := by
  refine h.grow (t := t) (.of_rows rfl) rfl (fun u hu => by simp [txs_setTx, hu]) (fun ho ux hux m hm => ?_)
    fun ux names hux hs => ?_
  · simp only [txs_setTx, if_true, Option.some.injEq] at hux
    subst hux
    obtain h' | h' | h' | h' | ⟨hreq, names, hnames, h'⟩ := h.looked ho t tx htx m hm
    · exact .inl h'
    · obtain rfl := Option.some.inj (hasks.symm.trans h')
      by_cases hall : (w.spec.getTaskRequires n).all (· ∈ success)
      · exact .inr (.inr (.inl (List.mem_append_right _ (by simp [hfound, hall]))))
      · obtain ⟨req, hreq, hmem⟩ : ∃ req ∈ w.spec.getTaskRequires n, req ∉ success := by simpa using hall
        exact .inr (.inr (.inr (.inr ⟨List.ne_nil_of_mem hreq, success, rfl, req, hreq, hmem⟩)))
    · exact .inr (.inr (.inl (List.mem_append_left _ h')))
    · exact .inr (.inr (.inr (.inl h')))
    · refine .inr (.inr (.inr (.inr ⟨hreq, success, rfl, ?_⟩)))
      rwa [hsuccess, hnames]
  · simp only [txs_setTx, if_true, Option.some.injEq] at hux
    subst hux
    obtain rfl := Option.some.inj hs
    rcases hold : tx.success with _ | names
    · rw [hold, Option.getD_none] at hsuccess
      subst hsuccess
      refine ⟨fun ho m ⟨r, hr, hkey, hc⟩ => .inl ?_, fun r hr hp => ?_, hturn hold⟩
      · refine List.mem_map.mpr ⟨r, List.mem_filter.mpr ⟨hr, ?_⟩, hkey⟩
        rw [Cell.read_of_none (hloaded.settled r hr hc), hc]
        rfl
      · refine List.mem_map.mpr ⟨r, List.mem_filter.mpr ⟨hr, ?_⟩, rfl⟩
        rw [Cell.read_of_pending hp]
        rfl
    · rw [hold, Option.getD_some] at hsuccess
      subst hsuccess
      refine ⟨fun ho => h.loaded ho t tx _ htx hold, h.own t tx _ htx hold, fun u vx hu hvx => ?_⟩
      by_contra hne
      exact hu (h.single u t vx tx hvx htx hne (by simp [hold]))

theorem Covered.rollback (h : s.Covered w) : (s.rollback t).Covered w := by
  have hback : ∀ r' ∈ (s.rollback t).rows, ∃ r ∈ s.rows, { r with cell := r.cell.rollback t } = r' := fun r' hr' => by
    obtain ⟨r, hr, heq⟩ := List.mem_map.mp hr'
    exact ⟨r, hr, heq⟩
  have hforth : ∀ r ∈ s.rows, ({ r with cell := r.cell.rollback t } : Row τ State) ∈ (s.rollback t).rows := fun r hr =>
    List.mem_map.mpr ⟨r, hr, rfl⟩
  refine h.grow (t := t) { exist := fun n ⟨r, hr, hkey, hc⟩ => ?_, done := fun n ⟨r', hr', hkey, hc⟩ => ?_,
                           present := fun u n hu ⟨r, hr, hkey, hread⟩ => ?_, pending := fun r' hr' u hu hp => ?_ }
    Cell.committed_rollback (fun u hu => by simp [Reverse.rollback, hu]) (fun _ ux hu => ?_) fun ux names hu => ?_
  · exact ⟨_, hforth r hr, hkey, by simpa using hc⟩
  · obtain ⟨r, hr, rfl⟩ := hback r' hr'
    exact ⟨r, hr, hkey, by simpa using hc⟩
  · exact ⟨_, hforth r hr, hkey, by rwa [Cell.read_rollback hu]⟩
  · obtain ⟨r, hr, rfl⟩ := hback r' hr'
    exact ⟨r, hr, rfl, (Cell.pending_rollback hp).1⟩
  · simp [Reverse.rollback] at hu
  · simp [Reverse.rollback] at hu

/-- What a transaction saw exists when it has committed, and what others saw they still see. -/
theorem Present.commit (hw : s.Working) (h : s.Present u n) : (s.commit t).Present u n := by
  obtain ⟨r, hr, hkey, hread⟩ := h
  refine ⟨_, List.mem_map.mpr ⟨r, hr, rfl⟩, hkey, ?_⟩
  rcases hp : r.cell.pending with _ | ⟨v, x⟩
  · simpa only [Cell.commit_of_ne (t := t) (c := r.cell) (by simp [hp])] using hread
  · by_cases hv : v = t
    · subst hv
      simp only [Cell.commit_of_pending hp, Cell.read_of_none]
      exact (hw.active r hr v x hp).2.1
    · simpa only [Cell.commit_of_ne (t := t) (c := r.cell) (by simpa [hp] using hv)] using hread

theorem Present.exists_commit (h : s.Present t n) : (s.commit t).Exists n := by
  obtain ⟨r, hr, hkey, hread⟩ := h
  exact ⟨_, List.mem_map.mpr ⟨r, hr, rfl⟩, hkey, by rwa [Cell.committed_commit]⟩

theorem Exists.present (hw : s.Working) (h : s.Exists n) : s.Present t n := by
  obtain ⟨r, hr, hkey, hc⟩ := h
  refine ⟨r, hr, hkey, ?_⟩
  rcases hp : r.cell.pending with _ | ⟨v, x⟩
  · rwa [Cell.read_of_none hp]
  · by_cases hv : v = t
    · subst hv
      rw [Cell.read_of_pending hp]
      exact (hw.active r hr v x hp).2.1
    · rwa [Cell.read_of_ne hp hv]

/-- What a commit adds to the tasks in `SUCCESS` is what the transaction wrote. -/
theorem Done.of_commit (h : (s.commit t).Done n) :
    s.Done n ∨ ∃ r ∈ s.rows, r.key = n ∧ r.cell.pending = some (t, some .success) := by
  obtain ⟨r', hr', hkey, hc⟩ := h
  obtain ⟨r, hr, rfl⟩ := List.mem_map.mp hr'
  rw [Cell.committed_commit] at hc
  rcases hp : r.cell.pending with _ | ⟨v, x⟩
  · rw [Cell.read_of_none hp] at hc
    exact .inl ⟨r, hr, hkey, hc⟩
  · by_cases hv : v = t
    · subst hv
      rw [Cell.read_of_pending hp] at hc
      exact .inr ⟨r, hr, hkey, by rw [hp, hc]⟩
    · rw [Cell.read_of_ne hp hv] at hc
      exact .inl ⟨r, hr, hkey, hc⟩

theorem Covered.commit (h : s.Covered w) (hw : s.Working) (htx : s.txs t = some tx) (hasks : tx.asks = none)
    (htodo : tx.todo = []) (hcmds : tx.cmds = []) : (s.commit t).Covered w := by
  have hmono : ∀ {m}, s.Exists m → (s.commit t).Exists m := fun hm => (hm.present hw).exists_commit
  have hlooked : s.Open → ∀ m ∈ w.order, (s.commit t).Exists m ∨ w.spec.getTaskRequires m ≠ [] ∧
      ∃ names, tx.success = some names ∧ ∃ req ∈ w.spec.getTaskRequires m, req ∉ names := fun ho m hm => by
    obtain h' | h' | h' | h' | h' := h.looked ho t tx htx m hm
    · simp [htodo] at h'
    · simp [hasks] at h'
    · simp [hcmds] at h'
    · exact .inl h'.exists_commit
    · exact .inr h'
  have hwf : s.wf.committed = .idle ∨ (s.commit t).wf.committed = s.wf.committed := by
    by_cases hidle : s.wf.committed = .idle
    · exact .inl hidle
    · exact .inr (by simp only [Reverse.commit, Cell.commit_of_ne (t := t) (c := s.wf) (by simp [(hw.started hidle).1])])
  have hopen : (s.commit t).Open → s.Open := fun ho => by
    obtain hidle | heq := hwf
    · exact .inl hidle
    · unfold Open at ho ⊢
      rwa [heq] at ho
  have htxs : ∀ {u ux}, (s.commit t).txs u = some ux → u ≠ t ∧ s.txs u = some ux := fun {u ux} hu => by
    simp only [Reverse.commit, Function.update_apply] at hu
    split at hu
    · cases hu
    next hne => exact ⟨hne, hu⟩
  refine { initial := fun hidle n hn hreq => ?_, next := fun hrun n hn hreq hdone => ?_, looked := fun ho u ux hu n hn => ?_,
           loaded := fun ho u ux names hu hs n hn => ?_, own := fun u ux names hu hs r hr hp => ?_,
           single := fun u v ux vx hu hv => h.single u v ux vx (htxs hu).2 (htxs hv).2 }
  · obtain hold | heq := hwf
    · exact (hlooked (.inl hold) n hn).resolve_right fun h' => h'.1 hreq
    · exact hmono (h.initial (heq ▸ hidle) n hn hreq)
  · have ho := hopen (.inr hrun)
    obtain h' | ⟨-, names, hnames, req, hmem, hne⟩ := hlooked ho n hn
    · exact h'
    · obtain hold | ⟨r, hr, hkey, hp⟩ := (hdone req hmem).of_commit
      · obtain hin | hall := h.loaded ho t tx names htx hnames req hold
        · exact absurd hin hne
        · exact hmono (hall n hn hreq)
      · exact absurd (hkey ▸ h.own t tx names htx hnames r hr hp) hne
  · obtain ⟨hut, hu⟩ := htxs hu
    obtain h' | h' | h' | h' | h' := h.looked (hopen ho) u ux hu n hn
    · exact .inl h'
    · exact .inr (.inl h')
    · exact .inr (.inr (.inl h'))
    · exact .inr (.inr (.inr (.inl (h'.commit hw))))
    · exact .inr (.inr (.inr (.inr h')))
  · obtain ⟨hut, hu⟩ := htxs hu
    have ho := hopen ho
    obtain hold | ⟨r, hr, hkey, hp⟩ := hn.of_commit
    · exact (h.loaded ho u ux names hu hs n hold).imp_right fun hall m hm hreq => hmono (hall m hm hreq)
    · -- `u` has loaded the task executions, so `t` never had to: it found an execution of every task.
      have hnone : tx.success = none := by
        by_contra hne
        exact hut (h.single u t ux tx hu htx (by simp [hs]) hne)
      refine .inr fun m hm hreq => ?_
      obtain h' | ⟨-, names', hnames', -⟩ := hlooked ho m hm
      · exact h'
      · cases hnone.symm.trans hnames'
  · obtain ⟨r₀, hr₀, rfl⟩ := List.mem_map.mp hr
    exact h.own u ux names (htxs hu).2 hs r₀ hr₀ (Cell.pending_commit hp).1

end

/-! ### Completion checks -/

/-- Nothing is left to do. -/
structure Quiescent (s : Reverse τ) : Prop where
  started : s.wf.committed ≠ .idle
  idle : ∀ t, s.txs t = none
  completed : ∀ r ∈ s.rows, ∀ st, r.cell.committed = some st → st.isCompleted

def AllSuccess (s : Reverse τ) : Prop := ∀ r ∈ s.rows, ∀ st, r.cell.committed = some st → st = .success

/-- What a completion check has found out. -/
def Found (s : Reverse τ) : CheckStep → Prop
  | .count => True
  | .reload | .cancels _ => s.Quiescent
  | .errors _ => s.Quiescent ∧ ∀ r ∈ s.rows, r.cell.committed ≠ some .cancelled
  | .finalContext _ new => s.Quiescent ∧ (new = .error ∨ new = .success ∧ s.AllSuccess)
  | .setState _ new => s.Quiescent ∧ (new = .cancelled ∨ new = .error ∨ new = .success ∧ s.AllSuccess)

theorem Quiescent.congr (h : s.Quiescent) (hrows : s'.rows = s.rows) (htxs : s'.txs = s.txs)
    (hwf : s'.wf.committed ≠ .idle) : s'.Quiescent := ⟨hwf, htxs ▸ h.idle, hrows ▸ h.completed⟩

theorem Found.quiescent {c : CheckStep} (h : s.Found c) (hc : c ≠ .count) : s.Quiescent := by
  cases c with
  | count => exact absurd rfl hc
  | reload => exact h
  | cancels => exact h
  | errors => exact h.1
  | finalContext => exact h.1
  | setState => exact h.1

theorem anyCommitted_eq_false {p : State → Bool} : s.anyCommitted p = false ↔
    ∀ r ∈ s.rows, ∀ st, r.cell.committed = some st → p st = false := by
  unfold anyCommitted
  rw [List.any_eq_false]
  refine forall₂_congr fun r _ => ?_
  cases r.cell.committed <;> simp

theorem Found.congr {c : CheckStep} (h : s.Found c) (hrows : s'.rows = s.rows) (htxs : s'.txs = s.txs)
    (hwf : s.wf.committed ≠ .idle → s'.wf.committed ≠ .idle) : s'.Found c := by
  have hq : s.Quiescent → s'.Quiescent := fun h => h.congr hrows htxs (hwf h.started)
  cases c with
  | count => trivial
  | reload => exact hq h
  | cancels => exact hq h
  | errors => exact ⟨hq h.1, hrows ▸ h.2⟩
  | finalContext => exact ⟨hq h.1, h.2.imp_right fun h => ⟨h.1, by unfold AllSuccess; exact hrows ▸ h.2⟩⟩
  | setState => exact ⟨hq h.1, h.2.imp_right fun h => h.imp_right fun h => ⟨h.1, by unfold AllSuccess; exact hrows ▸ h.2⟩⟩

section
variable [DecidableEq τ]

/-- When nothing is left to do, only checks happen. -/
theorem Quiescent.frozen {ev : ReverseEvent τ} (h : s.Quiescent) (hw : s.Working) (hg : s.InTurn ev) :
    (s.step w ev).rows = s.rows ∧ (s.step w ev).txs = s.txs ∧ ((∃ t, ev = .check t) ∨ (s.step w ev).wf = s.wf) := by
  have hmoved := moved_step (w := w) (s := s) ev
  generalize s.step w ev = s' at hmoved ⊢
  cases hmoved with
  | stay => exact ⟨rfl, rfl, .inr rfl⟩
  | complete htx hrow hcell hold =>
    have := h.completed _ (List.mem_of_getElem? hrow) _ (by rw [hcell])
    simp [hold] at this
  | skip => exact absurd hg id
  | pause => exact absurd hg id
  | resume htx hwf => exact absurd (by rw [hwf]) hw.notPaused
  | present htx | free htx | ask htx | require htx | create htx | commit htx | rollback htx =>
    rw [h.idle] at htx
    cases htx
  | check => exact ⟨rows_check.1, rows_check.2, .inl ⟨_, rfl⟩⟩

/-- Only the last step of a check changes the workflow. -/
theorem wf_check : (s.check w t).wf = s.wf ∨ ∃ wf new, s.checks t = .setState wf new ∧ s.wf = ⟨wf, none⟩ ∧
    wf.isCompleted = false ∧ wf.isValidTransition new ∧ (s.check w t).wf = ⟨new, none⟩ := by
  unfold check
  split
  next => split <;> exact .inl rfl
  next => exact .inl rfl
  next => exact .inl rfl
  next => exact .inl rfl
  next => exact .inl rfl
  next wf new hstep =>
    split
    next => exact .inl rfl
    next hfree =>
      split
      next h =>
        have hwf : s.wf = ⟨wf, none⟩ := by
          rw [← h.1, ← not_not.mp hfree]
        exact .inr ⟨wf, new, hstep, hwf, h.2.1, h.2.2, rfl⟩
      next => exact .inl rfl

theorem checks_check (hu : u ≠ t) : (s.check w t).checks u = s.checks u := by
  have hset : ∀ c, (s.setCheck t c).checks u = s.checks u := fun c => by simp [setCheck, hu]
  unfold check
  split <;> (repeat' split) <;> first | rfl | exact hset _

/-- The state that a check gives to the workflow is that of a completed one. -/
theorem started_check (hf : s.Found (s.checks t)) (h : s.wf.committed ≠ .idle) : (s.check w t).wf.committed ≠ .idle := by
  obtain heq | ⟨wf, new, hstep, -, -, -, heq⟩ := wf_check (w := w) (s := s) (t := t)
  · rwa [heq]
  · rw [hstep] at hf
    rw [heq]
    obtain rfl | rfl | ⟨rfl, -⟩ := hf.2 <;> nofun

theorem found_check (hw : s.Working) (h : ∀ c, s.Found (s.checks c)) (c : τ) :
    (s.check w t).Found ((s.check w t).checks c) := by
  refine Found.congr (s := s) ?_ rows_check.1 rows_check.2 (started_check (h t))
  by_cases hc : c = t
  swap
  · rw [checks_check hc]
    exact h c
  subst hc
  have hfound := h c
  have hset : ∀ step, (s.setCheck c step).checks c = step := fun step => by simp [setCheck]
  unfold check
  cases hstep : s.checks c with rw [hstep] at hfound
  | count =>
    simp only
    split
    · rw [hstep]
      trivial
    next hcond =>
      rw [hset]
      obtain ⟨hrun, hdone⟩ : s.wf.committed = .running ∧ s.anyCommitted (!·.isCompleted) = false := by
        simpa using hcond
      have hstarted : s.wf.committed ≠ .idle := by simp [hrun]
      refine ⟨hstarted, fun u => ?_, fun r hr st hc => by simpa using anyCommitted_eq_false.mp hdone r hr st hc⟩
      -- Whoever is in progress has updated a task that is not completed for others.
      by_contra hu
      obtain ⟨r, hr, -, old, hold, hopen⟩ := (hw.started hstarted).2 u hu
      simpa [hopen] using anyCommitted_eq_false.mp hdone r hr old hold
  | reload =>
    simp only [hset]
    exact hfound
  | cancels wf =>
    simp only [hset]
    split
    · exact ⟨hfound, .inl rfl⟩
    next hnone =>
      refine ⟨hfound, fun r hr hc => ?_⟩
      exact absurd (anyCommitted_eq_false.mp (by simpa using hnone) r hr _ hc) (by decide)
  | errors wf =>
    simp only [hset]
    split
    · exact ⟨hfound.1, .inl rfl⟩
    next hnone =>
      refine ⟨hfound.1, .inr ⟨rfl, fun r hr st hc => ?_⟩⟩
      have herr : st ≠ .error :=
        of_decide_eq_false (anyCommitted_eq_false.mp (by simpa using hnone) r hr st hc)
      have hcan : st ≠ .cancelled := fun heq => hfound.2 r hr (heq ▸ hc)
      have hskip : st ≠ .skipped := fun heq => hw.notSkipped r hr (heq ▸ hc)
      simpa [herr, hcan, hskip] using hfound.1.completed r hr st hc
  | finalContext wf new =>
    simp only [hset]
    split
    · exact ⟨hfound.1, .inr hfound.2⟩
    · trivial
  | setState wf new =>
    simp only
    split
    · rw [hstep]
      exact hfound
    · split
      · simp only [hset]
        trivial
      · rw [hset]
        trivial

/-! ### Success -/

/-- A task that the target requires exists, and then it is in `SUCCESS`. -/
theorem done_of_allSuccess (hacyclic : w.Acyclic) (h : s.Covered w) (hrun : s.wf.committed = .running)
    (hall : s.AllSuccess) : ∀ n ∈ w.order, s.Done n := by
  have hdone : ∀ n, s.Exists n → s.Done n := fun n ⟨r, hr, hkey, hc⟩ => by
    obtain ⟨st, hst⟩ := Option.ne_none_iff_exists'.mp hc
    exact ⟨r, hr, hkey, hall r hr st hst ▸ hst⟩
  have hbelow : ∀ {n req : String}, n ∈ w.order → req ∈ w.spec.getTaskRequires n → req ∈ w.order := fun {n req} hn hreq =>
    (w.mem_order req).mpr (((w.mem_order n).mp hn).tail hreq)
  let below : { n // n ∈ w.order } → { n // n ∈ w.order } → Prop := fun a b => Relation.TransGen w.spec.Requires b.1 a.1
  have : IsTrans { n // n ∈ w.order } below := ⟨fun a b c hab hbc => hbc.trans hab⟩
  have : Std.Irrefl below := ⟨fun a => hacyclic a.1 a.2⟩
  have hwell : WellFounded below := Finite.wellFounded_of_trans_of_irrefl below
  intro n hn
  refine hwell.induction (C := fun a => s.Done a.1) ⟨n, hn⟩ fun a ih => hdone a.1 ?_
  by_cases hreq : w.spec.getTaskRequires a.1 = []
  · exact h.initial (by simp [hrun]) a.1 a.2 hreq
  · exact h.next hrun a.1 a.2 hreq fun req hmem => ih ⟨req, hbelow a.2 hmem⟩ (.single hmem)

/-! ### Runs -/

/-- What holds in every state of a run. -/
structure OnTarget (w : ReverseWorkflow) (s : Reverse τ) : Prop where
  working : s.Working
  covered : s.Covered w
  found : ∀ c, s.Found (s.checks c)
  reached : s.wf.committed = .success → s.Quiescent ∧ ∀ n ∈ w.order, s.Done n

theorem Covered.check (h : s.Covered w) (hf : s.Found (s.checks t)) : (s.check w t).Covered w := by
  obtain ⟨hrows, htxs⟩ := rows_check (w := w) (s := s) (t := t)
  obtain heq | ⟨wf, new, hstep, -, -, -, heq⟩ := wf_check (w := w) (s := s) (t := t)
  · have hg : Grows s (s.check w t) t := .of_rows hrows
    refine h.grow hg (by rw [heq]) (fun u _ => by rw [htxs]) (fun ho ux hu => ?_) fun ux names hu hs => ?_
    · have hl := h.looked ho t ux (htxs ▸ hu)
      unfold Looked Present at hl ⊢
      rwa [hrows]
    · rw [htxs] at hu
      refine ⟨fun ho => h.loaded ho t ux names hu hs, by rw [hrows]; exact h.own t ux names hu hs, fun u vx hut hv => ?_⟩
      by_contra hne
      exact hut (h.single u t vx ux hv hu hne (by simp [hs]))
  · rw [hstep] at hf
    have hclosed : ¬(s.check w t).Open := by
      unfold Open
      rw [heq]
      obtain rfl | rfl | ⟨rfl, -⟩ := hf.2 <;> simp
    refine { initial := fun _ n hn hreq => ?_, next := fun hrun => absurd (.inr hrun) hclosed, looked := fun ho => absurd ho hclosed,
             loaded := fun ho => absurd ho hclosed, own := by rw [hrows, htxs]; exact h.own, single := by rw [htxs]; exact h.single }
    unfold Exists
    rw [hrows]
    exact h.initial hf.1.started n hn hreq

theorem Working.check (h : s.Working) (hf : s.Found (s.checks t)) : (s.check w t).Working := by
  obtain ⟨hrows, htxs⟩ := rows_check (w := w) (s := s) (t := t)
  obtain heq | ⟨wf, new, hstep, -, -, -, heq⟩ := wf_check (w := w) (s := s) (t := t)
  · exact ⟨by rw [hrows, htxs, heq]; exact h.unstarted, by rw [hrows, htxs, heq]; exact h.started, heq ▸ h.notPaused,
      by rw [hrows, htxs]; exact h.active, hrows ▸ h.notSkipped⟩
  · rw [hstep] at hf
    have hnew : new ≠ .idle ∧ new ≠ .paused := by
      obtain rfl | rfl | ⟨rfl, -⟩ := hf.2 <;> exact ⟨nofun, nofun⟩
    refine ⟨fun hidle => ?_, fun _ => ⟨by rw [heq], fun u hu => ?_⟩, by rw [heq]; exact hnew.2,
      by rw [hrows, htxs]; exact h.active, hrows ▸ h.notSkipped⟩
    · rw [heq] at hidle
      exact absurd hidle hnew.1
    · rw [htxs] at hu
      rw [hrows]
      exact (h.started hf.1.started).2 u hu

/-- The check that completes a workflow with `SUCCESS` found all its tasks in `SUCCESS`. -/
theorem reached_check (hacyclic : w.Acyclic) (h : s.OnTarget w) (hs : (s.check w t).wf.committed = .success) :
    (s.check w t).Quiescent ∧ ∀ n ∈ w.order, (s.check w t).Done n := by
  obtain ⟨hrows, htxs⟩ := rows_check (w := w) (s := s) (t := t)
  have hkeep : s.Quiescent → (∀ n ∈ w.order, s.Done n) →
      (s.check w t).Quiescent ∧ ∀ n ∈ w.order, (s.check w t).Done n := fun hq hd => by
    refine ⟨hq.congr hrows htxs (by simp [hs]), fun n hn => ?_⟩
    unfold Done
    rw [hrows]
    exact hd n hn
  obtain heq | ⟨wf, new, hstep, hwf, hopen, hvalid, heq⟩ := wf_check (w := w) (s := s) (t := t)
  · rw [heq] at hs
    exact hkeep (h.reached hs).1 (h.reached hs).2
  · have hf := h.found t
    rw [hstep] at hf
    rw [heq] at hs
    obtain rfl : new = .success := hs
    obtain h' | h' | ⟨-, hall⟩ := hf.2
    · cases h'
    · cases h'
    · have hrun : s.wf.committed = .running := by
        rw [hwf]
        cases wf <;> simp [State.isValidTransition, State.validTransitions, State.isCompleted] at hvalid hopen ⊢
      exact hkeep hf.1 (done_of_allSuccess hacyclic h.covered hrun hall)

/-- Only a completion check ends a workflow. -/
theorem wf_step {ev : ReverseEvent τ} (hw : s.Working) (hg : s.InTurn ev) (hcheck : ¬∃ t, ev = .check t) :
    (s.step w ev).wf.committed = s.wf.committed ∨ (s.step w ev).wf.committed = .running := by
  have hmoved := moved_step (w := w) (s := s) ev
  generalize s.step w ev = s' at hmoved ⊢
  cases hmoved with
  | skip => exact absurd hg id
  | pause => exact absurd hg id
  | resume htx hwf => exact absurd (by rw [hwf]) hw.notPaused
  | @commit t tx htx =>
    simp only [Reverse.commit]
    by_cases hidle : s.wf.committed = .idle
    · rw [Cell.commit_of_pending ((hw.unstarted hidle).2 t (by simp [htx]))]
      exact .inr rfl
    · rw [Cell.commit_of_ne (by simp [(hw.started hidle).1])]
      exact .inl rfl
  | rollback => exact .inl Cell.committed_rollback
  | check => exact absurd ⟨_, rfl⟩ hcheck
  | _ => exact .inl rfl

theorem onTarget_step {ev : ReverseEvent τ} (hacyclic : w.Acyclic) (hl : s.Loaded w) (h : s.OnTarget w) (hg : s.InTurn ev) :
    (s.step w ev).OnTarget w := by
  have hw := h.working
  by_cases hcheck : ∃ t, ev = .check t
  · obtain ⟨t, rfl⟩ := hcheck
    exact ⟨hw.check (h.found t), h.covered.check (h.found t), found_check hw h.found, reached_check hacyclic h⟩
  have hfound : ∀ c, (s.step w ev).Found ((s.step w ev).checks c) := fun c => by
    have hchecks : (s.step w ev).checks = s.checks := by
      have hmoved := moved_step (w := w) (s := s) ev
      generalize s.step w ev = s' at hmoved ⊢
      cases hmoved with
      | check => exact absurd ⟨_, rfl⟩ hcheck
      | _ => rfl
    rw [hchecks]
    by_cases hc : s.checks c = .count
    · rw [hc]
      trivial
    · obtain ⟨hrows, htxs, hwf⟩ := ((h.found c).quiescent hc).frozen (w := w) hw hg
      exact (h.found c).congr hrows htxs (by rw [hwf.resolve_left hcheck]; exact id)
  have hreached : (s.step w ev).wf.committed = .success → (s.step w ev).Quiescent ∧ ∀ n ∈ w.order, (s.step w ev).Done n := by
    intro hs
    have hold : s.wf.committed = .success := by
      obtain heq | heq := wf_step (w := w) hw hg hcheck
      · exact heq ▸ hs
      · cases heq.symm.trans hs
    obtain ⟨hq, hd⟩ := h.reached hold
    obtain ⟨hrows, htxs, -⟩ := hq.frozen (w := w) hw hg
    refine ⟨hq.congr hrows htxs (by simp [hs]), fun n hn => ?_⟩
    unfold Done
    rw [hrows]
    exact hd n hn
  have hmoved := moved_step (w := w) (s := s) ev
  generalize s.step w ev = s' at hmoved hfound hreached ⊢
  cases hmoved with
  | stay => exact h
  | complete htx hrow hcell hold hst hns => exact ⟨hw.complete hrow hcell hold hns, h.covered.complete hrow hcell, hfound, hreached⟩
  | skip => exact absurd hg id
  | pause => exact absurd hg id
  | resume htx hwf => exact absurd (by rw [hwf]) hw.notPaused
  | @present t tx n todo htx hasks htodo hhas =>
    refine ⟨hw.setTx htx, h.covered.setTx htx rfl fun ho m hm => ?_, hfound, hreached⟩
    obtain h' | h' := h.covered.looked ho t tx htx m hm
    · obtain rfl | h' := List.mem_cons.mp (htodo ▸ h')
      · obtain ⟨r, hr, hread⟩ := List.any_eq_true.mp hhas
        simp only [decide_eq_true_eq] at hread
        exact .inr (.inr (.inr (.inl ⟨r, hr, hread.1, Option.isSome_iff_ne_none.mp hread.2⟩)))
      · exact .inl h'
    · exact .inr h'
  | @free t tx n todo htx hasks htodo =>
    refine ⟨hw.setTx htx, h.covered.setTx htx rfl fun ho m hm => ?_, hfound, hreached⟩
    obtain h' | h' | h' | h' := h.covered.looked ho t tx htx m hm
    · obtain rfl | h' := List.mem_cons.mp (htodo ▸ h')
      · exact .inr (.inr (.inl (List.mem_append_right _ (List.mem_singleton_self _))))
      · exact .inl h'
    · exact .inr (.inl h')
    · exact .inr (.inr (.inl (List.mem_append_left _ h')))
    · exact .inr (.inr (.inr h'))
  | @ask t tx n todo htx hasks htodo =>
    refine ⟨hw.setTx htx, h.covered.setTx htx rfl fun ho m hm => ?_, hfound, hreached⟩
    obtain h' | h' | h' := h.covered.looked ho t tx htx m hm
    · obtain rfl | h' := List.mem_cons.mp (htodo ▸ h')
      · exact .inr (.inl rfl)
      · exact .inl h'
    · cases hasks.symm.trans h'
    · exact .inr (.inr h')
  | @require t tx n success found htx hasks hsuccess hfoundd =>
    exact ⟨hw.setTx htx, h.covered.require hl htx hasks hsuccess hfoundd (hg tx htx (by simp [hasks])), hfound, hreached⟩
  | create htx hasks htodo hcmds =>
    exact ⟨(hw.create htx).setTx (by exact htx), h.covered.create htx hcmds, hfound, hreached⟩
  | commit htx hasks htodo hcmds =>
    exact ⟨hw.commit (by simp [htx]), h.covered.commit hw htx hasks htodo hcmds, hfound, hreached⟩
  | rollback htx => exact ⟨hw.rollback (by simp [htx]), h.covered.rollback, hfound, hreached⟩
  | check => exact absurd ⟨_, rfl⟩ hcheck

theorem onTarget_start (w : ReverseWorkflow) (t : τ) : (start w t).OnTarget w where
  working := by
    refine ⟨fun _ => ⟨fun r hr => absurd hr List.not_mem_nil, fun u hu => ?_⟩, fun hidle => absurd rfl hidle, by rintro ⟨⟩,
      fun r hr => absurd hr List.not_mem_nil, fun r hr => absurd hr List.not_mem_nil⟩
    obtain ⟨ux, hux⟩ := Option.ne_none_iff_exists'.mp hu
    rw [(txs_start hux).1]
    rfl
  covered := by
    refine ⟨fun hidle => absurd rfl hidle, by rintro ⟨⟩, fun _ u ux hu n hn => ?_, fun _ u ux names hu hs => ?_,
      fun _ _ _ _ _ r hr => absurd hr List.not_mem_nil, fun u v ux vx hu _ hs => ?_⟩ <;> obtain ⟨-, rfl⟩ := txs_start hu
    · exact .inl hn
    · cases hs
    · exact absurd rfl hs
  found _ := trivial
  reached := by rintro ⟨⟩

theorem reach_onTarget (h : (reverseSystem τ w).Reach (fun s ev => w.Acyclic ∧ s.InTurn ev) s) : s.OnTarget w := by
  refine h.invariant ?_ fun s ev hr hs hg => onTarget_step hg.1 (reach_loaded hr) hs hg.2
  rintro s ⟨t, rfl⟩
  exact onTarget_start w t

end
end Reverse

/-- A workflow in `SUCCESS` has executions in `SUCCESS` of its target and of everything that it requires, directly or
    not. -/
def SucceedsThroughTarget (τ : Type) [DecidableEq τ] (w : ReverseWorkflow) (guard : Reverse τ → ReverseEvent τ → Prop) :
    Prop :=
  ∀ s, (reverseSystem τ w).Reach guard s → s.wf.committed = .success →
    ∀ n, Relation.ReflTransGen w.spec.Requires w.target n → s.Done n

theorem reverse_workflow_succeeds_through_target (τ : Type) [DecidableEq τ] (w : ReverseWorkflow) :
    SucceedsThroughTarget τ w fun s ev => w.Acyclic ∧ s.InTurn ev := fun _ hr hs n hn =>
  ((Reverse.reach_onTarget hr).reached hs).2 n ((w.mem_order n).mpr hn)

/-! ### A target that nobody creates -/

/-- The target requires two tasks. -/
def joinedSpec : ReverseWorkflowSpec where
  tasks := [{ name := "a" }, { name := "b" }, { name := "target", requires := ["a", "b"] }]

def joined : ReverseWorkflow where
  spec := joinedSpec
  valid := by decide
  target := "target"
  exists_target := by decide
  order := ["a", "b", "target"]
  nodup_order := by decide
  mem_order name := by
    refine ⟨fun h => ?_, joinedSpec.mem_of_closed (by decide) (by decide)⟩
    simp only [List.mem_cons, List.not_mem_nil, or_false] at h
    obtain rfl | rfl | rfl := h
    · exact .single (by simp only [ReverseWorkflowSpec.Requires]; decide)
    · exact .single (by simp only [ReverseWorkflowSpec.Requires]; decide)
    · exact .refl

local instance joined_neZero : NeZero 3 := ⟨Nat.succ_ne_zero 2⟩

/-- `a` and `b` complete in two transactions. Each of them loads the task executions before the other one commits, and a
    check finds every task completed. -/
def joinedRun : List (ReverseEvent (Fin 3)) :=
  List.replicate 7 (.run 0) ++ [.complete 1 0 .success, .complete 2 1 .success] ++ List.replicate 4 (.run 1) ++
    List.replicate 4 (.run 2) ++ [.run 1, .run 2] ++ List.replicate 6 (.check 0)

theorem concurrent_completions_miss_target : ¬SucceedsThroughTarget (Fin 3) joined fun _ _ => True := by
  intro h
  have hreach : (reverseSystem (Fin 3) joined).Reach (fun _ _ => True)
      ((reverseSystem (Fin 3) joined).run (Reverse.start joined 0) joinedRun) :=
    .run (.init ⟨0, rfl⟩) (by simp [joinedRun, System.Guarded, List.replicate])
  obtain ⟨r, hr, hkey, -⟩ := h _ hreach (by decide) "target" .refl
  have hrows : ((reverseSystem (Fin 3) joined).run (Reverse.start joined 0) joinedRun).rows =
      [⟨"a", { committed := some .success }⟩, ⟨"b", { committed := some .success }⟩] := by decide
  rw [hrows] at hr
  obtain rfl | rfl : r = _ ∨ r = _ := by simpa using hr
  · exact absurd hkey (by decide)
  · exact absurd hkey (by decide)

end Mistral
