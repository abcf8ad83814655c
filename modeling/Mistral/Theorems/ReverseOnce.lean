import Mathlib.Algebra.GroupWithZero.Nat
import Mathlib.Data.List.Perm.Subperm
import Mistral.Engine.ReverseRuns

/-! A reverse workflow runs each task once, as long as no transaction looks for executions of a task while another one
    that found none of it is in progress. Tasks are created only when everything that they require is in `SUCCESS`. -/

namespace Mistral

/-- The tasks without executions that the transaction has found. -/
def ReverseTx.held (tx : ReverseTx) : List String := tx.asks.toList ++ tx.cmds

namespace Reverse
variable {τ : Type} {w : ReverseWorkflow} {s s' : Reverse τ} {t u : τ} {tx tx' : ReverseTx} {n : String}

/-- `t` found no execution of the task and has not ended since. -/
def Holds (s : Reverse τ) (t : τ) (n : String) : Prop :=
  (∃ tx, s.txs t = some tx ∧ n ∈ tx.held) ∨
    ∃ r ∈ s.rows, r.key = n ∧ r.cell.committed = none ∧ r.cell.pending.map Prod.fst = some t

section
variable [DecidableEq τ]

/-- No transaction finds that a task has no execution while another one holds the task. -/
def Unrivalled (s : Reverse τ) : ReverseEvent τ → Prop
  | .run t => ∀ tx n todo, s.txs t = some tx → tx.asks = none → tx.todo = n :: todo → s.hasTaskExecutions t n = false →
    ∀ u, u ≠ t → ¬s.Holds u n
  | _ => True

/-- A transaction that is about to create an execution sees everything that the task requires in `SUCCESS`. -/
def CreatesSatisfied (w : ReverseWorkflow) (s : Reverse τ) : Prop :=
  ∀ t tx n, s.txs t = some tx → n ∈ tx.cmds → ∀ req ∈ w.spec.getTaskRequires n,
    ∃ r ∈ s.rows, r.key = req ∧ r.cell.read t = some .success

end

/-! ### Each task once -/

/-- Every task is held by at most one transaction, and has no execution then. -/
structure Exclusive (s : Reverse τ) : Prop where
  nodup : ∀ t tx, s.txs t = some tx → (tx.held ++ tx.todo).Nodup
  active : ∀ r ∈ s.rows, ∀ u v, r.cell.pending = some (u, v) → s.txs u ≠ none ∧ v ≠ none
  own : ∀ t tx, s.txs t = some tx → ∀ r ∈ s.rows, r.cell.committed = none → r.cell.pending.map Prod.fst = some t →
    r.key ∉ tx.held ++ tx.todo
  absent : ∀ t tx n, s.txs t = some tx → n ∈ tx.held → ∀ r ∈ s.rows, r.key = n → ¬r.Live
  alone : ∀ t u tx tx' n, s.txs t = some tx → s.txs u = some tx' → n ∈ tx.held → n ∈ tx'.held → t = u
  unique : UniqueKeys s.rows

theorem Exclusive.congr (h : s.Exclusive) (hrows : s'.rows = s.rows) (htxs : s'.txs = s.txs) : s'.Exclusive where
  nodup := htxs ▸ h.nodup
  active := by rw [hrows, htxs]; exact h.active
  own := by rw [hrows, htxs]; exact h.own
  absent := by rw [hrows, htxs]; exact h.absent
  alone := htxs ▸ h.alone
  unique := hrows ▸ h.unique

theorem nodup_of_subperm {l l' : List String} (h : l.Subperm l') (hl : l'.Nodup) : l.Nodup := by
  obtain ⟨m, hperm, hsub⟩ := h
  exact hperm.nodup_iff.mp (hl.sublist hsub)

theorem mem_write {i : Nat} {st : State} {r r' : Row τ State} (hr : s.rows[i]? = some r)
    (h : r' ∈ (s.write t i st).rows) : r' ∈ s.rows ∨ r' = { r with cell := r.cell.write t (some st) } := by
  obtain ⟨j, hj⟩ := List.mem_iff_getElem?.mp h
  rw [write, List.getElem?_modify] at hj
  by_cases hij : i = j
  · subst hij
    simp only [hr, if_true, Option.map_eq_map, Option.map_some, Option.some.injEq] at hj
    exact .inr hj.symm
  · simp only [hij, if_false, Option.map_eq_map, Option.map_id'] at hj
    exact .inl (List.mem_of_getElem? hj)

section
variable [DecidableEq τ]

theorem txs_setTx {o : Option ReverseTx} : (s.setTx t o).txs u = if u = t then o else s.txs u := by
  simp [setTx, Function.update_apply]

/-- A transaction goes on: what it holds now was held before, or is held by nobody else and has no execution. -/
theorem Exclusive.setTx (h : s.Exclusive) (htx : s.txs t = some tx)
    (hsub : (tx'.held ++ tx'.todo).Subperm (tx.held ++ tx.todo))
    (hheld : ∀ n ∈ tx'.held, n ∈ tx.held ∨ (∀ r ∈ s.rows, r.key = n → ¬r.Live) ∧ ∀ u, u ≠ t → ¬s.Holds u n) :
    (s.setTx t (some tx')).Exclusive := by
  have habsent : ∀ n ∈ tx'.held, ∀ r ∈ s.rows, r.key = n → ¬r.Live := fun n hn => by
    obtain hn | ⟨hn, -⟩ := hheld n hn
    · exact h.absent t tx n htx hn
    · exact hn
  have halone : ∀ n ∈ tx'.held, ∀ u ux, s.txs u = some ux → n ∈ ux.held → u = t := fun n hn u ux hu hux => by
    obtain hn | ⟨-, hn⟩ := hheld n hn
    · exact h.alone u t ux tx n hu htx hux hn
    · by_contra hne
      exact hn u hne (.inl ⟨ux, hu, hux⟩)
  refine { nodup := fun u ux hu => ?_, active := fun r hr u v hp => ?_, own := fun u ux hu r hr hc hp => ?_,
           absent := fun u ux n hu hn => ?_, alone := fun u v ux vx n hu hv hnu hnv => ?_, unique := h.unique }
  · rw [txs_setTx] at hu
    split at hu
    · cases hu
      exact nodup_of_subperm hsub (h.nodup t tx htx)
    · exact h.nodup u ux hu
  · rw [txs_setTx]
    obtain ⟨hu, hv⟩ := h.active r hr u v hp
    exact ⟨by split <;> simp_all, hv⟩
  · rw [txs_setTx] at hu
    split at hu
    next heq =>
      cases hu
      exact fun hmem => h.own t tx htx r hr hc (heq ▸ hp) (hsub.subset hmem)
    · exact h.own u ux hu r hr hc hp
  · rw [txs_setTx] at hu
    split at hu
    · cases hu
      exact habsent n hn
    · exact h.absent u ux n hu hn
  · rw [txs_setTx] at hu hv
    split at hu <;> split at hv
    next hut hvt => rw [hut, hvt]
    next hut hvt =>
      cases hu
      exact absurd (halone n hnu v vx hv hnv) hvt
    next hut hvt =>
      cases hv
      exact absurd (halone n hnv u ux hu hnu) hut
    · exact h.alone u v ux vx n hu hv hnu hnv

/-- A transaction begins. -/
theorem Exclusive.begin {todo : List String} {rows : List (Row τ State)} {wf : Cell τ State} (h : s.Exclusive)
    (htx : s.txs t = none) (hnodup : todo.Nodup) (hunique : UniqueKeys rows)
    (hrows : ∀ r ∈ rows, r ∈ s.rows ∨ ∃ old ∈ s.rows, old.Live ∧ r.key = old.key ∧ r.cell.committed ≠ none ∧
      ∃ st, r.cell.pending = some (t, some st)) :
    ({ s with rows, wf }.setTx t (some { todo })).Exclusive := by
  have hinactive : ∀ r ∈ s.rows, r.cell.pending.map Prod.fst ≠ some t := fun r hr hp => by
    obtain ⟨⟨u, v⟩, hp', rfl⟩ := Option.map_eq_some_iff.mp hp
    exact (h.active r hr u v hp').1 htx
  refine { nodup := fun u ux hu => ?_, active := fun r hr u v hp => ?_, own := fun u ux hu r hr hc hp => ?_,
           absent := fun u ux n hu hn r hr hkey hlive => ?_, alone := fun u v ux vx n hu hv hnu hnv => ?_, unique := hunique }
  · rw [txs_setTx] at hu
    split at hu
    · cases hu
      simpa [ReverseTx.held] using hnodup
    · exact h.nodup u ux hu
  · rw [txs_setTx]
    obtain hr | ⟨-, -, -, -, -, st, hst⟩ := hrows r hr
    · obtain ⟨hu, hv⟩ := h.active r hr u v hp
      exact ⟨by split <;> simp_all, hv⟩
    · rw [hst] at hp
      cases hp
      simp
  · obtain hr | ⟨-, -, -, -, hcom, -⟩ := hrows r hr
    · rw [txs_setTx] at hu
      split at hu
      next heq => exact absurd (heq ▸ hp) (hinactive r hr)
      next => exact h.own u ux hu r hr hc hp
    · exact absurd hc hcom
  · rw [txs_setTx] at hu
    split at hu
    · cases hu
      cases hn
    · obtain hr | ⟨old, hold, hlive, hold', -⟩ := hrows r hr
      · exact h.absent u ux n hu hn r hr hkey hlive
      · exact h.absent u ux n hu hn old hold (hold' ▸ hkey) hlive
  · rw [txs_setTx] at hu hv
    split at hu
    · cases hu
      cases hnu
    · split at hv
      · cases hv
        cases hnv
      · exact h.alone u v ux vx n hu hv hnu hnv

/-- A transaction ends, and changes rows as commits and rollbacks do. -/
theorem Exclusive.finish {f : Cell τ (Option State) → Cell τ (Option State)} {wf : Cell τ State} (h : s.Exclusive)
    (hlive : ∀ r : Row τ State, ({ r with cell := f r.cell } : Row τ State).Live → r.Live)
    (hpending : ∀ c u v, (f c).pending = some (u, v) → f c = c ∧ u ≠ t) :
    ({ s with wf, rows := s.rows.map fun r => { r with cell := f r.cell }, txs := Function.update s.txs t none } :
      Reverse τ).Exclusive := by
  have htxs : ∀ {u ux}, Function.update s.txs t none u = some ux → s.txs u = some ux := fun {u ux} hu => by
    rw [Function.update_apply] at hu
    split at hu
    · cases hu
    · exact hu
  refine { nodup := fun u ux hu => h.nodup u ux (htxs hu), active := fun r hr u v hp => ?_,
           own := fun u ux hu r hr hc hp => ?_, absent := fun u ux n hu hn r hr hkey hr' => ?_,
           alone := fun u v ux vx n hu hv => h.alone u v ux vx n (htxs hu) (htxs hv),
           unique := h.unique.map fun r _ => ⟨rfl, hlive r⟩ }
  · obtain ⟨r₀, hr₀, rfl⟩ := List.mem_map.mp hr
    obtain ⟨heq, hne⟩ := hpending _ u v hp
    simp only [heq] at hp
    obtain ⟨hu, hv⟩ := h.active r₀ hr₀ u v hp
    exact ⟨by simpa [Function.update_apply, hne] using hu, hv⟩
  · obtain ⟨r₀, hr₀, rfl⟩ := List.mem_map.mp hr
    obtain ⟨⟨u', v⟩, hp', rfl⟩ := Option.map_eq_some_iff.mp hp
    obtain ⟨heq, -⟩ := hpending _ u' v hp'
    simp only [heq] at hc hp
    exact h.own u' ux (htxs hu) r₀ hr₀ hc hp
  · obtain ⟨r₀, hr₀, rfl⟩ := List.mem_map.mp hr
    exact h.absent u ux n (htxs hu) hn r₀ hr₀ hkey (hlive r₀ hr')

/-- A transaction creates the first task that it found. -/
theorem Exclusive.create {cmds : List String} (h : s.Exclusive) (htx : s.txs t = some tx) (hasks : tx.asks = none)
    (htodo : tx.todo = []) (hcmds : tx.cmds = n :: cmds) :
    ({ s.setTx t (some { tx with cmds }) with
      rows := s.rows ++ [⟨n, { committed := none, pending := some (t, some .idle) }⟩] } : Reverse τ).Exclusive := by
  have hheld : n ∈ tx.held := by simp [ReverseTx.held, hcmds]
  have hrest : ∀ m ∈ ({ tx with cmds } : ReverseTx).held, m ∈ tx.held := fun m hm => by
    simp only [ReverseTx.held, hasks, hcmds, Option.toList_none, List.nil_append] at hm ⊢
    exact List.mem_cons_of_mem n hm
  have hsub : (({ tx with cmds } : ReverseTx).held ++ tx.todo).Subperm (tx.held ++ tx.todo) := by
    simp only [ReverseTx.held, hasks, hcmds, Option.toList_none, List.nil_append]
    exact ((List.sublist_cons_self n cmds).append_right _).subperm
  have hset : (s.setTx t (some { tx with cmds })).Exclusive := h.setTx htx hsub fun m hm => .inl (hrest m hm)
  have hnodup := h.nodup t tx htx
  have hfresh : n ∉ cmds := by
    simp only [ReverseTx.held, hasks, hcmds, htodo, Option.toList_none, List.nil_append, List.append_nil] at hnodup
    exact (List.nodup_cons.mp hnodup).1
  have hmine : ∀ {u ux}, (s.setTx t (some { tx with cmds })).txs u = some ux → n ∉ ux.held := fun {u ux} hu hn => by
    rw [txs_setTx] at hu
    split at hu
    · cases hu
      simp only [ReverseTx.held, hasks, Option.toList_none, List.nil_append] at hn
      exact hfresh hn
    next hne => exact hne (h.alone u t ux tx n hu htx hn hheld)
  refine { nodup := hset.nodup, active := fun r hr u v hp => ?_, own := fun u ux hu r hr hc hp => ?_,
           absent := fun u ux m hu hm r hr hkey => ?_, alone := hset.alone,
           unique := h.unique.insert (h.absent t tx n htx hheld) }
  · obtain hr | hr := List.mem_append.mp hr
    · exact hset.active r hr u v hp
    · obtain rfl := List.mem_singleton.mp hr
      cases hp
      exact ⟨by simp [txs_setTx], nofun⟩
  · obtain hr | hr := List.mem_append.mp hr
    · exact hset.own u ux hu r hr hc hp
    · obtain rfl := List.mem_singleton.mp hr
      simp only [Option.map_some, Option.some.injEq] at hp
      subst hp
      simp only [txs_setTx, if_true, Option.some.injEq] at hu
      subst hu
      simpa [ReverseTx.held, hasks, htodo] using hfresh
  · obtain hr | hr := List.mem_append.mp hr
    · exact hset.absent u ux m hu hm r hr hkey
    · obtain rfl := List.mem_singleton.mp hr
      obtain rfl : n = m := hkey
      exact absurd hm (hmine hu)

/-- Who sees no execution of a task that nobody else holds finds none at all. -/
theorem absent_of_unrivalled (h : s.Exclusive) (hhas : s.hasTaskExecutions t n = false)
    (halone : ∀ u, u ≠ t → ¬s.Holds u n) : ∀ r ∈ s.rows, r.key = n → ¬r.Live := by
  intro r hr hkey hlive
  have hread : r.cell.read t = none := by
    simpa [hkey] using List.any_eq_false.mp hhas r hr
  rcases hp : r.cell.pending with _ | ⟨u, v⟩
  · rw [Cell.read_of_none hp] at hread
    exact hlive.elim (fun h => h hread) fun h => h hp
  · by_cases hu : u = t
    · subst hu
      rw [Cell.read_of_pending hp] at hread
      exact (h.active r hr u v hp).2 hread
    · rw [Cell.read_of_ne hp hu] at hread
      exact halone u hu (.inr ⟨r, hr, hkey, hread, by simp [hp]⟩)

/-- A transaction begins with the update of a task. -/
theorem Exclusive.update {i : Nat} {r : Row τ State} {old st : State} {todo : List String} {wf : Cell τ State}
    (h : s.Exclusive) (htx : s.txs t = none) (hrow : s.rows[i]? = some r) (hcell : r.cell = ⟨some old, none⟩)
    (hnodup : todo.Nodup) : ({ s.write t i st with wf }.setTx t (some { todo })).Exclusive := by
  refine h.begin htx hnodup (h.unique.modify fun r' hr' => ⟨rfl, fun _ => ?_⟩) fun r' hr' => ?_
  · obtain rfl := Option.some.inj (hr'.symm.trans hrow)
    exact .inl (by simp [hcell])
  · obtain hr' | rfl := mem_write hrow hr'
    · exact .inl hr'
    · exact .inr ⟨r, List.mem_of_getElem? hrow, .inl (by simp [hcell]), rfl, by simp [Cell.write, hcell], st, rfl⟩

theorem exclusive_step {ev : ReverseEvent τ} (h : s.Exclusive) (hg : s.Unrivalled ev) : (s.step w ev).Exclusive := by
  have hmoved := moved_step (w := w) (s := s) ev
  generalize s.step w ev = s' at hmoved ⊢
  cases hmoved with
  | stay => exact h
  | complete htx hrow hcell =>
    refine h.update htx hrow hcell ?_
    split
    · exact List.nodup_nil
    · exact w.nodup_order
  | skip htx hrow hcell => exact h.update htx hrow hcell w.nodup_order
  | pause => exact h.congr rfl rfl
  | resume htx => exact h.begin htx w.nodup_order h.unique fun r hr => .inl hr
  | present htx hasks htodo =>
    refine h.setTx htx ?_ fun m hm => .inl hm
    simp only [ReverseTx.held, hasks, htodo]
    exact ((List.sublist_cons_self _ _).append_left _).subperm
  | free htx hasks htodo hhas =>
    have halone := hg _ _ _ htx hasks htodo hhas
    refine h.setTx htx ?_ fun m hm => ?_
    · simp only [ReverseTx.held, hasks, htodo]
      exact (List.Perm.of_eq (by simp)).subperm
    · simp only [ReverseTx.held, hasks, Option.toList_none, List.nil_append, List.mem_append, List.mem_singleton] at hm ⊢
      obtain hm | rfl := hm
      · exact .inl hm
      · exact .inr ⟨absent_of_unrivalled h hhas halone, halone⟩
  | ask htx hasks htodo hhas =>
    have halone := hg _ _ _ htx hasks htodo hhas
    refine h.setTx htx ?_ fun m hm => ?_
    · simp only [ReverseTx.held, hasks, htodo, Option.toList_some, Option.toList_none, List.nil_append, List.singleton_append]
      exact List.perm_middle.symm.subperm
    · simp only [ReverseTx.held, hasks, Option.toList_some, Option.toList_none, List.nil_append, List.mem_append,
        List.mem_singleton] at hm ⊢
      obtain rfl | hm := hm
      · exact .inr ⟨absent_of_unrivalled h hhas halone, halone⟩
      · exact .inl hm
  | require htx hasks hsuccess hfound =>
    refine h.setTx htx ?_ fun m hm => .inl ?_
    · simp only [ReverseTx.held, hasks, Option.toList_some, Option.toList_none, List.nil_append, hfound]
      split
      · rw [List.append_assoc]
        exact List.perm_middle.subperm
      · simpa using ((List.sublist_cons_self _ _).append_right _).subperm
    · simp only [ReverseTx.held, hasks, Option.toList_some, Option.toList_none, List.nil_append, List.mem_append,
        List.mem_singleton, hfound] at hm ⊢
      obtain hm | hm := hm
      · exact .inr hm
      · split at hm
        · exact .inl (List.mem_singleton.mp hm)
        · cases hm
  | create htx hasks htodo hcmds => exact h.create htx hasks htodo hcmds
  | commit htx =>
    refine h.finish (f := fun c => c.commit _) (fun r hr => hr.of_commit) fun c u v hp => ⟨?_, (Cell.pending_commit hp).2⟩
    exact Cell.commit_of_pending_commit (by simp [hp])
  | rollback htx =>
    refine h.finish (f := fun c => c.rollback _) (fun r hr => hr.of_rollback) fun c u v hp =>
      ⟨?_, (Cell.pending_rollback hp).2⟩
    exact Cell.rollback_of_pending_rollback (by simp [hp])
  | check =>
    exact h.congr rows_check.1 rows_check.2

/-! ### Requirements -/

def SeesSuccess (s : Reverse τ) (t : τ) (n : String) : Prop := ∃ r ∈ s.rows, r.key = n ∧ r.cell.read t = some .success

/-- A task in `SUCCESS` stays so, and what a transaction loaded is true. -/
structure Loaded (w : ReverseWorkflow) (s : Reverse τ) : Prop where
  settled : ∀ r ∈ s.rows, r.cell.committed = some .success → r.cell.pending = none
  success : ∀ t tx names, s.txs t = some tx → tx.success = some names → ∀ n ∈ names, s.SeesSuccess t n
  cmds : s.CreatesSatisfied w

/-- Transactions that do not go on keep what they see. -/
theorem Loaded.of_others (h : s.Loaded w) (hsettled : ∀ r ∈ s'.rows, r.cell.committed = some .success → r.cell.pending = none)
    (hother : ∀ u ux, s'.txs u = some ux → s.txs u = some ux ∧ (∀ n, s.SeesSuccess u n → s'.SeesSuccess u n) ∨
      ux.success = none ∧ ux.cmds = []) : s'.Loaded w where
  settled := hsettled
  success u ux names hu hnames n hn := by
    obtain ⟨hu, hsees⟩ | ⟨hnone, -⟩ := hother u ux hu
    · exact hsees n (h.success u ux names hu hnames n hn)
    · cases hnone.symm.trans hnames
  cmds u ux n hu hn req hreq := by
    obtain ⟨hu, hsees⟩ | ⟨-, hnil⟩ := hother u ux hu
    · exact hsees req (h.cmds u ux n hu hn req hreq)
    · rw [hnil] at hn
      cases hn

/-- A transaction goes on. -/
theorem Loaded.setTx (h : s.Loaded w) (htx : s.txs t = some tx)
    (hsuccess : ∀ names, tx'.success = some names → tx.success = some names ∨ ∀ n ∈ names, s.SeesSuccess t n)
    (hcmds : ∀ n ∈ tx'.cmds, n ∈ tx.cmds ∨ ∀ req ∈ w.spec.getTaskRequires n, s.SeesSuccess t req) :
    (s.setTx t (some tx')).Loaded w where
  settled := h.settled
  success u ux names hu hnames n hn := by
    rw [txs_setTx] at hu
    split at hu
    next heq =>
      cases hu
      subst heq
      obtain hnames | hall := hsuccess names hnames
      · exact h.success u tx names htx hnames n hn
      · exact hall n hn
    · exact h.success u ux names hu hnames n hn
  cmds u ux n hu hn req hreq := by
    rw [txs_setTx] at hu
    split at hu
    next heq =>
      cases hu
      subst heq
      obtain hn | hall := hcmds n hn
      · exact h.cmds u tx n htx hn req hreq
      · exact hall req hreq
    · exact h.cmds u ux n hu hn req hreq

theorem Loaded.update {i : Nat} {r : Row τ State} {old st : State} {todo : List String} {wf : Cell τ State}
    (h : s.Loaded w) (hrow : s.rows[i]? = some r) (hcell : r.cell = ⟨some old, none⟩) (hold : old ≠ .success) :
    ({ s.write t i st with wf }.setTx t (some { todo })).Loaded w := by
  refine h.of_others (fun r' hr' hc => ?_) fun u ux hu => ?_
  · obtain hr' | rfl := mem_write hrow hr'
    · exact h.settled r' hr' hc
    · simp only [Cell.write, hcell, Option.some.injEq] at hc
      exact absurd hc hold
  · rw [txs_setTx] at hu
    split at hu
    · cases hu
      exact .inr ⟨rfl, rfl⟩
    · refine .inl ⟨hu, fun n hn => ?_⟩
      obtain ⟨r', hr', hkey, hread⟩ := hn
      obtain ⟨j, hj⟩ := List.mem_iff_getElem?.mp hr'
      have hne : i ≠ j := by
        rintro rfl
        obtain rfl := Option.some.inj (hj.symm.trans hrow)
        rw [hcell, Cell.read_of_none rfl] at hread
        exact hold (Option.some.inj hread)
      have hj' : (s.write t i st).rows[j]? = some r' := by simp [write, hne, hj]
      exact ⟨r', List.mem_of_getElem? hj', hkey, hread⟩

/-- A transaction ends: nobody else has seen its writes, unless they are of tasks that were in `SUCCESS` before. -/
theorem Loaded.finish {f : Cell τ (Option State) → Cell τ (Option State)} {wf : Cell τ State} (h : s.Loaded w)
    (hsame : ∀ c, c.pending.map Prod.fst ≠ some t → f c = c)
    (hends : ∀ c, c.pending.map Prod.fst = some t → (f c).pending = none) :
    ({ s with wf, rows := s.rows.map fun r => { r with cell := f r.cell }, txs := Function.update s.txs t none } :
      Reverse τ).Loaded w := by
  refine h.of_others (fun r hr hc => ?_) fun u ux hu => ?_
  · obtain ⟨r₀, hr₀, rfl⟩ := List.mem_map.mp hr
    by_cases hp : r₀.cell.pending.map Prod.fst = some t
    · exact hends _ hp
    · simp only [hsame _ hp] at hc ⊢
      exact h.settled r₀ hr₀ hc
  · simp only [Function.update_apply] at hu
    split at hu
    · cases hu
    next hne =>
      refine .inl ⟨hu, fun n ⟨r, hr, hkey, hread⟩ => ?_⟩
      have hp : r.cell.pending.map Prod.fst ≠ some t := by
        intro hp
        obtain ⟨⟨t', v⟩, hp', rfl⟩ := Option.map_eq_some_iff.mp hp
        rw [Cell.read_of_ne hp' (Ne.symm hne)] at hread
        rw [h.settled r hr hread] at hp'
        cases hp'
      exact ⟨_, List.mem_map.mpr ⟨r, hr, rfl⟩, hkey, by simp only [hsame _ hp, hread]⟩

theorem mem_successNames (h : n ∈ s.successNames t) : s.SeesSuccess t n := by
  obtain ⟨r, hr, rfl⟩ := List.mem_map.mp h
  rw [List.mem_filter, decide_eq_true_eq] at hr
  exact ⟨r, hr.1, rfl, hr.2⟩

theorem loaded_step (h : s.Loaded w) (ev : ReverseEvent τ) : (s.step w ev).Loaded w := by
  have hmoved := moved_step (w := w) (s := s) ev
  generalize s.step w ev = s' at hmoved ⊢
  cases hmoved with
  | stay => exact h
  | complete htx hrow hcell hold =>
    refine h.update hrow hcell ?_
    rintro rfl
    cases hold
  | skip htx hrow hcell => exact h.update hrow hcell nofun
  | pause => exact h.of_others h.settled fun u ux hu => .inl ⟨hu, fun _ => id⟩
  | resume htx =>
    refine h.of_others h.settled fun u ux hu => ?_
    rw [txs_setTx] at hu
    split at hu
    · cases hu
      exact .inr ⟨rfl, rfl⟩
    · exact .inl ⟨hu, fun _ => id⟩
  | present htx => exact h.setTx htx (fun names => .inl) fun m => .inl
  | free htx hasks htodo hhas hreq =>
    refine h.setTx htx (fun names => .inl) fun m hm => ?_
    obtain hm | hm := List.mem_append.mp hm
    · exact .inl hm
    · rw [List.mem_singleton.mp hm, hreq]
      exact .inr nofun
  | ask htx => exact h.setTx htx (fun names => .inl) fun m => .inl
  | @require t tx n success found htx hasks hsuccess hfound =>
    have hall : ∀ m ∈ success, s.SeesSuccess t m := fun m hm => by
      rcases hnames : tx.success with _ | names <;> rw [hsuccess, hnames] at hm
      · exact mem_successNames hm
      · exact h.success t tx names htx hnames m hm
    refine h.setTx htx (fun names hnames => .inr ?_) fun m hm => ?_
    · cases hnames
      exact hall
    · obtain hm | hm := List.mem_append.mp hm
      · exact .inl hm
      · rw [hfound] at hm
        split at hm
        next hreqs =>
          obtain rfl := List.mem_singleton.mp hm
          exact .inr fun req hreq => hall req (by simpa using List.all_eq_true.mp hreqs req hreq)
        · cases hm
  | @create t tx n cmds htx hasks htodo hcmds =>
    have hset : (s.setTx t (some { tx with cmds })).Loaded w :=
      h.setTx htx (fun names => .inl) fun m hm => .inl (hcmds ▸ List.mem_cons_of_mem n hm)
    refine hset.of_others (fun r hr hc => ?_) fun u ux hu => .inl ⟨hu, fun m ⟨r, hr, hr'⟩ => ?_⟩
    · obtain hr | hr := List.mem_append.mp hr
      · exact h.settled r hr hc
      · obtain rfl := List.mem_singleton.mp hr
        cases hc
    · exact ⟨r, List.mem_append_left _ hr, hr'⟩
  | commit => exact h.finish (fun c => Cell.commit_of_ne) fun c hp => by simp [Cell.commit, hp]
  | rollback => exact h.finish (fun c => Cell.rollback_of_ne) fun c hp => by simp [Cell.rollback, hp]
  | check =>
    obtain ⟨hrows, htxs⟩ := rows_check (w := w) (s := s)
    refine h.of_others (hrows ▸ h.settled) fun u ux hu => .inl ⟨htxs ▸ hu, fun n hn => ?_⟩
    unfold SeesSuccess
    rwa [hrows]

/-! ### Runs -/

theorem txs_start {ux : ReverseTx} (hu : (start w t).txs u = some ux) : u = t ∧ ux = { todo := w.order } := by
  simp only [start, Function.update_apply] at hu
  split at hu
  next heq =>
    cases hu
    exact ⟨heq, rfl⟩
  · cases hu

theorem exclusive_start (w : ReverseWorkflow) (t : τ) : (start w t).Exclusive := by
  refine ⟨fun u ux hu => ?_, fun r hr => absurd hr List.not_mem_nil, fun _ _ _ r hr => absurd hr List.not_mem_nil,
    fun _ _ _ _ _ r hr => absurd hr List.not_mem_nil, fun u v ux vx n hu hv => ?_, .nil⟩
  · obtain ⟨-, rfl⟩ := txs_start hu
    simpa [ReverseTx.held] using w.nodup_order
  · rw [(txs_start hu).1, (txs_start hv).1]
    exact fun _ _ => rfl

theorem loaded_start (w : ReverseWorkflow) (t : τ) : (start w t).Loaded w := by
  have hempty : (⟨(start w t).wf, [], fun _ => none, (start w t).checks⟩ : Reverse τ).Loaded w :=
    ⟨fun r hr => absurd hr List.not_mem_nil, by rintro _ _ _ ⟨⟩, by rintro _ _ _ ⟨⟩⟩
  refine hempty.of_others (fun r hr => absurd hr List.not_mem_nil) fun u ux hu => .inr ?_
  obtain ⟨-, rfl⟩ := txs_start hu
  exact ⟨rfl, rfl⟩

theorem reach_loaded {guard : Reverse τ → ReverseEvent τ → Prop} (h : (reverseSystem τ w).Reach guard s) : s.Loaded w := by
  refine h.invariant ?_ fun s ev _ hs _ => loaded_step hs ev
  rintro s ⟨t, rfl⟩
  exact loaded_start w t

theorem reach_exclusive (h : (reverseSystem τ w).Reach Unrivalled s) : s.Exclusive := by
  refine h.invariant ?_ fun s ev _ hs hg => exclusive_step hs hg
  rintro s ⟨t, rfl⟩
  exact exclusive_start w t

end
end Reverse

/-- No task has two executions, and tasks are created only when everything that they require is in `SUCCESS`. -/
def RunsEachTaskOnce (τ : Type) [DecidableEq τ] (w : ReverseWorkflow) (guard : Reverse τ → ReverseEvent τ → Prop) : Prop :=
  ∀ s, (reverseSystem τ w).Reach guard s → UniqueKeys s.rows ∧ s.CreatesSatisfied w

theorem reverse_tasks_run_once (τ : Type) [DecidableEq τ] (w : ReverseWorkflow) :
    RunsEachTaskOnce τ w Reverse.Unrivalled := fun _ h =>
  ⟨(Reverse.reach_exclusive h).unique, (Reverse.reach_loaded h).cmds⟩

/-! ### A task that is created twice -/

/-- The target requires `c` and `d`, and `c` requires `a`. -/
def forkedSpec : ReverseWorkflowSpec where
  tasks := [{ name := "a" }, { name := "c", requires := ["a"] }, { name := "d" }, { name := "target", requires := ["c", "d"] }]

def forked : ReverseWorkflow where
  spec := forkedSpec
  valid := by decide
  target := "target"
  exists_target := by decide
  order := ["a", "c", "d", "target"]
  nodup_order := by decide
  mem_order name := by
    refine ⟨fun h => ?_, forkedSpec.mem_of_closed (by decide) (by decide)⟩
    have hc : Relation.ReflTransGen forkedSpec.Requires "target" "c" := .single (by simp only [ReverseWorkflowSpec.Requires]; decide)
    simp only [List.mem_cons, List.not_mem_nil, or_false] at h
    obtain rfl | rfl | rfl | rfl := h
    · exact hc.tail (by simp only [ReverseWorkflowSpec.Requires]; decide)
    · exact hc
    · exact .single (by simp only [ReverseWorkflowSpec.Requires]; decide)
    · exact .refl

local instance forked_neZero : NeZero 3 := ⟨Nat.succ_ne_zero 2⟩

/-- `a` and `d` complete in two transactions. The second one finds that `c` has no execution, the first one creates `c`
    and commits, and then the second one finds that `a` is in `SUCCESS`. -/
def forkedRun : List (ReverseEvent (Fin 3)) :=
  List.replicate 9 (.run 0) ++ [.complete 1 0 .success, .complete 2 1 .success] ++ List.replicate 2 (.run 2) ++
    List.replicate 8 (.run 1) ++ List.replicate 6 (.run 2)

theorem concurrent_completions_create_twice : ¬RunsEachTaskOnce (Fin 3) forked fun _ _ => True := by
  intro h
  have hreach : (reverseSystem (Fin 3) forked).Reach (fun _ _ => True)
      ((reverseSystem (Fin 3) forked).run (Reverse.start forked 0) forkedRun) :=
    .run (.init ⟨0, rfl⟩) (by simp [forkedRun, System.Guarded, List.replicate])
  obtain ⟨hunique, -⟩ := h _ hreach
  have hrows : ((reverseSystem (Fin 3) forked).run (Reverse.start forked 0) forkedRun).rows =
      [⟨"a", { committed := some .success }⟩, ⟨"d", { committed := some .success }⟩, ⟨"c", { committed := some .idle }⟩,
        ⟨"c", { committed := some .idle }⟩] := by decide
  rw [hrows] at hunique
  simp [UniqueKeys, Row.Live] at hunique

end Mistral
