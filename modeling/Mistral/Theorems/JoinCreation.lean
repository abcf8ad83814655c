import Mathlib.Data.List.MinMax
import Mistral.Engine.Joins

/-! Joins are created once. Only the transaction that holds the lock of a key creates or changes the execution of that
    join, and the locks are taken in the order of the keys. -/

namespace Mistral

/-! ### The order of the keys -/

theorem compareTaskCommands_waiting {a b : Cmd} (ha : a.isWaiting) (h : compareTaskCommands a b ≤ 0) :
    b.isWaiting ∧ a.uniqueKey?.getD "" ≤ b.uniqueKey?.getD "" := by
  unfold compareTaskCommands at h
  simp only [ha, Bool.not_true, Bool.false_eq_true, if_false] at h
  split at h
  · omega
  next hb =>
    refine ⟨by simpa using hb, ?_⟩
    split at h
    next heq => rw [heq]
    next =>
      split at h
      next hlt => exact le_of_lt hlt
      next => omega

theorem sorted_waiting : ∀ {cmds : List Cmd}, cmds.IsChain (fun a b => compareTaskCommands a b ≤ 0) →
    ((cmds.filter (·.isWaiting)).map (·.uniqueKey?.getD "")).Pairwise (· ≤ ·)
  | [], _ => by simp
  | [cmd], _ => by by_cases hcmd : cmd.isWaiting <;> simp [hcmd]
  | cmd :: next :: cmds, h => by
    rw [List.isChain_cons_cons] at h
    have ih := sorted_waiting h.2
    by_cases hcmd : cmd.isWaiting
    · obtain ⟨hnext, hle⟩ := compareTaskCommands_waiting hcmd h.1
      simp only [List.filter_cons, hcmd, hnext, if_true, List.map_cons] at ih ⊢
      refine List.pairwise_cons.mpr ⟨fun k hk => ?_, ih⟩
      obtain rfl | hk := List.mem_cons.mp hk
      · exact hle
      · exact le_trans hle ((List.pairwise_cons.mp ih).1 k hk)
    · simpa [List.filter_cons, hcmd] using ih

theorem sorted_deferredKeys (ls : OrderedSort) {cmds : List Cmd} (hkeyed : Keyed cmds) :
    (deferredKeys ls.toListSort cmds).Pairwise (· ≤ ·) := by
  have hsorted : ∀ {l : List Cmd}, (∀ c ∈ l, c.isTask) → ∀ c ∈ ls.sort l, (!c.isSetWorkflowState) = true := by
    intro l h c hc
    have := h c ((ls.perm l).mem_iff.mp hc)
    rw [Cmd.isTask_eq, Bool.and_eq_true] at this
    exact this.2
  obtain ⟨l, hl, heq⟩ | ⟨before, cmd, tail, hbefore, hcmd, -, -, heq⟩ := rearrange_cases ls.toListSort cmds
  · have hkeyed : Keyed l := fun c hc => hkeyed c (mem_rearrangeCommands (heq ▸ (ls.perm l).mem_iff.mpr hc))
    rw [deferredKeys, heq, List.takeWhile_eq_self_iff.mpr (hsorted hl)]
    exact sorted_waiting (ls.ordered l hkeyed)
  · have hkeyed : Keyed before := fun c hc =>
      hkeyed c (mem_rearrangeCommands (heq ▸ List.mem_append_left _ ((ls.perm before).mem_iff.mpr hc)))
    rw [deferredKeys, heq, List.takeWhile_append_of_pos (hsorted hbefore)]
    simpa [hcmd] using sorted_waiting (ls.ordered before hkeyed)

namespace Joins
variable {τ : Type} [DecidableEq τ] {s s' : Joins τ} {t u : τ} {k : String} {keys : τ → List String}

/-! ### What holds in every state -/

/-- `t` found the execution `r` of the join `k`, and sees it waiting. -/
def Sees (s : Joins τ) (t : τ) (k : String) (r : Nat) : Prop :=
  ∃ row, s.rows[r]? = some row ∧ row.key = k ∧ row.cell.read t = some .waiting

/-- What the next statement of `defer` relies on. -/
def Ready (s : Joins τ) (t : τ) : Prop :=
  match (s.txs t).todo, (s.txs t).next with
  | k :: _, .reread => (t, k) ∈ s.locks
  | k :: _, .create => (t, k) ∈ s.locks ∧ ∀ row ∈ s.rows, row.key = k → ¬row.Live
  | k :: _, .setWaiting r st => (t, k) ∈ s.locks ∧ ∃ row, s.rows[r]? = some row ∧ row.key = k ∧ row.cell = ⟨some st, none⟩
  | _, _ => True

/-- The transaction `t` is on its way through its keys. -/
structure Going (s : Joins τ) (keys : List String) (t : τ) : Prop where
  sorted : (s.txs t).todo.Pairwise (· ≤ ·)
  held : ∀ k, (t, k) ∈ s.locks → (s.txs t).status = .running ∧ ∀ k' ∈ (s.txs t).todo, k ≤ k'
  keys : (s.txs t).found.reverse.map Prod.fst ++ (s.txs t).todo = keys
  sees : (s.txs t).status = .running ∨ (s.txs t).status = .committed → ∀ k r, (k, r) ∈ (s.txs t).found → s.Sees t k r
  ready : (s.txs t).status = .running → s.Ready t
  done : (s.txs t).status = .committed → (s.txs t).todo = []
  conflictFree : (s.txs t).status ≠ .duplicateKey

/-- The rows and the locks. -/
structure Sound (s : Joins τ) : Prop where
  pending : ∀ row ∈ s.rows, ∀ u v, row.cell.pending = some (u, v) → v = some .waiting ∧ (u, row.key) ∈ s.locks
  exclusive : ∀ u v k, (u, k) ∈ s.locks → (v, k) ∈ s.locks → u = v
  unique : UniqueKeys s.rows

/-- What `u` relies on stays. -/
structure Quiet (s s' : Joins τ) (u : τ) : Prop where
  tx : s'.txs u = s.txs u
  locks : ∀ k, (u, k) ∈ s'.locks ↔ (u, k) ∈ s.locks
  seen : ∀ (r : Nat) (row : Row τ State), s.rows[r]? = some row → ∃ row', s'.rows[r]? = some row' ∧ row'.key = row.key ∧
    (row.cell.read u = some .waiting → row'.cell.read u = some .waiting)
  locked : ∀ (r : Nat) (row' : Row τ State), s'.rows[r]? = some row' → (u, row'.key) ∈ s.locks → s.rows[r]? = some row'

theorem Quiet.sees {r : Nat} (h : Quiet s s' u) : s.Sees u k r → s'.Sees u k r := by
  rintro ⟨row, hrow, hkey, hread⟩
  obtain ⟨row', hrow', hkey', hread'⟩ := h.seen r row hrow
  exact ⟨row', hrow', hkey'.trans hkey, hread' hread⟩

theorem Quiet.ready (h : Quiet s s' u) (hready : s.Ready u) : s'.Ready u := by
  unfold Ready at hready ⊢
  rw [h.tx]
  split
  · simp_all [h.locks]
  next htodo hnext =>
    simp only [htodo, hnext] at hready
    refine ⟨(h.locks _).mpr hready.1, fun row' hrow' hkey => ?_⟩
    obtain ⟨r, hr⟩ := List.mem_iff_getElem?.mp hrow'
    have hrow := h.locked r row' hr (hkey ▸ hready.1)
    exact hready.2 row' (List.mem_of_getElem? hrow) hkey
  next r st htodo hnext =>
    simp only [htodo, hnext] at hready
    obtain ⟨hlock, row, hrow, hkey, hcell⟩ := hready
    obtain ⟨row', hrow', hkey', -⟩ := h.seen r row hrow
    have heq := h.locked r row' hrow' (by rw [hkey', hkey]; exact hlock)
    obtain rfl := Option.some.inj (heq.symm.trans hrow)
    exact ⟨(h.locks _).mpr hlock, row', hrow', hkey, hcell⟩
  · trivial

theorem Going.quiet {keys : List String} (hg : s.Going keys u) (h : Quiet s s' u) : s'.Going keys u where
  sorted := by rw [h.tx]; exact hg.sorted
  held k hk := by rw [h.tx]; exact hg.held k ((h.locks k).mp hk)
  keys := by rw [h.tx]; exact hg.keys
  sees hst k r hr := by rw [h.tx] at hst hr; exact h.sees (hg.sees hst k r hr)
  ready hst := by rw [h.tx] at hst; exact h.ready (hg.ready hst)
  done hst := by rw [h.tx] at hst ⊢; exact hg.done hst
  conflictFree := by rw [h.tx]; exact hg.conflictFree

/-! ### The statements -/

theorem find?_eq_some {p : State → Bool} {r : Nat} {st : State} (h : s.find? t k p = some (r, st)) :
    p st ∧ ∃ row, s.rows[r]? = some row ∧ row.key = k ∧ row.cell.read t = some st := by
  obtain ⟨⟨row, i⟩, hmem, hrow⟩ := List.exists_of_findSome?_eq_some h
  simp only [Option.ite_none_right_eq_some, Option.map_eq_some_iff, Option.filter_eq_some_iff, Prod.mk.injEq] at hrow
  obtain ⟨hkey, st', ⟨hread, hp⟩, rfl, rfl⟩ := hrow
  exact ⟨hp, row, List.mem_zipIdx_iff_getElem?.mp hmem, hkey, hread⟩

theorem find?_eq_none (h : (s.find? t k fun _ => true) = none) {row : Row τ State} (hrow : row ∈ s.rows)
    (hkey : row.key = k) : row.cell.read t = none := by
  obtain ⟨r, hr⟩ := List.mem_iff_getElem?.mp hrow
  have := List.findSome?_eq_none_iff.mp h (row, r) (List.mem_zipIdx_iff_getElem?.mpr hr)
  exact Option.eq_none_iff_forall_ne_some.mpr (by simpa [hkey] using this)

/-- Who waits, waits for the lock of its first key. -/
theorem waits_lock (hg : s.Going (keys t) t) (h : s.Waits t u) :
    ∃ k ks, (s.txs t).todo = k :: ks ∧ u ≠ t ∧ (u, k) ∈ s.locks := by
  obtain ⟨hrun, hblock⟩ := h
  have hready := hg.ready hrun
  unfold blocker at hblock
  unfold Ready at hready
  split at hblock
  next k ks htodo hnext =>
    obtain ⟨⟨v, k'⟩, hfind, rfl⟩ := Option.map_eq_some_iff.mp hblock
    have hv := List.find?_some hfind
    simp only [Bool.decide_and, Bool.and_eq_true, decide_eq_true_eq] at hv
    exact ⟨k, ks, htodo, hv.2, hv.1 ▸ List.mem_of_find?_eq_some hfind⟩
  next k ks htodo hnext =>
    simp only [htodo, hnext] at hready
    obtain ⟨row, hrow, hblocks⟩ := List.exists_of_findSome?_eq_some hblock
    rw [List.mem_filter, decide_eq_true_eq] at hrow
    rw [Cell.blocker_eq_some_iff] at hblocks
    refine absurd (.inr fun hp => ?_) (hready.2 row hrow.1 hrow.2)
    simp [hp, Cell.Blocks] at hblocks
  next r st htodo hnext =>
    simp only [htodo, hnext] at hready
    obtain ⟨-, row, hrow, -, hcell⟩ := hready
    rw [hrow, Option.bind_some, Cell.blocker_eq_some_iff, hcell] at hblock
    simp [Cell.Blocks] at hblock
  · cases hblock

/-! ### One transaction moves -/

/-- After a step of `t`. -/
structure Moved (s s' : Joins τ) (keys : List String) (t : τ) : Prop where
  sound : s'.Sound
  going : s'.Going keys t
  quiet : ∀ u, u ≠ t → Quiet s s' u

theorem quiet_setTx {tx : DeferTx} (hu : u ≠ t) : Quiet s (s.setTx t tx) u where
  tx := by simp [setTx, hu]
  locks _ := Iff.rfl
  seen _ row hrow := ⟨row, hrow, rfl, id⟩
  locked _ _ hrow _ := hrow

/-- The first join is done with. -/
theorem going_got {keys : List String} {ks : List String} {r : Nat} (hg : s.Going keys t)
    (hrun : (s.txs t).status = .running) (htodo : (s.txs t).todo = k :: ks)
    (htx : s'.txs t = { s.txs t with todo := ks, next := .check, found := (k, r) :: (s.txs t).found })
    (hlocks : s'.locks = s.locks) (hsees : ∀ k' r', s.Sees t k' r' → s'.Sees t k' r') (hnew : s'.Sees t k r) :
    s'.Going keys t := by
  have hsorted := hg.sorted
  rw [htodo] at hsorted
  refine { sorted := ?_, held := fun k' hk' => ?_, keys := ?_, sees := fun _ k' r' hr => ?_, ready := fun _ => ?_,
           done := fun h => ?_, conflictFree := ?_ }
  · rw [htx]
    exact (List.pairwise_cons.mp hsorted).2
  · obtain ⟨-, hle⟩ := hg.held k' (hlocks ▸ hk')
    rw [htx]
    exact ⟨hrun, fun k'' hk'' => hle k'' (htodo ▸ List.mem_cons_of_mem k hk'')⟩
  · have := hg.keys
    rw [htodo] at this
    simpa [htx] using this
  · rw [htx] at hr
    obtain heq | hr := List.mem_cons.mp hr
    · cases heq
      exact hnew
    · exact hsees k' r' (hg.sees (.inl hrun) k' r' hr)
  · unfold Ready
    rw [htx]
    split <;> simp_all
  · simp [htx, hrun] at h
  · simp [htx, hrun]

/-- The next statement for the first join. -/
theorem going_goTo {keys : List String} {ks : List String} {next : DeferStep} (hg : s.Going keys t)
    (hrun : (s.txs t).status = .running) (htodo : (s.txs t).todo = k :: ks)
    (htx : s'.txs t = { s.txs t with next }) (hrows : s'.rows = s.rows)
    (hheld : ∀ k', (t, k') ∈ s'.locks → (t, k') ∈ s.locks ∨ k' = k) (hready : s'.Ready t) : s'.Going keys t := by
  have hsorted := hg.sorted
  rw [htodo] at hsorted
  refine { sorted := by rw [htx]; exact hg.sorted, held := fun k' hk' => ?_, keys := by rw [htx]; exact hg.keys,
           sees := fun _ k' r hr => ?_, ready := fun _ => hready, done := fun h => ?_, conflictFree := ?_ }
  · rw [htx]
    obtain hk' | rfl := hheld k' hk'
    · exact hg.held k' hk'
    · refine ⟨hrun, fun k'' hk'' => ?_⟩
      obtain rfl | hk'' := List.mem_cons.mp (htodo ▸ hk'')
      · exact le_rfl
      · exact (List.pairwise_cons.mp hsorted).1 k'' hk''
  · rw [htx] at hr
    obtain ⟨row, hrow, h⟩ := hg.sees (.inl hrun) k' r hr
    exact ⟨row, hrows ▸ hrow, h⟩
  · simp [htx, hrun] at h
  · simp [htx, hrun]

/-! ### The end of a transaction -/

/-- What commit and rollback of `t` have in common. -/
structure Releases (t : τ) (f : Cell τ (Option State) → Cell τ (Option State)) : Prop where
  pending : ∀ c u v, (f c).pending = some (u, v) → c.pending = some (u, v) ∧ u ≠ t
  same : ∀ c, c.pending.map Prod.fst ≠ some t → f c = c
  live : ∀ c, (f c).committed ≠ none → c.committed ≠ none ∨ c.pending ≠ none
  read : ∀ c u, u ≠ t → (∀ v, c.pending = some (t, v) → v = some .waiting) → c.read u = some .waiting →
    (f c).read u = some .waiting

theorem releases_commit : Releases t (·.commit t) where
  pending _ _ _ := Cell.pending_commit
  same _ := Cell.commit_of_ne
  live c h := by
    rw [Cell.committed_commit] at h
    rcases hp : c.pending with _ | p
    · rw [Cell.read_of_none hp] at h
      exact .inl h
    · exact .inr nofun
  read c u hu hw h := by
    by_cases hp : c.pending.map Prod.fst = some t
    · obtain ⟨⟨w, v⟩, hc, rfl⟩ := Option.map_eq_some_iff.mp hp
      rw [Cell.commit_of_pending hc, Cell.read_of_none rfl, hw v hc]
    · rw [Cell.commit_of_ne hp, h]

theorem releases_rollback : Releases t (·.rollback t) where
  pending _ _ _ := Cell.pending_rollback
  same _ := Cell.rollback_of_ne
  live _ h := .inl (by simpa using h)
  read _ _ hu _ h := by rw [Cell.read_rollback hu, h]

section
variable {f : Cell τ (Option State) → Cell τ (Option State)} {status : TxStatus}

theorem getElem?_finish {r : Nat} {row' : Row τ State} :
    (s.finish t status f).rows[r]? = some row' ↔ ∃ row, s.rows[r]? = some row ∧ { row with cell := f row.cell } = row' := by
  simp [finish, Option.map_eq_some_iff]

theorem mem_locks_finish : (u, k) ∈ (s.finish t status f).locks ↔ (u, k) ∈ s.locks ∧ u ≠ t := by
  simp [finish]

theorem sound_finish (hs : s.Sound) (hf : Releases t f) : (s.finish t status f).Sound where
  pending row' hrow' u v hp := by
    obtain ⟨row, hrow, rfl⟩ := List.mem_map.mp hrow'
    obtain ⟨hp, hu⟩ := hf.pending _ _ _ hp
    obtain ⟨hv, hlock⟩ := hs.pending row hrow u v hp
    exact ⟨hv, mem_locks_finish.mpr ⟨hlock, hu⟩⟩
  exclusive u v k hu hv := hs.exclusive u v k (mem_locks_finish.mp hu).1 (mem_locks_finish.mp hv).1
  unique := by
    refine hs.unique.map fun row _ => ⟨rfl, ?_⟩
    rintro (h | h)
    · exact hf.live _ h
    · obtain ⟨⟨u, v⟩, hp⟩ := Option.ne_none_iff_exists'.mp h
      exact .inr (by simp [(hf.pending _ _ _ hp).1])

theorem quiet_finish (hs : s.Sound) (hf : Releases t f) (hu : u ≠ t) : Quiet s (s.finish t status f) u where
  tx := by simp [finish, hu]
  locks k := by simp [mem_locks_finish, hu]
  seen r row hrow := by
    refine ⟨_, getElem?_finish.mpr ⟨row, hrow, rfl⟩, rfl, hf.read _ u hu fun v hp => ?_⟩
    exact (hs.pending row (List.mem_of_getElem? hrow) t v hp).1
  locked r row' hrow' hlock := by
    obtain ⟨row, hrow, rfl⟩ := getElem?_finish.mp hrow'
    have hp : row.cell.pending.map Prod.fst ≠ some t := by
      intro hp
      obtain ⟨⟨w, v⟩, hc, rfl⟩ := Option.map_eq_some_iff.mp hp
      exact hu (hs.exclusive _ _ _ hlock (hs.pending row (List.mem_of_getElem? hrow) w v hc).2)
    rw [hrow, hf.same _ hp]

theorem going_finish {keys : List String} (hg : s.Going keys t) (hrun : (s.txs t).status = .running)
    (hne : status ≠ .running ∧ status ≠ .duplicateKey) (hdone : status = .committed → (s.txs t).todo = [])
    (hread : status = .committed → ∀ c : Cell τ (Option State), (f c).read t = c.read t) :
    (s.finish t status f).Going keys t := by
  have htx : (s.finish t status f).txs t = { s.txs t with status } := by simp [finish]
  refine { sorted := by rw [htx]; exact hg.sorted, held := fun k' hk' => absurd rfl (mem_locks_finish.mp hk').2,
           keys := by rw [htx]; exact hg.keys, sees := fun hst k' r hr => ?_, ready := fun h => ?_,
           done := fun h => ?_, conflictFree := ?_ } <;> rw [htx] at *
  · obtain ⟨row, hrow, hkey, hsees⟩ := hg.sees (.inl hrun) k' r hr
    exact ⟨_, getElem?_finish.mpr ⟨row, hrow, rfl⟩, hkey, by rw [hread (hst.resolve_left hne.1), hsees]⟩
  · exact absurd h hne.1
  · exact hdone h
  · exact hne.2

theorem moved_commit {keys : List String} (hs : s.Sound) (hg : s.Going keys t) (hrun : (s.txs t).status = .running)
    (htodo : (s.txs t).todo = []) : Moved s (s.finish t .committed (·.commit t)) keys t where
  sound := sound_finish hs releases_commit
  going := going_finish hg hrun ⟨nofun, nofun⟩ (fun _ => htodo) fun _ _ => Cell.read_commit
  quiet _ hu := quiet_finish hs releases_commit hu

theorem moved_rollback {keys : List String} (hs : s.Sound) (hg : s.Going keys t)
    (hrun : (s.txs t).status = .running) : Moved s (s.finish t .rolledBack (·.rollback t)) keys t where
  sound := sound_finish hs releases_rollback
  going := going_finish hg hrun ⟨nofun, nofun⟩ nofun nofun
  quiet _ hu := quiet_finish hs releases_rollback hu

end

/-! ### The statements of `defer` -/

/-- A transaction that goes on without writing. -/
theorem Sound.setTx {tx : DeferTx} (hs : s.Sound) : (s.setTx t tx).Sound := ⟨hs.pending, hs.exclusive, hs.unique⟩

theorem moved_got {keys ks : List String} {r : Nat} (hs : s.Sound) (hg : s.Going keys t)
    (hrun : (s.txs t).status = .running) (htodo : (s.txs t).todo = k :: ks) (hsees : s.Sees t k r) :
    Moved s (s.got t r) keys t := by
  simp only [got, htodo]
  exact ⟨hs.setTx, going_got hg hrun htodo (by simp [setTx]) rfl (fun _ _ h => h) hsees, fun _ hu => quiet_setTx hu⟩

theorem txs_goTo {next : DeferStep} : (s.goTo t next).txs t = { s.txs t with next } := by simp [goTo, setTx]

theorem moved_goTo {keys ks : List String} {next : DeferStep} (hs : s.Sound) (hg : s.Going keys t)
    (hrun : (s.txs t).status = .running) (htodo : (s.txs t).todo = k :: ks) (hready : (s.goTo t next).Ready t) :
    Moved s (s.goTo t next) keys t where
  sound := hs.setTx
  going := going_goTo hg hrun htodo txs_goTo rfl (fun _ h => .inl h) hready
  quiet _ hu := quiet_setTx hu

theorem moved_check {keys ks : List String} (hs : s.Sound) (hg : s.Going keys t) (hrun : (s.txs t).status = .running)
    (htodo : (s.txs t).todo = k :: ks) (hnext : (s.txs t).next = .check) : Moved s (s.execute t) keys t := by
  simp only [execute, htodo, hnext]
  split
  next r st hfind =>
    obtain ⟨hst, row, hrow, hkey, hread⟩ := find?_eq_some hfind
    simp only [decide_eq_true_eq] at hst
    exact moved_got hs hg hrun htodo ⟨row, hrow, hkey, hst ▸ hread⟩
  next =>
    refine moved_goTo hs hg hrun htodo ?_
    simp [Ready, goTo, setTx, htodo]

theorem moved_lock {keys ks : List String} (hs : s.Sound) (hg : s.Going keys t) (hrun : (s.txs t).status = .running)
    (htodo : (s.txs t).todo = k :: ks) (hnext : (s.txs t).next = .lock) (hfree : s.blocker t = none) :
    Moved s (s.execute t) keys t := by
  simp only [blocker, htodo, hnext, Option.map_eq_none_iff, List.find?_eq_none] at hfree
  simp only [execute, htodo, hnext]
  have hown : ∀ v, (v, k) ∈ s.locks → v = t := fun v hv => by simpa using hfree (v, k) hv
  refine { sound := ⟨fun row hrow u v hp => ?_, fun u v k' hu hv => ?_, hs.unique⟩, going := ?_, quiet := fun u hu => ?_ }
  · obtain ⟨hv, hlock⟩ := hs.pending row hrow u v hp
    exact ⟨hv, List.mem_cons_of_mem _ hlock⟩
  · simp only [List.mem_cons, Prod.mk.injEq] at hu hv
    obtain ⟨rfl, rfl⟩ | hu := hu <;> obtain ⟨rfl, hk⟩ | hv := hv
    · rfl
    · exact (hown v hv).symm
    · exact hown u (hk ▸ hu)
    · exact hs.exclusive u v k' hu hv
  · refine going_goTo hg hrun htodo txs_goTo rfl (fun k' hk' => ?_) ?_
    · obtain heq | hk' := List.mem_cons.mp hk'
      · exact .inr (Prod.mk.inj heq).2
      · exact .inl hk'
    · simp [Ready, goTo, setTx, htodo]
  · have hq : Quiet s (s.goTo t .reread) u := quiet_setTx hu
    refine { hq with locks := fun k' => ?_ }
    simp [hu]

/-- Who holds the lock of a key and sees no execution of that join finds none at all. -/
theorem not_live (hs : s.Sound) (hlock : (t, k) ∈ s.locks) {row : Row τ State} (hrow : row ∈ s.rows) (hkey : row.key = k)
    (hread : row.cell.read t = none) : ¬row.Live := by
  intro hlive
  rcases hp : row.cell.pending with _ | ⟨u, v⟩
  · rw [Cell.read_of_none hp] at hread
    exact hlive.elim (fun h => h hread) fun h => h hp
  · obtain ⟨rfl, hheld⟩ := hs.pending row hrow u v hp
    obtain rfl := hs.exclusive _ _ _ hheld (hkey ▸ hlock)
    rw [Cell.read_of_pending hp] at hread
    cases hread

theorem moved_reread {keys ks : List String} (hs : s.Sound) (hg : s.Going keys t) (hrun : (s.txs t).status = .running)
    (htodo : (s.txs t).todo = k :: ks) (hnext : (s.txs t).next = .reread) : Moved s (s.execute t) keys t := by
  have hlock : (t, k) ∈ s.locks := by simpa [Ready, htodo, hnext] using hg.ready hrun
  simp only [execute, htodo, hnext]
  split
  next r st hfind =>
    obtain ⟨-, row, hrow, hkey, hread⟩ := find?_eq_some hfind
    split
    next hst => exact moved_got hs hg hrun htodo ⟨row, hrow, hkey, hst ▸ hread⟩
    next hst =>
      refine moved_goTo hs hg hrun htodo ?_
      -- The lock keeps other writers away, and its own ones only make executions wait.
      have hnone : row.cell.pending = none := by
        rcases hp : row.cell.pending with _ | ⟨u, v⟩
        · rfl
        · obtain ⟨rfl, hheld⟩ := hs.pending row (List.mem_of_getElem? hrow) u v hp
          obtain rfl := hs.exclusive _ _ _ hheld (hkey ▸ hlock)
          rw [Cell.read_of_pending hp] at hread
          exact absurd (Option.some.inj hread).symm hst
      have hcell : row.cell = ⟨some st, none⟩ := by
        rw [Cell.read_of_none hnone] at hread
        rw [← hread, ← hnone]
      have hrow' : ∃ row', s.rows[r]? = some row' ∧ row'.key = k ∧ row'.cell = ⟨some st, none⟩ := ⟨row, hrow, hkey, hcell⟩
      simpa [Ready, goTo, setTx, htodo, hlock] using hrow'
  next hfind =>
    refine moved_goTo hs hg hrun htodo ?_
    have hnone : ∀ row ∈ s.rows, row.key = k → ¬row.Live := fun row hrow hkey =>
      not_live hs hlock hrow hkey (find?_eq_none hfind hrow hkey)
    simpa [Ready, goTo, setTx, htodo, hlock] using hnone

theorem moved_create {keys ks : List String} (hs : s.Sound) (hg : s.Going keys t) (hrun : (s.txs t).status = .running)
    (htodo : (s.txs t).todo = k :: ks) (hnext : (s.txs t).next = .create) : Moved s (s.execute t) keys t := by
  obtain ⟨hlock, hnone⟩ : (t, k) ∈ s.locks ∧ ∀ row ∈ s.rows, row.key = k → ¬row.Live := by
    simpa [Ready, htodo, hnext] using hg.ready hrun
  have hfind : (s.find? t k fun _ => true) = none := by
    refine Option.eq_none_iff_forall_ne_some.mpr fun ⟨r, st⟩ h => ?_
    obtain ⟨-, row, hrow, hkey, hread⟩ := find?_eq_some h
    refine hnone row (List.mem_of_getElem? hrow) hkey ?_
    rcases hp : row.cell.pending with _ | p
    · rw [Cell.read_of_none hp] at hread
      exact .inl (by simp [hread])
    · exact .inr (by simp [hp])
  simp only [execute, htodo, hnext, hfind, Option.isSome_none, Bool.false_eq_true, if_false]
  have hgot : s.got t s.rows.length = s.setTx t { s.txs t with
      todo := ks, next := .check, found := (k, s.rows.length) :: (s.txs t).found } := by
    simp only [got, htodo]
  rw [hgot]
  have hold : ∀ (r : Nat) (row : Row τ State) (rows : List (Row τ State)), s.rows[r]? = some row →
      (s.rows ++ rows)[r]? = some row := fun r row rows h => by
    rw [List.getElem?_append_left (List.getElem?_eq_some_iff.mp h).1, h]
  refine { sound := ⟨fun row hrow u v hp => ?_, hs.exclusive, hs.unique.insert hnone⟩,
           going := going_got (r := s.rows.length) hg hrun htodo (by simp [setTx]) rfl ?_ ?_, quiet := fun u hu => ?_ }
  · obtain hrow | hrow := List.mem_append.mp hrow
    · exact hs.pending row hrow u v hp
    · obtain rfl := List.mem_singleton.mp hrow
      cases hp
      exact ⟨rfl, hlock⟩
  · rintro k' r ⟨row, hrow, h⟩
    exact ⟨row, hold r row _ hrow, h⟩
  · exact ⟨⟨k, { committed := none, pending := some (t, some .waiting) }⟩, by simp, rfl, Cell.read_of_pending rfl⟩
  · have hq : Quiet s (s.setTx t { s.txs t with
        todo := ks, next := .check, found := (k, s.rows.length) :: (s.txs t).found }) u := quiet_setTx hu
    refine ⟨hq.tx, hq.locks, fun r row hrow => ⟨row, hold r row _ hrow, rfl, id⟩, fun r row' hrow' hheld => ?_⟩
    rw [List.getElem?_append] at hrow'
    split at hrow'
    · exact hrow'
    · obtain rfl := List.mem_singleton.mp (List.mem_of_getElem? hrow')
      exact absurd (hs.exclusive _ _ _ hheld hlock) hu

theorem moved_setWaiting {keys ks : List String} {r : Nat} {st : State} (hs : s.Sound) (hg : s.Going keys t)
    (hrun : (s.txs t).status = .running) (htodo : (s.txs t).todo = k :: ks) (hnext : (s.txs t).next = .setWaiting r st) :
    Moved s (s.execute t) keys t := by
  obtain ⟨hlock, row, hrow, hkey, hcell⟩ :
      (t, k) ∈ s.locks ∧ ∃ row, s.rows[r]? = some row ∧ row.key = k ∧ row.cell = ⟨some st, none⟩ := by
    simpa [Ready, htodo, hnext] using hg.ready hrun
  have hgot : s.got t r = s.setTx t { s.txs t with todo := ks, next := .check, found := (k, r) :: (s.txs t).found } := by
    simp only [got, htodo]
  simp only [execute, htodo, hnext]
  rw [hgot]
  generalize hrows : s.rows.modify r _ = rows
  let new : Row τ State := { row with cell := row.cell.write t (some .waiting) }
  have hread : row.cell.read t = some st := by rw [hcell, Cell.read_of_none rfl]
  have hrow' : rows[r]? = some new := by
    rw [← hrows, List.getElem?_modify_eq, hrow]
    simp [hread, new]
  have hother : ∀ i : Nat, i ≠ r → rows[i]? = s.rows[i]? := fun i hi => by
    rw [← hrows, List.getElem?_modify_ne _ _ (Ne.symm hi)]
  have hnew : ∀ {i : Nat} {row' : Row τ State}, rows[i]? = some row' → i ≠ r ∧ s.rows[i]? = some row' ∨ i = r ∧ row' = new := by
    intro i row' h
    by_cases hi : i = r
    · subst hi
      exact .inr ⟨rfl, Option.some.inj (h.symm.trans hrow')⟩
    · exact .inl ⟨hi, hother i hi ▸ h⟩
  have hfree : ∀ u w, ¬row.cell.Blocks u w := fun u w h => by simp [hcell, Cell.Blocks] at h
  have hseen : ∀ u (i : Nat) (old : Row τ State), s.rows[i]? = some old → ∃ row', rows[i]? = some row' ∧ row'.key = old.key ∧
      (old.cell.read u = some .waiting → row'.cell.read u = some .waiting) := by
    intro u i old hold
    by_cases hi : i = r
    · subst hi
      obtain rfl := Option.some.inj (hold.symm.trans hrow)
      refine ⟨new, hrow', rfl, fun h => ?_⟩
      by_cases hu : u = t
      · rw [hu, Cell.read_write]
      · rw [Cell.read_write_of_free (hfree t) hu, h]
    · exact ⟨old, (hother i hi).trans hold, rfl, id⟩
  refine { sound := ⟨fun row' hmem u v hp => ?_, hs.exclusive, ?_⟩,
           going := going_got (r := r) hg hrun htodo (by simp [setTx]) rfl ?_ ?_, quiet := fun u hu => ?_ }
  · obtain ⟨i, hi⟩ := List.mem_iff_getElem?.mp hmem
    obtain ⟨-, hold⟩ | ⟨-, rfl⟩ := hnew hi
    · exact hs.pending row' (List.mem_of_getElem? hold) u v hp
    · cases hp
      exact ⟨rfl, hkey ▸ hlock⟩
  · rw [← hrows]
    refine hs.unique.modify fun old hold => ?_
    obtain rfl := Option.some.inj (hold.symm.trans hrow)
    exact ⟨by split <;> rfl, fun _ => .inl (by simp [hcell])⟩
  · rintro k' i ⟨old, hold, hk, h⟩
    obtain ⟨row', hr, hk', hw⟩ := hseen t i old hold
    exact ⟨row', hr, hk'.trans hk, hw h⟩
  · exact ⟨new, hrow', hkey, Cell.read_write⟩
  · have hq : Quiet s (s.setTx t { s.txs t with todo := ks, next := .check, found := (k, r) :: (s.txs t).found }) u :=
      quiet_setTx hu
    refine ⟨hq.tx, hq.locks, hseen u, fun i row' hi hheld => ?_⟩
    obtain ⟨-, hold⟩ | ⟨-, rfl⟩ := hnew hi
    · exact hold
    · exact absurd (hs.exclusive _ _ _ hheld (hkey ▸ hlock)) hu

theorem moved_execute {keys : List String} (hs : s.Sound) (hg : s.Going keys t) (hrun : (s.txs t).status = .running)
    (hfree : s.blocker t = none) : Moved s (s.execute t) keys t := by
  rcases htodo : (s.txs t).todo with _ | ⟨k, ks⟩
  · have heq : s.execute t = s.finish t .committed (·.commit t) := by simp only [execute, htodo]
    rw [heq]
    exact moved_commit hs hg hrun htodo
  · cases hnext : (s.txs t).next with
    | check => exact moved_check hs hg hrun htodo hnext
    | lock => exact moved_lock hs hg hrun htodo hnext hfree
    | reread => exact moved_reread hs hg hrun htodo hnext
    | create => exact moved_create hs hg hrun htodo hnext
    | setWaiting r st => exact moved_setWaiting hs hg hrun htodo hnext

/-! ### Runs -/

/-- All transactions are on their way. -/
structure Inv (s : Joins τ) (keys : τ → List String) : Prop where
  sound : s.Sound
  going : ∀ t, s.Going (keys t) t

theorem Moved.inv (h : Inv s keys) (hmoved : Moved s s' (keys t) t) : Inv s' keys where
  sound := hmoved.sound
  going u := by
    by_cases hu : u = t
    · subst hu
      exact hmoved.going
    · exact (h.going u).quiet (hmoved.quiet u hu)

theorem inv_step (h : Inv s keys) (ev : DeferEvent τ) : Inv (s.step ev) keys := by
  cases ev with
  | run t =>
    simp only [step]
    split
    next hrun => exact (moved_execute h.sound (h.going t) hrun.1 hrun.2).inv h
    · exact h
  | rollback t =>
    simp only [step]
    split
    next hrun => exact (moved_rollback h.sound (h.going t) hrun).inv h
    · exact h

theorem inv_start (ls : OrderedSort) (stored : StoredJoins) (txs : τ → JoinCmds) :
    Inv (start ls.toListSort stored txs) fun t => deferredKeys ls.toListSort (txs t).cmds where
  sound := by
    refine ⟨fun row hrow u v hp => ?_, nofun, ?_⟩
    · obtain ⟨x, -, rfl⟩ := List.mem_map.mp hrow
      cases hp
    · exact List.pairwise_map.mpr ((List.pairwise_map.mp stored.unique).imp fun h _ _ => h)
  going t := by
    refine { sorted := sorted_deferredKeys ls (txs t).keyed, held := nofun, keys := rfl, sees := fun _ _ _ h => ?_,
             ready := fun _ => ?_, done := nofun, conflictFree := nofun }
    · cases h
    · unfold Ready start
      split <;> simp_all

/-! ### Waiting -/

/-- Who holds a lock waits for a later one only. -/
theorem lt_of_waits (h : Inv s keys) {v : τ} (hlock : (u, k) ∈ s.locks) (hw : s.Waits u v) :
    ∃ k' ks, (s.txs u).todo = k' :: ks ∧ (v, k') ∈ s.locks ∧ k < k' := by
  obtain ⟨k', ks, htodo, hne, hheld⟩ := waits_lock (h.going u) hw
  refine ⟨k', ks, htodo, hheld, lt_of_le_of_ne (((h.going u).held k hlock).2 k' (by simp [htodo])) ?_⟩
  rintro rfl
  exact hne (h.sound.exclusive v u k hheld hlock)

theorem acyclic (h : Inv s keys) (t : τ) : ¬Relation.TransGen s.Waits t t := by
  refine no_wait_cycle (fun t => (s.txs t).todo.headD "") (fun {t u v} htu huv => ?_) t
  obtain ⟨k, ks, htodo, -, hlock⟩ := waits_lock (h.going t) htu
  obtain ⟨k', ks', htodo', -, hlt⟩ := lt_of_waits h hlock huv
  simpa [htodo, htodo'] using hlt

theorem goes_on (h : Inv s keys) (hrun : (s.txs t).status = .running) :
    ∃ u, (s.txs u).status = .running ∧ s.blocker u = none := by
  rcases hmax : s.locks.argmax Prod.snd with _ | ⟨u, k⟩
  · refine ⟨t, hrun, Option.eq_none_iff_forall_ne_some.mpr fun u hu => ?_⟩
    obtain ⟨k, -, -, -, hlock⟩ := waits_lock (h.going t) ⟨hrun, hu⟩
    simp [List.argmax_eq_none.mp hmax] at hlock
  · have hlock := List.argmax_mem hmax
    have hu := ((h.going u).held k hlock).1
    refine ⟨u, hu, Option.eq_none_iff_forall_ne_some.mpr fun v hv => ?_⟩
    obtain ⟨k', -, -, hheld, hlt⟩ := lt_of_waits h hlock ⟨hu, hv⟩
    exact absurd (List.le_of_mem_argmax hheld hmax) (not_le_of_gt hlt)

/-- At most one execution of each join; every transaction that is not rolled back ends up with the one of each of its
    joins, waiting; no insertion violates the unique key; no transactions wait for each other in a cycle, and while
    some run, one of them can go on. -/
structure CreatedOnce (s : Joins τ) (keys : τ → List String) : Prop where
  unique : UniqueKeys s.rows
  found : ∀ t, (s.txs t).status = .running → ∀ k r, (k, r) ∈ (s.txs t).found → s.Sees t k r
  ended : ∀ t, (s.txs t).status = .committed → ∀ k ∈ keys t, ∃ (r : Nat) (row : Row τ State), (k, r) ∈ (s.txs t).found ∧
    s.rows[r]? = some row ∧ row.key = k ∧ row.cell.committed = some .waiting
  conflictFree : ∀ t, (s.txs t).status ≠ .duplicateKey
  acyclic : ∀ t, ¬Relation.TransGen s.Waits t t
  goesOn : ∀ t, (s.txs t).status = .running → ∃ u, (s.txs u).status = .running ∧ s.blocker u = none

theorem createdOnce (h : Inv s keys) : s.CreatedOnce keys where
  unique := h.sound.unique
  found t hrun := (h.going t).sees (.inl hrun)
  ended t hst k hk := by
    have hg := h.going t
    have hkeys := hg.keys
    rw [hg.done hst, List.append_nil, List.map_reverse] at hkeys
    obtain ⟨⟨k', r⟩, hr, rfl⟩ := List.mem_map.mp (List.mem_reverse.mp (hkeys ▸ hk))
    obtain ⟨row, hrow, hkey, hread⟩ := hg.sees (.inr hst) k' r hr
    refine ⟨r, row, hr, hrow, hkey, ?_⟩
    -- What `t` reads is committed: nothing of `t` is pending after its commit.
    rcases hp : row.cell.pending with _ | ⟨u, v⟩
    · rw [← hread, Cell.read_of_none hp]
    · have hu := ((h.going u).held _ (h.sound.pending row (List.mem_of_getElem? hrow) u v hp).2).1
      rw [← hread, Cell.read_of_ne hp]
      rintro rfl
      rw [hst] at hu
      cases hu
  conflictFree t := (h.going t).conflictFree
  acyclic := acyclic h
  goesOn _ := goes_on h

end Joins

/-- Any number of transactions that defer joins, in any order of their statements. -/
theorem joins_created_once {τ : Type} [DecidableEq τ] (ls : OrderedSort) (stored : StoredJoins) (txs : τ → JoinCmds)
    (events : List (DeferEvent τ)) :
    ((deferSystem τ ls.toListSort).run (.start ls.toListSort stored txs) events).CreatedOnce
      fun t => deferredKeys ls.toListSort (txs t).cmds := by
  refine Joins.createdOnce ?_
  have hinv := Joins.inv_start ls stored txs
  generalize Joins.start ls.toListSort stored txs = s at hinv ⊢
  induction events generalizing s with
  | nil => exact hinv
  | cons ev events ih => exact ih _ (Joins.inv_step hinv ev)

end Mistral
