import Mistral.Lib.Sorting
import Mistral.Services.ExpirationPolicy

/-! Which executions the expiration policy deletes where some of the deletions fail. -/

namespace Mistral
namespace ExpirationPolicy

/-! ### Lists -/

theorem filter_not_mem_take {α κ : Type} [DecidableEq κ] {f : α → κ} {l : List α} (h : (l.map f).Nodup) (n : Nat) :
    l.filter (fun r => f r ∉ (l.take n).map f) = l.drop n := by
  have hnodup := h
  rw [← List.take_append_drop n l, List.map_append, List.nodup_append] at hnodup
  have htake : (l.take n).filter (fun r => f r ∉ (l.take n).map f) = [] :=
    List.filter_eq_nil_iff.mpr fun r hr => by
      simp only [decide_eq_true_eq, not_not]
      exact List.mem_map_of_mem hr
  have hdrop : (l.drop n).filter (fun r => f r ∉ (l.take n).map f) = l.drop n :=
    List.filter_eq_self.mpr fun r hr => by
      simp only [decide_eq_true_eq]
      exact fun hmem => hnodup.2.2 _ hmem _ (List.mem_map_of_mem hr) rfl
  conv_lhs => rw [← List.take_append_drop n l]
  rw [List.filter_append, List.take_append_drop, htake, hdrop, List.nil_append]

section
variable {α : Type} {le : α → α → Prop} [DecidableRel le] {p : α → Bool}

theorem filter_orderedInsert (hle : Sorting.WeakOrder le) {a : α} {l : List α} (hl : l.Pairwise le) :
    (l.orderedInsert le a).filter p = if p a then (l.filter p).orderedInsert le a else l.filter p := by
  induction l with
  | nil => cases hp : p a <;> simp [hp]
  | cons b l ih =>
    obtain ⟨hb, hl⟩ := List.pairwise_cons.mp hl
    by_cases hab : le a b
    · rw [List.orderedInsert_cons_of_le le l hab, List.filter_cons]
      cases hp : p a with
      | false => rfl
      | true =>
        have hall : ∀ c ∈ (b :: l).filter p, le a c := fun c hc => by
          rcases List.mem_cons.mp (List.mem_filter.mp hc).1 with rfl | hc
          · exact hab
          · exact hle.trans a b c hab (hb c hc)
        rw [if_pos rfl, if_pos rfl]
        cases hf : (b :: l).filter p with
        | nil => rfl
        | cons c l' =>
          rw [List.orderedInsert_cons_of_le le l' (hall c (hf ▸ List.mem_cons_self))]
    · rw [List.orderedInsert_of_not_le le l hab, List.filter_cons, List.filter_cons, ih hl]
      cases hp : p a with
      | false => cases p b <;> rfl
      | true =>
        cases hpb : p b with
        | false => rfl
        | true =>
          simp only [if_true]
          rw [List.orderedInsert_of_not_le le _ hab]

theorem filter_insertionSort (hle : Sorting.WeakOrder le) (l : List α) :
    (l.insertionSort le).filter p = (l.filter p).insertionSort le := by
  have : Std.Total le := ⟨hle.total⟩
  have : IsTrans α le := ⟨hle.trans⟩
  induction l with
  | nil => rfl
  | cons a l ih =>
    rw [List.insertionSort_cons, filter_orderedInsert hle (List.pairwise_insertionSort le l), ih, List.filter_cons]
    split
    · rw [List.insertionSort_cons]
    · rfl

end

/-! ### Deletions -/

variable {conf : Conf} {raises : String → Bool} {s : Store} {expirationTime : Nat} {pending : Store → List Row}

def Store.deleteEach (s : Store) (rows : List Row) : Store := rows.foldl (fun s r => s.delete r.id) s

theorem isBelow_of_parent {rows : List Row} {id : String} {depth : Nat} {r : Row} (h : r.parent = none) :
    isBelow rows id depth r = false := by
  cases depth with
  | zero => rfl
  | succ depth => rw [isBelow, h]

/-- Rows without a parent go only by themselves. -/
theorem filter_deleteEach {p : Row → Bool} (hp : ∀ r, p r → r.parent = none) (s : Store) (rows : List Row) :
    (s.deleteEach rows).rows.filter p = (s.rows.filter p).filter fun r => r.id ∉ rows.map (·.id) := by
  induction rows generalizing s with
  | nil => simp [Store.deleteEach]
  | cons e rows ih =>
    have hdelete : (s.delete e.id).rows.filter p = (s.rows.filter p).filter (·.id != e.id) := by
      rw [Store.delete, List.filter_filter, List.filter_filter]
      refine List.filter_congr fun r _ => ?_
      cases hr : p r with
      | false => simp
      | true => rw [isBelow_of_parent (hp r hr)]; simp
    show ((s.delete e.id).deleteEach rows).rows.filter p = _
    rw [ih, hdelete, List.filter_filter]
    refine List.filter_congr fun r _ => ?_
    by_cases hr : r.id = e.id <;> simp [hr]

theorem deleteEach_append (s : Store) (l₁ l₂ : List Row) : s.deleteEach (l₁ ++ l₂) = (s.deleteEach l₁).deleteEach l₂ :=
  List.foldl_append

theorem deleted_deleteEach (s : Store) (rows : List Row) :
    (s.deleteEach rows).deleted = s.deleted ++ rows.map (·.id) := by
  induction rows generalizing s with
  | nil => simp [Store.deleteEach]
  | cons e rows ih =>
    show ((s.delete e.id).deleteEach rows).deleted = _
    rw [ih, Store.delete, List.append_assoc]
    rfl

theorem sublist_deleteEach (s : Store) (rows : List Row) : (s.deleteEach rows).rows.Sublist s.rows := by
  induction rows generalizing s with
  | nil => exact .refl _
  | cons e rows ih => exact (ih _).trans List.filter_sublist

theorem deleteAll_ok {rows : List Row} (h : ∀ r ∈ rows, raises r.id = false) (s : Store) :
    deleteAll raises rows s = .ok (s.deleteEach rows) := by
  induction rows generalizing s with
  | nil => rfl
  | cons e rows ih =>
    rw [deleteAll, h e List.mem_cons_self]
    exact ih (fun r hr => h r (List.mem_cons_of_mem e hr)) _

theorem deleteAll_error {rows : List Row} (h : ∃ r ∈ rows, raises r.id) (s : Store) :
    deleteAll raises rows s = .error .typeError := by
  induction rows generalizing s with
  | nil => obtain ⟨r, hr, -⟩ := h; cases hr
  | cons e rows ih =>
    rw [deleteAll]
    split
    next => rfl
    next hno =>
      obtain ⟨r, hr, hraises⟩ := h
      rcases List.mem_cons.mp hr with rfl | hr
      · exact absurd hraises hno
      · exact ih ⟨r, hr, hraises⟩ _

/-! ### Batches -/

/-- The row at position `j` is fetched in the batch of the one at `i`, or after it. -/
def SameOrLater (conf : Conf) (i j : Nat) : Prop := conf.batchSize = 0 ∨ i / conf.batchSize ≤ j / conf.batchSize

/-- Where a loop stops that fetches the batches of a list: at the end, or before the first batch that fails. -/
def StopsAt (conf : Conf) (raises : String → Bool) (l : List Row) (k : Nat) : Except Exc Unit → Prop
  | .ok () => l.length ≤ k ∧ ∀ r ∈ l, raises r.id = false
  | .error _ => (∃ (i : Nat) (x : Row), l[i]? = some x ∧ raises x.id ∧ ∀ j, k ≤ j ↔ SameOrLater conf i j) ∧
    ∀ (j : Nat) (y : Row), j < k → l[j]? = some y → raises y.id = false

/-- A list of rows of which a prefix is deleted. -/
structure Queue (I : Store → Prop) (pending : Store → List Row) : Prop where
  drop : ∀ s n, I s → pending (s.deleteEach ((pending s).take n)) = (pending s).drop n
  keep : ∀ s rows, I s → I (s.deleteEach rows)

/-- What a query with a limit returns. -/
theorem limit_eq_take (conf : Conf) {l : List Row} (hl : l ≠ []) :
    ∃ n, 0 < n ∧ limit conf l = l.take n ∧
      (conf.batchSize = 0 ∧ n = l.length ∨ conf.batchSize ≠ 0 ∧ n = conf.batchSize) := by
  unfold limit
  by_cases hb : conf.batchSize = 0
  · exact ⟨l.length, List.length_pos_iff.mpr hl, by rw [if_pos hb, List.take_length], .inl ⟨hb, rfl⟩⟩
  · exact ⟨conf.batchSize, Nat.pos_of_ne_zero hb, if_neg hb, .inr ⟨hb, rfl⟩⟩

theorem stopsAt_of_raises {l : List Row} {n : Nat}
    (hbatch : conf.batchSize = 0 ∧ n = l.length ∨ conf.batchSize ≠ 0 ∧ n = conf.batchSize)
    (h : ∃ r ∈ l.take n, raises r.id) : StopsAt conf raises l 0 (.error .typeError) := by
  obtain ⟨x, hx, hraises⟩ := h
  obtain ⟨i, hi, hget⟩ := List.mem_iff_getElem.mp hx
  have hin : i < n := Nat.lt_of_lt_of_le hi (List.length_take_le _ _)
  have hget : l[i]? = some x := by rw [← hget, ← List.getElem?_eq_getElem hi, List.getElem?_take_of_lt hin]
  refine ⟨⟨i, x, hget, hraises, fun j => ⟨fun _ => ?_, fun _ => Nat.zero_le j⟩⟩,
    fun j y hj => absurd hj (Nat.not_lt_zero j)⟩
  rcases hbatch with ⟨hb, -⟩ | ⟨hb, rfl⟩
  · exact .inl hb
  · exact .inr (by rw [Nat.div_eq_of_lt hin]; exact Nat.zero_le _)

/-- The first batch is done, and the loop goes on with the others. -/
theorem StopsAt.after {l : List Row} {n k : Nat} {res : Except Exc Unit}
    (hbatch : conf.batchSize = 0 ∧ n = l.length ∨ conf.batchSize ≠ 0 ∧ n = conf.batchSize)
    (hnone : ∀ r ∈ l.take n, raises r.id = false) (h : StopsAt conf raises (l.drop n) k res) :
    StopsAt conf raises l (n + k) res := by
  cases res with
  | ok =>
    obtain ⟨hk, hall⟩ := h
    rw [List.length_drop] at hk
    refine ⟨by omega, fun r hr => ?_⟩
    rw [← List.take_append_drop n l] at hr
    exact (List.mem_append.mp hr).elim (hnone r) (hall r)
  | error e =>
    obtain ⟨⟨i, x, hget, hraises, hlater⟩, hbefore⟩ := h
    rcases hbatch with ⟨-, rfl⟩ | ⟨hb, rfl⟩
    · rw [List.drop_length] at hget
      cases hget
    rw [List.getElem?_drop] at hget
    refine ⟨⟨conf.batchSize + i, x, hget, hraises, fun j => ?_⟩, fun j y hj hy => ?_⟩
    · have hpos : 0 < conf.batchSize := Nat.pos_of_ne_zero hb
      rw [SameOrLater, or_iff_right hb, Nat.add_div_left i hpos]
      by_cases hj : conf.batchSize ≤ j
      · obtain ⟨j', rfl⟩ := Nat.exists_eq_add_of_le hj
        rw [Nat.add_div_left j' hpos, Nat.add_le_add_iff_left, Nat.succ_le_succ_iff, hlater, SameOrLater, or_iff_right hb]
      · rw [Nat.div_eq_of_lt (Nat.lt_of_not_le hj)]
        exact ⟨fun h => by omega, fun h => absurd h (Nat.not_succ_le_zero _)⟩
    · by_cases hn : j < conf.batchSize
      · refine hnone y (List.mem_iff_getElem?.mpr ⟨j, ?_⟩)
        rw [List.getElem?_take_of_lt hn, hy]
      · obtain ⟨j', rfl⟩ := Nat.exists_eq_add_of_le (Nat.le_of_not_lt hn)
        exact hbefore j' y (by omega) (by rw [List.getElem?_drop]; exact hy)

theorem deleteUntilDepleted_stops (conf : Conf) (raises : String → Bool) {I : Store → Prop} (hqueue : Queue I pending) :
    ∀ {fuel : Nat} {s : Store}, I s → (pending s).length < fuel → ∃ res k,
      deleteUntilDepleted raises (fun s => limit conf (pending s)) fuel s =
          some (res, s.deleteEach ((pending s).take k)) ∧
        StopsAt conf raises (pending s) k res := by
  intro fuel
  induction fuel with
  | zero => exact fun _ h => absurd h (Nat.not_lt_zero _)
  | succ fuel ih =>
    intro s hI hfuel
    rw [deleteUntilDepleted]
    by_cases hpending : pending s = []
    · have hlimit : limit conf [] = [] := by rw [limit, List.take_nil, ite_self]
      rw [hpending, hlimit]
      exact ⟨.ok (), 0, rfl, Nat.le_refl _, fun r hr => absurd hr List.not_mem_nil⟩
    obtain ⟨n, hn, hlimit, hbatch⟩ := limit_eq_take conf hpending
    have hne : limit conf (pending s) ≠ [] := by
      rw [hlimit, Ne, List.take_eq_nil_iff]
      exact fun h => h.elim (Nat.ne_of_gt hn) hpending
    split
    next hnil => exact absurd hnil hne
    by_cases hraise : ∃ r ∈ limit conf (pending s), raises r.id
    · rw [deleteAll_error hraise]
      rw [hlimit] at hraise
      exact ⟨.error .typeError, 0, rfl, stopsAt_of_raises hbatch hraise⟩
    · have hnone : ∀ r ∈ (pending s).take n, raises r.id = false := fun r hr => by
        rw [← hlimit] at hr
        exact Bool.eq_false_iff.mpr fun h => hraise ⟨r, hr, h⟩
      rw [hlimit, deleteAll_ok hnone]
      have hdrop := hqueue.drop s n hI
      have hlen : (pending (s.deleteEach ((pending s).take n))).length < fuel := by
        rw [hdrop, List.length_drop]
        have := List.length_pos_iff.mpr hpending
        omega
      obtain ⟨res, k, hres, hstops⟩ := ih (hqueue.keep s _ hI) hlen
      rw [hdrop] at hres hstops
      refine ⟨res, n + k, ?_, hstops.after hbatch hnone⟩
      rw [List.take_add, deleteEach_append]
      exact hres

/-! ### The two loops -/

/-- What is superfluous once the expired executions are gone. -/
def surplus (conf : Conf) (expirationTime : Nat) (s : Store) : List Row :=
  superfluous conf { s with rows := s.rows.filter (· ∉ expired conf expirationTime s) }

def IdsDistinct (s : Store) : Prop := (s.rows.map (·.id)).Nodup

theorem IdsDistinct.deleteEach (h : IdsDistinct s) (rows : List Row) : IdsDistinct (s.deleteEach rows) :=
  h.sublist ((sublist_deleteEach s rows).map _)

theorem IdsDistinct.eq (h : IdsDistinct s) {r r' : Row} (hr : r ∈ s.rows) (hr' : r' ∈ s.rows) (hid : r.id = r'.id) :
    r = r' :=
  List.inj_on_of_nodup_map h hr hr' hid

theorem parent_eq_none {r : Row} (h : isCompletedRoot conf r) : r.parent = none := by
  simp only [isCompletedRoot, Bool.and_eq_true] at h
  exact Option.isNone_iff_eq_none.mp h.1.1

theorem byUpdatedAtDesc_weakOrder : Sorting.WeakOrder fun a b : Row => b.updatedAt ≤ a.updatedAt where
  total _ _ := Nat.le_total _ _
  trans _ _ _ hab hbc := Nat.le_trans hbc hab

theorem mem_superfluous {r : Row} (h : r ∈ superfluous conf s) : r ∈ s.rows ∧ isCompletedRoot conf r := by
  unfold superfluous at h
  split at h
  · cases h
  · exact List.mem_filter.mp ((List.perm_insertionSort _ _).mem_iff.mp (List.mem_of_mem_drop h))

theorem mem_expired {r : Row} : r ∈ expired conf expirationTime s ↔
    r ∈ s.rows ∧ isCompletedRoot conf r ∧ r.updatedAt < expirationTime := by
  simp [expired]

theorem queue_expired : Queue IdsDistinct (expired conf expirationTime) where
  drop s n hids := by
    have hparent : ∀ r : Row, isCompletedRoot conf r && decide (r.updatedAt < expirationTime) → r.parent = none :=
      fun r hr => parent_eq_none (Bool.and_eq_true_iff.mp hr).1
    have hnodup : ((expired conf expirationTime s).map (·.id)).Nodup := hids.sublist (List.filter_sublist.map _)
    rw [← filter_not_mem_take hnodup n]
    exact filter_deleteEach hparent s _
  keep _ _ hids := hids.deleteEach _

theorem queue_superfluous : Queue IdsDistinct (superfluous conf) where
  drop s n hids := by
    by_cases hmax : conf.maxFinishedExecutions = 0
    · simp only [superfluous, hmax, if_true, List.drop_nil]
    set sorted := byUpdatedAtDesc (s.rows.filter (isCompletedRoot conf)) with hsorted
    have hdef : superfluous conf s = sorted.drop conf.maxFinishedExecutions := if_neg hmax
    have hnodup : (sorted.map (·.id)).Nodup :=
      ((List.perm_insertionSort _ _).map _).nodup_iff.mpr (hids.sublist (List.filter_sublist.map _))
    rw [hdef]
    set gone := ((sorted.drop conf.maxFinishedExecutions).take n).map (·.id) with hgone
    have hfilter : superfluous conf (s.deleteEach ((sorted.drop conf.maxFinishedExecutions).take n)) =
        (sorted.filter fun r => r.id ∉ gone).drop conf.maxFinishedExecutions := by
      rw [superfluous, if_neg hmax, filter_deleteEach fun r hr => parent_eq_none hr, byUpdatedAtDesc,
        ← filter_insertionSort byUpdatedAtDesc_weakOrder]
      rfl
    rw [← List.take_append_drop conf.maxFinishedExecutions sorted, List.map_append, List.nodup_append] at hnodup
    have htake : (sorted.take conf.maxFinishedExecutions).filter (fun r => r.id ∉ gone) =
        sorted.take conf.maxFinishedExecutions :=
      List.filter_eq_self.mpr fun r hr => by
        simp only [decide_eq_true_eq]
        intro hmem
        exact hnodup.2.2 _ (List.mem_map_of_mem hr) _ (((List.take_sublist n _).map _).subset hmem) rfl
    have hrest : (sorted.filter fun r => r.id ∉ gone) =
        sorted.take conf.maxFinishedExecutions ++ (sorted.drop conf.maxFinishedExecutions).drop n := by
      conv_lhs => rw [← List.take_append_drop conf.maxFinishedExecutions sorted]
      rw [List.filter_append, htake, filter_not_mem_take hnodup.2.1]
    rw [hfilter, hrest]
    by_cases hlong : conf.maxFinishedExecutions ≤ sorted.length
    · exact List.drop_left' (List.length_take_of_le hlong)
    · have hnil : sorted.drop conf.maxFinishedExecutions = [] := List.drop_eq_nil_of_le (by omega)
      rw [hnil, List.drop_nil, List.append_nil, List.drop_take_self]
  keep _ _ hids := hids.deleteEach _

theorem superfluous_deleteEach_expired (conf : Conf) (expirationTime : Nat) (hids : IdsDistinct s) :
    superfluous conf (s.deleteEach (expired conf expirationTime s)) = surplus conf expirationTime s := by
  have hcandidates : (s.deleteEach (expired conf expirationTime s)).rows.filter (isCompletedRoot conf) =
      (s.rows.filter (· ∉ expired conf expirationTime s)).filter (isCompletedRoot conf) := by
    rw [filter_deleteEach fun r hr => parent_eq_none hr, List.filter_filter, List.filter_filter]
    refine List.filter_congr fun r hr => ?_
    have hmem : r.id ∈ (expired conf expirationTime s).map (·.id) ↔ r ∈ expired conf expirationTime s :=
      ⟨fun h => by
        obtain ⟨e, he, hid⟩ := List.mem_map.mp h
        exact hids.eq (mem_expired.mp he).1 hr hid ▸ he, List.mem_map_of_mem⟩
    simp only [hmem, Bool.and_comm]
  simp only [surplus, superfluous, hcandidates]

/-- The expired executions come last in the order of the second query. -/
theorem byUpdatedAtDesc_eq (conf : Conf) (expirationTime : Nat) (s : Store) :
    byUpdatedAtDesc (s.rows.filter (isCompletedRoot conf)) =
      byUpdatedAtDesc ((s.rows.filter (· ∉ expired conf expirationTime s)).filter (isCompletedRoot conf)) ++
        (byUpdatedAtDesc (s.rows.filter (isCompletedRoot conf))).filter (·.updatedAt < expirationTime) := by
  have hle := byUpdatedAtDesc_weakOrder
  have : Std.Total fun a b : Row => b.updatedAt ≤ a.updatedAt := ⟨hle.total⟩
  have : IsTrans Row fun a b : Row => b.updatedAt ≤ a.updatedAt := ⟨hle.trans⟩
  have hsorted := List.pairwise_insertionSort (fun a b : Row => b.updatedAt ≤ a.updatedAt)
    (s.rows.filter (isCompletedRoot conf))
  have hcommute : byUpdatedAtDesc ((s.rows.filter (isCompletedRoot conf)).filter (expirationTime ≤ ·.updatedAt)) =
      (byUpdatedAtDesc (s.rows.filter (isCompletedRoot conf))).filter (expirationTime ≤ ·.updatedAt) :=
    (filter_insertionSort hle _).symm
  have hparts := Sorting.eq_filter_append (p := fun r : Row => decide (expirationTime ≤ r.updatedAt))
    (hsorted.imp fun {a b} hab hb => by
      simp only [decide_eq_true_eq] at hb ⊢
      exact Nat.le_trans hb hab)
  have hrest : ∀ r : Row, (!decide (expirationTime ≤ r.updatedAt)) = decide (r.updatedAt < expirationTime) := fun r => by
    rw [← decide_not, decide_eq_decide, Nat.not_le]
  have hfirst : (s.rows.filter (· ∉ expired conf expirationTime s)).filter (isCompletedRoot conf) =
      (s.rows.filter (isCompletedRoot conf)).filter (expirationTime ≤ ·.updatedAt) := by
    rw [List.filter_filter, List.filter_filter]
    refine List.filter_congr fun r hr => ?_
    cases hroot : isCompletedRoot conf r <;> simp [mem_expired, hr, hroot]
  rw [hfirst, hcommute]
  simp only [hrest] at hparts
  exact hparts

theorem mem_superfluous_iff {r : Row} : r ∈ expired conf expirationTime s ∨ r ∈ superfluous conf s ↔
    r ∈ expired conf expirationTime s ∨ r ∈ surplus conf expirationTime s := by
  unfold surplus superfluous
  by_cases hmax : conf.maxFinishedExecutions = 0
  · simp only [hmax, if_true]
  rw [if_neg hmax, if_neg hmax, byUpdatedAtDesc_eq conf expirationTime, List.drop_append, List.mem_append]
  constructor
  · rintro (hr | hr | hr)
    · exact .inl hr
    · exact .inr hr
    · obtain ⟨hr, hlt⟩ := List.mem_filter.mp (List.mem_of_mem_drop hr)
      obtain ⟨hr, hroot⟩ := List.mem_filter.mp ((List.perm_insertionSort _ _).mem_iff.mp hr)
      exact .inl (mem_expired.mpr ⟨hr, hroot, of_decide_eq_true hlt⟩)
  · rintro (hr | hr)
    · exact .inl hr
    · exact .inr (.inl hr)

/-! ### Rows below -/

theorem find?_of_sublist {rows rows' : List Row} (hids : (rows.map (·.id)).Nodup) (h : rows'.Sublist rows)
    {id : String} {r : Row} (hr : rows'.find? (·.id == id) = some r) : rows.find? (·.id == id) = some r := by
  have hid : r.id = id := by simpa using List.find?_some hr
  obtain ⟨r', hr'⟩ : ∃ r', rows.find? (·.id == id) = some r' := by
    rw [← Option.isSome_iff_exists, List.find?_isSome]
    exact ⟨r, h.subset (List.mem_of_find?_eq_some hr), by simpa using hid⟩
  have hid' : r'.id = id := by simpa using List.find?_some hr'
  rw [hr', List.inj_on_of_nodup_map hids (List.mem_of_find?_eq_some hr') (h.subset (List.mem_of_find?_eq_some hr))
    (hid'.trans hid.symm)]

theorem isBelow_mono {rows rows' : List Row} (hids : (rows.map (·.id)).Nodup) (h : rows'.Sublist rows) {id : String} :
    ∀ {depth depth' : Nat} {r : Row}, depth' ≤ depth → isBelow rows' id depth' r → isBelow rows id depth r := by
  intro depth
  induction depth with
  | zero => intro depth' r hd hr; rw [Nat.le_zero.mp hd] at hr; exact hr
  | succ depth ih =>
    intro depth' r hd hr
    cases depth' with
    | zero => exact absurd hr Bool.false_ne_true
    | succ depth' =>
      rw [isBelow] at hr ⊢
      cases hp : r.parent with
      | none => rw [hp] at hr; exact hr
      | some p =>
        simp only [hp, Bool.or_eq_true, Option.any_eq_true] at hr ⊢
        rcases hr with hr | ⟨x, hx, hr⟩
        · exact .inl hr
        · exact .inr ⟨x, find?_of_sublist hids h hx, ih (Nat.le_of_succ_le_succ hd) hr⟩

/-- A row goes by itself or with one that it is below of. -/
theorem gone_deleteEach (hids : IdsDistinct s) {rows : List Row} {r : Row} (hr : r ∈ s.rows)
    (hgone : r ∉ (s.deleteEach rows).rows) :
    r.id ∈ rows.map (·.id) ∨ ∃ id ∈ rows.map (·.id), isBelow s.rows id s.rows.length r := by
  suffices h : ∀ s' : Store, s'.rows.Sublist s.rows → r ∈ s'.rows → r ∉ (s'.deleteEach rows).rows →
      r.id ∈ rows.map (·.id) ∨ ∃ id ∈ rows.map (·.id), isBelow s.rows id s.rows.length r from h s (.refl _) hr hgone
  clear hr hgone
  induction rows with
  | nil => exact fun s' _ hr hgone => absurd hr hgone
  | cons e rows ih =>
    intro s' hsub hr hgone
    by_cases hmem : r ∈ (s'.delete e.id).rows
    · rcases ih _ (List.filter_sublist.trans hsub) hmem hgone with h | ⟨id, hid, hbelow⟩
      · exact .inl (List.mem_cons_of_mem _ h)
      · exact .inr ⟨id, List.mem_cons_of_mem _ hid, hbelow⟩
    · have hnot : ¬(r.id != e.id && !isBelow s'.rows e.id s'.rows.length r) := fun h => hmem (List.mem_filter.mpr ⟨hr, h⟩)
      by_cases hid : r.id = e.id
      · exact .inl (hid ▸ List.mem_cons_self)
      · refine .inr ⟨e.id, List.mem_cons_self, isBelow_mono hids hsub hsub.length_le ?_⟩
        simpa [hid] using hnot

theorem deleteEach_keeps_iff (hids : IdsDistinct s) {rows : List Row} (hrows : rows ⊆ s.rows) {r : Row} (hr : r ∈ s.rows)
    (hroot : isCompletedRoot conf r) : r ∈ (s.deleteEach rows).rows ↔ r ∉ rows := by
  have hmem : r ∈ (s.deleteEach rows).rows ↔ r ∈ (s.deleteEach rows).rows.filter (isCompletedRoot conf) := by
    rw [List.mem_filter, and_iff_left hroot]
  rw [hmem, filter_deleteEach (fun r hr => parent_eq_none hr), List.mem_filter,
    and_iff_right (List.mem_filter.mpr ⟨hr, hroot⟩), decide_eq_true_eq, not_iff_not]
  refine ⟨fun h => ?_, List.mem_map_of_mem⟩
  obtain ⟨e, he, hid⟩ := List.mem_map.mp h
  exact hids.eq (hrows he) hr hid ▸ he

/-! ### Failures -/

/-- No row whose deletion works is fetched in the batch of one whose deletion fails, or after it. -/
def Isolated (conf : Conf) (raises : String → Bool) (l : List Row) : Prop :=
  ∀ (i j : Nat) (x y : Row), l[i]? = some x → l[j]? = some y → raises x.id → SameOrLater conf i j → raises y.id

/-- The deletions that fail come last. -/
structure FailuresLast (conf : Conf) (raises : String → Bool) (expirationTime : Nat) (s : Store) : Prop where
  expired : Isolated conf raises (expired conf expirationTime s)
  surplus : Isolated conf raises (surplus conf expirationTime s)
  between : (∃ x ∈ ExpirationPolicy.expired conf expirationTime s, raises x.id) →
    ∀ y ∈ ExpirationPolicy.surplus conf expirationTime s, raises y.id

/-- What the policy is for. -/
structure CleansUp (conf : Conf) (raises : String → Bool) (expirationTime : Nat) (s s' : Store) : Prop where
  /-- Whatever can be deleted is. -/
  deletes : ∀ r, r ∈ expired conf expirationTime s ∨ r ∈ superfluous conf s → raises r.id = false → r ∉ s'.rows
  /-- Only finished root executions that are expired or superfluous are. -/
  only : ∀ id ∈ s'.deleted, ∃ r ∈ s.rows, r.id = id ∧ isCompletedRoot conf r ∧
    (r ∈ expired conf expirationTime s ∨ r ∈ superfluous conf s)
  /-- With them goes what is below them, and nothing else. -/
  below : ∀ r ∈ s.rows, r ∉ s'.rows → r.id ∈ s'.deleted ∨ ∃ id ∈ s'.deleted, isBelow s.rows id s.rows.length r

theorem SameOrLater.trans {i j k : Nat} (hij : SameOrLater conf i j) (hjk : SameOrLater conf j k) :
    SameOrLater conf i k := by
  rcases hij with hb | hij
  · exact .inl hb
  · exact hjk.imp id (hij.trans ·)

theorem isolated_iff {l : List Row} {k : Nat} {res : Except Exc Unit} (hnodup : l.Nodup)
    (h : StopsAt conf raises l k res) :
    (∀ r ∈ l, raises r.id = false → r ∈ l.take k) ↔ Isolated conf raises l := by
  cases res with
  | ok =>
    obtain ⟨hk, hall⟩ := h
    refine ⟨fun _ i j x y hx _ hraises _ => ?_, fun _ r hr _ => by rwa [List.take_of_length_le hk]⟩
    exact absurd hraises (Bool.eq_false_iff.mp (hall x (List.mem_of_getElem? hx)))
  | error e =>
    obtain ⟨⟨i₀, x₀, hx₀, hraises₀, hlater⟩, hbefore⟩ := h
    constructor
    · intro hall i j x y hx hy hraises hij
      by_contra hno
      obtain ⟨j', hj'⟩ := List.mem_iff_getElem?.mp (hall y (List.mem_of_getElem? hy) (Bool.eq_false_iff.mpr hno))
      have hin := (List.getElem?_eq_some_iff.mp hj').1
      rw [List.length_take] at hin
      have hlt : j' < k := by omega
      have hjl : j' < l.length := by omega
      rw [List.getElem?_take_of_lt hlt, ← hy] at hj'
      obtain rfl := (List.getElem?_inj hjl hnodup).mp hj'
      have hki : k ≤ i := by
        by_contra hlt
        exact absurd hraises (Bool.eq_false_iff.mp (hbefore i x (Nat.lt_of_not_le hlt) hx))
      exact absurd hlt (Nat.not_lt.mpr ((hlater _).mpr (((hlater i).mp hki).trans hij)))
    · intro hisolated r hr hno
      obtain ⟨j, hj⟩ := List.mem_iff_getElem?.mp hr
      refine List.mem_iff_getElem?.mpr ⟨j, ?_⟩
      rw [List.getElem?_take_of_lt, hj]
      by_contra hge
      exact absurd (hisolated i₀ j x₀ r hx₀ hj hraises₀ ((hlater j).mp (Nat.le_of_not_lt hge))) (Bool.eq_false_iff.mp hno)

/-- The two loops delete a prefix of the expired executions, or all of them and a prefix of the others. -/
theorem deleteExecutions_stops (conf : Conf) (raises : String → Bool) (expirationTime : Nat) (hids : IdsDistinct s)
    {fuel : Nat} (hfuel : s.rows.length < fuel) :
    ∃ res gone, deleteExecutions raises conf expirationTime fuel s = some (res, s.deleteEach gone) ∧
      ((∃ e k, StopsAt conf raises (expired conf expirationTime s) k (.error e) ∧
          gone = (expired conf expirationTime s).take k) ∨
        ((∀ r ∈ expired conf expirationTime s, raises r.id = false) ∧
          ∃ k, StopsAt conf raises (surplus conf expirationTime s) k res ∧
            gone = expired conf expirationTime s ++ (surplus conf expirationTime s).take k)) := by
  have hexpired : (expired conf expirationTime s).length < fuel := (List.length_filter_le _ _).trans_lt hfuel
  obtain ⟨res, k, hres, hstops⟩ := deleteUntilDepleted_stops conf raises queue_expired hids hexpired
  cases res with
  | error e =>
    refine ⟨.error e, (expired conf expirationTime s).take k, ?_, .inl ⟨e, k, hstops, rfl⟩⟩
    rw [deleteExecutions, hres]
  | ok =>
    rw [List.take_of_length_le hstops.1] at hres
    have hsuperfluous := superfluous_deleteEach_expired conf expirationTime hids
    have hlen : (superfluous conf (s.deleteEach (expired conf expirationTime s))).length < fuel := by
      have hrows := (sublist_deleteEach s (expired conf expirationTime s)).length_le
      have hle : (superfluous conf (s.deleteEach (expired conf expirationTime s))).length ≤
          (s.deleteEach (expired conf expirationTime s)).rows.length := by
        unfold superfluous
        split
        · exact Nat.zero_le _
        · rw [List.length_drop, byUpdatedAtDesc, List.length_insertionSort]
          exact (Nat.sub_le _ _).trans (List.length_filter_le _ _)
      omega
    obtain ⟨res, k, hres', hstops'⟩ := deleteUntilDepleted_stops conf raises queue_superfluous
      (hids.deleteEach (expired conf expirationTime s)) hlen
    rw [hsuperfluous] at hres' hstops'
    refine ⟨res, expired conf expirationTime s ++ (surplus conf expirationTime s).take k, ?_,
      .inr ⟨hstops.2, k, hstops', rfl⟩⟩
    rw [deleteExecutions, hres, deleteEach_append]
    exact hres'

theorem surplus_disjoint {r : Row} (hr : r ∈ surplus conf expirationTime s) : r ∉ expired conf expirationTime s := by
  have := (List.mem_filter.mp (mem_superfluous hr).1).2
  simpa using this

theorem mem_rows_of_surplus {r : Row} (hr : r ∈ surplus conf expirationTime s) : r ∈ s.rows :=
  (List.mem_filter.mp (mem_superfluous hr).1).1

theorem nodup_surplus (hids : IdsDistinct s) : (surplus conf expirationTime s).Nodup := by
  unfold surplus superfluous
  split
  · exact List.nodup_nil
  · have hrows : s.rows.Nodup := hids.of_map
    exact (((List.perm_insertionSort _ _).nodup_iff).mpr ((hrows.filter _).filter _)).sublist (List.drop_sublist _ _)

/-- What is deleted is selected, and what is not deleted is what the policy should have deleted. -/
theorem cleansUp_iff (hids : IdsDistinct s) (hdeleted : s.deleted = []) {gone : List Row}
    (hgone : ∀ r ∈ gone, r ∈ expired conf expirationTime s ∨ r ∈ surplus conf expirationTime s) :
    CleansUp conf raises expirationTime s (s.deleteEach gone) ↔
      ∀ r, r ∈ expired conf expirationTime s ∨ r ∈ surplus conf expirationTime s → raises r.id = false → r ∈ gone := by
  have hrow : ∀ r, r ∈ expired conf expirationTime s ∨ r ∈ surplus conf expirationTime s →
      r ∈ s.rows ∧ isCompletedRoot conf r := by
    rintro r (hr | hr)
    · exact ⟨(mem_expired.mp hr).1, (mem_expired.mp hr).2.1⟩
    · exact ⟨mem_rows_of_surplus hr, (mem_superfluous hr).2⟩
  have hids' : (s.deleteEach gone).deleted = gone.map (·.id) := by rw [deleted_deleteEach, hdeleted, List.nil_append]
  have hkeeps : ∀ r, r ∈ expired conf expirationTime s ∨ r ∈ surplus conf expirationTime s →
      (r ∈ (s.deleteEach gone).rows ↔ r ∉ gone) := fun r hr =>
    deleteEach_keeps_iff hids (fun r hr => (hrow r (hgone r hr)).1) (hrow r hr).1 (hrow r hr).2
  constructor
  · intro h r hr hno
    by_contra hstays
    exact h.deletes r (mem_superfluous_iff.mpr hr) hno ((hkeeps r hr).mpr hstays)
  · intro h
    refine ⟨fun r hr hno hstays => ?_, fun id hid => ?_, fun r hr hno => ?_⟩
    · have hr := mem_superfluous_iff.mp hr
      exact (hkeeps r hr).mp hstays (h r hr hno)
    · rw [hids'] at hid
      obtain ⟨r, hr, rfl⟩ := List.mem_map.mp hid
      exact ⟨r, (hrow r (hgone r hr)).1, rfl, (hrow r (hgone r hr)).2, mem_superfluous_iff.mpr (hgone r hr)⟩
    · rw [hids']
      exact gone_deleteEach hids hr hno

/-- `_delete_executions` ends, and it cleans up exactly where the deletions that fail come last. -/
theorem deleteExecutions_cleans_up_iff (hids : IdsDistinct s) (hdeleted : s.deleted = [])
    {fuel : Nat} (hfuel : s.rows.length < fuel) :
    ∃ res s', deleteExecutions raises conf expirationTime fuel s = some (res, s') ∧
      (CleansUp conf raises expirationTime s s' ↔ FailuresLast conf raises expirationTime s) := by
  obtain ⟨res, gone, hres, hstops⟩ :=
    deleteExecutions_stops conf raises expirationTime hids hfuel
  refine ⟨res, _, hres, ?_⟩
  have hexpired : (expired conf expirationTime s).Nodup := (List.Nodup.of_map _ hids).filter _
  rcases hstops with ⟨e, k, hstops, rfl⟩ | ⟨hnone, k, hstops, rfl⟩
  · rw [cleansUp_iff hids hdeleted fun r hr => .inl (List.mem_of_mem_take hr)]
    obtain ⟨⟨i, x, hx, hraises, -⟩, -⟩ := hstops.imp id id
    constructor
    · intro h
      have hall : ∀ y ∈ surplus conf expirationTime s, raises y.id := fun y hy => by
        by_contra hno
        exact surplus_disjoint hy (List.mem_of_mem_take (h y (.inr hy) (Bool.eq_false_iff.mpr hno)))
      exact ⟨(isolated_iff hexpired hstops).mp fun r hr => h r (.inl hr),
        fun _ _ _ y _ hy _ _ => hall y (List.mem_of_getElem? hy), fun _ => hall⟩
    · rintro h r (hr | hr) hno
      · exact (isolated_iff hexpired hstops).mpr h.expired r hr hno
      · exact absurd (h.between ⟨x, List.mem_of_getElem? hx, hraises⟩ r hr) (Bool.eq_false_iff.mp hno)
  · rw [cleansUp_iff hids hdeleted fun r hr => (List.mem_append.mp hr).imp id List.mem_of_mem_take]
    have hno : ∀ r ∈ expired conf expirationTime s, ¬raises r.id := fun r hr => Bool.eq_false_iff.mp (hnone r hr)
    constructor
    · intro h
      refine ⟨fun _ _ x _ hx _ hraises _ => absurd hraises (hno x (List.mem_of_getElem? hx)),
        (isolated_iff (nodup_surplus hids) hstops).mp fun r hr hr' => ?_,
        fun ⟨x, hx, hraises⟩ => absurd hraises (hno x hx)⟩
      exact (List.mem_append.mp (h r (.inr hr) hr')).resolve_left (surplus_disjoint hr)
    · rintro h r (hr | hr) hr'
      · exact List.mem_append_left _ hr
      · exact List.mem_append_right _ ((isolated_iff (nodup_surplus hids) hstops).mpr h.surplus r hr hr')

/-! ### Two expired executions, of which the first cannot be deleted -/

def twoExpired : Store where
  rows := [{ id := "a", state := .success, updatedAt := 1 }, { id := "b", state := .success, updatedAt := 1 }]

/-- With one execution a batch, the second execution stays as well. -/
theorem failure_keeps_others :
    ¬∃ res s', deleteExecutions (· == "a") { batchSize := 1 } 5 3 twoExpired = some (res, s') ∧
      CleansUp { batchSize := 1 } (· == "a") 5 twoExpired s' := by
  rintro ⟨res, s', hres, hclean⟩
  have hstays : deleteExecutions (· == "a") { batchSize := 1 } 5 3 twoExpired =
    some (.error .typeError, twoExpired) := rfl
  obtain ⟨-, rfl⟩ := Prod.mk.inj (Option.some.inj (hres.symm.trans hstays))
  exact hclean.deletes { id := "b", state := .success, updatedAt := 1 } (.inl (by decide)) (by decide) (by decide)

theorem twoExpired_cleans_up_iff :
    ∃ res s', deleteExecutions (· == "a") {} 5 3 twoExpired = some (res, s') ∧
      (CleansUp {} (· == "a") 5 twoExpired s' ↔ FailuresLast {} (· == "a") 5 twoExpired) :=
  deleteExecutions_cleans_up_iff (by unfold IdsDistinct; decide) rfl (by decide)

end ExpirationPolicy
end Mistral
