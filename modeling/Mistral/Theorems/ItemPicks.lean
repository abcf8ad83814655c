import Mathlib.Data.List.Dedup
import Mathlib.Order.Interval.Finset.Nat
import Mistral.Engine.ItemRuns
import Mistral.Engine.RegularEffects
import Mistral.Lib.Lists

/-! A with-items task picks no item that is accepted or in progress, as long as its executions are counted right. -/

namespace Mistral

/-! ### The picked items -/

namespace TaskEx
variable {e : TaskEx} {i : Nat}

/-- Where the items that have not been picked before begin. -/
def nextStart (e : TaskEx) : Nat :=
  match e.candidates.getLast? with
  | some last => last + 1
  | none => e.getNextStartIndex

theorem getNextIndexes_eq :
    e.getNextIndexes = cut (e.candidates ++ range e.nextStart e.getWithItemsCount) e.getWithItemsCapacity := by
  unfold getNextIndexes nextStart
  cases h : e.candidates.getLast? with
  | none =>
    rw [List.getLast?_eq_none_iff.mp h]
    rfl
  | some last =>
    dsimp only
    split
    · rfl
    next hle =>
      have hempty : range (last + 1) e.getWithItemsCount = [] := by
        rw [range, Nat.sub_eq_zero_of_le (by omega)]
        rfl
      rw [hempty]

/-- The items that are picked again, and those that follow, as far as the capacity goes. -/
theorem mem_getNextIndexes :
    i ∈ e.getNextIndexes ↔ i ∈ cut e.candidates e.getWithItemsCapacity ∨
      e.nextStart ≤ i ∧ i < e.getWithItemsCount ∧
        ∀ k, e.getWithItemsCapacity = some k → e.candidates.length + (i - e.nextStart) < k := by
  rw [getNextIndexes_eq]
  cases e.getWithItemsCapacity with
  | none =>
    simp only [cut, List.mem_append, range, List.mem_range'_1, reduceCtorEq, false_implies, implies_true, and_true]
    refine or_congr_right ⟨fun h => ?_, fun h => ?_⟩ <;> omega
  | some k =>
    simp only [cut, List.take_append, List.mem_append, range, Lists.mem_take_range', Option.some.injEq, forall_eq']
    refine or_congr_right ⟨fun h => ?_, fun h => ?_⟩ <;> omega

theorem mem_getIndexes {exs : List Execution} : i ∈ getIndexes exs ↔ ∃ x ∈ exs, x.index = i := by
  rw [getIndexes, List.mem_insertionSort, List.mem_dedup, List.mem_map]

theorem candidates_pairwise : e.candidates.Pairwise (· ≤ ·) :=
  List.Pairwise.filter _ (List.pairwise_insertionSort (· ≤ ·) _)

theorem candidates_nodup : e.candidates.Nodup :=
  ((List.perm_insertionSort _ _).nodup_iff.mpr (List.nodup_dedup _)).filter _

theorem lt_nextStart (h : i ∈ e.candidates) : i < e.nextStart := by
  unfold nextStart
  cases hlast : e.candidates.getLast? with
  | none =>
    rw [List.getLast?_eq_none_iff.mp hlast] at h
    cases h
  | some last =>
    obtain ⟨before, hbefore⟩ := List.getLast?_eq_some_iff.mp hlast
    have hsorted := candidates_pairwise (e := e)
    rw [hbefore] at h hsorted
    obtain h | h := List.mem_append.mp h
    · exact Nat.lt_succ_of_le ((List.pairwise_append.mp hsorted).2.2 i h last (List.mem_singleton_self _))
    · exact Nat.lt_succ_of_le (List.mem_singleton.mp h).le

theorem getNextIndexes_nodup : e.getNextIndexes.Nodup := by
  have hall : (e.candidates ++ range e.nextStart e.getWithItemsCount).Nodup :=
    List.nodup_append.mpr ⟨candidates_nodup, List.nodup_range', fun i hi j hj heq => by
      have hlt := lt_nextStart hi
      have hle := (List.mem_range'_1.mp hj).1
      omega⟩
  rw [getNextIndexes_eq]
  cases e.getWithItemsCapacity with
  | none => exact hall
  | some k => exact hall.sublist (List.take_sublist _ _)

end TaskEx

namespace ItemsCall
variable (c : ItemsCall) (i : Nat)

/-- The item has an accepted execution. -/
def Accepted : Prop := ∃ x ∈ c.task.executions, x.index = i ∧ x.accepted

/-- An execution of the item is `IDLE`, `RUNNING`, `DELAYED` or `PAUSED`, or its sub-workflow has been asked for. -/
def InProgress : Prop := (∃ x ∈ c.task.executions, x.index = i ∧ x.state.isCompleted = false) ∨ i ∈ c.inFlight

/-- No item is picked twice, and none that is accepted or in progress. -/
def PicksFresh : Prop :=
  c.task.getNextIndexes.Nodup ∧ ∀ i ∈ c.task.getNextIndexes, ¬c.Accepted i ∧ ¬c.InProgress i

/-- The item has completed executions, and none of them is accepted. -/
def Failed : Prop :=
  (∃ x ∈ c.task.executions, x.index = i ∧ x.state.isCompleted ∧ !x.accepted) ∧
    ∀ x ∈ c.task.executions, x.index = i → x.state.isCompleted → !x.accepted

/-- The item is accepted or in progress. -/
def Live : Prop := c.Accepted i ∨ c.InProgress i

/-- There are as many items before this one as there is capacity for, all of them failed or after all that have failed. -/
def UsedUpBefore : Prop :=
  ∃ k, ∃ fs : Finset Nat, c.task.getWithItemsCapacity = some k ∧ k ≤ fs.card ∧
    ∀ f ∈ fs, f < i ∧ (c.Failed f ∨ ∀ g, c.Failed g → g < f)

/-- The executions that are accepted, running, delayed or idle. -/
def counted : List Execution := c.task.executions.filter fun x => x.accepted || x.state.isRunning || x.state.isIdle

/-- Executions are as they are left by runs in the order of the items. If an item has failed, then live items have not, and
    come before one that has, where the capacity reaches them. If none has and not all items are counted, then no execution
    is paused, no start is in flight, and one execution is counted for each of the items from the first one on. -/
structure Tidy : Prop where
  failed : (∃ f, c.Failed f) → ∀ i, c.Live i → ¬c.Failed i ∧ (∃ f, c.Failed f ∧ i < f) ∨ c.UsedUpBefore i
  fresh : (∀ f, ¬c.Failed f) → c.counted.length < c.task.getWithItemsCount → c.task.getWithItemsCapacity ≠ some 0 →
    (∀ x ∈ c.task.executions, x.state.isCompleted ∨ x.state.isRunning ∨ x.state.isIdle) ∧ c.inFlight = [] ∧
      (c.counted.map (·.index)).Perm (List.range c.counted.length)

variable {c i}

theorem mem_candidates : i ∈ c.task.candidates ↔ c.Failed i := by
  rw [TaskEx.candidates, List.mem_filter, decide_eq_true_iff]
  simp only [TaskEx.mem_getIndexes, TaskEx.getUnacceptedExecutions, TaskEx.getAcceptedExecutions, List.mem_filter,
    Bool.and_eq_true, not_exists, not_and, Failed]
  constructor
  · rintro ⟨⟨x, ⟨hx, hun, hdone⟩, rfl⟩, hnone⟩
    refine ⟨⟨x, hx, rfl, hdone, hun⟩, fun y hy heq hdone => ?_⟩
    rw [Bool.not_eq_true', Bool.eq_false_iff]
    exact fun haccepted => hnone y ⟨hy, haccepted, hdone⟩ heq
  · rintro ⟨⟨x, hx, rfl, hdone, hun⟩, hall⟩
    refine ⟨⟨x, ⟨hx, hun, hdone⟩, rfl⟩, ?_⟩
    rintro y ⟨hy, haccepted, hdone⟩ heq
    have := hall y hy heq hdone
    rw [haccepted] at this
    cases this

theorem mem_of_mem_cut {l : List Nat} {capacity : Option Nat} (h : i ∈ TaskEx.cut l capacity) : i ∈ l := by
  cases capacity with
  | none => exact h
  | some k => exact List.mem_of_mem_take h

/-- An item that has failed and that the capacity reaches is not live. -/
theorem Tidy.again (h : c.Tidy) (hi : i ∈ TaskEx.cut c.task.candidates c.task.getWithItemsCapacity) : ¬c.Live i := by
  intro hlive
  have hfailed := mem_candidates.mp (mem_of_mem_cut hi)
  rcases h.failed ⟨i, hfailed⟩ i hlive with ⟨hnot, -⟩ | ⟨k, fs, hk, hle, hfs⟩
  · exact hnot hfailed
  · rw [hk, TaskEx.cut] at hi
    have hlt := Lists.card_lt_of_mem_take TaskEx.candidates_pairwise hi fun f hf => by
      obtain ⟨hlt, hfailed' | hbehind⟩ := hfs f hf
      · exact ⟨mem_candidates.mpr hfailed', hlt⟩
      · exact absurd (hbehind i hfailed) (by omega)
    omega

/-- After the items that have failed, no item that the capacity reaches is live. -/
theorem Tidy.behind (h : c.Tidy) (hle : c.task.nextStart ≤ i)
    (hcap : ∀ k, c.task.getWithItemsCapacity = some k → c.task.candidates.length + (i - c.task.nextStart) < k)
    (hany : ∃ f, c.Failed f) : ¬c.Live i := by
  intro hlive
  rcases h.failed hany i hlive with ⟨-, f, hf, hlt⟩ | ⟨k, fs, hk, hcard, hfs⟩
  · have := TaskEx.lt_nextStart (mem_candidates.mpr hf)
    omega
  · have hsub : fs ⊆ c.task.candidates.toFinset ∪ Finset.Ico c.task.nextStart i := by
      intro f hf
      obtain ⟨hlt, hfailed | hbehind⟩ := hfs f hf
      · exact Finset.mem_union_left _ (List.mem_toFinset.mpr (mem_candidates.mpr hfailed))
      · refine Finset.mem_union_right _ (Finset.mem_Ico.mpr ⟨?_, hlt⟩)
        -- Where an item has failed, the items that follow begin after the last of them.
        cases hlast : c.task.candidates.getLast? with
        | none =>
          obtain ⟨g, hg⟩ := hany
          have hg := mem_candidates.mpr hg
          rw [List.getLast?_eq_none_iff.mp hlast] at hg
          cases hg
        | some last =>
          have hlt := hbehind last (mem_candidates.mp (List.mem_of_getLast? hlast))
          rw [TaskEx.nextStart, hlast]
          exact hlt
    have hle := (Finset.card_le_card hsub).trans (Finset.card_union_le _ _)
    rw [Nat.card_Ico] at hle
    have hlen := List.toFinset_card_le c.task.candidates
    have := hcap k hk
    omega

/-- Where no item has failed, every live item is counted. -/
theorem Tidy.lt_length_counted (h : c.Tidy) (hnone : ∀ f, ¬c.Failed f) (hless : c.counted.length < c.task.getWithItemsCount)
    (hcap : c.task.getWithItemsCapacity ≠ some 0) (hlive : c.Live i) : i < c.counted.length := by
  obtain ⟨hopen, hflight, hperm⟩ := h.fresh hnone hless hcap
  obtain ⟨x, hx, rfl, hcounted⟩ : ∃ x ∈ c.task.executions, x.index = i ∧ (x.accepted || x.state.isRunning || x.state.isIdle) := by
    rcases hlive with ⟨x, hx, hi, haccepted⟩ | ⟨x, hx, hi, hx'⟩ | hi
    · exact ⟨x, hx, hi, by simp [haccepted]⟩
    · refine ⟨x, hx, hi, ?_⟩
      rcases hopen x hx with hdone | hrunning | hidle
      · rw [hx'] at hdone
        cases hdone
      · simp [hrunning]
      · simp [hidle]
    · rw [hflight] at hi
      cases hi
  have hmem : x.index ∈ c.counted.map (·.index) := List.mem_map_of_mem (List.mem_filter.mpr ⟨hx, hcounted⟩)
  exact List.mem_range.mp (hperm.mem_iff.mp hmem)

/-- Where executions are tidy, fresh items are picked. -/
theorem Tidy.picksFresh (h : c.Tidy) : c.PicksFresh := by
  refine ⟨TaskEx.getNextIndexes_nodup, fun i hi => not_or.mp ?_⟩
  obtain hi | ⟨hle, hlt, hcap⟩ := TaskEx.mem_getNextIndexes.mp hi
  · exact h.again hi
  · by_cases hany : ∃ f, c.Failed f
    · exact h.behind hle hcap hany
    · have hnone := not_exists.mp hany
      have hnil : c.task.candidates = [] := List.eq_nil_iff_forall_not_mem.mpr fun f hf => hnone f (mem_candidates.mp hf)
      have hstart : c.task.nextStart = c.counted.length := by
        rw [TaskEx.nextStart, hnil]
        rfl
      intro hlive
      have := h.lt_length_counted hnone (by omega) (fun hzero => absurd (hcap 0 hzero) (Nat.not_lt_zero _)) hlive
      omega

end ItemsCall

/-! ### Runs -/

namespace ItemsRun
variable {spec : RegularSpec} {o : Oracle} {s : ItemsRun} {i : Nat} {st : State} {info : Option String}

/-- No item has two executions in progress. -/
def Once (s : ItemsRun) : Prop := ∀ i, s.underway i ≤ 1

/-- A completed execution that goes on again (a rerun inside of a sub-workflow, or an update of a failed action) is the only
    one of its item that is in progress. -/
def RevivesAlone (s : ItemsRun) : RegularEvent → Prop
  | .executionUpdate i false | .rerunInSubworkflow i =>
    ∀ x : Execution, s.task.executions[i]? = some x → x.state.isCompleted → s.underway x.index = 0
  | _ => True

/-- The executions are tidy when the step is about to pick items. -/
def PicksTidy (spec : RegularSpec) (s : ItemsRun) (l : RegularEvent × Oracle) : Prop :=
  (∀ c ∈ (step spec s l).calls, c.Tidy) ∧ s.RevivesAlone l.1

/-- In every run of guarded steps all picked items are fresh, so no item is run twice at the same time. -/
def PickedOnce (spec : RegularSpec) (guard : ItemsRun → RegularEvent × Oracle → Prop) : Prop :=
  ∀ s, (itemsSystem spec).Reach guard s → (∀ c ∈ s.calls, c.PicksFresh) ∧ s.Once

/-! ### Counting the executions in progress -/

theorem Once.congr {s' : ItemsRun} (h : s.Once) (hprogress : s'.progress = s.progress) : s'.Once := fun i => by
  rw [RegularRun.underway_congr hprogress]
  exact h i

theorem Once.withRun {r : RegularRun} (h : s.Once) (hprogress : r.progress = s.progress) : (s.withRun r).Once :=
  h.congr hprogress

/-- The execution `i` changes, and is not in progress more than before. -/
theorem Once.setExecution {f : Execution → Execution} (h : s.Once) (hindex : ∀ x, (f x).index = x.index)
    (hopen : ∀ x : Execution, s.task.executions[i]? = some x → x.state.isCompleted → (f x).state.isCompleted = false →
      s.underway x.index = 0) : (s.withRun (s.toRegularRun.mapTask (·.setExecution i f))).Once := fun j => by
  have hj := h j
  rw [RegularRun.underway_eq] at hj ⊢
  show (s.task.executions.modify i f).countP _ + s.subStarts.count j ≤ 1
  by_cases hrevives : ∃ x : Execution, s.task.executions[i]? = some x ∧ x.index = j ∧ x.state.isCompleted ∧
      (f x).state.isCompleted = false
  · obtain ⟨x, hx, rfl, hdone, hopened⟩ := hrevives
    have hzero := hopen x hx hdone hopened
    rw [RegularRun.underway_eq] at hzero
    have := Lists.countP_modify_le_succ (p := fun y : Execution => y.index == x.index && !y.state.isCompleted) (f := f)
      (l := s.task.executions) (i := i)
    omega
  · have := Lists.countP_modify_le (p := fun y : Execution => y.index == j && !y.state.isCompleted) (f := f)
      (l := s.task.executions) (i := i) fun x hx hfx => by
        simp only [hindex, Bool.and_eq_true, beq_iff_eq, Bool.not_eq_true'] at hfx ⊢
        refine ⟨hfx.1, ?_⟩
        by_contra hdone
        exact hrevives ⟨x, hx, hfx.1, by simpa using hdone, hfx.2⟩
    omega

theorem underway_eq_zero (h : ¬(ItemsCall.mk s.task s.subStarts).InProgress i) : s.underway i = 0 := by
  simp only [ItemsCall.InProgress, not_or, not_exists, not_and] at h
  rw [RegularRun.underway_eq, List.countP_eq_zero.mpr fun x hx => ?_, List.count_eq_zero.mpr h.2]
  simp only [Bool.and_eq_true, beq_iff_eq, Bool.not_eq_true']
  exact fun hx' => h.1 x hx hx'.1 hx'.2

/-! ### Scheduling items -/

theorem executions_decreaseCapacity {e : TaskEx} : (e.decreaseCapacity.getD e).executions = e.executions := by
  unfold TaskEx.decreaseCapacity
  split
  · rfl
  · split <;> rfl

theorem underway_scheduleItem {j : Nat} :
    (s.scheduleItem spec o i).underway j = s.underway j + if i = j then 1 else 0 := by
  simp only [RegularRun.underway_eq]
  show ((TaskEx.decreaseCapacity _).getD _).executions.countP _ + _ = _
  rw [executions_decreaseCapacity]
  split
  next hrpc =>
    rw [show (s.scheduleItem spec o i).subStarts = s.subStarts ++ [i] by simp [scheduleItem, hrpc, withRun, RegularRun.mapTask]]
    simp only [List.count_append, List.count_singleton, beq_iff_eq]
    omega
  next hrpc =>
    rw [show (s.scheduleItem spec o i).subStarts = s.subStarts by simp [scheduleItem, hrpc, withRun, RegularRun.mapTask]]
    simp only [RegularRun.mapTask, TaskEx.addExecution, List.countP_append, List.countP_singleton]
    simp [State.isCompleted]
    omega

theorem Once.complete (h : s.Once) : (s.complete spec o st info).1.Once := h.withRun RegularRun.progress_complete

theorem calls_scheduleItems {is : List Nat} : (scheduleItems spec o is s).1.calls = s.calls := by
  induction is generalizing s with
  | nil => rfl
  | cons i is ih =>
    rw [scheduleItems]
    split
    · split <;> rfl
    · exact ih

/-- The loop over picked items: none of those to come is in progress. -/
theorem Once.scheduleItems {is : List Nat} (h : s.Once) (hnodup : is.Nodup) (hfresh : ∀ i ∈ is, s.underway i = 0) :
    (scheduleItems spec o is s).1.Once := by
  induction is generalizing s with
  | nil => exact h
  | cons i is ih =>
    rw [ItemsRun.scheduleItems]
    split
    · split
      · exact h
      · exact h.complete
    · obtain ⟨hi, hnodup⟩ := List.nodup_cons.mp hnodup
      refine ih (fun j => ?_) hnodup fun j hj => ?_
      · rw [underway_scheduleItem]
        split
        next heq =>
          subst heq
          rw [hfresh i List.mem_cons_self]
        · exact h j
      · rw [underway_scheduleItem, if_neg fun heq : i = j => hi (heq ▸ hj)]
        exact hfresh j (List.mem_cons_of_mem _ hj)

/-- Unless a call has picked wrong items, no item has two executions in progress. -/
def Sound (s : ItemsRun) : Prop := (∀ c ∈ s.calls, c.PicksFresh) → s.Once

theorem Once.scheduleActions (h : s.Once) : (s.scheduleActions spec o).1.Sound := by
  simp only [ItemsRun.scheduleActions]
  split
  · exact fun _ => h
  · generalize hprepared : s.withRun (s.toRegularRun.mapTask (·.prepareRuntimeContext (o.items 0))) = p
    have honce : ({ p with calls := ⟨p.task, p.subStarts⟩ :: p.calls } : ItemsRun).Once := by
      refine h.congr ?_
      rw [← hprepared]
      show RegularRun.progress (RegularRun.mapTask _ _) = _
      rw [RegularRun.mapTask, RegularRun.progress]
      unfold TaskEx.prepareRuntimeContext
      split <;> rfl
    split
    · exact fun _ => honce.complete
    next is hpicked _ =>
      intro hcalls
      have hpicks : p.task.getNextIndexes.Nodup ∧ ∀ i ∈ p.task.getNextIndexes, p.underway i = 0 := by
        have hcall : (ItemsCall.mk p.task p.subStarts).PicksFresh := by
          refine hcalls _ ?_
          rw [calls_scheduleItems]
          exact List.mem_cons_self
        exact ⟨hcall.1, fun i hi => underway_eq_zero (hcall.2 i hi).2⟩
      exact honce.scheduleItems hpicks.1 hpicks.2

theorem Once.sound (h : s.Once) : s.Sound := fun _ => h

theorem Sound.handling {r : ItemsRun × Bool} (h : r.1.Sound) (what : String) : (handling what r).Sound :=
  fun hcalls => (h hcalls).withRun RegularRun.progress_handling

theorem Once.setState (h : s.Once) {processed : Option Bool} :
    (s.withRun (s.toRegularRun.setState st info processed)).Once := h.withRun RegularRun.progress_setState

theorem Once.runBefore (h : s.Once) : (s.runBefore spec o).1.Once := h.withRun RegularRun.progress_runBefore

theorem Once.runNew (h : s.Once) : (s.runNew spec o).1.Sound := by
  simp only [ItemsRun.runNew]
  split
  · split
    · exact h.setState.runBefore.sound
    · exact h.setState.runBefore.scheduleActions
  · exact h.sound

theorem Once.runExisting (h : s.Once) {rerun reset : Bool} : (s.runExisting spec o rerun reset).1.Sound := by
  cases rerun with
  | false => exact (h.setState.withRun RegularRun.progress_resetActions).scheduleActions
  | true =>
    simp only [ItemsRun.runExisting, if_true]
    split
    · exact h.setState.runBefore.sound
    · exact (h.setState.runBefore.withRun RegularRun.progress_resetActions).scheduleActions

theorem Once.runTask (h : s.Once) {m : StartTask} : (s.runTask spec o m).Sound := by
  refine Sound.handling ?_ _
  split
  · exact h.runNew
  · split
    · exact h.sound
    · exact h.runExisting

theorem Once.continueTask (h : s.Once) : (s.continueTask spec o).Sound := by
  simp only [ItemsRun.continueTask]
  split
  · exact fun _ => h.congr rfl
  · exact Sound.handling h.setState.runExisting _

theorem Once.completeTask (h : s.Once) : (s.completeTask spec o st info).Once := h.withRun RegularRun.progress_completeTask

theorem Once.onActionComplete (h : s.Once) : (s.onActionComplete spec o).1.Sound := by
  simp only [ItemsRun.onActionComplete]
  split
  · exact h.sound
  have hincreased : (s.withRun (s.toRegularRun.mapTask (·.increaseCapacity))).Once := by
    refine h.withRun ?_
    show RegularRun.progress (RegularRun.mapTask _ _) = _
    rw [RegularRun.mapTask, RegularRun.progress]
    unfold TaskEx.increaseCapacity
    split
    · split <;> rfl
    · rfl
  split
  · exact hincreased.complete.sound
  split
  · exact hincreased.scheduleActions
  · exact hincreased.sound

theorem Once.run (h : s.Once) {j : Job} {logical : State} : (s.run spec o j logical).Sound := by
  cases j with
  | continueTask => exact h.continueTask
  | completeTask => exact h.completeTask.sound
  | failTaskIfIncomplete t timeout =>
    show (ite _ _ _ : ItemsRun).Sound
    split
    · exact h.sound
    · exact h.completeTask.sound
  | refreshTaskState =>
    show (s.refreshTaskState spec o logical).Sound
    unfold refreshTaskState
    split
    · exact h.sound
    split
    · exact h.continueTask
    · exact h.completeTask.sound
    · exact h.sound
  | onActionComplete t i =>
    have hprocessed : ({ s with processed := i :: s.processed } : ItemsRun).Once := h.congr rfl
    exact Sound.handling hprocessed.onActionComplete _
  | onActionUpdate t i =>
    show (s.onActionUpdate i).Sound
    unfold onActionUpdate
    split
    · exact (h.withRun RegularRun.progress_updateTask).sound
    · exact h.sound

theorem Once.accept {result : ActionResult} (h : s.Once) : (s.withRun (s.toRegularRun.accept i result)).Once :=
  h.setExecution (fun _ => rfl) fun x _ _ hopen => by cases result <;> cases hopen

theorem Once.refuseResult (h : s.Once) : (s.withRun (s.toRegularRun.refuseResult i)).Once :=
  Once.congr (h.setExecution (i := i) (f := fun x =>
    { x with state := .error, output := some ("Failed to complete action: " ++ s.task.name), notTask := State.error_notTask })
    (fun _ => rfl) fun _ _ _ hopen => by cases hopen) RegularRun.progress_setState

theorem Once.executionUpdate {paused : Bool} (h : s.Once) (halone : s.RevivesAlone (.executionUpdate i paused)) :
    (s.executionUpdate i paused).Once := by
  cases paused with
  | false =>
    simp only [ItemsRun.executionUpdate, Bool.false_eq_true, if_false]
    split
    · exact (h.setExecution (i := i) (f := fun x => { x with state := .running, notTask := by decide }) (fun _ => rfl)
        fun x hx hdone _ => halone x hx hdone).congr rfl
    · exact h
  | true =>
    simp only [ItemsRun.executionUpdate, if_true]
    split
    next hvalid =>
      -- No completed execution is paused.
      refine (h.setExecution (i := i) (f := fun x => { x with state := .paused, notTask := by decide }) (fun _ => rfl)
        fun x hx hdone _ => ?_).congr rfl
      rw [hx] at hvalid
      cases hst : x.state <;> simp_all [State.isValidTransition, State.validTransitions]
    · exact h

theorem Once.subworkflowStarted (h : s.Once) : (s.subworkflowStarted i).Once := by
  unfold ItemsRun.subworkflowStarted
  split
  next hi =>
    refine fun j => le_of_eq_of_le ?_ (h j)
    rw [RegularRun.underway_eq, RegularRun.underway_eq]
    show (s.task.executions ++ [_]).countP _ + (s.subStarts.erase i).count j = _
    rw [List.countP_append, List.countP_singleton, List.count_erase]
    have hpos := List.count_pos_iff.mpr hi
    by_cases hj : i = j
    · subst hj
      simp [State.isCompleted]
      omega
    · simp [hj]
  · exact h

theorem Once.step (h : s.Once) (l : RegularEvent × Oracle) (halone : s.RevivesAlone l.1) : (step spec s l).Sound := by
  obtain ⟨e, o⟩ := l
  cases e with
  | startTask m =>
    show (ite _ _ _ : ItemsRun).Sound
    split
    · exact (h.withRun (r := { s.toRegularRun with starts := s.starts.erase m }) rfl).runTask
    · exact h.sound
  | runJob j logical =>
    show (ite _ _ _ : ItemsRun).Sound
    split
    · exact (h.withRun (r := { s.toRegularRun with jobs := s.jobs.erase j }) rfl).run
    · exact h.sound
  | actionResult i result =>
    show (s.actionResult spec o i result).Sound
    unfold actionResult
    split
    · split
      · exact h.refuseResult.sound
      · exact (h.accept.congr rfl).sound
    · exact h.sound
  | executionUpdate i paused => exact (h.executionUpdate halone).sound
  | subworkflowStarted i => exact h.subworkflowStarted.sound
  | subworkflowCompleted i result =>
    show (s.withRun (s.toRegularRun.subworkflowCompleted spec i result)).Sound
    unfold RegularRun.subworkflowCompleted
    split
    · exact (h.accept.congr rfl).sound
    · exact h.sound
  | subworkflowResult i =>
    show (s.subworkflowResult i).Sound
    unfold subworkflowResult
    split
    · exact (h.congr rfl).sound
    · exact h.sound
  | defer =>
    show (s.withRun (ite _ _ _)).Sound
    split
    · exact h.setState.sound
    · exact h.sound
  | scheduleIfNeeded =>
    show (s.withRun (ite _ _ _)).Sound
    split
    · exact (h.congr rfl).sound
    · exact h.sound
  | resume =>
    show (s.withRun (ite _ _ _)).Sound
    split
    · exact (h.congr rfl).sound
    · exact h.sound
  | rerun reset => exact (h.withRun RegularRun.progress_rerun).sound
  | skip => exact (h.withRun RegularRun.progress_skip).sound
  | rerunInSubworkflow i =>
    show (s.withRun (s.toRegularRun.rerunInSubworkflow spec i)).Sound
    unfold RegularRun.rerunInSubworkflow
    split
    next hvalid =>
      refine Once.sound (Once.congr (h.setExecution (i := i)
        (f := fun x => { x with state := .running, accepted := false, notTask := by decide }) (fun _ => rfl)
        fun x hx hdone _ => halone x hx hdone) ?_)
      dsimp only
      refine RegularRun.progress_setState.trans ?_
      split <;> rfl
    · exact h.sound

end ItemsRun

/-- Picked items are fresh in every run in which executions are tidy whenever items are picked. -/
theorem items_picked_once (spec : RegularSpec) : ItemsRun.PickedOnce spec (ItemsRun.PicksTidy spec) := by
  intro s hreach
  refine hreach.invariant (I := fun s => (∀ c ∈ s.calls, c.PicksFresh) ∧ s.Once) (fun s hinit => ?_)
    fun s l _ hs hguard => ?_
  · obtain ⟨name, rfl⟩ := hinit
    refine ⟨fun _ hc => absurd hc List.not_mem_nil, fun i => ?_⟩
    rw [RegularRun.underway_eq]
    cases hjoin : spec.join <;> simp [RegularRun.start]
  · have hfresh : ∀ c ∈ (ItemsRun.step spec s l).calls, c.PicksFresh := fun c hc => (hguard.1 c hc).picksFresh
    exact ⟨hfresh, hs.2.step l hguard.2 hfresh⟩

/-- A task over actions, without policies. -/
def plainItems : RegularSpec := { policies := [] }

/-- Of three items the second one fails. The rerun without reset picks it again, and the third one, which has succeeded. -/
theorem rerun_repeats_successful_item : ¬ItemsRun.PickedOnce plainItems fun _ _ => True := fun h => by
  let o : Oracle := { items := fun _ => 3 }
  let start (firstRun : Bool) : StartTask :=
    { taskEx := 0, firstRun, waiting := false, triggeredBy := none, rerun := !firstRun, reset := false }
  let events : List (RegularEvent × Oracle) :=
    [(.startTask (start true), o), (.actionResult 0 (.success none), o), (.actionResult 1 (.error none), o),
     (.actionResult 2 (.success none), o), (.runJob (.onActionComplete 0 0) .waiting, o),
     (.runJob (.onActionComplete 0 1) .waiting, o), (.runJob (.onActionComplete 0 2) .waiting, o),
     (.rerun false, o), (.startTask (start false), o)]
  have hreach : (itemsSystem plainItems).Reach (fun _ _ => True)
      ((itemsSystem plainItems).run { toRegularRun := .start "t" false } events) :=
    .run (.init ⟨"t", rfl⟩) (by simp [events, System.Guarded])
  obtain ⟨c, hc, hpicked, haccepted⟩ : ∃ c ∈ ((itemsSystem plainItems).run { toRegularRun := .start "t" false } events).calls,
      2 ∈ c.task.getNextIndexes ∧ ∃ x ∈ c.task.executions, x.index = 2 ∧ x.accepted := by decide +kernel
  exact (((h _ hreach).1 c hc).2 2 hpicked).1 haccepted

end Mistral
