import Mistral.Workflow.JoinState

/-! The logical state of a join without the cache of task executions: `found` is what a lookup of a name finds. The cache
    holds what the query finds, so the functions of the source come to the same results. -/

namespace Mistral

/-- `RecursionError`. -/
def recursionError : Exc := .other "maximum recursion depth exceeded"

/-- What `for t in None` raises. -/
def notIterable : Exc := .other "'NoneType' object is not iterable"

/-! ### Without the cache -/

section
variable (spec : WorkflowSpec) (found : String → Option (TaskId × TaskEx))

/-- The loop of `_possible_route` over the inbound tasks of `t`. -/
def searchVia (search : TaskSpec → Nat → Except Exc (Bool × Nat)) (t : TaskSpec) :
    List TaskSpec → Nat → Except Exc (Bool × Nat)
  | [], depth => return (false, depth)
  | u :: us, depth =>
    match found u.name with
    | none => do
      let (possible, depth) ← search u (depth + 1)
      if possible then return (true, depth) else searchVia search t us depth
    | some (_, e) => do
      if !e.state.isCompleted then return (true, depth)
      else if t.name ∈ (← nextTaskNames e) then return (true, depth)
      else searchVia search t us depth

/-- `_possible_route`. -/
def search : Nat → TaskSpec → Nat → Except Exc (Bool × Nat)
  | 0, _, _ => throw recursionError
  | fuel + 1, t, depth =>
    match spec.findInboundTaskSpecs t with
    | [] => return (true, depth)
    | ins => searchVia found (search fuel) t ins depth

/-- `_get_induced_join_state`. -/
def induced (j u : TaskSpec) : Except Exc Induced :=
  match found u.name with
  | none => do
    let (possible, depth) ← search spec found (spec.tasks.length + 1) u 1
    return if possible then ⟨u.name, none, .waiting, depth, none⟩
      else ⟨u.name, none, .error, depth, some .impossibleRoute⟩
  | some (i, e) => do
    if !e.state.isCompleted then return ⟨u.name, some i, .waiting, 1, none⟩
    match (e.nextTasks.getD []).reverse.lookup j.name with
    | none => return ⟨u.name, some i, .error, 1, some .notTriggered⟩
    | some event => return ⟨u.name, some i, .running, 1, event⟩

/-- `_get_join_logical_state`. -/
def joinVerdict (join : Join) (j : TaskSpec) : Except Exc LogicalState :=
  if spec.findInboundTaskSpecs j = [] then return { state := .running }
  else do
    let ins ← (spec.findInboundTaskSpecs j).mapM (induced spec found j)
    return decideJoin ins join

end

/-- `_get_join_logical_state` with a cache that is given. -/
def joinLogicalStateFrom (spec : WorkflowSpec) (rows : List (TaskId × TaskEx)) (c : Cache) (join : Join) (j : TaskSpec) :
    Except Exc LogicalState :=
  if spec.findInboundTaskSpecs j = [] then return { state := .running }
  else do
    let (ins, _) ← (inducedStates spec rows j).run c
    return decideJoin ins join

/-! ### The cache is transparent -/

/-- The entries of a cache are what the query finds, and there is one for each of `names`. -/
def Cache.Holds (rows : List (TaskId × TaskEx)) (names : List String) (c : Cache) : Prop :=
  (∀ name v, c.lookup name = some v → v = lastNamed rows name) ∧ ∀ name ∈ names, (c.lookup name).isSome

/-- A computation with the cache comes to `r`. -/
def Reads {α : Type} (rows : List (TaskId × TaskEx)) (names : List String) (m : CacheM α) (r : Except Exc α) : Prop :=
  ∀ c : Cache, c.Holds rows names →
    match r with
    | .ok a => ∃ c', m.run c = .ok (a, c') ∧ c'.Holds rows names
    | .error e => m.run c = .error e

section
variable {α β : Type} {spec : WorkflowSpec} {rows : List (TaskId × TaskEx)} {names : List String} {c c' : Cache} {t u : TaskSpec}

theorem Cache.Holds.find (h : c.Holds rows names) {name : String} (hname : (c.lookup name).isSome) :
    c.find name = lastNamed rows name := by
  obtain ⟨v, hv⟩ := Option.isSome_iff_exists.mp hname
  rw [Cache.find, hv, ← h.1 name v hv]
  rfl

theorem Cache.Holds.append (h : c.Holds rows []) (h' : c'.Holds rows names) : Cache.Holds rows names (c ++ c') := by
  refine ⟨fun name v hv => ?_, fun name hname => ?_⟩
  · rw [List.lookup_append] at hv
    cases hc : c.lookup name with
    | none =>
      rw [hc] at hv
      exact h'.1 name v hv
    | some _ =>
      rw [hc] at hv
      cases hv
      exact h.1 name v hc
  · rw [List.lookup_append, Option.isSome_or, h'.2 name hname, Bool.or_true]

theorem lookup_map {f : String → Option (TaskId × TaskEx)} {l : List String} {name : String} :
    (l.map fun n => (n, f n)).lookup name = if name ∈ l then some (f name) else none := by
  induction l with
  | nil => rfl
  | cons n l ih =>
    simp only [List.map_cons, List.lookup_cons, ih]
    by_cases hn : name = n
    · subst hn
      simp
    · have hbeq : (name == n) = false := beq_eq_false_iff_ne.mpr hn
      rw [hbeq]
      simp only [List.mem_cons, hn, false_or]

/-- The parents that the cache is extended with have the inbound tasks among them. -/
theorem mem_findAllParentTaskNames (hu : u ∈ spec.findInboundTaskSpecs t) {left : Nat} {top : Bool} :
    u.name ∈ findAllParentTaskNames spec (left + 1) top t := by
  have hself : ∀ n, u.name ∈ findAllParentTaskNames spec n false u := fun n => by
    cases n with
    | zero => exact List.mem_singleton_self _
    | succ n =>
      simp only [findAllParentTaskNames]
      split
      · exact List.mem_singleton_self _
      · exact List.mem_append_right _ (List.mem_singleton_self _)
  simp only [findAllParentTaskNames]
  split
  next hnone =>
    rw [hnone] at hu
    cases hu
  · exact List.mem_append_left _ (List.mem_flatMap.mpr ⟨u, hu, hself left⟩)

theorem prepare_holds : (prepareTaskExecutionsCache spec rows t).Holds rows ((spec.findInboundTaskSpecs t).map (·.name)) := by
  refine ⟨fun name v hv => ?_, fun name hname => ?_⟩
  · rw [prepareTaskExecutionsCache, lookup_map] at hv
    split at hv
    · exact (Option.some.inj hv).symm
    · cases hv
  · obtain ⟨u, hu, rfl⟩ := List.mem_map.mp hname
    have hmem : u.name ∈ findAllParentTaskNames spec (maxSearchDepth - 1) true t := mem_findAllParentTaskNames hu
    rw [prepareTaskExecutionsCache, lookup_map, if_pos hmem]
    rfl

namespace Reads
variable {m : CacheM α} {k : α → CacheM β} {a : α}

theorem pure (a : α) : Reads rows names (Pure.pure a) (.ok a) := fun c hc => ⟨c, rfl, hc⟩

theorem lift (r : Except Exc α) : Reads rows names (liftM r : CacheM α) r := fun c hc => by
  cases r with
  | ok a => exact ⟨c, rfl, hc⟩
  | error e => rfl

theorem bind {r : Except Exc α} {q : α → Except Exc β} (h : Reads rows names m r)
    (hk : ∀ a, r = .ok a → Reads rows names (k a) (q a)) : Reads rows names (m >>= k) (r >>= q) := fun c hc => by
  have hm := h c hc
  cases r with
  | ok a =>
    obtain ⟨c', hrun, hc'⟩ := hm
    have hka := hk a rfl c' hc'
    show match q a with
      | .ok b => ∃ c'', (m >>= k).run c = .ok (b, c'') ∧ c''.Holds rows names
      | .error e => (m >>= k).run c = .error e
    have hbind : (m >>= k).run c = (k a).run c' := by
      rw [StateT.run_bind, hrun]
      rfl
    rw [hbind]
    exact hka
  | error e =>
    show (m >>= k).run c = .error e
    have hm : m.run c = .error e := hm
    rw [StateT.run_bind, hm]
    rfl

theorem bind_ok {r : Except Exc β} (h : Reads rows names m (.ok a)) (hk : Reads rows names (k a) r) :
    Reads rows names (m >>= k) r := by
  have hbind := h.bind (q := fun _ => r) fun b hb => by
    cases hb
    exact hk
  exact hbind

end Reads

/-- A lookup of an inbound task finds the task execution that the query finds. -/
theorem reads_cachedExecution (hu : u ∈ spec.findInboundTaskSpecs t) :
    Reads rows names (cachedExecution spec rows t u) (.ok (lastNamed rows u.name)) := fun c hc => by
  have hprepared : (prepareTaskExecutionsCache spec rows t).Holds rows [] := ⟨prepare_holds.1, nofun⟩
  cases hlookup : c.lookup u.name with
  | some v =>
    refine ⟨c, ?_, hc⟩
    have hin : (c.lookup u.name).isSome := by
      rw [hlookup]
      rfl
    have hfind := hc.find hin
    simp [cachedExecution, hlookup, hfind]
    rfl
  | none =>
    have hc' := hprepared.append hc
    refine ⟨_, ?_, hc'⟩
    have hin : ((prepareTaskExecutionsCache spec rows t ++ c).lookup u.name).isSome := by
      rw [List.lookup_append, Option.isSome_or, prepare_holds.2 u.name (List.mem_map_of_mem hu), Bool.true_or]
    have hfind := hc'.find hin
    simp [cachedExecution, hlookup, hfind]
    rfl

theorem reads_routeVia {route : TaskSpec → Nat → CacheM (Bool × Nat)} {search : TaskSpec → Nat → Except Exc (Bool × Nat)}
    (h : ∀ u depth, Reads rows names (route u depth) (search u depth)) {us : List TaskSpec} {depth : Nat}
    (hus : ∀ u ∈ us, u ∈ spec.findInboundTaskSpecs t) :
    Reads rows names (routeVia spec rows route t us depth) (searchVia (lastNamed rows) search t us depth) := by
  induction us generalizing depth with
  | nil => exact .pure _
  | cons u us ih =>
    obtain ⟨hu, hus⟩ := List.forall_mem_cons.mp hus
    simp only [routeVia, searchVia]
    refine (reads_cachedExecution hu).bind_ok ?_
    cases lastNamed rows u.name with
    | none =>
      refine (h u (depth + 1)).bind fun a _ => ?_
      obtain ⟨possible, depth⟩ := a
      dsimp only
      split
      · exact .pure _
      · exact ih hus
    | some r =>
      obtain ⟨i, e⟩ := r
      dsimp only
      split
      · exact .pure _
      · refine (Reads.lift (nextTaskNames e)).bind fun next _ => ?_
        split
        · exact .pure _
        · exact ih hus

/-- The search with the cache comes to what the search without it comes to. -/
theorem reads_possibleRoute {fuel depth : Nat} :
    Reads rows names (possibleRoute spec rows fuel t depth) (search spec (lastNamed rows) fuel t depth) := by
  induction fuel generalizing t depth with
  | zero => exact .lift (throw recursionError)
  | succ fuel ih =>
    have hsub : ∀ u ∈ spec.findInboundTaskSpecs t, u ∈ spec.findInboundTaskSpecs t := fun _ => id
    simp only [possibleRoute, search]
    revert hsub
    generalize hins : spec.findInboundTaskSpecs t = ins
    intro hsub
    cases ins with
    | nil => exact .pure _
    | cons u us => exact reads_routeVia (fun _ _ => ih) (hins ▸ hsub)

theorem reads_getInducedJoinState {j : TaskSpec} :
    Reads rows names (getInducedJoinState spec rows u (lastNamed rows u.name) j) (induced spec (lastNamed rows) j u) := by
  unfold getInducedJoinState induced
  cases lastNamed rows u.name with
  | none =>
    refine reads_possibleRoute.bind fun a _ => ?_
    obtain ⟨possible, depth⟩ := a
    exact .pure _
  | some r =>
    obtain ⟨i, e⟩ := r
    dsimp only
    split
    · exact .pure _
    · cases (e.nextTasks.getD []).reverse.lookup j.name with
      | none => exact .pure _
      | some event => exact .pure _

theorem reads_mapM {f : α → CacheM β} {g : α → Except Exc β} {l : List α} (h : ∀ a ∈ l, Reads rows names (f a) (g a)) :
    Reads rows names (l.mapM f) (l.mapM g) := by
  induction l with
  | nil => exact .pure _
  | cons a l ih =>
    obtain ⟨ha, hl⟩ := List.forall_mem_cons.mp h
    rw [List.mapM_cons, List.mapM_cons]
    refine ha.bind fun b _ => ?_
    refine (ih hl).bind fun bs _ => ?_
    exact .pure _

theorem reads_inducedStates {j : TaskSpec} (hnames : ∀ u ∈ spec.findInboundTaskSpecs j, u.name ∈ names) :
    Reads rows names (inducedStates spec rows j) ((spec.findInboundTaskSpecs j).mapM (induced spec (lastNamed rows) j)) := by
  refine reads_mapM fun u hu c hc => ?_
  have hfind := hc.find (hc.2 u.name (hnames u hu))
  have hreads : Reads rows names (getInducedJoinState spec rows u (lastNamed rows u.name) j) (induced spec (lastNamed rows) j u) :=
    reads_getInducedJoinState
  have hreads := hreads c hc
  rw [← hfind] at hreads
  exact hreads

/-- Every cache that holds what the query finds, also for the inbound tasks of the join, leads to the same verdict. -/
theorem joinLogicalStateFrom_eq {c : Cache} {join : Join} {j : TaskSpec} (hc : c.Holds rows ((spec.findInboundTaskSpecs j).map (·.name))) :
    joinLogicalStateFrom spec rows c join j = joinVerdict spec (lastNamed rows) join j := by
  unfold joinLogicalStateFrom joinVerdict
  split
  · rfl
  · have hreads := reads_inducedStates (fun u hu => List.mem_map_of_mem hu) c hc
    cases hr : (spec.findInboundTaskSpecs j).mapM (induced spec (lastNamed rows) j) with
    | ok ins =>
      rw [hr] at hreads
      obtain ⟨c', hrun, -⟩ := hreads
      rw [hrun]
      rfl
    | error e =>
      rw [hr] at hreads
      have hreads : (inducedStates spec rows j).run c = .error e := hreads
      rw [hreads]
      rfl

/-- `_get_join_logical_state` depends on the task executions only through what a lookup of a name finds. -/
theorem getJoinLogicalState_eq {join : Join} {j : TaskSpec} :
    getJoinLogicalState spec rows join j = joinVerdict spec (lastNamed rows) join j := joinLogicalStateFrom_eq prepare_holds

end
end Mistral
