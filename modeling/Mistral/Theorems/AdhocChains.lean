import Mistral.Actions.AdhocAction
import Mistral.Lib.Lists
import Mistral.Lib.Walks

/-! The walk over the bases of an ad-hoc action ends, and comes to an action of another kind unless the chain has a cycle or
    names an unknown action. -/

namespace Mistral
namespace AdhocActions
open Walks
variable {ω χ δ γ ε ρ : Type} {p : Provider ω χ δ} {d self : Definition χ δ} {ns name base : String}

/-- `name` is an ad-hoc action with the base `base`. -/
def HasBase (p : Provider ω χ δ) (ns name base : String) : Prop := ∃ d, p.find name ns = some (.adhoc d) ∧ d.base = base

/-- The chain from an action comes back to one of its actions. -/
def Cyclic (p : Provider ω χ δ) (d : Definition χ δ) : Prop :=
  ∃ name, Relation.ReflTransGen (HasBase p d.ns) d.name name ∧ Relation.TransGen (HasBase p d.ns) name name

/-- The chain from an action comes to a name that no provider knows. -/
def Unresolved (p : Provider ω χ δ) (d : Definition χ δ) : Prop :=
  ∃ name, Relation.ReflTransGen (HasBase p d.ns) d.name name ∧ p.find name d.ns = none

/-- The ad-hoc actions from `d` on, each the base of the one before, until the base is the action `o` of another kind. -/
structure Chain (p : Provider ω χ δ) (d : Definition χ δ) (chain : List (Definition χ δ)) (o : ω) : Prop where
  head : chain.head? = some d
  bases : chain.IsChain fun a b => p.find a.base d.ns = some (.adhoc b)
  last : ∃ a, chain.getLast? = some a ∧ p.find a.base d.ns = some (.other o)
  once : (chain.map (·.name)).Nodup

/-! ### Names -/

theorem findDefinition_eq_some (h : p.findDefinition name ns = some d) : d ∈ p.definitions ∧ d.name = name ∧ d.ns = ns := by
  have hmatch := List.find?_some h
  simp only [Bool.and_eq_true, beq_iff_eq] at hmatch
  exact ⟨List.mem_of_find?_eq_some h, hmatch⟩

theorem find_adhoc (h : p.find name ns = some (.adhoc d)) : d ∈ p.definitions ∧ d.name = name ∧ d.ns = ns := by
  unfold Provider.find at h
  simp only [Option.or_eq_some_iff, Option.map_eq_some_iff, Option.map_eq_none_iff] at h
  obtain ⟨o, -, ho⟩ | ⟨-, ⟨d', hd', heq⟩ | ⟨-, o, -, ho⟩⟩ := h
  · cases ho
  · cases heq
    exact findDefinition_eq_some hd'
  · cases ho

/-- What is known of a name. -/
def look (p : Provider ω χ δ) (ns name : String) : Option (Option String) :=
  (p.find name ns).map fun desc =>
    match desc with
    | .adhoc d => some d.base
    | .other _ => none

theorem look_of_adhoc (h : p.find name ns = some (.adhoc d)) : look p ns name = some (some d.base) := by simp [look, h]

theorem leadsTo_iff : LeadsTo (look p ns) name base ↔ HasBase p ns name base := by
  unfold LeadsTo HasBase look
  cases hfind : p.find name ns with
  | none => simp
  | some desc => cases desc <;> simp

theorem leadsTo_eq (p : Provider ω χ δ) (ns : String) : LeadsTo (look p ns) = HasBase p ns := by
  funext a b
  exact propext leadsTo_iff

theorem look_eq_none : look p ns name = none ↔ p.find name ns = none := by simp [look]

theorem look_eq_final (h : look p ns name = some none) : ∃ o, p.find name ns = some (.other o) := by
  unfold look at h
  cases hfind : p.find name ns with
  | none => simp [hfind] at h
  | some desc =>
    cases desc with
    | adhoc d => simp [hfind] at h
    | other o => exact ⟨o, rfl⟩

/-! ### The walk -/

/-- The calls of the callback after the first one. -/
def visitAll (callback : Callback ω χ δ ε ρ) (descs : List (Descriptor ω χ δ)) (res : ρ) : Except (Exc ε) ρ :=
  descs.foldlM (fun res desc => callback desc (some res)) res

/-- What is raised where a walk ends. -/
def raised (self : Definition χ δ) : End String → ρ → Except (Exc ε) ρ
  | .final, res => .ok res
  | .unknown k, _ => .error (.invalidAction ("Failed to find base action [action_name=" ++ k ++ " namespace=" ++
      self.ns ++ "] "))
  | .cycle k, _ => .error (.valueError ("Found a cycle in an ad-hoc action chain [action_name=" ++ self.name ++
      ", duplicate_action_name=" ++ k ++ "]"))

/-- The loop calls the callback along a walk. -/
theorem visitLoop_eq {callback : Callback ω χ δ ε ρ} {fuel : Nat} {visited ks : List String} {e : End String} {res : ρ}
    (h : walk (look p self.ns) fuel visited d.base = some (ks, e)) :
    visitLoop p self callback fuel visited d res =
      some (visitAll callback (ks.filterMap (p.find · self.ns)) res >>= raised self e) := by
  induction fuel generalizing visited d ks res with
  | zero => cases h
  | succ fuel ih =>
    rw [walk] at h
    rw [visitLoop]
    split at h
    next hold =>
      cases h
      rw [if_pos hold]
      rfl
    next hnew =>
      rw [if_neg hnew]
      cases hfind : p.find d.base self.ns with
      | none =>
        rw [look_eq_none.mpr hfind] at h
        cases h
        rfl
      | some desc =>
        cases desc with
        | other o =>
          have hlook : look p self.ns d.base = some none := by simp [look, hfind]
          rw [hlook] at h
          cases h
          simp only [List.filterMap_cons, hfind, List.filterMap_nil, visitAll, List.foldlM_cons, List.foldlM_nil]
          cases callback (.other o) (some res) <;> rfl
        | adhoc b =>
          rw [look_of_adhoc hfind] at h
          obtain ⟨⟨ks', e'⟩, hwalk, heq⟩ := Option.map_eq_some_iff.mp h
          cases heq
          simp only [List.filterMap_cons, hfind, visitAll, List.foldlM_cons]
          cases callback (.adhoc b) (some res) with
          | error err => rfl
          | ok res => exact ih hwalk

theorem walk_ends (p : Provider ω χ δ) (d : Definition χ δ) {fuel : Nat} (hfuel : p.definitions.length < fuel) :
    ∃ ks e, walk (look p d.ns) fuel [d.name] d.base = some (ks, e) := by
  have hnames : ∀ a b, LeadsTo (look p d.ns) a b → a ∈ p.definitions.map (·.name) := by
    intro a b hab
    obtain ⟨d', hd', -⟩ := leadsTo_iff.mp hab
    obtain ⟨hmem, hname, -⟩ := find_adhoc hd'
    exact List.mem_map.mpr ⟨d', hmem, hname⟩
  have hle : ((p.definitions.map (·.name)).filter (· ∉ [d.name])).length ≤ p.definitions.length :=
    (List.length_filter_le _ _).trans (List.length_map _).le
  have hends : (walk (look p d.ns) fuel [d.name] d.base).isSome := walk_isSome hnames (hle.trans_lt hfuel)
  obtain ⟨⟨ks, e⟩, h⟩ := Option.isSome_iff_exists.mp hends
  exact ⟨ks, e, h⟩

/-- The definitions along a chain of names. -/
theorem exists_definitions {pre : List String} {last : String} (hd : p.find d.name ns = some (.adhoc d))
    (h : (d.name :: (pre ++ [last])).IsChain (LeadsTo (look p ns))) :
    ∃ ds : List (Definition χ δ), pre = ds.map (·.name) ∧ pre.filterMap (p.find · ns) = ds.map .adhoc ∧
      (d :: ds).IsChain (fun a b => p.find a.base ns = some (.adhoc b)) ∧
      ∃ a, (d :: ds).getLast? = some a ∧ a.base = last := by
  induction pre generalizing d with
  | nil =>
    refine ⟨[], rfl, rfl, List.isChain_singleton _, d, rfl, ?_⟩
    obtain ⟨d', hd', hbase⟩ := leadsTo_iff.mp (List.isChain_cons_cons.mp h).1
    rw [hd] at hd'
    cases hd'
    exact hbase
  | cons k pre ih =>
    obtain ⟨hlead, hrest⟩ := List.isChain_cons_cons.mp h
    obtain ⟨d', hd', hbase⟩ := leadsTo_iff.mp hlead
    rw [hd] at hd'
    cases hd'
    have hk : ∃ b, p.find k ns = some (.adhoc b) := by
      cases pre with
      | nil =>
        obtain ⟨b, hb, -⟩ := leadsTo_iff.mp (List.isChain_cons_cons.mp hrest).1
        exact ⟨b, hb⟩
      | cons k' pre =>
        obtain ⟨b, hb, -⟩ := leadsTo_iff.mp (List.isChain_cons_cons.mp hrest).1
        exact ⟨b, hb⟩
    obtain ⟨b, hb⟩ := hk
    obtain ⟨-, rfl, -⟩ := find_adhoc hb
    obtain ⟨ds, rfl, hmap, hchain, a, ha, hlast⟩ := ih hb hrest
    refine ⟨b :: ds, rfl, by simp [hb, hmap], List.isChain_cons_cons.mpr ⟨hbase ▸ hb, hchain⟩, a, ?_, hlast⟩
    rw [List.getLast?_cons_cons]
    exact ha

/-- A walk ends at an action of another kind unless the chain has a cycle or an unknown name. -/
theorem end_eq_final_iff (hd : p.find d.name d.ns = some (.adhoc d)) {fuel : Nat} {ks : List String} {e : End String}
    (h : walk (look p d.ns) fuel [d.name] d.base = some (ks, e)) : e = .final ↔ ¬(Cyclic p d ∨ Unresolved p d) := by
  have hlead : LeadsTo (look p d.ns) d.name d.base := look_of_adhoc hd
  obtain ⟨-, -, hend⟩ := walk_spec hlead List.mem_cons_self h
  unfold Cyclic Unresolved
  rw [← leadsTo_eq]
  cases e with
  | final =>
    refine iff_of_true rfl ?_
    obtain ⟨pre, last, rfl, hchain, hlast⟩ := hend
    have hreach := (transGen_of_isChain hchain).to_reflTransGen
    have hstop : ∀ c, ¬LeadsTo (look p d.ns) last c := fun c hc => by
      unfold LeadsTo at hc
      rw [hlast] at hc
      cases hc
    rintro (hcyclic | ⟨name, hname, hnone⟩)
    · exact not_cyclic hreach hstop hcyclic
    · have hlook := look_eq_none.mpr hnone
      obtain rfl := end_unique hname (fun c hc => by
        unfold LeadsTo at hc
        rw [hlook] at hc
        cases hc) hreach hstop
      rw [hlast] at hlook
      cases hlook
  | unknown u =>
    refine iff_of_false nofun (not_not_intro (.inr ⟨u, ?_, look_eq_none.mp hend.2⟩))
    exact (transGen_of_isChain hend.1).to_reflTransGen
  | cycle c =>
    refine iff_of_false nofun (not_not_intro (.inl ⟨c, (transGen_of_isChain hend.1).to_reflTransGen, ?_⟩))
    refine cycle_of_isChain hend.1 ?_
    obtain hc | hc := hend.2
    · rw [List.mem_singleton.mp hc]
      exact List.mem_cons_self
    · exact List.mem_cons_of_mem _ hc

theorem visitHierarchy_eq {callback : Callback ω χ δ ε ρ} {fuel : Nat} {ks : List String} {e : End String}
    (h : walk (look p d.ns) fuel [d.name] d.base = some (ks, e)) :
    visitHierarchy p fuel callback d = some (callback (.adhoc d) none >>= fun res =>
      visitAll callback (ks.filterMap (p.find · d.ns)) res >>= raised d e) := by
  unfold visitHierarchy
  cases callback (.adhoc d) none with
  | error err => rfl
  | ok res => exact visitLoop_eq h

theorem raised_error {e : End String} (he : e ≠ .final) (res : ρ) : ∃ err, raised (ε := ε) d e res = .error err := by
  cases e with
  | final => exact absurd rfl he
  | unknown k => exact ⟨_, rfl⟩
  | cycle k => exact ⟨_, rfl⟩

/-- Whatever the callback does, a walk that does not come to an end raises. -/
theorem visitHierarchy_raises {callback : Callback ω χ δ ε ρ} {fuel : Nat} {ks : List String} {e : End String}
    (h : walk (look p d.ns) fuel [d.name] d.base = some (ks, e)) (he : e ≠ .final) :
    ∃ err, visitHierarchy p fuel callback d = some (.error err) := by
  rw [visitHierarchy_eq h]
  cases callback (.adhoc d) none with
  | error err => exact ⟨err, rfl⟩
  | ok res =>
    cases hall : visitAll callback (ks.filterMap (p.find · d.ns)) res with
    | error err => exact ⟨err, by simp only [bind, Except.bind, hall]⟩
    | ok res' =>
      obtain ⟨err, herr⟩ := raised_error (ε := ε) (d := d) he res'
      exact ⟨err, by simp only [bind, Except.bind, hall, herr]⟩

/-! ### Arguments and results -/

theorem visitAll_onVisit {ev : Evaluation χ δ γ ε} {wfCtx : γ} {inputDict args : Arguments δ} {o : ω}
    {x : Option (Descriptor ω χ δ)} (ds : List (Definition χ δ)) :
    visitAll (onVisit ev wfCtx inputDict) (ds.map .adhoc ++ [.other o]) (x, args) =
      (ds.foldlM (mapInput ev wfCtx) args).map (some (.other o), ·) := by
  induction ds generalizing x args with
  | nil => rfl
  | cons b ds ih =>
    simp only [visitAll, List.map_cons, List.cons_append, List.foldlM_cons] at ih ⊢
    simp only [onVisit]
    cases mapInput ev wfCtx args b with
    | error e => rfl
    | ok args' => exact ih

theorem visitAll_collectOutput (o : ω) (acc : List (Option χ)) (ds : List (Definition χ δ)) :
    visitAll (ε := ε) collectOutput (ds.map .adhoc ++ [.other o]) acc = .ok (acc ++ ds.map (·.output)) := by
  induction ds generalizing acc with
  | nil => exact congrArg Except.ok (List.append_nil acc).symm
  | cons b ds ih =>
    simp only [visitAll, List.map_cons, List.cons_append, List.foldlM_cons] at ih ⊢
    simp only [collectOutput, Option.getD_some, bind, Except.bind] at ih ⊢
    rw [ih, List.append_assoc]
    rfl

/-- `args'` are the arguments `args` with the defaults of `d` for those that are missing or not defined. -/
structure Completes (args : Arguments δ) (d : Definition χ δ) (args' : Arguments δ) : Prop where
  values : ∀ k, (args'.lookup k).join = (args.lookup k).join.or (d.input.findSome? fun p => if p.1 = k then p.2 else none)
  keys : ∀ k, (args'.lookup k).isSome ↔ (args.lookup k).isSome ∨ k ∈ d.input.map (·.1)

theorem lookup_setDefault (args : Arguments δ) (k name : String) (v : Option δ) :
    (setDefault args k v).lookup name =
      if name = k then some ((args.lookup k).join.or v) else args.lookup name := by
  unfold setDefault
  split
  next x hx =>
    split
    next heq => rw [heq, hx]; rfl
    · rfl
  next hnone =>
    have hjoin : (args.lookup k).join = none := by
      cases hk : args.lookup k with
      | none => rfl
      | some y =>
        cases y with
        | none => rfl
        | some x => exact absurd hk (hnone x)
    have hrest : (args.filter (·.1 ≠ k)).lookup name = if name ≠ k then args.lookup name else none := by
      simpa using Lists.lookup_filter (fun key => decide (key ≠ k)) args name
    rw [Lists.lookup_cons_ite, hrest, hjoin, Option.none_or]
    split
    · rfl
    · rfl

theorem completes_setDefaults (args : Arguments δ) (d : Definition χ δ) :
    Completes args d (d.input.foldl (fun args (k, v) => setDefault args k v) args) := by
  obtain ⟨_, _, _, _, input, _⟩ := d
  refine ⟨fun name => ?_, fun name => ?_⟩
  · induction input generalizing args with
    | nil => exact (Option.or_none).symm
    | cons p input ih =>
      rw [List.foldl_cons, ih, lookup_setDefault, List.findSome?_cons]
      by_cases h : name = p.1
      · subst h
        rw [if_pos rfl, if_pos rfl, Option.join_some, Option.or_assoc]
        cases p.2 <;> rfl
      · rw [if_neg h, if_neg (Ne.symm h)]
  · induction input generalizing args with
    | nil => simp
    | cons p input ih =>
      rw [List.foldl_cons, ih, lookup_setDefault, List.map_cons, List.mem_cons]
      by_cases h : name = p.1
      · subst h
        simp
      · rw [if_neg h]
        simp [h]

theorem mapInput_eq (ev : Evaluation χ δ γ ε) (wfCtx : γ) (args : Arguments δ) (d : Definition χ δ) :
    mapInput ev wfCtx args d =
      (ev.input d.baseInput (d.input.foldl (fun args (k, v) => setDefault args k v) args) wfCtx).mapError .evaluation := by
  unfold mapInput
  dsimp only
  split
  next h => rw [h]; rfl
  next h => rw [h]; rfl

theorem transform_eq (ev : Evaluation χ δ γ ε) (result : Result δ) (output : Option χ) :
    transform ev result output = output.elim (.ok result) fun t =>
      ((ev.output t result.data).map fun data => { data, error := result.error }).mapError .evaluation := by
  cases output with
  | none => rfl
  | some t =>
    simp only [transform, Option.elim]
    cases ev.output t result.data <;> rfl

/-- The walk ends. It raises if the chain has a cycle or an unknown name; otherwise it visits the chain, the arguments for
    the base are mapped from the action on, and the transformers are applied from the base on. -/
theorem adhoc_chains_resolved (p : Provider ω χ δ) (d : Definition χ δ) (hd : p.find d.name d.ns = some (.adhoc d))
    (fuel : Nat) (hfuel : p.definitions.length < fuel) :
    (Cyclic p d ∨ Unresolved p d → ∀ (ρ : Type) (callback : Callback ω χ δ ε ρ),
      ∃ e, visitHierarchy p fuel callback d = some (.error e)) ∧
    (¬(Cyclic p d ∨ Unresolved p d) → ∃ chain o, Chain p d chain o ∧
      (∀ (ρ : Type) (callback : Callback ω χ δ ε ρ), visitHierarchy p fuel callback d =
        some (callback (.adhoc d) none >>= visitAll callback (chain.tail.map .adhoc ++ [.other o]))) ∧
      ∃ completed : Arguments δ → Definition χ δ → Arguments δ, (∀ args b, Completes args b (completed args b)) ∧
      ∀ (γ : Type) (ev : Evaluation χ δ γ ε),
        (∀ inputDict wfCtx, instantiate p fuel ev d inputDict wfCtx =
          some ((chain.foldlM (fun args b => (ev.input b.baseInput (completed args b) wfCtx).mapError Exc.evaluation)
            inputDict).map (some (.other o), ·))) ∧
        ∀ result, postProcessResult p fuel ev d result =
          some (chain.reverse.foldlM (fun result b => b.output.elim (.ok result) fun transformer =>
            ((ev.output transformer result.data).map fun data =>
              { data, error := result.error : Result δ }).mapError Exc.evaluation) result)) := by
  obtain ⟨ks, e, hwalk⟩ := walk_ends p d hfuel
  have hfinal := end_eq_final_iff hd hwalk
  refine ⟨fun hbad ρ callback => visitHierarchy_raises hwalk fun he => hfinal.mp he hbad, fun hgood => ?_⟩
  obtain rfl := hfinal.mpr hgood
  have hlead : LeadsTo (look p d.ns) d.name d.base := look_of_adhoc hd
  obtain ⟨hfresh, hnodup, pre, last, rfl, hchain, hlast⟩ := walk_spec hlead List.mem_cons_self hwalk
  obtain ⟨o, ho⟩ := look_eq_final hlast
  obtain ⟨ds, rfl, hmap, hbases, a, ha, rfl⟩ := exists_definitions hd hchain
  have hvisit : ∀ (ρ : Type) (callback : Callback ω χ δ ε ρ), visitHierarchy p fuel callback d =
      some (callback (.adhoc d) none >>= visitAll callback (ds.map .adhoc ++ [.other o])) := fun ρ callback => by
    rw [visitHierarchy_eq hwalk, List.filterMap_append, hmap]
    simp only [List.filterMap_cons, ho, List.filterMap_nil]
    congr 2
    funext res
    exact bind_pure _
  refine ⟨d :: ds, o, ⟨rfl, hbases, ⟨a, ha, ho⟩, ?_⟩, hvisit,
    fun args b => b.input.foldl (fun args (k, v) => setDefault args k v) args, completes_setDefaults,
    fun γ ev => ⟨fun inputDict wfCtx => ?_, fun result => ?_⟩⟩
  · rw [List.map_cons, List.nodup_cons]
    exact ⟨fun hmem => hfresh _ (List.mem_append_left _ hmem) List.mem_cons_self, (List.nodup_append.mp hnodup).1⟩
  · simp only [← mapInput_eq]
    rw [instantiate, hvisit, List.foldlM_cons]
    congr 1
    simp only [onVisit]
    cases mapInput ev wfCtx inputDict d with
    | error err => rfl
    | ok args => exact visitAll_onVisit ds
  · simp only [← transform_eq]
    rw [postProcessResult, hvisit]
    simp only [collectOutput, Option.getD_none, List.nil_append, bind, Except.bind, Option.map_some]
    have hall := visitAll_collectOutput (ε := ε) o [d.output] ds
    rw [hall]
    simp [List.foldrM_map]

/-- Two ad-hoc actions that are each other's base. -/
def twoActions : Provider Unit Unit Nat where
  definitions := [{ name := "a", base := "b" }, { name := "b", base := "a" }]

theorem twoActions_rejected : ∃ e, visitHierarchy (ε := Unit) twoActions 3 collectOutput { name := "a", base := "b" } =
    some (.error e) :=
  (adhoc_chains_resolved (ε := Unit) twoActions { name := "a", base := "b" } (by decide) 3 (by decide)).1
    (.inl ⟨"a", .refl, .head ⟨_, rfl, rfl⟩ (.single ⟨_, rfl, rfl⟩)⟩) _ collectOutput

end AdhocActions
end Mistral
