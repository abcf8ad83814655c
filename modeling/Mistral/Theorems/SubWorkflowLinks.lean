import Mathlib.Logic.Relation
import Mistral.Engine.SubWorkflows
import Mistral.Lib.Lists

/-! The links from sub-workflows to the tasks that run them, and to the root of the execution tree. -/

namespace Mistral
namespace SubWorkflows

variable {defs : Definitions} {s s' : Engine} {e p : Execution} {o : Origin} {r : Request} {id : String}

/-- The links that a sub-workflow gets from its parent. -/
def linkParams (parent : Execution) (o : Origin) : Params :=
  [("root_execution_id", .text (rootOf parent)), ("task_execution_id", .text o.task), ("index", .int o.index)] ++
    (parent.ns.map ("namespace", ·)).toList

/-- No undeclared key of the input has another value than the link of the same name. Over RPC the namespace of the definition
    is what counts, where it is not the default one. -/
def Harmless (child : Definition) (childNs : String) (parent : Execution) (o : Origin) (rpc : Bool) (input : Params) : Prop :=
  ∀ link ∈ linkParams parent o, child.declares link.1 ∨ input.lookup link.1 = none ∨ input.lookup link.1 = some link.2 ∨
    (link.1 = "namespace" ∧ rpc ∧ childNs ≠ "")

/-- The parameters of a request to start a workflow name no parent, or a task and the root of its workflow. -/
def NamesRoot (s : Engine) (id : String) (params : Params) : Prop :=
  (params.lookup "task_execution_id").getD .null = .null ∧
      ((params.lookup "root_execution_id").getD .null = .null ∨ params.lookup "root_execution_id" = some (.text id)) ∨
    ∃ t ∈ s.tasks, ∃ p ∈ s.executions, p.id = t.workflowExecution ∧
      params.lookup "task_execution_id" = some (.text t.id) ∧ params.lookup "root_execution_id" = some (.text (rootOf p))

/-- No input redirects a link, and no request to the API makes one up. -/
def KeepsLinks (defs : Definitions) (s : Engine) : Event → Prop
  | .schedule rpc o names input _ => ∀ t parent ns childNs child, s.task? o.task = some t →
    s.execution? t.workflowExecution = some parent → parent.ns = some (.text ns) →
    resolveWorkflowDefinition defs ns names = some (childNs, child) → Harmless child childNs parent o rpc input
  | .startRoot id _ _ params => NamesRoot s id params
  | _ => True

/-- The task that runs a sub-workflow, and the workflow of this task. -/
structure RunBy (s : Engine) (o : Origin) (p : Execution) : Prop where
  task : ∃ t ∈ s.tasks, t.id = o.task ∧ p.id = t.workflowExecution
  parent : p ∈ s.executions

/-- A sub-workflow has the links that it should have. -/
structure Linked (s : Engine) (e : Execution) (o : Origin) : Prop where
  taskExecutionId : e.taskExecutionId = some o.task
  index : e.index = .int o.index
  parent : ∃ p, RunBy s o p ∧ e.ns = p.ns ∧ e.rootExecutionId = some (rootOf p)

/-- One step upwards: to the workflow of the task that an execution names. -/
def Parent (s : Engine) (e p : Execution) : Prop :=
  p ∈ s.executions ∧ ∃ t ∈ s.tasks, e.taskExecutionId = some t.id ∧ p.id = t.workflowExecution

/-- Upwards from the execution there is a workflow without a task, and each such workflow is its root. -/
structure EndsAtRoot (s : Engine) (e : Execution) : Prop where
  ends : ∃ top, Relation.ReflTransGen (Parent s) e top ∧ top.taskExecutionId = none
  root : ∀ top, Relation.ReflTransGen (Parent s) e top → top.taskExecutionId = none → e.rootExecutionId = some top.id

/-! ### What the child gets -/

/-- The links are among the parameters of the child, where no input hides them. -/
theorem lookup_baseParams {link : String × Param} (hlink : link ∈ linkParams p o) :
    (baseParams p o).lookup link.1 = some link.2 := by
  unfold linkParams at hlink
  simp only [List.mem_append, List.mem_cons, List.not_mem_nil, or_false, Option.mem_toList, Option.map_eq_some_iff] at hlink
  rcases hlink with (rfl | rfl | rfl) | ⟨ns, hns, rfl⟩
  · rfl
  · rfl
  · rfl
  · unfold baseParams
    rw [hns]
    rfl

theorem schedule_cases {rpc : Bool} {names : List String} {input : Params} (h : schedule defs s rpc o names input = some r) :
    ∃ t parent ns childNs child, s.task? o.task = some t ∧ s.execution? t.workflowExecution = some parent ∧
      parent.ns = some (.text ns) ∧ resolveWorkflowDefinition defs ns names = some (childNs, child) ∧
      r = { definition := child, wfNamespace := childNs, input := input.filter fun e => child.declares e.1,
            params := (input.filter fun e => !child.declares e.1) ++ baseParams parent o, rpc := rpc, origin := o } := by
  unfold schedule at h
  obtain ⟨t, ht, h⟩ := Option.bind_eq_some_iff.mp h
  obtain ⟨parent, hparent, h⟩ := Option.bind_eq_some_iff.mp h
  split at h
  next ns hns =>
    obtain ⟨⟨childNs, child⟩, hchild, h⟩ := Option.bind_eq_some_iff.mp h
    dsimp only at h
    split at h
    · cases h
    · exact ⟨t, parent, ns, childNs, child, ht, hparent, hns, hchild, (Option.some.inj h).symm⟩
  next => cases h

/-- The definition is one of the namespace, or of the default one. -/
theorem resolve_namespace {ns childNs : String} {names : List String} {child : Definition}
    (h : resolveWorkflowDefinition defs ns names = some (childNs, child)) : childNs = ns ∨ childNs = "" := by
  obtain ⟨name, -, hload⟩ := List.exists_of_findSome?_eq_some h
  unfold loadWorkflowDefinition at hload
  cases hns : defs ns name with
  | some d =>
    rw [hns] at hload
    exact .inl (congrArg Prod.fst (Option.some.inj hload)).symm
  | none =>
    rw [hns] at hload
    obtain ⟨d, -, hd⟩ := Option.map_eq_some_iff.mp (show (defs "" name).map ("", ·) = some (childNs, child) from hload)
    exact .inr (congrArg Prod.fst hd).symm

/-- The parameters of the child have all links, exactly where the input is harmless. -/
theorem links_iff {ns childNs : String} {names : List String} {child : Definition} {parent : Execution} {input : Params}
    {rpc : Bool} (hns : parent.ns = some (.text ns))
    (hchild : resolveWorkflowDefinition defs ns names = some (childNs, child))
    (hr : r = { definition := child, wfNamespace := childNs, input := input.filter fun e => child.declares e.1,
                params := (input.filter fun e => !child.declares e.1) ++ baseParams parent o, rpc := rpc, origin := o }) :
    (∀ link ∈ linkParams parent o, r.startParams.lookup link.1 = some link.2) ↔ Harmless child childNs parent o rpc input := by
  refine forall₂_congr fun link hlink => ?_
  have hparams : r.params.lookup link.1 = some link.2 ↔
      child.declares link.1 ∨ input.lookup link.1 = none ∨ input.lookup link.1 = some link.2 := by
    rw [hr]
    show ((input.filter fun e => !child.declares e.1) ++ baseParams parent o).lookup link.1 = some link.2 ↔ _
    rw [List.lookup_append, Lists.lookup_filter fun key => !child.declares key, lookup_baseParams hlink]
    cases hd : child.declares link.1 <;> cases hi : input.lookup link.1 <;> simp
  unfold Request.startParams
  have hrpc : r.rpc = rpc ∧ r.wfNamespace = childNs := by rw [hr]; exact ⟨rfl, rfl⟩
  rw [hrpc.1, hrpc.2]
  by_cases hover : rpc = true ∧ childNs ≠ ""
  · rw [if_pos hover]
    by_cases hkey : link.1 = "namespace"
    · -- The namespace of the definition is that of the parent.
      have hlinkNs : link.2 = .text ns := by
        unfold linkParams at hlink
        simp only [hns, List.mem_append, List.mem_cons, List.not_mem_nil, or_false, Option.map_some, Option.toList_some] at hlink
        rcases hlink with (rfl | rfl | rfl) | rfl
        · exact absurd hkey (by simp)
        · exact absurd hkey (by simp)
        · exact absurd hkey (by simp)
        · rfl
      have hsame : childNs = ns := (resolve_namespace hchild).resolve_right hover.2
      rw [hkey, hlinkNs, hsame]
      simp [← hsame, hover]
    · have hne : (link.1 == "namespace") = false := beq_eq_false_iff_ne.mpr hkey
      rw [List.lookup_cons, hne]
      simp only [hparams, hkey, false_and, or_false]
  · rw [if_neg hover, hparams]
    simp only [hover, and_false, or_false]

/-! ### The invariant -/

/-- A message carries all links of the sub-workflow that it will start. -/
def Ready (s : Engine) (r : Request) : Prop :=
  ∃ p ns, RunBy s r.origin p ∧ p.ns = some (.text ns) ∧ ∀ link ∈ linkParams p r.origin, r.startParams.lookup link.1 = some link.2

/-- An execution is its own root, or it hangs at a task and has the root of the workflow of this task. -/
def Attached (s : Engine) (e : Execution) : Prop :=
  e.taskExecutionId = none ∧ rootOf e = e.id ∨ ∃ p, Parent s e p ∧ e.rootExecutionId = some (rootOf p)

/-- Every execution has its links, and the links lead to its root. -/
structure WellFormed (s : Engine) : Prop where
  ids : ∀ e ∈ s.executions, e.id ≠ ""
  executionsNodup : (s.executions.map (·.id)).Nodup
  tasksNodup : (s.tasks.map (·.id)).Nodup
  ready : ∀ r ∈ s.requests, Ready s r
  linked : ∀ e ∈ s.executions, ∀ o, e.origin = some o → Linked s e o
  ends : ∀ e ∈ s.executions, ∃ top ∈ s.executions, Relation.ReflTransGen (Parent s) e top ∧ top.taskExecutionId = none ∧
    rootOf e = top.id

/-- Rows are only added. -/
structure Grows (s s' : Engine) : Prop where
  executions : s.executions ⊆ s'.executions
  tasks : s.tasks ⊆ s'.tasks

theorem RunBy.mono (h : RunBy s o p) (hgrow : Grows s s') : RunBy s' o p :=
  ⟨h.task.imp fun _ ht => ⟨hgrow.tasks ht.1, ht.2⟩, hgrow.executions h.parent⟩

theorem Linked.mono (h : Linked s e o) (hgrow : Grows s s') : Linked s' e o :=
  ⟨h.taskExecutionId, h.index, h.parent.imp fun _ hp => ⟨hp.1.mono hgrow, hp.2⟩⟩

theorem Ready.mono (h : Ready s r) (hgrow : Grows s s') : Ready s' r := by
  obtain ⟨p, ns, hrun, hns, hlinks⟩ := h
  exact ⟨p, ns, hrun.mono hgrow, hns, hlinks⟩

theorem Parent.mono (hgrow : Grows s s') {e p : Execution} (h : Parent s e p) : Parent s' e p :=
  ⟨hgrow.executions h.1, h.2.imp fun _ ht => ⟨hgrow.tasks ht.1, ht.2⟩⟩

theorem chain_mono (hgrow : Grows s s') {top : Execution} (h : Relation.ReflTransGen (Parent s) e top) :
    Relation.ReflTransGen (Parent s') e top :=
  Relation.ReflTransGen.mono (fun _ _ => Parent.mono hgrow) _ _ h

theorem wellFormed_init : WellFormed {} where
  ids := by simp
  executionsNodup := .nil
  tasksNodup := .nil
  ready := by simp
  linked := by simp
  ends := by simp

theorem isNew_iff {ids : List String} : isNew ids id ↔ id ≠ "" ∧ id ∉ ids := by
  simp [isNew]

/-- Executions stay linked when rows are added. -/
theorem WellFormed.grow (h : WellFormed s) (hgrow : Grows s s') (hsame : s'.executions = s.executions)
    (htasks : (s'.tasks.map (·.id)).Nodup) (hready : ∀ r ∈ s'.requests, Ready s' r) : WellFormed s' where
  ids := hsame ▸ h.ids
  executionsNodup := hsame ▸ h.executionsNodup
  tasksNodup := htasks
  ready := hready
  linked e he o ho := (h.linked e (hsame ▸ he) o ho).mono hgrow
  ends e he := by
    obtain ⟨top, htop, hchain, hnone, hroot⟩ := h.ends e (hsame ▸ he)
    exact ⟨top, hgrow.executions htop, chain_mono hgrow hchain, hnone, hroot⟩

theorem Linked.attached (h : Linked s e o) : Attached s e := by
  obtain ⟨p, hrun, -, hroot⟩ := h.parent
  obtain ⟨t, ht, hto, hp⟩ := hrun.task
  exact .inr ⟨p, ⟨hrun.parent, t, ht, hto ▸ h.taskExecutionId, hp⟩, hroot⟩

/-- A new row hangs at its root, and it has its links if it is a sub-workflow. -/
theorem WellFormed.add (h : WellFormed s) (hlinked : ∀ o, e.origin = some o → Linked s e o) (hattached : Attached s e) :
    WellFormed (s.add (some e)) := by
  unfold Engine.add
  dsimp only
  split
  next hnew =>
    obtain ⟨hid, hnot⟩ := isNew_iff.mp hnew
    have hgrow : Grows s { s with executions := e :: s.executions } := ⟨List.subset_cons_self e _, List.Subset.refl _⟩
    refine ⟨?_, List.nodup_cons.mpr ⟨hnot, h.executionsNodup⟩, h.tasksNodup, fun r hr => (h.ready r hr).mono hgrow, ?_, ?_⟩
    · rintro e' (_ | ⟨_, he'⟩)
      · exact hid
      · exact h.ids e' he'
    · rintro e' (_ | ⟨_, he'⟩) o ho
      · exact (hlinked o ho).mono hgrow
      · exact (h.linked e' he' o ho).mono hgrow
    · rintro e' (_ | ⟨_, he'⟩)
      · rcases hattached with ⟨htask, hroot⟩ | ⟨p, hparent, hroot⟩
        · exact ⟨e, List.mem_cons_self, .refl, htask, hroot⟩
        · obtain ⟨top, htop, hchain, hnone, hrootOf⟩ := h.ends p hparent.1
          refine ⟨top, List.mem_cons_of_mem e htop, .head (hparent.mono hgrow) (chain_mono hgrow hchain), hnone, ?_⟩
          rw [rootOf, hroot, hrootOf]
          exact if_neg (h.ids top htop)
      · obtain ⟨top, htop, hchain, hnone, hroot⟩ := h.ends e' he'
        exact ⟨top, List.mem_cons_of_mem e htop, chain_mono hgrow hchain, hnone, hroot⟩
  next => exact h

/-! ### One step -/

theorem foreignKey_text {ids : List String} {x : String} {y : Option String} (h : foreignKey ids (some (.text x)) = some y) :
    y = some x := by
  rw [foreignKey] at h
  split at h
  · exact (Option.some.inj h).symm
  · cases h

/-- A message with all links starts a sub-workflow that has them. -/
theorem linked_of_start (hready : Ready s r) (h : start s r id = some e) : e.origin = some r.origin ∧ Linked s e r.origin := by
  obtain ⟨p, ns, hrun, hns, hlinks⟩ := hready
  unfold linkParams at hlinks
  simp only [hns, List.cons_append, List.nil_append, Option.map_some, Option.toList_some, List.forall_mem_cons] at hlinks
  obtain ⟨hroot, htask, hindex, hnamespace, -⟩ := hlinks
  unfold start at h
  split at h
  · cases h
  · obtain ⟨task, hforeign, h⟩ := Option.bind_eq_some_iff.mp h
    obtain ⟨root, hforeign', h⟩ := Option.bind_eq_some_iff.mp h
    rw [htask] at hforeign
    rw [hroot] at hforeign'
    obtain rfl := foreignKey_text hforeign
    obtain rfl := foreignKey_text hforeign'
    obtain rfl := Option.some.inj h
    refine ⟨rfl, rfl, ?_, p, hrun, ?_, rfl⟩
    · show (r.startParams.lookup "index").getD (.int 0) = _
      rw [hindex]
      rfl
    · show r.startParams.lookup "namespace" = p.ns
      rw [hnamespace, hns]

theorem WellFormed.addStarted (h : WellFormed s) (hready : Ready s r) (id : String) : WellFormed (s.add (start s r id)) := by
  cases hstart : start s r id with
  | none => exact h
  | some e =>
    obtain ⟨horigin, hlinked⟩ := linked_of_start hready hstart
    refine h.add (fun o ho => ?_) hlinked.attached
    obtain rfl : r.origin = o := Option.some.inj (horigin.symm.trans ho)
    exact hlinked

theorem add_grows (s : Engine) (e : Option Execution) : Grows s (s.add e) ∧ (s.add e).tasks = s.tasks ∧
    (s.add e).requests = s.requests := by
  unfold Engine.add
  split
  · split
    · exact ⟨⟨List.subset_cons_self _ _, List.Subset.refl _⟩, rfl, rfl⟩
    · exact ⟨⟨List.Subset.refl _, List.Subset.refl _⟩, rfl, rfl⟩
  · exact ⟨⟨List.Subset.refl _, List.Subset.refl _⟩, rfl, rfl⟩

theorem ready_of_schedule {rpc : Bool} {names : List String} {input : Params} {id : String}
    (hguard : KeepsLinks defs s (.schedule rpc o names input id)) (h : schedule defs s rpc o names input = some r) : Ready s r := by
  obtain ⟨t, parent, ns, childNs, child, ht, hparent, hns, hchild, hr⟩ := schedule_cases h
  have horigin : r.origin = o := by rw [hr]
  refine ⟨parent, ns, ⟨⟨t, List.mem_of_find?_eq_some ht, ?_, ?_⟩, List.mem_of_find?_eq_some hparent⟩, hns, ?_⟩
  · rw [horigin]
    have hid := List.find?_some ht
    exact beq_iff_eq.mp hid
  · have hid := List.find?_some hparent
    exact beq_iff_eq.mp hid
  · rw [horigin]
    exact (links_iff hns hchild hr).mpr (hguard t parent ns childNs child ht hparent hns hchild)

theorem foreignKey_null {ids : List String} {x : Option Param} {y : Option String} (hx : x.getD .null = .null)
    (h : foreignKey ids x = some y) : y = none := by
  cases x with
  | none => exact (Option.some.inj h).symm
  | some v =>
    obtain rfl : v = .null := hx
    exact (Option.some.inj h).symm

theorem lookup_rootParams {wfNamespace defNamespace key : String} {params : Params} (hkey : key ≠ "namespace") :
    (rootParams wfNamespace defNamespace params).lookup key = params.lookup key := by
  unfold rootParams
  split
  · rw [Lists.lookup_cons_ite, if_neg hkey]
  split
  · rfl
  · rw [Lists.lookup_cons_ite, if_neg hkey]

/-- A workflow that is started over the API is its own root, or it hangs at the task that its parameters name. -/
theorem attached_of_rootExecution {wfNamespace defNamespace : String} {params : Params} (hnames : NamesRoot s id params)
    (h : rootExecution s id wfNamespace defNamespace params = some e) : e.origin = none ∧ Attached s e := by
  unfold rootExecution at h
  split at h
  · cases h
  obtain ⟨task, htask, h⟩ := Option.bind_eq_some_iff.mp h
  obtain ⟨root, hroot, h⟩ := Option.bind_eq_some_iff.mp h
  rw [lookup_rootParams (by decide)] at htask hroot
  obtain rfl := Option.some.inj h
  refine ⟨rfl, ?_⟩
  obtain ⟨hnone, hself⟩ | ⟨t, ht, p, hp, hrun, htaskId, hrootId⟩ := hnames
  · refine .inl ⟨foreignKey_null hnone htask, ?_⟩
    obtain hnull | hself := hself
    · rw [rootOf, foreignKey_null hnull hroot]
    · rw [hself] at hroot
      rw [rootOf, foreignKey_text hroot]
      exact ite_self id
  · rw [htaskId] at htask
    rw [hrootId] at hroot
    exact .inr ⟨p, ⟨hp, t, ht, foreignKey_text htask, hrun⟩, foreignKey_text hroot⟩

theorem wellFormed_step (h : WellFormed s) (ev : Event) (hguard : KeepsLinks defs s ev) : WellFormed (step defs s ev) := by
  cases ev with
  | startRoot id wfNamespace defNamespace params =>
    rw [step]
    cases hroot : rootExecution s id wfNamespace defNamespace params with
    | none => exact h
    | some e =>
      obtain ⟨horigin, hattached⟩ := attached_of_rootExecution hguard hroot
      refine h.add (fun o ho => ?_) hattached
      rw [horigin] at ho
      cases ho
  | createTask id ex =>
    rw [step]
    split
    next hnew =>
      have hgrow : Grows s { s with tasks := ⟨id, ex⟩ :: s.tasks } := ⟨List.Subset.refl _, List.subset_cons_self _ _⟩
      exact h.grow hgrow rfl (List.nodup_cons.mpr ⟨(isNew_iff.mp hnew).2, h.tasksNodup⟩) fun r hr => (h.ready r hr).mono hgrow
    next => exact h
  | schedule rpc o names input id =>
    rw [step]
    split
    next => exact h
    next r hr =>
      have hready := ready_of_schedule hguard hr
      split
      · have hgrow : Grows s { s with requests := s.requests ++ [r] } := ⟨List.Subset.refl _, List.Subset.refl _⟩
        refine h.grow hgrow rfl h.tasksNodup fun r' hr' => ?_
        rcases List.mem_append.mp hr' with hmem | hmem
        · exact (h.ready r' hmem).mono hgrow
        · obtain rfl := List.mem_singleton.mp hmem
          exact hready.mono hgrow
      · exact h.addStarted hready id
  | deliver n id =>
    rw [step]
    split
    next => exact h
    next r hr =>
      have hadded := h.addStarted (h.ready r (List.mem_of_getElem? hr)) id
      obtain ⟨hgrow, -, -⟩ := add_grows s (start s r id)
      refine hadded.grow ⟨List.Subset.refl _, List.Subset.refl _⟩ rfl hadded.tasksNodup fun r' hr' => ?_
      have hmem := List.mem_of_mem_eraseIdx hr'
      exact (h.ready r' hmem).mono ⟨hgrow.executions, hgrow.tasks⟩

/-! ### The way up -/

theorem parent_rightUnique (h : WellFormed s) : Relator.RightUnique (Parent s) := by
  rintro e p p' ⟨hp, t, ht, htask, hid⟩ ⟨hp', t', ht', htask', hid'⟩
  have htt : t = t' := List.inj_on_of_nodup_map h.tasksNodup ht ht' (Option.some.inj (htask.symm.trans htask'))
  subst htt
  exact List.inj_on_of_nodup_map h.executionsNodup hp hp' (hid.trans hid'.symm)

theorem not_parent_of_none (h : e.taskExecutionId = none) : ¬Parent s e p := by
  rintro ⟨-, t, -, htask, -⟩
  rw [h] at htask
  cases htask

theorem endsAtRoot (h : WellFormed s) (he : e ∈ s.executions) (ho : e.origin = some o) : EndsAtRoot s e := by
  obtain ⟨top, -, hchain, hnone, hroot⟩ := h.ends e he
  obtain ⟨p, hrun, -, hparent⟩ := (h.linked e he o ho).parent
  obtain ⟨top', htop', -, -, hroot'⟩ := h.ends p hrun.parent
  refine ⟨⟨top, hchain, hnone⟩, fun other hother hnone' => ?_⟩
  have hsame : other = top := by
    rcases Relation.ReflTransGen.total_of_right_unique (parent_rightUnique h) hother hchain with hup | hup
    · rcases hup.cases_head with rfl | ⟨c, hc, -⟩
      · rfl
      · exact absurd hc (not_parent_of_none hnone')
    · rcases hup.cases_head with rfl | ⟨c, hc, -⟩
      · rfl
      · exact absurd hc (not_parent_of_none hnone)
  have hne : rootOf p ≠ "" := hroot' ▸ h.ids top' htop'
  have hown : rootOf e = rootOf p := by
    rw [rootOf, hparent]
    exact if_neg hne
  rw [hsame, hparent, ← hroot, hown]

/-- In every run in which no input redirects a link, each sub-workflow has its links, and these lead to its root. -/
theorem linkage_well_formed (defs : Definitions) {s : Engine} (h : (system defs).Reach (KeepsLinks defs) s) :
    ∀ e ∈ s.executions, ∀ o, e.origin = some o → Linked s e o ∧ EndsAtRoot s e := by
  have hwell : WellFormed s := h.invariant (fun s hs => hs ▸ wellFormed_init) fun s ev _ hs hguard => wellFormed_step hs ev hguard
  exact fun e he o ho => ⟨hwell.linked e he o ho, endsAtRoot hwell he ho⟩

/-! ### Runs -/

/-- A child that declares `x` only. -/
def oneInput : Definitions := fun _ name => if name = "child" then some { input := [("x", none)] } else none

/-- Two workflows are started, a task of the first one runs the child in this process, and a task of the child runs it over
    RPC. -/
def nestedRun (input : Params) : List Event :=
  [.startRoot "wf1" "" "" [], .startRoot "wf2" "" "" [], .createTask "t1" "wf1", .schedule false ⟨"t1", 0⟩ ["child"] input "wf3",
   .createTask "t2" "wf3", .schedule true ⟨"t2", 4⟩ ["child"] input "", .deliver 0 "wf4"]

theorem mem_linkParams_key {link : String × Param} (h : link ∈ linkParams p o) :
    link.1 ∈ ["root_execution_id", "task_execution_id", "index", "namespace"] := by
  unfold linkParams at h
  simp only [List.mem_append, List.mem_cons, List.not_mem_nil, or_false, Option.mem_toList, Option.map_eq_some_iff] at h
  rcases h with (rfl | rfl | rfl) | ⟨ns, -, rfl⟩ <;> simp

theorem harmless_of_lookup {child : Definition} {childNs : String} {rpc : Bool} {input : Params}
    (h : ∀ key ∈ ["root_execution_id", "task_execution_id", "index", "namespace"], input.lookup key = none) :
    Harmless child childNs p o rpc input :=
  fun link hlink => .inr (.inl (h link.1 (mem_linkParams_key hlink)))

theorem nestedRun_linked : ((system oneInput).run {} (nestedRun [("x", .null)])).executions ≠ [] ∧
    ∀ e ∈ ((system oneInput).run {} (nestedRun [("x", .null)])).executions, ∀ o, e.origin = some o →
      Linked ((system oneInput).run {} (nestedRun [("x", .null)])) e o ∧
        EndsAtRoot ((system oneInput).run {} (nestedRun [("x", .null)])) e := by
  refine ⟨by decide, linkage_well_formed oneInput
    (System.Reach.run (.init rfl) ⟨.inl ⟨rfl, .inl rfl⟩, .inl ⟨rfl, .inl rfl⟩, trivial, ?_, trivial, ?_, trivial, trivial⟩)⟩
  · exact fun t parent ns childNs child _ _ _ _ => harmless_of_lookup (by decide)
  · exact fun t parent ns childNs child _ _ _ _ => harmless_of_lookup (by decide)

/-- The root of a sub-workflow is the workflow that its input names. -/
theorem input_redirects_root : ¬∀ (defs : Definitions) (evs : List Event),
    ∀ e ∈ ((system defs).run {} evs).executions, ∀ o, e.origin = some o → EndsAtRoot ((system defs).run {} evs) e := fun h => by
  let input : Params := [("x", .null), ("root_execution_id", .text "wf2")]
  let parent : Execution := { id := "wf1", params := [("namespace", .text "")] }
  let child : Execution :=
    { id := "wf3", taskExecutionId := some "t1", rootExecutionId := some "wf2", input := [("x", .null)], origin := some ⟨"t1", 0⟩,
      params := [("root_execution_id", .text "wf2"), ("root_execution_id", .text "wf1"), ("task_execution_id", .text "t1"),
        ("index", .int 0), ("namespace", .text "")] }
  have hends := h oneInput (nestedRun input) child (by decide) ⟨"t1", 0⟩ rfl
  have hparent : Parent ((system oneInput).run {} (nestedRun input)) child parent :=
    ⟨by decide, ⟨"t1", "wf1"⟩, by decide, rfl, rfl⟩
  exact absurd (hends.root parent (.single hparent) rfl) (by decide)

end SubWorkflows
end Mistral
