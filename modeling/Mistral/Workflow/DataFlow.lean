import Mistral.Lib.Dicts
import Mistral.Lib.Excepts

/-! The contexts of variables that tasks hand on (`mistral/workflow/data_flow.py`), and the versions of their keys
    (`mistral/workflow/context_versioning.py`). Nested values are copied here; the code shares some of them. -/

namespace Mistral

/-- The option `engine.merge_strategy`. -/
inductive MergeStrategy
  | replace
  | merge
  deriving DecidableEq, Repr

/-- `merge_dicts` and `update_dict` of the library `mistral_lib.utils`. -/
structure DictUtils where
  mergeDicts : Dict → Dict → Dict
  updateDict : Dict → Dict → Dict
  merges : Dict.MergesRecursively mergeDicts
  updates : ∀ l r k, (updateDict l r).lookup k = (r.lookup k).or (l.lookup k)

/-- Merging and updating dictionaries. -/
def dictUtils : DictUtils where
  mergeDicts := Dict.mergeInto
  updateDict l r := r ++ l
  merges := Dict.mergesRecursively_mergeInto
  updates l r k := by
    induction r with
    | nil => rfl
    | cons e r ih =>
      obtain ⟨k', v⟩ := e
      rw [List.cons_append, List.lookup_cons, List.lookup_cons]
      split
      · rfl
      · exact ih

/-- The options of data flow: `versioning` is `context_versioning.enabled`, and `md5` the hash of a version key. -/
structure DataFlowConf where
  utils : DictUtils
  versioning : Bool
  hashVersionKeys : Bool := false
  md5 : String → String := id
  mergeStrategy : MergeStrategy := .replace

/-- The dictionary under the key `__versions` of a context. A key that it does not have is in version 0. -/
abbrev Versions := List (String × Nat)

namespace Versions
variable (versions l r : Versions)

/-- `_get_version`. -/
def getVersion (key : String) : Nat := (versions.lookup key).getD 0

/-- `versions.setdefault(key, 0); versions[key] += 1`. -/
def increment (key : String) : Versions := (key, versions.getVersion key + 1) :: versions

/-- `_merge_versions`. -/
def mergeVersions : Versions := r.map (fun (key, n) => (key, max (l.getVersion key) n)) ++ l

end Versions

/-- A context: its variables, and the entry `__versions` if it has one. -/
structure DataFlowContext where
  vars : Dict := []
  versions : Option Versions := none
  deriving Repr

/-- `bool(ctx)`. -/
def DataFlowContext.isTrue (ctx : DataFlowContext) : Bool := !ctx.vars.isEmpty || ctx.versions.isSome

/-- The key of the versions of variables. -/
def versionsKey : String := "__versions"

/-- The key of the task execution of a context. -/
def taskExecutionKey : String := "__task_execution"

/-- The variables that a task publishes, which do not have the names of internal entries. -/
structure Published where
  vars : Dict := []
  noVersions : vars.lookup versionsKey = none := by rfl
  noTaskExecution : vars.lookup taskExecutionKey = none := by rfl

/-- The columns `in_context` and `published` of a task execution. -/
structure TaskData where
  inContext : DataFlowContext := {}
  published : Published := {}

namespace DataFlowConf
variable (conf : DataFlowConf)

/-- `key if not prefix else prefix + "." + key`. -/
def newPrefix (path key : String) : String := if path = "" then key else path ++ "." ++ key

/-- The key of a version. -/
def hashed (path : String) : String := if conf.hashVersionKeys then conf.md5 path else path

mutual

/-- The keys of one value in `_get_published_keys_recursively`. -/
def publishedKeysOf (path : String) : Json → List String
  | .dict d => publishedKeys path d
  | .value _ => [conf.hashed path]

/-- `_get_published_keys_recursively`. -/
def publishedKeys (path : String) : Dict → List String
  | [] => []
  | (k, v) :: published => publishedKeysOf (newPrefix path k) v ++ publishedKeys path published

end

/-- `_get_updated_keys`. -/
def updatedKeys (published : Dict) : List String := conf.publishedKeys "" published

/-- `get_in_context_with_versions`. -/
def getInContextWithVersions (t : TaskData) : DataFlowContext :=
  if conf.versioning then
    { t.inContext with
      versions := some ((conf.updatedKeys t.published.vars).foldl .increment (t.inContext.versions.getD [])) }
  else t.inContext

/-- `evaluate_task_outbound_context`. -/
def evaluateTaskOutboundContext (t : TaskData) : DataFlowContext :=
  let inContext := conf.getInContextWithVersions t
  match conf.mergeStrategy with
  | .merge => { inContext with vars := conf.utils.mergeDicts inContext.vars t.published.vars }
  | .replace => { inContext with vars := conf.utils.updateDict inContext.vars t.published.vars }

section
variable (l r : Versions)

/-- The comparison of `_merge_ctx` for two values that are not both dictionaries. -/
def isNewer (path : String) : Bool := r.getVersion (conf.hashed path) > l.getVersion (conf.hashed path)

mutual

/-- The value of `_merge_ctx` under a key of the right context. -/
def mergeCtxValue (path : String) (left : Option Json) (right : Json) : Json :=
  match left, right with
  | none, v => v
  | some (.dict a), .dict b => .dict (mergeCtx path a b)
  | some left, v => if conf.isNewer l r path then v else left

/-- `_merge_ctx`. -/
def mergeCtx (path : String) (left right : Dict) : Dict :=
  match right with
  | [] => left
  | (k, v) :: right =>
    (k, mergeCtxValue (newPrefix path k) (left.lookup k) v) :: mergeCtx path left right

end

end

/-- `_remove_internal_data_from_context`; the entry `__versions` is apart. -/
def removeInternalData (vars : Dict) : Dict := vars.filter fun (k, _) => k != taskExecutionKey

/-- `merge_context_by_version`. -/
def mergeContextByVersion (left right : DataFlowContext) : Except String DataFlowContext :=
  match left.versions, right.versions with
  | some l, some r => .ok {
      vars := conf.mergeCtx l r "" (removeInternalData left.vars) (removeInternalData right.vars)
      versions := some (l.mergeVersions r) }
  | _, _ => .error "KeyError: '__versions'"

/-- The loop of `evaluate_upstream_context` with versions. -/
def mergeUpstream (ctx : DataFlowContext) (upstream : List TaskData) : Except String DataFlowContext :=
  upstream.foldlM (fun ctx t => conf.mergeContextByVersion ctx (conf.evaluateTaskOutboundContext t)) ctx

/-- `evaluate_upstream_context`. -/
def evaluateUpstreamContext (upstream : List TaskData) (additive : DataFlowContext) : Except String DataFlowContext :=
  if conf.versioning then
    match upstream.getLast? with
    | none => .ok {}
    | some last =>
      if additive.isTrue then conf.mergeUpstream additive upstream
      else conf.mergeUpstream (conf.evaluateTaskOutboundContext last) upstream.dropLast
  else
    let published := upstream.foldl (fun vars t => conf.utils.mergeDicts vars t.published.vars) []
    let ctx := upstream.foldl (fun vars t => conf.utils.mergeDicts vars (conf.evaluateTaskOutboundContext t).vars) []
    .ok { vars := conf.utils.mergeDicts ctx published }

/-- A batch of `evaluate_workflow_final_context`. -/
def mergeBatch (ctx : DataFlowContext) (batch : List TaskData) : Except String DataFlowContext :=
  if conf.versioning then conf.evaluateUpstreamContext batch ctx
  else
    let merge := fun vars (t : TaskData) => conf.utils.mergeDicts vars (conf.evaluateTaskOutboundContext t).vars
    .ok { ctx with vars := batch.foldl merge ctx.vars }

/-- `evaluate_workflow_final_context`, for the batches of the executions that end the workflow. -/
def evaluateWorkflowFinalContext (batches : List (List TaskData)) : Except String DataFlowContext :=
  batches.foldlM conf.mergeBatch {}

end DataFlowConf

/-! ### Versions -/

namespace Versions
variable (versions l r : Versions) (key key' : String)

@[simp] theorem getVersion_nil : getVersion [] key = 0 := rfl

@[simp] theorem getVersion_increment :
    (versions.increment key').getVersion key = versions.getVersion key + if key = key' then 1 else 0 := by
  by_cases hkey : key = key'
  · subst hkey
    simp [increment, getVersion]
  · have hne : (key == key') = false := by simpa using hkey
    simp [increment, getVersion, List.lookup_cons, hne, hkey]

theorem getVersion_foldl_increment (keys : List String) :
    (keys.foldl increment versions).getVersion key = versions.getVersion key + keys.count key := by
  induction keys generalizing versions with
  | nil => rfl
  | cons key' keys ih =>
    rw [List.foldl_cons, ih, getVersion_increment, List.count_cons]
    by_cases hkey : key = key'
    · subst hkey
      simp
      omega
    · have hne : (key' == key) = false := by simpa using fun h => hkey h.symm
      simp [hkey, hne]

theorem getVersion_mergeVersions : (l.mergeVersions r).getVersion key = max (l.getVersion key) (r.getVersion key) := by
  induction r with
  | nil => simp [mergeVersions]
  | cons e r ih =>
    obtain ⟨key', n⟩ := e
    by_cases hkey : key = key'
    · subst hkey
      simp [mergeVersions, getVersion]
    · have hne : (key == key') = false := by simpa using hkey
      simpa [mergeVersions, getVersion, List.lookup_cons, hne] using ih

end Versions

/-! ### Merged contexts -/

namespace DataFlowConf
variable (conf : DataFlowConf) (l r : Versions)

/-- The key of the version of a path that starts below another one. -/
def keyFrom (path : String) (p : List String) : String := conf.hashed (p.foldl newPrefix path)

/-- The key of the version of a path. -/
def versionKey (p : List String) : String := conf.keyFrom "" p

/-- Where a merged context takes a path from; both contexts have a dictionary at the last kind. -/
inductive Source
  | left
  | right
  | both
  deriving DecidableEq, Repr

/-- Where `_merge_ctx` takes a path from. -/
def source (path : String) (left right : Dict) : List String → Source
  | [] => .both
  | k :: p =>
    match left.lookup k, right.lookup k with
    | _, none => .left
    | none, some _ => .right
    | some (.dict a), some (.dict b) => source (newPrefix path k) a b p
    | some _, some _ => if conf.isNewer l r (newPrefix path k) then .right else .left

variable {conf l r} {path k : String} {left right : Dict} {p : List String} {n n' : Node}

theorem lookup_mergeCtx : (conf.mergeCtx l r path left right).lookup k =
    match right.lookup k with
    | some v => some (conf.mergeCtxValue l r (newPrefix path k) (left.lookup k) v)
    | none => left.lookup k := by
  induction right with
  | nil => simp [mergeCtx]
  | cons e right ih =>
    obtain ⟨k', v⟩ := e
    rw [mergeCtx]
    by_cases hk : k = k'
    · subst hk
      simp
    · have hne : (k == k') = false := by simpa using hk
      simp only [List.lookup_cons, hne]
      exact ih

theorem node?_mergeCtx : (conf.mergeCtx l r path left right).node? p =
    match conf.source l r path left right p with
    | .left => left.node? p
    | .right => right.node? p
    | .both => some .dict := by
  induction p generalizing path left right with
  | nil => rfl
  | cons k p ih =>
    rw [Dict.node?_cons, lookup_mergeCtx, source, Dict.node?_cons, Dict.node?_cons]
    rcases hright : right.lookup k with _ | b | y
    · rfl
    · rcases hleft : left.lookup k with _ | a | x
      · simp [mergeCtxValue]
      · simp only [mergeCtxValue, Option.bind_some]
        exact @ih _ a b
      · by_cases hnewer : conf.isNewer l r (newPrefix path k) <;> simp [mergeCtxValue, hnewer]
    · rcases hleft : left.lookup k with _ | a | x
      · simp [mergeCtxValue]
      · by_cases hnewer : conf.isNewer l r (newPrefix path k) <;> simp [mergeCtxValue, hnewer]
      · by_cases hnewer : conf.isNewer l r (newPrefix path k) <;> simp [mergeCtxValue, hnewer]

theorem node?_of_both (h : conf.source l r path left right p = .both) :
    left.node? p = some .dict ∧ right.node? p = some .dict := by
  induction p generalizing path left right with
  | nil => exact ⟨rfl, rfl⟩
  | cons k p ih =>
    rw [source] at h
    rw [Dict.node?_cons, Dict.node?_cons]
    rcases hright : right.lookup k with _ | b | y <;> rcases hleft : left.lookup k with _ | a | x <;>
      simp only [hleft, hright] at h
    all_goals first | exact ih h | (split at h <;> cases h) | cases h

/-- Of two values that are not both dictionaries, the newer one is taken, and the left one of two with one version. -/
theorem source_of_nodes (hleft : left.node? p = some n) (hright : right.node? p = some n') :
    conf.source l r path left right p = .both ∨ conf.source l r path left right p =
      if r.getVersion (conf.keyFrom path p) > l.getVersion (conf.keyFrom path p) then .right else .left := by
  induction p generalizing path left right with
  | nil => exact .inl rfl
  | cons k p ih =>
    rw [Dict.node?_cons] at hleft hright
    obtain ⟨v, hv, hnode⟩ := Option.bind_eq_some_iff.mp hleft
    obtain ⟨w, hw, hnode'⟩ := Option.bind_eq_some_iff.mp hright
    rw [source, hv, hw]
    cases v with
    | dict a =>
      cases w with
      | dict b => exact @ih (newPrefix path k) a b hnode hnode'
      | value y =>
        cases p with
        | nil => simp [isNewer, keyFrom]
        | cons => cases hnode'
    | value x =>
      cases p with
      | nil => simp [isNewer, keyFrom]
      | cons => cases hnode

theorem mem_publishedKeys {published : Dict} {x : String} (h : published.node? p = some (.value x)) :
    conf.keyFrom path p ∈ conf.publishedKeys path published := by
  induction p generalizing path published with
  | nil => cases h
  | cons k p ih =>
    rw [Dict.node?_cons] at h
    obtain ⟨v, hv, hnode⟩ := Option.bind_eq_some_iff.mp h
    clear h
    induction published with
    | nil => cases hv
    | cons e published ihd =>
      obtain ⟨k', w⟩ := e
      rw [List.lookup_cons] at hv
      by_cases hk : k = k'
      · subst hk
        simp only [beq_self_eq_true, Option.some.injEq] at hv
        subst hv
        refine List.mem_append_left _ ?_
        cases w with
        | dict d => exact @ih (newPrefix path k) d hnode
        | value y =>
          cases p with
          | nil => exact List.mem_singleton_self _
          | cons => cases hnode
      · have hne : (k == k') = false := by simpa using hk
        simp only [hne] at hv
        exact List.mem_append_right _ (ihd hv)

theorem lookup_removeInternalData {vars : Dict} :
    (removeInternalData vars).lookup k = if k = taskExecutionKey then none else vars.lookup k := by
  induction vars with
  | nil => simp [removeInternalData]
  | cons e vars ih =>
    obtain ⟨k', v⟩ := e
    rw [removeInternalData] at ih ⊢
    by_cases hinternal : k' = taskExecutionKey
    · subst hinternal
      by_cases hk : k = taskExecutionKey
      · simpa [hk] using ih
      · have hne : (k == taskExecutionKey) = false := by simpa using hk
        simpa [List.lookup_cons, hne] using ih
    · by_cases hk : k = k'
      · subst hk
        simp [hinternal]
      · have hne : (k == k') = false := by simpa using hk
        simpa [hinternal, List.lookup_cons, hne] using ih

theorem node?_of_removeInternalData {vars : Dict} (h : (removeInternalData vars).node? (k :: p) = some n) :
    vars.node? (k :: p) = some n := by
  rw [Dict.node?_cons, lookup_removeInternalData] at h
  split at h
  · cases h
  · exact h

/-! ### Outbound contexts -/

variable {t : TaskData}

theorem vars_getInContextWithVersions : (conf.getInContextWithVersions t).vars = t.inContext.vars := by
  unfold getInContextWithVersions
  split <;> rfl

theorem lookup_outbound : ((conf.evaluateTaskOutboundContext t).vars.lookup k).isSome ↔
    (t.inContext.vars.lookup k).isSome ∨ (t.published.vars.lookup k).isSome := by
  have hvars : (conf.getInContextWithVersions t).vars = t.inContext.vars := vars_getInContextWithVersions
  rw [← hvars]
  unfold evaluateTaskOutboundContext
  cases conf.mergeStrategy with
  | merge => exact conf.utils.merges.isSome_lookup
  | replace => simp [conf.utils.updates, Option.isSome_or, or_comm]

/-- A task hands on what it publishes, and what it has got where it publishes nothing. -/
theorem node?_outbound (h : (conf.evaluateTaskOutboundContext t).vars.node? (k :: p) = some n) :
    t.published.vars.node? (k :: p) = some n ∨
      t.published.vars.node? (k :: p) = none ∧ t.inContext.vars.node? (k :: p) = some n := by
  have hvars : (conf.getInContextWithVersions t).vars = t.inContext.vars := vars_getInContextWithVersions
  rw [← hvars]
  unfold evaluateTaskOutboundContext at h
  cases hstrategy : conf.mergeStrategy with
  | merge =>
    rw [hstrategy] at h
    cases hpub : t.published.vars.node? (k :: p) with
    | none => exact .inr ⟨rfl, conf.utils.merges.node?_left hpub h⟩
    | some n' =>
      have hmerged := conf.utils.merges.node?_of_some (l := (conf.getInContextWithVersions t).vars) hpub
      exact .inl (hmerged.symm.trans h)
  | replace =>
    rw [hstrategy] at h
    rw [Dict.node?_cons, conf.utils.updates] at h
    rw [Dict.node?_cons]
    cases hpub : t.published.vars.lookup k with
    | none =>
      rw [hpub] at h
      exact .inr ⟨rfl, h⟩
    | some v =>
      rw [hpub] at h
      exact .inl h

theorem versions_outbound (hversioning : conf.versioning = true) : (conf.evaluateTaskOutboundContext t).versions =
    some ((conf.updatedKeys t.published.vars).foldl .increment (t.inContext.versions.getD [])) := by
  unfold evaluateTaskOutboundContext getInContextWithVersions
  rw [if_pos hversioning]
  cases conf.mergeStrategy <;> rfl

/-! ### What merges return -/

section
variable {left right ctx : DataFlowContext} {upstream : List TaskData}

theorem mergeContextByVersion_ok (hleft : left.versions.isSome) (hright : right.versions.isSome) :
    ∃ ctx, conf.mergeContextByVersion left right = .ok ctx := by
  obtain ⟨l, hl⟩ := Option.isSome_iff_exists.mp hleft
  obtain ⟨r, hr⟩ := Option.isSome_iff_exists.mp hright
  unfold mergeContextByVersion
  rw [hl, hr]
  exact ⟨_, rfl⟩

theorem versions_merged (h : conf.mergeContextByVersion left right = .ok ctx) :
    ctx.versions = some ((left.versions.getD []).mergeVersions (right.versions.getD [])) := by
  unfold mergeContextByVersion at h
  split at h
  next hl hr =>
    cases h
    rw [hl, hr]
    rfl
  · cases h

theorem vars_merged (h : conf.mergeContextByVersion left right = .ok ctx) :
    ctx.vars = conf.mergeCtx (left.versions.getD []) (right.versions.getD []) "" (removeInternalData left.vars)
      (removeInternalData right.vars) := by
  unfold mergeContextByVersion at h
  split at h
  next hl hr =>
    cases h
    rw [hl, hr]
    rfl
  · cases h

theorem lookup_merged (h : conf.mergeContextByVersion left right = .ok ctx) (hk : k ≠ taskExecutionKey) :
    (ctx.vars.lookup k).isSome ↔ (left.vars.lookup k).isSome ∨ (right.vars.lookup k).isSome := by
  rw [vars_merged h, lookup_mergeCtx, lookup_removeInternalData, lookup_removeInternalData, if_neg hk, if_neg hk]
  cases right.vars.lookup k <;> simp

theorem versions_isSome_outbound (hversioning : conf.versioning = true) :
    (conf.evaluateTaskOutboundContext t).versions.isSome := by
  rw [versions_outbound hversioning]
  rfl

/-- The merge of contexts with versions returns, and the result has their variables. -/
theorem mergeUpstream_ok (upstream : List TaskData) (hversioning : conf.versioning = true) (hctx : ctx.versions.isSome) :
    ∃ ctx', conf.mergeUpstream ctx upstream = .ok ctx' ∧ ∀ k ≠ taskExecutionKey, (ctx'.vars.lookup k).isSome ↔
      (ctx.vars.lookup k).isSome ∨ ∃ t ∈ upstream, ((conf.evaluateTaskOutboundContext t).vars.lookup k).isSome := by
  induction upstream generalizing ctx with
  | nil => exact ⟨ctx, rfl, fun k _ => by simp⟩
  | cons t upstream ih =>
    obtain ⟨next, hnext⟩ := mergeContextByVersion_ok hctx (versions_isSome_outbound (t := t) hversioning)
    obtain ⟨ctx', hctx', hkeys⟩ := ih (by rw [versions_merged hnext]; rfl)
    refine ⟨ctx', bind_ok.mpr ⟨next, hnext, hctx'⟩, fun k hk => ?_⟩
    rw [hkeys k hk, lookup_merged hnext hk, List.exists_mem_cons_iff, or_assoc]

theorem lookup_foldl_mergeDicts {f : TaskData → Dict} {vars : Dict} :
    ((upstream.foldl (fun vars t => conf.utils.mergeDicts vars (f t)) vars).lookup k).isSome ↔
      (vars.lookup k).isSome ∨ ∃ t ∈ upstream, ((f t).lookup k).isSome := by
  induction upstream generalizing vars with
  | nil => simp
  | cons t upstream ih => rw [List.foldl_cons, ih, conf.utils.merges.isSome_lookup, List.exists_mem_cons_iff, or_assoc]

/-- The evaluation returns, and the context has the variables of all contexts that are merged. -/
theorem evaluateUpstreamContext_ok : ∃ ctx, conf.evaluateUpstreamContext upstream {} = .ok ctx ∧
    ∀ k ≠ taskExecutionKey, ∀ t ∈ upstream, ((conf.evaluateTaskOutboundContext t).vars.lookup k).isSome →
      (ctx.vars.lookup k).isSome := by
  unfold evaluateUpstreamContext
  split
  · next hversioning =>
    cases hlast : upstream.getLast? with
    | none =>
      obtain rfl := List.getLast?_eq_none_iff.mp hlast
      exact ⟨{}, rfl, fun k _ t ht => absurd ht List.not_mem_nil⟩
    | some last =>
      obtain ⟨init, rfl⟩ := List.getLast?_eq_some_iff.mp hlast
      obtain ⟨ctx, hctx, hkeys⟩ := mergeUpstream_ok init hversioning (versions_isSome_outbound (t := last) hversioning)
      refine ⟨ctx, by rwa [List.dropLast_concat], fun k hk t ht hsome => (hkeys k hk).mpr ?_⟩
      rcases List.mem_append.mp ht with ht | ht
      · exact .inr ⟨t, ht, hsome⟩
      · obtain rfl := List.mem_singleton.mp ht
        exact .inl hsome
  · refine ⟨_, rfl, fun k _ t ht hsome => ?_⟩
    exact conf.utils.merges.isSome_lookup.mpr (.inl (lookup_foldl_mergeDicts.mpr (.inr ⟨t, ht, hsome⟩)))

end

end DataFlowConf

end Mistral
