import Mathlib.Data.Fintype.Card
import Mathlib.Logic.Relation
import Mistral.Lib.Excepts
import Mistral.Lib.Versions
import Mistral.Workflow.DataFlow

/-! Which values contexts with versions have, after they have been merged at joins and at the end of the workflow. -/

/-- A variable, and a path of keys below it. -/
abbrev VarPath := String × List String

def Dict.at? (vars : Dict) (v : VarPath) : Option Node := vars.node? (v.1 :: v.2)

namespace Mistral

namespace DataFlowConf
variable (conf : DataFlowConf)

/-- The version of a path in a context. -/
def versionOf (ctx : DataFlowContext) (v : VarPath) : Nat :=
  (ctx.versions.getD []).getVersion (conf.versionKey (v.1 :: v.2))

/-- Where the merge of two contexts takes a path from. -/
def taken (left right : DataFlowContext) (v : VarPath) : Source :=
  conf.source (left.versions.getD []) (right.versions.getD []) "" (removeInternalData left.vars)
    (removeInternalData right.vars) (v.1 :: v.2)

/-- What a context has at the paths. -/
def view (ctx : DataFlowContext) : Versioned.View VarPath Node where
  node := ctx.vars.at?
  version := conf.versionOf ctx

end DataFlowConf

/-- A graph of tasks without loops: the tasks whose contexts each one gets, in the order of the merge, what it publishes,
    and the context that it gets. -/
structure Flow (ω : Type) where
  upstream : ω → List ω
  published : ω → Published
  inContext : ω → DataFlowContext
  finite : Finite ω
  acyclic : ∀ t, ¬Relation.TransGen (fun u t => u ∈ upstream t) t t

namespace Flow
variable {ω : Type} (flow : Flow ω) (conf : DataFlowConf)

/-- What the data flow reads of a task execution. -/
def data (t : ω) : TaskData := { inContext := flow.inContext t, published := flow.published t }

/-- The context that a task hands on. -/
def out (t : ω) : DataFlowContext := conf.evaluateTaskOutboundContext (flow.data t)

/-- The contexts are those that the code computes. -/
def Evaluated : Prop :=
  ∀ t, conf.evaluateUpstreamContext ((flow.upstream t).map flow.data) {} = .ok (flow.inContext t)

/-- A task is before another one on a branch. -/
def Before (a b : ω) : Prop := Relation.TransGen (fun u t => u ∈ flow.upstream t) a b

/-- The tasks and what they publish. A dictionary does not count as a publication of its own path. -/
def sources : Versioned.Sources ω VarPath Node where
  before := flow.Before
  published t := (flow.published t).vars.at?
  out t := conf.view (flow.out conf t)
  silent := .dict

/-- The tasks of the branches that end with `us`. -/
def merged (us : List ω) : Set ω := { a | ∃ u ∈ us, a ∈ insert u { a | flow.Before a u } }

/-- A task in `S` published the value, and none after it in `S` published another. -/
def Latest (S : Set ω) (v : VarPath) (n : Node) : Prop :=
  ∃ a ∈ S, (flow.published a).vars.at? v = some n ∧ ∀ b ∈ S, flow.Before a b → (flow.published b).vars.at? v = none

/-! ### The merges of a run -/

section
variable (guard : List ω → DataFlowContext → ω → Prop)

/-- The merges of more tasks into a context that those in the first list have been merged into. -/
def MergesMeet : List ω → DataFlowContext → List ω → Prop
  | _, _, [] => True
  | us, ctx, u :: rest => guard us ctx u ∧
      ∀ ctx', conf.mergeContextByVersion ctx (flow.out conf u) = .ok ctx' → MergesMeet (us ++ [u]) ctx' rest

/-- The merges of `evaluate_upstream_context`. -/
def UpstreamMeets (us : List ω) (ctx : DataFlowContext) (batch : List ω) : Prop :=
  match batch.getLast? with
  | none => True
  | some last =>
    if ctx.isTrue then flow.MergesMeet conf guard us ctx batch
    else flow.MergesMeet conf guard [last] (flow.out conf last) batch.dropLast

/-- The merges of `evaluate_workflow_final_context`. -/
def BatchesMeet : List ω → DataFlowContext → List (List ω) → Prop
  | _, _, [] => True
  | us, ctx, batch :: batches => flow.UpstreamMeets conf guard us ctx batch ∧
      ∀ ctx', conf.evaluateUpstreamContext (batch.map flow.data) ctx = .ok ctx' → BatchesMeet (us ++ batch) ctx' batches

end

/-- The task counts up no version of a path that it has got and does not publish. -/
def PublishOk (t : ω) : Prop :=
  ∀ v n, (flow.inContext t).vars.at? v = some n → (flow.published t).vars.at? v = none →
    conf.versionKey (v.1 :: v.2) ∉ conf.updatedKeys (flow.published t).vars

/-- The version of the value that is taken from `x` counts what the tasks in `T` have published, too: where `y` has
    nothing its version is not greater, and where the versions are equal none of these tasks has published a dictionary in
    place of the value. -/
structure Prevails (S T : Set ω) (x y : DataFlowContext) (v : VarPath) (n : Node) : Prop where
  dropped : y.vars.at? v = none → conf.versionOf y v ≤ conf.versionOf x v
  replaced : n ≠ .dict → conf.versionOf y v = conf.versionOf x v → ∀ a ∈ S, (flow.published a).vars.at? v = some n →
    ∀ b ∈ T, flow.Before a b → (flow.published b).vars.at? v ≠ some .dict

/-- The task `u` may be merged into a context that `us` have been merged into. -/
def MergeOk (us : List ω) (ctx : DataFlowContext) (u : ω) : Prop :=
  ∀ v n,
    (conf.taken ctx (flow.out conf u) v = .left → ctx.vars.at? v = some n →
      flow.Prevails conf (flow.merged us) (flow.merged [u]) ctx (flow.out conf u) v n) ∧
    (conf.taken ctx (flow.out conf u) v = .right → (flow.out conf u).vars.at? v = some n →
      flow.Prevails conf (flow.merged [u]) (flow.merged us) (flow.out conf u) ctx v n)

end Flow

/-- The contexts of the tasks, and the one at the end, have the latest values of the branches merged into them, if the
    publications and the merges are guarded. -/
def LatestKept {ω : Type} (flow : Flow ω) (conf : DataFlowConf) (publishing : ω → Prop)
    (merging : List ω → DataFlowContext → ω → Prop) : Prop :=
  conf.versioning = true → flow.Evaluated conf →
    (∀ t, publishing t ∧ flow.UpstreamMeets conf merging [] {} (flow.upstream t)) →
    (∀ t v n, (flow.inContext t).vars.at? v = some n → flow.Latest (flow.merged (flow.upstream t)) v n) ∧
    ∀ batches, [] ∉ batches → flow.BatchesMeet conf merging [] {} batches →
      ∃ ctx, conf.evaluateWorkflowFinalContext (batches.map (·.map flow.data)) = .ok ctx ∧
        ∀ v n, ctx.vars.at? v = some n → flow.Latest (flow.merged batches.flatten) v n

namespace DataFlowConf
variable {conf : DataFlowConf} {left right ctx : DataFlowContext} {v : VarPath} {n : Node}

theorem versionOf_merged (h : conf.mergeContextByVersion left right = .ok ctx) (v : VarPath) :
    conf.versionOf ctx v = max (conf.versionOf left v) (conf.versionOf right v) := by
  unfold versionOf
  rw [versions_merged h]
  exact Versions.getVersion_mergeVersions ..

/-- A path that is left has a name of its own. -/
theorem node?_removeInternalData {vars : Dict} {k : String} {p : List String}
    (h : (removeInternalData vars).node? (k :: p) = some n) :
    ∀ vars' : Dict, (removeInternalData vars').node? (k :: p) = vars'.node? (k :: p) := by
  intro vars'
  rw [Dict.node?_cons, lookup_removeInternalData] at h ⊢
  split at h
  · cases h
  · next hk =>
    rw [if_neg hk]
    rfl

/-- Of two values, one with the greater version is taken. -/
theorem taken_compared (hleft : left.vars.at? v = some n) (hright : right.vars.at? v ≠ none)
    (hown : ∀ vars : Dict, (removeInternalData vars).node? (v.1 :: v.2) = vars.at? v) :
    (conf.taken left right v = .left → conf.versionOf right v ≤ conf.versionOf left v) ∧
      (conf.taken left right v = .right → conf.versionOf left v ≤ conf.versionOf right v) := by
  obtain ⟨m, hm⟩ := Option.ne_none_iff_exists'.mp hright
  rw [← hown] at hleft hm
  have htaken : conf.taken left right v = .both ∨ conf.taken left right v =
      if conf.versionOf right v > conf.versionOf left v then .right else .left := source_of_nodes hleft hm
  rcases htaken with hboth | htaken
  · rw [hboth]
    exact ⟨nofun, nofun⟩
  · rw [htaken]
    split
    · next hlt => exact ⟨nofun, fun _ => Nat.le_of_lt hlt⟩
    · next hnot => exact ⟨fun _ => Nat.not_lt.mp hnot, nofun⟩

/-- A merged context takes each value from the context that has it alone, or has the greater version. -/
theorem at?_merged (h : conf.mergeContextByVersion left right = .ok ctx) (hn : ctx.vars.at? v = some n) :
    (conf.taken left right v = .left ∧ left.vars.at? v = some n ∧
      (right.vars.at? v ≠ none → conf.versionOf right v ≤ conf.versionOf left v)) ∨
    (conf.taken left right v = .right ∧ right.vars.at? v = some n ∧
      (left.vars.at? v ≠ none → conf.versionOf left v ≤ conf.versionOf right v)) ∨
    (n = .dict ∧ left.vars.at? v = some n ∧ right.vars.at? v = some n) := by
  rw [Dict.at?, vars_merged h, node?_mergeCtx] at hn
  cases htaken : conf.taken left right v with
  | left =>
    unfold taken at htaken
    rw [htaken] at hn
    have hown := node?_removeInternalData hn
    have hleft : left.vars.at? v = some n := (hown left.vars).symm.trans hn
    exact .inl ⟨rfl, hleft, fun hright => (taken_compared hleft hright hown).1 htaken⟩
  | right =>
    unfold taken at htaken
    rw [htaken] at hn
    have hown := node?_removeInternalData hn
    have hright : right.vars.at? v = some n := (hown right.vars).symm.trans hn
    refine .inr (.inl ⟨rfl, hright, fun hleft => ?_⟩)
    obtain ⟨m, hm⟩ := Option.ne_none_iff_exists'.mp hleft
    exact (taken_compared hm (hright ▸ Option.some_ne_none n) hown).2 htaken
  | both =>
    unfold taken at htaken
    rw [htaken] at hn
    cases hn
    obtain ⟨hleft, hright⟩ := node?_of_both htaken
    exact .inr (.inr ⟨rfl, node?_of_removeInternalData hleft, node?_of_removeInternalData hright⟩)

end DataFlowConf

namespace Flow
variable {ω : Type} {flow : Flow ω} {conf : DataFlowConf} {S T : Set ω} {ctx ctx' : DataFlowContext} {a b t u : ω}
  {us vs : List ω}

/-! ### The graph -/

theorem before_trans (a b c : ω) (hab : flow.Before a b) (hbc : flow.Before b c) : flow.Before a c := hab.trans hbc

theorem wellFounded_before : WellFounded flow.Before := by
  have := flow.finite
  have : IsTrans ω flow.Before := ⟨before_trans⟩
  have : Std.Irrefl flow.Before := ⟨flow.acyclic⟩
  exact Finite.wellFounded_of_trans_of_irrefl _

theorem wellFounded_after : WellFounded fun b a => flow.Before a b := by
  have := flow.finite
  have : IsTrans ω fun b a => flow.Before a b := ⟨fun a b c hba hcb => hcb.trans hba⟩
  have : Std.Irrefl fun b a => flow.Before a b := ⟨flow.acyclic⟩
  exact Finite.wellFounded_of_trans_of_irrefl _

theorem mem_merged : a ∈ flow.merged us ↔ ∃ u ∈ us, a = u ∨ flow.Before a u := Iff.rfl

theorem merged_append : flow.merged (us ++ vs) = flow.merged us ∪ flow.merged vs := by
  ext a
  simp only [mem_merged, List.mem_append, Set.mem_union, or_and_right, exists_or]

theorem merged_singleton : flow.merged [u] = (flow.sources conf).upTo u := by
  ext a
  simp [mem_merged, Versioned.Sources.upTo, sources]

theorem merged_upstream : flow.merged (flow.upstream t) = { a | flow.Before a t } := by
  ext a
  rw [mem_merged, Set.mem_ofPred_eq, Before, Relation.TransGen.tail'_iff]
  refine exists_congr fun u => ?_
  rw [Relation.reflTransGen_iff_eq_or_transGen, eq_comm (a := a)]
  exact and_comm

theorem downClosed_merged : (flow.sources conf).DownClosed (flow.merged us) := by
  rintro b ⟨u, hu, hbu⟩ a hab
  refine ⟨u, hu, .inr ?_⟩
  rcases hbu with rfl | hbu
  · exact hab
  · exact before_trans a b u hab hbu

/-! ### What contexts hold -/

theorem publishes (hversioning : conf.versioning = true) (h : flow.PublishOk conf t) :
    (flow.sources conf).Publishes t (conf.view (flow.inContext t)) := by
  have hversion : ∀ v, conf.versionOf (flow.out conf t) v = conf.versionOf (flow.inContext t) v +
      (conf.updatedKeys (flow.published t).vars).count (conf.versionKey (v.1 :: v.2)) := by
    intro v
    unfold DataFlowConf.versionOf out
    rw [DataFlowConf.versions_outbound hversioning]
    exact Versions.getVersion_foldl_increment ..
  refine ⟨fun v n hn => ?_, fun v => ?_, fun v n hpub hne => ?_⟩
  · rcases DataFlowConf.node?_outbound hn with hpub | ⟨hnone, hin⟩
    · exact .inl hpub
    · refine .inr ⟨hnone, hin, (hversion v).trans ?_⟩
      rw [List.count_eq_zero_of_not_mem (h v n hin hnone)]
      rfl
  · exact Nat.le.intro (hversion v).symm
  · cases n with
    | dict => exact absurd rfl hne
    | value x =>
      have hmem : conf.versionKey (v.1 :: v.2) ∈ conf.updatedKeys (flow.published t).vars :=
        DataFlowConf.mem_publishedKeys hpub
      have hcount := List.count_pos_iff.mpr hmem
      have heq := hversion v
      show conf.versionOf (flow.inContext t) v < conf.versionOf (flow.out conf t) v
      omega

theorem prefers {x y : DataFlowContext} {v : VarPath} {n : Node} (hnode : x.vars.at? v = some n)
    (hcompared : y.vars.at? v ≠ none → conf.versionOf y v ≤ conf.versionOf x v) (h : flow.Prevails conf S T x y v n) :
    (flow.sources conf).Prefers S T (conf.view x) (conf.view y) v n where
  node := hnode
  version := by
    by_cases hnone : y.vars.at? v = none
    · exact h.dropped hnone
    · exact hcompared hnone
  silent := h.replaced

theorem merges (h : flow.MergeOk conf us ctx u) (hmerge : conf.mergeContextByVersion ctx (flow.out conf u) = .ok ctx') :
    (flow.sources conf).Merges (flow.merged us) (flow.merged [u]) (conf.view ctx) (conf.view (flow.out conf u))
      (conf.view ctx') where
  version v := DataFlowConf.versionOf_merged hmerge v
  node v n hn := by
    rcases DataFlowConf.at?_merged hmerge hn with ⟨htaken, hleft, hcompared⟩ | ⟨htaken, hright, hcompared⟩ | hboth
    · exact .inl (prefers hleft hcompared ((h v n).1 htaken hleft))
    · exact .inr (prefers hright hcompared ((h v n).2 htaken hright))
    · obtain ⟨rfl, hleft, hright⟩ := hboth
      rcases Nat.le_total (conf.versionOf (flow.out conf u) v) (conf.versionOf ctx v) with hle | hle
      · exact .inl ⟨hleft, hle, fun hne => absurd rfl hne⟩
      · exact .inr ⟨hright, hle, fun hne => absurd rfl hne⟩

/-- The context comes from the tasks of these branches. -/
structure Has (flow : Flow ω) (conf : DataFlowConf) (us : List ω) (ctx : DataFlowContext) : Prop where
  versions : ctx.versions.isSome
  holds : (flow.sources conf).Holds (flow.merged us) (conf.view ctx)

theorem Has.merge (h : flow.Has conf us ctx) (hu : flow.Has conf [u] (flow.out conf u)) (hok : flow.MergeOk conf us ctx u) :
    ∃ ctx', conf.mergeContextByVersion ctx (flow.out conf u) = .ok ctx' ∧ flow.Has conf (us ++ [u]) ctx' := by
  obtain ⟨ctx', hmerge⟩ := DataFlowConf.mergeContextByVersion_ok h.versions hu.versions
  refine ⟨ctx', hmerge, by rw [DataFlowConf.versions_merged hmerge]; rfl, ?_⟩
  rw [merged_append]
  exact h.holds.merge hu.holds downClosed_merged downClosed_merged (merges hok hmerge)

theorem Has.mergeUpstream (hus : ∀ u ∈ vs, flow.Has conf [u] (flow.out conf u)) (h : flow.Has conf us ctx)
    (hok : flow.MergesMeet conf (flow.MergeOk conf) us ctx vs) :
    ∃ ctx', conf.mergeUpstream ctx (vs.map flow.data) = .ok ctx' ∧ flow.Has conf (us ++ vs) ctx' := by
  induction vs generalizing us ctx with
  | nil => exact ⟨ctx, rfl, by rwa [List.append_nil]⟩
  | cons u vs ih =>
    obtain ⟨hu, hvs⟩ := List.forall_mem_cons.mp hus
    obtain ⟨hmergeOk, hrest⟩ := hok
    obtain ⟨next, hmerge, hnext⟩ := h.merge hu hmergeOk
    obtain ⟨ctx', hctx', hhas⟩ := ih hvs hnext (hrest next hmerge)
    refine ⟨ctx', ?_, by rwa [List.append_assoc] at hhas⟩
    unfold DataFlowConf.mergeUpstream
    rw [List.map_cons, List.foldlM_cons]
    exact bind_ok.mpr ⟨next, hmerge, hctx'⟩

theorem Has.congr (hmem : ∀ u, u ∈ us ↔ u ∈ vs) (h : flow.Has conf us ctx) : flow.Has conf vs ctx := by
  refine ⟨h.versions, ?_⟩
  have hmerged : flow.merged us = flow.merged vs := by
    ext a
    simp only [mem_merged, hmem]
  exact hmerged ▸ h.holds

/-- The start, or a context that the tasks have been merged into. -/
def Begun (flow : Flow ω) (conf : DataFlowConf) (us : List ω) (ctx : DataFlowContext) : Prop :=
  us = [] ∧ ctx = {} ∨ flow.Has conf us ctx

theorem Begun.upstream (hversioning : conf.versioning = true) (h : flow.Begun conf us ctx) (hne : vs ≠ [])
    (hus : ∀ u ∈ vs, flow.Has conf [u] (flow.out conf u))
    (hok : flow.UpstreamMeets conf (flow.MergeOk conf) us ctx vs) :
    ∃ ctx', conf.evaluateUpstreamContext (vs.map flow.data) ctx = .ok ctx' ∧ flow.Has conf (us ++ vs) ctx' := by
  have hlast := List.getLast?_eq_some_getLast hne
  unfold UpstreamMeets at hok
  unfold DataFlowConf.evaluateUpstreamContext
  rw [hlast] at hok
  rw [if_pos hversioning, List.getLast?_map, hlast]
  rcases h with ⟨rfl, rfl⟩ | hhas
  · obtain ⟨ctx', hctx', hhas⟩ := Has.mergeUpstream (fun u hu => hus u (List.mem_of_mem_dropLast hu))
      (hus _ (List.getLast_mem hne)) hok
    refine ⟨ctx', by rwa [List.map_dropLast] at hctx', hhas.congr fun u => ?_⟩
    conv_rhs => rw [List.nil_append, ← List.dropLast_append_getLast hne]
    simp only [List.mem_append, or_comm]
  · have htrue : ctx.isTrue := by simp [DataFlowContext.isTrue, hhas.versions]
    simp only [htrue, if_true] at hok ⊢
    exact hhas.mergeUpstream hus hok

theorem has_out (hversioning : conf.versioning = true)
    (h : (flow.sources conf).Holds ((flow.sources conf).upTo u) ((flow.sources conf).out u)) :
    flow.Has conf [u] (flow.out conf u) where
  versions := by
    unfold out
    rw [DataFlowConf.versions_outbound hversioning]
    rfl
  holds := by
    rw [merged_singleton]
    exact h

/-- The context of a task comes from the tasks before it, if this is so for the contexts that it gets. -/
theorem holds_inContext (hversioning : conf.versioning = true) (heval : flow.Evaluated conf)
    (hok : flow.UpstreamMeets conf (flow.MergeOk conf) [] {} (flow.upstream t))
    (hus : ∀ u ∈ flow.upstream t, flow.Has conf [u] (flow.out conf u)) :
    (flow.sources conf).Holds { a | flow.Before a t } (conf.view (flow.inContext t)) := by
  rw [← merged_upstream]
  by_cases hnone : flow.upstream t = []
  · have hempty := heval t
    rw [hnone, List.map_nil, DataFlowConf.evaluateUpstreamContext, if_pos hversioning] at hempty
    cases hctx : flow.inContext t with
    | mk vars versions =>
      rw [hctx] at hempty
      cases hempty
      rw [hnone]
      exact ⟨fun a ⟨_, hu, _⟩ => absurd hu List.not_mem_nil, fun v n hn => nomatch hn⟩
  · obtain ⟨ctx, hctx, hhas⟩ := Begun.upstream hversioning (.inl ⟨rfl, rfl⟩) hnone hus hok
    rw [heval t] at hctx
    cases hctx
    exact hhas.holds

theorem Has.batches (hversioning : conf.versioning = true) (hus : ∀ u, flow.Has conf [u] (flow.out conf u))
    {batches : List (List ω)} (hne : [] ∉ batches) (h : flow.Begun conf us ctx)
    (hok : flow.BatchesMeet conf (flow.MergeOk conf) us ctx batches) :
    ∃ ctx', (batches.map (·.map flow.data)).foldlM conf.mergeBatch ctx = .ok ctx' ∧
      flow.Begun conf (us ++ batches.flatten) ctx' := by
  induction batches generalizing us ctx with
  | nil => exact ⟨ctx, rfl, by rwa [List.flatten_nil, List.append_nil]⟩
  | cons batch batches ih =>
    obtain ⟨hbatch, hbatches⟩ := not_or.mp (List.mem_cons.not.mp hne)
    obtain ⟨hupstream, hrest⟩ := hok
    obtain ⟨next, hnext, hhas⟩ := h.upstream hversioning (Ne.symm hbatch) (fun u _ => hus u) hupstream
    obtain ⟨ctx', hctx', hbegun⟩ := ih hbatches (.inr hhas) (hrest next hnext)
    refine ⟨ctx', ?_, by rwa [List.flatten_cons, ← List.append_assoc]⟩
    rw [List.map_cons, List.foldlM_cons]
    refine bind_ok.mpr ⟨next, ?_, hctx'⟩
    rw [DataFlowConf.mergeBatch, if_pos hversioning]
    exact hnext

end Flow

theorem latest_values_kept {ω : Type} (flow : Flow ω) (conf : DataFlowConf) :
    LatestKept flow conf (flow.PublishOk conf) (flow.MergeOk conf) := by
  intro hversioning heval hok
  have hpub : ∀ t, (flow.sources conf).Publishes t (conf.view (flow.inContext t)) := fun t =>
    Flow.publishes hversioning (hok t).1
  have hin : ∀ t, (flow.sources conf).Holds { a | flow.Before a t } (conf.view (flow.inContext t)) := fun t => by
    refine Versioned.Sources.holds_before Flow.wellFounded_before Flow.before_trans hpub (fun t hbefore => ?_) t
    refine Flow.holds_inContext hversioning heval (hok t).2 fun u hu => ?_
    exact Flow.has_out hversioning (hbefore u (.single hu))
  have hout : ∀ u, flow.Has conf [u] (flow.out conf u) := fun u =>
    Flow.has_out hversioning ((hin u).upTo (hpub u) flow.acyclic Flow.before_trans)
  have hcounts := Versioned.Sources.counts_of_holds hpub hin
  refine ⟨fun t v n hn => ?_, fun batches hne hbatches => ?_⟩
  · rw [Flow.merged_upstream]
    exact (hin t).latest hcounts Flow.wellFounded_after hn
  · obtain ⟨ctx, hctx, hbegun⟩ := Flow.Has.batches hversioning hout hne (.inl ⟨rfl, rfl⟩) hbatches
    refine ⟨ctx, hctx, fun v n hn => ?_⟩
    rcases hbegun with ⟨-, rfl⟩ | hhas
    · cases hn
    · exact hhas.holds.latest hcounts Flow.wellFounded_after hn

/-- The successors 1 and 2 of the task 0 are joined by the task 3. -/
def diamond (t : Fin 4) : List (Fin 4) := if t = 0 then [] else if t = 3 then [1, 2] else [0]

theorem diamond_acyclic (t : Fin 4) : ¬Relation.TransGen (fun u t => u ∈ diamond t) t t := by
  have hlt : ∀ u t, u ∈ diamond t → u < t := by decide
  have hbefore : ∀ u, Relation.TransGen (fun u t => u ∈ diamond t) u t → u < t := fun u h => by
    induction h with
    | single h => exact hlt _ _ h
    | tail _ h ih => exact ih.trans (hlt _ _ h)
  exact fun h => Nat.lt_irrefl _ (hbefore t h)

def withVersions : DataFlowConf := { utils := dictUtils, versioning := true }

/-- What the task 0 hands on. -/
def numberContext : DataFlowContext := { vars := [("a", .value "1")], versions := some [("a", 1)] }

/-- The task 0 publishes a number, the task 1 a dictionary under the same variable, and the task 2 nothing. -/
def retyped : Flow (Fin 4) where
  upstream := diamond
  published
    | 0 => { vars := [("a", .value "1")] }
    | 1 => { vars := [("a", .dict [("x", .value "2")])] }
    | _ => {}
  inContext
    | 0 => {}
    | 1 | 2 => numberContext
    | 3 =>
      let left := withVersions.evaluateTaskOutboundContext { inContext := numberContext }
      let right := withVersions.evaluateTaskOutboundContext
        { inContext := numberContext, published := { vars := [("a", .dict [("x", .value "2")])] } }
      (withVersions.mergeContextByVersion left right).toOption.getD {}
  finite := .intro (.refl _)
  acyclic := diamond_acyclic

/-- The join takes the number, which the dictionary has replaced. -/
theorem retyped_variable_is_stale : ¬LatestKept retyped withVersions (fun _ => True) fun _ _ _ => True := by
  intro h
  have heval : retyped.Evaluated withVersions := fun t =>
    match t with
    | 0 => rfl
    | 1 => rfl
    | 2 => rfl
    | 3 => rfl
  have hmeets : ∀ us ctx vs, retyped.MergesMeet withVersions (fun _ _ _ => True) us ctx vs := by
    intro us ctx vs
    induction vs generalizing us ctx with
    | nil => trivial
    | cons u vs ih => exact ⟨trivial, fun ctx' _ => ih _ ctx'⟩
  have hupstream : ∀ vs, retyped.UpstreamMeets withVersions (fun _ _ _ => True) [] {} vs := by
    intro vs
    unfold Flow.UpstreamMeets
    split
    · trivial
    · exact hmeets _ _ _
  obtain ⟨hjoin, -⟩ := h rfl heval fun t => ⟨trivial, hupstream _⟩
  obtain ⟨a, -, hpub, hlatest⟩ := hjoin 3 ("a", []) (.value "1") (by decide)
  have hnumber : ∀ a, (retyped.published a).vars.at? ("a", []) = some (.value "1") → a = 0 := by decide
  obtain rfl := hnumber a hpub
  have hone : (retyped.published 1).vars.at? ("a", []) = none :=
    hlatest 1 ⟨1, by decide, .inl rfl⟩ (.single (by decide))
  cases hone

end Mistral
