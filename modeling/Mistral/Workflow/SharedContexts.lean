import Mistral.Lib.Objects
import Mistral.Workflow.DataFlow

/-! Contexts of task executions as objects that are shared and changed in place (`mistral/workflow/data_flow.py`,
    `mistral/workflow/context_versioning.py`). -/

namespace Mistral

/-- Whose dictionary it is: a task execution, a layer of a context view, or the call that has made it. -/
inductive Holder (τ : Type)
  | inContext (t : τ)
  | published (t : τ)
  | layer (name : String)
  | new (n : Nat)
  deriving DecidableEq, Repr

/-- The dictionaries, and the number of the next one. -/
structure Contexts (τ : Type) where
  heap : Heap (Holder τ)
  next : Nat := 0

/-- The columns of a task execution. -/
structure ContextRow where
  inContext : Dict := []
  published : Dict := []
  deriving Repr

namespace Contexts
variable {τ : Type} [DecidableEq τ] (conf : DataFlowConf) (depth : Nat)

/-- The rows that were loaded, and the layers: nothing is shared yet. -/
def loaded (rows : τ → ContextRow) (layers : String → Dict) : Contexts τ where
  heap := .ofTrees fun
    | .inContext t => (rows t).inContext
    | .published t => (rows t).published
    | .layer name => layers name
    | .new _ => []

/-- `{}`. -/
def newDict (s : Contexts τ) : Holder τ × Contexts τ := (.new s.next, { s with next := s.next + 1 })

/-- `merge_dicts`. The number bounds the depth. -/
def mergeDicts (l r : Holder τ) (s : Contexts τ) : Contexts τ :=
  { s with heap := s.heap.mergeAt (fun _ => true) depth [] l r }

/-- `update_dict`. -/
def updateDict (l r : Holder τ) (s : Contexts τ) : Contexts τ := { s with heap := s.heap.updateAt [] l r }

/-! ### Versions -/

/-- The name of a variable inside of dictionaries, where `p` is not empty. -/
def versionKey (p : Place) : String := p.foldl DataFlowConf.newPrefix ""

/-- `_get_updated_keys`: the variables that are no dictionaries. -/
def updatedKeys : Nat → Heap (Holder τ) → Place → Holder τ → List String
  | 0, _, _, _ => []
  | depth + 1, h, p, n => (h.entries n p).entries.flatMap fun e =>
    match e.2 with
    | .value _ => [conf.hashed (versionKey (p ++ [e.1]))]
    | .dict m => updatedKeys depth h (p ++ [e.1]) m

/-- The dictionary with the versions of a context. -/
def versionsOf (h : Heap (Holder τ)) (n : Holder τ) : AList fun _ : String => Slot (Holder τ) :=
  match h.get n [] versionsKey with
  | some (.dict m) => h.entries m [versionsKey]
  | _ => ∅

/-- `_get_version`. -/
def versionOf (versions : AList fun _ : String => Slot (Holder τ)) (key : String) : Nat :=
  match versions.lookup key with
  | some (.value x) => x.toNat?.getD 0
  | _ => 0

/-- `_merge_versions`. -/
def mergeVersions (l r : AList fun _ : String => Slot (Holder τ)) : AList fun _ : String => Slot (Holder τ) :=
  r.entries.foldl (fun l e => l.insert e.1 (.value (toString (max (versionOf l e.1) (versionOf r e.1))))) l

/-- A version of the copy `n` goes up. -/
def countUp (n : Holder τ) (h : Heap (Holder τ)) (key : String) : Heap (Holder τ) :=
  h.set n [versionsKey] key (.value (toString (versionOf (h.entries n [versionsKey]) key + 1)))

/-- `_remove_internal_data_from_context`. -/
def removeInternalData (n : Holder τ) (h : Heap (Holder τ)) : Heap (Holder τ) :=
  (h.erase n [] taskExecutionKey).erase n [] versionsKey

/-- `merge_context_by_version`: a value of the right context counts where its version is higher. -/
def mergeContextByVersion (l r : Holder τ) (s : Contexts τ) : Contexts τ :=
  let left := versionsOf s.heap l
  let right := versionsOf s.heap r
  let overwrite (p : Place) : Bool :=
    versionOf left (conf.hashed (versionKey p)) < versionOf right (conf.hashed (versionKey p))
  let merged := (removeInternalData r (removeInternalData l s.heap)).mergeAt overwrite depth [] l r
  let (n, s) := s.newDict
  { s with heap := (merged.write n [versionsKey] (mergeVersions left right)).set l [] versionsKey (.dict n) }

/-! ### Contexts -/

/-- `get_in_context_with_versions`. With versioning it is a copy. -/
def getInContextWithVersions (t : τ) (s : Contexts τ) : Holder τ × Contexts τ :=
  if !conf.versioning then
    if (s.heap.entries (.inContext t) []).entries.isEmpty then s.newDict else (.inContext t, s)
  else
    let (n, s) := s.newDict
    let copied := s.heap.copy (.inContext t) n
    let copied := if (copied.get n [] versionsKey).isSome then copied else copied.set n [] versionsKey (.dict n)
    (n, { s with heap := (updatedKeys conf depth s.heap [] (.published t)).foldl (countUp n) copied })

/-- `evaluate_task_outbound_context`. -/
def evaluateTaskOutboundContext (t : τ) (s : Contexts τ) : Holder τ × Contexts τ :=
  let (n, s) := getInContextWithVersions conf depth t s
  match conf.mergeStrategy with
  | .merge => (n, s.mergeDicts depth n (.published t))
  | .replace => (n, s.updateDict n (.published t))

/-- One upstream execution, without versioning. -/
def addUpstream (published ctx : Holder τ) (s : Contexts τ) (t : τ) : Contexts τ :=
  let (n, s) := evaluateTaskOutboundContext conf depth t (s.mergeDicts depth published (.published t))
  s.mergeDicts depth ctx n

/-- One upstream execution, with versioning. -/
def addUpstreamByVersion (ctx : Holder τ) (s : Contexts τ) (t : τ) : Contexts τ :=
  let (n, s) := evaluateTaskOutboundContext conf depth t s
  mergeContextByVersion conf depth ctx n s

/-- `evaluate_upstream_context`. An additive context that is empty is none. -/
def evaluateUpstreamContext (ts : List τ) (additive : Option (Holder τ)) (s : Contexts τ) : Holder τ × Contexts τ :=
  if !conf.versioning then
    let (published, s) := s.newDict
    let (ctx, s) := s.newDict
    (ctx, (ts.foldl (addUpstream conf depth published ctx) s).mergeDicts depth ctx published)
  else
    match ts.getLast? with
    | none => s.newDict
    | some last =>
      match additive.filter fun n => !(s.heap.entries n []).entries.isEmpty with
      | some ctx => (ctx, ts.foldl (addUpstreamByVersion conf depth ctx) s)
      | none =>
        let (ctx, s) := evaluateTaskOutboundContext conf depth last s
        (ctx, ts.dropLast.foldl (addUpstreamByVersion conf depth ctx) s)

/-- `ContextView.__init__`: the dictionaries that it looks into. -/
def contextView (dicts : List (Holder τ)) (s : Contexts τ) : List (Holder τ) × Contexts τ :=
  match conf.mergeStrategy with
  | .merge =>
    let (res, s) := s.newDict
    ([res], dicts.reverse.foldl (fun s d => s.mergeDicts depth res d) s)
  | .replace => (dicts, s)

end Contexts

/-! ### Calls -/

/-- What computes a context: `evaluate_task_outbound_context`, `evaluate_upstream_context` and `ContextView`. -/
inductive ContextCall (τ : Type)
  | outbound (t : τ)
  | upstream (ts : List τ) (additive : Option (Holder τ))
  | view (dicts : List (Holder τ))

section
variable {τ : Type} [DecidableEq τ] (conf : DataFlowConf) (depth : Nat)

/-- The dictionaries with the values of the context. -/
def ContextCall.run : ContextCall τ → Contexts τ → List (Holder τ) × Contexts τ
  | .outbound t, s =>
    let (n, s) := s.evaluateTaskOutboundContext conf depth t
    ([n], s)
  | .upstream ts additive, s =>
    let (n, s) := s.evaluateUpstreamContext conf depth ts additive
    ([n], s)
  | .view dicts, s => s.contextView conf depth dicts

/-- One call after another. -/
def Contexts.runCalls (s : Contexts τ) (calls : List (ContextCall τ)) : Contexts τ :=
  calls.foldl (fun s call => (call.run conf depth s).2) s

end
end Mistral
