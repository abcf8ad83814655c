import Mistral.Lib.Objects
import Mistral.Workflow.States

/-! The publish sections of a task specification, which `get_publish` merges in place (`mistral/lang/v2/tasks.py`,
    `mistral/lang/v2/publish.py`). -/

namespace Mistral

/-- The sections that may publish: those of the task itself, and those of its on-clauses. -/
inductive PublishSection
  | publish
  | publishOnError
  | publishOnSkip
  | onComplete
  | onSuccess
  | onError
  | onSkip
  deriving DecidableEq, Repr

/-- The scopes of a publish section. -/
def publishScopes : List String := ["branch", "global", "atomic"]

/-- The scopes of a publish section. -/
structure PublishScopes where
  branch : Option Dict := none
  global : Option Dict := none
  atomic : Option Dict := none

/-- The scopes that are there, as the dictionary with the data of a `PublishSpec`. -/
def PublishScopes.data (s : PublishScopes) : Dict :=
  (s.branch.map fun d => ("branch", Json.dict d)).toList ++ (s.global.map fun d => ("global", Json.dict d)).toList ++
    (s.atomic.map fun d => ("atomic", Json.dict d)).toList

/-- A task specification with the publish sections of its on-clauses, where they are there. -/
structure TaskPublishing where
  publish : Dict := []
  publishOnError : Dict := []
  publishOnSkip : Dict := []
  onComplete : Option PublishScopes := none
  onSuccess : Option PublishScopes := none
  onError : Option PublishScopes := none
  onSkip : Option PublishScopes := none

/-- `get_publish` reads a local variable that was not assigned. -/
inductive PublishExc
  | unboundLocalError
  deriving DecidableEq, Repr

namespace TaskPublishing
variable (t : TaskPublishing)

/-- The data of a section. For the task itself it is `{'branch': self._publish}`, which is made anew for each call, with the
    same dictionary in it. -/
def data : PublishSection → Dict
  | .publish => PublishScopes.data { branch := t.publish }
  | .publishOnError => PublishScopes.data { branch := t.publishOnError }
  | .publishOnSkip => PublishScopes.data { branch := t.publishOnSkip }
  | .onComplete => (t.onComplete.getD {}).data
  | .onSuccess => (t.onSuccess.getD {}).data
  | .onError => (t.onError.getD {}).data
  | .onSkip => (t.onSkip.getD {}).data

/-- The section is there. -/
def has : PublishSection → Bool
  | .publish => !t.publish.isEmpty
  | .publishOnError => !t.publishOnError.isEmpty
  | .publishOnSkip => !t.publishOnSkip.isEmpty
  | .onComplete => t.onComplete.isSome
  | .onSuccess => t.onSuccess.isSome
  | .onError => t.onError.isSome
  | .onSkip => t.onSkip.isSome

/-- The objects of a specification that was just built. -/
def fresh : Heap PublishSection := .ofTrees t.data

/-- No section is deeper. -/
def depth : Nat :=
  ([PublishSection.publish, .publishOnError, .publishOnSkip, .onComplete, .onSuccess, .onError, .onSkip].map
    fun s => (t.data s).depth).foldl max 0

/-- `utils.merge_dicts` for one scope of `PublishSpec.merge`. Where the left section has no such scope, the result is
    that of the right one, and nobody stores it. -/
def mergeScope (l r : PublishSection) (h : Heap PublishSection) (scope : String) : Heap PublishSection :=
  match h.get r [] scope, h.get l [] scope with
  | some (.dict b), some (.dict a) =>
    if (h.entries b [scope]).entries.isEmpty then h else h.mergeAt (fun _ => true) t.depth [scope] a b
  | _, _ => h

/-- `PublishSpec.merge`. -/
def merge (l r : PublishSection) (h : Heap PublishSection) : Heap PublishSection := publishScopes.foldl (t.mergeScope l r) h

/-- `TaskSpec.get_publish`. -/
def taskSection (state : State) : Option PublishSection :=
  match state with
  | .success => if t.has .publish then some .publish else none
  | .error => if t.has .publishOnError then some .publishOnError else none
  | .skipped => if t.has .publishOnSkip then some .publishOnSkip else none
  | _ => none

/-- The variable `on_clause`. -/
def onClause : State → Option PublishSection
  | .success => some .onSuccess
  | .error => some .onError
  | .skipped => some .onSkip
  | _ => none

/-- The section after the one of `on-complete`, and the objects. -/
def mergeOnComplete (spec : Option PublishSection) (h : Heap PublishSection) : Option PublishSection × Heap PublishSection :=
  if t.has .onComplete then
    match spec with
    | some s => (some s, t.merge s .onComplete h)
    | none => (some .onComplete, h)
  else (spec, h)

/-- `DirectWorkflowTaskSpec.get_publish`: the section that is returned, and the objects. -/
def getPublish (state : State) (h : Heap PublishSection) : Except PublishExc (Option PublishSection) × Heap PublishSection :=
  let (spec, h) := t.mergeOnComplete (t.taskSection state) h
  match onClause state with
  | none => (.error .unboundLocalError, h)
  | some clause =>
    if t.has clause then
      match spec with
      | some s => (.ok (some clause), t.merge clause s h)
      | none => (.ok (some clause), h)
    else (.ok spec, h)

/-- The objects after some calls. -/
def after (calls : List State) : Heap PublishSection := calls.foldl (fun h state => (t.getPublish state h).2) t.fresh

/-- What a call returns: the contents of a section. -/
def published (state : State) (h : Heap PublishSection) : Except PublishExc (Option (List String → Option Node)) :=
  (t.getPublish state h).1.map (·.map fun s q => (t.getPublish state h).2.node? s [] q)

end TaskPublishing

end Mistral
