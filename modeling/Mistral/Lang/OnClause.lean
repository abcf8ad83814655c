import Mistral.Lang.Base

/-! On-clauses: their schema, their two forms and the transitions in them (`mistral/lang/v2/on_clause.py`), with the publish
    section of the advanced form (`mistral/lang/v2/publish.py`). -/

namespace Mistral

/-- `validateExpr` is the validation of the expressions in a text (`mistral/expressions`). -/
structure OnClauseConf extends CommandConf where
  validateExpr : String → Except DslError Unit

/-! ### Publish sections -/

/-- `PublishSpec`. -/
structure PublishSpec where
  branch : Option SpecData
  global : Option SpecData
  atomic : Option SpecData

/-- `PublishSpec.get_schema()`. -/
def PublishSpec.schema : Schema :=
  Schema.onlyProperties <| [("branch", Schema.nonemptyDict), ("global", Schema.nonemptyDict), ("atomic", Schema.nonemptyDict)] ++
    Schema.metaProperties

namespace OnClauseConf
variable (conf : OnClauseConf)

/-- `validate_expr`. -/
def validateExprs : Option SpecData → Except DslError Unit
  | some (.text s) => conf.validateExpr s
  | some (.list items) => items.forM fun v => match v with
    | .text s => conf.validateExpr s
    | _ => .ok ()
  | some (.dict d) => d.forM fun (_, v) => match v with
    | .text s => conf.validateExpr s
    | _ => .ok ()
  | _ => .ok ()

/-- The specification of a publish section. -/
def publishSpec (validate : Bool) (data : SpecData) : Except DslError PublishSpec := do
  if validate && !PublishSpec.schema data then throw (.invalidModel "Invalid DSL: publish")
  match data with
  | .dict d =>
    let spec : PublishSpec := { branch := d.lookup "branch", global := d.lookup "global", atomic := d.lookup "atomic" }
    if validate then
      if !(spec.branch.any (·.truthy) || spec.global.any (·.truthy) || spec.atomic.any (·.truthy)) then
        throw (.invalidModel "Either 'branch', 'global' or 'atomic' must be specified: ")
      conf.validateExprs spec.branch
      conf.validateExprs spec.global
      conf.validateExprs spec.atomic
    return spec
  | _ => throw .attributeError

/-! ### The schema -/

/-- The pattern of a task name. -/
def namePattern : Pattern := .seq (.plus (!conf.classes.space ·)) .lineEnd

/-- The pattern of a task name with a dictionary parameter. -/
def dictPattern : Pattern :=
  .seq (.plus conf.classes.word) <| .seq (.char ' ') <| .seq (.plus conf.classes.word) <| .seq (.char '=') <|
    .seq (.many CommandConf.dot) .lineEnd

/-- The pattern of a task name with a function parameter. -/
def funcPattern : Pattern :=
  .seq (.plus conf.classes.word) <| .seq (.char '(') <| .seq (.plus conf.classes.word) <| .seq (.char '=') <|
    .seq (.many CommandConf.dot) <| .seq (.char ')') .lineEnd

/-- The patterns that a text of an on-clause is compared with. -/
def nextTaskPatterns : List Pattern := [conf.namePattern, conf.dictPattern, conf.funcPattern]

/-- `NEXT_TASK`. -/
def nextTask : Schema := .oneOf (conf.nextTaskPatterns.map .pattern)

/-- `EXPRESSION`. -/
def expressionSchema : Schema :=
  .oneOf [.pattern (.seq CommandConf.jinja (.seq conf.spaces .lineEnd)), .pattern (.seq CommandConf.yaql (.seq conf.spaces .lineEnd))]

/-- `TASK_WITH_EXPRESSION`. A key that matches no pattern may have any value. -/
def taskWithExpression : Schema
  | .dict [(k, v)] => conf.nextTaskPatterns.all fun p => !p.Matches k.toList || conf.expressionSchema v
  | _ => false

/-- `LIST_OF_TASKS`. -/
def listOfTasks : Schema
  | .list items => items.all (Schema.oneOf [conf.nextTask, conf.taskWithExpression]) && Schema.uniqueItems items && !items.isEmpty
  | _ => false

/-- `ADVANCED_PUBLISHING_DICT`. -/
def advancedPublishingDict : Schema
  | .dict d =>
    !d.isEmpty &&
      Schema.onlyProperties
        [("publish", PublishSpec.schema), ("next", .oneOf [conf.nextTask, conf.taskWithExpression, conf.listOfTasks])] (.dict d)
  | _ => false

/-- `OnClauseSpec.get_schema()`. -/
def onClauseSchema : Schema := fun v =>
  Schema.oneOf [conf.nextTask, conf.taskWithExpression, conf.listOfTasks, conf.advancedPublishingDict] v &&
    Schema.properties Schema.metaProperties v

/-! ### The specification -/

/-- A task name, the condition and the parameters. -/
structure NextTask where
  name : String
  cond : SpecData
  params : SpecDict

/-- `OnClauseSpec` with its publish section and its transitions. -/
structure OnClauseSpec where
  publish : Option PublishSpec
  next : List NextTask

/-- `_as_tuple`. -/
def asTuple : SpecData → Except DslError (String × SpecData)
  | .text s => .ok (s, .text "")
  | .dict (e :: _) => .ok e
  | _ => .error .typeError

/-- `_as_list_of_tuples`. The items of a dictionary are its keys. -/
def asListOfTuples (data : SpecData) : Except DslError (List (String × SpecData)) :=
  if !data.truthy then .ok []
  else
    match data with
    | .text s => (asTuple (.text s)).map ([·])
    | .list items => items.mapM asTuple
    | .dict d => d.mapM fun e => asTuple (.text e.1)
    | _ => .error .typeError

/-- One round of `prepare_next_clause`. -/
def prepareTask (task : String × SpecData) : Except DslError NextTask := do
  let (taskName, params) ← conf.parseCmdAndInput task.1
  return { name := taskName, cond := task.2, params }

/-- `prepare_next_clause`. -/
def prepareNextClause (nextClause : SpecData) : Except DslError (List NextTask) := do
  (← asListOfTuples nextClause).mapM conf.prepareTask

/-- `_spec_property('publish', PublishSpec)`. -/
def publishProperty (validate : Bool) (d : SpecDict) : Except DslError (Option PublishSpec) :=
  match d.lookup "publish" with
  | none | some .null => .ok none
  | some v => (conf.publishSpec validate v).map some

/-- `OnClauseSpec(data, validate)`. -/
def onClauseSpec (validate : Bool) (data : SpecData) : Except DslError OnClauseSpec :=
  if validate && !conf.onClauseSchema data then .error (.invalidModel "Invalid DSL: on-clause")
  else
    match data with
    | .dict d => do
      let publish ← conf.publishProperty validate d
      return { publish, next := ← conf.prepareNextClause ((d.lookup "next").getD .null) }
    | _ => do return { publish := none, next := ← conf.prepareNextClause data }

end OnClauseConf

end Mistral
