import Mistral.Db.Queries

/-! The functions of the DB API that update, create or delete rows of the objects that projects own
    (`mistral/db/v2/sqlalchemy/api.py`). Each returns what it changes in its session. -/

namespace Mistral

section
variable (ctx : Context) (db : Tables)

/-! ### Shared parts -/

/-- A function that gets a row, may check who owns it, and updates it. -/
def updateFound (m : Model) (found : Option DbRow) (checked : Bool) (v : Values) : Except DbError (List Statement) :=
  match found with
  | none => .error .entityNotFound
  | some r => do
    if checked then checkDbObjAccess ctx r
    return [.update m r.id (v.ownedBy ctx)]

/-- A function that gets a row, may check who owns it, and deletes it. -/
def deleteFound (m : Model) (found : Option DbRow) (checked : Bool) : Except DbError (List Statement) :=
  match found with
  | none => .error .entityNotFound
  | some r => do
    if checked then checkDbObjAccess ctx r
    return [.delete m (·.id == r.id)]

/-- The `create_*` functions. The id is a new one if the values have none. -/
def create (m : Model) (v : Values) (newId : String) : List Statement :=
  [.insert m (DbRow.set (v.ownedBy ctx) { id := newId, projectId := ctx.projectId })]

/-- `query.delete()` on a query of the rows that are visible and match, where no row is an error. -/
def deleteQuery (m : Model) (p : DbRow → Bool) : Except DbError (List Statement) :=
  if (db.rows m).any p then .ok [.delete m p] else .error .entityNotFound

/-- The rows of `_secure_query` that match. -/
def DbRow.selected (m : Model) (p : DbRow → Bool) (r : DbRow) : Bool :=
  r.visible ctx (getAcceptedResources ctx db m) && p r

/-- `_delete_all`, with the criterion of its filters. -/
def deleteAll (m : Model) (filters : DbRow → Bool) : Except DbError (List Statement) :=
  .ok [.delete m (DbRow.selected ctx db m filters)]

/-! ### Workbooks -/

/-- `get_workbook`. -/
def getWorkbook (name : String) (nameSpace : Option String) : Option DbRow :=
  getDbObjectByNameAndNamespace ctx db .workbook name nameSpace

/-- `update_workbook`. -/
def updateWorkbook (name : String) (v : Values) : Except DbError (List Statement) :=
  updateFound ctx .workbook (getWorkbook ctx db name v.getNamespace) false v

/-- `create_or_update_workbook`. -/
def createOrUpdateWorkbook (name : String) (v : Values) (newId : String) : Except DbError (List Statement) :=
  if (getDbObjectByName ctx db .workbook name).isNone then .ok (create ctx .workbook v newId)
  else updateWorkbook ctx db name v

/-- `delete_workbook`. -/
def deleteWorkbook (name : String) (nameSpace : Option String) : Except DbError (List Statement) :=
  deleteQuery db .workbook
    (DbRow.selected ctx db .workbook fun r => r.name == name && r.nameSpace == some (nameSpace.getD ""))

/-- `delete_workbooks`. -/
def deleteWorkbooks (filters : DbRow → Bool) : Except DbError (List Statement) := deleteAll ctx db .workbook filters

/-! ### Workflow definitions -/

/-- `get_workflow_definition`. -/
def getWorkflowDefinition (identifier : String) (nameSpace : Option String) : Option DbRow :=
  getDbObjectByNameAndNamespaceOrId ctx db .workflowDefinition identifier nameSpace

/-- The triggers of one of the two kinds that belong to a workflow definition. -/
def triggersOf (m : Model) (r : DbRow) : List DbRow := (db.rows m).filter (·.workflowId == some r.id)

/-- A public definition does not become private while other projects have triggers for it. -/
def checkScope (r : DbRow) (v : Values) : Except DbError Unit :=
  if r.scope == "public" then
    match v.scope with
    | none => .error .missingValue
    | some scope =>
      if scope == "private" &&
          (triggersOf db .cronTrigger r ++ triggersOf db .eventTrigger r).any (·.projectId != r.projectId) then
        .error .notAllowed
      else .ok ()
  else .ok ()

/-- `update_workflow_definition`. -/
def updateWorkflowDefinition (identifier : String) (v : Values) : Except DbError (List Statement) :=
  match getWorkflowDefinition ctx db identifier v.getNamespace with
  | none => .error .entityNotFound
  | some r => do
    checkDbObjAccess ctx r
    checkScope db r v
    return [.update .workflowDefinition r.id (v.ownedBy ctx)]

/-- `create_or_update_workflow_definition`. -/
def createOrUpdateWorkflowDefinition (name : String) (v : Values) (newId : String) :
    Except DbError (List Statement) :=
  if (getDbObjectByNameAndNamespaceOrId ctx db .workflowDefinition name v.getNamespace).isSome then
    updateWorkflowDefinition ctx db name v
  else .ok (create ctx .workflowDefinition v newId)

/-- `delete_workflow_definition`. -/
def deleteWorkflowDefinition (identifier : String) (nameSpace : Option String) : Except DbError (List Statement) :=
  match getWorkflowDefinition ctx db identifier nameSpace with
  | none => .error .entityNotFound
  | some r => do
    checkDbObjAccess ctx r
    if triggersOf db .cronTrigger r ++ triggersOf db .eventTrigger r != [] then .error .inUse
    else return [.deleteMembers "workflow" r.id, .delete .workflowDefinition (·.id == r.id)]

/-- `delete_workflow_definitions`. -/
def deleteWorkflowDefinitions (filters : DbRow → Bool) : Except DbError (List Statement) :=
  deleteAll ctx db .workflowDefinition filters

/-! ### Code sources -/

/-- `get_code_source`. -/
def getCodeSource (identifier : String) (nameSpace : Option String) : Option DbRow :=
  getDbObjectByNameAndNamespaceOrId ctx db .codeSource identifier nameSpace

/-- `update_code_source`. -/
def updateCodeSource (identifier : String) (v : Values) (nameSpace : Option String) :
    Except DbError (List Statement) :=
  match getCodeSource ctx db identifier nameSpace with
  | none => .error .entityNotFound
  | some r => updateFound ctx .codeSource (some r) false { v with version := some (r.version + 1) }

/-- `delete_code_source`. -/
def deleteCodeSource (identifier : String) (nameSpace : Option String) : Except DbError (List Statement) :=
  deleteFound ctx .codeSource (getCodeSource ctx db identifier nameSpace) false

/-- `delete_code_sources`. -/
def deleteCodeSources (filters : DbRow → Bool) : Except DbError (List Statement) := deleteAll ctx db .codeSource filters

/-! ### Dynamic actions -/

/-- `get_dynamic_action_definition`. -/
def getDynamicActionDefinition (identifier : String) (nameSpace : Option String) : Option DbRow :=
  getDbObjectByNameAndNamespaceOrId ctx db .dynamicActionDefinition identifier nameSpace

/-- `update_dynamic_action_definition`. -/
def updateDynamicActionDefinition (identifier : String) (v : Values) (nameSpace : Option String) :
    Except DbError (List Statement) :=
  updateFound ctx .dynamicActionDefinition (getDynamicActionDefinition ctx db identifier nameSpace) false v

/-- The namespace is handed to `get_dynamic_action_definition` as its second argument, which is the one for the columns to
    select, so that the namespace searched is always `''`. Only `''` selects all columns; the characters of another
    namespace are no columns, and `None` stands for all of them only in the query of an administrator. -/
def deleteDynamicActionDefinition (identifier : String) (nameSpace : Option String) :
    Except DbError (List Statement) :=
  if nameSpace = some "" ∨ nameSpace = none ∧ ctx.isAdmin then
    deleteFound ctx .dynamicActionDefinition (getDynamicActionDefinition ctx db identifier (some "")) false
  else .error .badColumns

/-- `delete_dynamic_action_definitions`. -/
def deleteDynamicActionDefinitions (filters : DbRow → Bool) : Except DbError (List Statement) :=
  deleteAll ctx db .dynamicActionDefinition filters

/-! ### Action definitions -/

/-- An action that is not in the given namespace is looked for in the default one. -/
def getActionDefinition (identifier : String) (nameSpace : Option String) : Option DbRow :=
  (getDbObjectByNameAndNamespaceOrId ctx db .actionDefinition identifier nameSpace).or
    (getDbObjectByNameAndNamespaceOrId ctx db .actionDefinition identifier (some ""))

/-- `update_action_definition`. -/
def updateActionDefinition (identifier : String) (v : Values) : Except DbError (List Statement) :=
  updateFound ctx .actionDefinition (getActionDefinition ctx db identifier (v.nameSpace.getD (some ""))) false v

/-- `create_or_update_action_definition`. -/
def createOrUpdateActionDefinition (name : String) (v : Values) (newId : String) : Except DbError (List Statement) :=
  if (getDbObjectByNameAndNamespace ctx db .actionDefinition name (v.nameSpace.getD (some ""))).isNone then
    .ok (create ctx .actionDefinition v newId)
  else updateActionDefinition ctx db name v

/-- `delete_action_definition`. -/
def deleteActionDefinition (identifier : String) (nameSpace : Option String) : Except DbError (List Statement) :=
  deleteFound ctx .actionDefinition (getActionDefinition ctx db identifier nameSpace) false

/-- `delete_action_definitions`. -/
def deleteActionDefinitions (filters : DbRow → Bool) : Except DbError (List Statement) :=
  deleteAll ctx db .actionDefinition filters

/-! ### Environments -/

/-- `get_environment`. -/
def getEnvironment (name : String) : Option DbRow := getDbObjectByName ctx db .environment name

/-- `update_environment`. -/
def updateEnvironment (name : String) (v : Values) : Except DbError (List Statement) :=
  updateFound ctx .environment (getEnvironment ctx db name) false v

/-- `create_or_update_environment`. -/
def createOrUpdateEnvironment (name : String) (v : Values) (newId : String) : Except DbError (List Statement) :=
  if (getDbObjectByName ctx db .environment name).isNone then .ok (create ctx .environment v newId)
  else updateEnvironment ctx db name v

/-- `delete_environment`. -/
def deleteEnvironment (name : String) : Except DbError (List Statement) :=
  deleteQuery db .environment (DbRow.selected ctx db .environment (·.name == name))

/-- `delete_environments`. -/
def deleteEnvironments (filters : DbRow → Bool) : Except DbError (List Statement) := deleteAll ctx db .environment filters

/-! ### Cron triggers -/

/-- `get_cron_trigger`. -/
def getCronTrigger (identifier : String) : Option DbRow :=
  getDbObjectByNameAndNamespaceOrId ctx db .cronTrigger identifier none

/-- With a filter, the row is updated by a statement of its own, which sets the values as they are. -/
def updateCronTrigger (identifier : String) (v : Values) (queryFilter : Option (DbRow → Bool)) :
    Except DbError (List Statement) :=
  match getCronTrigger ctx db identifier, queryFilter with
  | none, _ => .error .entityNotFound
  | some r, none => updateFound ctx .cronTrigger (some r) false v
  | some r, some filter => .ok (if filter r then [.update .cronTrigger r.id v] else [])

/-- `create_or_update_cron_trigger`. -/
def createOrUpdateCronTrigger (identifier : String) (v : Values) (newId : String) : Except DbError (List Statement) :=
  if (getDbObjectByNameAndNamespaceOrId ctx db .cronTrigger identifier none).isNone then
    .ok (create ctx .cronTrigger v newId)
  else updateCronTrigger ctx db identifier v none

/-- `delete_cron_trigger`. -/
def deleteCronTrigger (identifier : String) : Except DbError (List Statement) :=
  deleteFound ctx .cronTrigger (getCronTrigger ctx db identifier) true

/-- `delete_cron_triggers`. -/
def deleteCronTriggers (filters : DbRow → Bool) : Except DbError (List Statement) := deleteAll ctx db .cronTrigger filters

/-! ### Event triggers -/

/-- `get_event_trigger`. -/
def getEventTrigger (id : String) (insecure : Bool) : Option DbRow := getDbObjectById ctx db .eventTrigger id insecure

/-- `update_event_trigger`. -/
def updateEventTrigger (id : String) (v : Values) : Except DbError (List Statement) :=
  updateFound ctx .eventTrigger (getEventTrigger ctx db id false) false v

/-- The query is insecure. -/
def deleteEventTrigger (id : String) : Except DbError (List Statement) := deleteQuery db .eventTrigger (·.id == id)

/-- `delete_event_triggers`. -/
def deleteEventTriggers (filters : DbRow → Bool) : Except DbError (List Statement) :=
  deleteAll ctx db .eventTrigger filters

end

/-! ### Calls -/

/-- The calls of the functions, with their arguments; `newId` is the id that a creation draws. -/
inductive ApiCall
  | updateWorkbook (name : String) (v : Values)
  | createOrUpdateWorkbook (name : String) (v : Values) (newId : String)
  | deleteWorkbook (name : String) (nameSpace : Option String)
  | deleteWorkbooks (filters : DbRow → Bool)
  | updateWorkflowDefinition (identifier : String) (v : Values)
  | createOrUpdateWorkflowDefinition (name : String) (v : Values) (newId : String)
  | deleteWorkflowDefinition (identifier : String) (nameSpace : Option String)
  | deleteWorkflowDefinitions (filters : DbRow → Bool)
  | updateCodeSource (identifier : String) (v : Values) (nameSpace : Option String)
  | deleteCodeSource (identifier : String) (nameSpace : Option String)
  | deleteCodeSources (filters : DbRow → Bool)
  | updateDynamicActionDefinition (identifier : String) (v : Values) (nameSpace : Option String)
  | deleteDynamicActionDefinition (identifier : String) (nameSpace : Option String)
  | deleteDynamicActionDefinitions (filters : DbRow → Bool)
  | updateActionDefinition (identifier : String) (v : Values)
  | createOrUpdateActionDefinition (name : String) (v : Values) (newId : String)
  | deleteActionDefinition (identifier : String) (nameSpace : Option String)
  | deleteActionDefinitions (filters : DbRow → Bool)
  | updateEnvironment (name : String) (v : Values)
  | createOrUpdateEnvironment (name : String) (v : Values) (newId : String)
  | deleteEnvironment (name : String)
  | deleteEnvironments (filters : DbRow → Bool)
  | updateCronTrigger (identifier : String) (v : Values) (queryFilter : Option (DbRow → Bool))
  | createOrUpdateCronTrigger (identifier : String) (v : Values) (newId : String)
  | deleteCronTrigger (identifier : String)
  | deleteCronTriggers (filters : DbRow → Bool)
  | updateEventTrigger (id : String) (v : Values)
  | deleteEventTrigger (id : String)
  | deleteEventTriggers (filters : DbRow → Bool)

/-- What a call changes in its session. -/
def ApiCall.statements (ctx : Context) (db : Tables) : ApiCall → Except DbError (List Statement)
  | updateWorkbook name v => Mistral.updateWorkbook ctx db name v
  | createOrUpdateWorkbook name v newId => Mistral.createOrUpdateWorkbook ctx db name v newId
  | deleteWorkbook name nameSpace => Mistral.deleteWorkbook ctx db name nameSpace
  | deleteWorkbooks filters => Mistral.deleteWorkbooks ctx db filters
  | updateWorkflowDefinition identifier v => Mistral.updateWorkflowDefinition ctx db identifier v
  | createOrUpdateWorkflowDefinition name v newId => Mistral.createOrUpdateWorkflowDefinition ctx db name v newId
  | deleteWorkflowDefinition identifier nameSpace => Mistral.deleteWorkflowDefinition ctx db identifier nameSpace
  | deleteWorkflowDefinitions filters => Mistral.deleteWorkflowDefinitions ctx db filters
  | updateCodeSource identifier v nameSpace => Mistral.updateCodeSource ctx db identifier v nameSpace
  | deleteCodeSource identifier nameSpace => Mistral.deleteCodeSource ctx db identifier nameSpace
  | deleteCodeSources filters => Mistral.deleteCodeSources ctx db filters
  | updateDynamicActionDefinition identifier v nameSpace =>
    Mistral.updateDynamicActionDefinition ctx db identifier v nameSpace
  | deleteDynamicActionDefinition identifier nameSpace =>
    Mistral.deleteDynamicActionDefinition ctx db identifier nameSpace
  | deleteDynamicActionDefinitions filters => Mistral.deleteDynamicActionDefinitions ctx db filters
  | updateActionDefinition identifier v => Mistral.updateActionDefinition ctx db identifier v
  | createOrUpdateActionDefinition name v newId => Mistral.createOrUpdateActionDefinition ctx db name v newId
  | deleteActionDefinition identifier nameSpace => Mistral.deleteActionDefinition ctx db identifier nameSpace
  | deleteActionDefinitions filters => Mistral.deleteActionDefinitions ctx db filters
  | updateEnvironment name v => Mistral.updateEnvironment ctx db name v
  | createOrUpdateEnvironment name v newId => Mistral.createOrUpdateEnvironment ctx db name v newId
  | deleteEnvironment name => Mistral.deleteEnvironment ctx db name
  | deleteEnvironments filters => Mistral.deleteEnvironments ctx db filters
  | updateCronTrigger identifier v queryFilter => Mistral.updateCronTrigger ctx db identifier v queryFilter
  | createOrUpdateCronTrigger identifier v newId => Mistral.createOrUpdateCronTrigger ctx db identifier v newId
  | deleteCronTrigger identifier => Mistral.deleteCronTrigger ctx db identifier
  | deleteCronTriggers filters => Mistral.deleteCronTriggers ctx db filters
  | updateEventTrigger id v => Mistral.updateEventTrigger ctx db id v
  | deleteEventTrigger id => Mistral.deleteEventTrigger db id
  | deleteEventTriggers filters => Mistral.deleteEventTriggers ctx db filters

/-- A call in a session of its own, which fails as a whole. -/
def ApiCall.run (accepts : Tables → List Statement → Bool) (ctx : Context) (db : Database) (call : ApiCall) :
    Except DbError Database := do
  db.flush accepts (← call.statements ctx db.toTables)

end Mistral
