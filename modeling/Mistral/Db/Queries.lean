import Mathlib.Data.List.Basic
import Mathlib.Data.List.Nodup
import Mathlib.Data.Fintype.Basic

/-! The tables of the objects that projects own, who sees their rows, and the statements that change them
    (`mistral/db/v2/sqlalchemy/{api,models}.py`, `mistral/db/sqlalchemy/model_base.py`, `mistral/db/utils.py`).

Columns that no query here reads are kept as a list of texts. -/

namespace Mistral

/-! ### Tables -/

/-- The secure models, of which a project owns the rows. -/
inductive Model
  | workbook
  | workflowDefinition
  | actionDefinition
  | codeSource
  | dynamicActionDefinition
  | environment
  | cronTrigger
  | eventTrigger
  deriving DecidableEq, Repr

instance : Fintype Model where
  elems := {.workbook, .workflowDefinition, .actionDefinition, .codeSource, .dynamicActionDefinition, .environment,
    .cronTrigger, .eventTrigger}
  complete := by rintro ⟨⟩ <;> decide

/-- A row of a secure model. -/
structure DbRow where
  id : String
  name : String := ""
  nameSpace : Option String := some ""
  scope : String := "private"
  projectId : String
  isSystem : Bool := false
  version : Nat := 1
  workflowId : Option String := none
  codeSourceId : Option String := none
  columns : List (String × String) := []
  deriving DecidableEq, Repr

/-- A row of `resource_members_v2`. -/
structure ResourceMember where
  resourceId : String
  resourceType : String
  memberId : String
  status : String := "pending"
  deriving DecidableEq, Repr

/-- The tables. -/
structure Tables where
  rows : Model → List DbRow
  members : List ResourceMember := []

/-- Tables with their primary keys. -/
structure Database extends Tables where
  uniqueIds : ∀ m, ((rows m).map DbRow.id).Nodup

/-- The part of a security context that the queries read. -/
structure Context where
  projectId : String
  isAdmin : Bool := false
  deriving DecidableEq, Repr

/-- How a call fails. -/
inductive DbError
  | entityNotFound
  | notAllowed
  | invalidAction
  | inUse
  | missingValue
  | badColumns
  | rejected
  deriving DecidableEq, Repr

/-! ### Queries -/

/-- `RESOURCE_MAPPING`: the models whose rows are shared with members. -/
def resourceType : Model → Option String
  | .workflowDefinition => some "workflow"
  | .workbook => some "workbook"
  | _ => none

section
variable (ctx : Context) (db : Tables)

/-- `_get_accepted_resources`, of a model. -/
def getAcceptedResources (m : Model) : List String :=
  match resourceType m with
  | none => []
  | some type =>
    (db.members.filter fun r =>
      r.resourceType == type && r.status == "accepted" && r.memberId == ctx.projectId).map (·.resourceId)

/-- The criterion of `_secure_query`. -/
def DbRow.visible (sharedResIds : List String) (r : DbRow) : Bool :=
  r.projectId == ctx.projectId || r.scope == "public" || sharedResIds.contains r.id

/-- `_secure_query`. -/
def secureQuery (m : Model) : List DbRow := (db.rows m).filter (DbRow.visible ctx (getAcceptedResources ctx db m))

/-- The query that a function with the parameter `insecure` runs: admins see everything. -/
def query (m : Model) (insecure : Bool) : List DbRow :=
  if ctx.isAdmin || insecure then db.rows m else secureQuery ctx db m

/-- The criterion of `_get_db_object_by_name_and_namespace_or_id`. -/
def DbRow.hasNameOrId (identifier : String) (nameSpace : Option String) (r : DbRow) : Bool :=
  r.id == identifier || r.name == identifier && (nameSpace.isNone || r.nameSpace == nameSpace)

/-- `_get_db_object_by_name`. -/
def getDbObjectByName (m : Model) (name : String) : Option DbRow := (secureQuery ctx db m).find? (·.name == name)

/-- `_get_db_object_by_id`. -/
def getDbObjectById (m : Model) (id : String) (insecure : Bool) : Option DbRow :=
  (query ctx db m insecure).find? (·.id == id)

/-- `_get_db_object_by_name_and_namespace_or_id`. -/
def getDbObjectByNameAndNamespaceOrId (m : Model) (identifier : String) (nameSpace : Option String) : Option DbRow :=
  (query ctx db m false).find? (·.hasNameOrId identifier nameSpace)

/-- `_get_db_object_by_name_and_namespace`. -/
def getDbObjectByNameAndNamespace (m : Model) (name : String) (nameSpace : Option String) : Option DbRow :=
  (query ctx db m false).find? fun r => r.name == name && r.nameSpace == some (nameSpace.getD "")

/-- `check_db_obj_access`. Only definitions have the column `is_system`. -/
def checkDbObjAccess (r : DbRow) : Except DbError Unit :=
  if !ctx.isAdmin && r.projectId != ctx.projectId then .error .notAllowed
  else if !ctx.isAdmin && r.isSystem then .error .invalidAction
  else .ok ()

end

/-! ### Statements -/

/-- The values of an update or a creation: the columns that the dictionary has. -/
structure Values where
  id : Option String := none
  name : Option String := none
  nameSpace : Option (Option String) := none
  scope : Option String := none
  projectId : Option String := none
  isSystem : Option Bool := none
  version : Option Nat := none
  workflowId : Option (Option String) := none
  codeSourceId : Option (Option String) := none
  columns : List (String × String) := []
  deriving DecidableEq, Repr

/-- `values.get('namespace')`. -/
def Values.getNamespace (v : Values) : Option String := v.nameSpace.join

/-- The columns that an UPDATE statement sets. -/
def DbRow.set (v : Values) (r : DbRow) : DbRow where
  id := v.id.getD r.id
  name := v.name.getD r.name
  nameSpace := v.nameSpace.getD r.nameSpace
  scope := v.scope.getD r.scope
  projectId := v.projectId.getD r.projectId
  isSystem := v.isSystem.getD r.isSystem
  version := v.version.getD r.version
  workflowId := v.workflowId.getD r.workflowId
  codeSourceId := v.codeSourceId.getD r.codeSourceId
  columns := v.columns ++ r.columns.filter fun c => (v.columns.lookup c.1).isNone

/-- `_set_project_id`: an object always gets the project of the context. -/
def Values.ownedBy (ctx : Context) (v : Values) : Values :=
  { v with projectId := v.projectId.map fun _ => ctx.projectId }

/-- What a call changes in its session. -/
inductive Statement
  | insert (m : Model) (r : DbRow)
  | update (m : Model) (id : String) (v : Values)
  | delete (m : Model) (criterion : DbRow → Bool)
  | deleteMembers (resourceType resourceId : String)

/-- The code sources that a statement deletes. -/
def Statement.deletesSource (db : Tables) : Statement → String → Bool
  | .delete .codeSource p, id => (db.rows .codeSource).any fun s => p s && s.id == id
  | _, _ => false

/-- The rows of a table after a statement. Dynamic actions go with their code source. -/
def Tables.after (db : Tables) (m : Model) (s : Statement) : List DbRow :=
  match s with
  | .insert m' r => if m = m' then db.rows m ++ [r] else db.rows m
  | .update m' id v => if m = m' then (db.rows m).map fun r => if r.id == id then r.set v else r else db.rows m
  | .delete m' p =>
    if m = m' then (db.rows m).filter fun r => !p r
    else if m = .dynamicActionDefinition then
      (db.rows m).filter fun r => !(r.codeSourceId.any (s.deletesSource db))
    else db.rows m
  | .deleteMembers .. => db.rows m

section
variable (db : Tables) (m m' : Model)

@[simp] theorem Tables.after_insert (r : DbRow) :
    db.after m (.insert m' r) = if m = m' then db.rows m ++ [r] else db.rows m := rfl

@[simp] theorem Tables.after_update (id : String) (v : Values) :
    db.after m (.update m' id v) =
      if m = m' then (db.rows m).map fun r => if r.id == id then r.set v else r else db.rows m := rfl

@[simp] theorem Tables.after_delete (p : DbRow → Bool) :
    db.after m (.delete m' p) =
      if m = m' then (db.rows m).filter fun r => !p r
      else if m = .dynamicActionDefinition then
        (db.rows m).filter fun r => !(r.codeSourceId.any (Statement.deletesSource db (.delete m' p)))
      else db.rows m := rfl

@[simp] theorem Tables.after_deleteMembers (type id : String) : db.after m (.deleteMembers type id) = db.rows m := rfl

/-- Only a statement that deletes code sources deletes dynamic actions with them. -/
theorem Statement.eq_codeSource_of_deletesSource {p : DbRow → Bool} {source : Option String}
    (h : source.any (Statement.deletesSource db (.delete m p))) : m = .codeSource := by
  by_contra hne
  obtain ⟨id, -, hdeletes⟩ := (Option.any_eq_true _ _).mp h
  unfold Statement.deletesSource at hdeletes
  split at hdeletes
  · next heq =>
    cases heq
    exact hne rfl
  · cases hdeletes

end

/-- A statement is executed. -/
def Tables.exec (db : Tables) (s : Statement) : Tables where
  rows := fun m => db.after m s
  members :=
    match s with
    | .deleteMembers type id => db.members.filter fun r => !(r.resourceType == type && r.resourceId == id)
    | _ => db.members

/-- The session is flushed, unless the database or a validator does not accept that. -/
def Database.flush (accepts : Tables → List Statement → Bool) (db : Database) (statements : List Statement) :
    Except DbError Database :=
  let tables := statements.foldl Tables.exec db.toTables
  if h : accepts db.toTables statements ∧ ∀ m, ((tables.rows m).map DbRow.id).Nodup then .ok ⟨tables, h.2⟩
  else .error .rejected

end Mistral
