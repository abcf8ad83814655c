import Mistral.Db.Api

/-! The projects that a workflow is shared with: the functions of the DB API for resource members
    (`mistral/db/v2/sqlalchemy/api.py`), and the requests of `mistral/api/controllers/v2/member.py`. -/

namespace Mistral

/-- A row of `resource_members_v2`, with the project that has created it. -/
structure MemberRow extends ResourceMember where
  projectId : String
  deriving DecidableEq, Repr

/-- The columns of the unique constraint. -/
def MemberRow.key (r : MemberRow) : String × String × String := (r.resourceId, r.resourceType, r.memberId)

/-- The tables with their keys. -/
structure SharingDb where
  rows : Model → List DbRow
  members : List MemberRow := []
  uniqueIds : ∀ m, ((rows m).map DbRow.id).Nodup
  uniqueMembers : (members.map MemberRow.key).Nodup

/-- What the queries of the secure models read. -/
def SharingDb.toDatabase (s : SharingDb) : Database where
  rows := s.rows
  members := s.members.map (·.toResourceMember)
  uniqueIds := s.uniqueIds

/-- How a request fails. -/
inductive SharingError
  | db (e : DbError)
  | duplicateEntry
  | workflowException (message : String)
  deriving DecidableEq, Repr

/-! ### The DB API -/

section
variable (ctx : Context)

/-- `_get_criterion`. -/
def getCriterion (resourceId : String) (memberId : Option String) (isOwner : Bool) : Option (MemberRow → Bool) :=
  let ofMember := fun r : MemberRow => r.memberId == ctx.projectId && r.resourceId == resourceId
  match isOwner, memberId.filter (· != "") with
  | true, some member => some fun r =>
    r.projectId == ctx.projectId && r.resourceId == resourceId && r.memberId == member
  | true, none => some fun r => r.projectId == ctx.projectId && r.resourceId == resourceId
  | false, some member => if member != ctx.projectId then none else some ofMember
  | false, none => some ofMember

/-- A row meets one of two criteria. `None` stands for `NULL`. -/
def meetsOne (criteria : List (Option (MemberRow → Bool))) (r : MemberRow) : Bool := criteria.any (·.any (· r))

/-- `get_resource_member`. -/
def getResourceMember (s : SharingDb) (resourceId type memberId : String) : Except SharingError MemberRow :=
  match s.members.find? fun r => r.resourceType == type &&
      meetsOne [getCriterion ctx resourceId (some memberId) true, getCriterion ctx resourceId (some memberId) false] r with
  | none => .error (.db .entityNotFound)
  | some r => .ok r

/-- `get_resource_members`. -/
def getResourceMembers (s : SharingDb) (resourceId type : String) : List MemberRow :=
  s.members.filter fun r => r.resourceType == type &&
    meetsOne [getCriterion ctx resourceId none true, getCriterion ctx resourceId none false] r

/-- The column `project_id` has the project of the context by default. -/
def createResourceMember (s : SharingDb) (member : ResourceMember) : Except SharingError SharingDb :=
  let row : MemberRow := { member with projectId := ctx.projectId }
  if h : row.key ∈ s.members.map MemberRow.key then .error .duplicateEntry
  else .ok { s with
    members := s.members ++ [row]
    uniqueMembers := by
      rw [List.map_append, List.nodup_append']
      exact ⟨s.uniqueMembers, List.nodup_singleton _, by simpa using h⟩ }

/-- The row with a new status. -/
def MemberRow.withStatus (r : MemberRow) (status : String) : MemberRow := { r with status }

@[simp] theorem MemberRow.key_withStatus (r : MemberRow) (status : String) : (r.withStatus status).key = r.key := rfl

/-- The `UPDATE` of the status of a row. -/
def SharingDb.setStatus (s : SharingDb) (row : MemberRow) (status : String) : SharingDb where
  rows := s.rows
  members := s.members.map fun r => if r.key = row.key then r.withStatus status else r
  uniqueIds := s.uniqueIds
  uniqueMembers := by
    have hkeys : (s.members.map fun r => if r.key = row.key then r.withStatus status else r).map MemberRow.key =
        s.members.map MemberRow.key := by
      rw [List.map_map]
      refine List.map_congr_left fun r _ => ?_
      simp only [Function.comp]
      split <;> rfl
    exact hkeys ▸ s.uniqueMembers

/-- Only the member itself updates the row. -/
def updateResourceMember (s : SharingDb) (resourceId type memberId status : String) : Except SharingError SharingDb :=
  if memberId != ctx.projectId then .error (.db .entityNotFound)
  else
    match s.members.find? fun r => r.resourceType == type &&
        (getCriterion ctx resourceId (some memberId) false).any (· r) with
    | none => .error (.db .entityNotFound)
    | some row => .ok (s.setStatus row status)

/-- The `DELETE` of rows. -/
def SharingDb.withoutMembers (s : SharingDb) (p : MemberRow → Bool) : SharingDb where
  rows := s.rows
  members := s.members.filter fun r => !p r
  uniqueIds := s.uniqueIds
  uniqueMembers := s.uniqueMembers.sublist (List.filter_sublist.map _)

/-- `delete_resource_member`. -/
def deleteResourceMember (s : SharingDb) (resourceId type memberId : String) : Except SharingError SharingDb :=
  let selected := fun r : MemberRow =>
    r.resourceType == type && (getCriterion ctx resourceId (some memberId) true).any (· r)
  if s.members.any selected then .ok (s.withoutMembers selected) else .error (.db .entityNotFound)

/-- The rows that `delete_resource_members` selects for a resource. -/
def Statement.deletesMember : Statement → MemberRow → Bool
  | .deleteMembers type id, r => r.resourceType == type && r.resourceId == id
  | _, _ => false

/-- The session is flushed. -/
def SharingDb.flush (accepts : Tables → List Statement → Bool) (s : SharingDb) (statements : List Statement) :
    Except SharingError SharingDb :=
  match s.toDatabase.flush accepts statements with
  | .error e => .error (.db e)
  | .ok db =>
    let left := s.withoutMembers fun r => statements.any (·.deletesMember r)
    .ok { rows := db.rows, members := left.members, uniqueIds := db.uniqueIds, uniqueMembers := left.uniqueMembers }

end

/-! ### Requests -/

/-- A request: a call of the DB API, the creation of a workflow, or a request about the members of a workflow. -/
inductive SharingRequest
  | call (c : ApiCall)
  | createWorkflowDefinition (v : Values) (newId : String)
  | postMember (resourceId memberId : String)
  | putMember (resourceId memberId status : String)
  | deleteMember (resourceId memberId : String)

/-- The error for an identifier that is no UUID. -/
def onlyUuid : SharingError := .workflowException "Only support UUID as resource identifier in resource sharing feature."

/-- The error for a resource that is not private. -/
def onlyPrivate : SharingError := .workflowException "Only private resource could be shared."

section
variable (isUuidLike : String → Bool) (accepts : Tables → List Statement → Bool) (ctx : Context) (s : SharingDb)

/-- `MembersController.post`. -/
def MembersController.post (resourceId memberId : String) : Except SharingError SharingDb :=
  if memberId == "" then .error (.workflowException "Member id must be provided.")
  else
    match getWorkflowDefinition ctx s.toDatabase.toTables resourceId (some "") with
    | none => .error (.db .entityNotFound)
    | some wfDb =>
      if wfDb.scope != "private" then .error onlyPrivate
      else createResourceMember ctx s { resourceId, resourceType := "workflow", memberId, status := "pending" }

/-- `MembersController.put`. The type of the status has three values. -/
def MembersController.put (resourceId memberId status : String) : Except SharingError SharingDb :=
  if status ∉ ["pending", "accepted", "rejected"] then .error (.workflowException "Status must be provided.")
  else updateResourceMember ctx s resourceId "workflow" memberId status

/-- `MembersController.delete`. -/
def MembersController.delete (resourceId memberId : String) : Except SharingError SharingDb :=
  deleteResourceMember ctx s resourceId "workflow" memberId

/-- A request with its context. The controller of members is looked up for identifiers that are UUIDs. -/
def SharingRequest.run : SharingRequest → Except SharingError SharingDb
  | .call c =>
    match c.statements ctx s.toDatabase.toTables with
    | .error e => .error (.db e)
    | .ok statements => s.flush accepts statements
  | .createWorkflowDefinition v newId => s.flush accepts (create ctx .workflowDefinition v newId)
  | .postMember resourceId memberId =>
    if isUuidLike resourceId then MembersController.post ctx s resourceId memberId else .error onlyUuid
  | .putMember resourceId memberId status =>
    if isUuidLike resourceId then MembersController.put ctx s resourceId memberId status else .error onlyUuid
  | .deleteMember resourceId memberId =>
    if isUuidLike resourceId then MembersController.delete ctx s resourceId memberId else .error onlyUuid

end

end Mistral
