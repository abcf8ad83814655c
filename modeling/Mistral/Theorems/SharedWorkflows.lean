import Mistral.Db.ResourceMembers
import Mistral.Lib.Excepts
import Mistral.Theorems.TenantIsolation

/-! Who sees a private workflow of another project: the projects that it was shared with, by its owner or by a project
    that it was shared with before, and that have accepted it. -/

namespace Mistral

/-! ### Histories -/

/-- A request that has succeeded, with the tables that it found. -/
structure SharingEvent where
  ctx : Context
  request : SharingRequest
  before : SharingDb

/-- The workflow belonged to the project of the request. -/
def SharingEvent.Owns (e : SharingEvent) (workflow : String) : Prop :=
  ∃ r ∈ e.before.rows .workflowDefinition, r.id = workflow ∧ r.projectId = e.ctx.projectId

/-- What the requests so far, the last one first, say about a project as a member of a workflow: the project that has
    shared the workflow with it, and the last status that the member has set since. -/
def membership (workflow member : String) : List SharingEvent → Option (String × String)
  | [] => none
  | e :: h =>
    match e.request with
    | .postMember resourceId memberId =>
      if resourceId = workflow ∧ memberId = member then some (e.ctx.projectId, "pending") else membership workflow member h
    | .putMember resourceId _ status =>
      if resourceId = workflow ∧ e.ctx.projectId = member then (membership workflow member h).map fun m => (m.1, status)
      else membership workflow member h
    | .deleteMember resourceId memberId =>
      (membership workflow member h).filter fun m =>
        ¬(resourceId = workflow ∧ (memberId = member ∨ memberId = "") ∧ e.ctx.projectId = m.1)
    | _ => membership workflow member h

/-- The values of a workflow: the service that parses its definition gives a name that is not a UUID, and no id. -/
def Values.Named (isUuidLike : String → Bool) (v : Values) : Prop :=
  v.id = none ∧ ∃ name, v.name = some name ∧ isUuidLike name = false

/-- No workflow with the id was shared before. -/
def NewId (h : List SharingEvent) (id : String) : Prop := ∀ e ∈ h, ∀ member, e.request ≠ .postMember id member

/-- What the services promise about the workflows of a request. -/
def SharingRequest.Sound (isUuidLike : String → Bool) (h : List SharingEvent) : SharingRequest → Prop
  | .createWorkflowDefinition v newId => v.Named isUuidLike ∧ NewId h newId
  | .call (.updateWorkflowDefinition _ v) => v.Named isUuidLike
  | .call (.createOrUpdateWorkflowDefinition _ v newId) => v.Named isUuidLike ∧ NewId h newId
  | _ => True

/-- The tables after requests, the last one first. Requests that fail leave them as they are. -/
inductive SharingRun (isUuidLike : String → Bool) (accepts : Tables → List Statement → Bool) :
    List SharingEvent → SharingDb → Prop
  | start {s : SharingDb} (hmembers : s.members = []) (hnames : ∀ r ∈ s.rows .workflowDefinition, isUuidLike r.name = false) :
    SharingRun isUuidLike accepts [] s
  | step {h : List SharingEvent} {s s' : SharingDb} {ctx : Context} {request : SharingRequest}
      (hrun : SharingRun isUuidLike accepts h s) (hsound : request.Sound isUuidLike h)
      (hstep : request.run isUuidLike accepts ctx s = .ok s') :
    SharingRun isUuidLike accepts (⟨ctx, request, s⟩ :: h) s'

/-- The last request that shares a workflow with a member, which the member has accepted. -/
structure LastShare (workflow member : String) (h : List SharingEvent) (e : SharingEvent) (earlier : List SharingEvent) :
    Prop where
  history : ∃ later, h = later ++ e :: earlier ∧ ∀ e' ∈ later, e'.request ≠ .postMember workflow member
  request : e.request = .postMember workflow member
  accepted : membership workflow member h = some (e.ctx.projectId, "accepted")

/-- A project was given a workflow, and has accepted it: by an administrator, by its owner, or by a project that was
    given it before. -/
inductive Granted (workflow : String) : List SharingEvent → String → Prop
  | admin {h earlier : List SharingEvent} {e : SharingEvent} {member : String}
      (hshare : LastShare workflow member h e earlier) (hadmin : e.ctx.isAdmin) : Granted workflow h member
  | owner {h earlier : List SharingEvent} {e : SharingEvent} {member : String}
      (hshare : LastShare workflow member h e earlier) (howns : e.Owns workflow) : Granted workflow h member
  | member {h earlier : List SharingEvent} {e : SharingEvent} {member : String}
      (hshare : LastShare workflow member h e earlier) (hby : Granted workflow earlier e.ctx.projectId) :
    Granted workflow h member

/-! ### The members of a workflow -/

/-- Who has shared the workflow with the member, and the status of the row. -/
def SharingDb.memberOf (s : SharingDb) (workflow member : String) : Option (String × String) :=
  (s.members.find? fun r => r.key = (workflow, "workflow", member)).map fun r => (r.projectId, r.status)

section
variable {α κ : Type} [DecidableEq κ] {f : α → κ} {l : List α} {k : κ}

/-- A row is found by its key. -/
theorem find?_key_eq_some_iff (h : (l.map f).Nodup) {a : α} : l.find? (fun x => f x = k) = some a ↔ a ∈ l ∧ f a = k := by
  constructor
  · intro hfind
    exact ⟨List.mem_of_find?_eq_some hfind, by simpa using List.find?_some hfind⟩
  · rintro ⟨hmem, rfl⟩
    cases hfind : l.find? fun x => f x = f a with
    | none => simpa using List.find?_eq_none.mp hfind a hmem
    | some b =>
      have hb : f b = f a := by simpa using List.find?_some hfind
      rw [List.inj_on_of_nodup_map h (List.mem_of_find?_eq_some hfind) hmem hb]

theorem find?_key_filter (h : (l.map f).Nodup) (p : α → Bool) :
    (l.filter p).find? (fun x => f x = k) = (l.find? fun x => f x = k).filter p := by
  ext a
  rw [find?_key_eq_some_iff (h.sublist (List.filter_sublist.map f)), List.mem_filter, Option.filter_eq_some_iff,
    find?_key_eq_some_iff h, and_right_comm]

end

section
variable {s : SharingDb} {workflow member creator status : String}

theorem SharingDb.memberOf_eq_some_iff : s.memberOf workflow member = some (creator, status) ↔
    ∃ r ∈ s.members, r.key = (workflow, "workflow", member) ∧ r.projectId = creator ∧ r.status = status := by
  simp only [memberOf, Option.map_eq_some_iff, find?_key_eq_some_iff s.uniqueMembers, Prod.mk.injEq, and_assoc]

theorem SharingDb.memberOf_setStatus (row : MemberRow) :
    (s.setStatus row status).memberOf workflow member =
      if row.key = (workflow, "workflow", member) then (s.memberOf workflow member).map fun m => (m.1, status)
      else s.memberOf workflow member := by
  have hfind : (s.setStatus row status).members.find? (fun r => r.key = (workflow, "workflow", member)) =
      (s.members.find? fun r => r.key = (workflow, "workflow", member)).map fun r =>
        if r.key = row.key then r.withStatus status else r := by
    simp only [setStatus, List.find?_map]
    congr 2
    funext r
    simp only [Function.comp]
    split <;> rfl
  rw [memberOf, memberOf, hfind, Option.map_map, Option.map_map]
  split
  · next hkey =>
    refine Option.map_congr fun r hr => ?_
    have hr := ((find?_key_eq_some_iff s.uniqueMembers).mp hr).2
    simp [hr, hkey, MemberRow.withStatus]
  · next hkey =>
    refine Option.map_congr fun r hr => ?_
    have hr := ((find?_key_eq_some_iff s.uniqueMembers).mp hr).2
    have hne : r.key ≠ row.key := fun h => hkey (h.symm.trans hr)
    simp [hne]

theorem SharingDb.memberOf_withoutMembers (p : MemberRow → Bool) :
    (s.withoutMembers p).memberOf workflow member =
      ((s.members.find? fun r => r.key = (workflow, "workflow", member)).filter fun r => !p r).map fun r =>
        (r.projectId, r.status) := by
  rw [memberOf, withoutMembers, find?_key_filter s.uniqueMembers]

theorem memberOf_createResourceMember {ctx : Context} {row : ResourceMember} {t : SharingDb}
    (h : createResourceMember ctx s row = .ok t) : t.rows = s.rows ∧ ∀ workflow member,
      t.memberOf workflow member = if (row.resourceId, row.resourceType, row.memberId) = (workflow, "workflow", member) then
        some (ctx.projectId, row.status) else s.memberOf workflow member := by
  unfold createResourceMember at h
  dsimp only at h
  split at h
  · cases h
  · next hnew =>
    cases h
    refine ⟨rfl, fun workflow member => ?_⟩
    by_cases hkey : (row.resourceId, row.resourceType, row.memberId) = (workflow, "workflow", member)
    · rw [if_pos hkey, SharingDb.memberOf_eq_some_iff]
      exact ⟨⟨row, ctx.projectId⟩, List.mem_append_right _ (List.mem_singleton_self _), hkey, rfl, rfl⟩
    · have hrow : [(⟨row, ctx.projectId⟩ : MemberRow)].find? (fun r => r.key = (workflow, "workflow", member)) = none := by
        rw [List.find?_eq_none]
        simpa [MemberRow.key] using hkey
      rw [if_neg hkey, SharingDb.memberOf, List.find?_append, hrow, Option.or_none, SharingDb.memberOf]

/-- The criterion of the project that has created a row. Without a member it is about all rows of the resource. -/
theorem ownerCriterion_iff {ctx : Context} {resourceId memberId : String} {r : MemberRow} :
    (getCriterion ctx resourceId (some memberId) true).any (· r) ↔
      r.projectId = ctx.projectId ∧ r.resourceId = resourceId ∧ (memberId = r.memberId ∨ memberId = "") := by
  by_cases hempty : memberId = ""
  · simp [getCriterion, Option.filter, hempty]
  · simp [getCriterion, Option.filter, hempty, and_assoc, eq_comm (a := memberId)]

theorem memberCriterion_iff {ctx : Context} {resourceId : String} {r : MemberRow} :
    (getCriterion ctx resourceId (some ctx.projectId) false).any (· r) ↔
      r.memberId = ctx.projectId ∧ r.resourceId = resourceId := by
  by_cases hempty : ctx.projectId = ""
  · simp [getCriterion, Option.filter, hempty]
  · simp [getCriterion, Option.filter, hempty]

/-- The row of a member is found for the member alone. -/
theorem memberOf_updateResourceMember {ctx : Context} {resourceId memberId : String} {t : SharingDb}
    (h : updateResourceMember ctx s resourceId "workflow" memberId status = .ok t) : t.rows = s.rows ∧
      ∀ workflow member, t.memberOf workflow member =
        if resourceId = workflow ∧ ctx.projectId = member then (s.memberOf workflow member).map fun m => (m.1, status)
        else s.memberOf workflow member := by
  unfold updateResourceMember at h
  split at h
  · cases h
  · next hself =>
    obtain rfl : memberId = ctx.projectId := by simpa using hself
    split at h
    · cases h
    · next row hrow =>
      cases h
      have hfound := List.find?_some hrow
      have hkey : row.key = (resourceId, "workflow", ctx.projectId) := by
        obtain ⟨htype, hcriterion⟩ := Bool.and_eq_true_iff.mp hfound
        obtain ⟨hmember, hresource⟩ := memberCriterion_iff.mp hcriterion
        rw [MemberRow.key, hresource, beq_iff_eq.mp htype, hmember]
      exact ⟨rfl, fun workflow member => by simp [SharingDb.memberOf_setStatus, hkey]⟩

/-- A member is deleted by the project that has created the row. -/
theorem memberOf_deleteResourceMember {ctx : Context} {resourceId memberId : String} {t : SharingDb}
    (h : deleteResourceMember ctx s resourceId "workflow" memberId = .ok t) : t.rows = s.rows ∧
      ∀ workflow member, t.memberOf workflow member = (s.memberOf workflow member).filter fun m =>
        ¬(resourceId = workflow ∧ (memberId = member ∨ memberId = "") ∧ ctx.projectId = m.1) := by
  unfold deleteResourceMember at h
  dsimp only at h
  split at h
  · cases h
    refine ⟨rfl, fun workflow member => ?_⟩
    rw [SharingDb.memberOf_withoutMembers, SharingDb.memberOf, Option.filter_map]
    congr 1
    cases hfind : s.members.find? fun r => r.key = (workflow, "workflow", member) with
    | none => rfl
    | some r =>
      obtain ⟨-, hkey⟩ := (find?_key_eq_some_iff s.uniqueMembers).mp hfind
      simp only [MemberRow.key, Prod.mk.injEq] at hkey
      obtain ⟨rfl, htype, rfl⟩ := hkey
      have hselected : (r.resourceType == "workflow" && (getCriterion ctx resourceId (some memberId) true).any (· r)) =
          decide (resourceId = r.resourceId ∧ (memberId = r.memberId ∨ memberId = "") ∧ ctx.projectId = r.projectId) := by
        rw [Bool.eq_iff_iff, Bool.and_eq_true_iff, ownerCriterion_iff, decide_eq_true_iff, beq_iff_eq]
        constructor
        · rintro ⟨-, hproject, hresource, hmember⟩
          exact ⟨hresource.symm, hmember, hproject.symm⟩
        · rintro ⟨hresource, hmember, hproject⟩
          exact ⟨htype, hproject.symm, hresource.symm, hmember⟩
      simp only [Option.filter, Function.comp, hselected, decide_not]
  · cases h

end

/-! ### Statements about workflows -/

section
variable {isUuidLike : String → Bool} {h : List SharingEvent} {ctx : Context} {db : Tables} {m : Model} {v : Values}
  {l : List Statement} {found : Option DbRow} {checked : Bool} {call : ApiCall}

/-- What a statement does with workflows: new ones have new ids, their names are no UUIDs, and ids stay. -/
def Statement.Sound (isUuidLike : String → Bool) (h : List SharingEvent) : Statement → Prop
  | .insert .workflowDefinition r => isUuidLike r.name = false ∧ NewId h r.id
  | .update .workflowDefinition _ v => v.Named isUuidLike
  | _ => True

/-- Rows of workflows stay, or are new ones with new ids. -/
theorem Statement.Sound.rows {st : Statement} (hst : st.Sound isUuidLike h) (r : DbRow)
    (hr : r ∈ (db.exec st).rows .workflowDefinition) :
    ((∃ r' ∈ db.rows .workflowDefinition, r'.id = r.id) ∨ NewId h r.id) ∧
      ((∀ r' ∈ db.rows .workflowDefinition, isUuidLike r'.name = false) → isUuidLike r.name = false) := by
  change r ∈ db.after .workflowDefinition st at hr
  have hkept : r ∈ db.rows .workflowDefinition → ((∃ r' ∈ db.rows .workflowDefinition, r'.id = r.id) ∨ NewId h r.id) ∧
      ((∀ r' ∈ db.rows .workflowDefinition, isUuidLike r'.name = false) → isUuidLike r.name = false) :=
    fun hr => ⟨.inl ⟨r, hr, rfl⟩, fun hall => hall r hr⟩
  cases st with
  | insert m r' =>
    rw [Tables.after_insert] at hr
    split at hr
    · next hm =>
      subst hm
      obtain hr | hr := List.mem_append.mp hr
      · exact hkept hr
      · rw [List.mem_singleton.mp hr]
        exact ⟨.inr hst.2, fun _ => hst.1⟩
    · exact hkept hr
  | update m id v =>
    rw [Tables.after_update] at hr
    split at hr
    · next hm =>
      subst hm
      obtain ⟨r', hr', rfl⟩ := List.mem_map.mp hr
      obtain ⟨hid, name, hname, huuid⟩ := hst
      split
      · exact ⟨.inl ⟨r', hr', by simp [DbRow.set, hid]⟩, fun _ => by simpa [DbRow.set, hname] using huuid⟩
      · exact ⟨.inl ⟨r', hr', rfl⟩, fun hall => hall r' hr'⟩
    · exact hkept hr
  | delete m p =>
    rw [Tables.after_delete] at hr
    split at hr
    · exact hkept (List.mem_filter.mp hr).1
    · split at hr
      · next hne => cases hne
      · exact hkept hr
  | deleteMembers type id => exact hkept hr

/-- What statements do with workflows, one after another. -/
theorem rows_foldl (hl : ∀ st ∈ l, st.Sound isUuidLike h) (r : DbRow)
    (hr : r ∈ (l.foldl Tables.exec db).rows .workflowDefinition) :
    ((∃ r' ∈ db.rows .workflowDefinition, r'.id = r.id) ∨ NewId h r.id) ∧
      ((∀ r' ∈ db.rows .workflowDefinition, isUuidLike r'.name = false) → isUuidLike r.name = false) := by
  induction l generalizing db with
  | nil => exact ⟨.inl ⟨r, hr, rfl⟩, fun hall => hall r hr⟩
  | cons st l ih =>
    obtain ⟨hst, hl⟩ := List.forall_mem_cons.mp hl
    obtain ⟨hid, hname⟩ := ih hl hr
    refine ⟨?_, fun hall => hname fun r' hr' => (hst.rows r' hr').2 hall⟩
    obtain ⟨r', hr', hr'id⟩ | hnew := hid
    · rw [← hr'id]
      exact (hst.rows r' hr').1
    · exact .inr hnew

/-- Statements about other tables do nothing with workflows. -/
theorem Issues.sound {targets dependants : List DbRow} (hissues : Issues db m targets dependants l)
    (hm : m ≠ .workflowDefinition) : ∀ st ∈ l, st.Sound isUuidLike h := by
  cases hissues <;> cases m <;> simp_all [Statement.Sound]

theorem create_sound {newId : String} (hv : v.Named isUuidLike) (hnew : NewId h newId) :
    ∀ st ∈ create ctx .workflowDefinition v newId, st.Sound isUuidLike h := by
  obtain ⟨hid, name, hname, huuid⟩ := hv
  rw [create, List.forall_mem_singleton]
  refine ⟨?_, ?_⟩
  · simpa [DbRow.set, Values.ownedBy, hname] using huuid
  · simpa [DbRow.set, Values.ownedBy, hid] using hnew

theorem updateWorkflowDefinition_sound {identifier : String} (hv : v.Named isUuidLike)
    (hl : updateWorkflowDefinition ctx db identifier v = .ok l) : ∀ st ∈ l, st.Sound isUuidLike h := by
  unfold updateWorkflowDefinition at hl
  split at hl
  · cases hl
  · next r _ =>
    obtain ⟨_, -, hl⟩ := bind_ok.mp hl
    obtain ⟨_, -, hl⟩ := bind_ok.mp hl
    cases hl
    rw [List.forall_mem_singleton]
    exact hv

/-- A call keeps the promises. -/
theorem ApiCall.sound (hsound : SharingRequest.Sound isUuidLike h (.call call)) {db : Database}
    (hl : call.statements ctx db.toTables = .ok l) : ∀ st ∈ l, st.Sound isUuidLike h := by
  by_cases hm : call.model = .workflowDefinition
  · cases call with
    | updateWorkflowDefinition identifier v => exact updateWorkflowDefinition_sound hsound hl
    | createOrUpdateWorkflowDefinition name v newId =>
      simp only [statements, Mistral.createOrUpdateWorkflowDefinition] at hl
      split at hl
      · exact updateWorkflowDefinition_sound hsound.1 hl
      · cases hl
        exact create_sound hsound.1 hsound.2
    | deleteWorkflowDefinition identifier nameSpace =>
      simp only [statements, Mistral.deleteWorkflowDefinition] at hl
      split at hl
      · cases hl
      · obtain ⟨_, -, hl⟩ := bind_ok.mp hl
        split at hl
        · cases hl
        · cases hl
          simp [Statement.Sound]
    | deleteWorkflowDefinitions filters =>
      cases hl
      simp [Statement.Sound]
    | _ => cases hm
  · exact (ApiCall.issues hl).sound hm

/-! ### Statements about members -/

/-- The members of a workflow are deleted with the workflow itself. -/
def KeepsMembers (db : Tables) (l : List Statement) : Prop :=
  ∀ r ∈ (l.foldl Tables.exec db).rows .workflowDefinition, ∀ st ∈ l, ∀ row : MemberRow,
    row.resourceId = r.id → st.deletesMember row = false

theorem keepsMembers_singleton {st : Statement} (hst : ∀ row, st.deletesMember row = false) : KeepsMembers db [st] := by
  intro r _ st' hst' row _
  rw [List.mem_singleton.mp hst']
  exact hst row

theorem updateFound_keepsMembers (hl : updateFound ctx m found checked v = .ok l) : KeepsMembers db l := by
  unfold updateFound at hl
  split at hl
  · cases hl
  · cases checked with
    | false =>
      cases hl
      exact keepsMembers_singleton fun _ => rfl
    | true =>
      obtain ⟨_, -, hl⟩ := bind_ok.mp hl
      cases hl
      exact keepsMembers_singleton fun _ => rfl

theorem deleteFound_keepsMembers (hl : deleteFound ctx m found checked = .ok l) : KeepsMembers db l := by
  unfold deleteFound at hl
  split at hl
  · cases hl
  · cases checked with
    | false =>
      cases hl
      exact keepsMembers_singleton fun _ => rfl
    | true =>
      obtain ⟨_, -, hl⟩ := bind_ok.mp hl
      cases hl
      exact keepsMembers_singleton fun _ => rfl

theorem deleteQuery_keepsMembers {p : DbRow → Bool} (hl : deleteQuery db m p = .ok l) : KeepsMembers db l := by
  unfold deleteQuery at hl
  split at hl
  · cases hl
    exact keepsMembers_singleton fun _ => rfl
  · cases hl

theorem deleteAll_keepsMembers {filters : DbRow → Bool} (hl : deleteAll ctx db m filters = .ok l) : KeepsMembers db l := by
  cases hl
  exact keepsMembers_singleton fun _ => rfl

theorem createOrUpdate_keepsMembers {isNew : Prop} [Decidable isNew] {newId : String}
    {update : Except DbError (List Statement)} (hupdate : update = .ok l → KeepsMembers db l)
    (hl : (if isNew then .ok (create ctx m v newId) else update) = .ok l) : KeepsMembers db l := by
  split at hl
  · cases hl
    exact keepsMembers_singleton fun _ => rfl
  · exact hupdate hl

theorem updateWorkflowDefinition_keepsMembers {identifier : String}
    (hl : updateWorkflowDefinition ctx db identifier v = .ok l) : KeepsMembers db l := by
  unfold updateWorkflowDefinition at hl
  split at hl
  · cases hl
  · obtain ⟨_, -, hl⟩ := bind_ok.mp hl
    obtain ⟨_, -, hl⟩ := bind_ok.mp hl
    cases hl
    exact keepsMembers_singleton fun _ => rfl

theorem deleteWorkflowDefinition_keepsMembers {identifier : String} {nameSpace : Option String}
    (hl : deleteWorkflowDefinition ctx db identifier nameSpace = .ok l) : KeepsMembers db l := by
  unfold deleteWorkflowDefinition at hl
  split at hl
  · cases hl
  · next wfDef _ =>
    obtain ⟨_, -, hl⟩ := bind_ok.mp hl
    split at hl
    · cases hl
    · cases hl
      intro r hr st hst row hrow
      have hkept : r ∈ (db.rows .workflowDefinition).filter fun r => !(r.id == wfDef.id) := hr
      have hne : r.id ≠ wfDef.id := by simpa using (List.mem_filter.mp hkept).2
      obtain rfl | hst := List.mem_cons.mp hst
      · simp [Statement.deletesMember, hrow, hne]
      · rw [List.mem_singleton.mp hst]
        rfl

theorem updateCronTrigger_keepsMembers {identifier : String} {queryFilter : Option (DbRow → Bool)}
    (hl : updateCronTrigger ctx db identifier v queryFilter = .ok l) : KeepsMembers db l := by
  unfold updateCronTrigger at hl
  split at hl
  · cases hl
  · exact updateFound_keepsMembers hl
  · cases hl
    split
    · exact keepsMembers_singleton fun _ => rfl
    · simp [KeepsMembers]

theorem updateCodeSource_keepsMembers {identifier : String} {nameSpace : Option String}
    (hl : updateCodeSource ctx db identifier v nameSpace = .ok l) : KeepsMembers db l := by
  unfold updateCodeSource at hl
  split at hl
  · cases hl
  · exact updateFound_keepsMembers hl

theorem ApiCall.keepsMembers (hl : call.statements ctx db = .ok l) : KeepsMembers db l := by
  cases call
  case updateWorkbook | updateDynamicActionDefinition | updateActionDefinition | updateEnvironment
      | updateEventTrigger =>
    exact updateFound_keepsMembers hl
  case deleteWorkbooks | deleteWorkflowDefinitions | deleteCodeSources | deleteDynamicActionDefinitions
      | deleteActionDefinitions | deleteEnvironments | deleteCronTriggers | deleteEventTriggers =>
    exact deleteAll_keepsMembers hl
  case deleteWorkbook | deleteEnvironment | deleteEventTrigger => exact deleteQuery_keepsMembers hl
  case deleteCodeSource | deleteCronTrigger | deleteActionDefinition => exact deleteFound_keepsMembers hl
  case deleteDynamicActionDefinition =>
    simp only [statements, Mistral.deleteDynamicActionDefinition] at hl
    split at hl
    · exact deleteFound_keepsMembers hl
    · cases hl
  case updateWorkflowDefinition => exact updateWorkflowDefinition_keepsMembers hl
  case deleteWorkflowDefinition => exact deleteWorkflowDefinition_keepsMembers hl
  case updateCodeSource => exact updateCodeSource_keepsMembers hl
  case updateCronTrigger => exact updateCronTrigger_keepsMembers hl
  case createOrUpdateWorkbook | createOrUpdateEnvironment | createOrUpdateActionDefinition =>
    exact createOrUpdate_keepsMembers updateFound_keepsMembers hl
  case createOrUpdateCronTrigger => exact createOrUpdate_keepsMembers updateCronTrigger_keepsMembers hl
  case createOrUpdateWorkflowDefinition =>
    simp only [statements, Mistral.createOrUpdateWorkflowDefinition] at hl
    split at hl
    · exact updateWorkflowDefinition_keepsMembers hl
    · cases hl
      exact keepsMembers_singleton fun _ => rfl

end

/-! ### What holds after every run -/

section
variable {isUuidLike : String → Bool} {accepts : Tables → List Statement → Bool} {h earlier : List SharingEvent}
  {s t : SharingDb} {ctx : Context} {e : SharingEvent} {workflow member : String} {request : SharingRequest}

/-- The rows of members are those that the history tells of. -/
structure SharingDb.Agrees (isUuidLike : String → Bool) (h : List SharingEvent) (s : SharingDb) : Prop where
  names : ∀ r ∈ s.rows .workflowDefinition, isUuidLike r.name = false
  members : ∀ r ∈ s.rows .workflowDefinition, ∀ member, s.memberOf r.id member = membership r.id member h
  new : ∀ workflow, NewId h workflow → ∀ member, s.memberOf workflow member = none

theorem NewId.of_cons (hnew : NewId (e :: h) workflow) : NewId h workflow :=
  fun e' he' => hnew e' (List.mem_cons_of_mem _ he')

theorem membership_post {resourceId memberId : String} :
    membership workflow member (⟨ctx, .postMember resourceId memberId, s⟩ :: h) =
      if resourceId = workflow ∧ memberId = member then some (ctx.projectId, "pending")
      else membership workflow member h := rfl

theorem membership_put {resourceId memberId status : String} :
    membership workflow member (⟨ctx, .putMember resourceId memberId status, s⟩ :: h) =
      if resourceId = workflow ∧ ctx.projectId = member then (membership workflow member h).map fun m => (m.1, status)
      else membership workflow member h := rfl

theorem membership_delete {resourceId memberId : String} :
    membership workflow member (⟨ctx, .deleteMember resourceId memberId, s⟩ :: h) =
      (membership workflow member h).filter fun m =>
        ¬(resourceId = workflow ∧ (memberId = member ∨ memberId = "") ∧ ctx.projectId = m.1) := rfl

theorem membership_of_newId (hnew : NewId h workflow) : membership workflow member h = none := by
  induction h with
  | nil => rfl
  | cons e h ih =>
    have ih := ih hnew.of_cons
    have hpost := hnew e List.mem_cons_self
    obtain ⟨ctx, request, before⟩ := e
    cases request with
    | postMember resourceId memberId =>
      have hne : ¬(resourceId = workflow ∧ memberId = member) := by
        rintro ⟨rfl, rfl⟩
        exact hpost memberId rfl
      rw [membership_post, if_neg hne]
      exact ih
    | putMember resourceId memberId status => simp [membership_put, ih]
    | deleteMember resourceId memberId => simp [membership_delete, ih]
    | call c => exact ih
    | createWorkflowDefinition v newId => exact ih

/-- What a flush leaves of the rows of members. -/
theorem SharingDb.flush_ok {l : List Statement} (hflush : s.flush accepts l = .ok t) :
    t.rows = (l.foldl Tables.exec s.toDatabase.toTables).rows ∧
      ∀ workflow member, t.memberOf workflow member =
        ((s.members.find? fun r => r.key = (workflow, "workflow", member)).filter
          fun r => !l.any (·.deletesMember r)).map fun r => (r.projectId, r.status) := by
  unfold SharingDb.flush at hflush
  split at hflush
  · cases hflush
  · next db hdb =>
    cases hflush
    unfold Database.flush at hdb
    dsimp only at hdb
    split at hdb
    · cases hdb
      exact ⟨rfl, fun workflow member => SharingDb.memberOf_withoutMembers _⟩
    · cases hdb

/-- Statements that are no requests about members keep what the history tells of. -/
theorem SharingDb.Agrees.flush {l : List Statement} (hs : s.Agrees isUuidLike h) (hl : ∀ st ∈ l, st.Sound isUuidLike h)
    (hkeeps : KeepsMembers s.toDatabase.toTables l) (hflush : s.flush accepts l = .ok t)
    (hsame : ∀ workflow member, membership workflow member (e :: h) = membership workflow member h) :
    t.Agrees isUuidLike (e :: h) := by
  obtain ⟨hrows, hmembers⟩ := SharingDb.flush_ok hflush
  refine ⟨fun r hr => ?_, fun r hr member => ?_, fun workflow hnew member => ?_⟩
  · rw [hrows] at hr
    exact (rows_foldl hl r hr).2 hs.names
  · rw [hrows] at hr
    have hkept : t.memberOf r.id member = s.memberOf r.id member := by
      rw [hmembers, SharingDb.memberOf]
      cases hfind : s.members.find? fun row => row.key = (r.id, "workflow", member) with
      | none => rfl
      | some row =>
        have hkey := ((find?_key_eq_some_iff s.uniqueMembers).mp hfind).2
        simp only [MemberRow.key, Prod.mk.injEq] at hkey
        have hany : l.any (·.deletesMember row) = false :=
          List.any_eq_false.mpr fun st hst => by simp [hkeeps r hr st hst row hkey.1]
        simp [Option.filter, hany]
    rw [hkept, hsame]
    obtain ⟨r', hr', hid⟩ | hnew := (rows_foldl hl r hr).1
    · rw [← hid]
      exact hs.members r' hr' member
    · rw [hs.new _ hnew, membership_of_newId hnew]
  · have hnone : s.members.find? (fun r => r.key = (workflow, "workflow", member)) = none := by
      simpa [SharingDb.memberOf] using hs.new workflow hnew.of_cons member
    rw [hmembers, hnone]
    rfl

/-- Every request keeps what the history tells of. -/
theorem SharingDb.Agrees.step (hs : s.Agrees isUuidLike h) (hsound : request.Sound isUuidLike h)
    (hstep : request.run isUuidLike accepts ctx s = .ok t) : t.Agrees isUuidLike (⟨ctx, request, s⟩ :: h) := by
  cases request with
  | call c =>
    simp only [SharingRequest.run] at hstep
    split at hstep
    · cases hstep
    · next l hl => exact hs.flush (ApiCall.sound hsound hl) (ApiCall.keepsMembers hl) hstep fun _ _ => rfl
  | createWorkflowDefinition v newId =>
    exact hs.flush (create_sound hsound.1 hsound.2) (keepsMembers_singleton fun _ => rfl) hstep fun _ _ => rfl
  | postMember resourceId memberId =>
    simp only [SharingRequest.run, MembersController.post] at hstep
    split at hstep
    · split at hstep
      · cases hstep
      · split at hstep
        · cases hstep
        · split at hstep
          · cases hstep
          · obtain ⟨hrows, hmember⟩ := memberOf_createResourceMember hstep
            simp only [Prod.mk.injEq, true_and] at hmember
            refine ⟨hrows ▸ hs.names, fun r hr member => ?_, fun workflow hnew member => ?_⟩
            · rw [hmember, membership_post, hs.members r (hrows ▸ hr)]
            · rw [hmember, if_neg, hs.new workflow hnew.of_cons]
              rintro ⟨rfl, rfl⟩
              exact hnew _ List.mem_cons_self memberId rfl
    · cases hstep
  | putMember resourceId memberId status =>
    simp only [SharingRequest.run, MembersController.put] at hstep
    split at hstep
    · split at hstep
      · cases hstep
      · obtain ⟨hrows, hmember⟩ := memberOf_updateResourceMember hstep
        refine ⟨hrows ▸ hs.names, fun r hr member => ?_, fun workflow hnew member => ?_⟩
        · rw [hmember, membership_put, hs.members r (hrows ▸ hr)]
        · rw [hmember, hs.new workflow hnew.of_cons]
          simp
    · cases hstep
  | deleteMember resourceId memberId =>
    simp only [SharingRequest.run, MembersController.delete] at hstep
    split at hstep
    · obtain ⟨hrows, hmember⟩ := memberOf_deleteResourceMember hstep
      refine ⟨hrows ▸ hs.names, fun r hr member => ?_, fun workflow hnew member => ?_⟩
      · rw [hmember, membership_delete, hs.members r (hrows ▸ hr)]
      · rw [hmember, hs.new workflow hnew.of_cons]
        simp
    · cases hstep

theorem SharingRun.agrees (hrun : SharingRun isUuidLike accepts h s) : s.Agrees isUuidLike h := by
  induction hrun with
  | start hmembers hnames =>
    have hnone : ∀ workflow member, SharingDb.memberOf _ workflow member = none := fun workflow member => by
      rw [SharingDb.memberOf, hmembers]
      rfl
    exact ⟨hnames, fun r _ member => hnone r.id member, fun workflow _ member => hnone workflow member⟩
  | step _ hsound hstep ih => exact ih.step hsound hstep

/-! ### Who sees a workflow -/

/-- A workflow is visible to its owner, when it is public, and to members that have accepted it. -/
theorem visible_iff {r : DbRow} :
    r.visible ctx (getAcceptedResources ctx s.toDatabase.toTables .workflowDefinition) ↔
      r.projectId = ctx.projectId ∨ r.scope = "public" ∨ ∃ creator, s.memberOf r.id ctx.projectId = some (creator, "accepted") := by
  have haccepted : (getAcceptedResources ctx s.toDatabase.toTables .workflowDefinition).contains r.id ↔
      ∃ creator, s.memberOf r.id ctx.projectId = some (creator, "accepted") := by
    simp only [SharingDb.memberOf_eq_some_iff, getAcceptedResources, resourceType, SharingDb.toDatabase, List.contains_iff_mem,
      List.mem_map, List.mem_filter, Bool.and_eq_true, beq_iff_eq]
    constructor
    · rintro ⟨_, ⟨⟨row, hrow, rfl⟩, ⟨htype, hstatus⟩, hmember⟩, hid⟩
      exact ⟨row.projectId, row, hrow, by simp [MemberRow.key, hid, htype, hmember], rfl, hstatus⟩
    · rintro ⟨_, row, hrow, hkey, -, hstatus⟩
      simp only [MemberRow.key, Prod.mk.injEq] at hkey
      exact ⟨row.toResourceMember, ⟨⟨row, hrow, rfl⟩, ⟨hkey.2.1, hstatus⟩, hkey.2.2⟩, hkey.1⟩
  simp only [DbRow.visible, Bool.or_eq_true, beq_iff_eq, haccepted, or_assoc]

/-- The tables that a request of a run found. -/
theorem SharingRun.split {later : List SharingEvent} (hrun : SharingRun isUuidLike accepts (later ++ e :: earlier) s) :
    SharingRun isUuidLike accepts earlier e.before ∧
      ∃ t, e.request.run isUuidLike accepts e.ctx e.before = .ok t := by
  induction later generalizing s with
  | nil =>
    cases hrun with
    | step hrun _ hstep => exact ⟨hrun, _, hstep⟩
  | cons e' later ih =>
    cases hrun with
    | step hrun _ _ => exact ih hrun

/-- A workflow is shared by an administrator, its owner, or a member that has accepted it. -/
theorem shared_by (hrun : SharingRun isUuidLike accepts earlier e.before) (hpost : e.request = .postMember workflow member)
    (hstep : ∃ t, e.request.run isUuidLike accepts e.ctx e.before = .ok t) :
    e.ctx.isAdmin ∨ e.Owns workflow ∨ ∃ creator, membership workflow e.ctx.projectId earlier = some (creator, "accepted") := by
  obtain ⟨t, hstep⟩ := hstep
  have hagrees := hrun.agrees
  rw [hpost, SharingRequest.run] at hstep
  split at hstep
  case isFalse => cases hstep
  case isTrue huuid =>
    unfold MembersController.post at hstep
    split at hstep
    · cases hstep
    · split at hstep
      · cases hstep
      · next wfDb hfound =>
        split at hstep
        · cases hstep
        · next hprivate =>
          have hmem := List.mem_of_find?_eq_some hfound
          have hmatch := List.find?_some hfound
          have hmem' : wfDb ∈ e.before.toDatabase.rows .workflowDefinition := mem_query hmem
          have hrow : wfDb ∈ e.before.rows .workflowDefinition := hmem'
          have hname : wfDb.name ≠ workflow := by
            rintro rfl
            rw [hagrees.names wfDb hrow] at huuid
            cases huuid
          have hid : wfDb.id = workflow := by
            simpa [DbRow.hasNameOrId, hname] using hmatch
          cases hadmin : e.ctx.isAdmin with
          | true => exact .inl rfl
          | false =>
            simp only [query, hadmin, Bool.or_self, Bool.false_eq_true, if_false] at hmem
            obtain hown | hpublic | ⟨creator, haccepted⟩ := visible_iff.mp (List.mem_filter.mp hmem).2
            · exact .inr (.inl ⟨wfDb, hrow, hid, hown⟩)
            · simp [hpublic] at hprivate
            · refine .inr (.inr ⟨creator, ?_⟩)
              rw [← hid, ← hagrees.members wfDb hrow, haccepted]

/-- The request that has made a project a member. -/
theorem exists_share {creator status : String} (hmember : membership workflow member h = some (creator, status)) :
    ∃ later e earlier, h = later ++ e :: earlier ∧ (∀ e' ∈ later, e'.request ≠ .postMember workflow member) ∧
      e.request = .postMember workflow member ∧ e.ctx.projectId = creator := by
  induction h generalizing status with
  | nil => cases hmember
  | cons e h ih =>
    by_cases hpost : e.request = .postMember workflow member
    · refine ⟨[], e, h, rfl, by simp, hpost, ?_⟩
      rw [membership, hpost] at hmember
      simp at hmember
      exact hmember.1
    · obtain ⟨status', hbefore⟩ : ∃ status', membership workflow member h = some (creator, status') := by
        obtain ⟨ctx, request, before⟩ := e
        cases request with
        | postMember resourceId memberId =>
          have hne : ¬(resourceId = workflow ∧ memberId = member) := by
            rintro ⟨rfl, rfl⟩
            exact hpost rfl
          rw [membership_post, if_neg hne] at hmember
          exact ⟨_, hmember⟩
        | putMember resourceId memberId status' =>
          rw [membership_put] at hmember
          split at hmember
          · obtain ⟨m, hm, heq⟩ := Option.map_eq_some_iff.mp hmember
            exact ⟨m.2, by rw [hm, ← (Prod.mk.inj heq).1]⟩
          · exact ⟨_, hmember⟩
        | deleteMember resourceId memberId =>
          rw [membership_delete] at hmember
          exact ⟨_, (Option.filter_eq_some_iff.mp hmember).1⟩
        | call c => exact ⟨_, hmember⟩
        | createWorkflowDefinition v newId => exact ⟨_, hmember⟩
      obtain ⟨later, e₀, earlier, rfl, hlater, hrest⟩ := ih hbefore
      exact ⟨e :: later, e₀, earlier, rfl, List.forall_mem_cons.mpr ⟨hpost, hlater⟩, hrest⟩

/-- A member that has accepted a workflow was given it. -/
theorem granted_of_accepted {creator : String} (hrun : SharingRun isUuidLike accepts h s)
    (haccepted : membership workflow member h = some (creator, "accepted")) : Granted workflow h member := by
  induction hlength : h.length using Nat.strong_induction_on generalizing h s member creator with
  | _ n ih =>
    obtain ⟨later, e, earlier, rfl, hlater, hpost, rfl⟩ := exists_share haccepted
    have hshare : LastShare workflow member (later ++ e :: earlier) e earlier := ⟨⟨later, rfl, hlater⟩, hpost, haccepted⟩
    obtain ⟨hbefore, hstep⟩ := hrun.split
    obtain hadmin | howns | ⟨creator, hmember⟩ := shared_by hbefore hpost hstep
    · exact .admin hshare hadmin
    · exact .owner hshare howns
    · have hlt : earlier.length < n := by
        rw [← hlength, List.length_append, List.length_cons]
        omega
      exact .member hshare (ih _ hlt hbefore hmember rfl)

/-- After every run of requests of any projects, a project sees a workflow of another one if and only if it is public, or
    the project has accepted the workflow, as its own last answer, from a project that has shared it and has not taken
    that back, where each project that shared it was its owner, an administrator, or was given it before in this way. -/
theorem workflow_seen_iff (hrun : SharingRun isUuidLike accepts h s) {w : DbRow} (hw : w ∈ s.rows .workflowDefinition)
    (ctx : Context) : w ∈ secureQuery ctx s.toDatabase.toTables .workflowDefinition ↔
      w.projectId = ctx.projectId ∨ w.scope = "public" ∨ Granted w.id h ctx.projectId := by
  have hmem : w ∈ secureQuery ctx s.toDatabase.toTables .workflowDefinition ↔
      w.visible ctx (getAcceptedResources ctx s.toDatabase.toTables .workflowDefinition) :=
    List.mem_filter.trans (and_iff_right hw)
  rw [hmem, visible_iff, hrun.agrees.members w hw]
  refine or_congr Iff.rfl (or_congr Iff.rfl ⟨?_, ?_⟩)
  · rintro ⟨creator, haccepted⟩
    exact granted_of_accepted hrun haccepted
  · intro hgranted
    cases hgranted with
    | admin hshare _ => exact ⟨_, hshare.accepted⟩
    | owner hshare _ => exact ⟨_, hshare.accepted⟩
    | member hshare _ => exact ⟨_, hshare.accepted⟩

end

/-! ### A workflow that its owner shares -/

def sharedId : String := "123e4567-e89b-12d3-a456-426655440011"

/-- A private workflow, and what is known of its member. -/
def oneWorkflow (members : List MemberRow) (h : (members.map MemberRow.key).Nodup) : SharingDb where
  rows := fun m => if m = .workflowDefinition then [{ id := sharedId, name := "wf", projectId := "owner" }] else []
  members := members
  uniqueIds := fun m => by
    split
    · exact List.nodup_singleton _
    · exact List.nodup_nil
  uniqueMembers := h

def guestRow (status : String) : MemberRow :=
  { resourceId := sharedId, resourceType := "workflow", memberId := "guest", status, projectId := "owner" }

def guestIs (status : String) : SharingDb := oneWorkflow [guestRow status] (List.nodup_singleton _)

def nobody : SharingDb := oneWorkflow [] List.nodup_nil

def shareHistory : List SharingEvent :=
  [⟨⟨"guest", false⟩, .putMember sharedId "guest" "accepted", guestIs "pending"⟩,
    ⟨⟨"owner", false⟩, .postMember sharedId "guest", nobody⟩]

theorem shareHistory_run : SharingRun (· == sharedId) (fun _ _ => true) shareHistory (guestIs "accepted") := by
  refine .step (.step (.start rfl ?_) trivial ?_) trivial ?_
  · simp [nobody, oneWorkflow, sharedId]
  · rfl
  · rfl

theorem workflow_seen_by_guest :
    (guestIs "accepted").rows .workflowDefinition = [{ id := sharedId, name := "wf", projectId := "owner" }] ∧
      Granted sharedId shareHistory "guest" := by
  refine ⟨rfl, ?_⟩
  obtain h | h | h := (workflow_seen_iff shareHistory_run (List.mem_singleton_self _) ⟨"guest", false⟩).mp (by decide)
  · exact absurd h (by decide)
  · exact absurd h (by decide)
  · exact h

end Mistral
