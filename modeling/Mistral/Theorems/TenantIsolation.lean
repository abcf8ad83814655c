import Mistral.Db.Api

/-! What the calls of one project leave of the rows of the others. -/

namespace Mistral

/-! ### What a call is aimed at -/

section
variable (ctx : Context) (db : Tables)

/-- The table that a call is about. -/
def ApiCall.model : ApiCall → Model
  | updateWorkbook .. | createOrUpdateWorkbook .. | deleteWorkbook .. | deleteWorkbooks .. => .workbook
  | updateWorkflowDefinition .. | createOrUpdateWorkflowDefinition .. | deleteWorkflowDefinition ..
  | deleteWorkflowDefinitions .. => .workflowDefinition
  | updateCodeSource .. | deleteCodeSource .. | deleteCodeSources .. => .codeSource
  | updateDynamicActionDefinition .. | deleteDynamicActionDefinition .. | deleteDynamicActionDefinitions .. =>
    .dynamicActionDefinition
  | updateActionDefinition .. | createOrUpdateActionDefinition .. | deleteActionDefinition ..
  | deleteActionDefinitions .. => .actionDefinition
  | updateEnvironment .. | createOrUpdateEnvironment .. | deleteEnvironment .. | deleteEnvironments .. => .environment
  | updateCronTrigger .. | createOrUpdateCronTrigger .. | deleteCronTrigger .. | deleteCronTriggers .. => .cronTrigger
  | updateEventTrigger .. | deleteEventTrigger .. | deleteEventTriggers .. => .eventTrigger

/-- The rows that a call is aimed at: the one that its identifier leads to, or those that its criterion selects. -/
def ApiCall.targets : ApiCall → List DbRow
  | updateWorkbook name v => (getWorkbook ctx db name v.getNamespace).toList
  | createOrUpdateWorkbook name v _ =>
    if (getDbObjectByName ctx db .workbook name).isNone then [] else (getWorkbook ctx db name v.getNamespace).toList
  | deleteWorkbook name nameSpace =>
    (db.rows .workbook).filter
      (DbRow.selected ctx db .workbook fun r => r.name == name && r.nameSpace == some (nameSpace.getD ""))
  | deleteWorkbooks filters => (db.rows .workbook).filter (DbRow.selected ctx db .workbook filters)
  | updateWorkflowDefinition identifier v | createOrUpdateWorkflowDefinition identifier v _ =>
    (getWorkflowDefinition ctx db identifier v.getNamespace).toList
  | deleteWorkflowDefinition identifier nameSpace => (getWorkflowDefinition ctx db identifier nameSpace).toList
  | deleteWorkflowDefinitions filters =>
    (db.rows .workflowDefinition).filter (DbRow.selected ctx db .workflowDefinition filters)
  | updateCodeSource identifier _ nameSpace | deleteCodeSource identifier nameSpace =>
    (getCodeSource ctx db identifier nameSpace).toList
  | deleteCodeSources filters => (db.rows .codeSource).filter (DbRow.selected ctx db .codeSource filters)
  | updateDynamicActionDefinition identifier _ nameSpace =>
    (getDynamicActionDefinition ctx db identifier nameSpace).toList
  | deleteDynamicActionDefinition identifier _ => (getDynamicActionDefinition ctx db identifier (some "")).toList
  | deleteDynamicActionDefinitions filters =>
    (db.rows .dynamicActionDefinition).filter (DbRow.selected ctx db .dynamicActionDefinition filters)
  | updateActionDefinition identifier v => (getActionDefinition ctx db identifier (v.nameSpace.getD (some ""))).toList
  | createOrUpdateActionDefinition name v _ =>
    if (getDbObjectByNameAndNamespace ctx db .actionDefinition name (v.nameSpace.getD (some ""))).isNone then []
    else (getActionDefinition ctx db name (v.nameSpace.getD (some ""))).toList
  | deleteActionDefinition identifier nameSpace => (getActionDefinition ctx db identifier nameSpace).toList
  | deleteActionDefinitions filters => (db.rows .actionDefinition).filter (DbRow.selected ctx db .actionDefinition filters)
  | updateEnvironment name _ | createOrUpdateEnvironment name _ _ => (getEnvironment ctx db name).toList
  | deleteEnvironment name => (db.rows .environment).filter (DbRow.selected ctx db .environment (·.name == name))
  | deleteEnvironments filters => (db.rows .environment).filter (DbRow.selected ctx db .environment filters)
  | updateCronTrigger identifier _ _ | createOrUpdateCronTrigger identifier _ _ | deleteCronTrigger identifier =>
    (getCronTrigger ctx db identifier).toList
  | deleteCronTriggers filters => (db.rows .cronTrigger).filter (DbRow.selected ctx db .cronTrigger filters)
  | updateEventTrigger id _ => (getEventTrigger ctx db id false).toList
  | deleteEventTrigger id => (db.rows .eventTrigger).filter (·.id == id)
  | deleteEventTriggers filters => (db.rows .eventTrigger).filter (DbRow.selected ctx db .eventTrigger filters)

/-- The functions that check who owns the row. -/
def ApiCall.checksAccess : ApiCall → Bool
  | updateWorkflowDefinition .. | createOrUpdateWorkflowDefinition .. | deleteWorkflowDefinition ..
  | deleteCronTrigger .. => true
  | _ => false

/-- The call that hands a namespace on as columns, which fails. -/
def ApiCall.misreadsNamespace : ApiCall → Bool
  | deleteDynamicActionDefinition _ nameSpace => nameSpace != some ""
  | _ => false

/-- The dynamic actions of code sources. -/
def actionsOf (sources : List DbRow) : List DbRow :=
  (db.rows .dynamicActionDefinition).filter fun r => r.codeSourceId.any fun id => sources.any (·.id == id)

/-- The rows that go with those that a call deletes. -/
def ApiCall.dependants (call : ApiCall) : List DbRow :=
  match call with
  | deleteCodeSource .. | deleteCodeSources .. => actionsOf db (call.targets ctx db)
  | _ => []

end

/-- The call leaves the rows of other projects as they are, and fails if it is aimed at one of them. -/
def Isolated (accepts : Tables → List Statement → Bool) (ctx : Context) (db : Database) (call : ApiCall) : Prop :=
  (∀ db', call.run accepts ctx db = .ok db' → ∀ m, ∀ r ∈ db.rows m, r.projectId ≠ ctx.projectId → r ∈ db'.rows m) ∧
    ((∃ r ∈ call.targets ctx db.toTables, r.projectId ≠ ctx.projectId) → ∃ e, call.run accepts ctx db = .error e)

/-! ### Statements that change rows of one project -/

/-- A statement changes only rows of the project. -/
def Confined (project : String) (db : Tables) : Statement → Prop
  | .insert .. => True
  | .update m id _ => ∀ r ∈ db.rows m, r.id = id → r.projectId = project
  | .delete m p =>
    (∀ r ∈ db.rows m, p r → r.projectId = project) ∧
      (m = .codeSource → ∀ r ∈ db.rows .dynamicActionDefinition,
        r.codeSourceId.any (Statement.deletesSource db (.delete m p)) → r.projectId = project)
  | .deleteMembers .. => True

section
variable {project : String} {db : Tables} {m : Model} {r : DbRow} {s : Statement}

theorem Confined.mem_exec (h : Confined project db s) (hr : r ∈ db.rows m) (hforeign : r.projectId ≠ project) :
    r ∈ (db.exec s).rows m := by
  show r ∈ db.after m s
  cases s with
  | insert m' r' =>
    rw [Tables.after_insert]
    split
    · exact List.mem_append_left _ hr
    · exact hr
  | update m' id v =>
    rw [Tables.after_update]
    split
    · next hm =>
      subst hm
      have hid : ¬r.id = id := fun hid => hforeign (h r hr hid)
      exact List.mem_map.mpr ⟨r, hr, if_neg (by simpa using hid)⟩
    · exact hr
  | delete m' p =>
    obtain ⟨hrows, hactions⟩ := h
    rw [Tables.after_delete]
    split
    · next hm =>
      subst hm
      have hp : ¬p r := fun hp => hforeign (hrows r hr hp)
      exact List.mem_filter.mpr ⟨hr, by simpa using hp⟩
    · split
      · next hm =>
        subst hm
        have hkept : ¬r.codeSourceId.any (Statement.deletesSource db (.delete m' p)) := fun hgone =>
          hforeign (hactions (Statement.eq_codeSource_of_deletesSource db m' hgone) r hr hgone)
        exact List.mem_filter.mpr ⟨hr, by simpa using hkept⟩
      · exact hr
  | deleteMembers type id => exact hr

end

/-! ### What a call issues -/

/-- The statements of a call that is aimed at the given rows of a table, with the rows that go with them. -/
inductive Issues (db : Tables) (m : Model) (targets dependants : List DbRow) : List Statement → Prop
  | insert (r : DbRow) (h : targets = []) (hd : dependants = []) : Issues db m targets dependants [.insert m r]
  | update (r : DbRow) (v : Values) (h : targets = [r]) (hd : dependants = []) :
    Issues db m targets dependants [.update m r.id v]
  | none (r : DbRow) (h : targets = [r]) (hd : dependants = []) : Issues db m targets dependants []
  | delete (p : DbRow → Bool) (h : ∀ r ∈ db.rows m, p r ↔ r ∈ targets)
      (hd : dependants = if m = .codeSource then actionsOf db targets else []) :
    Issues db m targets dependants [.delete m p]
  | deleteWithMembers (p : DbRow → Bool) (type id : String) (hm : m ≠ .codeSource)
      (h : ∀ r ∈ db.rows m, p r ↔ r ∈ targets) (hd : dependants = []) :
    Issues db m targets dependants [.deleteMembers type id, .delete m p]

section
variable {ctx : Context} {db : Database} {m : Model} {found : Option DbRow} {checked : Bool} {v : Values} {r : DbRow}
  {l : List Statement} {targets dependants : List DbRow} {call : ApiCall}

theorem eq_of_id {r r' : DbRow} (hr : r ∈ db.rows m) (hr' : r' ∈ db.rows m) (h : r.id = r'.id) : r = r' :=
  List.inj_on_of_nodup_map (db.uniqueIds m) hr hr' h

theorem id_iff_mem (hr : r ∈ db.rows m) : ∀ r' ∈ db.rows m, (r'.id == r.id) ↔ r' ∈ [r] := by
  intro r' hr'
  rw [beq_iff_eq, List.mem_singleton]
  exact ⟨eq_of_id hr' hr, fun h => h ▸ rfl⟩

theorem checkDbObjAccess_ok (hadmin : ctx.isAdmin = false) (h : checkDbObjAccess ctx r = .ok ()) :
    r.projectId = ctx.projectId := by
  unfold checkDbObjAccess at h
  rw [hadmin] at h
  split at h
  · cases h
  · next hown => simpa using hown

theorem mem_secureQuery (h : r ∈ secureQuery ctx db.toTables m) : r ∈ db.rows m := (List.mem_filter.mp h).1

theorem mem_query {insecure : Bool} (h : r ∈ query ctx db.toTables m insecure) : r ∈ db.rows m := by
  unfold query at h
  split at h
  · exact h
  · exact mem_secureQuery h

theorem mem_of_getDbObjectByName {name : String} (h : getDbObjectByName ctx db.toTables m name = some r) :
    r ∈ db.rows m :=
  mem_secureQuery (List.mem_of_find?_eq_some h)

theorem mem_of_getDbObjectById {id : String} {insecure : Bool}
    (h : getDbObjectById ctx db.toTables m id insecure = some r) : r ∈ db.rows m :=
  mem_query (List.mem_of_find?_eq_some h)

theorem mem_of_nameAndNamespace {name : String} {nameSpace : Option String}
    (h : getDbObjectByNameAndNamespace ctx db.toTables m name nameSpace = some r) : r ∈ db.rows m :=
  mem_query (List.mem_of_find?_eq_some h)

theorem mem_of_nameAndNamespaceOrId {identifier : String} {nameSpace : Option String}
    (h : getDbObjectByNameAndNamespaceOrId ctx db.toTables m identifier nameSpace = some r) : r ∈ db.rows m :=
  mem_query (List.mem_of_find?_eq_some h)

theorem mem_of_getActionDefinition {identifier : String} {nameSpace : Option String}
    (h : getActionDefinition ctx db.toTables identifier nameSpace = some r) : r ∈ db.rows .actionDefinition :=
  (Option.or_eq_some_iff.mp h).elim mem_of_nameAndNamespaceOrId fun h => mem_of_nameAndNamespaceOrId h.2

/-- A call is aimed at rows of its table. -/
theorem ApiCall.targets_mem (h : r ∈ call.targets ctx db.toTables) : r ∈ db.rows call.model := by
  cases call
  case updateWorkbook => exact mem_of_nameAndNamespace (Option.mem_toList.mp h)
  case createOrUpdateWorkbook =>
    simp only [targets] at h
    split at h
    · cases h
    · exact mem_of_nameAndNamespace (Option.mem_toList.mp h)
  case createOrUpdateActionDefinition =>
    simp only [targets] at h
    split at h
    · cases h
    · exact mem_of_getActionDefinition (Option.mem_toList.mp h)
  case updateActionDefinition | deleteActionDefinition => exact mem_of_getActionDefinition (Option.mem_toList.mp h)
  case updateEnvironment | createOrUpdateEnvironment => exact mem_of_getDbObjectByName (Option.mem_toList.mp h)
  case updateEventTrigger => exact mem_of_getDbObjectById (Option.mem_toList.mp h)
  case deleteWorkbook | deleteWorkbooks | deleteWorkflowDefinitions | deleteCodeSources | deleteDynamicActionDefinitions
      | deleteActionDefinitions | deleteEnvironment | deleteEnvironments | deleteCronTriggers | deleteEventTrigger
      | deleteEventTriggers =>
    exact (List.mem_filter.mp h).1
  all_goals exact mem_of_nameAndNamespaceOrId (Option.mem_toList.mp h)

/-! ### Each shared part -/

theorem updateFound_issues (h : updateFound ctx m found checked v = .ok l) :
    Issues db.toTables m found.toList [] l := by
  cases found with
  | none => cases h
  | some r =>
    cases checked with
    | false =>
      cases h
      exact .update r _ rfl rfl
    | true =>
      simp only [updateFound, if_true] at h
      cases hcheck : checkDbObjAccess ctx r with
      | error e =>
        rw [hcheck] at h
        cases h
      | ok =>
        rw [hcheck] at h
        cases h
        exact .update r _ rfl rfl

theorem deleteFound_issues (hmem : ∀ r ∈ found, r ∈ db.rows m) (h : deleteFound ctx m found checked = .ok l)
    (hd : dependants = if m = .codeSource then actionsOf db.toTables found.toList else []) :
    Issues db.toTables m found.toList dependants l := by
  cases found with
  | none => cases h
  | some r =>
    have hdelete : Issues db.toTables m [r] dependants [.delete m (·.id == r.id)] :=
      .delete _ (id_iff_mem (hmem r rfl)) hd
    cases checked with
    | false =>
      cases h
      exact hdelete
    | true =>
      simp only [deleteFound, if_true] at h
      cases hcheck : checkDbObjAccess ctx r with
      | error e =>
        rw [hcheck] at h
        cases h
      | ok =>
        rw [hcheck] at h
        cases h
        exact hdelete

theorem delete_issues (p : DbRow → Bool)
    (hd : dependants = if m = .codeSource then actionsOf db.toTables ((db.rows m).filter p) else []) :
    Issues db.toTables m ((db.rows m).filter p) dependants [.delete m p] :=
  .delete p (fun r hr => by rw [List.mem_filter, and_iff_right hr]) hd

theorem deleteQuery_issues {p : DbRow → Bool} (h : deleteQuery db.toTables m p = .ok l)
    (hd : dependants = if m = .codeSource then actionsOf db.toTables ((db.rows m).filter p) else []) :
    Issues db.toTables m ((db.rows m).filter p) dependants l := by
  unfold deleteQuery at h
  split at h
  · cases h
    exact delete_issues p hd
  · cases h

theorem deleteAll_issues {filters : DbRow → Bool} (h : deleteAll ctx db.toTables m filters = .ok l)
    (hd : dependants = if m = .codeSource then
      actionsOf db.toTables ((db.rows m).filter (DbRow.selected ctx db.toTables m filters)) else []) :
    Issues db.toTables m ((db.rows m).filter (DbRow.selected ctx db.toTables m filters)) dependants l := by
  cases h
  exact delete_issues _ hd

theorem updateWorkflowDefinition_issues {identifier : String}
    (h : updateWorkflowDefinition ctx db.toTables identifier v = .ok l) :
    Issues db.toTables .workflowDefinition (getWorkflowDefinition ctx db.toTables identifier v.getNamespace).toList [] l := by
  unfold updateWorkflowDefinition at h
  split at h
  · cases h
  · next r hfound =>
    rw [hfound]
    cases hcheck : checkDbObjAccess ctx r with
    | error e =>
      rw [hcheck] at h
      cases h
    | ok =>
      cases hscope : checkScope db.toTables r v with
      | error e =>
        rw [hcheck, hscope] at h
        cases h
      | ok =>
        rw [hcheck, hscope] at h
        cases h
        exact .update r _ rfl rfl

theorem deleteWorkflowDefinition_issues {identifier : String} {nameSpace : Option String}
    (h : deleteWorkflowDefinition ctx db.toTables identifier nameSpace = .ok l) :
    Issues db.toTables .workflowDefinition (getWorkflowDefinition ctx db.toTables identifier nameSpace).toList [] l := by
  unfold deleteWorkflowDefinition at h
  split at h
  · cases h
  · next r hfound =>
    rw [hfound]
    cases hcheck : checkDbObjAccess ctx r with
    | error e =>
      rw [hcheck] at h
      cases h
    | ok =>
      simp only [hcheck] at h
      change (if _ then _ else _) = _ at h
      split at h
      · cases h
      · cases h
        exact .deleteWithMembers _ _ _ nofun (id_iff_mem (mem_of_nameAndNamespaceOrId hfound)) rfl

/-! ### Each call -/

theorem updateCodeSource_issues {identifier : String} {nameSpace : Option String}
    (h : updateCodeSource ctx db.toTables identifier v nameSpace = .ok l) :
    Issues db.toTables .codeSource (getCodeSource ctx db.toTables identifier nameSpace).toList [] l := by
  unfold updateCodeSource at h
  split at h
  · cases h
  · next r hfound =>
    rw [hfound]
    exact updateFound_issues h

theorem updateCronTrigger_issues {identifier : String} {queryFilter : Option (DbRow → Bool)}
    (h : updateCronTrigger ctx db.toTables identifier v queryFilter = .ok l) :
    Issues db.toTables .cronTrigger (getCronTrigger ctx db.toTables identifier).toList [] l := by
  unfold updateCronTrigger at h
  split at h
  · cases h
  · next r hfound =>
    rw [hfound]
    exact updateFound_issues h
  · next r filter hfound =>
    rw [hfound]
    cases h
    split
    · exact .update r v rfl rfl
    · exact .none r rfl rfl

/-- A call that creates a row where it finds none. -/
theorem createOrUpdate_issues {isNew : Bool} {newId : String} {update : Except DbError (List Statement)}
    (hnew : isNew = true → targets = []) (hupdate : update = .ok l → isNew = false → Issues db.toTables m targets [] l)
    (h : (if isNew then .ok (create ctx m v newId) else update) = .ok l) : Issues db.toTables m targets [] l := by
  split at h
  · next hn =>
    cases h
    exact .insert _ (hnew hn) rfl
  · next hn => exact hupdate h (by simpa using hn)

theorem ApiCall.issues (h : call.statements ctx db.toTables = .ok l) :
    Issues db.toTables call.model (call.targets ctx db.toTables) (call.dependants ctx db.toTables) l := by
  cases call
  case updateWorkbook | updateDynamicActionDefinition | updateActionDefinition | updateEnvironment
      | updateEventTrigger =>
    exact updateFound_issues h
  case deleteWorkbooks | deleteWorkflowDefinitions | deleteCodeSources | deleteDynamicActionDefinitions
      | deleteActionDefinitions | deleteEnvironments | deleteCronTriggers | deleteEventTriggers =>
    exact deleteAll_issues h rfl
  case deleteWorkbook | deleteEnvironment | deleteEventTrigger => exact deleteQuery_issues h rfl
  case deleteCodeSource | deleteCronTrigger =>
    exact deleteFound_issues (fun r hr => mem_of_nameAndNamespaceOrId hr) h rfl
  case deleteDynamicActionDefinition =>
    simp only [statements, Mistral.deleteDynamicActionDefinition] at h
    split at h
    · exact deleteFound_issues (fun r hr => mem_of_nameAndNamespaceOrId hr) h rfl
    · cases h
  case deleteActionDefinition => exact deleteFound_issues (fun r hr => mem_of_getActionDefinition hr) h rfl
  case updateWorkflowDefinition => exact updateWorkflowDefinition_issues h
  case deleteWorkflowDefinition => exact deleteWorkflowDefinition_issues h
  case updateCodeSource => exact updateCodeSource_issues h
  case updateCronTrigger => exact updateCronTrigger_issues h
  case createOrUpdateWorkbook name v newId =>
    refine createOrUpdate_issues (fun hn => ?_) (fun h hn => ?_) h
    · simp only [targets, hn, if_true]
    · simp only [targets, hn, Bool.false_eq_true, if_false]
      exact updateFound_issues h
  case createOrUpdateActionDefinition name v newId =>
    refine createOrUpdate_issues (fun hn => ?_) (fun h hn => ?_) h
    · simp only [targets, hn, if_true]
    · simp only [targets, hn, Bool.false_eq_true, if_false]
      exact updateFound_issues h
  case createOrUpdateEnvironment name v newId =>
    refine createOrUpdate_issues (fun hn => ?_) (fun h _ => updateFound_issues h) h
    exact congrArg Option.toList (Option.isNone_iff_eq_none.mp hn)
  case createOrUpdateCronTrigger identifier v newId =>
    refine createOrUpdate_issues (fun hn => ?_) (fun h _ => updateCronTrigger_issues h) h
    exact congrArg Option.toList (Option.isNone_iff_eq_none.mp hn)
  case createOrUpdateWorkflowDefinition name v newId =>
    simp only [statements, Mistral.createOrUpdateWorkflowDefinition] at h
    split at h
    · exact updateWorkflowDefinition_issues h
    · next hn =>
      cases h
      exact .insert _ (congrArg Option.toList (Option.not_isSome_iff_eq_none.mp hn)) rfl

/-- A function that checks who owns the row changes none of another project. -/
theorem ApiCall.owned_of_checksAccess (hadmin : ctx.isAdmin = false) (hchecks : call.checksAccess)
    (h : call.statements ctx db.toTables = .ok l) : ∀ r ∈ call.targets ctx db.toTables, r.projectId = ctx.projectId := by
  have hupdate : ∀ {identifier v l}, Mistral.updateWorkflowDefinition ctx db.toTables identifier v = .ok l →
      ∀ r ∈ (getWorkflowDefinition ctx db.toTables identifier v.getNamespace).toList, r.projectId = ctx.projectId := by
    intro identifier v l h r hr
    rw [Option.mem_toList] at hr
    rw [Mistral.updateWorkflowDefinition, hr] at h
    cases hcheck : checkDbObjAccess ctx r with
    | ok => exact checkDbObjAccess_ok hadmin hcheck
    | error e =>
      simp only [hcheck] at h
      cases h
  intro r hr
  cases call
  case updateWorkflowDefinition => exact hupdate h r hr
  case createOrUpdateWorkflowDefinition name v newId =>
    simp only [statements, Mistral.createOrUpdateWorkflowDefinition] at h
    split at h
    · exact hupdate h r hr
    · next hn =>
      rw [Option.not_isSome_iff_eq_none] at hn
      simp only [targets, getWorkflowDefinition, hn, Option.toList_none] at hr
      cases hr
  case deleteWorkflowDefinition identifier nameSpace =>
    simp only [targets, Option.mem_toList] at hr
    simp only [statements, Mistral.deleteWorkflowDefinition, hr] at h
    cases hcheck : checkDbObjAccess ctx r with
    | ok => exact checkDbObjAccess_ok hadmin hcheck
    | error e =>
      simp only [hcheck] at h
      cases h
  case deleteCronTrigger identifier =>
    simp only [targets, Option.mem_toList] at hr
    simp only [statements, Mistral.deleteCronTrigger, hr, deleteFound, if_true] at h
    cases hcheck : checkDbObjAccess ctx r with
    | ok => exact checkDbObjAccess_ok hadmin hcheck
    | error e =>
      simp only [hcheck] at h
      cases h
  all_goals cases hchecks

/-- The other functions issue their statements whoever owns the row. -/
theorem ApiCall.exists_statements (hchecks : call.checksAccess = false) (hreads : call.misreadsNamespace = false) (hr : r ∈ call.targets ctx db.toTables) :
    ∃ l, call.statements ctx db.toTables = .ok l := by
  have hupdate : ∀ {m v} {found : Option DbRow}, r ∈ found.toList → ∃ l, updateFound ctx m found false v = .ok l := by
    intro m v found hr
    rw [Option.mem_toList] at hr
    rw [hr]
    exact ⟨_, rfl⟩
  have hdelete : ∀ {m} {found : Option DbRow}, r ∈ found.toList → ∃ l, deleteFound ctx m found false = .ok l := by
    intro m found hr
    rw [Option.mem_toList] at hr
    rw [hr]
    exact ⟨_, rfl⟩
  have hquery : ∀ {m p}, r ∈ (db.rows m).filter p → ∃ l, deleteQuery db.toTables m p = .ok l := by
    intro m p hr
    obtain ⟨hmem, hp⟩ := List.mem_filter.mp hr
    exact ⟨_, if_pos (List.any_eq_true.mpr ⟨r, hmem, hp⟩)⟩
  have hcron : ∀ {identifier v queryFilter}, r ∈ (getCronTrigger ctx db.toTables identifier).toList →
      ∃ l, Mistral.updateCronTrigger ctx db.toTables identifier v queryFilter = .ok l := by
    intro identifier v queryFilter hr
    have hfound := Option.mem_toList.mp hr
    unfold Mistral.updateCronTrigger
    rw [hfound]
    cases queryFilter with
    | none => exact ⟨_, rfl⟩
    | some filter => exact ⟨_, rfl⟩
  cases call
  case updateWorkflowDefinition | createOrUpdateWorkflowDefinition | deleteWorkflowDefinition | deleteCronTrigger =>
    cases hchecks
  case updateWorkbook | updateDynamicActionDefinition | updateActionDefinition | updateEnvironment
      | updateEventTrigger =>
    exact hupdate hr
  case deleteWorkbooks | deleteWorkflowDefinitions | deleteCodeSources | deleteDynamicActionDefinitions
      | deleteActionDefinitions | deleteEnvironments | deleteCronTriggers | deleteEventTriggers =>
    exact ⟨_, rfl⟩
  case deleteWorkbook | deleteEnvironment | deleteEventTrigger => exact hquery hr
  case deleteCodeSource | deleteActionDefinition => exact hdelete hr
  case deleteDynamicActionDefinition identifier nameSpace =>
    have hns : nameSpace = some "" := by simpa [misreadsNamespace] using hreads
    simp only [statements, Mistral.deleteDynamicActionDefinition, if_pos (Or.inl hns)]
    exact hdelete hr
  case updateCodeSource identifier v nameSpace =>
    have hfound := Option.mem_toList.mp hr
    exact ⟨_, by simp only [statements, Mistral.updateCodeSource, hfound]; rfl⟩
  case updateCronTrigger => exact hcron hr
  case createOrUpdateWorkbook name v newId =>
    simp only [targets] at hr
    simp only [statements, Mistral.createOrUpdateWorkbook]
    split at hr
    · cases hr
    · next hn =>
      rw [if_neg hn]
      exact hupdate hr
  case createOrUpdateActionDefinition name v newId =>
    simp only [targets] at hr
    simp only [statements, Mistral.createOrUpdateActionDefinition]
    split at hr
    · cases hr
    · next hn =>
      rw [if_neg hn]
      exact hupdate hr
  case createOrUpdateEnvironment name v newId =>
    simp only [statements, Mistral.createOrUpdateEnvironment]
    split
    · exact ⟨_, rfl⟩
    · exact hupdate hr
  case createOrUpdateCronTrigger identifier v newId =>
    simp only [statements, Mistral.createOrUpdateCronTrigger]
    split
    · exact ⟨_, rfl⟩
    · exact hcron hr

/-! ### The rows of other projects -/

theorem deletesSource_iff {p : DbRow → Bool} (hmem : ∀ r ∈ targets, r ∈ db.rows .codeSource)
    (h : ∀ r ∈ db.rows .codeSource, p r ↔ r ∈ targets) (id : String) :
    Statement.deletesSource db.toTables (.delete .codeSource p) id = targets.any (·.id == id) := by
  rw [Bool.eq_iff_iff, Statement.deletesSource, List.any_eq_true, List.any_eq_true]
  constructor
  · rintro ⟨r, hr, hp⟩
    obtain ⟨hp, hid⟩ := Bool.and_eq_true_iff.mp hp
    exact ⟨r, (h r hr).mp hp, hid⟩
  · rintro ⟨r, hr, hid⟩
    exact ⟨r, hmem r hr, Bool.and_eq_true_iff.mpr ⟨(h r (hmem r hr)).mpr hr, hid⟩⟩

/-- A call that is aimed at rows of one project, with rows of that project that go with them, keeps those of the others. -/
theorem Issues.mem_foldl {project : String} (h : Issues db.toTables m targets dependants l)
    (hmem : ∀ r ∈ targets, r ∈ db.rows m) (howned : ∀ r ∈ targets ++ dependants, r.projectId = project)
    {m' : Model} (hr : r ∈ db.rows m') (hforeign : r.projectId ≠ project) :
    r ∈ (l.foldl Tables.exec db.toTables).rows m' := by
  have howned := List.forall_mem_append.mp howned
  cases h with
  | insert r' => exact Confined.mem_exec (s := .insert m r') trivial hr hforeign
  | update r' v h =>
    have hr' : r' ∈ targets := h ▸ List.mem_singleton_self r'
    have hconfined : Confined project db.toTables (.update m r'.id v) := fun x hx hid =>
      eq_of_id hx (hmem r' hr') hid ▸ howned.1 r' hr'
    exact hconfined.mem_exec hr hforeign
  | none => exact hr
  | delete p h hd =>
    have hconfined : Confined project db.toTables (.delete m p) := by
      refine ⟨fun x hx hp => howned.1 x ((h x hx).mp hp), ?_⟩
      rintro rfl x hx hgone
      rw [funext (deletesSource_iff hmem h)] at hgone
      rw [if_pos rfl] at hd
      exact howned.2 x (hd ▸ List.mem_filter.mpr ⟨hx, hgone⟩)
    exact hconfined.mem_exec hr hforeign
  | deleteWithMembers p type id hm h =>
    have hconfined : Confined project (db.toTables.exec (.deleteMembers type id)) (.delete m p) :=
      ⟨fun x hx hp => howned.1 x ((h x hx).mp hp), fun hsource => absurd hsource hm⟩
    exact hconfined.mem_exec hr hforeign

/-- A row that goes with those that a call deletes is gone. -/
theorem Issues.notMem_foldl (h : Issues db.toTables m targets dependants l) (hmem : ∀ r ∈ targets, r ∈ db.rows m)
    (hr : r ∈ dependants) : r ∉ (l.foldl Tables.exec db.toTables).rows .dynamicActionDefinition := by
  cases h with
  | delete p h hd =>
    subst hd
    split at hr
    · next hm =>
      subst hm
      obtain ⟨-, hgone⟩ := List.mem_filter.mp hr
      have hsources := funext (deletesSource_iff hmem h)
      intro hkept
      change r ∈ db.toTables.after .dynamicActionDefinition (.delete .codeSource p) at hkept
      rw [Tables.after_delete, if_neg nofun, if_pos rfl, hsources] at hkept
      obtain ⟨-, hkept⟩ := List.mem_filter.mp hkept
      rw [hgone] at hkept
      cases hkept
    · cases hr
  | insert _ _ hd | update _ _ _ hd | none _ _ hd | deleteWithMembers _ _ _ _ _ hd =>
    rw [hd] at hr
    cases hr

/-- What the call issues is not accepted: the database or a validator rejects it. -/
def ApiCall.Rejected (accepts : Tables → List Statement → Bool) (ctx : Context) (db : Database) (call : ApiCall) : Prop :=
  ∃ l, call.statements ctx db.toTables = .ok l ∧ db.flush accepts l = .error .rejected

theorem flush_ok {accepts : Tables → List Statement → Bool} {db' : Database} (h : db.flush accepts l = .ok db') :
    db'.toTables = l.foldl Tables.exec db.toTables := by
  unfold Database.flush at h
  dsimp only at h
  split at h
  · cases h
    rfl
  · cases h

theorem flush_cases (accepts : Tables → List Statement → Bool) :
    db.flush accepts l = .error .rejected ∨ ∃ db', db.flush accepts l = .ok db' := by
  unfold Database.flush
  dsimp only
  split
  · exact .inr ⟨_, rfl⟩
  · exact .inl rfl

theorem ApiCall.run_ok {accepts : Tables → List Statement → Bool} {db' : Database} :
    call.run accepts ctx db = .ok db' ↔ ∃ l, call.statements ctx db.toTables = .ok l ∧ db.flush accepts l = .ok db' := by
  unfold ApiCall.run
  cases call.statements ctx db.toTables with
  | error e => exact ⟨nofun, fun ⟨_, h, _⟩ => nomatch h⟩
  | ok l => exact ⟨fun h => ⟨l, rfl, h⟩, fun ⟨_, h, hflush⟩ => by cases h; exact hflush⟩

theorem ApiCall.run_misread {accepts : Tables → List Statement → Bool} (hadmin : ctx.isAdmin = false)
    (h : call.misreadsNamespace) : call.run accepts ctx db = .error .badColumns := by
  cases call
  case deleteDynamicActionDefinition identifier nameSpace =>
    have hns : nameSpace ≠ some "" := by simpa [misreadsNamespace] using h
    have herror : Mistral.deleteDynamicActionDefinition ctx db.toTables identifier nameSpace = .error .badColumns :=
      if_neg fun hc => hc.elim hns fun hnone => by
        rw [hadmin] at hnone
        cases hnone.2
    simp only [run, statements, herror]
    rfl
  all_goals cases h

/-- What goes with the rows that a call is aimed at are dynamic actions. -/
theorem ApiCall.of_mem_dependants (h : r ∈ call.dependants ctx db.toTables) :
    r ∈ db.rows .dynamicActionDefinition ∧ call.checksAccess = false ∧ ∃ t, t ∈ call.targets ctx db.toTables := by
  have hactions : ∀ {sources}, r ∈ actionsOf db.toTables sources →
      r ∈ db.rows .dynamicActionDefinition ∧ ∃ t, t ∈ sources := by
    intro sources h
    obtain ⟨hr, hsource⟩ := List.mem_filter.mp h
    obtain ⟨id, -, hid⟩ := (Option.any_eq_true _ _).mp hsource
    obtain ⟨t, ht, -⟩ := List.any_eq_true.mp hid
    exact ⟨hr, t, ht⟩
  cases call
  case deleteCodeSource | deleteCodeSources => exact ⟨(hactions h).1, rfl, (hactions h).2⟩
  all_goals cases h

/-- If a call is aimed at rows of the project, and rows of the project go with them, the others are kept. -/
theorem ApiCall.isolated_of_owned {accepts : Tables → List Statement → Bool}
    (howned : ∀ l, call.statements ctx db.toTables = .ok l →
      ∀ r ∈ call.targets ctx db.toTables ++ call.dependants ctx db.toTables, r.projectId = ctx.projectId) :
    Isolated accepts ctx db call := by
  refine ⟨fun db' hrun m r hr hforeign => ?_, fun ⟨r, hr, hforeign⟩ => ?_⟩
  · obtain ⟨l, hl, hflush⟩ := run_ok.mp hrun
    rw [flush_ok hflush]
    exact (call.issues hl).mem_foldl (fun r hr => targets_mem hr) (howned l hl) hr hforeign
  · cases hrun : call.run accepts ctx db with
    | error e => exact ⟨e, rfl⟩
    | ok db' =>
      obtain ⟨l, hl, -⟩ := run_ok.mp hrun
      exact absurd (howned l hl r (List.mem_append_left _ hr)) hforeign

end

/-- A call leaves the rows of other projects as they are, and fails if it is aimed at one of them, if and only if the
    function checks who owns the row, or it fails because it takes a namespace for columns, or the database rejects what
    the call issues, or the rows that the call is aimed at and those that go with them are rows of the project. -/
theorem tenants_isolated_iff (accepts : Tables → List Statement → Bool) (project : String) (db : Database)
    (call : ApiCall) :
    Isolated accepts { projectId := project } db call ↔
      call.checksAccess ∨ call.misreadsNamespace ∨ call.Rejected accepts { projectId := project } db ∨
        ∀ r ∈ call.targets { projectId := project } db.toTables ++ call.dependants { projectId := project } db.toTables,
          r.projectId = project := by
  set ctx : Context := { projectId := project }
  constructor
  · rintro ⟨hkept, hfails⟩
    by_contra hnot
    obtain ⟨hchecks, hnot⟩ := not_or.mp hnot
    obtain ⟨hreads, hnot⟩ := not_or.mp hnot
    obtain ⟨hrejected, hnot⟩ := not_or.mp hnot
    have haccepted : ∀ r ∈ call.targets ctx db.toTables,
        ∃ l db', call.statements ctx db.toTables = .ok l ∧ db.flush accepts l = .ok db' := by
      intro r hr
      obtain ⟨l, hl⟩ := call.exists_statements (by simpa using hchecks) (by simpa using hreads) hr
      obtain hflush | ⟨db', hflush⟩ := flush_cases accepts
      · exact absurd ⟨l, hl, hflush⟩ hrejected
      · exact ⟨l, db', hl, hflush⟩
    refine hnot (List.forall_mem_append.mpr ⟨fun r hr => ?_, fun r hr => ?_⟩)
    · by_contra hforeign
      obtain ⟨l, db', hl, hflush⟩ := haccepted r hr
      obtain ⟨e, herror⟩ := hfails ⟨r, hr, hforeign⟩
      rw [ApiCall.run_ok.mpr ⟨l, hl, hflush⟩] at herror
      cases herror
    · by_contra hforeign
      obtain ⟨hmem, -, t, ht⟩ := call.of_mem_dependants hr
      obtain ⟨l, db', hl, hflush⟩ := haccepted t ht
      have hrow := hkept db' (ApiCall.run_ok.mpr ⟨l, hl, hflush⟩) _ r hmem hforeign
      rw [flush_ok hflush] at hrow
      exact (call.issues hl).notMem_foldl (fun r hr => ApiCall.targets_mem hr) hr hrow
  · rintro (hchecks | hreads | ⟨l, hl, hflush⟩ | howned)
    · refine ApiCall.isolated_of_owned fun l hl => List.forall_mem_append.mpr
        ⟨ApiCall.owned_of_checksAccess rfl hchecks hl, fun r hr => ?_⟩
      obtain ⟨-, hnot, -⟩ := call.of_mem_dependants hr
      rw [hchecks] at hnot
      cases hnot
    · have herror : call.run accepts ctx db = .error .badColumns := call.run_misread rfl hreads
      refine ⟨fun db' hrun => ?_, fun _ => ⟨_, herror⟩⟩
      rw [herror] at hrun
      cases hrun
    · have herror : call.run accepts ctx db = .error .rejected := by
        unfold ApiCall.run
        rw [hl]
        exact hflush
      refine ⟨fun db' hrun => ?_, fun _ => ⟨_, herror⟩⟩
      rw [herror] at hrun
      cases hrun
    · exact ApiCall.isolated_of_owned fun _ _ => howned

/-- A public environment of the project `q`. -/
def publicEnvironment : Database where
  rows
    | .environment => [{ id := "1", name := "env", scope := "public", projectId := "q" }]
    | _ => []
  uniqueIds := by decide

/-- Another project deletes it by its name. -/
theorem public_environment_deleted :
    ¬∀ accepts project db call, Isolated accepts { projectId := project } db call := by
  intro h
  obtain ⟨hkept, -⟩ := h (fun _ _ => true) "p" publicEnvironment (.deleteEnvironment "env")
  cases hrun : (ApiCall.deleteEnvironment "env").run (fun _ _ => true) { projectId := "p" } publicEnvironment with
  | error e =>
    have hok : ((ApiCall.deleteEnvironment "env").run (fun _ _ => true) { projectId := "p" } publicEnvironment).isOk := by
      decide
    rw [hrun] at hok
    cases hok
  | ok db' =>
    have hrow := hkept db' hrun .environment _ List.mem_cons_self (by decide)
    obtain ⟨l, hl, hflush⟩ := ApiCall.run_ok.mp hrun
    rw [flush_ok hflush] at hrow
    cases hl
    exact absurd hrow (by decide)

end Mistral
