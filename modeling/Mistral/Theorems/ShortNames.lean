import Mistral.Engine.WorkflowNames

/-! Short names of sub-workflows are looked up in the workbook of the parent first. -/

namespace Mistral
namespace Workbooks
variable {classes : CharClasses} {rows : List WorkflowDefinition} {wbName parent child ns name : String}
  {d : WorkflowDefinition}

/-! ### The name of the workbook -/

/-- Names that the schema allows have no dot. -/
theorem dot_not_mem (hdot : classes.word '.' = false) (h : nonVersionWord classes name) : '.' ∉ name.toList := by
  intro hmem
  simp only [nonVersionWord, Bool.and_eq_true, List.all_eq_true] at h
  obtain ⟨⟨-, hword⟩, -⟩ := h
  have hbody : '.' ∈ if name.toList.getLast? = some '\n' then name.toList.dropLast else name.toList := by
    split
    next hlast =>
      have hsplit := List.dropLast_append_getLast? '\n' hlast
      rw [← hsplit, List.mem_append] at hmem
      exact hmem.resolve_right (by decide)
    · exact hmem
  have hclass := hword '.' hbody
  rw [hdot] at hclass
  exact absurd hclass (by decide)

/-- Stripping characters other than the dot from the right comes to the last dot. -/
theorem stripName_fullName (h : '.' ∉ parent.toList) : stripName (fullName wbName parent) parent = wbName := by
  have hlist : (fullName wbName parent).toList = wbName.toList ++ ['.'] ++ parent.toList := by simp [fullName]
  have hdot : Lines.rstrip (· ∈ parent.toList) (wbName.toList ++ ['.']) = wbName.toList ++ ['.'] :=
    List.rdropWhile_concat_neg _ _ _ (by simpa using h)
  rw [stripName, hlist, Lines.rstrip_append_of_blank fun c hc => by simpa using hc, hdot, List.dropLast_concat,
    String.ofList_toList]

theorem fullName_ne : fullName wbName parent ≠ parent := by
  intro h
  have hlength := congrArg (fun s : String => s.toList.length) h
  simp only [fullName, String.toList_append, List.length_append] at hlength
  have hdot : ("." : String).toList.length = 1 := by decide
  omega

/-! ### Definitions -/

theorem findDefinition_some (h : findDefinition rows name ns = some d) : d ∈ rows ∧ d.name = name ∧ d.ns = ns := by
  have hmatch := List.find?_some h
  simp only [Bool.and_eq_true, beq_iff_eq] at hmatch
  exact ⟨List.mem_of_find?_eq_some h, hmatch⟩

theorem findDefinition_isSome : (findDefinition rows name ns).isSome ↔ ∃ d ∈ rows, d.name = name ∧ d.ns = ns := by
  simp [findDefinition, List.find?_isSome]

/-- A definition is there after it was created or updated, and all those that were there before. -/
theorem findDefinition_createOrUpdate :
    (findDefinition (createOrUpdateWorkflowDefinition rows d) name ns).isSome ↔
      (findDefinition rows name ns).isSome ∨ d.name = name ∧ d.ns = ns := by
  simp only [findDefinition_isSome]
  unfold createOrUpdateWorkflowDefinition
  split
  next hold =>
    obtain ⟨old, hmem, hname, hns⟩ := findDefinition_isSome.mp hold
    have hsame : ∀ row : WorkflowDefinition, (if row.name = d.name ∧ row.ns = d.ns then d else row).name = row.name ∧
        (if row.name = d.name ∧ row.ns = d.ns then d else row).ns = row.ns := fun row => by
      split
      next heq => exact ⟨heq.1.symm, heq.2.symm⟩
      · exact ⟨rfl, rfl⟩
    constructor
    · rintro ⟨d', hd', hname', hns'⟩
      obtain ⟨row, hrow, rfl⟩ := List.mem_map.mp hd'
      exact .inl ⟨row, hrow, (hsame row).1.symm.trans hname', (hsame row).2.symm.trans hns'⟩
    · rintro (⟨row, hrow, hname', hns'⟩ | ⟨hname', hns'⟩)
      · exact ⟨_, List.mem_map_of_mem hrow, (hsame row).1.trans hname', (hsame row).2.trans hns'⟩
      · exact ⟨_, List.mem_map_of_mem hmem, (hsame old).1.trans (hname.trans hname'), (hsame old).2.trans (hns.trans hns')⟩
  · simp only [List.mem_append, List.mem_singleton, or_and_right, exists_or, exists_eq_left]

theorem findDefinition_createOrUpdateWorkflows (rows : List WorkflowDefinition) (wbName ns : String)
    {workflows : List (String × String)} (h : child ∈ workflows.map (·.1) ∨ (findDefinition rows (fullName wbName child) ns).isSome) :
    (findDefinition (createOrUpdateWorkflows rows wbName ns workflows) (fullName wbName child) ns).isSome := by
  induction workflows generalizing rows with
  | nil => exact h.resolve_left List.not_mem_nil
  | cons w workflows ih =>
    refine ih _ ?_
    rw [findDefinition_createOrUpdate, List.map_cons, List.mem_cons] at *
    obtain (rfl | hmem) | hold := h
    · exact .inr (.inr ⟨rfl, rfl⟩)
    · exact .inl hmem
    · exact .inr (.inl hold)

theorem resolve_in_workbook (h : '.' ∉ parent.toList) :
    resolveWorkflowDefinition rows (fullName wbName parent) parent ns child =
      match loadWorkflowDefinition rows (fullName wbName child) ns with
      | some d => .ok d
      | none =>
        match loadWorkflowDefinition rows child ns with
        | some d => .ok d
        | none => .error ("Failed to find workflow [name=" ++ child ++ "] [namespace=" ++ ns ++ "]") := by
  rw [resolveWorkflowDefinition, if_pos fullName_ne, stripName_fullName h]
  cases loadWorkflowDefinition rows (fullName wbName child) ns with
  | none => rfl
  | some d => rfl

/-- The definition `d` is the one of a name, as a namespace sees it: its own one comes before that of the default
    namespace. -/
def NamedBy (rows : List WorkflowDefinition) (name ns : String) (d : WorkflowDefinition) : Prop :=
  d ∈ rows ∧ d.name = name ∧ (d.ns = ns ∨ d.ns = "" ∧ ∀ d' ∈ rows, d'.name = name → d'.ns ≠ ns)

theorem namedBy_of_load (h : loadWorkflowDefinition rows name ns = some d) : NamedBy rows name ns d := by
  obtain h | ⟨hnone, h⟩ := Option.or_eq_some_iff.mp h
  · obtain ⟨hmem, hname, hns⟩ := findDefinition_some h
    exact ⟨hmem, hname, .inl hns⟩
  · obtain ⟨hmem, hname, hns⟩ := findDefinition_some h
    refine ⟨hmem, hname, .inr ⟨hns, fun d' hd' hname' hns' => ?_⟩⟩
    have hfound := findDefinition_isSome.mpr ⟨d', hd', hname', hns'⟩
    rw [hnone] at hfound
    cases hfound

theorem not_namedBy_of_load (h : loadWorkflowDefinition rows name ns = none) : ¬NamedBy rows name ns d := by
  obtain ⟨hns, hdefault⟩ := Option.or_eq_none_iff.mp h
  rintro ⟨hmem, hname, hd | ⟨hd, -⟩⟩
  · have hfound := findDefinition_isSome.mpr ⟨d, hmem, hname, hd⟩
    rw [hns] at hfound
    cases hfound
  · have hfound := findDefinition_isSome.mpr ⟨d, hmem, hname, hd⟩
    rw [hdefault] at hfound
    cases hfound

theorem fullName_injective {a b : String} (h : fullName wbName a = fullName wbName b) : a = b := by
  have hlist := congrArg String.toList h
  simp only [fullName, String.toList_append, List.append_cancel_left_eq] at hlist
  exact String.toList_injective hlist

/-- A row that is there after a definition was stored is that definition or was there before under another name. -/
theorem mem_createOrUpdateWorkflowDefinition {new : WorkflowDefinition}
    (h : d ∈ createOrUpdateWorkflowDefinition rows new) : d = new ∨ d ∈ rows ∧ ¬(d.name = new.name ∧ d.ns = new.ns) := by
  unfold createOrUpdateWorkflowDefinition at h
  split at h
  · obtain ⟨row, hrow, rfl⟩ := List.mem_map.mp h
    split
    · exact .inl rfl
    next hne => exact .inr ⟨hrow, hne⟩
  next hnone =>
    obtain h | h := List.mem_append.mp h
    · exact .inr ⟨h, fun ⟨hname, hns⟩ => hnone (findDefinition_isSome.mpr ⟨d, h, hname, hns⟩)⟩
    · exact .inl (List.mem_singleton.mp h)

/-- A row that is there after the workflows of a workbook were stored is of one of them, if it is named like that. -/
theorem mem_createOrUpdateWorkflows {workflows : List (String × String)}
    (hd : d ∈ createOrUpdateWorkflows rows wbName ns workflows) (hname : d.name = fullName wbName child) (hns : d.ns = ns) :
    (child, d.definition) ∈ workflows ∨ d ∈ rows ∧ child ∉ workflows.map (·.1) := by
  induction workflows generalizing rows with
  | nil => exact .inr ⟨hd, List.not_mem_nil⟩
  | cons w workflows ih =>
    obtain hmem | ⟨hrow, hnot⟩ := ih hd
    · exact .inl (List.mem_cons_of_mem _ hmem)
    obtain rfl | ⟨hrow, hne⟩ := mem_createOrUpdateWorkflowDefinition hrow
    · obtain rfl : w.1 = child := fullName_injective hname
      exact .inl List.mem_cons_self
    · refine .inr ⟨hrow, ?_⟩
      rw [List.map_cons, List.mem_cons]
      rintro (rfl | hmem)
      · exact hne ⟨hname, hns⟩
      · exact hnot hmem

/-- For a parent of a workbook, `rstrip` leaves the name of the workbook, the definition of the workbook comes first and
    the one with the short name second, and the definition that was stored with the workbook is found. -/
theorem short_names_resolve_in_workbook (classes : CharClasses) (hdot : classes.word '.' = false)
    (rows : List WorkflowDefinition) (wbName parent child ns : String) (hparent : nonVersionWord classes parent) :
    stripName (fullName wbName parent) parent = wbName ∧
    ((∃ d, NamedBy rows (fullName wbName child) ns d) →
      ∃ d, resolveWorkflowDefinition rows (fullName wbName parent) parent ns child = .ok d ∧
        NamedBy rows (fullName wbName child) ns d) ∧
    ((¬∃ d, NamedBy rows (fullName wbName child) ns d) → (∃ d, NamedBy rows child ns d) →
      ∃ d, resolveWorkflowDefinition rows (fullName wbName parent) parent ns child = .ok d ∧ NamedBy rows child ns d) ∧
    ((¬∃ d, NamedBy rows (fullName wbName child) ns d) → (¬∃ d, NamedBy rows child ns d) →
      resolveWorkflowDefinition rows (fullName wbName parent) parent ns child =
        .error ("Failed to find workflow [name=" ++ child ++ "] [namespace=" ++ ns ++ "]")) ∧
    ∀ workflows : List (String × String), child ∈ workflows.map (·.1) →
      ∃ d ∈ createOrUpdateWorkflows rows wbName ns workflows,
        resolveWorkflowDefinition (createOrUpdateWorkflows rows wbName ns workflows) (fullName wbName parent) parent ns
          child = .ok d ∧ d.name = fullName wbName child ∧ d.ns = ns ∧ (child, d.definition) ∈ workflows := by
  have hnot := dot_not_mem hdot hparent
  have hexists : ∀ {name}, (∃ d, NamedBy rows name ns d) → ∃ d, loadWorkflowDefinition rows name ns = some d := by
    rintro name ⟨d, hd⟩
    cases hload : loadWorkflowDefinition rows name ns with
    | none => exact absurd hd (not_namedBy_of_load hload)
    | some d' => exact ⟨d', rfl⟩
  have hnone : ∀ {name}, (¬∃ d, NamedBy rows name ns d) → loadWorkflowDefinition rows name ns = none := fun {name} h => by
    cases hload : loadWorkflowDefinition rows name ns with
    | none => rfl
    | some d => exact absurd ⟨d, namedBy_of_load hload⟩ h
  refine ⟨stripName_fullName hnot, fun hfull => ?_, fun hfull hchild => ?_, fun hfull hchild => ?_, fun workflows hchild => ?_⟩
  · obtain ⟨d, hd⟩ := hexists hfull
    exact ⟨d, by rw [resolve_in_workbook hnot, hd], namedBy_of_load hd⟩
  · obtain ⟨d, hd⟩ := hexists hchild
    exact ⟨d, by rw [resolve_in_workbook hnot, hnone hfull, hd], namedBy_of_load hd⟩
  · rw [resolve_in_workbook hnot, hnone hfull, hnone hchild]
  · obtain ⟨d, hd⟩ := Option.isSome_iff_exists.mp
      (findDefinition_createOrUpdateWorkflows rows wbName ns (.inl hchild))
    obtain ⟨hmem, hname, hns⟩ := findDefinition_some hd
    refine ⟨d, hmem, ?_, hname, hns, (mem_createOrUpdateWorkflows hmem hname hns).resolve_right fun h => h.2 hchild⟩
    rw [resolve_in_workbook hnot, loadWorkflowDefinition, hd]
    rfl

/-- The name of the workbook ends in characters of the name of the parent. -/
theorem short_name_resolves :
    stripName (fullName "arena.nap" "parent") "parent" = "arena.nap" ∧
    ∃ d ∈ createOrUpdateWorkflows [{ name := "child" }] "arena.nap" "" [("parent", ""), ("child", "")],
      resolveWorkflowDefinition (createOrUpdateWorkflows [{ name := "child" }] "arena.nap" "" [("parent", ""), ("child", "")])
        (fullName "arena.nap" "parent") "parent" "" "child" = .ok d ∧ d.name = fullName "arena.nap" "child" ∧ d.ns = "" ∧
        ("child", d.definition) ∈ [("parent", ""), ("child", "")] :=
  have h := short_names_resolve_in_workbook .ascii (by decide) [{ name := "child" }] "arena.nap" "parent" "child" ""
    (by decide)
  ⟨h.1, h.2.2.2.2 [("parent", ""), ("child", "")] (by decide)⟩

end Workbooks
end Mistral
