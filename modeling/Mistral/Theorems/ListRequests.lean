import Mistral.Api.TaskListing
import Mistral.Lib.Excepts

/-! How the parameters of a request for task executions are read, and what is asked for in a request that is answered. -/

namespace Mistral.TaskListing

variable {J ρ : Type} {F : Frameworks J}

/-! ### Filter types -/

theorem extract_pre (f : FilterType) (t : Text) :
    (extractFilterTypeAndValue (f.pre ++ t) : FilterType × Value J) =
      if f = .isIn ∨ f = .notIn then (f, .list (t.splitOn ',')) else (f, .text t) := by
  cases f <;> rfl

/-- A text has a filter type before its value, or is itself a value to be equal to. -/
theorem extract_cases (data : Text) :
    (hasFilters data = false ∧ (extractFilterTypeAndValue data : FilterType × Value J) = (.eq, .text data)) ∨
      ∃ f : FilterType, ∃ t, data = f.pre ++ t := by
  cases hfind : FilterType.all.find? fun f => f.pre.isPrefixOf data with
  | none =>
    refine Or.inl ⟨?_, by rw [extractFilterTypeAndValue, hfind]⟩
    rw [hasFilters, List.any_eq_false]
    exact List.find?_eq_none.mp hfind
  | some f =>
    have hpre : f.pre.isPrefixOf data := List.find?_some (p := fun g : FilterType => g.pre.isPrefixOf data) hfind
    obtain ⟨t, ht⟩ := List.isPrefixOf_iff_prefix.mp hpre
    exact Or.inr ⟨f, t, ht.symm⟩

/-- A filter with one text as its value is read again behind its type. -/
theorem extract_text {data v : Text} {f : FilterType}
    (h : (extractFilterTypeAndValue data : FilterType × Value J) = (f, .text v)) (t : Text) :
    (extractFilterTypeAndValue (f.pre ++ t) : FilterType × Value J) = (f, .text t) := by
  have hscalar : ¬(f = .isIn ∨ f = .notIn) := by
    rcases extract_cases (J := J) data with ⟨-, heq⟩ | ⟨g, u, rfl⟩
    · rw [heq] at h
      cases h
      decide
    · rw [extract_pre] at h
      split at h
      · cases h
      · cases h
        assumption
  rw [extract_pre, if_neg hscalar]

theorem extract_list {data : Text} {l : List Text} {f : FilterType}
    (h : (extractFilterTypeAndValue data : FilterType × Value J) = (f, .list l)) (t : Text) :
    (extractFilterTypeAndValue (f.pre ++ t) : FilterType × Value J) = (f, .list (t.splitOn ',')) := by
  have hlist : f = .isIn ∨ f = .notIn := by
    rcases extract_cases (J := J) data with ⟨-, heq⟩ | ⟨g, u, rfl⟩
    · rw [heq] at h
      cases h
    · rw [extract_pre] at h
      split at h
      · cases h
        assumption
      · cases h
  rw [extract_pre, if_pos hlist]

/-! ### Words -/

/-- The names of columns and the directions are words. -/
def IsWord (s : Text) : Prop := s ≠ [] ∧ ∀ c ∈ s, ('a' ≤ c ∧ c ≤ 'z') ∨ c = '_'

instance (s : Text) : Decidable (IsWord s) :=
  have : Decidable (∀ c ∈ s, ('a' ≤ c ∧ c ≤ 'z') ∨ c = '_') := List.decidableBAll _ s
  inferInstanceAs (Decidable (_ ∧ _))

/-- What holds of the characters of a text, one by one. -/
theorem forall_chars {p : Char → Prop} [DecidablePred p] {s : Text} (h : s.all fun c => p c) : ∀ c ∈ s, p c := by
  simpa using h

theorem IsWord.ne {s : Text} (h : IsWord s) {c d : Char} (hc : c ∈ s) (hd : ¬(('a' ≤ d ∧ d ≤ 'z') ∨ d = '_')) : c ≠ d :=
  fun heq => hd (heq ▸ h.2 c hc)

theorem IsWord.small {s : Text} (h : IsWord s) : ∀ c ∈ s, Small c := by
  intro c hc
  rcases h.2 c hc with ⟨ha, hz⟩ | rfl
  · have hlow : ('!' : Char) ≤ 'a' := by decide
    have hhigh : ('z' : Char) ≤ '~' := by decide
    have hupper : ¬('a' : Char) ≤ 'Z' := by decide
    exact ⟨Char.le_trans hlow ha, Char.le_trans hz hhigh, fun h => hupper (Char.le_trans ha h.2)⟩
  · decide

theorem isWord_column : ∀ k ∈ modelColumns, IsWord k := by decide +kernel

theorem isWord_field : ∀ k ∈ taskFields, IsWord k := by decide

theorem isWord_dir : ∀ k ∈ [ascText, descText], IsWord k := by decide

theorem isName_param (p : Param) : QueryStrings.IsName p.text := by
  cases p with
  | column c => cases c <;> decide
  | _ => decide

/-- Blanks are stripped only after a beginning without any. -/
theorem strip_append {s t : Text} (hs : ∀ c ∈ s, Small c) (hne : s ≠ []) :
    ∃ t', Lines.strip F.space (s ++ t) = s ++ t' := by
  obtain ⟨c, s', rfl⟩ := List.exists_cons_of_ne_nil hne
  have hc : F.space c = false := F.space_small c (hs c List.mem_cons_self)
  have hl : Lines.lstrip F.space ((c :: s') ++ t) = (c :: s') ++ t := by
    rw [Lines.lstrip, List.cons_append, List.dropWhile_cons_of_neg (by simp [hc])]
  rw [Lines.strip, hl]
  by_cases ht : ∃ a ∈ t, F.space a = false
  · exact ⟨_, Lines.rstrip_append ht⟩
  · refine ⟨[], ?_⟩
    have hblank : ∀ a ∈ t, F.space a := fun a ha => by
      by_contra h
      exact ht ⟨a, ha, by simpa using h⟩
    rw [Lines.rstrip_append_of_blank hblank, List.append_nil, Lines.rstrip, List.rdropWhile_eq_self_iff]
    intro h
    simp [F.space_small _ (hs _ (List.getLast_mem h))]

theorem read_word {s : Text} (h : IsWord s) : F.lower (Lines.strip F.space s) = s := by
  obtain ⟨t, ht⟩ := strip_append (F := F) (t := []) h.small h.1
  have hstrip : Lines.strip F.space s = s := by
    have hlen := congrArg List.length ht
    have hle : (Lines.strip F.space s).length ≤ s.length := by
      rw [Lines.strip, Lines.rstrip, Lines.lstrip]
      exact (List.rdropWhile_prefix _ _).length_le.trans (List.dropWhile_suffix _).length_le
    simp only [List.append_nil, List.length_append] at ht hlen
    have hnil : t = [] := List.eq_nil_of_length_eq_zero (by omega)
    rw [ht, hnil, List.append_nil]
  rw [hstrip, F.lower_small s h.small]

theorem listValidate_words {l : List Text} (h : ∀ s ∈ l, IsWord s) : listValidate F ([','].intercalate l) = l := by
  cases l with
  | nil =>
    have hnil : F.lower (Lines.strip F.space []) = [] := F.lower_small [] nofun
    simp [listValidate, hnil]
  | cons s l =>
    rw [listValidate, List.splitOn_intercalate ',' (fun t ht hmem => (h t ht).ne hmem (by decide) rfl) (by simp)]
    have hmap : (s :: l).map (fun v => F.lower (Lines.strip F.space v)) = s :: l :=
      List.map_congr_left (fun t ht => read_word (h t ht)) |>.trans (List.map_id _)
    rw [hmap, List.filter_eq_self]
    exact fun t ht => by simpa using (h t ht).1

theorem unique_eq_self {seen l : List Text} (hnodup : l.Nodup) (hnew : ∀ x ∈ l, x ∉ seen) : unique seen l = l := by
  induction l generalizing seen with
  | nil => rfl
  | cons x l ih =>
    obtain ⟨hx, hl⟩ := List.nodup_cons.mp hnodup
    rw [unique, if_neg (hnew x List.mem_cons_self), ih hl]
    intro y hy hseen
    rcases List.mem_cons.mp hseen with rfl | hmem
    · exact hx hy
    · exact hnew y (List.mem_cons_of_mem _ hy) hmem

theorem mem_unique {seen l : List Text} : ∀ x ∈ unique seen l, x ∉ seen := by
  induction l generalizing seen with
  | nil => exact fun x hx => absurd hx List.not_mem_nil
  | cons y l ih =>
    rw [unique]
    split
    next => exact ih
    next hy =>
      intro x hx
      rcases List.mem_cons.mp hx with rfl | hx
      · exact hy
      · exact fun hseen => ih x hx (List.mem_cons_of_mem _ hseen)

theorem nodup_unique {seen l : List Text} : (unique seen l).Nodup := by
  induction l generalizing seen with
  | nil => exact List.nodup_nil
  | cons y l ih =>
    rw [unique]
    split
    · exact ih
    · exact List.nodup_cons.mpr ⟨fun hy => mem_unique y hy List.mem_cons_self, ih⟩

theorem uniqueListValidate_words {l : List Text} (h : ∀ s ∈ l, IsWord s) (hnodup : l.Nodup) :
    uniqueListValidate F ([','].intercalate l) = l := by
  rw [uniqueListValidate, listValidate_words h, unique_eq_self hnodup fun _ _ => List.not_mem_nil]

/-! ### Requests that are answered -/

/-- The value of a filter parameter of a request. -/
def columnData (F : Frameworks J) (raw : Raw) (c : Column) : Option (Value J) :=
  (raw (.column c)).bind fun t => (convert F c.kind t).join

/-- The filters of a request. -/
def filtersOf (F : Frameworks J) (raw : Raw) : Filters J :=
  Column.all.filterMap fun c => ((columnData F raw c).map createFilter).map (c, ·)

/-- The types take all filter parameters of a request. -/
def ColumnsRead (F : Frameworks J) (raw : Raw) : Prop := ∀ c t, raw (.column c) = some t → (convert F c.kind t).isSome

theorem readParam_ok {α : Type} {raw : Raw} {p : Param} {read : Text → Option α} {x : Option α} :
    readParam raw p read = .ok x ↔ (∀ t, raw p = some t → (read t).isSome) ∧ x = (raw p).bind read := by
  cases hp : raw p with
  | none =>
    rw [readParam, hp]
    exact ⟨fun h => ⟨nofun, by cases h; rfl⟩, fun h => by rw [h.2]; rfl⟩
  | some t =>
    cases hread : read t with
    | none =>
      rw [readParam, hp]
      simp only [hread]
      exact ⟨nofun, fun h => by simpa [hread] using h.1 t rfl⟩
    | some a =>
      rw [readParam, hp]
      simp only [hread]
      refine ⟨fun h => ⟨?_, by cases h; exact hread.symm⟩, fun h => by rw [h.2, Option.bind_some, hread]; rfl⟩
      rintro u hu
      cases hu
      simp [hread]

theorem readColumn_ok {raw : Raw} {c : Column} {x : Column × Option (Value J)} :
    readColumn F raw c = .ok x ↔
      (∀ t, raw (.column c) = some t → (convert F c.kind t).isSome) ∧ x = (c, columnData F raw c) := by
  have hjoin : ((raw (.column c)).bind (convert F c.kind)).join = columnData F raw c := by
    rw [columnData]
    cases raw (.column c) <;> rfl
  rw [readColumn, bind_ok]
  constructor
  · rintro ⟨data, hdata, hx⟩
    obtain ⟨hread, rfl⟩ := readParam_ok.mp hdata
    cases hx
    exact ⟨hread, by rw [hjoin]⟩
  · rintro ⟨hread, rfl⟩
    exact ⟨_, readParam_ok.mpr ⟨hread, rfl⟩, by rw [hjoin]; rfl⟩

theorem column_mem_all (c : Column) : c ∈ Column.all := by cases c <;> decide

theorem forall₂_map_right {α β : Type} {p : α → Prop} {f : α → β} {l : List α} {l' : List β} :
    List.Forall₂ (fun a b => p a ∧ b = f a) l l' ↔ (∀ a ∈ l, p a) ∧ l' = l.map f := by
  induction l generalizing l' with
  | nil => simp
  | cons a l ih =>
    rw [List.forall₂_cons_left_iff]
    constructor
    · rintro ⟨b, bs, ⟨hp, rfl⟩, hbs, rfl⟩
      obtain ⟨hall, rfl⟩ := ih.mp hbs
      exact ⟨List.forall_mem_cons.mpr ⟨hp, hall⟩, rfl⟩
    · rintro ⟨hall, rfl⟩
      obtain ⟨hp, hall⟩ := List.forall_mem_cons.mp hall
      exact ⟨f a, l.map f, ⟨hp, rfl⟩, ih.mpr ⟨hall, rfl⟩, rfl⟩

theorem readColumns_ok {raw : Raw} {columns : List (Column × Option (Value J))} :
    Column.all.mapM (readColumn F raw) = .ok columns ↔
      ColumnsRead F raw ∧ columns = Column.all.map fun c => (c, columnData F raw c) := by
  rw [mapM_ok]
  simp only [readColumn_ok]
  rw [forall₂_map_right]
  exact and_congr_left' ⟨fun h c => h c (column_mem_all c), fun h c _ => h c⟩

theorem createFilters_map (raw : Raw) :
    createFiltersFromRequestParams (Column.all.map fun c => (c, columnData F raw c)) = filtersOf F raw := by
  rw [createFiltersFromRequestParams, List.filterMap_map, filtersOf]
  refine List.filterMap_congr fun c _ => ?_
  show (columnData F raw c).map (fun d => (c, createFilter d)) = _
  rw [Option.map_map]
  rfl

/-- What is asked in a request that is answered. -/
structure Asked.Valid (F : Frameworks J) (asked : Asked J) : Prop where
  id_key : idText ∈ asked.sortKeys
  nodup_keys : asked.sortKeys.Nodup
  keys : ∀ key ∈ asked.sortKeys, key ∈ modelColumns
  length_dirs : asked.sortDirs.length = asked.sortKeys.length
  dirs : ∀ dir ∈ asked.sortDirs, dir ∈ [ascText, descText]
  nodup_fields : asked.fields.Nodup
  fields : ∀ f ∈ asked.fields, f ∈ taskFields
  id_field : asked.fields ≠ [] → idText ∈ asked.fields
  filters : ∃ raw, asked.filters = filtersOf F raw
  columns : ∀ f ∈ asked.filters, f.1.text ∈ modelColumns

variable {T : Table F ρ} {maxLimit : Nat}

/-- The rows that meet the filters. -/
def Table.matching (T : Table F ρ) (filters : Filters J) : List ρ :=
  T.rows.filter fun r => filters.all fun (c, f, v) => T.meets c f v r

/-- The order that is asked for. -/
def Table.orderOf (T : Table F ρ) (asked : Asked J) : ρ → ρ → Ordering := T.orderBy (asked.sortKeys.zip asked.sortDirs)

/-- The answer with a page after the marker. -/
def Table.respond (T : Table F ρ) (asked : Asked J) (limit : Nat) (marker : Option ρ) : Response J ρ :=
  convertWithLinks T (Paging.page (T.orderOf asked) limit marker (T.matching asked.filters)) limit asked

theorem applyFilters_ok {filters : Filters J} {rows : List ρ} :
    T.applyFilters filters = .ok rows ↔ (∀ f ∈ filters, f.1.text ∈ modelColumns) ∧ rows = T.matching filters := by
  rw [Table.applyFilters]
  cases hfind : filters.find? fun f => f.1.text ∉ modelColumns with
  | none =>
    have hall : ∀ f ∈ filters, f.1.text ∈ modelColumns := fun f hf => by
      simpa using List.find?_eq_none.mp hfind f hf
    exact ⟨fun h => ⟨hall, by cases h; rfl⟩, fun h => by rw [h.2]; rfl⟩
  | some f =>
    have hnot : f.1.text ∉ modelColumns := by simpa using List.find?_some hfind
    exact ⟨nofun, fun h => absurd (h.1 f (List.mem_of_find?_eq_some hfind)) hnot⟩

theorem paginateQuery_ok {rows collection : List ρ} {limit : Nat} {sortKeys sortDirs : List Text} {marker : Option ρ} :
    T.paginateQuery rows limit sortKeys marker sortDirs = .ok collection ↔
      sortDirs.length = sortKeys.length ∧ (∀ key ∈ sortKeys, key ∈ modelColumns) ∧
        collection = Paging.page (T.orderBy (sortKeys.zip sortDirs)) limit marker rows := by
  rw [Table.paginateQuery]
  split
  next hlen => exact ⟨nofun, fun h => absurd h.1 hlen⟩
  next hlen =>
    split
    next hkey =>
      obtain ⟨key, hmem, hnot⟩ := hkey
      exact ⟨nofun, fun h => absurd (h.2.1 key hmem) hnot⟩
    next hkey =>
      simp only [not_exists, not_and, not_not] at hlen hkey
      exact ⟨fun h => ⟨hlen, hkey, by cases h; rfl⟩, fun h => by rw [h.2.2]⟩

theorem getCollection_ok {limit : Nat} {marker : Option ρ} {sortKeys sortDirs : List Text} {filters : Filters J}
    {x : List ρ × List Text × List Text} :
    T.getCollection limit marker sortKeys sortDirs filters = .ok x ↔
      (∀ f ∈ filters, f.1.text ∈ modelColumns) ∧ x.2 = addIdKey limit marker sortKeys sortDirs ∧
        x.2.2.length = x.2.1.length ∧ (∀ key ∈ x.2.1, key ∈ modelColumns) ∧
          x.1 = Paging.page (T.orderBy (x.2.1.zip x.2.2)) limit marker (T.matching filters) := by
  rw [Table.getCollection, bind_ok]
  simp only [bind_ok, applyFilters_ok, paginateQuery_ok]
  constructor
  · rintro ⟨rows, ⟨hcolumns, rfl⟩, collection, ⟨hlen, hkeys, rfl⟩, hx⟩
    cases hx
    exact ⟨hcolumns, rfl, hlen, hkeys, rfl⟩
  · obtain ⟨collection, sorts⟩ := x
    rintro ⟨hcolumns, hsorts, hlen, hkeys, hpage⟩
    subst hsorts
    exact ⟨_, ⟨hcolumns, rfl⟩, collection, ⟨hlen, hkeys, hpage⟩, rfl⟩

theorem validateQueryParams_ok {limit : Int} {sortKeys sortDirs dirs : List Text} :
    validateQueryParams limit sortKeys sortDirs = .ok dirs ↔
      0 < limit ∧ sortDirs.length ≤ sortKeys.length ∧
        dirs = sortDirs ++ List.replicate (sortKeys.length - sortDirs.length) ascText ∧
        ∀ dir ∈ dirs, dir ∈ [ascText, descText] := by
  rw [validateQueryParams]
  split
  next hlimit => exact ⟨nofun, fun h => absurd h.1 (by omega)⟩
  next hlimit =>
    split
    next hlen => exact ⟨nofun, fun h => absurd h.2.1 (by omega)⟩
    next hlen =>
      dsimp only
      split
      next hdirs => exact ⟨fun h => by cases h; exact ⟨by omega, by omega, rfl, hdirs⟩, fun h => by rw [h.2.2.1]⟩
      next hdirs => exact ⟨nofun, fun h => absurd (h.2.2.1 ▸ h.2.2.2) hdirs⟩

theorem validateFields_ok {fields : List Text} : validateFields fields = .ok () ↔ ∀ f ∈ fields, f ∈ taskFields := by
  rw [validateFields]
  cases hfilter : fields.filter (· ∉ taskFields) with
  | nil =>
    exact ⟨fun _ f hf => by simpa using List.filter_eq_nil_iff.mp hfilter f hf, fun _ => rfl⟩
  | cons f invalid =>
    have hf : f ∈ fields.filter (· ∉ taskFields) := by rw [hfilter]; exact List.mem_cons_self
    obtain ⟨hmem, hnot⟩ := List.mem_filter.mp hf
    exact ⟨nofun, fun h => absurd (h f hmem) (by simpa using hnot)⟩

theorem addIdKey_eq {limit : Nat} (hlimit : 0 < limit) (marker : Option ρ) (sortKeys sortDirs : List Text) :
    addIdKey limit marker sortKeys sortDirs =
      if idText ∈ sortKeys then (sortKeys, sortDirs)
      else (sortKeys ++ [idText], if sortDirs = [] then [] else sortDirs ++ [ascText]) := by
  rw [addIdKey]
  by_cases hid : idText ∈ sortKeys
  · rw [if_pos hid, if_neg]
    rintro (rfl | ⟨-, hnot⟩)
    · exact List.not_mem_nil hid
    · exact hnot hid
  · rw [if_neg hid, if_pos (Or.inr ⟨Or.inr (Nat.ne_of_gt hlimit), hid⟩)]

theorem addIdKey_keys {limit : Nat} (hlimit : 0 < limit) (marker : Option ρ) {sortKeys : List Text} (sortDirs : List Text)
    (hnodup : sortKeys.Nodup) :
    idText ∈ (addIdKey limit marker sortKeys sortDirs).1 ∧ (addIdKey limit marker sortKeys sortDirs).1.Nodup := by
  rw [addIdKey_eq hlimit]
  split
  next hid => exact ⟨hid, hnodup⟩
  next hid =>
    refine ⟨by simp, List.nodup_append.mpr ⟨hnodup, by simp, ?_⟩⟩
    rintro a ha b hb rfl
    exact hid (List.mem_singleton.mp hb ▸ ha)

theorem addIdKey_dirs {limit : Nat} (hlimit : 0 < limit) (marker : Option ρ) (sortKeys : List Text) {sortDirs : List Text}
    (hdirs : ∀ dir ∈ sortDirs, dir ∈ [ascText, descText]) :
    ∀ dir ∈ (addIdKey limit marker sortKeys sortDirs).2, dir ∈ [ascText, descText] := by
  rw [addIdKey_eq hlimit]
  split
  · exact hdirs
  · split
    · exact fun dir hdir => absurd hdir List.not_mem_nil
    · intro dir hdir
      rcases List.mem_append.mp hdir with hdir | hdir
      · exact hdirs dir hdir
      · rw [List.mem_singleton.mp hdir]
        exact List.mem_cons_self

theorem clampLimit_le (limit : Option Int) : clampLimit maxLimit limit ≤ maxLimit := by
  cases limit with
  | none => exact le_refl _
  | some limit =>
    rw [clampLimit]
    split <;> omega

/-- What an answer comes from: what was asked, with the filters of the request, and a page of the rows that meet them. -/
theorem getAll_ok {raw : Raw} {resp : Response J ρ} (h : getAll T maxLimit raw = .ok resp) :
    ColumnsRead F raw ∧ ∃ asked limit marker, asked.Valid F ∧ asked.filters = filtersOf F raw ∧ 0 < limit ∧
      limit ≤ maxLimit ∧ (raw .marker = none → marker = none) ∧ resp = T.respond asked limit marker := by
  rw [getAll, bind_ok] at h
  obtain ⟨args, hargs, hrest⟩ := h
  simp only [readArguments, bind_ok] at hargs
  obtain ⟨markerId, hmarkerId, limit, -, columns, hcolumns, hargs⟩ := hargs
  cases hargs
  obtain ⟨hread, rfl⟩ := readColumns_ok.mp hcolumns
  simp only [restGetAll, bind_ok, createFilters_map] at hrest
  obtain ⟨dirs, hdirs, ⟨⟩, hfields, marker, hmarker, ⟨collection, sortKeys, sortDirs⟩, hcollection, hresp⟩ := hrest
  obtain ⟨hpos, -, -, hdirs⟩ := validateQueryParams_ok.mp hdirs
  obtain ⟨hfilters, hsorts, hlen, hkeys, hpage⟩ := getCollection_ok.mp hcollection
  have hle : clampLimit maxLimit limit ≤ maxLimit := clampLimit_le limit
  have hlimit : 0 < (clampLimit maxLimit limit).toNat := by omega
  have hunique : (uniqueListValidate F ((raw .sortKeys).getD "created_at".toList)).Nodup := nodup_unique
  obtain ⟨hidKey, hnodupKeys⟩ := addIdKey_keys hlimit marker dirs hunique
  have hdirs' := addIdKey_dirs hlimit marker (uniqueListValidate F ((raw .sortKeys).getD "created_at".toList)) hdirs
  cases hresp
  refine ⟨hread, _, _, marker, ?_, rfl, hlimit, by omega, ?_, by rw [hpage]; rfl⟩
  · simp only at hsorts
    have hfieldsNodup : (uniqueListValidate F ((raw .fields).getD "".toList)).Nodup := nodup_unique
    refine ⟨?_, ?_, hkeys, hlen, ?_, ?_, validateFields_ok.mp hfields, ?_, ⟨raw, rfl⟩, hfilters⟩
    · rw [show sortKeys = _ from congrArg Prod.fst hsorts]
      exact hidKey
    · rw [show sortKeys = _ from congrArg Prod.fst hsorts]
      exact hnodupKeys
    · rw [show sortDirs = _ from congrArg Prod.snd hsorts]
      exact hdirs'
    · show (if _ then _ else _ : List Text).Nodup
      split
      next hid => exact List.nodup_cons.mpr ⟨hid.2, hfieldsNodup⟩
      next => exact hfieldsNodup
    · show (if _ then _ else _ : List Text) ≠ [] → idText ∈ (if _ then _ else _ : List Text)
      split
      next => exact fun _ => List.mem_cons_self
      next hid =>
        intro hne
        by_contra hnot
        exact hid ⟨hne, hnot⟩
  · intro hnone
    have hmarkerNone : markerId = none := by
      rw [(readParam_ok.mp hmarkerId).2, hnone]
      rfl
    subst hmarkerNone
    cases hmarker
    rfl

/-! ### Answers to links -/

theorem uuidValidate_id {t : Text} (h : F.isUuidLike t) : uuidValidate F t = some t := by
  rcases extract_cases (J := J) t with ⟨-, heq⟩ | ⟨f, u, rfl⟩
  · rw [uuidValidate, heq]
    exact if_pos h
  · have hfilters := F.uuid_filters _ h
    rw [hasFilters, List.any_eq_false] at hfilters
    exact absurd (List.isPrefixOf_iff_prefix.mpr (List.prefix_append f.pre u)) (hfilters f (by cases f <;> decide))

theorem getMarker_id {m : ρ} (hm : m ∈ T.rows) : T.getMarker (some (T.id m)) = .ok (some m) := by
  rw [Table.getMarker]
  cases hfind : T.rows.find? (T.id · = T.id m) with
  | none => exact absurd (decide_eq_true rfl) (List.find?_eq_none.mp hfind m hm)
  | some r =>
    have hid : T.id r = T.id m := by simpa using List.find?_some hfind
    have heq : r = m := List.inj_on_of_nodup_map T.nodup_ids (List.mem_of_find?_eq_some hfind) hm hid
    rw [heq]
    rfl

/-- A request that states what was asked, and a row as its marker, is answered by the page after that row. -/
theorem getAll_of_reads {asked : Asked J} {limit : Nat} {m : ρ} {raw : Raw} (hvalid : asked.Valid F) (hpos : 0 < limit)
    (hle : limit ≤ maxLimit) (hm : m ∈ T.rows) (hmarker : raw .marker = some (T.id m))
    (hlimit : raw .limit = some (Nat.toDigits 10 limit))
    (hkeys : raw .sortKeys = some ([','].intercalate asked.sortKeys))
    (hdirs : raw .sortDirs = some ([','].intercalate asked.sortDirs))
    (hfields : raw .fields = if asked.fields = [] then none else some ([','].intercalate asked.fields))
    (hread : ColumnsRead F raw) (hfilters : filtersOf F raw = asked.filters) :
    getAll T maxLimit raw = .ok (T.respond asked limit (some m)) := by
  have hsortKeys : uniqueListValidate F ((raw .sortKeys).getD "created_at".toList) = asked.sortKeys := by
    rw [hkeys, Option.getD_some, uniqueListValidate_words (fun k hk => isWord_column k (hvalid.keys k hk)) hvalid.nodup_keys]
  have hsortDirs : listValidate F ((raw .sortDirs).getD "asc".toList) = asked.sortDirs := by
    rw [hdirs, Option.getD_some, listValidate_words fun d hd => isWord_dir d (hvalid.dirs d hd)]
  have hfieldsRead : uniqueListValidate F ((raw .fields).getD "".toList) = asked.fields := by
    rw [hfields]
    split
    next hnil =>
      rw [hnil]
      exact uniqueListValidate_words (l := []) nofun List.nodup_nil
    next =>
      rw [Option.getD_some, uniqueListValidate_words (fun f hf => isWord_field f (hvalid.fields f hf)) hvalid.nodup_fields]
  have hargs : readArguments F raw = .ok
      { marker := some (T.id m), limit := some limit, sortKeys := asked.sortKeys, sortDirs := asked.sortDirs,
        fields := asked.fields, columns := Column.all.map fun c => (c, columnData F raw c) } := by
    simp only [readArguments, bind_ok]
    refine ⟨some (T.id m), readParam_ok.mpr ⟨?_, ?_⟩, some (limit : Int), readParam_ok.mpr ⟨?_, ?_⟩, _,
      readColumns_ok.mpr ⟨hread, rfl⟩, by rw [hsortKeys, hsortDirs, hfieldsRead]; rfl⟩
    · intro t ht
      cases hmarker.symm.trans ht
      rw [uuidValidate_id (T.uuid_id m hm)]
      rfl
    · rw [hmarker, Option.bind_some, uuidValidate_id (T.uuid_id m hm)]
    · intro t ht
      cases hlimit.symm.trans ht
      rw [F.int_decimal]
      rfl
    · rw [hlimit, Option.bind_some, F.int_decimal]
  have hclamp : clampLimit maxLimit (some (limit : Int)) = limit := by
    rw [clampLimit, if_neg (by omega)]
  have hvalidate : validateQueryParams limit asked.sortKeys asked.sortDirs = .ok asked.sortDirs :=
    validateQueryParams_ok.mpr ⟨by omega, hvalid.length_dirs.le, by simp [hvalid.length_dirs], hvalid.dirs⟩
  have hidField : ¬(asked.fields ≠ [] ∧ idText ∉ asked.fields) := fun h => h.2 (hvalid.id_field h.1)
  have hadd : addIdKey limit (some m) asked.sortKeys asked.sortDirs = (asked.sortKeys, asked.sortDirs) := by
    rw [addIdKey_eq hpos, if_pos hvalid.id_key]
  have hcollection : T.getCollection limit (some m) asked.sortKeys asked.sortDirs asked.filters =
      .ok (Paging.page (T.orderOf asked) limit (some m) (T.matching asked.filters), asked.sortKeys, asked.sortDirs) :=
    getCollection_ok.mpr ⟨hvalid.columns, hadd.symm, hvalid.length_dirs, hvalid.keys, rfl⟩
  rw [getAll, bind_ok]
  refine ⟨_, hargs, ?_⟩
  rw [createFilters_map, hfilters]
  simp only [restGetAll, bind_ok]
  refine ⟨asked.sortDirs, by rw [hclamp]; exact hvalidate, (), ?_, some m, getMarker_id hm, _,
    by rw [hclamp]; exact hcollection, ?_⟩
  · rw [if_neg hidField]
    exact validateFields_ok.mpr hvalid.fields
  · rw [if_neg hidField, hclamp]
    rfl

end Mistral.TaskListing
