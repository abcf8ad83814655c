import Mistral.Lib.Lists
import Mistral.Theorems.ListRequests

/-! What the link of a list of task executions states, and which filters are read from it as they were: it states them by
    string formatting, and the types of the parameters read them again. -/

namespace Mistral.TaskListing

variable {J ρ : Type} {F : Frameworks J}

/-! ### The query of a link -/

/-- The parameters that a link states. -/
def linkParams (F : Frameworks J) (asked : Asked J) (limit : Nat) (marker : Text) : List (Param × Text) :=
  (Param.sortKeys, [','].intercalate asked.sortKeys) :: (Param.sortDirs, [','].intercalate asked.sortDirs) ::
    (asked.filters.map fun (c, f, v) => (Param.column c, f.pre ++ formatValue F v)) ++
    (Param.limit, Nat.toDigits 10 limit) :: (Param.marker, marker) ::
    if asked.fields = [] then [] else [(Param.fields, [','].intercalate asked.fields)]

theorem flatMap_append_intercalate {xs ys : List Text} (hys : ys ≠ []) :
    xs.flatMap (· ++ ['&']) ++ ['&'].intercalate ys = ['&'].intercalate (xs ++ ys) := by
  induction xs with
  | nil => rfl
  | cons x xs ih =>
    rw [List.flatMap_cons, List.append_assoc, ih, List.cons_append, List.intercalate_cons_of_ne_nil (by simp [hys])]

/-- A link is its parameters, with ampersands between them. -/
theorem getNext_eq (asked : Asked J) (limit : Nat) (marker : Text) :
    getNext F asked limit marker =
      ['&'].intercalate ((linkParams F asked limit marker).map fun p => keyValue p.1 p.2) := by
  have hfilters : asked.filters.flatMap (fun (c, f, v) =>
      keyValue (.column c) (f.text ++ ':' :: formatValue F v) ++ ['&']) =
      ((asked.filters.map fun (c, f, v) => (Param.column c, f.pre ++ formatValue F v)).map
        fun p => keyValue p.1 p.2).flatMap (· ++ ['&']) := by
    rw [List.map_map, List.flatMap_map]
    exact List.flatMap_congr fun p _ => by simp [FilterType.pre]
  rw [linkParams, List.map_append, ← flatMap_append_intercalate (by simp), getNext, hfilters]
  split <;> simp [List.intercalate_cons_of_ne_nil, List.append_assoc]

/-- What a link states of a parameter. -/
def linkValue (F : Frameworks J) (asked : Asked J) (limit : Nat) (marker : Text) : Param → Option Text
  | .sortKeys => some ([','].intercalate asked.sortKeys)
  | .sortDirs => some ([','].intercalate asked.sortDirs)
  | .limit => some (Nat.toDigits 10 limit)
  | .marker => some marker
  | .fields => if asked.fields = [] then none else some ([','].intercalate asked.fields)
  | .column c => (asked.filters.lookup c).map fun (f, v) => f.pre ++ formatValue F v

theorem lookup_columns (filters : Filters J) (p : Param) :
    (filters.map fun (c, f, v) => (Param.column c, f.pre ++ formatValue F v)).lookup p =
      match p with
      | .column c => (filters.lookup c).map fun (f, v) => f.pre ++ formatValue F v
      | _ => none := by
  induction filters with
  | nil => cases p <;> rfl
  | cons q filters ih =>
    obtain ⟨c, f, v⟩ := q
    rw [List.map_cons, Lists.lookup_cons_ite, ih]
    cases p with
    | column d =>
      show _ = (List.lookup d ((c, f, v) :: filters)).map _
      rw [Lists.lookup_cons_ite]
      by_cases hd : d = c <;> simp [hd]
    | _ => rfl

theorem lookup_linkParams (asked : Asked J) (limit : Nat) (marker : Text) (p : Param) :
    (linkParams F asked limit marker).lookup p = linkValue F asked limit marker p := by
  rw [linkParams, List.cons_append, List.cons_append, Lists.lookup_cons_ite, Lists.lookup_cons_ite, List.lookup_append, lookup_columns,
    Lists.lookup_cons_ite, Lists.lookup_cons_ite]
  by_cases hfields : asked.fields = [] <;> cases p <;> simp [linkValue, hfields, Lists.lookup_cons_ite]

theorem nodup_linkParams {asked : Asked J} (limit : Nat) (marker : Text) (hnodup : (asked.filters.map Prod.fst).Nodup) :
    ((linkParams F asked limit marker).map Prod.fst).Nodup := by
  have hcolumns : (asked.filters.map fun f => Param.column f.1).Nodup := by
    have hmap := hnodup.map (f := Param.column) fun a b h => Param.column.inj h
    rwa [List.map_map] at hmap
  have hrest : ((if asked.fields = [] then [] else [(Param.fields, [','].intercalate asked.fields)]).map Prod.fst) =
      if asked.fields = [] then [] else [Param.fields] := by
    split <;> rfl
  have hfst : (linkParams F asked limit marker).map Prod.fst = Param.sortKeys :: Param.sortDirs ::
      (asked.filters.map fun f => Param.column f.1) ++ Param.limit :: Param.marker ::
        if asked.fields = [] then [] else [Param.fields] := by
    rw [linkParams, List.map_append, List.map_cons, List.map_cons, List.map_map, List.map_cons, List.map_cons, hrest]
    rfl
  rw [hfst]
  split
  all_goals
    simp only [List.cons_append, List.nodup_cons, List.nodup_append, hcolumns, true_and]
    simp
    rintro _ c f v - rfl
    simp

/-- The link is read as the parameters that it states, decoded. -/
theorem readLink_getNext {asked : Asked J} {limit : Nat} {marker : Text} (hnodup : (asked.filters.map Prod.fst).Nodup)
    (hsep : ∀ p ∈ linkParams F asked limit marker, '&' ∉ p.2 ∧ '#' ∉ p.2) :
    readLink F (getNext F asked limit marker) =
      some fun p => (linkValue F asked limit marker p).map (QueryStrings.unquote F.utf8) := by
  have hstated : (linkParams F asked limit marker).map (fun p => keyValue p.1 p.2) =
      ((linkParams F asked limit marker).map fun p => (p.1.text, p.2)).map QueryStrings.stated := by
    rw [List.map_map]
    rfl
  have hread : QueryStrings.parameters F.utf8 (getNext F asked limit marker) =
      ((linkParams F asked limit marker).map fun p => (p.1, QueryStrings.unquote F.utf8 p.2)).map
        fun p => (p.1.text, p.2) := by
    rw [getNext_eq, hstated, QueryStrings.parameters_intercalate F.length_utf8, List.map_map, List.map_map]
    · rfl
    · intro p hp
      obtain ⟨q, -, rfl⟩ := List.mem_map.mp hp
      exact isName_param q.1
    · intro p hp
      obtain ⟨q, hq, rfl⟩ := List.mem_map.mp hp
      exact hsep q hq
    · simp [linkParams]
  have hfst : (((linkParams F asked limit marker).map fun p => (p.1, QueryStrings.unquote F.utf8 p.2)).map Prod.fst) =
      (linkParams F asked limit marker).map Prod.fst := by
    rw [List.map_map]
    rfl
  rw [readLink, hread, F.arguments_distinct _ (by rw [hfst]; exact nodup_linkParams limit marker hnodup), Option.some.injEq]
  funext p
  rw [Lists.lookup_map_snd, lookup_linkParams]

/-! ### What a link keeps of a filter -/

theorem nodup_filtersOf (raw : Raw) : ((filtersOf F raw).map Prod.fst).Nodup := by
  rw [filtersOf, Lists.map_fst_filterMap]
  exact List.Nodup.filter _ (by decide)

theorem lookup_filtersOf (raw : Raw) (c : Column) : (filtersOf F raw).lookup c = (columnData F raw c).map createFilter :=
  Lists.lookup_filterMap _ (column_mem_all c)

theorem mem_filtersOf {raw : Raw} {c : Column} {f : FilterType × Value J} :
    (c, f) ∈ filtersOf F raw ↔ ∃ d, columnData F raw c = some d ∧ createFilter d = f := by
  rw [filtersOf, List.mem_filterMap]
  constructor
  · rintro ⟨b, -, hb⟩
    obtain ⟨g, hg, heq⟩ := Option.map_eq_some_iff.mp hb
    cases heq
    exact Option.map_eq_some_iff.mp hg
  · rintro ⟨d, hd, rfl⟩
    exact ⟨c, column_mem_all c, by rw [hd]; rfl⟩

theorem columnData_eq_some {raw : Raw} {c : Column} {d : Value J} (h : columnData F raw c = some d) :
    ∃ t, raw (.column c) = some t ∧ convert F c.kind t = some (some d) := by
  rw [columnData] at h
  obtain ⟨t, ht, hd⟩ := Option.bind_eq_some_iff.mp h
  exact ⟨t, ht, Option.join_eq_some_iff.mp hd⟩

/-- A value of a filter is a text or a list of texts if it is extracted. -/
theorem extract_shape {data : Text} {f : FilterType} {v : Value J} (h : extractFilterTypeAndValue data = (f, v)) :
    (∃ t, v = .text t) ∨ ∃ l, v = .list l := by
  rcases extract_cases (J := J) data with ⟨-, heq⟩ | ⟨g, u, rfl⟩
  · rw [heq] at h
    cases h
    exact Or.inl ⟨_, rfl⟩
  · rw [extract_pre] at h
    split at h <;> cases h
    · exact Or.inr ⟨_, rfl⟩
    · exact Or.inl ⟨_, rfl⟩

theorem uuidValidate_like {t u : Text} (h : uuidValidate F t = some u) : F.isUuidLike u := by
  rw [uuidValidate] at h
  split at h
  · split at h
    next hlike => cases h; exact hlike
    next => cases h
  · cases h

theorem extract_uuid {t : Text} (h : F.isUuidLike t) :
    (extractFilterTypeAndValue t : FilterType × Value J) = (.eq, .text t) := by
  rcases extract_cases (J := J) t with ⟨-, heq⟩ | ⟨f, u, rfl⟩
  · exact heq
  · have hfilters := F.uuid_filters _ h
    rw [hasFilters, List.any_eq_false] at hfilters
    exact absurd (List.isPrefixOf_iff_prefix.mpr (List.prefix_append f.pre u)) (hfilters f (by cases f <;> decide))

theorem pre_chars (f : FilterType) : ∀ c ∈ f.pre, c ≠ '&' ∧ c ≠ '#' ∧ c ≠ '+' ∧ c ≠ '%' := by
  cases f <;> exact forall_chars (by decide)

/-- A value goes through a query as it is. -/
def Survives (v : Text) : Prop := QueryStrings.unescaped v ∧ '&' ∉ v ∧ '#' ∉ v

instance (v : Text) : Decidable (Survives v) := inferInstanceAs (Decidable (_ ∧ _))

/-- A filter that a link states in the way in which its parameter is read: one text, in a column of texts or
    identifiers, or a value whose type takes the name of the filter type before it. -/
def Kept (F : Frameworks J) : Column × FilterType × Value J → Prop
  | (c, f, .text v) =>
    match c.kind with
    | .text => Survives v
    | .uuid => True
    | .state => Survives v ∧ F.isState (f.pre ++ v)
    | _ => False
  | (c, f, .flag b) => c.kind = .flag ∧ F.flag (f.pre ++ formatValue F (.flag b)) = some b
  | _ => False

/-- The values of a request have neither of the characters that end a parameter of a query. -/
def Unbroken (F : Frameworks J) (filters : Filters J) : Prop :=
  ∀ f ∈ filters, '&' ∉ formatValue F f.2.2 ∧ '#' ∉ formatValue F f.2.2

theorem Kept.unbroken {raw : Raw} {c : Column} {f : FilterType} {v : Value J} (hmem : (c, f, v) ∈ filtersOf F raw)
    (h : Kept F (c, f, v)) :
    ('&' ∉ formatValue F v ∧ '#' ∉ formatValue F v) ∧ QueryStrings.unquote F.utf8 (formatValue F v) = formatValue F v := by
  have hsurvives : ∀ {t : Text}, Survives t → ('&' ∉ t ∧ '#' ∉ t) ∧ QueryStrings.unquote F.utf8 t = t := fun ht =>
    ⟨ht.2, (QueryStrings.unquote_eq_self_iff F.length_utf8).mpr ht.1⟩
  obtain ⟨d, hd, hcreate⟩ := mem_filtersOf.mp hmem
  obtain ⟨t, -, hconvert⟩ := columnData_eq_some hd
  cases v with
  | text v =>
    rw [Kept] at h
    cases hkind : c.kind with
    | text => exact hsurvives (t := v) (by simpa [hkind] using h)
    | state =>
      simp only [hkind] at h
      exact hsurvives h.1
    | uuid =>
      rw [hkind, convert] at hconvert
      obtain ⟨u, hu, heq⟩ := Option.map_eq_some_iff.mp hconvert
      cases heq
      have hlike := uuidValidate_like hu
      rw [createFilter, extract_uuid hlike] at hcreate
      cases hcreate
      have hchars := F.uuid_chars v hlike
      exact ⟨⟨fun h => (hchars _ h).1 rfl, fun h => (hchars _ h).2.1 rfl⟩,
        QueryStrings.unquote_eq_self F.length_utf8 fun c hc => (hchars c hc).2.2⟩
    | _ => simp [hkind] at h
  | flag b =>
    have hplain : ∀ c ∈ formatValue F (.flag b), c ≠ '&' ∧ c ≠ '#' ∧ c ≠ '+' ∧ c ≠ '%' := by
      cases b with
      | true => exact forall_chars (s := "True".toList) (by decide)
      | false => exact forall_chars (s := "False".toList) (by decide)
    exact ⟨⟨fun h => (hplain _ h).1 rfl, fun h => (hplain _ h).2.1 rfl⟩,
      QueryStrings.unquote_eq_self F.length_utf8 fun c hc => (hplain c hc).2.2⟩
  | list l => exact h.elim
  | json j => exact h.elim

/-- The type of its parameter reads a filter that is kept as the same filter. -/
theorem Kept.reads {raw : Raw} {c : Column} {f : FilterType} {v : Value J} (hmem : (c, f, v) ∈ filtersOf F raw)
    (h : Kept F (c, f, v)) :
    ∃ d, convert F c.kind (f.pre ++ formatValue F v) = some (some d) ∧ createFilter d = (f, v) := by
  obtain ⟨d, hd, hcreate⟩ := mem_filtersOf.mp hmem
  obtain ⟨t, -, hconvert⟩ := columnData_eq_some hd
  cases v with
  | text v =>
    rw [Kept] at h
    cases hkind : c.kind with
    | text =>
      rw [hkind] at hconvert
      cases hconvert
      exact ⟨_, rfl, extract_text hcreate v⟩
    | state =>
      simp only [hkind] at h
      rw [hkind, convert] at hconvert
      split at hconvert
      · cases hconvert
        exact ⟨_, if_pos h.2, extract_text hcreate v⟩
      · cases hconvert
    | uuid =>
      rw [hkind, convert] at hconvert
      obtain ⟨u, hu, heq⟩ := Option.map_eq_some_iff.mp hconvert
      cases heq
      have hlike := uuidValidate_like hu
      rw [createFilter, extract_uuid hlike] at hcreate
      cases hcreate
      have hagain : uuidValidate F (FilterType.eq.pre ++ v) = some v := by
        rw [uuidValidate, extract_pre, if_neg (by decide)]
        exact if_pos hlike
      refine ⟨.text v, ?_, extract_uuid hlike⟩
      rw [convert, formatValue, hagain]
      rfl
    | _ => simp [hkind] at h
  | flag b =>
    obtain ⟨hkind, hflag⟩ := h
    rw [hkind, convert] at hconvert
    obtain ⟨b', -, heq⟩ := Option.map_eq_some_iff.mp hconvert
    cases heq
    cases hcreate
    rw [hkind, convert, hflag]
    exact ⟨.flag b, rfl, rfl⟩
  | list l => exact h.elim
  | json j => exact h.elim

/-- The characters that a literal of a list begins with, and those of the filter type before it. -/
def opening (c : Char) : Bool := c ∈ ['[', '\'', '"', '\\', 'e', 'q', ':']

theorem small_opening {c : Char} (h : opening c) : Small c := by
  have hall : ∀ c ∈ ['[', '\'', '"', '\\', 'e', 'q', ':'], Small c := forall_chars (by decide)
  exact hall c (by simpa [opening] using h)

theorem front_le_unquote (s : Text) : Literals.front opening s ≤ Literals.front opening (QueryStrings.unquote F.utf8 s) := by
  have hall : ∀ c ∈ s.takeWhile opening, opening c := fun c hc => List.mem_takeWhile_imp hc
  have hplain : ∀ c ∈ s.takeWhile opening, c ≠ '+' ∧ c ≠ '%' := by
    intro c hc
    refine ⟨?_, ?_⟩ <;>
    · rintro rfl
      exact absurd (hall _ hc) (by decide)
  calc Literals.front opening s = (s.takeWhile opening).length := rfl
    _ ≤ (s.takeWhile opening).length + Literals.front opening (QueryStrings.unquote F.utf8 (s.dropWhile opening)) :=
      Nat.le_add_right _ _
    _ = Literals.front opening (QueryStrings.unquote F.utf8 (s.takeWhile opening ++ s.dropWhile opening)) := by
      rw [QueryStrings.unquote_append F.length_utf8 hplain, Literals.front_append_of_pos hall]
    _ = _ := by rw [List.takeWhile_append_dropWhile]

theorem front_lt_unquote_reprList (l : List Text) :
    Literals.front opening ([','].intercalate l) <
      Literals.front opening (QueryStrings.unquote F.utf8 (Literals.reprList F.printed l)) :=
  Nat.lt_of_lt_of_le
    (Literals.front_lt_reprList (by decide) (by decide) (fun c hc => F.printed_small c (small_opening hc)) (by decide)
      (by decide))
    (front_le_unquote _)

/-- The literal of a list, split at its commas, is another list. -/
theorem split_reprList_ne (l : List Text) :
    (QueryStrings.unquote F.utf8 (Literals.reprList F.printed l)).splitOn ',' ≠ l := by
  intro h
  have hlt := front_lt_unquote_reprList (F := F) l
  rw [← h, List.intercalate_splitOn, h] at hlt
  exact absurd hlt (Nat.lt_irrefl _)

/-- Lists of items are not read from their literals. -/
theorem uniqueList_reprList_ne (l : List Text) :
    uniqueListValidate F (FilterType.eq.pre ++ QueryStrings.unquote F.utf8 (Literals.reprList F.printed l)) ≠ l := by
  intro h
  have hpre : ∀ c ∈ FilterType.eq.pre, opening c := forall_chars (by decide)
  obtain ⟨s, rest, hsplit⟩ := List.exists_cons_of_ne_nil (List.splitOn_ne_nil ','
    (FilterType.eq.pre ++ QueryStrings.unquote F.utf8 (Literals.reprList F.printed l)))
  have hjoin : [','].intercalate (s :: rest) =
      FilterType.eq.pre ++ QueryStrings.unquote F.utf8 (Literals.reprList F.printed l) := by
    rw [← hsplit, List.intercalate_splitOn]
  have hfirst : Literals.front opening ([','].intercalate (s :: rest)) = Literals.front opening s :=
    Literals.front_intercalate (by decide)
  have hfront : Literals.front opening s = FilterType.eq.pre.length +
      Literals.front opening (QueryStrings.unquote F.utf8 (Literals.reprList F.printed l)) := by
    rw [← hfirst, hjoin, Literals.front_append_of_pos hpre]
  have hsmall : ∀ c ∈ s.takeWhile opening, Small c := fun c hc => small_opening (List.mem_takeWhile_imp hc)
  have hne : s.takeWhile opening ≠ [] := by
    intro hnil
    have hlen : FilterType.eq.pre.length = 3 := by decide
    rw [Literals.front, hnil, hlen, List.length_nil] at hfront
    omega
  -- Neither blanks nor lower case change how the first item begins.
  obtain ⟨t, ht⟩ := strip_append (F := F) (t := s.dropWhile opening) hsmall hne
  obtain ⟨u, hu⟩ := F.lower_append _ t hsmall
  have hitem : F.lower (Lines.strip F.space s) = s.takeWhile opening ++ u := by
    rw [← hu, ← ht, List.takeWhile_append_dropWhile]
  have hhead : ∃ items, l = (s.takeWhile opening ++ u) :: items := by
    rw [← h, uniqueListValidate, listValidate, hsplit, List.map_cons, hitem, List.filter_cons_of_pos (by simp [hne]), unique,
      if_neg List.not_mem_nil]
    exact ⟨_, rfl⟩
  obtain ⟨items, hitems⟩ := hhead
  have hlt := front_lt_unquote_reprList (F := F) l
  have hle : Literals.front opening s ≤ Literals.front opening ([','].intercalate l) := by
    have hall : ∀ c ∈ s.takeWhile opening, opening c := fun c hc => List.mem_takeWhile_imp hc
    rw [hitems, Literals.front_intercalate (by decide), Literals.front_append_of_pos hall]
    exact Nat.le_add_right _ _
  omega

/-- A filter that is read again as it was is one that is kept. -/
theorem kept_of_reads {raw : Raw} {c : Column} {f : FilterType} {v d : Value J} (hmem : (c, f, v) ∈ filtersOf F raw)
    (hunbroken : '&' ∉ formatValue F v ∧ '#' ∉ formatValue F v)
    (hread : convert F c.kind (QueryStrings.unquote F.utf8 (f.pre ++ formatValue F v)) = some (some d))
    (hd : createFilter d = (f, v)) : Kept F (c, f, v) := by
  obtain ⟨d₀, hd₀, hcreate⟩ := mem_filtersOf.mp hmem
  obtain ⟨t, -, hconvert⟩ := columnData_eq_some hd₀
  rw [QueryStrings.unquote_append F.length_utf8 fun c hc => (pre_chars f c hc).2.2] at hread
  -- A text or a list behind its filter type, as a text or an enumeration reads it.
  have htext : ∀ t, (extractFilterTypeAndValue t : FilterType × Value J) = (f, v) →
      extractFilterTypeAndValue (f.pre ++ QueryStrings.unquote F.utf8 (formatValue F v)) = (f, v) →
      ∃ u, v = .text u ∧ Survives u := by
    intro t ht hagain
    rcases extract_shape ht with ⟨u, rfl⟩ | ⟨l, rfl⟩
    · rw [extract_text ht] at hagain
      have hsame : QueryStrings.unquote F.utf8 u = u := by simpa [formatValue] using hagain
      exact ⟨u, rfl, (QueryStrings.unquote_eq_self_iff F.length_utf8).mp hsame, hunbroken⟩
    · rw [extract_list ht] at hagain
      exact absurd (by simpa [formatValue] using hagain) (split_reprList_ne (F := F) l)
  cases hkind : c.kind with
  | text =>
    rw [hkind] at hconvert hread
    cases hconvert
    cases hread
    obtain ⟨u, rfl, hu⟩ := htext t hcreate hd
    simpa [Kept, hkind] using hu
  | state =>
    rw [hkind, convert] at hconvert hread
    split at hconvert
    · split at hread
      next hstate =>
        cases hconvert
        cases hread
        obtain ⟨u, rfl, hu⟩ := htext t hcreate hd
        rw [formatValue, (QueryStrings.unquote_eq_self_iff F.length_utf8).mpr hu.1] at hstate
        simpa [Kept, hkind] using ⟨hu, hstate⟩
      next => cases hread
    · cases hconvert
  | uuid =>
    rw [hkind, convert] at hconvert
    obtain ⟨u, hu, heq⟩ := Option.map_eq_some_iff.mp hconvert
    cases heq
    rw [createFilter, extract_uuid (uuidValidate_like hu)] at hcreate
    cases hcreate
    simp [Kept, hkind]
  | uniqueList =>
    rw [hkind] at hconvert hread
    cases hconvert
    cases hcreate
    cases hread
    exact absurd (by simpa [createFilter, formatValue] using hd) (uniqueList_reprList_ne (F := F) _)
  | json =>
    rw [hkind, convert, F.loads_filter] at hread
    cases hread
  | flag =>
    rw [hkind, convert] at hconvert hread
    obtain ⟨b₀, -, heq₀⟩ := Option.map_eq_some_iff.mp hconvert
    obtain ⟨b, hb, heq⟩ := Option.map_eq_some_iff.mp hread
    cases heq₀
    cases heq
    cases hcreate
    cases hd
    have hplain : ∀ c ∈ formatValue F (.flag b₀), c ≠ '+' ∧ c ≠ '%' := by
      cases b₀ with
      | true => exact forall_chars (s := "True".toList) (by decide)
      | false => exact forall_chars (s := "False".toList) (by decide)
    rw [QueryStrings.unquote_eq_self F.length_utf8 hplain] at hb
    exact ⟨hkind, hb⟩

end Mistral.TaskListing
