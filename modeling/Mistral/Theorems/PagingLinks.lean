import Mistral.Theorems.ListLinks

/-! Which links of lists of task executions ask for the page after theirs, and give each row once when they are followed. -/

namespace Mistral.TaskListing

variable {J ρ : Type} {F : Frameworks J} {T : Table F ρ} {maxLimit : Nat}

/-! ### The order of the rows -/

theorem transCmp_compareDir (T : Table F ρ) (key dir : Text) : Std.TransCmp (T.compareDir key dir) := by
  have htrans := T.transCmp key
  rw [Table.compareDir]
  split
  · exact inferInstanceAs (Std.TransCmp fun a b => T.compare key b a)
  · exact htrans

theorem transCmp_orderBy (T : Table F ρ) (sorts : List (Text × Text)) : Std.TransCmp (T.orderBy sorts) := by
  induction sorts with
  | nil => exact { eq_swap := rfl, isLE_trans := fun _ _ => rfl }
  | cons sort sorts ih =>
    have hfirst := transCmp_compareDir T sort.1 sort.2
    exact inferInstanceAs (Std.TransCmp (compareLex (T.compareDir sort.1 sort.2) (T.orderBy sorts)))

theorem orderBy_eq {sorts : List (Text × Text)} {a b : ρ} (h : T.orderBy sorts a b = .eq) :
    ∀ sort ∈ sorts, T.compareDir sort.1 sort.2 a b = .eq := by
  induction sorts with
  | nil => exact fun sort hsort => absurd hsort List.not_mem_nil
  | cons sort sorts ih =>
    obtain ⟨hfirst, hrest⟩ := Ordering.then_eq_eq.mp h
    exact List.forall_mem_cons.mpr ⟨hfirst, ih hrest⟩

theorem mem_matching {filters : Filters J} {r : ρ} (h : r ∈ T.matching filters) : r ∈ T.rows := List.mem_of_mem_filter h

theorem nodup_matching (T : Table F ρ) (filters : Filters J) : (T.matching filters).Nodup :=
  (List.Nodup.of_map _ T.nodup_ids).filter _

/-- The identifier among the sort keys leaves no two rows equal in the order. -/
theorem separates_orderOf {asked : Asked J} (hvalid : asked.Valid F) :
    Paging.Separates (T.orderOf asked) (T.matching asked.filters) := by
  intro a ha b hb heq
  have hkeys : (asked.sortKeys.zip asked.sortDirs).map Prod.fst = asked.sortKeys :=
    List.map_fst_zip hvalid.length_dirs.ge
  obtain ⟨sort, hsort, hid⟩ := List.mem_map.mp (hkeys ▸ hvalid.id_key)
  have hcompare := orderBy_eq heq sort hsort
  have hids : T.id a = T.id b := by
    rw [Table.compareDir, hid] at hcompare
    split at hcompare
    · exact (T.id_eq b a hcompare).symm
    · exact T.id_eq a b hcompare
  exact List.inj_on_of_nodup_map T.nodup_ids (mem_matching ha) (mem_matching hb) hids

/-! ### Links and their answers -/

/-- No field without a column stands before the identifier, so that the values are paired with their own fields up to it. -/
def IdInPlace (fields : List Text) : Prop := ∀ f ∈ fields.takeWhile (· ≠ idText), f ∈ modelColumns

theorem lookup_zip_shows {fields : List Text} {r : ρ} (hid : idText ∈ fields) (hplace : IdInPlace fields) :
    (fields.zip ((fields.filter (· ∈ modelColumns)).map (T.shows r))).lookup idText = some (T.shows r idText) := by
  induction fields with
  | nil => exact absurd hid List.not_mem_nil
  | cons f fields ih =>
    by_cases hf : f = idText
    · subst hf
      rw [List.filter_cons_of_pos (by decide), List.map_cons, List.zip_cons_cons, Lists.lookup_cons_ite, if_pos rfl]
    · have hcons : (f :: fields).takeWhile (· ≠ idText) = f :: fields.takeWhile (· ≠ idText) :=
        List.takeWhile_cons_of_pos (by simpa using hf)
      have hcolumn : f ∈ modelColumns := hplace f (by rw [hcons]; exact List.mem_cons_self)
      rw [List.filter_cons_of_pos (by simpa using hcolumn), List.map_cons, List.zip_cons_cons, Lists.lookup_cons_ite,
        if_neg fun h => hf h.symm]
      refine ih ((List.mem_cons.mp hid).resolve_left fun h => hf h.symm) fun g hg => hplace g ?_
      rw [hcons]
      exact List.mem_cons_of_mem _ hg

theorem resourceId_eq {asked : Asked J} (hvalid : asked.Valid F) (hplace : IdInPlace asked.fields) (r : ρ) :
    T.resourceId asked.fields r = T.id r := by
  rw [Table.resourceId]
  split
  next => rfl
  next hne => rw [lookup_zip_shows (hvalid.id_field hne) hplace, Option.getD_some, T.shows_id]

theorem words_chars {l : List Text} (h : ∀ s ∈ l, IsWord s) :
    ∀ c ∈ [','].intercalate l, c ≠ '&' ∧ c ≠ '#' ∧ c ≠ '+' ∧ c ≠ '%' := by
  intro c hc
  rcases QueryStrings.mem_intercalate hc with rfl | ⟨s, hs, hmem⟩
  · decide
  · have hword := h s hs
    exact ⟨hword.ne hmem (by decide), hword.ne hmem (by decide), hword.ne hmem (by decide), hword.ne hmem (by decide)⟩

theorem digits_chars (n : Nat) : ∀ c ∈ Nat.toDigits 10 n, c ≠ '&' ∧ c ≠ '#' ∧ c ≠ '+' ∧ c ≠ '%' := by
  intro c hc
  have hdigit : c.isDigit := Nat.isDigit_of_mem_toDigits (by decide) (by decide) hc
  refine ⟨?_, ?_, ?_, ?_⟩ <;>
  · rintro rfl
    exact absurd hdigit (by decide)

section
variable {asked : Asked J} {limit : Nat} {m : ρ} (hvalid : asked.Valid F)
include hvalid

/-- Apart from the filters, a link states nothing that a query changes. -/
theorem linkValue_chars {marker : Text} (hmarker : F.isUuidLike marker) {p : Param} (hp : ∀ c, p ≠ .column c) {t : Text}
    (ht : linkValue F asked limit marker p = some t) : ∀ c ∈ t, c ≠ '&' ∧ c ≠ '#' ∧ c ≠ '+' ∧ c ≠ '%' := by
  cases p with
  | sortKeys => cases ht; exact words_chars fun k hk => isWord_column k (hvalid.keys k hk)
  | sortDirs => cases ht; exact words_chars fun d hd => isWord_dir d (hvalid.dirs d hd)
  | limit => cases ht; exact digits_chars limit
  | marker => cases ht; exact F.uuid_chars marker hmarker
  | fields =>
    rw [linkValue] at ht
    split at ht
    · cases ht
    · cases ht
      exact words_chars fun f hf => isWord_field f (hvalid.fields f hf)
  | column c => exact absurd rfl (hp c)

theorem lookup_filters_mem {c : Column} {f : FilterType × Value J} (h : asked.filters.lookup c = some f) :
    (c, f) ∈ asked.filters := by
  obtain ⟨raw, hraw⟩ := hvalid.filters
  rw [hraw, lookup_filtersOf] at h
  rw [hraw]
  exact mem_filtersOf.mpr (Option.map_eq_some_iff.mp h)

/-- A link whose values have none of the characters that end a parameter is read as what it states. -/
theorem readLink_unbroken {marker : Text} (hmarker : F.isUuidLike marker) (hunbroken : Unbroken F asked.filters) :
    readLink F (getNext F asked limit marker) =
      some fun p => (linkValue F asked limit marker p).map (QueryStrings.unquote F.utf8) := by
  obtain ⟨raw, hraw⟩ := hvalid.filters
  have hnodup : (asked.filters.map Prod.fst).Nodup := hraw ▸ nodup_filtersOf raw
  refine readLink_getNext hnodup fun p hp => ?_
  have hlookup : linkValue F asked limit marker p.1 = some p.2 := by
    rw [← lookup_linkParams]
    exact Lists.lookup_of_mem (nodup_linkParams limit marker hnodup) hp
  by_cases hcolumn : ∀ c, p.1 ≠ .column c
  · have hchars := linkValue_chars hvalid hmarker hcolumn hlookup
    exact ⟨fun h => (hchars _ h).1 rfl, fun h => (hchars _ h).2.1 rfl⟩
  · simp only [not_forall, not_not] at hcolumn
    obtain ⟨c, hc⟩ := hcolumn
    rw [hc, linkValue] at hlookup
    obtain ⟨⟨f, v⟩, hf, heq⟩ := Option.map_eq_some_iff.mp hlookup
    have hvalue := hunbroken _ (lookup_filters_mem hvalid hf)
    rw [← heq]
    simp only [List.mem_append, not_or]
    exact ⟨⟨fun h => (pre_chars f _ h).1 rfl, hvalue.1⟩, ⟨fun h => (pre_chars f _ h).2.1 rfl, hvalue.2⟩⟩

/-- The link of a page with filters that are kept is answered by the page after it. -/
theorem link_answered {T : Table F ρ} (hkept : ∀ f ∈ asked.filters, Kept F f) (hplace : IdInPlace asked.fields)
    (hpos : 0 < limit) (hle : limit ≤ maxLimit) (hm : m ∈ T.rows) :
    ∃ raw, readLink F (getNext F asked limit (T.resourceId asked.fields m)) = some raw ∧
      getAll T maxLimit raw = .ok (T.respond asked limit (some m)) := by
  obtain ⟨raw₀, hraw₀⟩ := hvalid.filters
  have hstated : ∀ c f v, asked.filters.lookup c = some (f, v) →
      (c, f, v) ∈ filtersOf F raw₀ ∧ Kept F (c, f, v) := fun c f v h =>
    ⟨hraw₀ ▸ lookup_filters_mem hvalid h, hkept _ (lookup_filters_mem hvalid h)⟩
  have hunbroken : Unbroken F asked.filters := fun f hf => by
    have hmem : f ∈ filtersOf F raw₀ := hraw₀ ▸ hf
    exact ((hkept f hf).unbroken hmem).1
  have hid := T.uuid_id m hm
  rw [resourceId_eq hvalid hplace, readLink_unbroken hvalid hid hunbroken]
  refine ⟨_, rfl, ?_⟩
  have hother : ∀ p t, (∀ c, p ≠ .column c) → linkValue F asked limit (T.id m) p = some t →
      (linkValue F asked limit (T.id m) p).map (QueryStrings.unquote F.utf8) = some t := by
    intro p t hp ht
    have hchars := linkValue_chars hvalid hid hp ht
    rw [ht, Option.map_some, QueryStrings.unquote_eq_self F.length_utf8 fun c hc => (hchars c hc).2.2]
  have hcolumn : ∀ c, (linkValue F asked limit (T.id m) (.column c)).map (QueryStrings.unquote F.utf8) =
      (asked.filters.lookup c).map fun f => f.1.pre ++ formatValue F f.2 := by
    intro c
    rw [linkValue]
    cases hlookup : asked.filters.lookup c with
    | none => rfl
    | some f =>
      obtain ⟨hmem, hf⟩ := hstated c f.1 f.2 hlookup
      show some (QueryStrings.unquote F.utf8 (f.1.pre ++ formatValue F f.2)) = _
      rw [QueryStrings.unquote_append F.length_utf8 fun c hc => (pre_chars f.1 c hc).2.2, (hf.unbroken hmem).2]
      rfl
  refine getAll_of_reads hvalid hpos hle hm (hother _ _ (by simp) rfl) (hother _ _ (by simp) rfl)
    (hother _ _ (by simp) rfl) (hother _ _ (by simp) rfl) ?_ ?_ ?_
  · by_cases hfields : asked.fields = []
    · simp [linkValue, hfields]
    · rw [if_neg hfields]
      exact hother _ _ (by simp) (by rw [linkValue, if_neg hfields])
  · intro c t ht
    obtain ⟨⟨f, v⟩, hf, rfl⟩ := Option.map_eq_some_iff.mp ((hcolumn c).symm.trans ht)
    obtain ⟨hmem, hk⟩ := hstated c f v hf
    obtain ⟨d, hd, -⟩ := hk.reads hmem
    rw [hd]
    rfl
  · rw [hraw₀, filtersOf, filtersOf]
    refine List.filterMap_congr fun c _ => ?_
    rw [← lookup_filtersOf raw₀, ← hraw₀, columnData]
    rw [hcolumn]
    cases hlookup : asked.filters.lookup c with
    | none => rfl
    | some f =>
      obtain ⟨hmem, hf⟩ := hstated c f.1 f.2 hlookup
      obtain ⟨d, hd, hcreate⟩ := hf.reads hmem
      show (((convert F c.kind (f.1.pre ++ formatValue F f.2)).join).map createFilter).map _ = _
      rw [hd, Option.join_some, Option.map_some, hcreate]

end

/-! ### Walks along the links -/

section
variable (T : Table F ρ) (maxLimit : Nat)

/-- A request is what the link in the answer to another one is read as. -/
def Leads (raw raw' : Raw) : Prop :=
  ∃ resp link, getAll T maxLimit raw = .ok resp ∧ resp.next = some link ∧ readLink F link = some raw'

/-- Each link that is met from a request on asks for the same filters, sort keys, directions and fields as its page. -/
def LinksRoundTrip (raw : Raw) : Prop :=
  ∀ r, Relation.ReflTransGen (Leads T maxLimit) raw r → ∀ resp link, getAll T maxLimit r = .ok resp →
    resp.next = some link → ∃ r' resp', readLink F link = some r' ∧ getAll T maxLimit r' = .ok resp' ∧
      resp'.asked = resp.asked

/-- The page of a request and what its link is read as. -/
def serve (raw : Raw) : Option (List ρ × Option Raw) :=
  match getAll T maxLimit raw with
  | .error _ => none
  | .ok resp =>
    match resp.next with
    | none => some (resp.collection, none)
    | some link => (readLink F link).map fun r => (resp.collection, some r)

/-- Following the links until there is none gives each row that meets the filters once, in the order that is asked for. -/
def VisitsAll (raw : Raw) (asked : Asked J) : Prop :=
  ∃ fuel, Paging.follow (serve T maxLimit) fuel raw = some (Paging.inOrder (T.orderOf asked) (T.matching asked.filters))

end

theorem respond_short {T : Table F ρ} {asked : Asked J} {limit : Nat} {marker : Option ρ}
    (h : (Paging.page (T.orderOf asked) limit marker (T.matching asked.filters)).length ≠ limit) :
    (T.respond asked limit marker).next = none := by
  rw [Table.respond, convertWithLinks]
  split
  · rw [if_neg h]
  · rfl

theorem respond_full {T : Table F ρ} {asked : Asked J} {limit : Nat} {marker : Option ρ} {m : ρ}
    (hlast : (Paging.page (T.orderOf asked) limit marker (T.matching asked.filters)).getLast? = some m)
    (h : (Paging.page (T.orderOf asked) limit marker (T.matching asked.filters)).length = limit) :
    (T.respond asked limit marker).next = some (getNext F asked limit (T.resourceId asked.fields m)) := by
  rw [Table.respond, convertWithLinks]
  simp only [hlast, if_pos h]

theorem last_mem_rows {asked : Asked J} {limit : Nat} {marker : Option ρ} {m : ρ}
    (hlast : (Paging.page (T.orderOf asked) limit marker (T.matching asked.filters)).getLast? = some m) : m ∈ T.rows := by
  have hmem := List.mem_of_mem_take (List.mem_of_getLast? hlast)
  have hall : m ∈ Paging.inOrder (T.orderOf asked) (T.matching asked.filters) := by
    cases marker with
    | none => exact hmem
    | some r => exact List.mem_of_mem_filter hmem
  exact mem_matching (Paging.mem_inOrder.mp hall)

section
variable {asked : Asked J} {limit : Nat} {raw : Raw} (hvalid : asked.Valid F) (hpos : 0 < limit) (hle : limit ≤ maxLimit)
  (hkept : ∀ f ∈ asked.filters, Kept F f) (hplace : IdInPlace asked.fields)
include hvalid hpos hle hkept hplace

/-- A page with a link is followed by the page of that link. -/
theorem next_answered {marker : Option ρ} {link : Text} (hnext : (T.respond asked limit marker).next = some link) :
    ∃ r m, readLink F link = some r ∧ getAll T maxLimit r = .ok (T.respond asked limit (some m)) := by
  by_cases hfull : (Paging.page (T.orderOf asked) limit marker (T.matching asked.filters)).length = limit
  · cases hlast : (Paging.page (T.orderOf asked) limit marker (T.matching asked.filters)).getLast? with
    | none =>
      rw [List.getLast?_eq_none_iff.mp hlast] at hfull
      exact absurd hfull.symm (Nat.ne_of_gt hpos)
    | some m =>
      rw [respond_full hlast hfull] at hnext
      cases hnext
      obtain ⟨r, hread, hr⟩ := link_answered hvalid hkept hplace hpos hle (last_mem_rows hlast)
      exact ⟨r, m, hread, hr⟩
  · rw [respond_short hfull] at hnext
    cases hnext

/-- Every request that is met asks for the same, after some row. -/
theorem answered_of_reaches {marker : Option ρ} (hfirst : getAll T maxLimit raw = .ok (T.respond asked limit marker))
    {r : Raw} (h : Relation.ReflTransGen (Leads T maxLimit) raw r) :
    ∃ marker, getAll T maxLimit r = .ok (T.respond asked limit marker) := by
  induction h with
  | refl => exact ⟨marker, hfirst⟩
  | tail _ hlead ih =>
    obtain ⟨marker', hr⟩ := ih
    obtain ⟨resp, link, hresp, hnext, hread⟩ := hlead
    cases hr.symm.trans hresp
    obtain ⟨r', m, hread', hr'⟩ := next_answered hvalid hpos hle hkept hplace hnext
    cases hread.symm.trans hread'
    exact ⟨some m, hr'⟩

theorem linksRoundTrip_of_kept {marker : Option ρ} (hfirst : getAll T maxLimit raw = .ok (T.respond asked limit marker)) :
    LinksRoundTrip T maxLimit raw := by
  intro r hreach resp link hresp hnext
  obtain ⟨marker', hr⟩ := answered_of_reaches hvalid hpos hle hkept hplace hfirst hreach
  cases hr.symm.trans hresp
  obtain ⟨r', m, hread, hr'⟩ := next_answered hvalid hpos hle hkept hplace hnext
  exact ⟨r', _, hread, hr', rfl⟩

/-- The requests are answered by the pages of the rows that meet the filters. -/
theorem pages_of_kept : Paging.Pages (serve T maxLimit) (T.orderOf asked) limit (T.matching asked.filters)
    fun r marker => getAll T maxLimit r = .ok (T.respond asked limit marker) where
  short r marker hr hshort := by
    rw [serve, hr]
    dsimp only
    rw [respond_short hshort]
    rfl
  full r marker hr m hlast hfull := by
    obtain ⟨r', hread, hr'⟩ := link_answered hvalid hkept hplace hpos hle (last_mem_rows hlast)
    refine ⟨r', ?_, hr'⟩
    rw [serve, hr]
    dsimp only
    rw [respond_full hlast hfull]
    dsimp only
    rw [hread]
    rfl

theorem visitsAll_of_kept (hfirst : getAll T maxLimit raw = .ok (T.respond asked limit none)) :
    VisitsAll T maxLimit raw asked := by
  have htrans : Std.TransCmp (T.orderOf asked) := transCmp_orderBy T (asked.sortKeys.zip asked.sortDirs)
  exact ⟨_, (pages_of_kept hvalid hpos hle hkept hplace).follow_eq hpos (separates_orderOf hvalid)
    (nodup_matching T asked.filters) hfirst Paging.follows_none (Nat.lt_succ_self _)⟩

end

/-- With fewer rows than a page takes there is no link to follow. -/
theorem holds_of_few {asked : Asked J} {limit : Nat} {raw : Raw} (hfew : (T.matching asked.filters).length < limit)
    (hfirst : getAll T maxLimit raw = .ok (T.respond asked limit none)) :
    LinksRoundTrip T maxLimit raw ∧ VisitsAll T maxLimit raw asked := by
  have hshort : (Paging.page (T.orderOf asked) limit none (T.matching asked.filters)).length ≠ limit := by
    rw [Paging.length_page_none]
    omega
  have hnext : (T.respond asked limit none).next = none := respond_short hshort
  constructor
  · intro r hreach resp link hresp hlink
    rcases hreach.cases_head with rfl | ⟨r', ⟨resp', link', hresp', hlink', -⟩, -⟩
    · cases hfirst.symm.trans hresp
      rw [hnext] at hlink
      cases hlink
    · cases hfirst.symm.trans hresp'
      rw [hnext] at hlink'
      cases hlink'
  · refine ⟨1, ?_⟩
    rw [Paging.follow, serve, hfirst]
    dsimp only
    rw [hnext]
    show some (Paging.page (T.orderOf asked) limit none (T.matching asked.filters)) = _
    rw [Paging.page, Paging.after, List.take_of_length_le (by rw [Paging.length_inOrder]; omega)]

/-- If the first link asks for the same as its page, its filters are kept. -/
theorem kept_of_roundTrip {asked : Asked J} {limit : Nat} {raw : Raw} (hvalid : asked.Valid F) (hpos : 0 < limit)
    (hunbroken : Unbroken F asked.filters) (hplace : IdInPlace asked.fields)
    (hfirst : getAll T maxLimit raw = .ok (T.respond asked limit none))
    (hmany : limit ≤ (T.matching asked.filters).length) (h : LinksRoundTrip T maxLimit raw) :
    ∀ f ∈ asked.filters, Kept F f := by
  have hfull : (Paging.page (T.orderOf asked) limit none (T.matching asked.filters)).length = limit := by
    rw [Paging.length_page_none]
    omega
  cases hlast : (Paging.page (T.orderOf asked) limit none (T.matching asked.filters)).getLast? with
  | none =>
    rw [List.getLast?_eq_none_iff.mp hlast] at hfull
    exact absurd hfull.symm (Nat.ne_of_gt hpos)
  | some m =>
    obtain ⟨r, resp, hread, hresp, hasked⟩ := h raw .refl _ _ hfirst (respond_full hlast hfull)
    rw [resourceId_eq hvalid hplace, readLink_unbroken hvalid (T.uuid_id m (last_mem_rows hlast)) hunbroken] at hread
    obtain ⟨-, asked', limit', marker', -, hfilters, -, -, -, rfl⟩ := getAll_ok hresp
    have hsame : filtersOf F r = asked.filters := by
      rw [← hfilters]
      exact congrArg Asked.filters hasked
    rintro ⟨c, f, v⟩ hf
    obtain ⟨raw₀, hraw₀⟩ := hvalid.filters
    obtain ⟨d, hd, hcreate⟩ := mem_filtersOf.mp (hsame.symm ▸ hf)
    obtain ⟨t, ht, hconvert⟩ := columnData_eq_some hd
    have hlookup : asked.filters.lookup c = some (f, v) := by
      rw [hraw₀] at hf ⊢
      exact Lists.lookup_of_mem (nodup_filtersOf raw₀) hf
    have hstated : linkValue F asked limit (T.id m) (.column c) = some (f.pre ++ formatValue F v) := by
      rw [linkValue, hlookup]
      rfl
    cases hread
    simp only [hstated, Option.map_some] at ht
    cases ht
    exact kept_of_reads (hraw₀ ▸ hf) (hunbroken _ hf) hconvert hcreate

/-- From a first page on, the links ask for the same again, and give each row that meets the filters once and in order, if
    there are fewer rows than a page takes, or if every filter is one that a link keeps and the identifier is paired with
    its own value. If no value has a character that ends a parameter, and the identifier is in its place, they do so only
    then. -/
theorem next_links_round_trip (T : Table F ρ) (maxLimit : Nat) (raw : Raw) (first : Response J ρ)
    (hmarker : raw .marker = none) (h : getAll T maxLimit raw = .ok first) :
    ((T.matching first.asked.filters).length < first.limit ∨
        ((∀ f ∈ first.asked.filters, Kept F f) ∧ IdInPlace first.asked.fields) →
      LinksRoundTrip T maxLimit raw ∧ VisitsAll T maxLimit raw first.asked) ∧
    (Unbroken F first.asked.filters → IdInPlace first.asked.fields →
      (LinksRoundTrip T maxLimit raw ∧ VisitsAll T maxLimit raw first.asked ↔
        (T.matching first.asked.filters).length < first.limit ∨ ∀ f ∈ first.asked.filters, Kept F f)) := by
  obtain ⟨-, asked, limit, marker, hvalid, -, hpos, hle, hnone, rfl⟩ := getAll_ok h
  cases hnone hmarker
  have henough : (T.matching asked.filters).length < limit ∨
      ((∀ f ∈ asked.filters, Kept F f) ∧ IdInPlace asked.fields) →
      LinksRoundTrip T maxLimit raw ∧ VisitsAll T maxLimit raw asked := by
    rintro (hfew | ⟨hkept, hplace⟩)
    · exact holds_of_few hfew h
    · exact ⟨linksRoundTrip_of_kept hvalid hpos hle hkept hplace h, visitsAll_of_kept hvalid hpos hle hkept hplace h⟩
  refine ⟨henough, fun hunbroken hplace => ⟨fun hlinks => ?_, fun hwhen => henough (hwhen.imp_right fun hkept => ⟨hkept, hplace⟩)⟩⟩
  by_cases hfew : (T.matching asked.filters).length < limit
  · exact Or.inl hfew
  · exact Or.inr (kept_of_roundTrip hvalid hpos hunbroken hplace h (Nat.le_of_not_lt hfew) hlinks.1)

/-! ### A table of two tasks -/

namespace TwoTasks

/-- All parameters of the request. -/
def params : List Param := [.marker, .limit, .sortKeys, .sortDirs, .fields] ++ Column.all.map Param.column

def paramOf (name : Text) : Option Param := params.find? fun p => p.text = name

theorem paramOf_text (p : Param) : paramOf p.text = some p := by
  cases p with
  | column c => cases c <;> decide +kernel
  | _ => decide +kernel

def arguments (ps : List (Text × Text)) : Option Raw := do
  let params ← ps.mapM fun p => (paramOf p.1).map (·, p.2)
  if (params.map Prod.fst).Nodup then some fun p => params.lookup p else none

theorem mapM_paramOf (ps : List (Param × Text)) :
    (ps.map fun p => (p.1.text, p.2)).mapM (fun p => (paramOf p.1).map (·, p.2)) = some ps := by
  induction ps with
  | nil => rfl
  | cons p ps ih =>
    rw [List.map_cons, List.mapM_cons, ih, paramOf_text]
    rfl

def isUuidLike (t : Text) : Bool :=
  (t.filter (· ≠ '-')).length = 32 && t.all fun c => c ∈ "0123456789abcdef-".toList

theorem uuid_chars {t : Text} (h : isUuidLike t) : ∀ c ∈ t, c ∈ "0123456789abcdef-".toList := by
  simp only [isUuidLike, Bool.and_eq_true, List.all_eq_true, decide_eq_true_eq] at h
  exact h.2

theorem toLower_small {c : Char} (h : Small c) : c.toLower = c := dif_neg fun hupper => h.2.2 hupper

local instance ascii_lawful : LawfulBEq Text := inferInstance

/-- Texts of ASCII characters, and JSON of empty dictionaries. -/
def frameworks : Frameworks Unit where
  utf8 := List.map fun b => if b < 128 then Char.ofNat b else '\uFFFD'
  length_utf8 _ := (List.length_map _).le
  printed c := [c]
  printed_small _ _ := rfl
  space c := c = ' ' || c = '\t' || c = '\n' || c = '\r'
  space_small c hc := by
    by_contra h
    simp only [Bool.not_eq_false, Bool.or_eq_true, decide_eq_true_eq] at h
    rcases h with ((rfl | rfl) | rfl) | rfl <;> exact absurd hc (by decide)
  lower := List.map Char.toLower
  lower_append s t hs := by
    refine ⟨t.map Char.toLower, ?_⟩
    rw [List.map_append, List.map_congr_left fun c hc => toLower_small (hs c hc), List.map_id']
  lower_small s hs := by rw [List.map_congr_left fun c hc => toLower_small (hs c hc), List.map_id']
  int t := if t.all Char.isDigit then some (Nat.ofDigitChars 10 t 0 : Int) else none
  int_decimal n := by
    rw [if_pos, Nat.ofDigitChars_toDigits (by decide) (by decide)]
    exact List.all_eq_true.mpr fun c hc => Nat.isDigit_of_mem_toDigits (by decide) (by decide) hc
  isUuidLike := isUuidLike
  uuid_chars t h c hc := by
    have hall : ∀ c ∈ "0123456789abcdef-".toList, c ≠ '&' ∧ c ≠ '#' ∧ c ≠ '+' ∧ c ≠ '%' := forall_chars (by decide)
    exact hall c (uuid_chars h c hc)
  uuid_filters t h := by
    rw [hasFilters, List.any_eq_false]
    intro f _ hpre
    have hcolon : ':' ∈ t := (List.isPrefixOf_iff_prefix.mp hpre).subset (by simp [FilterType.pre])
    exact absurd (uuid_chars h _ hcolon) (by decide)
  isState t := t ∈ ["IDLE", "RUNNING", "SUCCESS", "ERROR", "DELAYED"].map String.toList
  flag t := if t = "true".toList then some true else if t = "false".toList then some false else none
  loads t := if t = "{}".toList then some (some (.json ())) else none
  loads_filter f t := if_neg (by cases f <;> simp [FilterType.pre, FilterType.text])
  shown _ := "{}".toList
  arguments := arguments
  arguments_distinct ps hnodup := by
    rw [arguments, mapM_paramOf]
    exact if_pos hnodup

/-- The name of a task; there are two, `a` and `b`, in this order. -/
def name : Bool → Text
  | false => ['a']
  | true => ['b']

def id : Bool → Text
  | false => "123e4567-e89b-12d3-a456-426655440000".toList
  | true => "123e4567-e89b-12d3-a456-426655441111".toList

def table : Table frameworks Bool where
  rows := [false, true]
  id := id
  shows r key := if key = idText then id r else name r
  compare _ := Ord.compare
  meets c f v r :=
    match c, f, v with
    | .name, .isIn, .list names => name r ∈ names
    | .name, .eq, .text t => name r = t
    | _, _, _ => true
  nodup_ids := by decide
  uuid_id := by decide
  shows_id _ := if_pos rfl
  transCmp _ := inferInstance
  id_eq _ _ h := congrArg id (Std.compare_eq_iff_eq.mp h)

/-- `?name=in:a,b&limit=1` -/
def inRequest : Raw
  | .column .name => some "in:a,b".toList
  | .limit => some "1".toList
  | _ => none

/-- `?workflow_name=wf&sort_dirs=desc&limit=1` -/
def descRequest : Raw
  | .column .workflowName => some "wf".toList
  | .sortDirs => some "desc".toList
  | .limit => some "1".toList
  | _ => none

theorem answered {raw : Raw} {p : Response Unit Bool → Bool} (h : (getAll table 1000 raw).toOption.any p) :
    ∃ first, getAll table 1000 raw = .ok first ∧ p first := by
  cases hraw : getAll table 1000 raw with
  | error e => simp [hraw, Except.toOption] at h
  | ok first => exact ⟨first, rfl, by simpa [hraw, Except.toOption] using h⟩

/-- The links of a list in descending order are followed to its end. -/
theorem desc_round_trip : ∃ first, getAll table 1000 descRequest = .ok first ∧
    LinksRoundTrip table 1000 descRequest ∧ VisitsAll table 1000 descRequest first.asked := by
  have hok : (getAll table 1000 descRequest).toOption.any fun r =>
      r.asked.filters = [(.workflowName, .eq, .text "wf".toList)] && r.asked.fields = [] := by decide
  obtain ⟨first, hfirst, hasked⟩ := answered hok
  simp only [Bool.and_eq_true, decide_eq_true_eq] at hasked
  refine ⟨first, hfirst, (next_links_round_trip table 1000 descRequest first rfl hfirst).1 (Or.inr ⟨?_, ?_⟩)⟩
  · rw [hasked.1]
    exact List.forall_mem_singleton.mpr (show Survives "wf".toList by decide)
  · rw [hasked.2]
    exact nofun

/-- The link of a list filtered by names states the names as a literal, and is read as a filter by two other names: no
    task has one of them, and the second task is never given. -/
theorem name_list_lost : ∃ first, inRequest .marker = none ∧ getAll table 1000 inRequest = .ok first ∧
    table.matching first.asked.filters = [false, true] ∧
    ¬LinksRoundTrip table 1000 inRequest ∧ ¬VisitsAll table 1000 inRequest first.asked := by
  have hok : (getAll table 1000 inRequest).toOption.any fun r =>
      r.asked.filters = [(.name, .isIn, .list [['a'], ['b']])] && r.asked.fields = [] && r.limit = 1 &&
        table.matching r.asked.filters = [false, true] &&
        Paging.inOrder (table.orderOf r.asked) (table.matching r.asked.filters) = [false, true] := by decide
  have hwalk : Paging.follow (serve table 1000) 2 inRequest = some [false] := by decide
  obtain ⟨first, hfirst, hasked⟩ := answered hok
  simp only [Bool.and_eq_true, decide_eq_true_eq] at hasked
  obtain ⟨⟨⟨⟨hfilters, hfields⟩, hlimit⟩, hmatching⟩, horder⟩ := hasked
  refine ⟨first, rfl, hfirst, hmatching, fun hlinks => ?_, fun ⟨fuel, hall⟩ => ?_⟩
  · obtain ⟨-, asked, limit, marker, hvalid, -, hpos, -, hnone, rfl⟩ := getAll_ok hfirst
    cases hnone rfl
    have hunbroken : Unbroken frameworks asked.filters := by
      rw [show asked.filters = _ from hfilters]
      exact List.forall_mem_singleton.mpr (by decide)
    have hplace : IdInPlace asked.fields := by
      rw [show asked.fields = [] from hfields]
      exact nofun
    have hmany : limit ≤ (table.matching asked.filters).length := by
      rw [show limit = 1 from hlimit, show table.matching asked.filters = _ from hmatching]
      decide
    have hkept := kept_of_roundTrip hvalid hpos hunbroken hplace hfirst hmany hlinks
    rw [show asked.filters = _ from hfilters] at hkept
    exact hkept _ List.mem_cons_self
  · rw [horder] at hall
    exact absurd (Paging.follow_unique hwalk hall) (by decide)

end TwoTasks

end Mistral.TaskListing
