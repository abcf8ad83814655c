import Mathlib.Data.Finset.Card
import Mathlib.Data.List.Count

/-! Facts about lists: association lists, lists in which one element changes, and selections from lists. -/

namespace Lists

section
variable {κ ν μ : Type} {l : List (κ × ν)}

/-! ### Association lists -/

theorem lookup_cons_ite [BEq κ] [LawfulBEq κ] [DecidableEq κ] (k : κ) (p : κ × ν) (l : List (κ × ν)) :
    (p :: l).lookup k = if k = p.1 then some p.2 else l.lookup k := by
  rw [List.lookup_cons]
  by_cases h : k = p.1
  · rw [if_pos h, beq_iff_eq.mpr h]
  · rw [if_neg h, beq_eq_false_iff_ne.mpr h]

/-- Entries with a property of their keys can be left out where another key is looked up. -/
theorem lookup_filter [DecidableEq κ] (p : κ → Bool) (l : List (κ × ν)) (k : κ) :
    (l.filter fun e => p e.1).lookup k = if p k then l.lookup k else none := by
  induction l with
  | nil => exact (ite_self none).symm
  | cons e l ih =>
    rw [List.filter_cons]
    by_cases hk : k = e.1
    · subst hk
      cases hp : p e.1 with
      | true =>
        rw [if_pos rfl, if_pos rfl, lookup_cons_ite, if_pos rfl, lookup_cons_ite, if_pos rfl]
      | false =>
        rw [hp] at ih
        exact ih
    · rw [lookup_cons_ite, if_neg hk, ← ih]
      split
      · rw [lookup_cons_ite, if_neg hk]
      · rfl

theorem lookup_map_snd [BEq κ] (f : ν → μ) (l : List (κ × ν)) (a : κ) :
    (l.map fun p => (p.1, f p.2)).lookup a = (l.lookup a).map f := by
  induction l with
  | nil => rfl
  | cons p l ih =>
    rw [List.map_cons, List.lookup_cons, List.lookup_cons, ih]
    cases a == p.1 <;> rfl

/-- With different keys, every entry is found. -/
theorem lookup_of_mem [DecidableEq κ] {p : κ × ν} (hnodup : (l.map Prod.fst).Nodup)
    (hp : p ∈ l) : l.lookup p.1 = some p.2 := by
  induction l with
  | nil => exact absurd hp List.not_mem_nil
  | cons q l ih =>
    obtain ⟨hq, hl⟩ := List.nodup_cons.mp hnodup
    rw [lookup_cons_ite]
    rcases List.mem_cons.mp hp with rfl | hp
    · rw [if_pos rfl]
    · have hne : p.1 ≠ q.1 := fun heq => hq (heq ▸ List.mem_map_of_mem hp)
      rw [if_neg hne, ih hl hp]

theorem mem_of_lookup [DecidableEq κ] {k : κ} {v : ν} (h : l.lookup k = some v) :
    (k, v) ∈ l := by
  obtain ⟨l₁, l₂, rfl, -⟩ := List.lookup_eq_some_iff.mp h
  simp

/-- A table of a partial function. -/
theorem map_fst_filterMap {α β : Type} (g : α → Option β) (l : List α) :
    (l.filterMap fun a => (g a).map (a, ·)).map Prod.fst = l.filter fun a => (g a).isSome := by
  induction l with
  | nil => rfl
  | cons a l ih =>
    cases ha : g a with
    | none => rw [List.filterMap_cons_none (by rw [ha]; rfl), List.filter_cons_of_neg (by simp [ha]), ih]
    | some b =>
      rw [List.filterMap_cons_some (b := (a, b)) (by rw [ha]; rfl), List.filter_cons_of_pos (by simp [ha]), List.map_cons, ih]

theorem lookup_filterMap {α β : Type} [DecidableEq α] (g : α → Option β) {l : List α} {a : α} (ha : a ∈ l) :
    (l.filterMap fun a => (g a).map (a, ·)).lookup a = g a := by
  cases hg : g a with
  | none =>
    rw [List.lookup_eq_none_iff]
    intro p hp
    obtain ⟨b, -, hb⟩ := List.mem_filterMap.mp hp
    obtain ⟨x, hx, rfl⟩ := Option.map_eq_some_iff.mp hb
    refine bne_iff_ne.mpr ?_
    rintro rfl
    rw [hg] at hx
    cases hx
  | some x =>
    induction l with
    | nil => exact absurd ha List.not_mem_nil
    | cons b l ih =>
      by_cases hab : a = b
      · subst hab
        rw [List.filterMap_cons_some (b := (a, x)) (by rw [hg]; rfl), lookup_cons_ite, if_pos rfl]
      · have hmem : a ∈ l := (List.mem_cons.mp ha).resolve_left hab
        cases hb : g b with
        | none => rw [List.filterMap_cons_none (by rw [hb]; rfl), ih hmem]
        | some y =>
          rw [List.filterMap_cons_some (b := (b, y)) (by rw [hb]; rfl), lookup_cons_ite, if_neg hab, ih hmem]

end

/-! ### Elements of a list that change -/

section
variable {α β : Type} {p : α → Bool} {f : α → α} {l : List α} {i n : Nat} {x y : α}

theorem countP_modify_le (h : ∀ x, l[i]? = some x → p (f x) → p x) : (l.modify i f).countP p ≤ l.countP p := by
  induction l generalizing i with
  | nil => simp
  | cons a l ih =>
    cases i with
    | zero =>
      have ha : p (f a) → p a := h a rfl
      cases hf : p (f a) <;> cases hp : p a <;> simp_all
    | succ i =>
      have ih := ih (i := i) fun x hx => h x hx
      simpa [List.countP_cons] using ih

theorem countP_modify_le_succ : (l.modify i f).countP p ≤ l.countP p + 1 := by
  induction l generalizing i with
  | nil => simp
  | cons a l ih =>
    cases i with
    | zero => cases hf : p (f a) <;> cases hp : p a <;> simp [hf, hp]; omega
    | succ i =>
      have ih := ih (i := i)
      cases hp : p a <;> simp [hp] <;> omega

theorem filter_set_of_not (hx : l[n]? = some x) (hpx : p x = false) (hpy : p y = false) :
    (l.set n y).filter p = l.filter p := by
  induction l generalizing n with
  | nil => rfl
  | cons a l ih =>
    cases n with
    | zero =>
      cases hx
      simp [hpx, hpy]
    | succ n =>
      rw [List.set_cons_succ, List.filter_cons, List.filter_cons, ih hx]

/-- The last of some elements is a new one, if it is behind the others. -/
theorem getLast?_filter_set (hn : n < l.length) (hpy : p y) (hlast : ∀ k z, l[k]? = some z → p z → k < n) :
    ((l.set n y).filter p).getLast? = some y := by
  have hdrop : (l.drop (n + 1)).filter p = [] := by
    rw [List.filter_eq_nil_iff]
    intro z hz hpz
    obtain ⟨k, hk⟩ := List.getElem?_of_mem hz
    rw [List.getElem?_drop] at hk
    have := hlast _ z hk hpz
    omega
  rw [List.set_eq_take_append_cons_drop, if_pos hn, List.filter_append, List.filter_cons, if_pos hpy, hdrop,
    List.getLast?_append]
  rfl

theorem map_set_of_eq {f : α → β} (hx : l[n]? = some x) (h : f y = f x) : (l.set n y).map f = l.map f := by
  induction l generalizing n with
  | nil => rfl
  | cons a l ih =>
    cases n with
    | zero =>
      cases hx
      rw [List.set_cons_zero, List.map_cons, List.map_cons, h]
    | succ n => rw [List.set_cons_succ, List.map_cons, List.map_cons, ih hx]

theorem mem_set_iff (hx : l[n]? = some x) {z : α} (hne : z ≠ x) : z ∈ l.set n y ↔ z = y ∨ z ∈ l := by
  induction l generalizing n with
  | nil => cases hx
  | cons a l ih =>
    cases n with
    | zero =>
      cases hx
      simp [hne]
    | succ n =>
      rw [List.set_cons_succ, List.mem_cons, List.mem_cons, ih hx]
      tauto

theorem getElem?_append_singleton {a b : α} (h : (l ++ [a])[i]? = some b) :
    l[i]? = some b ∨ i = l.length ∧ b = a := by
  rw [List.getElem?_append] at h
  split at h
  · exact .inl h
  · rw [List.getElem?_singleton] at h
    split at h
    next hge hi =>
      cases h
      exact .inr ⟨by omega, rfl⟩
    · cases h

end

/-! ### Selections -/

section
variable {α β κ : Type} {p : α → Bool} {x : α} {l : List α} {i : Nat}

/-- The only element of a list with a property, as a filter. -/
theorem filter_eq_singleton (hx : l[i]? = some x) (hp : p x)
    (honly : ∀ j y, l[j]? = some y → p y → j = i) : l.filter p = [x] := by
  induction l generalizing i with
  | nil => cases hx
  | cons a l ih =>
    cases i with
    | zero =>
      cases hx
      have hnone : l.filter p = [] := List.filter_eq_nil_iff.mpr fun y hy hpy => by
        obtain ⟨j, hj⟩ := List.mem_iff_getElem?.mp hy
        exact absurd (honly (j + 1) y hj hpy) (Nat.succ_ne_zero j)
      rw [List.filter_cons_of_pos hp, hnone]
    | succ i =>
      have ha : ¬p a := fun ha => absurd (honly 0 a rfl ha) (Nat.succ_ne_zero i).symm
      rw [List.filter_cons_of_neg ha]
      exact ih hx fun j y hj hpy => Nat.succ_inj.mp (honly (j + 1) y hj hpy)

theorem eraseP_eq_filter [DecidableEq κ] (id : α → κ) {k : κ} (h : (l.map id).Nodup) :
    l.eraseP (id · = k) = l.filter (id · ≠ k) := by
  induction l with
  | nil => rfl
  | cons a l ih =>
    obtain ⟨ha, hl⟩ := List.nodup_cons.mp h
    by_cases hk : id a = k
    · have hself : l.filter (id · ≠ k) = l := List.filter_eq_self.mpr fun b hb => by
        simpa using fun hbk => ha (List.mem_map.mpr ⟨b, hb, hbk.trans hk.symm⟩)
      rw [List.eraseP_cons_of_pos (by simpa using hk), List.filter_cons_of_neg (by simpa using hk), hself]
    · simpa [hk] using ih hl

theorem filterMap_eq_replicate [DecidableEq α] (l : List α) (a : α) (c : β) :
    (l.filterMap fun x => if x = a then some c else none) = List.replicate (l.count a) c := by
  induction l with
  | nil => rfl
  | cons x l ih =>
    rcases eq_or_ne x a with rfl | hx
    · rw [List.count_cons_self, List.replicate_succ, ← ih]
      simp
    · rw [List.count_cons_of_ne hx, ← ih]
      simp [hx]

/-- Where no two elements have the same key, the first one with a key is the only one. -/
theorem find_key_iff [DecidableEq κ] {key : α → κ} {k : κ} (h : (l.map key).Nodup) :
    l.find? (fun x => key x == k) = some x ↔ x ∈ l ∧ key x = k := by
  constructor
  · intro hfind
    exact ⟨List.mem_of_find?_eq_some hfind, by simpa using List.find?_some hfind⟩
  · intro ⟨hx, hk⟩
    cases hfind : l.find? (fun x => key x == k) with
    | none => exact absurd (beq_iff_eq.mpr hk) (List.find?_eq_none.mp hfind x hx)
    | some y =>
      have hk' : key y = k := by simpa using List.find?_some hfind
      rw [List.inj_on_of_nodup_map h hx (List.mem_of_find?_eq_some hfind) (hk.trans hk'.symm)]

end

/-! ### Numbers -/

section
variable {i k : Nat} {l : List Nat} {fs : Finset Nat}

theorem mem_take_range' {start n : Nat} : i ∈ (List.range' start n).take k ↔ start ≤ i ∧ i < start + n ∧ i - start < k := by
  obtain h | h := le_total n k
  · rw [List.take_range'_of_length_le h, List.mem_range'_1]
    omega
  · rw [List.take_range'_of_length_ge h, List.mem_range'_1]
    omega

/-- Fewer than `k` smaller elements come before an element that is among the first `k` in order. -/
theorem card_lt_of_mem_take (hsorted : l.Pairwise (· ≤ ·)) (h : i ∈ l.take k) (hfs : ∀ f ∈ fs, f ∈ l ∧ f < i) :
    fs.card < k := by
  have hmem : ∀ f ∈ fs, f ∈ l.take k := by
    intro f hf
    obtain ⟨hl, hlt⟩ := hfs f hf
    rw [← List.take_append_drop k l] at hl hsorted
    rcases List.mem_append.mp hl with hl | hl
    · exact hl
    · exact absurd ((List.pairwise_append.mp hsorted).2.2 i h f hl) (not_le.mpr hlt)
  have hsub : insert i fs ⊆ (l.take k).toFinset := by
    intro f hf
    rcases Finset.mem_insert.mp hf with rfl | hf
    · exact List.mem_toFinset.mpr h
    · exact List.mem_toFinset.mpr (hmem f hf)
  have hcard := (Finset.card_le_card hsub).trans ((List.toFinset_card_le _).trans (List.length_take_le k l))
  rw [Finset.card_insert_of_notMem fun hi => (hfs i hi).2.false] at hcard
  omega

end
end Lists
