import Mistral.Lang.Base

/-! What the patterns of a command and of its parameters find. -/

namespace Mistral
namespace CommandConf
variable {conf : CommandConf} {s r w k : List Char} {c d : Char} {n : Nat}

theorem scanParams_skip : conf.scanParams n s = conf.scanParams 0 (s.drop n) := by
  induction n generalizing s with
  | zero => rfl
  | succ n ih =>
    cases s with
    | nil => simp [scanParams]
    | cons c s => rw [scanParams, ih, List.drop_succ_cons]

theorem suffix_of_matchParam {param : List Char × List Char} (h : conf.matchParam s = some (param, r)) :
    ∃ t, t ≠ [] ∧ s = t ++ r := by
  obtain ⟨r', hr', h⟩ := List.mem_flatMap.mp (List.mem_of_mem_head? (Option.mem_def.mpr h))
  obtain ⟨t, hne, rfl, -⟩ := Pattern.mem_rests_plus.mp hr'
  split at h
  next r'' =>
    obtain ⟨r₃, hr₃, heq⟩ := List.mem_map.mp h
    obtain ⟨t', rfl⟩ := Pattern.suffix_of_mem_rests hr₃
    cases heq
    exact ⟨t ++ '=' :: t', by simp, by simp⟩
  · cases h

/-- A parameter at the beginning is found, and the others are found in what is left. -/
theorem scanParams_of_match {param : List Char × List Char} (h : conf.matchParam s = some (param, r)) :
    conf.scanParams 0 s = param :: conf.scanParams 0 r := by
  obtain ⟨t, hne, rfl⟩ := suffix_of_matchParam h
  cases t with
  | nil => exact absurd rfl hne
  | cons c t =>
    rw [List.cons_append] at h ⊢
    rw [scanParams, h]
    change param :: conf.scanParams ((t ++ r).length - r.length) (t ++ r) = _
    rw [scanParams_skip (n := (t ++ r).length - r.length), List.length_append, Nat.add_sub_cancel, List.drop_left]

theorem matchParam_eq_none (h : ∀ r ∈ (Pattern.plus conf.keyChar).rests s, r.head? ≠ some '=') :
    conf.matchParam s = none := by
  rw [matchParam, List.head?_eq_none_iff, List.flatMap_eq_nil_iff]
  intro r hr
  split
  next r' => exact absurd rfl (h _ hr)
  · rfl

/-- A name before the parameters is no part of one. -/
theorem scanParams_name (hw : '=' ∉ w) (hd : conf.keyChar d = false) (hd' : d ≠ '=') :
    conf.scanParams 0 (w ++ d :: s) = conf.scanParams 0 s := by
  have hnone : ∀ w : List Char, '=' ∉ w → conf.matchParam (w ++ d :: s) = none := fun w hw => by
    refine matchParam_eq_none fun r hr heq => ?_
    obtain ⟨t, -, ht, hall⟩ := Pattern.mem_rests_plus.mp hr
    rcases List.append_eq_append_iff.mp ht with ⟨u, rfl, hu⟩ | ⟨u, rfl, hu⟩
    · cases u with
      | nil =>
        obtain rfl : d :: s = r := hu
        exact hd' (Option.some.inj heq)
      | cons c u =>
        obtain ⟨rfl, -⟩ := List.cons.inj hu
        rw [hall d (List.mem_append_right _ List.mem_cons_self)] at hd
        cases hd
    · subst hu
      cases u with
      | nil => exact hd' (Option.some.inj heq)
      | cons c u =>
        obtain rfl : c = '=' := Option.some.inj heq
        exact hw (List.mem_append_right _ List.mem_cons_self)
  induction w with
  | nil => rw [List.nil_append, scanParams, show d :: s = [] ++ d :: s from rfl, hnone [] List.not_mem_nil]
  | cons c w ih =>
    have hcons := hnone (c :: w) hw
    rw [List.cons_append] at hcons ⊢
    rw [scanParams, hcons]
    exact ih fun h => hw (List.mem_cons_of_mem c h)

/-- The command is the name before the first delimiter. -/
theorem matchPrefix_cmdPattern (hne : w ≠ []) (hw : ∀ c ∈ w, conf.classes.word c || c == '.') (hd : d = ' ' ∨ d = '(') :
    conf.cmdPattern.matchPrefix (w ++ d :: s) = some (w, d :: s) := by
  have hstop : (conf.classes.word d || d == '.') = false := by
    rcases hd with rfl | rfl
    · simp [conf.classes.word_space]
    · simp [conf.classes.word_paren]
  have hstop' : (d != '=' && d != '(' && !conf.classes.space d && d != '"') = false := by
    rcases hd with rfl | rfl
    · simp [conf.classes.space_space]
    · simp
  have hhead : (conf.cmdPattern.rests (w ++ d :: s)).head? = some (d :: s) := by
    cases w with
    | nil => exact absurd rfl hne
    | cons c w =>
      obtain ⟨hc, hw⟩ := List.forall_mem_cons.mp hw
      have hdrop : (w ++ d :: s).dropWhile (fun c => conf.classes.word c || c == '.') = d :: s := by
        rw [List.dropWhile_append_of_pos hw, List.dropWhile_cons_of_neg (by simp [hstop])]
      have hname : ((Pattern.plus fun c => conf.classes.word c || c == '.').rests (c :: w ++ d :: s)).head? =
          some (d :: s) := by
        rw [List.cons_append, Pattern.head?_rests_plus hc, hdrop]
      have hrest : ((Pattern.many fun c => c != '=' && c != '(' && !conf.classes.space c && c != '"').rests
          (d :: s)).head? = some (d :: s) := by
        rw [Pattern.rests, Pattern.head?_manyRests, List.dropWhile_cons_of_neg (by rw [hstop']; rintro ⟨⟩)]
      rw [cmdPattern, Pattern.rests, List.head?_append, command, Pattern.head?_rests_seq hname hrest, Option.some_or]
  rw [Pattern.matchPrefix, hhead]
  simp

/-- What is found has the form of a parameter at its place. -/
theorem mem_scanParams (h : (k, w) ∈ conf.scanParams n s) :
    k ≠ [] ∧ (∀ c ∈ k, conf.keyChar c) ∧ ∃ r, (conf.paramValue.rests (w ++ r)).head? = some r := by
  rw [scanParams_skip] at h
  generalize s.drop n = s' at h
  induction hn : s'.length using Nat.strong_induction_on generalizing s' with
  | _ n ih =>
    subst hn
    cases s' with
    | nil => cases h
    | cons c s =>
      cases hmatch : conf.matchParam (c :: s) with
      | none =>
        rw [scanParams, hmatch] at h
        exact ih _ (Nat.lt_succ_self _) s h rfl
      | some found =>
        obtain ⟨param, r⟩ := found
        obtain ⟨t, hne, ht⟩ := suffix_of_matchParam hmatch
        rw [scanParams_of_match hmatch] at h
        rcases List.mem_cons.mp h with rfl | h
        · rw [matchParam, List.head?_flatMap] at hmatch
          obtain ⟨r', hr', hfirst⟩ := List.exists_of_findSome?_eq_some hmatch
          obtain ⟨k', hk', hkey, hall⟩ := Pattern.mem_rests_plus.mp hr'
          split at hfirst
          next r'' =>
            rw [List.head?_map] at hfirst
            obtain ⟨r₃, hr₃, heq⟩ := Option.map_eq_some_iff.mp hfirst
            obtain ⟨u, rfl⟩ := Pattern.suffix_of_mem_rests (List.mem_of_head? hr₃)
            rw [Prod.mk.injEq, Prod.mk.injEq, hkey, List.length_append, Nat.add_sub_cancel, List.take_left,
              List.length_append, Nat.add_sub_cancel, List.take_left] at heq
            obtain ⟨⟨rfl, rfl⟩, rfl⟩ := heq
            exact ⟨hk', hall, r₃, hr₃⟩
          · cases hfirst
        · refine ih r.length ?_ r h rfl
          rw [ht, List.length_append]
          exact Nat.lt_add_of_pos_left (List.length_pos_iff.mpr hne)

theorem keyChar_equals : conf.keyChar '=' = false := by simp [keyChar, conf.classes.word_equals]

theorem keyChar_space : conf.keyChar ' ' = false := by simp [keyChar, conf.classes.word_space]

/-- After a name and an equals sign, the first match of the value decides. -/
theorem matchParam_of_key (hne : k ≠ []) (hk : ∀ c ∈ k, conf.keyChar c) :
    conf.matchParam (k ++ '=' :: s) =
      (conf.paramValue.rests s).head?.map fun r => ((k, s.take (s.length - r.length)), r) := by
  obtain ⟨c, k, rfl⟩ := List.exists_cons_of_ne_nil hne
  have hfirst : ((Pattern.plus conf.keyChar).rests (c :: k ++ '=' :: s)).head? = some ('=' :: s) := by
    rw [List.cons_append, Pattern.head?_rests_plus (hk c List.mem_cons_self),
      List.dropWhile_append_of_pos (fun a ha => hk a (List.mem_cons_of_mem c ha)),
      List.dropWhile_cons_of_neg (by simp [keyChar_equals])]
  obtain ⟨l, hl⟩ := List.head?_eq_some_iff.mp hfirst
  have hlast : ∀ r ∈ (Pattern.plus conf.keyChar).rests (c :: k ++ '=' :: s), r.head? = some '=' → r = '=' :: s := by
    intro r hr heq
    obtain ⟨t, -, ht, hall⟩ := Pattern.mem_rests_plus.mp hr
    rcases List.append_eq_append_iff.mp ht with ⟨u, rfl, hu⟩ | ⟨u, hu, rfl⟩
    · cases u with
      | nil => exact hu.symm
      | cons a u =>
        obtain ⟨rfl, -⟩ := List.cons.inj hu
        have := hall '=' (List.mem_append_right _ List.mem_cons_self)
        rw [keyChar_equals] at this
        cases this
    · cases u with
      | nil => rfl
      | cons a u =>
        obtain rfl : a = '=' := Option.some.inj heq
        have := hk '=' (hu ▸ List.mem_append_right _ List.mem_cons_self)
        rw [keyChar_equals] at this
        cases this
  rw [matchParam, List.head?_flatMap, hl, List.findSome?_cons]
  have hhere : (c :: k ++ '=' :: s).take ((c :: k ++ '=' :: s).length - ('=' :: s).length) = c :: k := by
    rw [List.length_append, Nat.add_sub_cancel, List.take_left]
  simp only [hhere, List.head?_map]
  cases hvalue : (conf.paramValue.rests s).head? with
  | some r => rfl
  | none =>
    refine List.findSome?_eq_none_iff.mpr fun r hr => ?_
    split
    next r' =>
      obtain rfl : r' = s := (List.cons.inj (hlast _ (hl ▸ List.mem_cons_of_mem _ hr) rfl)).2
      rw [List.head?_map, hvalue]
      rfl
    · rfl

/-- Spaces before a parameter are skipped. -/
theorem scanParams_spaces (hspace : ∀ c ∈ w, conf.keyChar c = false) :
    conf.scanParams 0 (w ++ s) = conf.scanParams 0 s := by
  induction w with
  | nil => rfl
  | cons c w ih =>
    obtain ⟨hc, hw⟩ := List.forall_mem_cons.mp hspace
    have hnone : conf.matchParam (c :: (w ++ s)) = none := by
      refine matchParam_eq_none fun r hr => ?_
      obtain ⟨t, hne, ht, hall⟩ := Pattern.mem_rests_plus.mp hr
      obtain ⟨a, t, rfl⟩ := List.exists_cons_of_ne_nil hne
      obtain ⟨rfl, -⟩ := List.cons.inj ht
      rw [hall c List.mem_cons_self] at hc
      cases hc
    rw [List.cons_append, scanParams, hnone]
    exact ih hw

/-! ### Stripping -/

theorem strip_append {u : List Char} (hfirst : ∃ c t, s = c :: t ∧ conf.classes.space c = false)
    (hlast : ∃ t c, s = t ++ [c] ∧ conf.classes.space c = false) (hu : ∀ c ∈ u, conf.classes.space c) :
    conf.strip (s ++ u) = s := by
  obtain ⟨c, t, rfl, hc⟩ := hfirst
  obtain ⟨t', d, ht', hd⟩ := hlast
  have hdrop : (c :: t ++ u).dropWhile conf.classes.space = c :: t ++ u := List.dropWhile_cons_of_neg (by simp [hc])
  rw [strip, hdrop, List.reverse_append, List.dropWhile_append_of_pos fun a ha => hu a (List.mem_reverse.mp ha), ht',
    List.reverse_append, List.reverse_singleton, List.singleton_append, List.dropWhile_cons_of_neg (by simp [hd]),
    List.reverse_cons, List.reverse_reverse]

theorem strip_eq (hc : conf.classes.space c = false) :
    ∃ u, c :: s = conf.strip (c :: s) ++ u ∧ ∀ a ∈ u, conf.classes.space a := by
  have hsplit := congrArg List.reverse (List.takeWhile_append_dropWhile (p := conf.classes.space) (l := (c :: s).reverse))
  rw [List.reverse_append, List.reverse_reverse] at hsplit
  refine ⟨((c :: s).reverse.takeWhile conf.classes.space).reverse, ?_, fun a ha => ?_⟩
  · rw [strip, List.dropWhile_cons_of_neg (by simp [hc])]
    exact hsplit.symm
  · exact List.mem_takeWhile_imp (List.mem_reverse.mp ha)

/-! ### The parameters that are set -/

theorem setParam_of_not_mem {params : SpecDict} {key : String} {v : SpecData} (h : key ∉ params.map Prod.fst) :
    setParam params key v = params ++ [(key, v)] := by
  have hnone : params.lookup key = none := List.lookup_eq_none_iff.mpr fun e he => by
    simpa using fun heq : key = e.1 => h (heq ▸ List.mem_map_of_mem he)
  rw [setParam, hnone]
  rfl

/-- Parameters with distinct names are all kept, in their order. -/
theorem toParams_of_nodup {found : List (List Char × List Char)} (h : (found.map Prod.fst).Nodup) :
    conf.toParams found = found.map fun p => (String.ofList p.1, conf.convert p.2) := by
  suffices hall : ∀ (found : List (List Char × List Char)) (params : SpecDict), (found.map Prod.fst).Nodup →
      (∀ p ∈ found, String.ofList p.1 ∉ params.map Prod.fst) →
      found.foldl (fun params p => setParam params (String.ofList p.1) (conf.convert p.2)) params =
        params ++ found.map fun p => (String.ofList p.1, conf.convert p.2) from
    hall found [] h fun _ _ => List.not_mem_nil
  intro found
  induction found with
  | nil => exact fun params _ _ => (List.append_nil params).symm
  | cons p found ih =>
    intro params hnodup hnew
    rw [List.map_cons, List.nodup_cons] at hnodup
    rw [List.foldl_cons, setParam_of_not_mem (hnew p List.mem_cons_self), ih _ hnodup.2]
    · rw [List.append_assoc, List.map_cons]
      rfl
    · intro q hq hmem
      rw [List.map_append, List.mem_append] at hmem
      rcases hmem with hmem | hmem
      · exact hnew q (List.mem_cons_of_mem p hq) hmem
      · have heq : q.1 = p.1 := String.ofList_injective (List.mem_singleton.mp hmem)
        exact hnodup.1 (heq ▸ List.mem_map_of_mem hq)

end CommandConf

end Mistral
