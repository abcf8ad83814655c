import Mathlib.Data.List.TakeWhile
import Mathlib.Data.Sum.Basic

/-! Regular expressions as backtracking engines read them: the ways to match the beginning of a text, in the order in which
    they are tried. -/

/-- `one p` is a character class, `many p` and `few p` are its greedy and its lazy repetition, and `lineEnd` is the
    anchor `$`. -/
inductive Pattern
  | empty
  | one (p : Char → Bool)
  | many (p : Char → Bool)
  | few (p : Char → Bool)
  | lineEnd
  | seq (a b : Pattern)
  | alt (a b : Pattern)

namespace Pattern

def manyRests (p : Char → Bool) : List Char → List (List Char)
  | [] => [[]]
  | c :: s => if p c then manyRests p s ++ [c :: s] else [c :: s]

def fewRests (p : Char → Bool) : List Char → List (List Char)
  | [] => [[]]
  | c :: s => if p c then (c :: s) :: fewRests p s else [c :: s]

/-- What is left of a text after a match at its beginning. -/
def rests : Pattern → List Char → List (List Char)
  | .empty, s => [s]
  | .one _, [] => []
  | .one p, c :: s => if p c then [s] else []
  | .many p, s => manyRests p s
  | .few p, s => fewRests p s
  | .lineEnd, s => if s = [] ∨ s = ['\n'] then [s] else []
  | .seq a b, s => (a.rests s).flatMap b.rests
  | .alt a b, s => a.rests s ++ b.rests s

/-- The pattern matches at the beginning. -/
def Matches (a : Pattern) (s : List Char) : Prop := a.rests s ≠ []

instance (a : Pattern) (s : List Char) : Decidable (a.Matches s) := inferInstanceAs (Decidable (_ ≠ _))

/-- The first match at the beginning, with what is left after it. -/
def matchPrefix (a : Pattern) (s : List Char) : Option (List Char × List Char) :=
  (a.rests s).head?.map fun r => (s.take (s.length - r.length), r)

def char (c : Char) : Pattern := .one (· == c)

def literal : List Char → Pattern
  | [] => .empty
  | c :: s => .seq (char c) (literal s)

/-- The repetition `+`. -/
def plus (p : Char → Bool) : Pattern := .seq (.one p) (.many p)

attribute [grind =] manyRests fewRests rests

/-! ### Single patterns -/

variable {p : Char → Bool} {a b : Pattern} {s r t : List Char} {c : Char}

theorem mem_manyRests : r ∈ manyRests p s ↔ ∃ t, s = t ++ r ∧ ∀ c ∈ t, p c := by
  induction s with
  | nil =>
    constructor
    · intro h
      exact ⟨[], (List.mem_singleton.mp h).symm, fun c hc => absurd hc List.not_mem_nil⟩
    · rintro ⟨t, hs, -⟩
      exact List.mem_singleton.mpr (List.append_eq_nil_iff.mp hs.symm).2
  | cons c s ih =>
    rw [manyRests]
    constructor
    · intro h
      split at h
      next hc =>
        rcases List.mem_append.mp h with h | h
        · obtain ⟨t, rfl, ht⟩ := ih.mp h
          exact ⟨c :: t, rfl, List.forall_mem_cons.mpr ⟨hc, ht⟩⟩
        · exact ⟨[], (List.mem_singleton.mp h).symm, fun c hc => absurd hc List.not_mem_nil⟩
      · exact ⟨[], (List.mem_singleton.mp h).symm, fun c hc => absurd hc List.not_mem_nil⟩
    · rintro ⟨_ | ⟨c', t⟩, hs, ht⟩
      · subst hs
        split <;> simp
      · obtain ⟨rfl, rfl⟩ := List.cons.inj hs
        obtain ⟨hc, ht⟩ := List.forall_mem_cons.mp ht
        rw [if_pos hc]
        exact List.mem_append_left _ (ih.mpr ⟨t, rfl, ht⟩)

/-- A greedy repetition takes all that it can at first. -/
theorem head?_manyRests : (manyRests p s).head? = some (s.dropWhile p) := by
  induction s with
  | nil => rfl
  | cons c s ih =>
    rw [manyRests]
    split
    next hc => rw [List.head?_append, ih, List.dropWhile_cons_of_pos hc, Option.some_or]
    next hc => rw [List.dropWhile_cons_of_neg hc, List.head?_cons]

theorem mem_rests_char : r ∈ (char c).rests s ↔ s = c :: r := by
  cases s with
  | nil => simp [char, rests]
  | cons c' s =>
    rw [char, rests]
    split
    next hc => simp [eq_of_beq hc, eq_comm]
    next hc => simpa using fun h => absurd h (by simpa using hc)

theorem mem_rests_seq : r ∈ (seq a b).rests s ↔ ∃ s', s' ∈ a.rests s ∧ r ∈ b.rests s' := by
  rw [rests, List.mem_flatMap]

theorem mem_rests_plus : r ∈ (plus p).rests s ↔ ∃ t, t ≠ [] ∧ s = t ++ r ∧ ∀ c ∈ t, p c := by
  rw [plus, mem_rests_seq]
  cases s with
  | nil =>
    simp only [rests, List.not_mem_nil, false_and, exists_false, false_iff]
    rintro ⟨t, hne, hs, -⟩
    exact hne (List.append_eq_nil_iff.mp hs.symm).1
  | cons c s =>
    rw [rests]
    constructor
    · rintro ⟨s', hs', hr⟩
      split at hs'
      next hc =>
        obtain rfl := List.mem_singleton.mp hs'
        obtain ⟨t, rfl, ht⟩ := mem_manyRests.mp hr
        exact ⟨c :: t, List.cons_ne_nil c t, rfl, List.forall_mem_cons.mpr ⟨hc, ht⟩⟩
      · cases hs'
    · rintro ⟨_ | ⟨c', t⟩, hne, hs, ht⟩
      · exact absurd rfl hne
      · obtain ⟨rfl, rfl⟩ := List.cons.inj hs
        obtain ⟨hc, ht⟩ := List.forall_mem_cons.mp ht
        rw [if_pos hc]
        exact ⟨t ++ r, List.mem_singleton_self _, mem_manyRests.mpr ⟨t, rfl, ht⟩⟩

theorem mem_rests_lineEnd : r ∈ lineEnd.rests s ↔ r = s ∧ (s = [] ∨ s = ['\n']) := by
  rw [rests]
  split
  next h => simp [h]
  next h => simp [h]

theorem matches_iff : a.Matches s ↔ ∃ r, r ∈ a.rests s :=
  ⟨List.exists_mem_of_ne_nil _, fun ⟨_, h⟩ => List.ne_nil_of_mem h⟩

theorem head?_rests_plus (hc : p c) : ((plus p).rests (c :: s)).head? = some (s.dropWhile p) := by
  rw [plus, rests, rests, if_pos hc, List.flatMap_singleton, rests, head?_manyRests]

/-- The first match of a sequence begins with the first match of its first part, where the second part matches after it. -/
theorem head?_rests_seq {r' : List Char} (ha : (a.rests s).head? = some r) (hb : (b.rests r).head? = some r') :
    ((seq a b).rests s).head? = some r' := by
  obtain ⟨l, hl⟩ := List.head?_eq_some_iff.mp ha
  rw [rests, hl, List.flatMap_cons, List.head?_append, hb, Option.some_or]

/-! ### What is left -/

theorem mem_fewRests : r ∈ fewRests p s → ∃ t, s = t ++ r ∧ ∀ c ∈ t, p c := by
  induction s with
  | nil => exact fun h => ⟨[], (List.mem_singleton.mp h).symm, fun c hc => absurd hc List.not_mem_nil⟩
  | cons c s ih =>
    rw [fewRests]
    intro h
    split at h
    next hc =>
      rcases List.mem_cons.mp h with rfl | h
      · exact ⟨[], rfl, fun c hc => absurd hc List.not_mem_nil⟩
      · obtain ⟨t, rfl, ht⟩ := ih h
        exact ⟨c :: t, rfl, List.forall_mem_cons.mpr ⟨hc, ht⟩⟩
    · exact ⟨[], (List.mem_singleton.mp h).symm, fun c hc => absurd hc List.not_mem_nil⟩

/-- What is left is the end of the text. -/
theorem suffix_of_mem_rests (h : r ∈ a.rests s) : r <:+ s := by
  induction a generalizing s r with
  | empty => exact List.mem_singleton.mp h ▸ List.suffix_rfl
  | one p =>
    cases s with
    | nil => cases h
    | cons c s =>
      rw [rests] at h
      split at h
      · exact List.mem_singleton.mp h ▸ List.suffix_cons c s
      · cases h
  | many p =>
    obtain ⟨t, rfl, -⟩ := mem_manyRests.mp h
    exact List.suffix_append t r
  | few p =>
    obtain ⟨t, rfl, -⟩ := mem_fewRests h
    exact List.suffix_append t r
  | lineEnd => exact (mem_rests_lineEnd.mp h).1 ▸ List.suffix_rfl
  | seq a b iha ihb =>
    obtain ⟨s', hs', hr⟩ := mem_rests_seq.mp h
    exact (ihb hr).trans (iha hs')
  | alt a b iha ihb =>
    rcases List.mem_append.mp h with h | h
    · exact iha h
    · exact ihb h

/-! ### First matches -/

theorem rests_literal (d s : List Char) : (literal d).rests s = if d <+: s then [s.drop d.length] else [] := by
  induction d generalizing s with
  | nil => exact (if_pos (List.nil_prefix)).symm
  | cons c d ih =>
    cases s with
    | nil => rfl
    | cons c' s =>
      rw [literal, char, rests, rests]
      by_cases hc : c' = c
      · subst hc
        rw [if_pos (beq_self_eq_true _), List.flatMap_singleton, ih]
        simp only [List.cons_prefix_cons, true_and, List.length_cons, List.drop_succ_cons]
      · rw [if_neg (by simpa using hc), if_neg fun h => hc (List.cons_prefix_cons.mp h).1.symm]
        rfl

/-- Two patterns after one another fail where the first one does. -/
theorem rests_char_seq_of_ne {c' : Char} (hc : c ≠ c') : (seq (char c') b).rests (c :: s) = [] := by
  rw [rests, char, rests, if_neg (by simpa using hc)]
  rfl

theorem head?_char_seq : ((seq (char c) b).rests (c :: s)).head? = (b.rests s).head? := by
  rw [rests, char, rests, if_pos (beq_self_eq_true _), List.flatMap_singleton]

/-- A lazy repetition before a literal goes up to the first place of this. -/
theorem head?_few_literal {d : List Char} (hd : d ≠ []) :
    ((seq (few p) (literal d)).rests s).head? = some r ↔
      ∃ t, s = t ++ (d ++ r) ∧ (∀ c ∈ t, p c) ∧ ∀ t₁ c t₂, t = t₁ ++ c :: t₂ → ¬d <+: c :: t₂ ++ (d ++ r) := by
  have hhere : ∀ s : List Char, d <+: s → ((literal d).rests s).head? = some (s.drop d.length) := fun s h => by
    rw [rests_literal, if_pos h]
    rfl
  have hnot : ∀ s : List Char, ¬d <+: s → (literal d).rests s = [] := fun s h => by rw [rests_literal, if_neg h]
  induction s with
  | nil =>
    have hno : ¬d <+: [] := fun h => hd (List.prefix_nil.mp h)
    rw [rests, rests, fewRests, List.flatMap_singleton, hnot [] hno]
    refine ⟨nofun, fun ⟨t, ht, _, _⟩ => ?_⟩
    exact absurd (List.append_eq_nil_iff.mp (List.append_eq_nil_iff.mp ht.symm).2).1 hd
  | cons c s ih =>
    by_cases hprefix : d <+: c :: s
    · have hfirst : ((seq (few p) (literal d)).rests (c :: s)).head? = some ((c :: s).drop d.length) := by
        rw [rests, rests, fewRests]
        split
        · rw [List.flatMap_cons, List.head?_append, hhere _ hprefix, Option.some_or]
        · rw [List.flatMap_singleton, hhere _ hprefix]
      rw [hfirst]
      obtain ⟨r', hr'⟩ := hprefix
      rw [← hr', List.drop_left]
      constructor
      · rintro h
        obtain rfl := Option.some.inj h
        exact ⟨[], rfl, nofun, fun t₁ c t₂ h => absurd h.symm (by simp)⟩
      · rintro ⟨t, ht, -, hearlier⟩
        cases t with
        | nil => exact congrArg some (List.append_cancel_left ht)
        | cons c' t =>
          obtain ⟨rfl, rfl⟩ := List.cons.inj (hr'.symm.trans ht)
          exact absurd ⟨r', hr'⟩ (hearlier [] c t rfl)
    · rw [rests, rests, fewRests]
      by_cases hc : p c
      · rw [if_pos hc, List.flatMap_cons, hnot _ hprefix, List.nil_append]
        rw [rests, rests] at ih
        refine ih.trans ?_
        constructor
        · rintro ⟨t, rfl, ht, hearlier⟩
          refine ⟨c :: t, rfl, List.forall_mem_cons.mpr ⟨hc, ht⟩, fun t₁ c' t₂ heq => ?_⟩
          cases t₁ with
          | nil =>
            obtain ⟨rfl, rfl⟩ := List.cons.inj heq
            exact hprefix
          | cons a t₁ => exact hearlier t₁ c' t₂ (List.cons.inj heq).2
        · rintro ⟨t, hs, ht, hearlier⟩
          cases t with
          | nil => exact absurd (hs ▸ List.prefix_append d r) hprefix
          | cons a t =>
            obtain ⟨rfl, rfl⟩ := List.cons.inj hs
            exact ⟨t, rfl, (List.forall_mem_cons.mp ht).2, fun t₁ c' t₂ heq => hearlier (c :: t₁) c' t₂ (by rw [heq]; rfl)⟩
      · rw [if_neg hc, List.flatMap_singleton, hnot _ hprefix]
        refine ⟨nofun, fun ⟨t, hs, ht, _⟩ => ?_⟩
        cases t with
        | nil => exact absurd (hs ▸ List.prefix_append d r) hprefix
        | cons a t => exact absurd ((List.cons.inj hs).1 ▸ ht a List.mem_cons_self) hc

/-- A greedy repetition before a character goes up to the last place of this. -/
theorem head?_many_char (hc : p c) (hb : ∀ s, b.rests s ≠ []) :
    ((seq (many p) (seq (char c) b)).rests s).head? = some r ↔
      ∃ t s', s = t ++ c :: s' ∧ (∀ a ∈ t, p a) ∧ c ∉ s'.takeWhile p ∧ (b.rests s').head? = some r := by
  induction s generalizing r with
  | nil =>
    refine ⟨fun h => ?_, fun ⟨t, s', h, _⟩ => absurd h.symm (by simp)⟩
    rw [rests, rests, manyRests, List.flatMap_singleton] at h
    cases h
  | cons a s ih =>
    rw [rests, rests] at ih
    rw [rests, rests, manyRests]
    by_cases ha : p a
    · rw [if_pos ha, List.flatMap_append, List.flatMap_singleton, List.head?_append]
      cases hlater : ((manyRests p s).flatMap (seq (char c) b).rests).head? with
      | some r' =>
        rw [Option.some_or]
        obtain ⟨t, s', rfl, ht, hno, hr'⟩ := ih.mp hlater
        constructor
        · intro h
          obtain rfl := Option.some.inj h
          exact ⟨a :: t, s', rfl, List.forall_mem_cons.mpr ⟨ha, ht⟩, hno, hr'⟩
        · rintro ⟨u, s'', hs, hu, hno', hr⟩
          cases u with
          | nil =>
            obtain ⟨rfl, rfl⟩ := List.cons.inj hs
            refine absurd ?_ hno'
            rw [List.takeWhile_append_of_pos ht, List.takeWhile_cons_of_pos hc]
            exact List.mem_append_right _ List.mem_cons_self
          | cons a' u =>
            obtain ⟨rfl, hrest⟩ := List.cons.inj hs
            exact hlater.symm.trans (ih.mpr ⟨u, s'', hrest, (List.forall_mem_cons.mp hu).2, hno', hr⟩)
      | none =>
        rw [Option.none_or]
        have hnone : c ∉ s.takeWhile p := by
          intro hmem
          obtain ⟨u, v, huv⟩ := List.append_of_mem hmem
          have hs : s = u ++ c :: (v ++ s.dropWhile p) := by
            rw [← List.cons_append, ← List.append_assoc, ← huv, List.takeWhile_append_dropWhile]
          have hu : ∀ a ∈ u, p a := fun a ha => List.mem_takeWhile_imp (huv ▸ List.mem_append_left _ ha)
          have hin : ∀ x ∈ b.rests (v ++ s.dropWhile p), x ∈ (manyRests p s).flatMap (seq (char c) b).rests := fun x hx =>
            List.mem_flatMap.mpr ⟨c :: (v ++ s.dropWhile p), mem_manyRests.mpr ⟨u, hs, hu⟩,
              mem_rests_seq.mpr ⟨_, mem_rests_char.mpr rfl, hx⟩⟩
          obtain ⟨x, hx⟩ := List.exists_mem_of_ne_nil _ (hb (v ++ s.dropWhile p))
          exact List.ne_nil_of_mem (hin x hx) (List.head?_eq_none_iff.mp hlater)
        constructor
        · intro h
          by_cases hac : a = c
          · subst hac
            exact ⟨[], s, rfl, nofun, hnone, head?_char_seq.symm.trans h⟩
          · rw [rests_char_seq_of_ne hac] at h
            cases h
        · rintro ⟨u, s', hs, hu, hno, hr⟩
          cases u with
          | nil =>
            obtain ⟨rfl, rfl⟩ := List.cons.inj hs
            exact head?_char_seq.trans hr
          | cons a' u =>
            obtain ⟨rfl, hrest⟩ := List.cons.inj hs
            have := ih.mpr ⟨u, s', hrest, (List.forall_mem_cons.mp hu).2, hno, hr⟩
            rw [hlater] at this
            cases this
    · rw [if_neg ha, List.flatMap_singleton]
      have hac : a ≠ c := fun h => ha (h ▸ hc)
      rw [rests_char_seq_of_ne hac]
      refine ⟨nofun, fun ⟨u, s', hs, hu, _⟩ => ?_⟩
      cases u with
      | nil => exact absurd (List.cons.inj hs).1 hac
      | cons a' u => exact absurd ((List.cons.inj hs).1 ▸ hu a' List.mem_cons_self) ha

/-! ### All matches -/

/-- A text cut into its matches and the single characters outside of them. The number counts the characters that are left of
    a match. For patterns that do not match the empty text. -/
def segments (a : Pattern) : Nat → List Char → List (Char ⊕ List Char)
  | _, [] => []
  | skip + 1, _ :: s => segments a skip s
  | 0, c :: s =>
    match a.matchPrefix (c :: s) with
    | some (t, _) => .inr t :: segments a (t.length - 1) s
    | none => .inl c :: segments a 0 s

def findall (a : Pattern) (s : List Char) : List (List Char) := (a.segments 0 s).filterMap Sum.getRight?

/-- Every match takes something. -/
def Proper (a : Pattern) : Prop := ∀ s, ∀ r ∈ a.rests s, r.length < s.length

theorem matchPrefix_eq_some (h : a.matchPrefix s = some (t, r)) : r ∈ a.rests s ∧ s = t ++ r := by
  obtain ⟨r', hr', heq⟩ := Option.map_eq_some_iff.mp h
  obtain ⟨rfl, rfl⟩ := Prod.mk.inj heq
  have hmem := List.mem_of_head? hr'
  obtain ⟨t, rfl⟩ := suffix_of_mem_rests hmem
  refine ⟨hmem, ?_⟩
  rw [List.length_append, Nat.add_sub_cancel, List.take_left]

theorem Proper.ne_nil (ha : a.Proper) (h : a.matchPrefix s = some (t, r)) : t ≠ [] := by
  obtain ⟨hr, hs⟩ := matchPrefix_eq_some h
  rintro rfl
  exact absurd (ha s r hr) (by rw [hs]; exact Nat.lt_irrefl _)

theorem segments_skip {t : List Char} : a.segments t.length (t ++ s) = a.segments 0 s := by
  induction t with
  | nil => rfl
  | cons c t ih => exact ih

theorem segments_of_match {t : List Char} (h : a.matchPrefix (c :: s) = some (c :: t, r)) :
    a.segments 0 (c :: s) = .inr (c :: t) :: a.segments 0 r := by
  have hs := (matchPrefix_eq_some h).2
  rw [List.cons_append, List.cons.injEq] at hs
  rw [segments, h, hs.2]
  exact congrArg _ segments_skip

/-- The segments are the text. -/
theorem flatMap_segments (ha : a.Proper) (s : List Char) : (a.segments 0 s).flatMap (Sum.elim ([·]) id) = s := by
  induction hn : s.length using Nat.strong_induction_on generalizing s with
  | _ n ih =>
    subst hn
    cases s with
    | nil => rfl
    | cons c s =>
      cases hmatch : a.matchPrefix (c :: s) with
      | none =>
        rw [segments, hmatch, List.flatMap_cons, ih _ (Nat.lt_succ_self _) s rfl]
        rfl
      | some found =>
        obtain ⟨t, r⟩ := found
        obtain ⟨hr, hs⟩ := matchPrefix_eq_some hmatch
        obtain ⟨c', t, rfl⟩ := List.exists_cons_of_ne_nil (ha.ne_nil hmatch)
        obtain ⟨rfl, -⟩ := List.cons.inj hs
        rw [segments_of_match hmatch, List.flatMap_cons, ih _ (ha _ r hr) r rfl, hs]
        rfl

theorem ne_nil_of_mem_findall (ha : a.Proper) : ∀ {s : List Char} {t : List Char}, t ∈ a.findall s → t ≠ [] := by
  intro s t ht
  obtain ⟨seg, hseg, ht⟩ := List.mem_filterMap.mp ht
  suffices h : ∀ (s : List Char) (skip : Nat), ∀ t, .inr t ∈ a.segments skip s → t ≠ [] by
    cases seg with
    | inl c => cases ht
    | inr t' => exact Option.some.inj ht ▸ h s 0 t' hseg
  intro s
  induction s with
  | nil => exact fun skip t ht => absurd ht List.not_mem_nil
  | cons c s ih =>
    intro skip t ht
    cases skip with
    | succ skip => exact ih skip t ht
    | zero =>
      rw [segments] at ht
      split at ht
      next t' r hmatch =>
        rcases List.mem_cons.mp ht with heq | ht
        · exact Sum.inr.inj heq ▸ ha.ne_nil hmatch
        · exact ih _ t ht
      next =>
        rcases List.mem_cons.mp ht with heq | ht
        · cases heq
        · exact ih _ t ht

end Pattern
