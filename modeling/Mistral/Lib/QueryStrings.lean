import Mathlib.Data.List.TakeWhile

/-! Query strings of URLs: how they are cut, split into parameters and decoded. -/

namespace QueryStrings

/-! ### Decoding -/

def hexDigit? (c : Char) : Option Nat :=
  if '0' ≤ c ∧ c ≤ '9' then some (c.toNat - '0'.toNat)
  else if 'a' ≤ c ∧ c ≤ 'f' then some (c.toNat - 'a'.toNat + 10)
  else if 'A' ≤ c ∧ c ≤ 'F' then some (c.toNat - 'A'.toNat + 10)
  else none

/-- The byte that two hexadecimal digits after a percent sign stand for. -/
def escape? (a b : Char) : Option Nat := do
  let high ← hexDigit? a
  let low ← hexDigit? b
  return 16 * high + low

/-- The decoded text. Bytes in a row are decoded together by `utf8`; `bytes` are those read before the text. -/
def unquoteFrom (utf8 : List Nat → List Char) (bytes : List Nat) : List Char → List Char
  | [] => utf8 bytes
  | '%' :: a :: b :: rest =>
    match escape? a b with
    | some n => unquoteFrom utf8 (bytes ++ [n]) rest
    | none => utf8 bytes ++ '%' :: unquoteFrom utf8 [] (a :: b :: rest)
  | c :: rest => utf8 bytes ++ (if c = '+' then ' ' else c) :: unquoteFrom utf8 [] rest

def unquote (utf8 : List Nat → List Char) (s : List Char) : List Char := unquoteFrom utf8 [] s

/-- There is nothing in the text that decoding replaces. -/
def unescaped : List Char → Bool
  | [] => true
  | '%' :: a :: b :: rest => (escape? a b).isNone && unescaped (a :: b :: rest)
  | c :: rest => c != '+' && unescaped rest

variable {utf8 : List Nat → List Char} {bytes : List Nat} {s t : List Char}

theorem unquoteFrom_nil (hutf8 : ∀ bs, (utf8 bs).length ≤ bs.length) : utf8 [] = [] :=
  List.eq_nil_of_length_eq_zero (Nat.le_zero.mp (hutf8 []))

theorem length_unquoteFrom (hutf8 : ∀ bs, (utf8 bs).length ≤ bs.length) :
    (unquoteFrom utf8 bytes s).length ≤ bytes.length + s.length := by
  fun_induction unquoteFrom utf8 bytes s with
  | case1 bytes => exact hutf8 bytes
  | case2 bytes a b rest n h ih => simp at ih ⊢; omega
  | case3 bytes a b rest h ih =>
    have hbytes := hutf8 bytes
    simp at ih ⊢
    omega
  | case4 bytes c rest h ih =>
    have hbytes := hutf8 bytes
    simp at ih ⊢
    omega

theorem unquote_cons {c : Char} (hutf8 : ∀ bs, (utf8 bs).length ≤ bs.length) (hplus : c ≠ '+') (hpercent : c ≠ '%') :
    unquote utf8 (c :: s) = c :: unquote utf8 s := by
  rw [unquote, unquoteFrom, unquoteFrom_nil hutf8, if_neg hplus, List.nil_append, unquote]
  intro a b rest h
  exact absurd h hpercent

/-- A beginning without escapes is kept. -/
theorem unquote_append (hutf8 : ∀ bs, (utf8 bs).length ≤ bs.length) (h : ∀ c ∈ s, c ≠ '+' ∧ c ≠ '%') :
    unquote utf8 (s ++ t) = s ++ unquote utf8 t := by
  induction s with
  | nil => rfl
  | cons c s ih =>
    obtain ⟨hc, hs⟩ := List.forall_mem_cons.mp h
    rw [List.cons_append, unquote_cons hutf8 hc.1 hc.2, ih hs, List.cons_append]

theorem unquote_eq_self (hutf8 : ∀ bs, (utf8 bs).length ≤ bs.length) (h : ∀ c ∈ s, c ≠ '+' ∧ c ≠ '%') :
    unquote utf8 s = s := by
  have happend := unquote_append (t := []) hutf8 h
  rwa [List.append_nil, unquote, unquote, unquoteFrom, unquoteFrom_nil hutf8, List.append_nil] at happend

/-- Decoding keeps a text if, and only if, there is nothing in it to replace. -/
theorem unquote_eq_self_iff (hutf8 : ∀ bs, (utf8 bs).length ≤ bs.length) : unquote utf8 s = s ↔ unescaped s := by
  fun_induction unescaped s with
  | case1 => simp [unquote, unquoteFrom, unquoteFrom_nil hutf8]
  | case2 a b rest ih =>
    rw [unquote, unquoteFrom]
    cases hescape : escape? a b with
    | none =>
      rw [unquoteFrom_nil hutf8, List.nil_append, List.cons_inj_right]
      simpa [unquote] using ih
    | some n =>
      -- The decoded text is shorter.
      have hlen : (unquoteFrom utf8 ([] ++ [n]) rest).length ≤ ([] ++ [n]).length + rest.length := length_unquoteFrom hutf8
      simp only [Option.isNone_some, Bool.false_and, Bool.false_eq_true, iff_false]
      intro heq
      rw [heq] at hlen
      simp at hlen
      omega
  | case3 c rest h ih =>
    rw [unquote, unquoteFrom, unquoteFrom_nil hutf8, List.nil_append]
    · by_cases hc : c = '+'
      · simp [hc]
      · rw [if_neg hc, List.cons_inj_right]
        simpa [hc, unquote] using ih
    · exact h

/-! ### Parameters -/

/-- The parameter that a part of a query states: its name up to the first `=`, and its value. -/
def parameter (utf8 : List Nat → List Char) (part : List Char) : List Char × List Char :=
  (unquote utf8 (part.takeWhile (· != '=')), unquote utf8 ((part.dropWhile (· != '=')).drop 1))

/-- The parameters of a query, up to where a fragment begins. -/
def parameters (utf8 : List Nat → List Char) (query : List Char) : List (List Char × List Char) :=
  (((query.takeWhile (· != '#')).splitOn '&').filter (· ≠ [])).map (parameter utf8)

/-- The part of a query that states a parameter as it is written. -/
def stated (p : List Char × List Char) : List Char := p.1 ++ '=' :: p.2

/-- A text that can stand in a query as a name. -/
def IsName (s : List Char) : Prop := ∀ c ∈ s, c ≠ '=' ∧ c ≠ '&' ∧ c ≠ '#' ∧ c ≠ '+' ∧ c ≠ '%'

instance : Decidable (IsName s) := List.decidableBAll _ s

theorem parameter_stated {p : List Char × List Char} (hutf8 : ∀ bs, (utf8 bs).length ≤ bs.length) (hname : IsName p.1) :
    parameter utf8 (stated p) = (p.1, unquote utf8 p.2) := by
  have heq : ∀ c ∈ p.1, (c != '=') = true := fun c hc => bne_iff_ne.mpr (hname c hc).1
  have htake : (stated p).takeWhile (· != '=') = p.1 := by
    rw [stated, List.takeWhile_append_of_pos heq]
    simp
  have hdrop : (stated p).dropWhile (· != '=') = '=' :: p.2 := by
    rw [stated, List.dropWhile_append_of_pos heq]
    simp
  rw [parameter, htake, hdrop, List.drop_one, List.tail_cons,
    unquote_eq_self hutf8 fun c hc => ⟨(hname c hc).2.2.2.1, (hname c hc).2.2.2.2⟩]

theorem mem_intercalate {c d : Char} {parts : List (List Char)} (h : c ∈ [d].intercalate parts) :
    c = d ∨ ∃ part ∈ parts, c ∈ part := by
  induction parts with
  | nil => simp at h
  | cons part parts ih =>
    cases parts with
    | nil => exact Or.inr ⟨part, List.mem_cons_self, by simpa using h⟩
    | cons q qs =>
      rw [List.intercalate_cons_of_ne_nil (by simp), List.append_assoc, List.mem_append, List.mem_append,
        List.mem_singleton] at h
      rcases h with h | rfl | h
      · exact Or.inr ⟨part, List.mem_cons_self, h⟩
      · exact Or.inl rfl
      · rcases ih h with rfl | ⟨part', hpart', hc⟩
        · exact Or.inl rfl
        · exact Or.inr ⟨part', List.mem_cons_of_mem _ hpart', hc⟩

/-- Parameters that are written one by one are read again, with their values decoded. -/
theorem parameters_intercalate {ps : List (List Char × List Char)} (hutf8 : ∀ bs, (utf8 bs).length ≤ bs.length)
    (hnames : ∀ p ∈ ps, IsName p.1) (hvalues : ∀ p ∈ ps, '&' ∉ p.2 ∧ '#' ∉ p.2) (hps : ps ≠ []) :
    parameters utf8 (['&'].intercalate (ps.map stated)) = ps.map fun p => (p.1, unquote utf8 p.2) := by
  have hchars : ∀ part ∈ ps.map stated, '&' ∉ part ∧ '#' ∉ part := by
    intro part hpart
    obtain ⟨p, hp, rfl⟩ := List.mem_map.mp hpart
    have hname := hnames p hp
    simp only [stated, List.mem_append, List.mem_cons, not_or]
    exact ⟨⟨fun h => (hname _ h).2.1 rfl, by decide, (hvalues p hp).1⟩,
      ⟨fun h => (hname _ h).2.2.1 rfl, by decide, (hvalues p hp).2⟩⟩
  have hcut : (['&'].intercalate (ps.map stated)).takeWhile (· != '#') = ['&'].intercalate (ps.map stated) := by
    refine List.takeWhile_eq_self_iff.mpr fun c hc => bne_iff_ne.mpr ?_
    rintro rfl
    rcases mem_intercalate hc with h | ⟨part, hpart, h⟩
    · exact absurd h (by decide)
    · exact (hchars part hpart).2 h
  have hfilter : (ps.map stated).filter (· ≠ []) = ps.map stated := by
    refine List.filter_eq_self.mpr fun part hpart => ?_
    obtain ⟨p, -, rfl⟩ := List.mem_map.mp hpart
    simp [stated]
  rw [parameters, hcut, List.splitOn_intercalate '&' (fun part hpart => (hchars part hpart).1) (by simpa using hps),
    hfilter, List.map_map]
  exact List.map_congr_left fun p hp => parameter_stated hutf8 (hnames p hp)

end QueryStrings
