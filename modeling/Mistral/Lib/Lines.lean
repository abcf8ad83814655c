import Mathlib.Data.List.DropRight
import Mathlib.Data.List.Infix

/-! Texts, their lines, and the blanks at the beginning and at the end of them. -/

namespace Lines

/-- The lines of a text, each with the line break at its end. -/
def readLines : List Char → List (List Char)
  | [] => []
  | c :: s =>
    if c = '\n' then ['\n'] :: readLines s
    else match readLines s with
      | [] => [[c]]
      | line :: lines => (c :: line) :: lines

/-- The first position of a part of a text. -/
def index (w : List Char) : List Char → Option Nat
  | [] => if w = [] then some 0 else none
  | c :: s => if w <+: c :: s then some 0 else (index w s).map (· + 1)

section
variable (space : Char → Bool)

def lstrip (s : List Char) : List Char := s.dropWhile space

def rstrip (s : List Char) : List Char := s.rdropWhile space

def strip (s : List Char) : List Char := rstrip space (lstrip space s)

end

attribute [grind =] readLines index

variable {space : Char → Bool} {w s t line : List Char} {c : Char}

/-! ### Lines -/

/-- A line break is only at the end of a line. -/
theorem newline_not_mem_dropLast (h : line ∈ readLines s) : '\n' ∉ line.dropLast := by
  induction s generalizing line with
  | nil => cases h
  | cons c s ih =>
    rw [readLines] at h
    split at h
    · rcases List.mem_cons.mp h with rfl | h
      · exact List.not_mem_nil
      · exact ih h
    next hc =>
      cases hlines : readLines s with
      | nil =>
        rw [hlines] at h
        obtain rfl := List.mem_singleton.mp h
        exact List.not_mem_nil
      | cons l ls =>
        rw [hlines] at h ih
        rcases List.mem_cons.mp h with rfl | h
        · cases l with
          | nil => exact List.not_mem_nil
          | cons c' l =>
            rw [List.dropLast_cons_cons]
            intro hmem
            rcases List.mem_cons.mp hmem with rfl | hmem
            · exact hc rfl
            · exact ih List.mem_cons_self hmem
        · exact ih (List.mem_cons_of_mem _ h)

theorem flatten_readLines : (readLines s).flatten = s := by
  induction s with
  | nil => rfl
  | cons c s ih =>
    rw [readLines]
    split
    next hc => rw [List.flatten_cons, ih, hc]; rfl
    next =>
      cases hlines : readLines s with
      | nil =>
        rw [hlines] at ih
        rw [← ih]
        rfl
      | cons l ls =>
        rw [hlines] at ih
        rw [← ih]
        rfl

/-- What a text without line breaks begins with is the beginning of its first line. -/
theorem prefix_line (hw : '\n' ∉ w) (hne : w ≠ []) (h : w <+: s) :
    ∃ line lines, readLines s = line :: lines ∧ w <+: line := by
  induction w generalizing s with
  | nil => exact absurd rfl hne
  | cons c w ih =>
    obtain ⟨r, rfl⟩ := h
    have hc : c ≠ '\n' := fun hc => hw (hc ▸ List.mem_cons_self)
    rw [List.cons_append, readLines, if_neg hc]
    by_cases hnil : w = []
    · subst hnil
      cases readLines ([] ++ r) with
      | nil => exact ⟨[c], [], rfl, List.prefix_refl _⟩
      | cons l ls => exact ⟨c :: l, ls, rfl, List.prefix_append [c] l⟩
    · obtain ⟨l, ls, hlines, hl⟩ := ih (fun hmem => hw (List.mem_cons_of_mem _ hmem)) hnil (List.prefix_append w r)
      rw [hlines]
      exact ⟨c :: l, ls, rfl, List.cons_prefix_cons.mpr ⟨rfl, hl⟩⟩

theorem infix_of_line (hline : line ∈ readLines s) (h : w <:+: line) : w <:+: s := by
  obtain ⟨before, after, hsplit⟩ := List.append_of_mem hline
  have htext := flatten_readLines (s := s)
  rw [hsplit, List.flatten_append, List.flatten_cons] at htext
  rw [← htext]
  exact h.trans (List.infix_append' _ _ _)

/-! ### Positions -/

theorem exists_index (h : w <:+: s) : ∃ i, index w s = some i := by
  induction s with
  | nil => exact ⟨0, if_pos (List.infix_nil.mp h)⟩
  | cons c s ih =>
    rw [index]
    split
    · exact ⟨0, rfl⟩
    next hnot =>
      obtain ⟨i, hi⟩ := ih ((List.infix_cons_iff.mp h).resolve_left hnot)
      exact ⟨i + 1, by rw [hi]; rfl⟩

/-- The lines after the first occurrence of a part come after the first line with that part. -/
theorem tail_readLines_drop (hw : '\n' ∉ w) (hne : w ≠ []) {i : Nat} (h : index w s = some i) :
    (readLines (s.drop i)).tail = ((readLines s).dropWhile fun line => ¬w <:+: line).tail := by
  induction s generalizing i with
  | nil => exact absurd h (by rw [index, if_neg hne]; exact nofun)
  | cons c s ih =>
    rw [index] at h
    split at h
    next hprefix =>
      obtain rfl := Option.some.inj h
      obtain ⟨line, lines, hlines, hline⟩ := prefix_line hw hne hprefix
      rw [List.drop_zero, hlines, List.dropWhile_cons_of_neg (by simpa using hline.isInfix)]
    next hnot =>
      obtain ⟨i, hi, rfl⟩ := Option.map_eq_some_iff.mp h
      rw [List.drop_succ_cons, ih hi, readLines]
      split
      next hc =>
        have hbreak : ¬w <:+: ['\n'] := fun hin => by
          obtain ⟨a, ha⟩ := List.exists_mem_of_ne_nil w hne
          exact hw (List.mem_singleton.mp (hin.subset ha) ▸ ha)
        rw [List.dropWhile_cons_of_pos (by simpa using hbreak)]
      next hc =>
        have hs := flatten_readLines (s := s)
        cases hlines : readLines s with
        | nil =>
          rw [hlines] at hs
          obtain rfl : s = [] := hs.symm
          rw [index, if_neg hne] at hi
          cases hi
        | cons l ls =>
          rw [hlines] at hs
          have hiff : w <:+: c :: l ↔ w <:+: l := by
            rw [List.infix_cons_iff, or_iff_right]
            intro hp
            refine hnot (hp.trans (List.cons_prefix_cons.mpr ⟨rfl, ?_⟩))
            exact hs ▸ List.prefix_append l ls.flatten
          by_cases hl : w <:+: l
          · rw [List.dropWhile_cons_of_neg (by simpa using hl), List.dropWhile_cons_of_neg (by simpa using hiff.mpr hl)]
            rfl
          · rw [List.dropWhile_cons_of_pos (by simpa using hl), List.dropWhile_cons_of_pos (by simpa using fun h => hl (hiff.mp h))]

/-- A part that begins with something else than a blank comes right after the blanks before it. -/
theorem index_after_blanks {blanks : List Char} (hblanks : ∀ b ∈ blanks, space b) (hc : space c = false) (t : List Char) :
    index (c :: w) (blanks ++ (c :: w ++ t)) = some blanks.length := by
  induction blanks with
  | nil => exact if_pos (List.prefix_append _ _)
  | cons b blanks ih =>
    rw [List.cons_append, index, if_neg, ih fun b hb => hblanks b (List.mem_cons_of_mem _ hb)]
    · rfl
    · intro hprefix
      have hb := hblanks b List.mem_cons_self
      rw [← (List.cons_prefix_cons.mp hprefix).1, hc] at hb
      cases hb

/-! ### Blanks at the end -/

theorem rstrip_append (h : ∃ a ∈ t, space a = false) : rstrip space (s ++ t) = s ++ rstrip space t := by
  have hne : t.reverse.dropWhile space ≠ [] := by
    obtain ⟨a, ha, hspace⟩ := h
    intro hnil
    have := List.dropWhile_eq_nil_iff.mp hnil a (List.mem_reverse.mpr ha)
    rw [hspace] at this
    cases this
  rw [rstrip, List.rdropWhile, List.reverse_append, List.dropWhile_append, if_neg (by simpa using hne), List.reverse_append,
    List.reverse_reverse]
  rfl

theorem rstrip_append_of_blank (h : ∀ a ∈ t, space a) : rstrip space (s ++ t) = rstrip space s := by
  have hnil : t.reverse.dropWhile space = [] := List.dropWhile_eq_nil_iff.mpr fun a ha => h a (List.mem_reverse.mp ha)
  rw [rstrip, List.rdropWhile, List.reverse_append, List.dropWhile_append, hnil]
  rfl

/-- A text that is not blank begins with blanks and something else. -/
theorem exists_blanks (h : ∃ a ∈ s, space a = false) :
    ∃ blanks c t, s = blanks ++ c :: t ∧ (∀ b ∈ blanks, space b) ∧ space c = false := by
  have hne : s.dropWhile space ≠ [] := by
    obtain ⟨a, ha, hspace⟩ := h
    intro hnil
    have := List.dropWhile_eq_nil_iff.mp hnil a ha
    rw [hspace] at this
    cases this
  obtain ⟨c, t, hct⟩ := List.exists_cons_of_ne_nil hne
  refine ⟨s.takeWhile space, c, t, by rw [← hct, List.takeWhile_append_dropWhile], fun b => List.mem_takeWhile_imp, ?_⟩
  have hhead := List.head_dropWhile_not space hne
  simpa only [hct, List.head_cons] using hhead

theorem lstrip_blanks {blanks : List Char} (hblanks : ∀ b ∈ blanks, space b) (hc : space c = false) :
    lstrip space (blanks ++ c :: t) = c :: t := by
  rw [lstrip, List.dropWhile_append_of_pos hblanks, List.dropWhile_cons_of_neg (by simp [hc])]

theorem strip_eq_nil_iff : strip space s = [] ↔ ∀ a ∈ s, space a := by
  rw [strip, rstrip, List.rdropWhile_eq_nil_iff]
  constructor
  · intro h
    have hnil : lstrip space s = [] := by
      by_contra hne
      have hhead : space ((lstrip space s).head hne) = false := List.head_dropWhile_not space hne
      rw [h _ (List.head_mem hne)] at hhead
      cases hhead
    exact List.dropWhile_eq_nil_iff.mp hnil
  · intro h a ha
    exact h a ((List.dropWhile_suffix space).subset ha)

end Lines
