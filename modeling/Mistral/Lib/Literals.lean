import Mathlib.Data.List.TakeWhile

/-! Texts and lists of texts as Python prints them in literals, and how far a text goes on in characters of one class. -/

namespace Literals

/-! ### Literals -/

section
variable (printed : Char → List Char)

/-- The quotation mark around a text. -/
def quoteOf (s : List Char) : Char := if '\'' ∈ s ∧ '"' ∉ s then '"' else '\''

/-- A character between quotation marks `q`; `printed` is what stands for one that needs no backslash of its own. -/
def escapeChar (q c : Char) : List Char := if c = q ∨ c = '\\' then ['\\', c] else printed c

def reprText (s : List Char) : List Char := quoteOf s :: s.flatMap (escapeChar printed (quoteOf s)) ++ [quoteOf s]

def reprList (l : List (List Char)) : List Char := '[' :: [',', ' '].intercalate (l.map (reprText printed)) ++ [']']

end

/-! ### Beginnings -/

/-- The number of characters of a class that a text begins with. -/
def front (p : Char → Bool) (s : List Char) : Nat := (s.takeWhile p).length

variable {p : Char → Bool} {printed : Char → List Char} {s t x : List Char} {l xs : List (List Char)}

@[simp] theorem front_nil : front p [] = 0 := rfl

theorem front_cons_of_pos {c : Char} (hc : p c) : front p (c :: s) = front p s + 1 := by
  rw [front, List.takeWhile_cons_of_pos hc, List.length_cons, front]

theorem front_append_of_pos (hs : ∀ c ∈ s, p c) : front p (s ++ t) = s.length + front p t := by
  rw [front, List.takeWhile_append_of_pos hs, List.length_append, front]

theorem front_le_append : front p s ≤ front p (s ++ t) := by
  induction s with
  | nil => exact Nat.zero_le _
  | cons c s ih =>
    by_cases hc : p c
    · rw [List.cons_append, front_cons_of_pos hc, front_cons_of_pos hc]
      exact Nat.succ_le_succ ih
    · rw [front, List.takeWhile_cons_of_neg hc]
      exact Nat.zero_le _

/-- A separator outside the class ends the beginning. -/
theorem front_append_cons {c : Char} (hc : p c = false) : front p (s ++ c :: t) = front p s := by
  induction s with
  | nil => rw [List.nil_append, front, List.takeWhile_cons_of_neg (by simp [hc])]; rfl
  | cons d s ih =>
    by_cases hd : p d
    · rw [List.cons_append, front_cons_of_pos hd, front_cons_of_pos hd, ih]
    · rw [List.cons_append, front, front, List.takeWhile_cons_of_neg hd, List.takeWhile_cons_of_neg hd]

theorem front_intercalate {c : Char} (hc : p c = false) : front p ([c].intercalate (x :: xs)) = front p x := by
  cases xs with
  | nil => simp
  | cons y ys =>
    rw [List.intercalate_cons_of_ne_nil (by simp), List.append_assoc, List.singleton_append, front_append_cons hc]

theorem front_flatMap_le {f : Char → List Char} (hne : ∀ c, p c → f c ≠ []) (hf : ∀ c, p c → ∀ d ∈ f c, p d) :
    front p s ≤ front p (s.flatMap f) := by
  induction s with
  | nil => exact Nat.zero_le _
  | cons c s ih =>
    by_cases hc : p c
    · rw [front_cons_of_pos hc, List.flatMap_cons, front_append_of_pos (hf c hc)]
      have hpos := List.length_pos_iff.mpr (hne c hc)
      omega
    · rw [front, List.takeWhile_cons_of_neg hc]
      exact Nat.zero_le _

/-- The quotation mark of a literal makes its beginning longer than that of the text. -/
theorem front_lt_reprText (hquote : p '\'' ∧ p '"') (hback : p '\\') (hprinted : ∀ c, p c → printed c = [c]) :
    front p s < front p (reprText printed s ++ t) := by
  have hmark : p (quoteOf s) := by
    rw [quoteOf]
    split
    · exact hquote.2
    · exact hquote.1
  have hescape : ∀ c, p c → escapeChar printed (quoteOf s) c ≠ [] ∧ ∀ d ∈ escapeChar printed (quoteOf s) c, p d := by
    intro c hc
    rw [escapeChar]
    split
    · simp [hback, hc]
    · simp [hprinted c hc, hc]
  rw [reprText, List.cons_append, List.cons_append, front_cons_of_pos hmark, List.append_assoc]
  exact Nat.lt_succ_of_le
    ((front_flatMap_le (fun c hc => (hescape c hc).1) fun c hc => (hescape c hc).2).trans front_le_append)

/-- The literal of a list begins longer than its elements joined by a separator. -/
theorem front_lt_reprList (hquote : p '\'' ∧ p '"') (hback : p '\\') (hprinted : ∀ c, p c → printed c = [c])
    (hopen : p '[') {c : Char} (hc : p c = false) :
    front p ([c].intercalate l) < front p (reprList printed l) := by
  rw [reprList, List.cons_append, front_cons_of_pos hopen]
  cases l with
  | nil => simp
  | cons x xs =>
    rw [front_intercalate hc]
    have hbefore : front p x < front p ([',', ' '].intercalate ((x :: xs).map (reprText printed)) ++ [']']) := by
      cases xs with
      | nil => simpa using front_lt_reprText (t := [']']) hquote hback hprinted
      | cons y ys =>
        rw [List.map_cons, List.intercalate_cons_of_ne_nil (by simp), List.append_assoc, List.append_assoc]
        exact front_lt_reprText hquote hback hprinted
    exact hbefore.trans (Nat.lt_succ_self _)

end Literals
