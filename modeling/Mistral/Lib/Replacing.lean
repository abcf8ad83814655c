import Mathlib.Data.List.Basic
import Mathlib.Data.Sum.Basic
import Mathlib.Logic.Function.Basic

/-! Cutting a text at the occurrences of a part of it, from the left to the right, and putting another text in their places. -/

namespace Replacing
variable {α : Type}

def prepend (t : List α) : List (List α) → List (List α)
  | [] => [t]
  | part :: parts => (t ++ part) :: parts

variable {new t : List α} {parts : List (List α)}

theorem intercalate_prepend (h : parts ≠ []) : new.intercalate (prepend t parts) = t ++ new.intercalate parts := by
  obtain ⟨part, parts, rfl⟩ := List.exists_cons_of_ne_nil h
  cases parts with
  | nil => simp [prepend, List.intercalate]
  | cons part' parts => simp [prepend, List.intercalate]

theorem intercalate_nil_cons (h : parts ≠ []) : new.intercalate ([] :: parts) = new ++ new.intercalate parts := by
  obtain ⟨part, parts, rfl⟩ := List.exists_cons_of_ne_nil h
  simp [List.intercalate]

theorem prepend_eq_cons {c : α} {part : List α} {ps : List (List α)} (hne : parts ≠ []) :
    prepend [c] parts = (c :: part) :: ps ↔ parts = part :: ps := by
  obtain ⟨p, parts, rfl⟩ := List.exists_cons_of_ne_nil hne
  simp [prepend]

theorem prepend_ne_nil : prepend t parts ≠ [] := by cases parts <;> exact List.cons_ne_nil _ _

section
variable [DecidableEq α]

/-- What stands between the occurrences of a part that is not empty. The number counts the elements that are left of an
    occurrence. -/
def split (old : List α) : Nat → List α → List (List α)
  | _, [] => [[]]
  | skip + 1, _ :: s => split old skip s
  | 0, c :: s => if old.isPrefixOf (c :: s) then [] :: split old (old.length - 1) s else prepend [c] (split old 0 s)

def replace (old new s : List α) : List α := new.intercalate (split old 0 s)

end

/-! ### Texts that are cut at given places -/

/-- No occurrence of `old` begins in `part`, which `after` follows. -/
def Free (old part after : List α) : Prop := ∀ u c w, part = u ++ c :: w → ¬old <+: c :: (w ++ after)

/-- Between the parts of a text, which stand around places of `old`, nothing else is an occurrence of `old`. -/
def Apart (old : List α) : List (List α) → Prop
  | [] => False
  | [part] => Free old part []
  | part :: parts => Free old part old ∧ Apart old parts

theorem Free.tail {old part after : List α} {c : α} (h : Free old (c :: part) after) : Free old part after := by
  rintro u d w rfl
  exact h (c :: u) d w rfl

section
variable [DecidableEq α] {old part s : List α} {c : α}

theorem split_skip (n : Nat) (s : List α) : split old n s = split old 0 (s.drop n) := by
  induction n generalizing s with
  | zero => rfl
  | succ n ih =>
    cases s with
    | nil => simp [split]
    | cons c s => rw [split, ih, List.drop_succ_cons]

theorem split_ne_nil : split old 0 s ≠ [] := by
  cases s with
  | nil => exact List.cons_ne_nil _ _
  | cons c s =>
    rw [split]
    split
    · exact List.cons_ne_nil _ _
    · exact prepend_ne_nil

/-- A text is not cut if and only if no occurrence begins in it. -/
theorem split_eq_singleton : split old 0 part = [part] ↔ Free old part [] := by
  induction part with
  | nil => exact iff_of_true rfl fun u c w h => absurd h.symm (by simp)
  | cons c part ih =>
    by_cases hprefix : old <+: c :: part
    · refine iff_of_false ?_ fun h => h [] c part rfl (by simpa using hprefix)
      rw [split, if_pos (List.isPrefixOf_iff_prefix.mpr hprefix)]
      simp
    · rw [split, if_neg (mt List.isPrefixOf_iff_prefix.mp hprefix), prepend_eq_cons split_ne_nil, ih]
      refine ⟨fun h => ?_, Free.tail⟩
      rintro (_ | ⟨d, u⟩) e w heq
      · obtain ⟨rfl, rfl⟩ := List.cons.inj heq
        simpa using hprefix
      · exact h u e w (List.cons.inj heq).2

/-- A text is cut at a place first if and only if no occurrence begins before it. -/
theorem split_eq_cons (hold : old ≠ []) {ps : List (List α)} :
    split old 0 (part ++ (old ++ s)) = part :: ps ↔ Free old part old ∧ split old 0 s = ps := by
  induction part with
  | nil =>
    obtain ⟨c, old', rfl⟩ := List.exists_cons_of_ne_nil hold
    have hfree : Free (c :: old') [] (c :: old') := fun u d w h => absurd h.symm (by simp)
    have hprefix : (c :: old').isPrefixOf (c :: (old' ++ s)) = true :=
      List.isPrefixOf_iff_prefix.mpr (List.prefix_append (c :: old') s)
    rw [List.nil_append, List.cons_append, split, if_pos hprefix, split_skip, List.length_cons, Nat.add_sub_cancel,
      List.drop_left, and_iff_right hfree]
    simp
  | cons c part ih =>
    have hsame : old <+: c :: (part ++ (old ++ s)) ↔ old <+: c :: (part ++ old) := by
      have hassoc : c :: (part ++ (old ++ s)) = c :: (part ++ old) ++ s := by simp
      rw [hassoc]
      refine ⟨fun h => List.prefix_of_prefix_length_le h (List.prefix_append _ s) ?_, fun h => h.trans (List.prefix_append _ s)⟩
      rw [List.length_cons, List.length_append]
      omega
    by_cases hprefix : old <+: c :: (part ++ old)
    · refine iff_of_false ?_ fun h => h.1 [] c part rfl hprefix
      rw [List.cons_append, split, if_pos (List.isPrefixOf_iff_prefix.mpr (hsame.mpr hprefix))]
      simp
    · rw [List.cons_append, split, if_neg (mt List.isPrefixOf_iff_prefix.mp (mt hsame.mp hprefix)),
        prepend_eq_cons split_ne_nil, ih]
      refine and_congr_left fun _ => ⟨fun h => ?_, Free.tail⟩
      rintro (_ | ⟨d, u⟩) e w heq
      · obtain ⟨rfl, rfl⟩ := List.cons.inj heq
        exact hprefix
      · exact h u e w (List.cons.inj heq).2

/-- A text that is put together from parts is cut into them if and only if they are apart. -/
theorem split_intercalate_iff (hold : old ≠ []) (hne : parts ≠ []) :
    split old 0 (old.intercalate parts) = parts ↔ Apart old parts := by
  induction parts with
  | nil => exact absurd rfl hne
  | cons part parts ih =>
    cases parts with
    | nil => simpa [List.intercalate, Apart] using split_eq_singleton
    | cons part' parts =>
      have htext : old.intercalate (part :: part' :: parts) = part ++ (old ++ old.intercalate (part' :: parts)) := by
        simp [List.intercalate]
      rw [htext, split_eq_cons hold, ih (List.cons_ne_nil _ _)]
      exact Iff.rfl

end

/-! ### Texts with gaps

A text is made of single elements and of parts that a value may be put in the place of. -/

/-- A text in its elements and parts. -/
abbrev Segments (α : Type) := List (α ⊕ List α)

namespace Segments

def fill (value : List α → Option (List α)) : Segments α → List α
  | [] => []
  | .inl c :: segments => c :: fill value segments
  | .inr e :: segments => (value e).getD e ++ fill value segments

/-- What stands between the places of a part that has no value yet. -/
def around [DecidableEq α] (value : List α → Option (List α)) (old : List α) : Segments α → List (List α)
  | [] => [[]]
  | .inl c :: segments => prepend [c] (around value old segments)
  | .inr e :: segments =>
    if e = old ∧ value e = none then [] :: around value old segments
    else prepend ((value e).getD e) (around value old segments)

/-- The text with values in the places of its parts, one after the other. -/
def weave : Segments α → List (List α) → List α
  | [], _ => []
  | .inl c :: segments, values => c :: weave segments values
  | .inr _ :: segments, v :: values => v ++ weave segments values
  | .inr e :: segments, [] => e ++ weave segments []

end Segments

variable {segments : Segments α}

theorem fill_none : segments.fill (fun _ => none) = segments.flatMap (Sum.elim ([·]) id) := by
  induction segments with
  | nil => rfl
  | cons seg segments ih =>
    cases seg with
    | inl c => rw [Segments.fill, ih]; rfl
    | inr e => rw [Segments.fill, ih]; rfl

variable [DecidableEq α] {value : List α → Option (List α)} {old : List α}

theorem around_ne_nil : segments.around value old ≠ [] := by
  cases segments with
  | nil => exact List.cons_ne_nil _ _
  | cons seg segments =>
    cases seg with
    | inl c => exact prepend_ne_nil
    | inr e =>
      rw [Segments.around]
      split
      · exact List.cons_ne_nil _ _
      · exact prepend_ne_nil

/-- Something put between the parts is put in the place of the part that they are cut at. -/
theorem intercalate_around :
    new.intercalate (segments.around value old) = segments.fill (Function.update value old ((value old).getD new)) := by
  induction segments with
  | nil => simp [Segments.around, Segments.fill, List.intercalate]
  | cons seg segments ih =>
    cases seg with
    | inl c => rw [Segments.around, intercalate_prepend around_ne_nil, ih]; rfl
    | inr e =>
      rw [Segments.around, Segments.fill]
      split
      next h =>
        obtain ⟨rfl, hnone⟩ := h
        rw [intercalate_nil_cons around_ne_nil, ih, Function.update_self, hnone]
        rfl
      next h =>
        rw [intercalate_prepend around_ne_nil, ih]
        by_cases he : e = old
        · subst he
          obtain ⟨v, hv⟩ := Option.ne_none_iff_exists'.mp fun hnone => h ⟨rfl, hnone⟩
          rw [Function.update_self, hv]
          rfl
        · rw [Function.update_of_ne he]

/-- The text itself, cut at the places of a part. -/
theorem intercalate_around_self : old.intercalate (segments.around value old) = segments.fill value := by
  rw [intercalate_around]
  induction segments with
  | nil => rfl
  | cons seg segments ih =>
    cases seg with
    | inl c => rw [Segments.fill, Segments.fill, ih]
    | inr e =>
      rw [Segments.fill, Segments.fill, ih]
      by_cases he : e = old
      · subst he
        rw [Function.update_self]
        cases value e <;> rfl
      · rw [Function.update_of_ne he]

end Replacing
