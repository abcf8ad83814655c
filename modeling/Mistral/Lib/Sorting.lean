import Mathlib.Data.List.Perm.Basic

/-! Sorting by a function that compares two elements, of which only the sign counts. -/

namespace Sorting
variable {α : Type}

/-- A total preorder. -/
structure WeakOrder (le : α → α → Prop) : Prop where
  total : ∀ a b, le a b ∨ le b a
  trans : ∀ a b c, le a b → le b c → le a c

/-- Of two elements at different positions one is below the other for the comparison where it is for the order. -/
def Agrees (cmp : α → α → Int) (le : α → α → Prop) (l : List α) : Prop :=
  l.Pairwise fun a b => (cmp a b < 0 ↔ ¬le b a) ∧ (cmp b a < 0 ↔ ¬le a b)

/-- An algorithm that sorts whatever list the comparison orders. Of other lists it makes a rearrangement. -/
structure Algorithm (α : Type) where
  sort : (α → α → Int) → List α → List α
  perm : ∀ cmp l, (sort cmp l).Perm l
  sorted : ∀ {cmp le l}, WeakOrder le → Agrees cmp le l → (sort cmp l).Pairwise le

/-! ### Insertion -/

/-- The element is put before the first one that it is below of. -/
def insertBefore (cmp : α → α → Int) (x : α) : List α → List α
  | [] => [x]
  | y :: l => if cmp x y < 0 then x :: y :: l else y :: insertBefore cmp x l

/-- Insertion of one element after the other, as `list.sort` does it with a short list. -/
def insertAll (cmp : α → α → Int) (l : List α) : List α := l.foldl (fun sorted x => insertBefore cmp x sorted) []

variable {cmp : α → α → Int} {le : α → α → Prop} {x : α} {l : List α}

theorem insertBefore_perm (cmp : α → α → Int) (x : α) (l : List α) : (insertBefore cmp x l).Perm (x :: l) := by
  induction l with
  | nil => exact .refl _
  | cons y l ih =>
    rw [insertBefore]
    split
    · exact .refl _
    · exact (ih.cons y).trans (.swap x y l)

theorem foldl_insertBefore_perm (cmp : α → α → Int) (l sorted : List α) :
    (l.foldl (fun sorted x => insertBefore cmp x sorted) sorted).Perm (sorted ++ l) := by
  induction l generalizing sorted with
  | nil => rw [List.append_nil]; exact .refl _
  | cons x l ih => exact (ih _).trans (((insertBefore_perm cmp x sorted).append_right l).trans List.perm_middle.symm)

theorem insertBefore_sorted (hle : WeakOrder le) (hx : ∀ y ∈ l, cmp x y < 0 ↔ ¬le y x) (hl : l.Pairwise le) :
    (insertBefore cmp x l).Pairwise le := by
  induction l with
  | nil => exact List.pairwise_singleton le x
  | cons y l ih =>
    have hy := List.pairwise_cons.mp hl
    rw [insertBefore]
    split
    next hxy =>
      have hxy : le x y := (hle.total x y).resolve_right ((hx y List.mem_cons_self).mp hxy)
      refine List.pairwise_cons.mpr ⟨fun b hb => ?_, hl⟩
      rcases List.mem_cons.mp hb with rfl | hb
      · exact hxy
      · exact hle.trans x y b hxy (hy.1 b hb)
    next hxy =>
      have hyx : le y x := not_not.mp fun h => hxy ((hx y List.mem_cons_self).mpr h)
      refine List.pairwise_cons.mpr ⟨fun b hb => ?_, ih (fun z hz => hx z (List.mem_cons_of_mem y hz)) hy.2⟩
      rcases List.mem_cons.mp ((insertBefore_perm cmp x l).mem_iff.mp hb) with rfl | hb
      · exact hyx
      · exact hy.1 b hb

theorem foldl_insertBefore_sorted (hle : WeakOrder le) {sorted : List α} (hsorted : sorted.Pairwise le)
    (hcross : ∀ y ∈ sorted, ∀ x ∈ l, cmp x y < 0 ↔ ¬le y x) (hl : Agrees cmp le l) :
    (l.foldl (fun sorted x => insertBefore cmp x sorted) sorted).Pairwise le := by
  induction l generalizing sorted with
  | nil => exact hsorted
  | cons x l ih =>
    obtain ⟨hx, hl⟩ := List.pairwise_cons.mp hl
    refine ih (insertBefore_sorted hle (fun y hy => hcross y hy x List.mem_cons_self) hsorted) (fun y hy z hz => ?_) hl
    rcases List.mem_cons.mp ((insertBefore_perm cmp x sorted).mem_iff.mp hy) with rfl | hy
    · exact (hx z hz).2
    · exact hcross y hy z (List.mem_cons_of_mem x hz)

/-- Sorting by insertion. -/
def insertion : Algorithm α where
  sort := insertAll
  perm cmp l := foldl_insertBefore_perm cmp l []
  sorted hle hl := foldl_insertBefore_sorted hle .nil (fun _ hy => absurd hy List.not_mem_nil) hl

/-! ### Two kinds of elements -/

/-- Where no element of the second kind comes before one of the first kind, the list is in two parts. -/
theorem eq_filter_append {p : α → Bool} (h : l.Pairwise fun a b => p b → p a) : l = l.filter p ++ l.filter (!p ·) := by
  induction l with
  | nil => rfl
  | cons a l ih =>
    obtain ⟨ha, hl⟩ := List.pairwise_cons.mp h
    cases hp : p a with
    | true => simpa [hp] using ih hl
    | false =>
      have hnone : l.filter p = [] := List.filter_eq_nil_iff.mpr fun b hb hpb => by simpa [hp] using ha b hb hpb
      have hall : l.filter (!p ·) = l := List.filter_eq_self.mpr fun b hb => by
        simpa using List.filter_eq_nil_iff.mp hnone b hb
      simp [hp, hnone, hall]

end Sorting
