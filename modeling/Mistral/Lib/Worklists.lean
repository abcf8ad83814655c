import Mathlib.Data.Finset.Card
import Mathlib.Data.Finset.Option
import Mathlib.Data.Prod.Lex
import Mathlib.Logic.Relation
import Mathlib.Order.WellFounded

/-! A search with a set of elements that are still to be looked at. Every round takes some element of the set, any of
    them; an element that was not seen before adds its successors to the set, and may add to the result. -/

/-- The variables of the loop: `last` is the element of the last round, and joins `visited` in the next one. -/
structure Worklist (α β : Type) where
  last : α
  visited : Finset α
  todo : Finset α
  found : Finset β

namespace Worklist
variable {α β : Type} [DecidableEq α] [DecidableEq β] (next : α → Finset α) (out : α → Option β)

/-- The search from `start`, whose successors are `init`. -/
def begin (start : α) (init : Finset α) : Worklist α β := { last := start, visited := ∅, todo := init, found := ∅ }

/-- The elements that are not looked at again. -/
def seen (w : Worklist α β) : Finset α := insert w.last w.visited

/-- The round that takes `a`. -/
def take (w : Worklist α β) (a : α) : Worklist α β :=
  if a ∈ w.seen then { w with last := a, visited := w.seen, todo := w.todo.erase a }
  else { last := a, visited := w.seen, todo := w.todo.erase a ∪ next a, found := w.found ∪ (out a).toFinset }

/-- A round. -/
def Round (w w' : Worklist α β) : Prop := ∃ a ∈ w.todo, w' = w.take next out a

/-- A number of rounds. -/
def Rounds : Worklist α β → Worklist α β → Prop := Relation.ReflTransGen (Round next out)

variable {next out} {w w' : Worklist α β} {a b start : α} {init : Finset α} {x : β}

theorem seen_take : (w.take next out a).seen = insert a w.seen := by
  unfold take
  split <;> rfl

theorem found_take_of_mem (h : a ∈ w.seen) : (w.take next out a).found = w.found := by simp [take, h]

theorem found_take_of_not_mem (h : a ∉ w.seen) : (w.take next out a).found = w.found ∪ (out a).toFinset := by
  simp [take, h]

theorem todo_take_of_mem (h : a ∈ w.seen) : (w.take next out a).todo = w.todo.erase a := by simp [take, h]

theorem todo_take_of_not_mem (h : a ∉ w.seen) : (w.take next out a).todo = w.todo.erase a ∪ next a := by simp [take, h]

/-- What is seen or to be looked at stays so. -/
theorem covered_take (h : b ∈ w.seen ∪ w.todo) : b ∈ (w.take next out a).seen ∪ (w.take next out a).todo := by
  rw [seen_take, Finset.mem_union, Finset.mem_insert]
  rcases eq_or_ne b a with rfl | hne
  · exact .inl (.inl rfl)
  rcases Finset.mem_union.mp h with h | h
  · exact .inl (.inr h)
  refine .inr ?_
  have hrest : b ∈ w.todo.erase a := Finset.mem_erase.mpr ⟨hne, h⟩
  by_cases ha : a ∈ w.seen
  · rwa [todo_take_of_mem ha]
  · rw [todo_take_of_not_mem ha]
    exact Finset.mem_union_left _ hrest

/-! ### Termination -/

/-- What the search may still come to, of the elements of `u`, and what it has to look at. -/
def rest (u : Finset α) (w : Worklist α β) : ℕ ×ₗ ℕ := toLex (((u ∪ w.todo) \ w.seen).card, w.todo.card)

theorem rest_take {u : Finset α} (hu : ∀ a, next a ⊆ u) (ha : a ∈ w.todo) : rest u (w.take next out a) < rest u w := by
  have herase : (w.todo.erase a).card < w.todo.card := Finset.card_erase_lt_of_mem ha
  unfold rest
  rw [Prod.Lex.toLex_lt_toLex, seen_take]
  by_cases hseen : a ∈ w.seen
  · rw [Finset.insert_eq_of_mem hseen, todo_take_of_mem hseen]
    have hsub : (u ∪ w.todo.erase a) \ w.seen ⊆ (u ∪ w.todo) \ w.seen :=
      Finset.sdiff_subset_sdiff (Finset.union_subset_union_right (Finset.erase_subset _ _)) (Finset.Subset.refl _)
    exact (Finset.card_le_card hsub).lt_or_eq.imp id fun heq => ⟨heq, herase⟩
  · refine .inl (Finset.card_lt_card ?_)
    rw [todo_take_of_not_mem hseen, Finset.ssubset_iff_of_subset]
    · exact ⟨a, Finset.mem_sdiff.mpr ⟨Finset.mem_union_right _ ha, hseen⟩, by simp⟩
    · intro b hb
      simp only [Finset.mem_sdiff, Finset.mem_union, Finset.mem_erase, Finset.mem_insert, not_or] at hb ⊢
      obtain ⟨hb | ⟨-, hb⟩ | hb, -, hnot⟩ := hb
      · exact ⟨.inl hb, hnot⟩
      · exact ⟨.inr hb, hnot⟩
      · exact ⟨.inl (hu a hb), hnot⟩

/-- No search goes on forever, whichever elements it takes. -/
theorem wellFounded_round {u : Finset α} (hu : ∀ a, next a ⊆ u) :
    WellFounded fun w' w : Worklist α β => Round next out w w' := by
  refine Subrelation.wf ?_ (InvImage.wf (rest u) wellFounded_lt)
  rintro w' w ⟨a, ha, rfl⟩
  exact rest_take hu ha

/-! ### What a search finds -/

/-- The elements that a search from the successors `init` may come to. -/
def Reachable (next : α → Finset α) (init : Finset α) (b : α) : Prop :=
  ∃ a ∈ init, Relation.ReflTransGen (fun a b => b ∈ next a) a b

/-- The successors of a seen element are seen or to be looked at, and what it adds to the result is there. -/
structure Explored (next : α → Finset α) (out : α → Option β) (start : α) (init : Finset α) (w : Worklist α β) : Prop where
  init : ∀ a ∈ init, a ∈ w.seen ∪ w.todo
  next : ∀ a ∈ w.seen, a ≠ start → ∀ b ∈ next a, b ∈ w.seen ∪ w.todo
  out : ∀ a ∈ w.seen, a ≠ start → ∀ x ∈ out a, x ∈ w.found
  start : start ∈ w.seen

omit [DecidableEq β] in
theorem explored_begin : Explored next out start init (begin start init) where
  init a ha := Finset.mem_union_right _ ha
  next a ha hne := by simp [seen, begin] at ha; exact absurd ha hne
  out a ha hne := by simp [seen, begin] at ha; exact absurd ha hne
  start := Finset.mem_insert_self _ _

theorem Explored.take (h : Explored next out start init w) (a : α) :
    Explored next out start init (w.take next out a) where
  init b hb := covered_take (h.init b hb)
  start := by
    rw [seen_take]
    exact Finset.mem_insert_of_mem h.start
  next c hc hne b hb := by
    by_cases hold : c ∈ w.seen
    · exact covered_take (h.next c hold hne b hb)
    rw [seen_take, Finset.mem_insert] at hc
    obtain rfl := hc.resolve_right hold
    rw [todo_take_of_not_mem hold]
    exact Finset.mem_union_right _ (Finset.mem_union_right _ hb)
  out c hc hne x hx := by
    by_cases hold : c ∈ w.seen
    · have hfound := h.out c hold hne x hx
      by_cases ha : a ∈ w.seen
      · rwa [found_take_of_mem ha]
      · rw [found_take_of_not_mem ha]
        exact Finset.mem_union_left _ hfound
    rw [seen_take, Finset.mem_insert] at hc
    obtain rfl := hc.resolve_right hold
    rw [found_take_of_not_mem hold]
    exact Finset.mem_union_right _ (by simpa using hx)

theorem Explored.rounds (h : Explored next out start init w) (hrun : Rounds next out w w') :
    Explored next out start init w' := by
  induction hrun with
  | refl => exact h
  | tail _ hround ih =>
    obtain ⟨a, -, rfl⟩ := hround
    exact ih.take a

omit [DecidableEq β] in
/-- A search that is over has seen every element that it may come to. -/
theorem Explored.mem_seen (h : Explored next out start init w) (hstart : next start ⊆ init) (hdone : w.todo = ∅)
    (hb : Reachable next init b) : b ∈ w.seen := by
  have hinit : ∀ a ∈ init, a ∈ w.seen := fun a ha => by simpa [hdone] using h.init a ha
  obtain ⟨a, ha, hpath⟩ := hb
  induction hpath with
  | refl => exact hinit a ha
  | @tail c b _ hcb ih =>
    by_cases hc : c = start
    · exact hinit b (hstart (hc ▸ hcb))
    · simpa [hdone] using h.next c ih hc b hcb

/-- The result of a search that is over has what every such element adds, the start apart. -/
theorem mem_found (hrun : Rounds next out (begin start init) w) (hstart : next start ⊆ init) (hdone : w.todo = ∅)
    (hb : Reachable next init b) (hne : b ≠ start) (hx : x ∈ out b) : x ∈ w.found :=
  have h := explored_begin.rounds hrun
  h.out b (h.mem_seen hstart hdone hb) hne x hx

end Worklist
