import Mathlib.Data.List.Forall2

/-! Something that changes, seen by a follower who gets messages about the changes: each change starts where the one
    before it ended, and the last message tells where it is. -/

namespace Followed
variable {α β γ δ ε κ ν : Type}

/-- The changes lead from one value to another one. -/
inductive Linked : α → List (α × α) → α → Prop
  | nil (a : α) : Linked a [] a
  | cons {a b c : α} {l : List (α × α)} (tail : Linked b l c) : Linked a ((a, b) :: l) c

/-- The log of the messages that the events add to it, in the order of the events. -/
inductive Logged (adds : ε → List β → Prop) : List ε → List β → Prop
  | nil : Logged adds [] []
  | cons {e : ε} {es : List ε} {ms ms' : List β} (head : adds e ms) (tail : Logged adds es ms') :
    Logged adds (e :: es) (ms ++ ms')

variable {a b c : α} {l l' : List (α × α)} {ms : List β}

theorem Linked.single (a b : α) : Linked a [(a, b)] b := .cons (.nil b)

theorem Linked.append (h : Linked a l b) (h' : Linked b l' c) : Linked a (l ++ l') c := by
  induction h with
  | nil => exact h'
  | cons _ ih => exact .cons (ih h')

/-- The last change ends where the changes lead. -/
theorem Linked.last (h : Linked a l b) : (l = [] ∧ a = b) ∨ ∃ l' x, l = l' ++ [(x, b)] := by
  induction h with
  | nil a => exact .inl ⟨rfl, rfl⟩
  | @cons a b c l _ ih =>
    rcases ih with ⟨rfl, rfl⟩ | ⟨l', x, rfl⟩
    · exact .inr ⟨[], a, rfl⟩
    · exact .inr ⟨(a, b) :: l', x, rfl⟩

/-- Where messages with the contents `ns` are logged of the changes, those of the last change come last. -/
theorem Linked.last_notice {R : α × α → ν → Prop} (h : Linked a l b) {ns : List ν} (hns : List.Forall₂ R l ns) :
    (a = b ∧ ns = []) ∨ ∃ ns' x n, ns = ns' ++ [n] ∧ R (x, b) n := by
  rcases h.last with ⟨rfl, hab⟩ | ⟨l', x, rfl⟩
  · cases hns
    exact .inl ⟨hab, rfl⟩
  · rw [← List.forall₂_reverse_iff, List.reverse_concat] at hns
    obtain ⟨n, ns', hn, -, hns'⟩ := List.forall₂_cons_left_iff.mp hns
    refine .inr ⟨ns'.reverse, x, n, ?_, hn⟩
    rw [← List.reverse_reverse ns, hns', List.reverse_cons]

/-- Readers who look at some of the events only, each of them at some of their messages, all get what belongs to one
    list of contents. -/
theorem Logged.exists_notices {adds : ε → List β → Prop} {es : List ε} {f : ε → Option δ} {g : κ → β → Option γ}
    {R : δ → ν → Prop} {gets : κ → ν → List γ} (h : Logged adds es ms)
    (hnone : ∀ e m, adds e m → f e = none → ∀ k, m.filterMap (g k) = [])
    (hsome : ∀ e d m, adds e m → f e = some d → ∃ n, R d n ∧ ∀ k, m.filterMap (g k) = gets k n) :
    ∃ ns, List.Forall₂ R (es.filterMap f) ns ∧ ∀ k, ms.filterMap (g k) = ns.flatMap (gets k) := by
  induction h with
  | nil => exact ⟨[], .nil, fun _ => rfl⟩
  | @cons e es m ms head _ ih =>
    obtain ⟨ns, hns, hgets⟩ := ih
    cases hf : f e with
    | none =>
      rw [List.filterMap_cons_none hf]
      refine ⟨ns, hns, fun k => ?_⟩
      rw [List.filterMap_append, hnone e m head hf, List.nil_append, hgets]
    | some d =>
      obtain ⟨n, hn, hm⟩ := hsome e d m head hf
      rw [List.filterMap_cons_some hf]
      refine ⟨n :: ns, .cons hn hns, fun k => ?_⟩
      rw [List.filterMap_append, hm, hgets, List.flatMap_cons]

end Followed
