import Mathlib.Order.Lattice.Nat
import Mathlib.Data.Prod.Lex
import Mathlib.Logic.Function.Iterate

/-! Runs of a function that come to an end, because every step of them decreases a measure. -/

namespace Mistral

/-- A run ends, unless a step of it is not guarded, where the guarded steps keep an invariant and decrease a pair of
    numbers. -/
theorem exists_iterate {σ : Type} {f : σ → σ} {ends guard I : σ → Prop} {m : σ → ℕ ×ₗ ℕ}
    (hstep : ∀ s, I s → guard s → ¬ends s → I (f s) ∧ m (f s) < m s) {s : σ} (h : I s) :
    ∃ n, (∀ k, k < n → guard (f^[k] s)) → ends (f^[n] s) := by
  induction hm : m s using WellFoundedLT.induction generalizing s with
  | ind a ih =>
    subst hm
    by_cases hends : ends s
    · exact ⟨0, fun _ => hends⟩
    by_cases hguard : guard s
    · obtain ⟨hI, hlt⟩ := hstep s h hguard hends
      obtain ⟨n, hn⟩ := ih (m (f s)) hlt hI rfl
      exact ⟨n + 1, fun hall => hn fun k hk => hall (k + 1) (Nat.succ_lt_succ hk)⟩
    · exact ⟨1, fun hall => absurd (hall 0 Nat.zero_lt_one) hguard⟩

end Mistral
