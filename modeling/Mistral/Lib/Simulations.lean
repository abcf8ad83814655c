import Mistral.Lib.Ends

/-! Computations that do to their state what a function does to an abstraction of it. -/

variable {ε σ α β ρ ι : Type}

namespace Ends

/-- `m` leads from `s` to a state that `R` relates to `p.1`, and raises one of the exceptions `caught` if `p.2`. Of other
    exceptions nothing is said. -/
def LeadsTo (R : ρ → σ → Prop) (caught : ε → Prop) (m : EStateM ε σ PUnit) (s : σ) (p : ρ × Bool) : Prop :=
  Ends m s (fun _ t => R p.1 t ∧ p.2 = false) fun e t => caught e → R p.1 t ∧ p.2 = true

/-- Where `R` relates an abstract state to the state, `m` does what `f` says. -/
def Simulates (R : ρ → σ → Prop) (caught : ε → Prop) (m : EStateM ε σ PUnit) (f : ρ → ρ × Bool) : Prop :=
  ∀ r s, R r s → LeadsTo R caught m s (f r)

/-- `g` after `f`, unless `f` raises. -/
def andThen (f g : ρ → ρ × Bool) (r : ρ) : ρ × Bool := if (f r).2 then f r else g (f r).1

/-- One after another, until one raises. -/
def andThenAll (f : ι → ρ → ρ × Bool) : List ι → ρ → ρ × Bool
  | [], r => (r, false)
  | i :: is, r => andThen (f i) (andThenAll f is) r

variable {R : ρ → σ → Prop} {caught : ε → Prop} {m m' : EStateM ε σ PUnit} {f g : ρ → ρ × Bool}

/-- A computation that begins with reading something. -/
theorem LeadsTo.of_bind {x : EStateM ε σ α} {k : α → EStateM ε σ PUnit} {s : σ} {p : ρ × Bool}
    (h : Ends x s (fun a t => LeadsTo R caught (k a) t p) fun _ _ => False) : LeadsTo R caught (x >>= k) s p :=
  Ends.bind h (fun _ _ h => h) fun _ _ h => h.elim

namespace Simulates

theorem pure : Simulates R caught (pure ⟨⟩) fun r => (r, false) := fun _ _ h => ⟨h, rfl⟩

theorem modify {h : σ → σ} {a : ρ → ρ} (hR : ∀ r s, R r s → R (a r) (h s)) :
    Simulates R caught (modify h) fun r => (a r, false) := fun r s hrs => ⟨hR r s hrs, rfl⟩

theorem congr (hm : Simulates R caught m f) (hfg : ∀ r, f r = g r) : Simulates R caught m g := funext hfg ▸ hm

theorem bind (hm : Simulates R caught m f) (hm' : Simulates R caught m' g) :
    Simulates R caught (m >>= fun _ => m') (andThen f g) := by
  intro r s hrs
  refine Ends.bind (hm r s hrs) (fun _ t ⟨ht, hreturns⟩ => ?_) fun e t ht hcaught => ?_
  · rw [andThen, hreturns]
    exact hm' _ t ht
  · obtain ⟨ht, hraises⟩ := ht hcaught
    rw [andThen, hraises]
    exact ⟨ht, hraises⟩

/-- A loop does what its rounds do one after another. -/
theorem forM {c : ι → EStateM ε σ PUnit} {f : ι → ρ → ρ × Bool} (hc : ∀ i, Simulates R caught (c i) (f i)) (l : List ι) :
    Simulates R caught (l.forM c) (andThenAll f l) := by
  induction l with
  | nil => exact pure
  | cons i l ih => exact bind (hc i) ih

end Simulates
end Ends
