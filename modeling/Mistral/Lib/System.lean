/-! State machines with labelled steps, and what holds in every state of a guarded run. A guard says, of a
    state and a label, that the step is one of those a result is about. -/

/-- A machine whose steps are given by a function. -/
structure System (σ ℓ : Type) where
  init : σ → Prop
  step : σ → ℓ → σ

namespace System
variable {σ ℓ : Type} (sys : System σ ℓ)

/-- The states that runs of guarded steps reach. -/
inductive Reach (guard : σ → ℓ → Prop) : σ → Prop
  | init {s : σ} (h : sys.init s) : Reach guard s
  | step {s : σ} {l : ℓ} (h : Reach guard s) (hg : guard s l) : Reach guard (sys.step s l)

variable {sys} {guard : σ → ℓ → Prop} {I : σ → Prop}

/-- An invariant holds initially and is kept by every guarded step from a reachable state. -/
theorem Reach.invariant {s : σ} (h : sys.Reach guard s) (hinit : ∀ s, sys.init s → I s)
    (hstep : ∀ s l, sys.Reach guard s → I s → guard s l → I (sys.step s l)) : I s := by
  induction h with
  | init h => exact hinit _ h
  | step h hg ih => exact hstep _ _ h ih hg

/-- Fewer steps reach fewer states. -/
theorem Reach.mono {guard' : σ → ℓ → Prop} {s : σ} (hle : ∀ s l, guard s l → guard' s l) (h : sys.Reach guard s) :
    sys.Reach guard' s := by
  induction h with
  | init h => exact .init h
  | step _ hg ih => exact .step ih (hle _ _ hg)

/-- The state after a list of labels. -/
def run (s : σ) (ls : List ℓ) : σ := ls.foldl sys.step s

/-- Every step of the list is guarded. -/
def Guarded (guard : σ → ℓ → Prop) : σ → List ℓ → Prop
  | _, [] => True
  | s, l :: ls => guard s l ∧ Guarded guard (sys.step s l) ls

theorem Reach.run {s : σ} {ls : List ℓ} (h : sys.Reach guard s) (hg : sys.Guarded guard s ls) :
    sys.Reach guard (sys.run s ls) := by
  induction ls generalizing s with
  | nil => exact h
  | cons l ls ih => exact ih (.step h hg.1) hg.2

/-- An invariant is kept by guarded runs. -/
theorem Guarded.invariant {s : σ} {ls : List ℓ} (h : sys.Guarded guard s ls) (hs : I s)
    (hstep : ∀ s l, I s → guard s l → I (sys.step s l)) : I (sys.run s ls) := by
  induction ls generalizing s with
  | nil => exact hs
  | cons l ls ih => exact ih h.2 (hstep s l hs h.1)

variable (I) in
/-- Two guards that an invariant makes equivalent hold of the same runs. -/
theorem guarded_congr {guard' : σ → ℓ → Prop} {s : σ} {ls : List ℓ} (hs : I s)
    (hiff : ∀ s l, I s → (guard s l ↔ guard' s l)) (hstep : ∀ s l, I s → guard' s l → I (sys.step s l)) :
    sys.Guarded guard s ls ↔ sys.Guarded guard' s ls := by
  induction ls generalizing s with
  | nil => exact Iff.rfl
  | cons l ls ih =>
    constructor
    · rintro ⟨hl, hls⟩
      have hl := (hiff s l hs).mp hl
      exact ⟨hl, (ih (hstep s l hs hl)).mp hls⟩
    · rintro ⟨hl, hls⟩
      exact ⟨(hiff s l hs).mpr hl, (ih (hstep s l hs hl)).mpr hls⟩

end System
