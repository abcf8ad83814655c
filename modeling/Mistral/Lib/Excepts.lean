import Mathlib.Data.List.Forall2

/-! Loops that may raise, over lists. -/

namespace Mistral

section
variable {ε α β : Type} {f : α → Except ε β} {l : List α} {e : ε}

theorem bind_ok {x : Except ε α} {g : α → Except ε β} {b : β} :
    x >>= g = .ok b ↔ ∃ a, x = .ok a ∧ g a = .ok b := by
  cases x with
  | error e => exact ⟨nofun, fun ⟨_, h, _⟩ => nomatch h⟩
  | ok a => exact ⟨fun h => ⟨a, rfl, h⟩, fun ⟨_, h, hb⟩ => by cases h; exact hb⟩

theorem map_ok_iff {x : Except ε α} {g : α → β} {b : β} : x.map g = .ok b ↔ ∃ a, x = .ok a ∧ g a = b := by
  cases x <;> simp [Except.map]

/-- What a step raises comes from one of its parts. -/
theorem bind_ne {x : Except ε α} {g : α → Except ε β} (hx : x ≠ .error e) (hg : ∀ a, g a ≠ .error e) :
    x >>= g ≠ .error e := by
  cases x with
  | error e' => exact fun h => hx (by cases h; rfl)
  | ok a => exact hg a

theorem map_ne {x : Except ε α} {g : α → β} (hx : x ≠ .error e) : x.map g ≠ .error e := by
  cases x with
  | error e' => exact fun h => hx (by cases h; rfl)
  | ok a => nofun

/-- A loop returns what its rounds return. -/
theorem mapM_ok {bs : List β} : l.mapM f = .ok bs ↔ List.Forall₂ (fun a b => f a = .ok b) l bs := by
  induction l generalizing bs with
  | nil =>
    rw [List.mapM_nil, List.forall₂_nil_left_iff]
    exact ⟨fun h => by cases h; rfl, fun h => by rw [h]; rfl⟩
  | cons a l ih =>
    rw [List.mapM_cons, List.forall₂_cons_left_iff]
    cases ha : f a with
    | error e => exact ⟨nofun, fun ⟨b, _, hb, _⟩ => nomatch hb⟩
    | ok b =>
      cases hl : l.mapM f with
      | error e =>
        refine ⟨nofun, fun ⟨c, cs, _, hcs, _⟩ => ?_⟩
        rw [ih.mpr hcs] at hl
        cases hl
      | ok cs =>
        constructor
        · intro h
          cases h
          exact ⟨b, cs, rfl, ih.mp hl, rfl⟩
        · rintro ⟨c, ds, hc, hds, rfl⟩
          cases hc
          rw [ih.mpr hds] at hl
          cases hl
          rfl

/-- What stands on the right of a relation between lists has a partner on the left. -/
theorem forall₂_mem_right {p : α → β → Prop} {bs : List β} {b : β} (h : List.Forall₂ p l bs) (hb : b ∈ bs) :
    ∃ a ∈ l, p a b := by
  induction h with
  | nil => cases hb
  | cons hab _ ih =>
    obtain rfl | hb := List.mem_cons.mp hb
    · exact ⟨_, List.mem_cons_self, hab⟩
    · obtain ⟨a, ha, hp⟩ := ih hb
      exact ⟨a, List.mem_cons_of_mem _ ha, hp⟩

theorem mapM_ok_mem {bs : List β} (h : l.mapM f = .ok bs) : ∀ b ∈ bs, ∃ a ∈ l, f a = .ok b :=
  fun _ => forall₂_mem_right (mapM_ok.mp h)

theorem ok_of_mapM_ok {bs : List β} (h : l.mapM f = .ok bs) : ∀ a ∈ l, ∃ b, f a = .ok b := by
  intro a ha
  obtain ⟨i, hi, rfl⟩ := List.mem_iff_getElem.mp ha
  have hforall := mapM_ok.mp h
  exact ⟨_, hforall.get hi (hforall.length_eq ▸ hi)⟩

/-- A loop raises what one of its rounds raises. -/
theorem mapM_error (h : l.mapM f = .error e) : ∃ a ∈ l, f a = .error e := by
  induction l with
  | nil => cases h
  | cons a l ih =>
    rw [List.mapM_cons] at h
    cases ha : f a with
    | error e' =>
      rw [ha] at h
      cases h
      exact ⟨a, List.mem_cons_self, ha⟩
    | ok b =>
      cases hl : l.mapM f with
      | error e' =>
        rw [ha, hl] at h
        cases h
        obtain ⟨c, hc, hce⟩ := ih hl
        exact ⟨c, List.mem_cons_of_mem _ hc, hce⟩
      | ok bs =>
        rw [ha, hl] at h
        cases h

/-- A loop of which no round raises returns. -/
theorem exists_mapM_ok (h : ∀ a ∈ l, ∃ b, f a = .ok b) : ∃ bs, l.mapM f = .ok bs := by
  cases hl : l.mapM f with
  | ok bs => exact ⟨bs, rfl⟩
  | error e =>
    obtain ⟨a, ha, hraise⟩ := mapM_error hl
    obtain ⟨b, hb⟩ := h a ha
    rw [hraise] at hb
    cases hb

/-- A change of every result is a change of every round. -/
theorem map_mapM {γ : Type} {p : β → γ} : (l.mapM f).map (List.map p) = l.mapM fun a => (f a).map p := by
  induction l with
  | nil => rfl
  | cons a l ih =>
    rw [List.mapM_cons, List.mapM_cons, ← ih]
    cases f a with
    | error e => rfl
    | ok b =>
      cases l.mapM f with
      | error e => rfl
      | ok bs => rfl

theorem mapM_congr {g : α → Except ε β} (h : ∀ a ∈ l, f a = g a) : l.mapM f = l.mapM g := by
  induction l with
  | nil => rfl
  | cons a l ih =>
    obtain ⟨ha, hl⟩ := List.forall_mem_cons.mp h
    rw [List.mapM_cons, List.mapM_cons, ha, ih hl]

end
end Mistral
