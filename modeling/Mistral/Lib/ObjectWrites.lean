import Mistral.Lib.Objects

/-! Where the operations on nested dictionaries write, and what they depend on. -/

/-- The owner is another one. -/
def Slot.withOwner {ω : Type} (n : ω) : Slot ω → Slot ω
  | .dict _ => .dict n
  | .value x => .value x

namespace Heap
variable {ω : Type} {h h₁ h₂ : Heap ω} {n m l r : ω} {p q : Place} {k k' : String} {v : Slot ω}
  {overwrite : Place → Bool} {depth : Nat} {owners : ω → Prop}

/-! ### What is there after an operation -/

section
variable [DecidableEq ω]

/-- A merge goes over the dictionaries that are at the same place on both sides, and writes those on the left. -/
theorem get_mergeAt : (h.mergeAt overwrite depth p l r).get n (p ++ q) k =
    if q.length < depth ∧ h.owner? l p q = some n then
      match h.owner? r p q with
      | some b => mergeSlot (overwrite (p ++ q ++ [k])) (h.get n (p ++ q) k) (h.get b (p ++ q) k)
      | none => h.get n (p ++ q) k
    else h.get n (p ++ q) k := by
  induction depth generalizing p l r q with
  | zero => rw [if_neg fun h => absurd h.1 (Nat.not_lt_zero _)]; rfl
  | succ depth ih =>
    have hm := merged overwrite depth h p l r
    cases q with
    | nil =>
      rw [List.append_nil]
      by_cases hn : n = l
      · subst hn
        rw [hm.slot, if_pos ⟨Nat.succ_pos _, rfl⟩]
        rfl
      · rw [hm.others n k hn, if_neg fun h => hn (Option.some.inj h.2).symm]
    | cons k₀ q =>
      by_cases hdicts : ∃ a b, h.get l p k₀ = some (.dict a) ∧ h.get r p k₀ = some (.dict b)
      · obtain ⟨a, b, hl, hr⟩ := hdicts
        have hbelow := ih (p := p ++ [k₀]) (l := a) (r := b) (q := q)
        rw [List.append_assoc, List.singleton_append] at hbelow
        rw [hm.below k₀ a b hl hr, hbelow, owner?, owner?, hl, hr]
        exact if_congr (and_congr_left' Nat.succ_lt_succ_iff.symm) rfl rfl
      · rw [hm.apart k₀ fun a b hab => hdicts ⟨a, b, hab⟩]
        split
        next hleft =>
          have hright : h.owner? r p (k₀ :: q) = none := by
            obtain ⟨-, hleft⟩ := hleft
            rw [owner?] at hleft ⊢
            split at hleft
            next a hl =>
              split
              next b hr => exact absurd ⟨a, b, hl, hr⟩ hdicts
              next => rfl
            next => cases hleft
          rw [hright]
        next => rfl

theorem get_erase : (h.erase n p k).get m q k' = if m = n ∧ q = p ∧ k' = k then none else h.get m q k' := by
  unfold get erase
  by_cases hobj : m = n ∧ q = p
  · obtain ⟨rfl, rfl⟩ := hobj
    by_cases hk : k' = k
    · subst hk
      simp
    · simp [hk, AList.lookup_erase_ne]
  · rw [if_neg fun h => hobj ⟨h.1, h.2.1⟩]
    simp only [if_neg hobj]

theorem get_write {entries : AList fun _ : String => Slot ω} :
    (h.write n p entries).get m q k = if m = n ∧ q = p then entries.lookup k else h.get m q k := by
  unfold get write
  by_cases hobj : m = n ∧ q = p
  · simp only [if_pos hobj]
  · simp only [if_neg hobj]

theorem get_copy : (h.copy r n).get m q k =
    if m = n then (h.owner? r [] q).bind fun b => (h.get b q k).map (Slot.withOwner n) else h.get m q k := by
  unfold get copy
  by_cases hm : m = n
  · subst hm
    simp only [if_true]
    cases h.owner? r [] q with
    | none => rfl
    | some b =>
      rw [Option.bind_some]
      have hmap : ∀ es : List (Sigma fun _ : String => Slot ω),
          (es.map fun e => (⟨e.1, e.2.withOwner m⟩ : Sigma fun _ : String => Slot ω)).dlookup k =
            (es.dlookup k).map (Slot.withOwner m) := fun es => by
        induction es with
        | nil => rfl
        | cons e es ih =>
          obtain ⟨k₀, v⟩ := e
          by_cases hk : k = k₀
          · subst hk
            rw [List.map_cons, List.dlookup_cons_eq, List.dlookup_cons_eq]
            rfl
          · rw [List.map_cons, List.dlookup_cons_ne _ _ (by exact hk), List.dlookup_cons_ne _ _ (by exact hk), ih]
      rw [AList.lookup_to_alist]
      exact hmap _
  · simp only [if_neg hm]

end

/-! ### Owners that lead to themselves only -/

theorem Closed.owner? (hc : h.Closed owners) (hn : owners n) {q : List String} (hm : h.owner? n p q = some m) :
    owners m := by
  induction q generalizing n p with
  | nil => exact Option.some.inj hm ▸ hn
  | cons k q ih =>
    rw [Heap.owner?] at hm
    split at hm
    next a ha => exact ih (hc n p k a hn ha) hm
    next => cases hm

section
variable [DecidableEq ω]

theorem Closed.set (hc : h.Closed owners) (hv : ∀ m, v = .dict m → owners m) : (h.set n p k v).Closed owners := by
  intro a q k' m ha hget
  rw [get_set] at hget
  split at hget
  · exact hv m (Option.some.inj hget)
  · exact hc a q k' m ha hget

theorem Closed.erase (hc : h.Closed owners) : (h.erase n p k).Closed owners := by
  intro a q k' m ha hget
  rw [get_erase] at hget
  split at hget
  · cases hget
  · exact hc a q k' m ha hget

theorem Closed.write (hc : h.Closed owners) {entries : AList fun _ : String => Slot ω}
    (hentries : ∀ k m, entries.lookup k = some (.dict m) → owners m) : (h.write n p entries).Closed owners := by
  intro a q k m ha hget
  rw [get_write] at hget
  split at hget
  · exact hentries k m hget
  · exact hc a q k m ha hget

theorem Closed.copy (hc : h.Closed owners) (hn : owners n) : (h.copy r n).Closed owners := by
  intro a q k m ha hget
  rw [get_copy] at hget
  split at hget
  · obtain ⟨b, -, hb⟩ := Option.bind_eq_some_iff.mp hget
    obtain ⟨v, -, hv⟩ := Option.map_eq_some_iff.mp hb
    cases v with
    | dict _ => exact Slot.dict.inj hv ▸ hn
    | value _ => cases hv
  · exact hc a q k m ha hget

theorem Closed.updateAt (hc : h.Closed owners) (hr : owners r) : (h.updateAt p l r).Closed owners := by
  intro a q k m ha hget
  rw [get_updateAt] at hget
  split at hget
  next heq =>
    rcases hright : h.get r p k with _ | v
    · rw [hright, Option.none_or] at hget
      exact hc l p k m (heq.1 ▸ ha) hget
    · rw [hright, Option.some_or] at hget
      exact hc r p k m hr (hright.trans hget)
  · exact hc a q k m ha hget

end

/-! ### Heaps that are the same on such owners -/

theorem SameOn.symm (hs : SameOn owners h₁ h₂) : SameOn owners h₂ h₁ := fun n hn q k => (hs n hn q k).symm

theorem SameOn.owner? (hs : SameOn owners h₁ h₂) (hc : h₁.Closed owners) (hn : owners n) {q : List String} :
    h₁.owner? n p q = h₂.owner? n p q := by
  induction q generalizing n p with
  | nil => rfl
  | cons k q ih =>
    rw [Heap.owner?, Heap.owner?, hs n hn]
    split
    next a ha => exact ih (hc n p k a hn ((hs n hn p k).trans ha))
    next => rfl

section
variable [DecidableEq ω]

theorem SameOn.set (hs : SameOn owners h₁ h₂) : SameOn owners (h₁.set n p k v) (h₂.set n p k v) := fun a ha q k' => by
  rw [get_set, get_set, hs a ha]

theorem SameOn.erase (hs : SameOn owners h₁ h₂) : SameOn owners (h₁.erase n p k) (h₂.erase n p k) := fun a ha q k' => by
  rw [get_erase, get_erase, hs a ha]

theorem SameOn.write (hs : SameOn owners h₁ h₂) {e₁ e₂ : AList fun _ : String => Slot ω}
    (he : ∀ k, e₁.lookup k = e₂.lookup k) : SameOn owners (h₁.write n p e₁) (h₂.write n p e₂) := fun a ha q k => by
  rw [get_write, get_write, he, hs a ha]

theorem SameOn.copy (hs : SameOn owners h₁ h₂) (hc : h₁.Closed owners) (hr : owners r) :
    SameOn owners (h₁.copy r n) (h₂.copy r n) := fun a ha q k => by
  rw [get_copy, get_copy, hs a ha, ← hs.owner? hc hr]
  split
  · cases hb : h₁.owner? r [] q with
    | none => rfl
    | some b => rw [Option.bind_some, Option.bind_some, hs b (hc.owner? hr hb)]
  · rfl

theorem SameOn.updateAt (hs : SameOn owners h₁ h₂) (hr : owners r) :
    SameOn owners (h₁.updateAt p l r) (h₂.updateAt p l r) := fun a ha q k => by
  rw [get_updateAt, get_updateAt, hs a ha, hs r hr]
  by_cases heq : a = l ∧ q = p
  · rw [if_pos heq, if_pos heq, ← heq.1, hs a ha]
  · rw [if_neg heq, if_neg heq]

end
end Heap
