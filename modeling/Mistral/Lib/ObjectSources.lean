import Mathlib.Data.List.Induction
import Mathlib.Data.Set.Basic
import Mistral.Lib.ObjectWrites

/-! Where the entries of a dictionary come from into which others were merged, and whose dictionaries it shares. -/

namespace Heap
variable {ω : Type} {h h' h₀ : Heap ω} {n m l r a b : ω} {p q : Place} {k : String} {v : Slot ω}
  {overwrite : Place → Bool} {depth : Nat} {stored : ω → Prop} {vars : String → Prop} {A A' B B' : Set ω}

/-- The dictionary of `m` has every entry of that of `b`: its values, and dictionaries where that has dictionaries. -/
def Has (h : Heap ω) (q : Place) (m b : ω) : Prop :=
  ∀ k x, (h.get b q k).map Slot.node = some x → (h.get m q k).map Slot.node = some x

/-- Wherever both lead to a dictionary inside of a variable, and the one of `a` is stored, it has every entry of that of `b`. -/
def Covers (stored : ω → Prop) (h : Heap ω) (a b : ω) : Prop := ∀ q m b', q ≠ [] → h.owner? a [] q = some m → stored m →
  h.owner? b [] q = some b' → h.Has q m b'

/-- The place is the top, or inside of one of these variables. -/
def Inside (vars : String → Prop) (q : Place) : Prop := ∀ k ∈ q.head?, vars k

/-- In these variables `n` has entries of the dictionaries `B` only, and the stored dictionaries that it leads to are those
    of `A`, as they were in the heap `h₀`. -/
structure MadeOf (vars : String → Prop) (stored : ω → Prop) (h₀ h : Heap ω) (A B : Set ω) (n : ω) : Prop where
  shares : ∀ q m, q ≠ [] → Inside vars q → h.owner? n [] q = some m → stored m → ∃ a ∈ A, h₀.owner? a [] q = some m
  entries : ∀ q m k v, Inside vars (q ++ [k]) → h.owner? n [] q = some m → h.get m q k = some v →
    ∃ b ∈ B, ∃ b', h₀.owner? b [] q = some b' ∧ (h₀.get b' q k).map Slot.node = some v.node

/-- What is new in these variables is from a dictionary that `r` leads to. -/
def Blends (vars : String → Prop) (r : ω) (h h' : Heap ω) : Prop := ∀ m q k v, Inside vars (q ++ [k]) →
  h'.get m q k = some v → h.get m q k = some v ∨ ∃ b, h.owner? r [] q = some b ∧ h.get b q k = some v

/-! ### Paths -/

theorem owner?_concat : h.owner? n p (q ++ [k]) = some m ↔
    ∃ a, h.owner? n p q = some a ∧ h.get a (p ++ q) k = some (.dict m) := by
  induction q generalizing n p with
  | nil =>
    rw [List.nil_append, List.append_nil]
    unfold owner?
    constructor
    · intro hm
      refine ⟨n, rfl, ?_⟩
      split at hm
      next a ha => exact ha.trans (congrArg (fun a => some (Slot.dict a)) (Option.some.inj hm))
      next => cases hm
    · rintro ⟨a, ha, hget⟩
      obtain rfl : n = a := Option.some.inj ha
      rw [hget]
      rfl
  | cons k₀ q ih =>
    rw [List.cons_append, owner?, owner?]
    split
    next a ha =>
      rw [ih]
      simp only [List.append_assoc, List.singleton_append]
    next =>
      constructor
      · rintro ⟨⟩
      · rintro ⟨a, ⟨⟩, -⟩

theorem Inside.of_concat (hq : Inside vars (q ++ [k])) : Inside vars q := by
  cases q with
  | nil => exact fun _ hk => absurd hk (by rintro ⟨⟩)
  | cons k₀ q => exact hq

theorem Inside.concat (hq : Inside vars q) (hne : q ≠ []) : Inside vars (q ++ [k]) := by
  cases q with
  | nil => exact absurd rfl hne
  | cons k₀ q => exact hq

theorem Blends.owner? (hb : Blends vars r h h') (hq : Inside vars q) (hm : h'.owner? n [] q = some m) :
    h.owner? n [] q = some m ∨ h.owner? r [] q = some m := by
  induction q using List.reverseRecOn generalizing m with
  | nil => exact .inl hm
  | append_singleton q k ih =>
    obtain ⟨a, ha, hget⟩ := owner?_concat.mp hm
    rcases hb a q k _ hq hget with hold | ⟨b, hright, hnew⟩
    · exact (ih hq.of_concat ha).imp (fun hpath => owner?_concat.mpr ⟨a, hpath, hold⟩)
        fun hpath => owner?_concat.mpr ⟨a, hpath, hold⟩
    · exact .inr (owner?_concat.mpr ⟨b, hright, hnew⟩)

/-- Where the dictionaries on all paths stay as they are, there are no other paths. -/
theorem owner?_of_congr (hf : ∀ q m, h.owner? n [] q = some m → ∀ k, h'.get m q k = h.get m q k)
    (hm : h'.owner? n [] q = some m) : h.owner? n [] q = some m := by
  induction q using List.reverseRecOn generalizing m with
  | nil => exact hm
  | append_singleton q k ih =>
    obtain ⟨a, ha, hget⟩ := owner?_concat.mp hm
    exact owner?_concat.mpr ⟨a, ih ha, (hf q a (ih ha) k).symm.trans hget⟩

/-! ### What dictionaries are made of -/

theorem MadeOf.self : MadeOf vars stored h₀ h₀ {n} {n} n where
  shares q m _ _ hm _ := ⟨n, rfl, hm⟩
  entries q m k v _ hm hget := ⟨n, rfl, m, hm, by rw [hget]; rfl⟩

/-- An empty dictionary. -/
theorem MadeOf.empty (hn : ∀ k, h.get n [] k = none) : MadeOf vars stored h₀ h ∅ ∅ n := by
  have htop : ∀ q m, h.owner? n [] q = some m → q = [] ∧ m = n := fun q m hm => by
    cases q with
    | nil => exact ⟨rfl, (Option.some.inj hm).symm⟩
    | cons k q =>
      rw [Heap.owner?, hn k] at hm
      cases hm
  constructor
  · exact fun q m hq _ hm _ => absurd (htop q m hm).1 hq
  · intro q m k v _ hm hget
    obtain ⟨rfl, rfl⟩ := htop q m hm
    exact absurd ((hn k).symm.trans hget) (by rintro ⟨⟩)

theorem MadeOf.blend (hn : MadeOf vars stored h₀ h A B n) (hr : MadeOf vars stored h₀ h A' B' r) (hb : Blends vars r h h') :
    MadeOf vars stored h₀ h' (A ∪ A') (B ∪ B') n := by
  constructor
  · intro q m hq hin hm hs
    rcases hb.owner? hin hm with hm | hm
    · obtain ⟨a, ha, hpath⟩ := hn.shares q m hq hin hm hs
      exact ⟨a, .inl ha, hpath⟩
    · obtain ⟨a, ha, hpath⟩ := hr.shares q m hq hin hm hs
      exact ⟨a, .inr ha, hpath⟩
  · intro q m k v hin hm hget
    have hright : ∀ c, h.owner? r [] q = some c → h.get c q k = some v →
        ∃ b ∈ B ∪ B', ∃ b', h₀.owner? b [] q = some b' ∧ (h₀.get b' q k).map Slot.node = some v.node := fun c hc hget => by
      obtain ⟨b, hb, hsource⟩ := hr.entries q c k v hin hc hget
      exact ⟨b, .inr hb, hsource⟩
    rcases hb m q k v hin hget with hold | ⟨c, hc, hnew⟩
    · rcases hb.owner? hin.of_concat hm with hm | hm
      · obtain ⟨b, hb, hsource⟩ := hn.entries q m k v hin hm hold
        exact ⟨b, .inl hb, hsource⟩
      · exact hright m hm hold
    · exact hright c hc hnew

/-- Entries that go do no harm. -/
theorem MadeOf.fewer (hn : MadeOf vars stored h₀ h A B n)
    (hf : ∀ m q k v, Inside vars (q ++ [k]) → h'.get m q k = some v → h.get m q k = some v) :
    MadeOf vars stored h₀ h' A B n := by
  have hblend := hn.blend hn fun m q k v hin hget => .inl (hf m q k v hin hget)
  rwa [Set.union_self, Set.union_self] at hblend

/-- What is made of some dictionaries depends on those that it leads to. -/
theorem MadeOf.congr (hn : MadeOf vars stored h₀ h A B n)
    (hf : ∀ q m, h.owner? n [] q = some m → ∀ k, h'.get m q k = h.get m q k) : MadeOf vars stored h₀ h' A B n where
  shares q m hq hin hm hs := hn.shares q m hq hin (owner?_of_congr hf hm) hs
  entries q m k v hin hm hget := by
    have hpath := owner?_of_congr hf hm
    exact hn.entries q m k v hin hpath ((hf q m hpath k).symm.trans hget)

/-- A stored dictionary, as long as the stored ones stay as they are. -/
theorem MadeOf.of_stored (hclosed : h₀.Closed stored) (hsame : SameOn stored h h₀) (hn : stored n) :
    MadeOf vars stored h₀ h {n} {n} n :=
  MadeOf.self.congr fun q m hm k => hsame m (hclosed.owner? hn hm) q k

theorem mergeSlot_of_node {o : Bool} {x : Option (Slot ω)} (hx : x.map Slot.node = some v.node) :
    mergeSlot o x (some v) = x := by
  cases x with
  | none => cases hx
  | some w => cases w <;> cases v <;> simp_all [Slot.node, mergeSlot]

section
variable [DecidableEq ω]

theorem blends_mergeAt : Blends vars r h (h.mergeAt overwrite depth [] l r) := by
  intro m q k v _ hget
  have heq : (h.mergeAt overwrite depth [] l r).get m ([] ++ q) k = _ := Heap.get_mergeAt
  rw [List.nil_append] at heq
  rw [heq] at hget
  split at hget
  · split at hget
    next b hright =>
      rcases mergeSlot_cases (overwrite (q ++ [k])) (h.get m q k) (h.get b q k) with hslot | hslot
      · exact .inl (hslot.symm.trans hget)
      · exact .inr ⟨b, hright, hslot.symm.trans hget⟩
    next => exact .inl hget
  · exact .inl hget

theorem blends_updateAt : Blends vars r h (h.updateAt [] l r) := by
  intro m q k v _ hget
  rw [get_updateAt] at hget
  split at hget
  next heq =>
    obtain ⟨rfl, rfl⟩ := heq
    rcases hright : h.get r [] k with _ | w
    · rw [hright, Option.none_or] at hget
      exact .inl hget
    · rw [hright, Option.some_or] at hget
      exact .inr ⟨r, rfl, hright.trans hget⟩
  next => exact .inl hget

/-- A merge writes no stored dictionary where the dictionaries that are shared on its left cover those on its right. -/
theorem MadeOf.get_mergeAt (hl : MadeOf vars stored h₀ h A B l) (hr : MadeOf vars stored h₀ h A' B' r)
    (hc : ∀ a ∈ A, ∀ b ∈ B', Covers stored h₀ a b) (hsame : SameOn stored h h₀) (hnot : ¬stored l)
    (hvars : ∀ k, ¬vars k → h.get l [] k = none) (hn : stored n) :
    (h.mergeAt overwrite depth [] l r).get n q k = h.get n q k := by
  have heq : (h.mergeAt overwrite depth [] l r).get n ([] ++ q) k = _ := Heap.get_mergeAt
  rw [List.nil_append] at heq
  rw [heq]
  split
  next hleft =>
    obtain ⟨-, hleft⟩ := hleft
    have hne : q ≠ [] := by
      rintro rfl
      exact hnot (Option.some.inj hleft ▸ hn)
    have hin : Inside vars q := fun k₀ hk₀ => by
      by_contra hout
      obtain ⟨q', rfl⟩ := List.head?_eq_some_iff.mp hk₀
      rw [Heap.owner?, hvars k₀ hout] at hleft
      cases hleft
    split
    next b hright =>
      cases hv : h.get b q k with
      | none => cases h.get n q k <;> rfl
      | some v =>
        obtain ⟨a, ha, hpath⟩ := hl.shares q n hne hin hleft hn
        obtain ⟨b₀, hb₀, b', hb', hsource⟩ := hr.entries q b k v (hin.concat hne) hright hv
        have hhas := hc a ha b₀ hb₀ q n b' hne hpath hn hb' k v.node hsource
        rw [← hsame n hn] at hhas
        exact mergeSlot_of_node hhas
    next => rfl
  next => rfl

end
end Heap
