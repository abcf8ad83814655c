import Mathlib.Data.List.AList
import Mistral.Lib.Dicts

/-! Nested dictionaries as mutable objects that may be shared. A dictionary is known by its owner, the data that it first was
    part of, and by its place, the keys on the way to it. Sharing a dictionary keeps its place. -/

/-- The keys on the way to a dictionary. -/
abbrev Place := List String

/-- What is under a key: the dictionary that the owner has at this place, or any other value as a text. -/
inductive Slot (ω : Type)
  | dict (owner : ω)
  | value (text : String)
  deriving DecidableEq, Repr

/-- What is found under a key, without what is below it. -/
def Slot.node {ω : Type} : Slot ω → Node
  | .dict _ => .dict
  | .value x => .value x

/-- The entries of every dictionary, by its owner and its place. -/
structure Heap (ω : Type) where
  entries : ω → Place → AList fun _ : String => Slot ω

namespace Heap
variable {ω : Type}

/-- What a dictionary has under a key. -/
def get (h : Heap ω) (n : ω) (p : Place) (k : String) : Option (Slot ω) := (h.entries n p).lookup k

section
variable [DecidableEq ω]

/-- `d[k] = v`. -/
def set (h : Heap ω) (n : ω) (p : Place) (k : String) (v : Slot ω) : Heap ω where
  entries m q := if m = n ∧ q = p then (h.entries n p).insert k v else h.entries m q

def erase (h : Heap ω) (n : ω) (p : Place) (k : String) : Heap ω where
  entries m q := if m = n ∧ q = p then (h.entries n p).erase k else h.entries m q

def write (h : Heap ω) (n : ω) (p : Place) (entries : AList fun _ : String => Slot ω) : Heap ω where
  entries m q := if m = n ∧ q = p then entries else h.entries m q

/-- The owner of the dictionary at a path from a dictionary. -/
def owner? (h : Heap ω) : ω → Place → List String → Option ω
  | n, _, [] => some n
  | n, p, k :: q =>
    match h.get n p k with
    | some (.dict m) => h.owner? m (p ++ [k]) q
    | _ => none

/-- `copy.deepcopy`: the new owner `n` gets copies of all dictionaries that `r` leads to. -/
def copy (h : Heap ω) (r n : ω) : Heap ω where
  entries m q :=
    if m = n then
      match h.owner? r [] q with
      | some m' => List.toAList <| (h.entries m' q).entries.map fun e => ⟨e.1, match e.2 with
        | .dict _ => .dict n
        | .value x => .value x⟩
      | none => ∅
    else h.entries m q

end

/-- What is found at a path from a dictionary, without what is below it. -/
def node? (h : Heap ω) : ω → Place → List String → Option Node
  | _, _, [] => some .dict
  | n, p, k :: q =>
    match h.get n p k with
    | none => none
    | some (.value x) => if q = [] then some (.value x) else none
    | some (.dict m) => h.node? m (p ++ [k]) q

/-! ### Merging in place -/

section
variable (overwrite : Place → Bool)

section
variable [DecidableEq ω]

/-- What becomes of one key of the left dictionary. -/
def mergeEntry (rec : Heap ω → Place → ω → ω → Heap ω) (p : Place) (l : ω) (h : Heap ω) (e : Sigma fun _ : String => Slot ω) :
    Heap ω :=
  match h.get l p e.1, e.2 with
  | none, v => h.set l p e.1 v
  | some (.dict a), .dict b => rec h (p ++ [e.1]) a b
  | some _, v => if overwrite (p ++ [e.1]) then h.set l p e.1 v else h

/-- The right dictionary is merged into the left one: a key that is missing is added, two dictionaries are merged, and any
    other value is written over where `overwrite` says so. The number bounds the depth. -/
def mergeAt : Nat → Heap ω → Place → ω → ω → Heap ω
  | 0, h, _, _, _ => h
  | depth + 1, h, p, l, r => (h.entries r p).entries.foldl (mergeEntry overwrite (mergeAt depth) p l) h

/-- `dict.update`: all keys of the right dictionary are written over. -/
def updateAt (h : Heap ω) (p : Place) (l r : ω) : Heap ω :=
  (h.entries r p).entries.foldl (fun h e => h.set l p e.1 e.2) h

end
end

/-- What is under a key after a merge, from what was under it on both sides. -/
def mergeSlot (overwrite : Bool) : Option (Slot ω) → Option (Slot ω) → Option (Slot ω)
  | l, none => l
  | none, some v => some v
  | some (.dict a), some (.dict _) => some (.dict a)
  | some l, some v => if overwrite then some v else some l

/-! ### Reading and writing -/

section
variable {h h' h₁ h₂ : Heap ω} {n m l r a b : ω} {p q : Place} {k k' : String} {v : Slot ω}

/-- The heaps agree on all dictionaries at places below. -/
def AgreeBelow (p : Place) (h₁ h₂ : Heap ω) : Prop := ∀ n q k, h₁.get n (p ++ q) k = h₂.get n (p ++ q) k

theorem AgreeBelow.trans {h₃ : Heap ω} (h₁₂ : AgreeBelow p h₁ h₂) (h₂₃ : AgreeBelow p h₂ h₃) : AgreeBelow p h₁ h₃ :=
  fun n q k => (h₁₂ n q k).trans (h₂₃ n q k)

theorem AgreeBelow.sub (h : AgreeBelow p h₁ h₂) (q : Place) : AgreeBelow (p ++ q) h₁ h₂ := fun n q' k => by
  rw [List.append_assoc]
  exact h n (q ++ q') k

section
variable [DecidableEq ω]

theorem get_set : (h.set n p k v).get m q k' = if m = n ∧ q = p ∧ k' = k then some v else h.get m q k' := by
  unfold get set
  by_cases hobj : m = n ∧ q = p
  · obtain ⟨rfl, rfl⟩ := hobj
    by_cases hk : k' = k
    · subst hk
      simp
    · simp [hk, AList.lookup_insert_ne]
  · have hobj' : ¬(m = n ∧ q = p ∧ k' = k) := fun h => hobj ⟨h.1, h.2.1⟩
    simp only [if_neg hobj, if_neg hobj']

omit [DecidableEq ω] in
theorem AgreeBelow.node? (h : AgreeBelow p h₁ h₂) {q : List String} : h₁.node? n p q = h₂.node? n p q := by
  induction q generalizing n p with
  | nil => rfl
  | cons k q ih =>
    have hget := h n [] k
    rw [List.append_nil] at hget
    rw [Heap.node?, Heap.node?, hget]
    cases h₂.get n p k with
    | none => rfl
    | some v =>
      cases v with
      | value x => rfl
      | dict m => exact ih (h.sub [k])

end

/-! ### One round after another -/

/-- What is known of merging dictionaries below. -/
structure Local (rec : Heap ω → Place → ω → ω → Heap ω) : Prop where
  frame : ∀ {h p l r} n q k, ¬p <+: q → (rec h p l r).get n q k = h.get n q k
  agree : ∀ {h₁ h₂ p l r}, AgreeBelow p h₁ h₂ → AgreeBelow p (rec h₁ p l r) (rec h₂ p l r)

/-- What merging the entries of a dictionary at `p` into another one does. -/
structure Merged (rec : Heap ω → Place → ω → ω → Heap ω) (overwrite : Place → Bool) (p : Place) (l : ω)
    (right : String → Option (Slot ω)) (h h' : Heap ω) : Prop where
  frame : ∀ n q k, ¬p <+: q → h'.get n q k = h.get n q k
  others : ∀ n k, n ≠ l → h'.get n p k = h.get n p k
  slot : ∀ k, h'.get l p k = mergeSlot (overwrite (p ++ [k])) (h.get l p k) (right k)
  below : ∀ k a b, h.get l p k = some (.dict a) → right k = some (.dict b) →
    ∀ n q k', h'.get n (p ++ k :: q) k' = (rec h (p ++ [k]) a b).get n (p ++ k :: q) k'
  apart : ∀ k, (∀ a b, ¬(h.get l p k = some (.dict a) ∧ right k = some (.dict b))) →
    ∀ n q k', h'.get n (p ++ k :: q) k' = h.get n (p ++ k :: q) k'

variable {rec : Heap ω → Place → ω → ω → Heap ω} {overwrite : Place → Bool}

theorem not_isPrefix_append_cons {p q : Place} {k k' : String} (h : k ≠ k') : ¬p ++ [k] <+: p ++ k' :: q := fun hpre => by
  rw [List.prefix_append_right_inj] at hpre
  obtain ⟨t, ht⟩ := hpre
  exact h (List.cons.inj ht).1

theorem Merged.nil : Merged rec overwrite p l (fun _ => none) h h where
  frame _ _ _ _ := rfl
  others _ _ _ := rfl
  slot k := by
    unfold mergeSlot
    split <;> simp_all
  below _ _ _ _ h := nomatch h
  apart _ _ _ _ _ := rfl

theorem not_prefix_self (p : Place) (k : String) : ¬p ++ [k] <+: p := fun h => by
  have hlen := h.length_le
  rw [List.length_append, List.length_singleton] at hlen
  exact Nat.not_succ_le_self _ hlen

theorem append_cons_ne (p q : Place) (k : String) : p ++ k :: q ≠ p := fun h => by
  have hlen := congrArg List.length h
  rw [List.length_append, List.length_cons] at hlen
  omega

/-- An entry with dictionaries on both sides changes what is below it. -/
theorem Merged.dicts (hrec : Local rec) {k₀ : String} (hl : h.get l p k₀ = some (.dict a)) :
    Merged rec overwrite p l (fun k => if k = k₀ then some (.dict b) else none) h (rec h (p ++ [k₀]) a b) where
  frame n q k hq := hrec.frame n q k fun hpre => hq ((List.prefix_append p [k₀]).trans hpre)
  others n k _ := hrec.frame n p k (not_prefix_self p k₀)
  slot k := by
    rw [hrec.frame l p k (not_prefix_self p k₀)]
    by_cases hk : k = k₀
    · subst hk
      rw [if_pos rfl, hl]
      rfl
    · rw [if_neg hk]
      rfl
  below k a' b' hl' hr := by
    by_cases hk : k = k₀
    · subst hk
      rw [if_pos rfl] at hr
      obtain rfl : a = a' := Slot.dict.inj (Option.some.inj (hl.symm.trans hl'))
      obtain rfl : b = b' := Slot.dict.inj (Option.some.inj hr)
      exact fun _ _ _ => rfl
    · rw [if_neg hk] at hr
      cases hr
  apart k hapart n q k' := by
    by_cases hk : k₀ = k
    · subst hk
      exact absurd ⟨hl, if_pos rfl⟩ (hapart a b)
    · exact hrec.frame n _ k' (not_isPrefix_append_cons hk)

/-- An entry that is there already is left. -/
theorem Merged.skip {k₀ : String} (hslot : mergeSlot (overwrite (p ++ [k₀])) (h.get l p k₀) (some v) = h.get l p k₀)
    (hapart : ∀ a b, ¬(h.get l p k₀ = some (.dict a) ∧ v = .dict b)) :
    Merged rec overwrite p l (fun k => if k = k₀ then some v else none) h h where
  frame _ _ _ _ := rfl
  others _ _ _ := rfl
  slot k := by
    by_cases hk : k = k₀
    · subst hk
      rw [if_pos rfl, hslot]
    · rw [if_neg hk]
      rfl
  below k a b hl hr := by
    by_cases hk : k = k₀
    · subst hk
      rw [if_pos rfl] at hr
      exact absurd ⟨hl, Option.some.inj hr⟩ (hapart a b)
    · rw [if_neg hk] at hr
      cases hr
  apart _ _ _ _ _ := rfl

theorem Merged.agreeBelow {right : String → Option (Slot ω)} (hm : Merged rec overwrite p l right h h') {k : String} (hk : right k = none) :
    AgreeBelow (p ++ [k]) h' h := fun n q k' => by
  rw [List.append_assoc]
  exact hm.apart k (fun a b hab => by rw [hk] at hab; cases hab.2) n q k'

theorem Merged.congr {right right' : String → Option (Slot ω)} (hm : Merged rec overwrite p l right h h') (heq : right = right') :
    Merged rec overwrite p l right' h h' := heq ▸ hm

section
variable [DecidableEq ω]

/-- An entry that is written changes one key of the left dictionary. -/
theorem Merged.set {k₀ : String} (hslot : mergeSlot (overwrite (p ++ [k₀])) (h.get l p k₀) (some v) = some v)
    (hapart : ∀ a b, ¬(h.get l p k₀ = some (.dict a) ∧ v = .dict b)) :
    Merged rec overwrite p l (fun k => if k = k₀ then some v else none) h (h.set l p k₀ v) where
  frame n q k hq := by
    rw [get_set, if_neg]
    rintro ⟨-, rfl, -⟩
    exact hq List.prefix_rfl
  others n k hn := by rw [get_set, if_neg fun h => hn h.1]
  slot k := by
    rw [get_set]
    by_cases hk : k = k₀
    · subst hk
      rw [if_pos ⟨rfl, rfl, rfl⟩, if_pos rfl, hslot]
    · rw [if_neg fun h => hk h.2.2, if_neg hk]
      rfl
  below k a b hl hr := by
    by_cases hk : k = k₀
    · subst hk
      rw [if_pos rfl] at hr
      exact absurd ⟨hl, Option.some.inj hr⟩ (hapart a b)
    · rw [if_neg hk] at hr
      cases hr
  apart k _ n q k' := by
    rw [get_set, if_neg]
    rintro ⟨-, heq, -⟩
    exact append_cons_ne p q k heq

theorem mergeEntry_merged (hrec : Local rec) {k₀ : String} :
    Merged rec overwrite p l (fun k => if k = k₀ then some v else none) h (mergeEntry overwrite rec p l h ⟨k₀, v⟩) := by
  cases hl : h.get l p k₀ with
  | none =>
    have hentry : mergeEntry overwrite rec p l h ⟨k₀, v⟩ = h.set l p k₀ v := by simp only [mergeEntry, hl]
    rw [hentry]
    exact .set (by rw [hl]; rfl) fun a b hab => by rw [hl] at hab; cases hab.1
  | some lv =>
    by_cases hdicts : ∃ a b, lv = .dict a ∧ v = .dict b
    · obtain ⟨a, b, rfl, rfl⟩ := hdicts
      have hentry : mergeEntry overwrite rec p l h ⟨k₀, .dict b⟩ = rec h (p ++ [k₀]) a b := by simp only [mergeEntry, hl]
      rw [hentry]
      exact .dicts hrec hl
    · have hapart : ∀ a b, ¬(h.get l p k₀ = some (.dict a) ∧ v = .dict b) := fun a b hab => by
        rw [hl] at hab
        exact hdicts ⟨a, b, Option.some.inj hab.1, hab.2⟩
      have hentry : mergeEntry overwrite rec p l h ⟨k₀, v⟩ = if overwrite (p ++ [k₀]) then h.set l p k₀ v else h := by
        cases lv <;> cases v <;> simp_all [mergeEntry]
      have hslot : mergeSlot (overwrite (p ++ [k₀])) (h.get l p k₀) (some v) = if overwrite (p ++ [k₀]) then some v else h.get l p k₀ := by
        rw [hl]
        cases lv <;> cases v <;> simp_all [mergeSlot]
      rw [hentry]
      split
      next hover => exact .set (by rw [hslot, if_pos hover]) hapart
      next hover => exact .skip (by rw [hslot, if_neg hover]) hapart

omit [DecidableEq ω] in
/-- Entries with other keys come after. -/
theorem Merged.trans (hrec : Local rec) {right₁ right₂ : String → Option (Slot ω)} (h₁₂ : Merged rec overwrite p l right₁ h h₁)
    (h₂₃ : Merged rec overwrite p l right₂ h₁ h₂) (hdisj : ∀ k, right₁ k = none ∨ right₂ k = none) :
    Merged rec overwrite p l (fun k => (right₁ k).or (right₂ k)) h h₂ where
  frame n q k hq := (h₂₃.frame n q k hq).trans (h₁₂.frame n q k hq)
  others n k hn := (h₂₃.others n k hn).trans (h₁₂.others n k hn)
  slot k := by
    rw [h₂₃.slot, h₁₂.slot]
    rcases hdisj k with hk | hk
    · rw [hk, Option.none_or]
      rfl
    · rw [hk, Option.or_none]
      rfl
  below k a b hl hr n q k' := by
    rcases hdisj k with hk | hk
    · rw [hk, Option.none_or] at hr
      have hl₁ : h₁.get l p k = some (.dict a) := by rw [h₁₂.slot, hk, hl]; rfl
      have hagree := hrec.agree (l := a) (r := b) (h₁₂.agreeBelow hk) n q k'
      rw [List.append_assoc] at hagree
      rw [h₂₃.below k a b hl₁ hr]
      exact hagree
    · rw [hk, Option.or_none] at hr
      have hagree := h₂₃.agreeBelow hk n q k'
      rw [List.append_assoc] at hagree
      exact hagree.trans (h₁₂.below k a b hl hr n q k')
  apart k hapart n q k' := by
    rcases hdisj k with hk | hk
    · rw [hk] at hapart
      have hl₁ : h₁.get l p k = h.get l p k := by rw [h₁₂.slot, hk]; rfl
      rw [h₂₃.apart k (by rw [hl₁]; exact hapart)]
      exact h₁₂.apart k (fun a b hab => by rw [hk] at hab; cases hab.2) n q k'
    · rw [hk] at hapart
      rw [h₂₃.apart k fun a b hab => by rw [hk] at hab; cases hab.2]
      exact h₁₂.apart k (by simpa using hapart) n q k'

theorem foldl_merged (hrec : Local rec) {es : List (Sigma fun _ : String => Slot ω)} (hes : es.NodupKeys) :
    Merged rec overwrite p l (fun k => es.dlookup k) h (es.foldl (mergeEntry overwrite rec p l) h) := by
  induction es generalizing h with
  | nil => exact .nil
  | cons e es ih =>
    obtain ⟨k₀, v⟩ := e
    obtain ⟨hnot, hes⟩ := List.nodupKeys_cons.mp hes
    have hdlookup : es.dlookup k₀ = none := List.dlookup_eq_none.mpr hnot
    refine ((mergeEntry_merged hrec).trans hrec (ih hes) fun k => ?_).congr (funext fun k => ?_)
    · by_cases hk : k = k₀
      · exact .inr (hk ▸ hdlookup)
      · exact .inl (if_neg hk)
    · by_cases hk : k = k₀
      · subst hk
        simp
      · rw [if_neg hk, List.dlookup_cons_ne _ _ (by exact hk)]
        rfl

theorem mergeAt_succ {depth : Nat} (hrec : Local (mergeAt (ω := ω) overwrite depth)) :
    Merged (mergeAt overwrite depth) overwrite p l (h.get r p) h (mergeAt overwrite (depth + 1) h p l r) :=
  foldl_merged hrec (h.entries r p).nodupKeys

/-- A merge at a place neither reads nor changes anything that is not below the place. -/
theorem local_mergeAt (overwrite : Place → Bool) (depth : Nat) : Local (mergeAt (ω := ω) overwrite depth) := by
  induction depth with
  | zero => exact ⟨fun _ _ _ _ => rfl, fun h => h⟩
  | succ depth ih =>
    refine ⟨fun n q k hq => (mergeAt_succ ih).frame n q k hq, fun {h₁ h₂ p l r} hagree n q k => ?_⟩
    have hplace : ∀ n k, h₁.get n p k = h₂.get n p k := fun n k => by
      have hget := hagree n [] k
      rwa [List.append_nil] at hget
    have h₁m := mergeAt_succ (h := h₁) (p := p) (l := l) (r := r) ih
    have h₂m := mergeAt_succ (h := h₂) (p := p) (l := l) (r := r) ih
    cases q with
    | nil =>
      rw [List.append_nil]
      by_cases hn : n = l
      · subst hn
        rw [h₁m.slot, h₂m.slot, hplace, hplace]
      · rw [h₁m.others n k hn, h₂m.others n k hn, hplace]
    | cons k₀ q =>
      by_cases hdicts : ∃ a b, h₁.get l p k₀ = some (.dict a) ∧ h₁.get r p k₀ = some (.dict b)
      · obtain ⟨a, b, hl, hr⟩ := hdicts
        rw [h₁m.below k₀ a b hl hr, h₂m.below k₀ a b (hplace l k₀ ▸ hl) (hplace r k₀ ▸ hr)]
        have hbelow := ih.agree (l := a) (r := b) (hagree.sub [k₀]) n q k
        rwa [List.append_assoc] at hbelow
      · rw [h₁m.apart k₀ fun a b hab => hdicts ⟨a, b, hab⟩,
          h₂m.apart k₀ fun a b hab => hdicts ⟨a, b, by rw [hplace, hplace]; exact hab⟩]
        exact hagree n (k₀ :: q) k

/-- A merge of depth `depth + 1` in terms of merges of depth `depth`. -/
theorem merged (overwrite : Place → Bool) (depth : Nat) (h : Heap ω) (p : Place) (l r : ω) :
    Merged (mergeAt overwrite depth) overwrite p l (h.get r p) h (mergeAt overwrite (depth + 1) h p l r) :=
  mergeAt_succ (local_mergeAt overwrite depth)

end

/-! ### What a merge leaves -/

theorem Merged.agreeBelow_dicts {right : String → Option (Slot ω)} (hm : Merged rec overwrite p l right h h')
    (hl : h.get l p k = some (.dict a)) (hr : right k = some (.dict b)) : AgreeBelow (p ++ [k]) h' (rec h (p ++ [k]) a b) :=
  fun n q k' => by
    rw [List.append_assoc]
    exact hm.below k a b hl hr n q k'

theorem Merged.agreeBelow_apart {right : String → Option (Slot ω)} (hm : Merged rec overwrite p l right h h')
    (hapart : ∀ a b, ¬(h.get l p k = some (.dict a) ∧ right k = some (.dict b))) : AgreeBelow (p ++ [k]) h' h :=
  fun n q k' => by
    rw [List.append_assoc]
    exact hm.apart k hapart n q k'

theorem mergeSlot_self (o : Bool) (x : Option (Slot ω)) : mergeSlot o x x = x := by
  rcases x with _ | _ | _ <;> simp [mergeSlot]

theorem mergeSlot_cases (o : Bool) (x y : Option (Slot ω)) : mergeSlot o x y = x ∨ mergeSlot o x y = y := by
  unfold mergeSlot
  split
  · exact .inl rfl
  · exact .inr rfl
  · exact .inl rfl
  · split
    · exact .inr rfl
    · exact .inl rfl

section
variable [DecidableEq ω]

/-- The right dictionary stays as it is, whatever it shares with the left one. -/
theorem node?_mergeAt_right {depth : Nat} {q : List String} : (mergeAt overwrite depth h p l r).node? r p q = h.node? r p q := by
  induction depth generalizing p l r q with
  | zero => rfl
  | succ depth ih =>
    have hm := merged overwrite depth h p l r
    have hslot : ∀ k, (mergeAt overwrite (depth + 1) h p l r).get r p k = h.get r p k := fun k => by
      by_cases hr : r = l
      · subst hr
        rw [hm.slot, mergeSlot_self]
      · exact hm.others r k hr
    cases q with
    | nil => rfl
    | cons k q =>
      rw [Heap.node?, Heap.node?, hslot]
      split
      · rfl
      · rfl
      next b hr =>
        by_cases hl : ∃ a, h.get l p k = some (.dict a)
        · obtain ⟨a, hl⟩ := hl
          rw [(hm.agreeBelow_dicts hl hr).node?]
          exact ih
        · exact (hm.agreeBelow_apart fun a b hab => hl ⟨a, hab.1⟩).node?

/-- The dictionaries of these owners lead to dictionaries of these owners only. -/
def Closed (h : Heap ω) (owners : ω → Prop) : Prop := ∀ n q k m, owners n → h.get n q k = some (.dict m) → owners m

/-- The heaps have the same dictionaries of these owners. -/
def SameOn (owners : ω → Prop) (h₁ h₂ : Heap ω) : Prop := ∀ n, owners n → ∀ q k, h₁.get n q k = h₂.get n q k

/-- Only dictionaries of owners that the left one leads to are changed. -/
theorem get_mergeAt_of_closed {depth : Nat} {owners : ω → Prop} (hclosed : h.Closed owners) (hl : owners l) (hn : ¬owners n) :
    (mergeAt overwrite depth h p l r).get n q k = h.get n q k := by
  induction depth generalizing p l r with
  | zero => rfl
  | succ depth ih =>
    have hm := merged overwrite depth h p l r
    by_cases hq : p <+: q
    · obtain ⟨q, rfl⟩ := hq
      cases q with
      | nil =>
        rw [List.append_nil]
        exact hm.others n k fun hnl => hn (hnl ▸ hl)
      | cons k₀ q =>
        by_cases hdicts : ∃ a b, h.get l p k₀ = some (.dict a) ∧ h.get r p k₀ = some (.dict b)
        · obtain ⟨a, b, hla, hrb⟩ := hdicts
          rw [hm.below k₀ a b hla hrb]
          exact ih (hclosed l p k₀ a hl hla)
        · exact hm.apart k₀ (fun a b hab => hdicts ⟨a, b, hab⟩) n q k
    · exact hm.frame n q k hq

/-- Merging within some owners leads to no other owners. -/
theorem Closed.mergeAt {owners : ω → Prop} (hclosed : h.Closed owners) {depth : Nat} (hl : owners l) (hr : owners r) :
    (mergeAt overwrite depth h p l r).Closed owners := by
  induction depth generalizing p l r with
  | zero => exact hclosed
  | succ depth ih =>
    have hm := merged overwrite depth h p l r
    intro n q k m hn hget
    by_cases hq : p <+: q
    · obtain ⟨q, rfl⟩ := hq
      cases q with
      | nil =>
        rw [List.append_nil] at hget
        by_cases hnl : n = l
        · subst hnl
          rw [hm.slot] at hget
          rcases mergeSlot_cases (overwrite (p ++ [k])) (h.get n p k) (h.get r p k) with heq | heq
          · exact hclosed n p k m hn (heq ▸ hget)
          · exact hclosed r p k m hr (heq ▸ hget)
        · exact hclosed n p k m hn (hm.others n k hnl ▸ hget)
      | cons k₀ q =>
        by_cases hdicts : ∃ a b, h.get l p k₀ = some (.dict a) ∧ h.get r p k₀ = some (.dict b)
        · obtain ⟨a, b, hla, hrb⟩ := hdicts
          rw [hm.below k₀ a b hla hrb] at hget
          exact ih (hclosed l p k₀ a hl hla) (hclosed r p k₀ b hr hrb) n _ k m hn hget
        · exact hclosed n _ k m hn (hm.apart k₀ (fun a b hab => hdicts ⟨a, b, hab⟩) n q k ▸ hget)
    · exact hclosed n q k m hn (hm.frame n q k hq ▸ hget)

/-- Merging within some owners depends on these only. -/
theorem SameOn.mergeAt {owners : ω → Prop} (hsame : SameOn owners h₁ h₂) (hclosed : h₁.Closed owners) {depth : Nat}
    (hl : owners l) (hr : owners r) : SameOn owners (mergeAt overwrite depth h₁ p l r) (mergeAt overwrite depth h₂ p l r) := by
  induction depth generalizing p l r with
  | zero => exact hsame
  | succ depth ih =>
    have h₁m := merged overwrite depth h₁ p l r
    have h₂m := merged overwrite depth h₂ p l r
    intro n hn q k
    by_cases hq : p <+: q
    · obtain ⟨q, rfl⟩ := hq
      cases q with
      | nil =>
        rw [List.append_nil]
        by_cases hnl : n = l
        · subst hnl
          rw [h₁m.slot, h₂m.slot, hsame n hn, hsame r hr]
        · rw [h₁m.others n k hnl, h₂m.others n k hnl, hsame n hn]
      | cons k₀ q =>
        by_cases hdicts : ∃ a b, h₁.get l p k₀ = some (.dict a) ∧ h₁.get r p k₀ = some (.dict b)
        · obtain ⟨a, b, hla, hrb⟩ := hdicts
          rw [h₁m.below k₀ a b hla hrb, h₂m.below k₀ a b (hsame l hl p k₀ ▸ hla) (hsame r hr p k₀ ▸ hrb)]
          exact ih (hclosed l p k₀ a hl hla) (hclosed r p k₀ b hr hrb) n hn _ k
        · rw [h₁m.apart k₀ fun a b hab => hdicts ⟨a, b, hab⟩,
            h₂m.apart k₀ fun a b hab => hdicts ⟨a, b, by rw [hsame l hl, hsame r hr]; exact hab⟩]
          exact hsame n hn _ k
    · rw [h₁m.frame n q k hq, h₂m.frame n q k hq, hsame n hn]

end

theorem SameOn.node? {owners : ω → Prop} (hsame : SameOn owners h₁ h₂) (hclosed : h₁.Closed owners) {q : List String}
    (hn : owners n) : h₁.node? n p q = h₂.node? n p q := by
  induction q generalizing n p with
  | nil => rfl
  | cons k q ih =>
    rw [Heap.node?, Heap.node?, ← hsame n hn]
    split
    · rfl
    · rfl
    next m hm => exact ih (hclosed n p k m hn hm)

/-! ### What may be found where

`R p n` says that a dictionary of `n` may be found at the place `p`, and `P p k v` that it may have `v` under the key `k`. -/

/-- Dictionaries lead only to what may be found there. -/
def Sound (R : Place → ω → Prop) (P : Place → String → Slot ω → Prop) (h : Heap ω) : Prop :=
  ∀ q n, R q n → ∀ k v, h.get n q k = some v → P q k v ∧ ∀ m, v = .dict m → R (q ++ [k]) m

section
variable {R : Place → ω → Prop} {P : Place → String → Slot ω → Prop} {depth : Nat}

section
variable [DecidableEq ω]

/-- Merging what may be found at a place leads to nothing else. -/
theorem Sound.mergeAt (hs : h.Sound R P) (hl : R p l) (hr : R p r) : (h.mergeAt overwrite depth p l r).Sound R P := by
  induction depth generalizing p l r with
  | zero => exact hs
  | succ depth ih =>
    have hm := merged overwrite depth h p l r
    intro q n hn k v hget
    by_cases hq : p <+: q
    · obtain ⟨q, rfl⟩ := hq
      cases q with
      | nil =>
        rw [List.append_nil] at hget hn ⊢
        by_cases hnl : n = l
        · subst hnl
          rw [hm.slot] at hget
          rcases mergeSlot_cases (overwrite (p ++ [k])) (h.get n p k) (h.get r p k) with heq | heq
          · exact hs p n hn k v (heq ▸ hget)
          · exact hs p r hr k v (heq ▸ hget)
        · exact hs p n hn k v (hm.others n k hnl ▸ hget)
      | cons k₀ q =>
        by_cases hdicts : ∃ a b, h.get l p k₀ = some (.dict a) ∧ h.get r p k₀ = some (.dict b)
        · obtain ⟨a, b, hla, hrb⟩ := hdicts
          rw [hm.below k₀ a b hla hrb] at hget
          exact ih ((hs p l hl k₀ _ hla).2 a rfl) ((hs p r hr k₀ _ hrb).2 b rfl) _ n hn k v hget
        · exact hs _ n hn k v (hm.apart k₀ (fun a b hab => hdicts ⟨a, b, hab⟩) n q k ▸ hget)
    · exact hs q n hn k v (hm.frame n q k hq ▸ hget)

/-- Only what may be found there is changed. -/
theorem get_mergeAt_of_sound (hs : h.Sound R P) (hl : R p l) (hn : ¬R q n) :
    (h.mergeAt overwrite depth p l r).get n q k = h.get n q k := by
  induction depth generalizing p l r with
  | zero => rfl
  | succ depth ih =>
    have hm := merged overwrite depth h p l r
    by_cases hq : p <+: q
    · obtain ⟨q, rfl⟩ := hq
      cases q with
      | nil =>
        rw [List.append_nil] at hn ⊢
        exact hm.others n k fun hnl => hn (hnl ▸ hl)
      | cons k₀ q =>
        by_cases hdicts : ∃ a b, h.get l p k₀ = some (.dict a) ∧ h.get r p k₀ = some (.dict b)
        · obtain ⟨a, b, hla, hrb⟩ := hdicts
          rw [hm.below k₀ a b hla hrb]
          exact ih ((hs p l hl k₀ _ hla).2 a rfl)
        · exact hm.apart k₀ (fun a b hab => hdicts ⟨a, b, hab⟩) n q k
    · exact hm.frame n q k hq

/-- Dictionaries of `c` that have everything that may be found there are not changed. -/
theorem get_mergeAt_of_complete {c : ω} (hs : h.Sound R P) (hl : R p l) (hr : R p r)
    (hc : ∀ q, R q c → ∀ k v, P q k v → ∀ o, mergeSlot o (h.get c q k) (some v) = h.get c q k) (hq : R q c) :
    (h.mergeAt overwrite depth p l r).get c q k = h.get c q k := by
  induction depth generalizing p l r with
  | zero => rfl
  | succ depth ih =>
    have hm := merged overwrite depth h p l r
    by_cases hpre : p <+: q
    · obtain ⟨q, rfl⟩ := hpre
      cases q with
      | nil =>
        rw [List.append_nil] at hq ⊢
        by_cases hcl : c = l
        · subst hcl
          rw [hm.slot]
          cases hget : h.get r p k with
          | none => cases h.get c p k <;> rfl
          | some v => exact hc p hq k v (hs p r hr k v hget).1 _
        · exact hm.others c k hcl
      | cons k₀ q =>
        by_cases hdicts : ∃ a b, h.get l p k₀ = some (.dict a) ∧ h.get r p k₀ = some (.dict b)
        · obtain ⟨a, b, hla, hrb⟩ := hdicts
          rw [hm.below k₀ a b hla hrb]
          exact ih ((hs p l hl k₀ _ hla).2 a rfl) ((hs p r hr k₀ _ hrb).2 b rfl)
        · exact hm.apart k₀ (fun a b hab => hdicts ⟨a, b, hab⟩) c q k
    · exact hm.frame c q k hpre

end
end

/-! ### Updates -/

section
variable [DecidableEq ω]

/-- `updateAt` writes the keys of the right dictionary. -/
theorem get_updateAt : (h.updateAt p l r).get n q k =
    if n = l ∧ q = p then (h.get r p k).or (h.get l p k) else h.get n q k := by
  have hfold : ∀ (es : List (Sigma fun _ : String => Slot ω)) (h : Heap ω), es.NodupKeys →
      (es.foldl (fun h e => h.set l p e.1 e.2) h).get n q k =
        if n = l ∧ q = p then (es.dlookup k).or (h.get l p k) else h.get n q k := fun es => by
    induction es with
    | nil =>
      intro h _
      split
      next heq => rw [List.foldl_nil, heq.1, heq.2]; rfl
      next => rfl
    | cons e es ih =>
      intro h hes
      obtain ⟨hnot, hes⟩ := List.nodupKeys_cons.mp hes
      rw [List.foldl_cons, ih _ hes]
      split
      next heq =>
        obtain ⟨k₀, v⟩ := e
        by_cases hk : k = k₀
        · subst hk
          rw [List.dlookup_eq_none.mpr hnot, get_set, if_pos ⟨rfl, rfl, rfl⟩, List.dlookup_cons_eq]
          rfl
        · rw [get_set, if_neg fun h => hk h.2.2, List.dlookup_cons_ne _ _ (by exact hk)]
      next hne => rw [get_set, if_neg fun h => hne ⟨h.1, h.2.1⟩]
  exact hfold _ h (h.entries r p).nodupKeys

end

/-! ### What a merge makes -/

/-- What the right dictionary has, the left one has already. -/
def Contains (h : Heap ω) (p : Place) (l r : ω) : Prop := ∀ q x, h.node? r p q = some x → h.node? l p q = some x

theorem node?_singleton : h.node? n p [k] = (h.get n p k).map fun v => match v with
    | .dict _ => .dict
    | .value x => .value x := by
  rw [node?]
  cases h.get n p k with
  | none => rfl
  | some v => cases v <;> rfl

theorem node?_of_dict {q : List String} (hm : h.get n p k = some (.dict m)) :
    h.node? n p (k :: q) = h.node? m (p ++ [k]) q := by
  rw [node?, hm]

theorem get_eq_value {x : String} : h.get n p k = some (.value x) ↔ h.node? n p [k] = some (.value x) := by
  rw [node?_singleton]
  cases h.get n p k with
  | none => simp
  | some v => cases v <;> simp

theorem exists_get_eq_dict : (∃ m, h.get n p k = some (.dict m)) ↔ h.node? n p [k] = some .dict := by
  rw [node?_singleton]
  cases h.get n p k with
  | none => simp
  | some v => cases v <;> simp

theorem Contains.below (hc : h.Contains p l r) (hl : h.get l p k = some (.dict a)) (hr : h.get r p k = some (.dict b)) :
    h.Contains (p ++ [k]) a b := fun q x hx => by
  rw [← node?_of_dict hl]
  exact hc (k :: q) x ((node?_of_dict hr).trans hx)

section
variable [DecidableEq ω]

/-- A merge of what is there already changes nothing. -/
theorem get_mergeAt_of_contains {depth : Nat} (hc : h.Contains p l r) :
    (mergeAt overwrite depth h p l r).get n q k = h.get n q k := by
  induction depth generalizing p l r with
  | zero => rfl
  | succ depth ih =>
    have hm := merged overwrite depth h p l r
    have hslot : ∀ k, mergeSlot (overwrite (p ++ [k])) (h.get l p k) (h.get r p k) = h.get l p k := fun k => by
      cases hr : h.get r p k with
      | none => cases h.get l p k <;> rfl
      | some v =>
        cases v with
        | value x => rw [get_eq_value.mpr (hc [k] _ (get_eq_value.mp hr)), mergeSlot_self]
        | dict b =>
          obtain ⟨a, hl⟩ := exists_get_eq_dict.mpr (hc [k] _ (exists_get_eq_dict.mp ⟨b, hr⟩))
          rw [hl]
          rfl
    by_cases hq : p <+: q
    · obtain ⟨q, rfl⟩ := hq
      cases q with
      | nil =>
        rw [List.append_nil]
        by_cases hn : n = l
        · subst hn
          rw [hm.slot, hslot]
        · exact hm.others n k hn
      | cons k₀ q =>
        by_cases hdicts : ∃ a b, h.get l p k₀ = some (.dict a) ∧ h.get r p k₀ = some (.dict b)
        · obtain ⟨a, b, hl, hr⟩ := hdicts
          rw [hm.below k₀ a b hl hr]
          exact ih (hc.below hl hr)
        · exact hm.apart k₀ (fun a b hab => hdicts ⟨a, b, hab⟩) n q k
    · exact hm.frame n q k hq

end

section
variable {depth : Nat} {q : List String} {x : Node}

section
variable [DecidableEq ω]

/-- What the right dictionary has at a path, the left one gets, where the merge goes deep enough. -/
theorem node?_mergeAt_of_some (hq : q.length ≤ depth) (hx : h.node? r p q = some x) :
    (mergeAt (fun _ => true) depth h p l r).node? l p q = some x := by
  induction depth generalizing p l r q with
  | zero =>
    obtain rfl := List.length_eq_zero_iff.mp (Nat.le_zero.mp hq)
    exact hx
  | succ depth ih =>
    have hm := merged (fun _ => true) depth h p l r
    cases q with
    | nil => exact hx
    | cons k q =>
      have hq' : q.length ≤ depth := Nat.le_of_succ_le_succ hq
      by_cases hdicts : ∃ a b, h.get l p k = some (.dict a) ∧ h.get r p k = some (.dict b)
      · obtain ⟨a, b, hl, hr⟩ := hdicts
        rw [node?_of_dict (m := a) (by rw [hm.slot, hl, hr]; rfl), (hm.agreeBelow_dicts hl hr).node?]
        exact ih hq' ((node?_of_dict hr).symm.trans hx)
      · have hapart := hm.agreeBelow_apart fun a b hab => hdicts ⟨a, b, hab⟩
        have hslot : (mergeAt (fun _ => true) (depth + 1) h p l r).get l p k = h.get r p k := by
          rw [hm.slot]
          cases hr : h.get r p k with
          | none => rw [node?, hr] at hx; cases hx
          | some v =>
            rcases hl : h.get l p k with _ | ⟨a⟩ | y
            · rfl
            · cases v with
              | dict b => exact absurd ⟨a, b, hl, hr⟩ hdicts
              | value y => rfl
            · cases v <;> rfl
        rw [node?] at hx ⊢
        rw [hslot]
        cases hr : h.get r p k with
        | none => rw [hr] at hx; cases hx
        | some v =>
          rw [hr] at hx
          cases v with
          | value y => exact hx
          | dict b => exact hapart.node?.trans hx

/-- Where the right dictionary has nothing, and no other value on the way, the left one stays as it is. -/
theorem node?_mergeAt_of_none (hnone : h.node? r p q = none)
    (hway : ∀ q₁ k q₂, q = q₁ ++ k :: q₂ → ∀ y, h.node? r p q₁ ≠ some (.value y)) :
    (mergeAt (fun _ => true) depth h p l r).node? l p q = h.node? l p q := by
  induction depth generalizing p l r q with
  | zero => rfl
  | succ depth ih =>
    have hm := merged (fun _ => true) depth h p l r
    cases q with
    | nil => cases hnone
    | cons k q =>
      cases hr : h.get r p k with
      | none =>
        have hapart := hm.agreeBelow_apart (k := k) fun a b hab => by rw [hr] at hab; cases hab.2
        have hslot : (mergeAt (fun _ => true) (depth + 1) h p l r).get l p k = h.get l p k := by
          rw [hm.slot, hr]
          cases h.get l p k <;> rfl
        rw [node?, node?, hslot]
        split
        · rfl
        · rfl
        · exact hapart.node?
      | some v =>
        cases v with
        | value y =>
          cases q with
          | nil => rw [get_eq_value.mp hr] at hnone; cases hnone
          | cons k' q => exact absurd (get_eq_value.mp hr) (hway [k] k' q rfl y)
        | dict b =>
          have hb : h.node? b (p ++ [k]) q = none := (node?_of_dict hr).symm.trans hnone
          rcases hl : h.get l p k with _ | ⟨a⟩ | y
          · have hapart := hm.agreeBelow_apart (k := k) fun a b hab => by rw [hl] at hab; cases hab.1
            rw [node?_of_dict (m := b) (by rw [hm.slot, hl, hr]; rfl), hapart.node?, hb, node?, hl]
          · rw [node?_of_dict (m := a) (by rw [hm.slot, hl, hr]; rfl), (hm.agreeBelow_dicts hl hr).node?, node?_of_dict hl]
            refine ih hb fun q₁ k' q₂ hq y hy => hway (k :: q₁) k' q₂ (by rw [hq]; rfl) y ?_
            rwa [node?_of_dict hr]
          · have hapart := hm.agreeBelow_apart (k := k) fun a b hab => by rw [hl] at hab; cases hab.1
            rw [node?_of_dict (m := b) (by rw [hm.slot, hl, hr]; rfl), hapart.node?, hb, node?, hl]
            cases q with
            | nil => cases hb
            | cons => rfl

end
end

theorem node?_append {q : List String} {x : String} (hx : h.node? n p q = some (.value x)) (q' : List String) :
    h.node? n p (q ++ k :: q') = none := by
  induction q generalizing n p with
  | nil => cases hx
  | cons k' q ih =>
    rw [List.cons_append, node?] at *
    cases hget : h.get n p k' with
    | none => rfl
    | some v =>
      rw [hget] at hx
      cases v with
      | value y => exact if_neg (by simp)
      | dict m => exact ih hx

section
variable [DecidableEq ω]

/-- What is new comes from the right dictionary. -/
theorem node?_left_of_mergeAt {depth : Nat} {q : List String} {x : Node}
    (hdeep : ∀ q y, h.node? r p q = some y → q.length ≤ depth) (hnone : h.node? r p q = none)
    (hx : (mergeAt (fun _ => true) depth h p l r).node? l p q = some x) : h.node? l p q = some x := by
  by_cases hway : ∀ q₁ k q₂, q = q₁ ++ k :: q₂ → ∀ y, h.node? r p q₁ ≠ some (.value y)
  · exact (node?_mergeAt_of_none hnone hway).symm.trans hx
  · simp only [not_forall, not_not] at hway
    obtain ⟨q₁, k, q₂, rfl, y, hy⟩ := hway
    rw [node?_append (node?_mergeAt_of_some (hdeep q₁ _ hy) hy)] at hx
    cases hx

/-- The keys of the merged dictionary are those of both. -/
theorem isSome_node?_mergeAt {depth : Nat} (hdeep : ∀ q y, h.node? r p q = some y → q.length ≤ depth) :
    ((mergeAt (fun _ => true) depth h p l r).node? l p [k]).isSome ↔ (h.node? l p [k]).isSome ∨ (h.node? r p [k]).isSome := by
  cases hr : h.node? r p [k] with
  | some x => simp [node?_mergeAt_of_some (hdeep _ _ hr) hr]
  | none =>
    rw [node?_mergeAt_of_none hr fun q₁ k' q₂ hq y => ?_]
    · simp
    · obtain rfl : q₁ = [] := by
        cases q₁ with
        | nil => rfl
        | cons => simp at hq
      nofun

/-- The dictionary has the contents of a given one. -/
def Holds (h : Heap ω) (n : ω) (p : Place) (d : Dict) : Prop := ∀ q, h.node? n p q = d.node? q

/-- Merging in place does to the contents what merging does to values, where it goes as deep as the right dictionary. -/
theorem Holds.mergeAt {merge : Dict → Dict → Dict} (hmerge : Dict.MergesRecursively merge) {depth : Nat} {dl dr : Dict}
    (hl : h.Holds l p dl) (hr : h.Holds r p dr) (hdeep : ∀ q x, dr.node? q = some x → q.length ≤ depth) :
    (mergeAt (fun _ => true) depth h p l r).Holds l p (merge dl dr) := fun q => by
  cases hx : dr.node? q with
  | some x => rw [hmerge.node?_of_some hx, node?_mergeAt_of_some (hdeep q x hx) ((hr q).trans hx)]
  | none =>
    by_cases hway : ∀ q₁ k q₂, q = q₁ ++ k :: q₂ → ∀ y, dr.node? q₁ ≠ some (.value y)
    · rw [hmerge.node?_of_none hx hway, ← hl q]
      refine node?_mergeAt_of_none ((hr q).trans hx) fun q₁ k q₂ hq y => ?_
      rw [hr q₁]
      exact hway q₁ k q₂ hq y
    · -- Below another value of the right dictionary there is nothing, neither in the heap nor in the merged value.
      simp only [not_forall, not_not] at hway
      obtain ⟨q₁, k, q₂, rfl, y, hy⟩ := hway
      have hheap := node?_mergeAt_of_some (l := l) (hdeep q₁ _ hy) ((hr q₁).trans hy)
      rw [node?_append hheap, Dict.node?_append (hmerge.node?_of_some hy)]

end
end

/-! ### Trees -/

section
variable {ω : Type}

/-- The heap in which each owner has its own tree. -/
def ofTrees (trees : ω → Dict) : Heap ω where
  entries n p := List.toAList <| ((trees n).below p).map fun (k, v) => ⟨k, match v with
    | .dict _ => .dict n
    | .value x => .value x⟩

variable {trees : ω → Dict} {n m : ω} {p : Place} {k : String}

theorem get_ofTrees : (ofTrees trees).get n p k = (((trees n).below p).lookup k).map fun v => match v with
    | .dict _ => .dict n
    | .value x => .value x := by
  rw [get, ofTrees, AList.lookup_to_alist]
  induction (trees n).below p with
  | nil => rfl
  | cons e d ih =>
    obtain ⟨k', v⟩ := e
    by_cases hk : k = k'
    · subst hk
      simp
    · have hne : (k == k') = false := beq_eq_false_iff_ne.mpr hk
      rw [List.map_cons, List.dlookup_cons_ne _ _ (by exact hk), ih, List.lookup_cons, hne]

theorem below_append (d : Dict) : d.below (p ++ [k]) = match (d.below p).lookup k with
    | some (.dict e) => e
    | _ => [] := by
  induction p generalizing d with
  | nil =>
    cases hv : d.lookup k with
    | none => simp [Dict.below, hv]
    | some v => cases v <;> simp [Dict.below, hv]
  | cons k' p ih =>
    rw [List.cons_append, Dict.below, Dict.below]
    split
    · exact ih _
    · rfl

/-- A tree is held by its owner, and so is what is below. -/
theorem holds_ofTrees : (ofTrees trees).Holds n p ((trees n).below p) := fun q => by
  induction q generalizing p with
  | nil => rfl
  | cons k q ih =>
    rw [node?, get_ofTrees, Dict.node?_cons]
    cases hlookup : ((trees n).below p).lookup k with
    | none => rfl
    | some v =>
      cases v with
      | value x => cases q <;> rfl
      | dict e =>
        have hbelow := ih (p := p ++ [k])
        rw [below_append, hlookup] at hbelow
        exact hbelow

/-- No dictionary is shared. -/
theorem owner_ofTrees (h : (ofTrees trees).get n p k = some (.dict m)) : m = n := by
  rw [get_ofTrees] at h
  obtain ⟨v, -, hv⟩ := Option.map_eq_some_iff.mp h
  cases v with
  | dict e => exact (Slot.dict.inj hv).symm
  | value x => cases hv

end
end Heap
