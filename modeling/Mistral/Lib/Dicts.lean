import Mathlib.Data.List.Basic

/-! Nested dictionaries, and merging one into another. -/

/-- A value: a dictionary, or anything else as a text. A key that occurs twice has its first value. -/
inductive Json
  | dict (entries : List (String × Json))
  | value (text : String)
  deriving Repr

/-- The entries of a dictionary. -/
abbrev Dict := List (String × Json)

/-- What is found at a path, without what is below it. -/
inductive Node
  | dict
  | value (text : String)
  deriving DecidableEq, Repr

def Json.node? : Json → List String → Option Node
  | .dict _, [] => some .dict
  | .value x, [] => some (.value x)
  | .dict e, k :: p => (e.lookup k).bind (·.node? p)
  | .value _, _ :: _ => none

namespace Dict

def node? (d : Dict) (p : List String) : Option Node := (Json.dict d).node? p

/-- A key of both dictionaries that holds a dictionary in both. -/
def BothDicts (l r : Dict) (k : String) : Prop := ∃ a b, l.lookup k = some (.dict a) ∧ r.lookup k = some (.dict b)

/-- Some key of the left dictionary itself gets a new value, not only keys of the dictionaries in it. -/
def SetsKey (l r : Dict) : Prop := ∃ k, (r.lookup k).isSome ∧ ¬BothDicts l r k

/-- The values of `r` are merged into `l`, and so are those of the dictionaries in them, one by one. -/
structure MergesRecursively (merge : Dict → Dict → Dict) : Prop where
  left : ∀ l r k, r.lookup k = none → (merge l r).lookup k = l.lookup k
  right : ∀ l r k v, r.lookup k = some v → ¬BothDicts l r k → (merge l r).lookup k = some v
  both : ∀ l r k a b, l.lookup k = some (.dict a) → r.lookup k = some (.dict b) →
    (merge l r).lookup k = some (.dict (merge a b))

variable {merge : Dict → Dict → Dict}

@[simp] theorem node?_nil (d : Dict) : node? d [] = some .dict := rfl

@[simp] theorem node?_cons (d : Dict) (k : String) (p : List String) :
    node? d (k :: p) = (d.lookup k).bind (·.node? p) := rfl

/-- Below a value that is no dictionary there is nothing. -/
theorem node?_append {p : List String} {x k : String} {d : Dict} (hx : node? d p = some (.value x)) (q : List String) :
    node? d (p ++ k :: q) = none := by
  induction p generalizing d with
  | nil => cases hx
  | cons k' p ih =>
    rw [List.cons_append, node?_cons] at *
    cases hlookup : d.lookup k' with
    | none => rfl
    | some v =>
      rw [hlookup, Option.bind_some] at hx
      cases v with
      | dict e => exact ih hx
      | value y =>
        cases p with
        | nil => rfl
        | cons => cases hx

/-- The dictionary at a place, or an empty one. -/
def below (d : Dict) : List String → Dict
  | [] => d
  | k :: p =>
    match d.lookup k with
    | some (.dict e) => below e p
    | _ => []

mutual

/-- How long the paths in a dictionary are at most. -/
def depth : Dict → Nat
  | [] => 0
  | (_, v) :: d => max (valueDepth v + 1) (depth d)

def valueDepth : Json → Nat
  | .dict d => depth d
  | .value _ => 0

end

theorem length_le_depth {p : List String} {x : Node} {d : Dict} (hx : node? d p = some x) : p.length ≤ d.depth := by
  induction p generalizing d with
  | nil => exact Nat.zero_le _
  | cons k p ih =>
    rw [node?_cons] at hx
    obtain ⟨v, hv, hx⟩ := Option.bind_eq_some_iff.mp hx
    have hvalue : p.length ≤ valueDepth v := by
      cases v with
      | dict e =>
        rw [valueDepth]
        exact ih hx
      | value y =>
        cases p with
        | nil => exact Nat.zero_le _
        | cons => cases hx
    obtain ⟨l₁, l₂, rfl, -⟩ := List.lookup_eq_some_iff.mp hv
    have hmem : ∀ l₁ : Dict, valueDepth v + 1 ≤ depth (l₁ ++ (k, v) :: l₂) := fun l₁ => by
      induction l₁ with
      | nil =>
        rw [List.nil_append, depth]
        exact Nat.le_max_left ..
      | cons e l₁ ih =>
        rw [List.cons_append, depth]
        exact Nat.le_trans ih (Nat.le_max_right ..)
    exact Nat.le_trans (Nat.succ_le_succ hvalue) (hmem l₁)

theorem bothDicts_or (l r : Dict) (k : String) : BothDicts l r k ∨ ¬BothDicts l r k := Classical.em _

/-- What the right dictionary has at a path, the merged one has. -/
theorem MergesRecursively.node?_of_some (hmerge : MergesRecursively merge) {p : List String} {n : Node} :
    ∀ {l r : Dict}, node? r p = some n → node? (merge l r) p = some n := by
  induction p with
  | nil => exact id
  | cons k p ih =>
    intro l r h
    rw [node?_cons] at h ⊢
    obtain ⟨v, hv, hn⟩ := Option.bind_eq_some_iff.mp h
    obtain ⟨a, b, hl, hr⟩ | hboth := bothDicts_or l r k
    · obtain rfl : .dict b = v := Option.some.inj (hr.symm.trans hv)
      rw [hmerge.both l r k a b hl hr]
      exact ih (l := a) hn
    · rw [hmerge.right l r k v hv hboth]
      exact hn

/-- Where the right dictionary has nothing, and no other value on the way, the merged one has what the left one has. -/
theorem MergesRecursively.node?_of_none (hmerge : MergesRecursively merge) {p : List String} :
    ∀ {l r : Dict}, node? r p = none → (∀ q k q', p = q ++ k :: q' → ∀ x, node? r q ≠ some (.value x)) →
      node? (merge l r) p = node? l p := by
  induction p with
  | nil => exact fun h => by simp at h
  | cons k p ih =>
    intro l r h hway
    rw [node?_cons] at h ⊢
    rw [node?_cons]
    cases hr : r.lookup k with
    | none => rw [hmerge.left l r k hr]
    | some v =>
      rw [hr, Option.bind_some] at h
      cases v with
      | value x =>
        cases p with
        | nil => simp [Json.node?] at h
        | cons k' p' => exact absurd (by simp [hr, Json.node?]) (hway [k] k' p' rfl x)
      | dict b =>
        obtain ⟨a, b', hl, hr'⟩ | hboth := bothDicts_or l r k
        · obtain rfl : b' = b := by simpa [hr] using hr'.symm
          rw [hmerge.both l r k a b' hl hr, hl]
          refine ih h fun q k' q' hp x hq => hway (k :: q) k' q' (by rw [hp]; rfl) x ?_
          rwa [node?_cons, hr]
        · rw [hmerge.right l r k _ hr hboth]
          -- The left dictionary has no dictionary under the key, hence nothing below it.
          cases hl : l.lookup k with
          | none => exact h
          | some w =>
            cases w with
            | dict a => exact absurd ⟨a, b, hl, hr⟩ hboth
            | value x =>
              cases p with
              | nil => simp [Json.node?] at h
              | cons => exact h

/-- What the merged dictionary has and the right one has not, the left one has. -/
theorem MergesRecursively.node?_left (hmerge : MergesRecursively merge) {p : List String} {n : Node} :
    ∀ {l r : Dict}, node? r p = none → node? (merge l r) p = some n → node? l p = some n := by
  induction p with
  | nil => exact fun h => by simp at h
  | cons k p ih =>
    intro l r hnone hsome
    rw [node?_cons] at hnone hsome ⊢
    cases hr : r.lookup k with
    | none =>
      rw [hmerge.left l r k hr] at hsome
      exact hsome
    | some v =>
      rw [hr] at hnone
      obtain ⟨a, b, hl, hr'⟩ | hboth := bothDicts_or l r k
      · obtain rfl : .dict b = v := Option.some.inj (hr'.symm.trans hr)
        rw [hmerge.both l r k a b hl hr'] at hsome
        rw [hl]
        exact ih (l := a) hnone hsome
      · rw [hmerge.right l r k v hr hboth] at hsome
        cases hsome.symm.trans hnone

/-- The keys of the merged dictionary are those of both. -/
theorem MergesRecursively.isSome_lookup (hmerge : MergesRecursively merge) {l r : Dict} {k : String} :
    ((merge l r).lookup k).isSome ↔ (l.lookup k).isSome ∨ (r.lookup k).isSome := by
  cases hr : r.lookup k with
  | none => simp [hmerge.left l r k hr]
  | some v =>
    obtain ⟨a, b, hl, hr'⟩ | hboth := bothDicts_or l r k
    · simp [hmerge.both l r k a b hl hr']
    · simp [hmerge.right l r k v hr hboth]

/-! ### A merge -/

mutual

/-- The value under a key of the merged dictionary, where the right one has the key. -/
def mergeValue (l : Option Json) (r : Json) : Json :=
  match r with
  | .dict b =>
    match l with
    | some (.dict a) => .dict (mergeInto a b)
    | _ => .dict b
  | .value x => .value x

def mergeInto (l r : Dict) : Dict :=
  match r with
  | [] => l
  | (k, v) :: r => (k, mergeValue (l.lookup k) v) :: mergeInto l r

end

theorem lookup_mergeInto (l r : Dict) (k : String) :
    (mergeInto l r).lookup k = match r.lookup k with
      | some v => some (mergeValue (l.lookup k) v)
      | none => l.lookup k := by
  induction r with
  | nil => simp [mergeInto]
  | cons e r ih =>
    obtain ⟨k', v⟩ := e
    rw [mergeInto]
    by_cases hk : k = k'
    · subst hk
      simp
    · have hne : (k == k') = false := by simpa using hk
      simp only [List.lookup_cons, hne]
      exact ih

theorem mergesRecursively_mergeInto : MergesRecursively mergeInto where
  left l r k hr := by rw [lookup_mergeInto, hr]
  right l r k v hr hboth := by
    rw [lookup_mergeInto, hr]
    cases v with
    | value x => simp [mergeValue]
    | dict b =>
      rcases hl : l.lookup k with _ | ⟨a⟩ | x
      · simp [mergeValue]
      · exact absurd ⟨a, b, hl, hr⟩ hboth
      · simp [mergeValue]
  both l r k a b hl hr := by
    rw [lookup_mergeInto, hr, hl]
    simp [mergeValue]

def bothDicts (l r : Dict) (k : String) : Bool :=
  match l.lookup k, r.lookup k with
  | some (.dict _), some (.dict _) => true
  | _, _ => false

theorem bothDicts_iff {l r : Dict} {k : String} : bothDicts l r k ↔ BothDicts l r k := by
  unfold bothDicts BothDicts
  split
  next a b hl hr => exact ⟨fun _ => ⟨a, b, hl, hr⟩, fun _ => rfl⟩
  next hneither => exact ⟨nofun, fun ⟨a, b, hl, hr⟩ => absurd hr (hneither a b hl)⟩

def setsKey (l r : Dict) : Bool := r.any fun e => !bothDicts l r e.1

theorem setsKey_iff {l r : Dict} : setsKey l r ↔ SetsKey l r := by
  simp only [setsKey, SetsKey, List.any_eq_true, Bool.not_eq_true', List.lookup_isSome_iff, beq_iff_eq, ← bothDicts_iff,
    Bool.not_eq_true]
  exact ⟨fun ⟨e, he, hboth⟩ => ⟨e.1, ⟨e, he, rfl⟩, hboth⟩, fun ⟨_, ⟨e, he, hk⟩, hboth⟩ => ⟨e, he, hk ▸ hboth⟩⟩

instance (l r : Dict) : Decidable (SetsKey l r) := decidable_of_iff _ setsKey_iff

end Dict
