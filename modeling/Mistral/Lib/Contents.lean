import Mathlib.Data.List.Infix
import Mistral.Lib.Dicts

/-! What nested dictionaries hold: two dictionaries are the same if they hold the same at every path. -/

/-- What is at every path of a dictionary. Only dictionaries have something below them. -/
@[ext] structure Contents where
  node : List String → Option Node
  root : node [] = some .dict
  below : ∀ p k, (node (p ++ [k])).isSome → node p = some .dict

namespace Contents
variable {l r : Contents} {p : List String}

theorem below_append (h : (l.node (p ++ q)).isSome) (hq : q ≠ []) : l.node p = some .dict := by
  induction q using List.reverseRecOn with
  | nil => exact absurd rfl hq
  | append_singleton q k ih =>
    rw [← List.append_assoc] at h
    have hdict := l.below _ _ h
    by_cases hnil : q = []
    · rwa [hnil, List.append_nil] at hdict
    · exact ih (by rw [hdict]; rfl) hnil

instance : LE Contents where
  le l r := ∀ p n, l.node p = some n → r.node p = some n

/-- A dictionary that a list of entries builds. -/
def ofDict (d : Dict) : Contents where
  node := d.node?
  root := rfl
  below p k h := by
    induction p generalizing d with
    | nil => rfl
    | cons k' p ih =>
      rw [List.cons_append, Dict.node?_cons] at h
      rw [Dict.node?_cons]
      cases hv : d.lookup k' with
      | none =>
        rw [hv] at h
        cases h
      | some v =>
        rw [hv, Option.bind_some] at h
        cases v with
        | dict e => exact ih e h
        | value x => cases p <;> cases h

/-! ### Merging and updating -/

/-- There is a value on the way to `p` that is no dictionary. -/
def blocks (r : Contents) (p : List String) : Bool := p.inits.any fun q => match r.node q with
  | some (.value _) => true
  | _ => false

theorem blocks_iff : r.blocks p ↔ ∃ q x, q <+: p ∧ r.node q = some (.value x) := by
  simp only [blocks, List.any_eq_true, List.mem_inits]
  constructor
  · rintro ⟨q, hq, hvalue⟩
    split at hvalue
    next x hx => exact ⟨q, x, hq, hx⟩
    next => cases hvalue
  · rintro ⟨q, x, hq, hx⟩
    exact ⟨q, hq, by rw [hx]⟩

/-- `merge_dicts`: what the right dictionary holds, and what the left one holds where that is not in the way. -/
def merge (l r : Contents) : Contents where
  node p := match r.node p with
    | some n => some n
    | none => if r.blocks p then none else l.node p
  root := by rw [r.root]
  below p k h := by
    split at h
    next n hn => rw [r.below p k (by rw [hn]; rfl)]
    next hnone =>
      split at h
      · cases h
      next hway =>
        have hfree : ¬r.blocks p := fun hp => hway (by
          obtain ⟨q, x, hq, hx⟩ := blocks_iff.mp hp
          exact blocks_iff.mpr ⟨q, x, hq.trans (List.prefix_append p [k]), hx⟩)
        cases hr : r.node p with
        | none =>
          rw [if_neg hfree]
          exact l.below p k h
        | some n =>
          cases n with
          | dict => rfl
          | value x => exact absurd (blocks_iff.mpr ⟨p, x, List.prefix_append p [k], hr⟩) hway

/-- `update_dict`: a key of the right dictionary replaces that of the left one. -/
def update (l r : Contents) : Contents where
  node
    | [] => some .dict
    | k :: p => if (r.node [k]).isSome then r.node (k :: p) else l.node (k :: p)
  root := rfl
  below p k h := by
    cases p with
    | nil => rfl
    | cons k' p =>
      dsimp only [List.cons_append] at h ⊢
      split at h
      next hk =>
        rw [if_pos hk]
        exact r.below (k' :: p) k h
      next hk =>
        rw [if_neg hk]
        exact l.below (k' :: p) k h

/-- Some key of the left dictionary itself gets a new value, not only keys of the dictionaries in it. -/
def setsKey (l : Contents) (r : Dict) : Bool :=
  r.any fun e => !(l.node [e.1] == some .dict && (ofDict r).node [e.1] == some .dict)

/-- What a column holds after a merge in place, which it notices where one of its own keys is set. -/
def keep (l : Contents) (r : Dict) : Contents := if l.setsKey r then l.merge (ofDict r) else l

theorem update_update (l r : Contents) : (l.update r).update r = l.update r := by
  ext p : 2
  cases p with
  | nil => rfl
  | cons k p =>
    dsimp only [update]
    split <;> rfl

theorem le_merge (l r : Contents) : r ≤ l.merge r := fun p n hn => by simp only [merge, hn]

/-- Merging changes nothing exactly where the left dictionary has everything already. -/
theorem merge_eq_left_iff : l.merge r = l ↔ r ≤ l := by
  constructor
  · intro h p n hn
    have hnode : (l.merge r).node p = some n := by simp only [merge, hn]
    rwa [h] at hnode
  · intro h
    ext p : 2
    cases hr : r.node p with
    | some n => simp only [merge, hr, h p n hr]
    | none =>
      simp only [merge, hr]
      split
      next hblocks =>
        obtain ⟨q, x, ⟨t, rfl⟩, hx⟩ := blocks_iff.mp hblocks
        have ht : t ≠ [] := fun ht => by
          rw [ht, List.append_nil, hx] at hr
          cases hr
        by_contra hsome
        have hdict := below_append (Option.isSome_iff_ne_none.mpr (Ne.symm hsome)) ht
        rw [h q _ hx] at hdict
        cases hdict
      next => rfl

/-- The merge of two lists of entries. -/
theorem ofDict_merge {merge : Dict → Dict → Dict} (hmerge : Dict.MergesRecursively merge) (l r : Dict) :
    ofDict (merge l r) = (ofDict l).merge (ofDict r) := by
  ext p : 2
  show (merge l r).node? p = match r.node? p with
    | some n => some n
    | none => if (ofDict r).blocks p then none else l.node? p
  cases hr : r.node? p with
  | some n => exact hmerge.node?_of_some hr
  | none =>
    by_cases hblocks : (ofDict r).blocks p
    · rw [if_pos hblocks]
      obtain ⟨q, x, ⟨t, rfl⟩, hx⟩ := blocks_iff.mp hblocks
      cases t with
      | nil =>
        rw [List.append_nil, show r.node? q = some (.value x) from hx] at hr
        cases hr
      | cons k t => exact Dict.node?_append (hmerge.node?_of_some hx) t
    · rw [if_neg hblocks]
      refine hmerge.node?_of_none hr fun q k q' hp x hx => hblocks ?_
      exact blocks_iff.mpr ⟨q, x, hp ▸ List.prefix_append q (k :: q'), hx⟩

/-- What is noticed of the merge of two lists of entries. -/
theorem setsKey_ofDict (l r : Dict) : (ofDict l).setsKey r = Dict.setsKey l r := by
  have hdict : ∀ (d : Dict) (k : String), d.node? [k] = some .dict ↔ ∃ e, d.lookup k = some (.dict e) := fun d k => by
    rw [Dict.node?_cons]
    rcases d.lookup k with _ | ⟨e⟩ | x <;> simp [Json.node?]
  have hboth : ∀ k, ((ofDict l).node [k] == some .dict && (ofDict r).node [k] == some .dict) = Dict.bothDicts l r k := fun k => by
    rw [Bool.eq_iff_iff, Dict.bothDicts_iff, Bool.and_eq_true, beq_iff_eq, beq_iff_eq]
    constructor
    · rintro ⟨hl, hr⟩
      obtain ⟨a, ha⟩ := (hdict l k).mp hl
      obtain ⟨b, hb⟩ := (hdict r k).mp hr
      exact ⟨a, b, ha, hb⟩
    · rintro ⟨a, b, ha, hb⟩
      exact ⟨(hdict l k).mpr ⟨a, ha⟩, (hdict r k).mpr ⟨b, hb⟩⟩
  simp only [setsKey, Dict.setsKey, hboth]

/-- An empty dictionary adds nothing. -/
theorem merge_nil (l : Contents) : l.merge (ofDict []) = l := merge_eq_left_iff.mpr fun p n hn => by
  cases p with
  | nil => rw [← hn]; exact l.root
  | cons k p => cases hn

/-- What the column holds is as it was exactly where nothing is noticed, or nothing is new. -/
theorem keep_eq_left_iff {l : Contents} {r : Dict} : l.keep r = l ↔ (l.setsKey r → ofDict r ≤ l) := by
  unfold keep
  split
  next h => rw [merge_eq_left_iff]; exact ⟨fun hle _ => hle, fun hle => hle h⟩
  next h => exact iff_of_true rfl fun hsets => absurd hsets h

end Contents
