import Mathlib.Data.List.Chain
import Mathlib.Logic.Relation
import Mathlib.Data.List.Nodup

/-! Chains of keys in which each key leads to one other key at most, walked with a set of the keys that were visited. -/

namespace Walks
variable {κ : Type}

/-- Where a walk ends: at a key that leads nowhere, before one that is not known, or before one that was visited. -/
inductive End (κ : Type)
  | final
  | unknown (k : κ)
  | cycle (k : κ)
  deriving DecidableEq, Repr

section
variable [DecidableEq κ]

/-- The walk from `k` on. `look` says what is known of a key: nothing, or that it leads nowhere or to another one. -/
def walk (look : κ → Option (Option κ)) : Nat → List κ → κ → Option (List κ × End κ)
  | 0, _, _ => none
  | fuel + 1, visited, k =>
    if k ∈ visited then some ([], .cycle k)
    else
      match look k with
      | none => some ([], .unknown k)
      | some none => some ([k], .final)
      | some (some k') => (walk look fuel (k :: visited) k').map fun (ks, e) => (k :: ks, e)

end

/-- A key leads to another one. -/
def LeadsTo (look : κ → Option (Option κ)) (a b : κ) : Prop := look a = some (some b)

variable {look : κ → Option (Option κ)} {fuel : Nat} {visited names ks : List κ} {k a b : κ} {e : End κ}

theorem leadsTo_unique : Relator.RightUnique (LeadsTo look) := fun _ _ _ hb hc =>
  Option.some.inj (Option.some.inj (hb.symm.trans hc))

section
variable [DecidableEq κ]

/-- A walk ends if only finitely many keys lead to others. -/
theorem walk_isSome (hnames : ∀ a b, LeadsTo look a b → a ∈ names)
    (hfuel : (names.filter (· ∉ visited)).length < fuel) : (walk look fuel visited k).isSome := by
  induction fuel generalizing visited k with
  | zero => exact absurd hfuel (Nat.not_lt_zero _)
  | succ fuel ih =>
    rw [walk]
    split
    · rfl
    next hnew =>
      cases hlook : look k with
      | none => rfl
      | some next =>
        cases next with
        | none => rfl
        | some k' =>
          have hk : k ∈ names.filter (· ∉ visited) := by
            simpa using ⟨hnames k k' hlook, hnew⟩
          have hfewer : (names.filter (· ∉ k :: visited)).length < (names.filter (· ∉ visited)).length := by
            have hsub : names.filter (· ∉ k :: visited) = (names.filter (· ∉ visited)).filter (· ≠ k) := by
              rw [List.filter_filter]
              exact List.filter_congr fun x _ => by simp
            rw [hsub]
            exact List.length_filter_lt_length_iff_exists.mpr ⟨k, hk, by simp⟩
          rw [Option.isSome_map]
          exact ih (by omega)

/-- What a walk has found when it ends. -/
theorem walk_spec (ha : LeadsTo look a k) (ha' : a ∈ visited) (h : walk look fuel visited k = some (ks, e)) :
    (∀ x ∈ ks, x ∉ visited) ∧ ks.Nodup ∧
      match e with
      | .final => ∃ pre last, ks = pre ++ [last] ∧ (a :: ks).IsChain (LeadsTo look) ∧ look last = some none
      | .unknown u => ((a :: ks) ++ [u]).IsChain (LeadsTo look) ∧ look u = none
      | .cycle c => ((a :: ks) ++ [c]).IsChain (LeadsTo look) ∧ (c ∈ visited ∨ c ∈ ks) := by
  induction fuel generalizing visited k a ks with
  | zero => cases h
  | succ fuel ih =>
    rw [walk] at h
    split at h
    next hold =>
      cases h
      exact ⟨nofun, List.nodup_nil, by simpa using ha, .inl hold⟩
    next hnew =>
      cases hlook : look k with
      | none =>
        rw [hlook] at h
        cases h
        exact ⟨nofun, List.nodup_nil, by simpa using ha, hlook⟩
      | some next =>
        rw [hlook] at h
        cases next with
        | none =>
          cases h
          exact ⟨by simpa using hnew, List.nodup_singleton _, [], k, rfl, by simpa using ha, hlook⟩
        | some k' =>
          obtain ⟨⟨ks', e'⟩, hwalk, heq⟩ := Option.map_eq_some_iff.mp h
          cases heq
          obtain ⟨hfresh, hnodup, hend⟩ := ih hlook List.mem_cons_self hwalk
          refine ⟨?_, ?_, ?_⟩
          · rintro x hx
            obtain rfl | hx := List.mem_cons.mp hx
            · exact hnew
            · exact fun hvisited => hfresh x hx (List.mem_cons_of_mem _ hvisited)
          · exact List.nodup_cons.mpr ⟨fun hk => hfresh k hk List.mem_cons_self, hnodup⟩
          · cases e with
            | final =>
              obtain ⟨pre, last, rfl, hchain, hlast⟩ := hend
              exact ⟨k :: pre, last, rfl, List.isChain_cons_cons.mpr ⟨ha, hchain⟩, hlast⟩
            | unknown u => exact ⟨List.isChain_cons_cons.mpr ⟨ha, hend.1⟩, hend.2⟩
            | cycle c =>
              refine ⟨List.isChain_cons_cons.mpr ⟨ha, hend.1⟩, ?_⟩
              obtain hc | hc := hend.2
              · obtain rfl | hc := List.mem_cons.mp hc
                · exact .inr List.mem_cons_self
                · exact .inl hc
              · exact .inr (List.mem_cons_of_mem _ hc)

end

/-! ### What is reached -/

/-- All that is reached from a key on a cycle is on a cycle. -/
theorem on_cycle (hcycle : Relation.TransGen (LeadsTo look) a a) (h : Relation.ReflTransGen (LeadsTo look) a b) :
    Relation.TransGen (LeadsTo look) b b := by
  induction h with
  | refl => exact hcycle
  | tail _ hstep ih =>
    obtain ⟨c, hfirst, hrest⟩ := Relation.TransGen.head'_iff.mp ih
    obtain rfl := leadsTo_unique hstep hfirst
    exact Relation.TransGen.tail' hrest hstep

/-- No cycle is reached where a key is reached that leads nowhere. -/
theorem not_cyclic (h : Relation.ReflTransGen (LeadsTo look) k b) (hend : ∀ c, ¬LeadsTo look b c) :
    ¬∃ a, Relation.ReflTransGen (LeadsTo look) k a ∧ Relation.TransGen (LeadsTo look) a a := by
  rintro ⟨a, ha, hcycle⟩
  have hb : Relation.TransGen (LeadsTo look) b b := by
    obtain hab | hba := Relation.ReflTransGen.total_of_right_unique leadsTo_unique ha h
    · exact on_cycle hcycle hab
    · obtain rfl | ⟨c, hc, -⟩ := hba.cases_head
      · exact hcycle
      · exact absurd hc (hend c)
  obtain ⟨c, hc, -⟩ := Relation.TransGen.head'_iff.mp hb
  exact hend c hc

/-- Only one key that leads nowhere is reached. -/
theorem end_unique (h : Relation.ReflTransGen (LeadsTo look) k a) (ha : ∀ c, ¬LeadsTo look a c)
    (h' : Relation.ReflTransGen (LeadsTo look) k b) (hb : ∀ c, ¬LeadsTo look b c) : a = b := by
  obtain hab | hba := Relation.ReflTransGen.total_of_right_unique leadsTo_unique h h'
  · obtain rfl | ⟨c, hc, -⟩ := hab.cases_head
    · rfl
    · exact absurd hc (ha c)
  · obtain rfl | ⟨c, hc, -⟩ := hba.cases_head
    · rfl
    · exact absurd hc (hb c)

theorem transGen_of_isChain {r : κ → κ → Prop} (h : (a :: (ks ++ [b])).IsChain r) : Relation.TransGen r a b := by
  induction ks generalizing a with
  | nil => exact .single (List.isChain_cons_cons.mp h).1
  | cons k ks ih =>
    obtain ⟨hfirst, hrest⟩ := List.isChain_cons_cons.mp h
    exact .head hfirst (ih hrest)

/-- A chain that comes back to one of its keys. -/
theorem cycle_of_isChain {r : κ → κ → Prop} (h : (a :: (ks ++ [b])).IsChain r) (hb : b ∈ a :: ks) :
    Relation.TransGen r b b := by
  obtain rfl | hb := List.mem_cons.mp hb
  · exact transGen_of_isChain h
  · obtain ⟨pre, post, rfl⟩ := List.append_of_mem hb
    have hsuffix : b :: (post ++ [b]) <:+ a :: (pre ++ b :: post ++ [b]) := ⟨a :: pre, by simp⟩
    exact transGen_of_isChain (h.suffix hsuffix)

end Walks
