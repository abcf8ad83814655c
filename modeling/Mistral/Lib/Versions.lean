import Mathlib.Data.Set.Insert
import Mathlib.Order.WellFounded

/-! Values that sources publish under keys, one source after another, and that are handed on and merged. Each key has a
    version, which counts its publications. -/

namespace Mistral.Versioned

/-- What is held under each key, and the versions of the keys. -/
structure View (κ ν : Type) where
  node : κ → Option ν
  version : κ → Nat

/-- The sources, what they publish, and what each hands on. A publication of the value `silent` is not counted. -/
structure Sources (ω κ ν : Type) where
  before : ω → ω → Prop
  published : ω → κ → Option ν
  out : ω → View κ ν
  silent : ν

namespace Sources
variable {ω κ ν : Type} (g : Sources ω κ ν)

/-- One of the sources published the value, and none after it published another. -/
def Latest (S : Set ω) (k : κ) (n : ν) : Prop :=
  ∃ a ∈ S, g.published a k = some n ∧ ∀ b ∈ S, g.before a b → g.published b k = none

def DownClosed (S : Set ω) : Prop := ∀ b ∈ S, ∀ a, g.before a b → a ∈ S

/-- A source after another counts its publications up. -/
structure Counts : Prop where
  grows : ∀ a b k, g.before a b → (g.out a).version k ≤ (g.out b).version k
  counted : ∀ a b k n, g.before a b → g.published b k = some n → n ≠ g.silent → (g.out a).version k < (g.out b).version k

/-- The view comes from these sources: each value has the version that it was published with. -/
structure Holds (S : Set ω) (v : View κ ν) : Prop where
  seen : ∀ a ∈ S, ∀ k, (g.out a).version k ≤ v.version k
  origin : ∀ k n, v.node k = some n → ∃ a ∈ S, g.published a k = some n ∧ (g.out a).version k = v.version k ∧
    (n ≠ g.silent → ∀ b ∈ S, g.before a b → g.published b k ≠ some g.silent)

/-- The source `t` publishes into the view `v`. -/
structure Publishes (t : ω) (v : View κ ν) : Prop where
  node : ∀ k n, (g.out t).node k = some n → g.published t k = some n ∨
    g.published t k = none ∧ v.node k = some n ∧ (g.out t).version k = v.version k
  grows : ∀ k, v.version k ≤ (g.out t).version k
  counted : ∀ k n, g.published t k = some n → n ≠ g.silent → v.version k < (g.out t).version k

/-- A value of `v` that may be preferred to what `w` has: its version is not smaller, and if it is equal, `w` has no
    silent publication after this one. -/
structure Prefers (S T : Set ω) (v w : View κ ν) (k : κ) (n : ν) : Prop where
  node : v.node k = some n
  version : w.version k ≤ v.version k
  silent : n ≠ g.silent → w.version k = v.version k → ∀ a ∈ S, g.published a k = some n →
    ∀ b ∈ T, g.before a b → g.published b k ≠ some g.silent

/-- `m` merges the views `v` and `w`. -/
structure Merges (S T : Set ω) (v w m : View κ ν) : Prop where
  version : ∀ k, m.version k = max (v.version k) (w.version k)
  node : ∀ k n, m.node k = some n → g.Prefers S T v w k n ∨ g.Prefers T S w v k n

variable {g} {S T : Set ω} {v w m : View κ ν} {t : ω} {k : κ} {n : ν}

/-- The value that is preferred has its source in the merged view too. -/
theorem Prefers.origin (h : g.Prefers S T v w k n) (hv : g.Holds S v) (hw : g.Holds T w) (hT : g.DownClosed T) :
    ∃ a ∈ S, g.published a k = some n ∧ (g.out a).version k = max (v.version k) (w.version k) ∧
      (n ≠ g.silent → ∀ b ∈ S ∪ T, g.before a b → g.published b k ≠ some g.silent) := by
  obtain ⟨a, ha, hpub, hversion, hnot⟩ := hv.origin k n h.node
  refine ⟨a, ha, hpub, by rw [hversion, Nat.max_eq_left h.version], ?_⟩
  rintro hn b (hb | hb) hab
  · exact hnot hn b hb hab
  · -- Then `w` comes from `a` as well, so that the versions are equal.
    have hseen := hw.seen a (hT b hb a hab) k
    have htie : w.version k = v.version k := Nat.le_antisymm h.version (hversion ▸ hseen)
    exact h.silent hn htie a ha hpub b hb hab

theorem Holds.merge (hv : g.Holds S v) (hw : g.Holds T w) (hS : g.DownClosed S) (hT : g.DownClosed T)
    (h : g.Merges S T v w m) : g.Holds (S ∪ T) m where
  seen := by
    rintro a (ha | ha) k
    · rw [h.version]
      exact Nat.le_trans (hv.seen a ha k) (Nat.le_max_left ..)
    · rw [h.version]
      exact Nat.le_trans (hw.seen a ha k) (Nat.le_max_right ..)
  origin k n hn := by
    rw [h.version]
    rcases h.node k n hn with hleft | hright
    · obtain ⟨a, ha, horigin⟩ := hleft.origin hv hw hT
      exact ⟨a, .inl ha, horigin⟩
    · obtain ⟨a, ha, horigin⟩ := hright.origin hw hv hS
      rw [Nat.max_comm, Set.union_comm]
      exact ⟨a, .inl ha, horigin⟩

theorem Holds.publish (hv : g.Holds S v) (h : g.Publishes t v) (hnot : ∀ b ∈ insert t S, ¬g.before t b) :
    g.Holds (insert t S) (g.out t) where
  seen := by
    rintro a (rfl | ha) k
    · exact Nat.le_refl _
    · exact Nat.le_trans (hv.seen a ha k) (h.grows k)
  origin k n hn := by
    rcases h.node k n hn with hpub | ⟨hnone, hn, hversion⟩
    · exact ⟨t, .inl rfl, hpub, rfl, fun _ b hb hab => absurd hab (hnot b hb)⟩
    · obtain ⟨a, ha, hpub, heq, hsilent⟩ := hv.origin k n hn
      refine ⟨a, .inr ha, hpub, heq.trans hversion.symm, ?_⟩
      rintro hne b (rfl | hb) hab
      · rw [hnone]
        nofun
      · exact hsilent hne b hb hab

/-- A publication after one with the version of the view was not counted. -/
theorem Holds.silent_of_before (hv : g.Holds S v) (hcounts : g.Counts) {a b : ω} (hab : g.before a b) (hb : b ∈ S)
    (hversion : (g.out a).version k = v.version k) (hpub : g.published b k = some n) : n = g.silent := by
  by_contra hne
  have hlt := hcounts.counted a b k n hab hpub hne
  have hle := hv.seen b hb k
  omega

/-- A view holds values that are the latest ones, if no chain of sources goes on for ever. -/
theorem Holds.latest (hv : g.Holds S v) (hcounts : g.Counts) (hwf : WellFounded fun b a => g.before a b)
    (hn : v.node k = some n) : g.Latest S k n := by
  obtain ⟨a, ha, hpub, hversion, hnot⟩ := hv.origin k n hn
  by_cases hsilent : n = g.silent
  · subst hsilent
    clear hnot
    -- Of the silent publications from `a` on, the last one is the latest.
    induction a using hwf.induction with
    | _ a ih =>
      by_cases hlater : ∃ b ∈ S, g.before a b ∧ g.published b k ≠ none
      · obtain ⟨b, hb, hab, hpublished⟩ := hlater
        obtain ⟨n, hpubb⟩ := Option.ne_none_iff_exists'.mp hpublished
        obtain rfl := hv.silent_of_before hcounts hab hb hversion hpubb
        have hle := hv.seen b hb k
        have hge := hcounts.grows a b k hab
        exact ih b hab hb (by omega) hpubb
      · refine ⟨a, ha, hpub, fun b hb hab => ?_⟩
        by_contra hpublished
        exact hlater ⟨b, hb, hab, hpublished⟩
  · refine ⟨a, ha, hpub, fun b hb hab => ?_⟩
    by_contra hpublished
    obtain ⟨n', hpubb⟩ := Option.ne_none_iff_exists'.mp hpublished
    obtain rfl := hv.silent_of_before hcounts hab hb hversion hpubb
    exact hnot hsilent b hb hab hpubb

/-! ### Sources one after another -/

/-- A source and those before it. -/
def upTo (g : Sources ω κ ν) (t : ω) : Set ω := insert t {a | g.before a t}

theorem Holds.upTo (hv : g.Holds {a | g.before a t} v) (h : g.Publishes t v) (hirrefl : ∀ a, ¬g.before a a)
    (htrans : ∀ a b c, g.before a b → g.before b c → g.before a c) : g.Holds (g.upTo t) (g.out t) := by
  refine hv.publish h ?_
  rintro b (rfl | hb) htb
  · exact hirrefl b htb
  · exact hirrefl t (htrans t b t htb hb)

/-- If each source takes a view of those before it and publishes into that, all views hold what was published. -/
theorem holds_before {inn : ω → View κ ν} (hwf : WellFounded g.before)
    (htrans : ∀ a b c, g.before a b → g.before b c → g.before a c) (hpub : ∀ t, g.Publishes t (inn t))
    (hin : ∀ t, (∀ u, g.before u t → g.Holds (g.upTo u) (g.out u)) → g.Holds {a | g.before a t} (inn t)) (t : ω) :
    g.Holds {a | g.before a t} (inn t) := by
  induction t using hwf.induction with
  | _ t ih => exact hin t fun u hu => (ih u hu).upTo (hpub u) hwf.irrefl.irrefl htrans

theorem counts_of_holds {inn : ω → View κ ν} (hpub : ∀ t, g.Publishes t (inn t))
    (hin : ∀ t, g.Holds {a | g.before a t} (inn t)) : g.Counts where
  grows a b k hab := Nat.le_trans ((hin b).seen a hab k) ((hpub b).grows k)
  counted a b k n hab hpubb hne := Nat.lt_of_le_of_lt ((hin b).seen a hab k) ((hpub b).counted k n hpubb hne)

end Sources

end Mistral.Versioned
