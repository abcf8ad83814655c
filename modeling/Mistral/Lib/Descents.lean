import Mathlib.Data.List.Chain
import Mathlib.Data.List.Lattice
import Mathlib.Data.List.Nodup
import Mathlib.Data.List.Perm.Subperm
import Mathlib.Logic.Relation
import Mistral.Lib.Excepts

/-! Descents from a key to the keys below it, which give the items of each. -/

namespace Descents
variable {κ α ε : Type}

/-- The items of a key, and then those that the descents to its children give. `stop` is raised below the last level. -/
def descend (stop : ε) (children : κ → List κ) (items : κ → List α) : Nat → κ → Except ε (List α)
  | 0, _ => .error stop
  | fuel + 1, k => do
    let below ← (children k).mapM (descend stop children items fuel)
    return items k ++ below.flatten

def Child (children : κ → List κ) (a b : κ) : Prop := b ∈ children a

/-- The second key is the first one, or is somewhere below it. -/
def Within (children : κ → List κ) : κ → κ → Prop := Relation.ReflTransGen (Child children)

/-- A key, or one below it, is below itself. -/
def Cyclic (children : κ → List κ) (k : κ) : Prop :=
  ∃ b, Within children k b ∧ Relation.TransGen (Child children) b b

variable {stop : ε} {children : κ → List κ} {items : κ → List α} {fuel : Nat} {k a b c : κ} {ks names : List κ} {x : α}
  {xs : List α} {e : ε}

/-! ### One level -/

theorem descend_level (h : descend stop children items (fuel + 1) k = .ok xs) :
    ∃ g : κ → List α, (∀ c ∈ children k, descend stop children items fuel c = .ok (g c)) ∧
      xs = items k ++ (children k).flatMap g := by
  obtain ⟨below, hbelow, hxs⟩ := Mistral.bind_ok.mp h
  let g : κ → List α := fun c => (descend stop children items fuel c).toOption.getD []
  have hg : ∀ {ks : List κ} {below : List (List α)},
      List.Forall₂ (fun c ys => descend stop children items fuel c = .ok ys) ks below →
        (∀ c ∈ ks, descend stop children items fuel c = .ok (g c)) ∧ below = ks.map g := by
    intro ks below h
    induction h with
    | nil => simp
    | @cons c ys ks below hc _ ih =>
      have hgc : g c = ys := by simp [g, hc, Except.toOption]
      exact ⟨List.forall_mem_cons.mpr ⟨hgc ▸ hc, ih.1⟩, by rw [List.map_cons, hgc, ih.2]⟩
  obtain ⟨hall, rfl⟩ := hg (Mistral.mapM_ok.mp hbelow)
  cases hxs
  exact ⟨g, hall, rfl⟩

theorem descend_succ_error (h : descend stop children items (fuel + 1) k = .error e) :
    ∃ c ∈ children k, descend stop children items fuel c = .error e := by
  rw [descend] at h
  cases hm : (children k).mapM (descend stop children items fuel) with
  | error e' =>
    rw [hm] at h
    cases h
    exact Mistral.mapM_error hm
  | ok below =>
    rw [hm] at h
    cases h

/-! ### When a descent ends -/

/-- A descent is stopped if there is a chain of children as long as its fuel. -/
theorem descend_stopped_iff :
    (∃ e, descend stop children items fuel k = .error e) ↔
      ∃ ks, List.IsChain (Child children) (k :: ks) ∧ ks.length = fuel := by
  induction fuel generalizing k with
  | zero => exact ⟨fun _ => ⟨[], List.isChain_singleton k, rfl⟩, fun _ => ⟨stop, rfl⟩⟩
  | succ fuel ih =>
    constructor
    · rintro ⟨e, he⟩
      obtain ⟨c, hc, hce⟩ := descend_succ_error he
      obtain ⟨ks, hks, rfl⟩ := ih.mp ⟨e, hce⟩
      exact ⟨c :: ks, List.isChain_cons_cons.mpr ⟨hc, hks⟩, rfl⟩
    · rintro ⟨ks, hks, hlen⟩
      cases ks with
      | nil => cases hlen
      | cons c ks =>
        obtain ⟨hc, hks⟩ := List.isChain_cons_cons.mp hks
        obtain ⟨e, he⟩ := ih.mpr ⟨ks, hks, Nat.succ.inj hlen⟩
        cases hd : descend stop children items (fuel + 1) k with
        | error e' => exact ⟨e', rfl⟩
        | ok xs =>
          obtain ⟨g, hg, -⟩ := descend_level hd
          rw [hg c hc] at he
          cases he

theorem within_of_chain (h : List.IsChain (Child children) (k :: ks)) : ∀ c ∈ k :: ks, Within children k c := by
  induction ks generalizing k with
  | nil => simp [Within, Relation.ReflTransGen.refl]
  | cons b ks ih =>
    obtain ⟨hb, hks⟩ := List.isChain_cons_cons.mp h
    refine List.forall_mem_cons.mpr ⟨.refl, fun c hc => ?_⟩
    exact Relation.ReflTransGen.head hb (ih hks c hc)

/-- No key comes twice in a chain unless a key is below itself. -/
theorem nodup_of_chain (hacyclic : ¬ Cyclic children k) (h : List.IsChain (Child children) (k :: ks)) :
    (k :: ks).Nodup := by
  have hpairs : (k :: ks).Pairwise (Relation.TransGen (Child children)) :=
    List.isChain_iff_pairwise.mp (h.imp fun _ _ => Relation.TransGen.single)
  refine List.Pairwise.imp_of_mem (fun {b c} hb _ hbc => ?_) hpairs
  rintro rfl
  exact hacyclic ⟨b, within_of_chain h b hb, hbc⟩

theorem cyclic_child (h : Cyclic children k) : ∃ c, Child children k c ∧ Cyclic children c := by
  obtain ⟨b, hwithin, hcycle⟩ := h
  rcases Relation.ReflTransGen.cases_head hwithin with rfl | ⟨c, hc, hwithin⟩
  · obtain ⟨c, hc, hback⟩ := Relation.TransGen.head'_iff.mp hcycle
    exact ⟨c, hc, k, hback, hcycle⟩
  · exact ⟨c, hc, b, hwithin, hcycle⟩

/-- From above a cycle, chains are as long as one likes. -/
theorem exists_chain_of_cyclic (h : Cyclic children k) (n : Nat) :
    ∃ ks, List.IsChain (Child children) (k :: ks) ∧ ks.length = n := by
  induction n generalizing k with
  | zero => exact ⟨[], List.isChain_singleton k, rfl⟩
  | succ n ih =>
    obtain ⟨c, hc, hcyclic⟩ := cyclic_child h
    obtain ⟨ks, hks, rfl⟩ := ih hcyclic
    exact ⟨c :: ks, List.isChain_cons_cons.mpr ⟨hc, hks⟩, rfl⟩

theorem chain_subset (hnames : ∀ a b, Child children a b → b ∈ names)
    (h : List.IsChain (Child children) (k :: ks)) : ks ⊆ names := by
  induction ks generalizing k with
  | nil => exact List.nil_subset names
  | cons b ks ih =>
    obtain ⟨hb, hks⟩ := List.isChain_cons_cons.mp h
    exact List.cons_subset.mpr ⟨hnames k b hb, ih hks⟩

/-- Where only finitely many keys are children, nothing but a cycle stops a descent that has enough fuel. -/
theorem descend_stopped_iff_cyclic (hnames : ∀ a b, Child children a b → b ∈ names) (hfuel : names.length < fuel) :
    (∃ e, descend stop children items fuel k = .error e) ↔ Cyclic children k := by
  rw [descend_stopped_iff]
  constructor
  · rintro ⟨ks, hks, rfl⟩
    by_contra hacyclic
    have hnodup := (List.nodup_cons.mp (nodup_of_chain hacyclic hks)).2
    have hle := (List.subperm_of_subset hnodup (chain_subset hnames hks)).length_le
    exact absurd hle (Nat.not_le.mpr hfuel)
  · exact fun h => exists_chain_of_cyclic h fuel

/-! ### What a descent gives -/

theorem within_iff : Within children k b ↔ b = k ∨ ∃ c, Child children k c ∧ Within children c b := by
  constructor
  · intro h
    rcases Relation.ReflTransGen.cases_head h with h | h
    · exact .inl h.symm
    · exact .inr h
  · rintro (rfl | ⟨c, hc, h⟩)
    · exact .refl
    · exact .head hc h

/-- The items of the key and of those below it. -/
theorem mem_descend (h : descend stop children items fuel k = .ok xs) :
    x ∈ xs ↔ ∃ b, Within children k b ∧ x ∈ items b := by
  induction fuel generalizing k xs with
  | zero => cases h
  | succ fuel ih =>
    obtain ⟨g, hg, rfl⟩ := descend_level h
    rw [List.mem_append, List.mem_flatMap]
    constructor
    · rintro (hx | ⟨c, hc, hx⟩)
      · exact ⟨k, .refl, hx⟩
      · obtain ⟨b, hb, hx⟩ := (ih (hg c hc)).mp hx
        exact ⟨b, .head hc hb, hx⟩
    · rintro ⟨b, hb, hx⟩
      rcases within_iff.mp hb with rfl | ⟨c, hc, hb⟩
      · exact .inl hx
      · exact .inr ⟨c, hc, (ih (hg c hc)).mpr ⟨b, hb, hx⟩⟩

/-- Of two keys above a third one, one is above the other, if each key has one parent. -/
theorem within_total (hparent : Relator.LeftUnique (Child children)) (ha : Within children a c)
    (hb : Within children b c) : Within children a b ∨ Within children b a := by
  induction ha generalizing b with
  | refl => exact .inr hb
  | @tail d c _ hdc ih =>
    rcases Relation.ReflTransGen.cases_tail hb with rfl | ⟨d', hbd, hdc'⟩
    · exact .inl (.tail ‹_› hdc)
    · rw [hparent hdc' hdc] at hbd
      exact ih hbd

/-- Nothing is below two children of a key, unless a key is below itself. -/
theorem child_unique (hparent : Relator.LeftUnique (Child children)) (hacyclic : ¬ Cyclic children k)
    (ha : Child children k a) (hb : Child children k b) (hac : Within children a c) (hbc : Within children b c) :
    a = b := by
  have apart : ∀ {a b}, Child children k a → Child children k b → Within children a b → a = b := by
    intro a b ha hb hab
    rcases Relation.ReflTransGen.cases_tail hab with h | ⟨d, had, hdb⟩
    · exact h.symm
    · rw [hparent hdb hb] at had
      exact absurd ⟨k, .refl, .head' ha had⟩ hacyclic
  rcases within_total hparent hac hbc with hab | hba
  · exact apart ha hb hab
  · exact (apart hb ha hba).symm

/-- Each item comes once, if each key has one parent and each item one key. -/
theorem nodup_descend (hparent : Relator.LeftUnique (Child children)) (hchildren : ∀ a, (children a).Nodup)
    (hitems : ∀ a, (items a).Nodup) (hkey : ∀ a b x, x ∈ items a → x ∈ items b → a = b) (hacyclic : ¬ Cyclic children k)
    (h : descend stop children items fuel k = .ok xs) : xs.Nodup := by
  induction fuel generalizing k xs with
  | zero => cases h
  | succ fuel ih =>
    obtain ⟨g, hg, rfl⟩ := descend_level h
    have hbelow : ∀ c ∈ children k, ¬ Cyclic children c := by
      rintro c hc ⟨b, hb, hcycle⟩
      exact hacyclic ⟨b, .head hc hb, hcycle⟩
    refine List.nodup_append'.mpr ⟨hitems k, List.nodup_flatMap.mpr ⟨fun c hc => ih (hbelow c hc) (hg c hc), ?_⟩, ?_⟩
    · refine (hchildren k).imp_of_mem fun {a b} ha hb hne => ?_
      change List.Disjoint _ _
      rw [List.disjoint_left]
      intro x hxa hxb
      obtain ⟨c, hac, hxc⟩ := (mem_descend (hg a ha)).mp hxa
      obtain ⟨d, hbd, hxd⟩ := (mem_descend (hg b hb)).mp hxb
      rw [hkey d c x hxd hxc] at hbd
      exact hne (child_unique hparent hacyclic ha hb hac hbd)
    · rw [List.disjoint_left]
      intro x hx hxs
      obtain ⟨c, hc, hxc⟩ := List.mem_flatMap.mp hxs
      obtain ⟨b, hcb, hxb⟩ := (mem_descend (hg c hc)).mp hxc
      rw [hkey b k x hxb hx] at hcb
      exact hacyclic ⟨k, .refl, .head' hc hcb⟩

end Descents
