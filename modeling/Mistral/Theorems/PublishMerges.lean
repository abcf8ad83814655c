import Mistral.Lang.PublishSections
import Mathlib.Data.List.Chain
import Mathlib.Tactic.FinCases

/-! What `get_publish` keeps of the publish sections that it merges, and whether calls change what later calls return. -/

namespace Mistral
namespace TaskPublishing

section
variable (t : TaskPublishing)

/-- The sections that apply to a state: the one that is returned, and those that are merged into it one by one. -/
def sections (state : State) : List PublishSection :=
  match onClause state with
  | none => []
  | some clause => (if t.has clause then [clause] else []) ++ (t.taskSection state).toList ++
      if t.has .onComplete then [.onComplete] else []

/-- The section declares a variable in a scope. -/
def Declares (s : PublishSection) (scope var : String) : Prop := ((t.data s).node? [scope, var]).isSome

def hasScope (s : PublishSection) (scope : String) : Bool := ((t.data s).lookup scope).isSome

/-- Each variable of each section is there, in its scope. -/
def KeepsVariables (state : State) : Prop :=
  ∃ spec, (t.getPublish state t.fresh).1 = .ok spec ∧ ∀ s ∈ t.sections state, ∀ scope var, t.Declares s scope var →
    ∃ s' ∈ spec, ((t.getPublish state t.fresh).2.node? s' [] [scope, var]).isSome

/-- Calls before do not change what a call returns. -/
def Repeatable (state : State) : Prop := ∀ calls, t.published state (t.after calls) = t.published state t.fresh

/-- A section that is merged into one without one of its scopes has variables in this scope that are declared before. -/
def ScopesReach (state : State) : Prop :=
  ∀ s ∈ t.sections state, ∀ scope var, t.Declares s scope var →
    ∃ s' ∈ (t.sections state).takeWhile (t.hasScope · scope), t.Declares s' scope var

end

section
variable {t : TaskPublishing} {h h₁ h₂ : Heap PublishSection} {l r s n : PublishSection} {scope : String}
  {owners : PublishSection → Prop} {q : Place} {k : String} {state : State}

/-! ### One scope -/

theorem data_lookup (t : TaskPublishing) (s : PublishSection) (scope : String) :
    (t.data s).lookup scope = none ∨ scope ∈ publishScopes ∧ ∃ d, (t.data s).lookup scope = some (.dict d) := by
  have hscopes : ∀ s : PublishScopes,
      s.data.lookup scope = none ∨ scope ∈ publishScopes ∧ ∃ d, s.data.lookup scope = some (.dict d) := fun s => by
    obtain ⟨b, g, a⟩ := s
    by_cases hb : scope = "branch"
    · subst hb
      cases b <;> cases g <;> cases a <;> simp [PublishScopes.data, publishScopes, List.lookup_cons, List.lookup_nil]
    by_cases hg : scope = "global"
    · subst hg
      cases b <;> cases g <;> cases a <;> simp [PublishScopes.data, publishScopes, List.lookup_cons, List.lookup_nil]
    by_cases ha : scope = "atomic"
    · subst ha
      cases b <;> cases g <;> cases a <;> simp [PublishScopes.data, publishScopes, List.lookup_cons, List.lookup_nil]
    have hb' : (scope == "branch") = false := beq_eq_false_iff_ne.mpr hb
    have hg' : (scope == "global") = false := beq_eq_false_iff_ne.mpr hg
    have ha' : (scope == "atomic") = false := beq_eq_false_iff_ne.mpr ha
    left
    cases b <;> cases g <;> cases a <;> simp [PublishScopes.data, List.lookup_cons, List.lookup_nil, hb', hg', ha']
  cases s <;> exact hscopes _

/-- The scopes of the sections, which no call changes. -/
def Roots (t : TaskPublishing) (h : Heap PublishSection) : Prop :=
  ∀ s scope, h.get s [] scope = if t.hasScope s scope then some (.dict s) else none

theorem roots_fresh : Roots t t.fresh := fun s scope => by
  rw [fresh, Heap.get_ofTrees, Dict.below, hasScope]
  rcases data_lookup t s scope with hnone | ⟨-, d, hd⟩
  · rw [hnone]
    rfl
  · rw [hd]
    rfl

theorem mem_of_hasScope (h : t.hasScope s scope) : scope ∈ publishScopes := by
  rcases data_lookup t s scope with hnone | ⟨hmem, -⟩
  · rw [hasScope, hnone] at h
    cases h
  · exact hmem

/-- A scope is merged where both sections have it. -/
theorem mergeScope_eq (hroots : Roots t h) (l r : PublishSection) (scope : String) : t.mergeScope l r h scope =
    if t.hasScope l scope ∧ t.hasScope r scope then h.mergeAt (fun _ => true) t.depth [scope] l r else h := by
  have hempty : ∀ depth, (h.entries r [scope]).entries.isEmpty → h.mergeAt (fun _ => true) depth [scope] l r = h :=
    fun depth hr => by
      cases depth with
      | zero => rfl
      | succ depth => rw [Heap.mergeAt, List.isEmpty_iff.mp hr, List.foldl_nil]
  rw [mergeScope, hroots, hroots]
  by_cases hl : t.hasScope l scope <;> by_cases hr : t.hasScope r scope <;> simp only [hl, hr, if_true, if_false, and_self,
    and_false, false_and, Bool.false_eq_true]
  split
  next he => exact (hempty _ he).symm
  · rfl

theorem mergeScope_keeps (hroots : Roots t h) (l r : PublishSection) (scope : String) : Roots t (t.mergeScope l r h scope) := fun s scope' => by
  rw [mergeScope_eq hroots]
  split
  · rw [(Heap.local_mergeAt (fun _ => true) t.depth).frame s [] scope' (fun h => List.cons_ne_nil _ _ (List.prefix_nil.mp h)), hroots]
  · exact hroots s scope'

/-! ### All scopes -/

theorem roots_foldl (hroots : Roots t h) (scopes : List String) : Roots t (scopes.foldl (t.mergeScope l r) h) := by
  induction scopes generalizing h with
  | nil => exact hroots
  | cons scope scopes ih => exact ih (mergeScope_keeps hroots l r scope)

theorem roots_merge (hroots : Roots t h) : Roots t (t.merge l r h) := roots_foldl hroots publishScopes

theorem agreeBelow_of_ne (hroots : Roots t h) (l r : PublishSection) {scope' : String} (hne : scope ≠ scope') :
    Heap.AgreeBelow [scope'] (t.mergeScope l r h scope) h := fun n q k => by
  rw [mergeScope_eq hroots]
  split
  · refine (Heap.local_mergeAt (fun _ => true) t.depth).frame n _ k fun hpre => ?_
    exact hne (List.cons_prefix_cons.mp hpre).1
  · rfl

theorem agreeBelow_foldl (hroots : Roots t h) {scopes : List String} (hnodup : scopes.Nodup) :
    Heap.AgreeBelow [scope] (scopes.foldl (t.mergeScope l r) h) (if scope ∈ scopes then t.mergeScope l r h scope else h) := by
  induction scopes generalizing h with
  | nil => exact fun _ _ _ => rfl
  | cons scope' scopes ih =>
    obtain ⟨hnot, hnodup⟩ := List.nodup_cons.mp hnodup
    have hfoldl := ih (mergeScope_keeps hroots l r scope') hnodup
    intro n q k
    rw [List.foldl_cons, hfoldl n q k]
    by_cases hs : scope = scope'
    · subst hs
      rw [if_neg hnot, if_pos List.mem_cons_self]
    · have hagree := agreeBelow_of_ne hroots l r (Ne.symm hs)
      by_cases hmem : scope ∈ scopes
      · rw [if_pos hmem, if_pos (List.mem_cons_of_mem _ hmem), mergeScope_eq (mergeScope_keeps hroots l r scope') l r scope,
          mergeScope_eq hroots l r scope]
        split
        · exact (Heap.local_mergeAt (fun _ => true) t.depth).agree (l := l) (r := r) hagree n q k
        · exact hagree n q k
      · rw [if_neg hmem, if_neg fun h => (List.mem_cons.mp h).elim hs hmem]
        exact hagree n q k

/-- What a merge does below a scope. -/
theorem agreeBelow_merge (hroots : Roots t h) (l r : PublishSection) (scope : String) : Heap.AgreeBelow [scope] (t.merge l r h)
    (if t.hasScope l scope ∧ t.hasScope r scope then h.mergeAt (fun _ => true) t.depth [scope] l r else h) := fun n q k => by
  rw [merge, agreeBelow_foldl hroots (by decide) n q k]
  split
  · rw [mergeScope_eq hroots]
  next hmem => rw [if_neg fun h => hmem (mem_of_hasScope h.1)]

/-- The dictionaries of a section are at the root, or below a scope. -/
theorem get_merge (hroots : Roots t h) (n : PublishSection) (q : Place) (k : String) :
    (t.merge l r h).get n q k = h.get n q k ∨
      ∃ scope, t.hasScope l scope ∧ t.hasScope r scope ∧
        ∀ h', Roots t h' → (t.merge l r h').get n q k = (h'.mergeAt (fun _ => true) t.depth [scope] l r).get n q k := by
  cases q with
  | nil => exact .inl ((roots_merge hroots n k).trans (hroots n k).symm)
  | cons scope q =>
    by_cases hboth : t.hasScope l scope ∧ t.hasScope r scope
    · refine .inr ⟨scope, hboth.1, hboth.2, fun h' hroots' => ?_⟩
      have hagree := agreeBelow_merge hroots' l r scope n q k
      rwa [if_pos hboth] at hagree
    · left
      have hagree := agreeBelow_merge hroots l r scope n q k
      rwa [if_neg hboth] at hagree

theorem closed_merge (hroots : Roots t h) (hclosed : h.Closed owners) (hl : owners l) (hr : owners r) :
    (t.merge l r h).Closed owners := fun n q k m hn hget => by
  rcases get_merge (l := l) (r := r) hroots n q k with heq | ⟨scope, -, -, heq⟩
  · exact hclosed n q k m hn (heq ▸ hget)
  · rw [heq h hroots] at hget
    exact hclosed.mergeAt hl hr n q k m hn hget

/-- A merge into a section that shares nothing changes this section only. -/
theorem get_merge_of_closed (hroots : Roots t h) (hclosed : h.Closed owners) (hl : owners l) (hn : ¬owners n) :
    (t.merge l r h).get n q k = h.get n q k := by
  rcases get_merge (l := l) (r := r) hroots n q k with heq | ⟨scope, -, -, heq⟩
  · exact heq
  · rw [heq h hroots]
    exact Heap.get_mergeAt_of_closed hclosed hl hn

theorem sameOn_merge (hroots₁ : Roots t h₁) (hroots₂ : Roots t h₂) (hsame : Heap.SameOn owners h₁ h₂) (hclosed : h₁.Closed owners)
    (hl : owners l) (hr : owners r) : Heap.SameOn owners (t.merge l r h₁) (t.merge l r h₂) := fun n hn q k => by
  cases q with
  | nil => rw [roots_merge hroots₁, roots_merge hroots₂]
  | cons scope q =>
    have h₁m := agreeBelow_merge hroots₁ l r scope n q k
    have h₂m := agreeBelow_merge hroots₂ l r scope n q k
    rw [List.singleton_append] at h₁m h₂m
    rw [h₁m, h₂m]
    split
    · exact hsame.mergeAt hclosed hl hr n hn _ k
    · exact hsame n hn _ k

/-- Each scope of both sections has been merged. -/
def Includes (t : TaskPublishing) (h : Heap PublishSection) (l r : PublishSection) : Prop :=
  ∀ scope, t.hasScope l scope → t.hasScope r scope → h.Contains [scope] l r

/-- A merge of what was merged before changes nothing. -/
theorem get_merge_of_includes (hroots : Roots t h) (hinc : Includes t h l r) : (t.merge l r h).get n q k = h.get n q k := by
  rcases get_merge (l := l) (r := r) hroots n q k with heq | ⟨scope, hl, hr, heq⟩
  · exact heq
  · rw [heq h hroots]
    exact Heap.get_mergeAt_of_contains (hinc scope hl hr)

/-- No section is deeper than the objects were at first. -/
def Shallow (t : TaskPublishing) (h : Heap PublishSection) (s : PublishSection) : Prop :=
  ∀ scope q x, t.hasScope s scope → h.node? s [scope] q = some x → q.length ≤ t.depth

theorem includes_merge (hroots : Roots t h) (hdeep : Shallow t h r) : Includes t (t.merge l r h) l r := fun scope hl hr q x hx => by
  have hagree := agreeBelow_merge hroots l r scope
  rw [if_pos ⟨hl, hr⟩] at hagree
  rw [hagree.node?] at hx ⊢
  rw [Heap.node?_mergeAt_right] at hx
  exact Heap.node?_mergeAt_of_some (hdeep scope q x hr hx) hx

/-! ### Sections merged one after another -/

theorem shallow_fresh : Shallow t t.fresh s := fun scope q x hscope hx => by
  have hdepth : (t.data s).depth ≤ t.depth := by
    cases s <;> simp only [depth, List.map, List.foldl] <;> omega
  have hholds := @Heap.holds_ofTrees _ t.data s [] (scope :: q)
  rw [show (Heap.ofTrees t.data).node? s [] (scope :: q) = t.fresh.node? s [] (scope :: q) from rfl,
    Heap.node?_of_dict (m := s) (by rw [roots_fresh, hscope]; rfl)] at hholds
  have hlength := Dict.length_le_depth (hholds.symm.trans hx)
  exact Nat.le_trans (Nat.le_of_succ_le hlength) hdepth

theorem shallow_merge (hroots : Roots t h) (hl : Shallow t h l) (hr : Shallow t h r) : Shallow t (t.merge l r h) l :=
  fun scope q x hscope hx => by
    have hagree := agreeBelow_merge hroots l r scope
    rw [hagree.node?] at hx
    split at hx
    next hboth =>
      cases hnone : h.node? r [scope] q with
      | some y => exact hr scope q y hboth.2 hnone
      | none => exact hl scope q x hscope (Heap.node?_left_of_mergeAt (fun q y => hr scope q y hboth.2) hnone hx)
    · exact hl scope q x hscope hx

/-- The sections are merged from the last one to the first one. -/
def mergeChain (t : TaskPublishing) : List PublishSection → Heap PublishSection → Heap PublishSection
  | x :: y :: rest, h => t.merge x y (mergeChain t (y :: rest) h)
  | _, h => h

variable {chain : List PublishSection} {x : PublishSection}

theorem roots_mergeChain (hroots : Roots t h) : Roots t (mergeChain t chain h) := by
  induction chain with
  | nil => exact hroots
  | cons x chain ih =>
    cases chain with
    | nil => exact hroots
    | cons y rest => exact roots_merge ih

theorem closed_mergeChain (hroots : Roots t h) (hclosed : h.Closed owners) (howners : ∀ s ∈ chain, owners s) :
    (mergeChain t chain h).Closed owners := by
  induction chain with
  | nil => exact hclosed
  | cons x chain ih =>
    cases chain with
    | nil => exact hclosed
    | cons y rest =>
      obtain ⟨hx, hchain⟩ := List.forall_mem_cons.mp howners
      exact closed_merge (roots_mergeChain hroots) (ih hchain) hx (hchain y List.mem_cons_self)

theorem sameOn_mergeChain (hroots₁ : Roots t h₁) (hroots₂ : Roots t h₂) (hsame : Heap.SameOn owners h₁ h₂)
    (hclosed : h₁.Closed owners) (howners : ∀ s ∈ chain, owners s) :
    Heap.SameOn owners (mergeChain t chain h₁) (mergeChain t chain h₂) := by
  induction chain with
  | nil => exact hsame
  | cons x chain ih =>
    cases chain with
    | nil => exact hsame
    | cons y rest =>
      obtain ⟨hx, hchain⟩ := List.forall_mem_cons.mp howners
      exact sameOn_merge (roots_mergeChain hroots₁) (roots_mergeChain hroots₂) (ih hchain)
        (closed_mergeChain hroots₁ hclosed hchain) hx (hchain y List.mem_cons_self)

/-- The section shares nothing with others. -/
def Alone (h : Heap PublishSection) (s : PublishSection) : Prop := h.Closed fun n => n = s

theorem alone_of_sameOn (hsame : ∀ q k, h₁.get s q k = h₂.get s q k) (halone : Alone h₂ s) : Alone h₁ s := by
  rintro n q k m rfl hget
  exact halone n q k m rfl (hsame q k ▸ hget)

/-- Only sections that others are merged into change. -/
theorem get_mergeChain (hroots : Roots t h) (hnodup : chain.Nodup) (halone : ∀ s ∈ chain, Alone h s) (hn : n ∉ chain.dropLast) :
    (mergeChain t chain h).get n q k = h.get n q k := by
  induction chain generalizing n q k with
  | nil => rfl
  | cons x chain ih =>
    cases chain with
    | nil => rfl
    | cons y rest =>
      obtain ⟨hx, hnodup⟩ := List.nodup_cons.mp hnodup
      obtain ⟨hxalone, halone⟩ := List.forall_mem_cons.mp halone
      rw [List.dropLast_cons_cons, List.mem_cons, not_or] at hn
      have hxsame : ∀ q k, (mergeChain t (y :: rest) h).get x q k = h.get x q k := fun q k =>
        ih hnodup halone fun hmem => hx ((List.dropLast_sublist _).subset hmem)
      rw [mergeChain, get_merge_of_closed (roots_mergeChain hroots) (alone_of_sameOn hxsame hxalone) rfl hn.1]
      exact ih hnodup halone hn.2

theorem node?_alone (halone : Alone h s) (hsame : ∀ q k, h₁.get s q k = h.get s q k) {p : Place} {q : List String} :
    h₁.node? s p q = h.node? s p q := by
  have hsame' : Heap.SameOn (fun n => n = s) h h₁ := fun n hn q k => by
    rw [hn]
    exact (hsame q k).symm
  exact (hsame'.node? halone rfl).symm

theorem shallow_mergeChain (hroots : Roots t h) (hnodup : (x :: chain).Nodup) (halone : ∀ s ∈ x :: chain, Alone h s)
    (hdeep : ∀ s ∈ x :: chain, Shallow t h s) : Shallow t (mergeChain t (x :: chain) h) x := by
  induction chain generalizing x with
  | nil => exact hdeep x List.mem_cons_self
  | cons y rest ih =>
    obtain ⟨hx, hnodup'⟩ := List.nodup_cons.mp hnodup
    obtain ⟨hxalone, halone'⟩ := List.forall_mem_cons.mp halone
    obtain ⟨hxdeep, hdeep'⟩ := List.forall_mem_cons.mp hdeep
    have hxsame : ∀ q k, (mergeChain t (y :: rest) h).get x q k = h.get x q k := fun q k =>
      get_mergeChain hroots hnodup' halone' fun hmem => hx ((List.dropLast_sublist _).subset hmem)
    refine shallow_merge (roots_mergeChain hroots) (fun scope q z hscope hz => ?_) (ih hnodup' halone' hdeep')
    rw [node?_alone hxalone hxsame] at hz
    exact hxdeep scope q z hscope hz

theorem closed_of_alone (halone : ∀ s ∈ chain, Alone h s) : h.Closed (· ∈ chain) := fun n q k m hn hget => by
  obtain rfl : m = n := halone n hn n q k m rfl hget
  exact hn

/-- What sections include depends on them only. -/
theorem includes_of_sameOn (hsame : Heap.SameOn owners h₁ h₂) (hclosed : h₁.Closed owners) (hl : owners l) (hr : owners r)
    (hinc : Includes t h₁ l r) : Includes t h₂ l r := fun scope hlscope hrscope q x hx => by
  rw [← hsame.node? hclosed hr] at hx
  rw [← hsame.node? hclosed hl]
  exact hinc scope hlscope hrscope q x hx

theorem isChain_of_sameOn (hsame : Heap.SameOn owners h₁ h₂) (hclosed : h₁.Closed owners) (howners : ∀ s ∈ chain, owners s)
    (hinc : chain.IsChain (Includes t h₁)) : chain.IsChain (Includes t h₂) :=
  hinc.imp_of_mem_imp fun _ _ hl hr => includes_of_sameOn hsame hclosed (howners _ hl) (howners _ hr)

/-- After a chain of merges, each section includes the one that was merged into it. -/
theorem includes_mergeChain (hroots : Roots t h) (hnodup : chain.Nodup) (halone : ∀ s ∈ chain, Alone h s)
    (hdeep : ∀ s ∈ chain, Shallow t h s) : chain.IsChain (Includes t (mergeChain t chain h)) := by
  induction chain with
  | nil => exact .nil
  | cons x chain ih =>
    cases chain with
    | nil => exact .singleton x
    | cons y rest =>
      obtain ⟨hx, hnodup'⟩ := List.nodup_cons.mp hnodup
      obtain ⟨hxalone, halone'⟩ := List.forall_mem_cons.mp halone
      obtain ⟨-, hdeep'⟩ := List.forall_mem_cons.mp hdeep
      have hroots' : Roots t (mergeChain t (y :: rest) h) := roots_mergeChain hroots
      have hxsame : ∀ q k, (mergeChain t (y :: rest) h).get x q k = h.get x q k := fun q k =>
        get_mergeChain hroots hnodup' halone' fun hmem => hx ((List.dropLast_sublist _).subset hmem)
      have hsame : Heap.SameOn (· ∈ y :: rest) (mergeChain t (y :: rest) h) (mergeChain t (x :: y :: rest) h) :=
        fun n hn q k => (get_merge_of_closed hroots' (alone_of_sameOn hxsame hxalone) rfl fun heq => hx (heq ▸ hn)).symm
      refine List.isChain_cons_cons.mpr ⟨includes_merge hroots' (shallow_mergeChain hroots hnodup' halone' hdeep'), ?_⟩
      exact isChain_of_sameOn hsame (closed_mergeChain hroots (closed_of_alone halone') fun s hs => hs) (fun s hs => hs)
        (ih hnodup' halone' hdeep')

/-- Merging a chain again changes nothing. -/
theorem get_mergeChain_of_includes (hroots : Roots t h) (hinc : chain.IsChain (Includes t h)) :
    (mergeChain t chain h).get n q k = h.get n q k := by
  induction chain generalizing n q k with
  | nil => rfl
  | cons x chain ih =>
    cases chain with
    | nil => rfl
    | cons y rest =>
      obtain ⟨hxy, hinc⟩ := List.isChain_cons_cons.mp hinc
      have hsame : Heap.SameOn (fun _ => True) h (mergeChain t (y :: rest) h) := fun n _ q k => (ih hinc).symm
      have hxy' := includes_of_sameOn hsame (fun _ _ _ _ _ _ => trivial) trivial trivial hxy
      rw [mergeChain, get_merge_of_includes (roots_mergeChain hroots) hxy']
      exact ih hinc

/-! ### Calls -/

theorem sections_nodup (t : TaskPublishing) (state : State) : (t.sections state).Nodup := by
  unfold sections taskSection onClause
  cases state <;> simp only [List.nodup_nil] <;> split_ifs <;> decide

/-- A call merges the sections of the state. -/
theorem getPublish_eq {clause : PublishSection} (hclause : onClause state = some clause) :
    t.getPublish state h = (.ok (t.sections state).head?, mergeChain t (t.sections state) h) := by
  unfold getPublish sections mergeOnComplete
  rw [hclause]
  cases t.taskSection state <;> cases t.has .onComplete <;> cases hc : t.has clause <;>
    simp [mergeChain, hc]

theorem getPublish_none (hclause : onClause state = none) : t.getPublish state h = (.error .unboundLocalError, h) := by
  have htask : t.taskSection state = none := by
    cases state <;> first | rfl | cases hclause
  unfold getPublish mergeOnComplete
  rw [htask, hclause]
  cases t.has .onComplete <;> rfl

theorem alone_fresh : Alone t.fresh s := by
  rintro n q k m rfl hget
  exact Heap.owner_ofTrees hget

/-- The objects after one call on a fresh specification. -/
def afterOne (t : TaskPublishing) (state : State) : Heap PublishSection := mergeChain t (t.sections state) t.fresh

/-- The sections of each state are as they were at first, or as they are after one call. -/
structure Called (t : TaskPublishing) (h : Heap PublishSection) : Prop where
  roots : Roots t h
  sections : ∀ state, Heap.SameOn (· ∈ t.sections state) h t.fresh ∨ Heap.SameOn (· ∈ t.sections state) h (t.afterOne state)

theorem closed_fresh : t.fresh.Closed (· ∈ t.sections state) := closed_of_alone fun _ _ => alone_fresh

theorem closed_afterOne : (t.afterOne state).Closed (· ∈ t.sections state) :=
  closed_mergeChain roots_fresh closed_fresh fun _ hs => hs

theorem roots_afterOne : Roots t (t.afterOne state) := roots_mergeChain roots_fresh

theorem includes_afterOne : (t.sections state).IsChain (Includes t (t.afterOne state)) :=
  includes_mergeChain roots_fresh (sections_nodup t state) (fun _ _ => alone_fresh) fun _ _ => shallow_fresh

theorem closed_of_sameOn (hsame : Heap.SameOn owners h₁ h₂) (hclosed : h₂.Closed owners) : h₁.Closed owners :=
  fun n q k m hn hget => hclosed n q k m hn (hsame n hn q k ▸ hget)

theorem Called.closed (hc : Called t h) : h.Closed (· ∈ t.sections state) := by
  rcases hc.sections state with hsame | hsame
  · exact closed_of_sameOn hsame closed_fresh
  · exact closed_of_sameOn hsame closed_afterOne

/-- After a call, the sections of its state are as they are after one call on a fresh specification. -/
theorem Called.sameOn (hc : Called t h) : Heap.SameOn (· ∈ t.sections state) (mergeChain t (t.sections state) h) (t.afterOne state) := by
  rcases hc.sections state with hsame | hsame
  · exact sameOn_mergeChain hc.roots roots_fresh hsame hc.closed fun _ hs => hs
  · intro n hn q k
    rw [sameOn_mergeChain hc.roots roots_afterOne hsame hc.closed (fun _ hs => hs) n hn q k]
    exact get_mergeChain_of_includes roots_afterOne includes_afterOne

/-- A call changes the sections that others are merged into only. -/
theorem Called.get_eq (hc : Called t h) (hn : n ∉ (t.sections state).dropLast) :
    (mergeChain t (t.sections state) h).get n q k = h.get n q k := by
  rcases hc.sections state with hsame | hsame
  · exact get_mergeChain hc.roots (sections_nodup t state)
      (fun s hs => alone_of_sameOn (hsame s hs) alone_fresh) hn
  · have hinc : (t.sections state).IsChain (Includes t h) :=
      isChain_of_sameOn (fun n hn q k => (hsame n hn q k).symm) closed_afterOne (fun _ hs => hs) includes_afterOne
    exact get_mergeChain_of_includes hc.roots hinc

/-- The state that a section is for. -/
def stateOf : PublishSection → Option State
  | .publish | .onSuccess => some .success
  | .publishOnError | .onError => some .error
  | .publishOnSkip | .onSkip => some .skipped
  | .onComplete => none

theorem stateOf_of_mem (hs : s ∈ t.sections state) : s = .onComplete ∨ stateOf s = some state := by
  unfold sections taskSection onClause at hs
  cases state <;> simp only [List.mem_append, List.mem_ite_nil_right, Option.mem_toList, List.mem_singleton, List.not_mem_nil,
    Option.ite_none_right_eq_some, Option.some.injEq] at hs
  all_goals
    rcases hs with (⟨-, rfl⟩ | ⟨-, rfl⟩) | ⟨-, rfl⟩
    · exact .inr rfl
    · exact .inr rfl
    · exact .inl rfl

theorem onComplete_not_mem_dropLast : .onComplete ∉ (t.sections state).dropLast := by
  unfold sections taskSection onClause
  cases state <;> simp only [List.dropLast_nil, List.not_mem_nil, not_false_eq_true] <;> split_ifs <;> decide

/-- The sections of another state are no part of those that a call changes. -/
theorem not_mem_dropLast {state' : State} (hne : state ≠ state') (hs : s ∈ t.sections state') :
    s ∉ (t.sections state).dropLast := fun hmem => by
  rcases stateOf_of_mem hs with rfl | hs
  · exact onComplete_not_mem_dropLast hmem
  · rcases stateOf_of_mem ((List.dropLast_sublist _).subset hmem) with rfl | hs'
    · exact onComplete_not_mem_dropLast hmem
    · exact hne (Option.some.inj (hs'.symm.trans hs))

theorem called_fresh : Called t t.fresh := ⟨roots_fresh, fun _ => .inl fun _ _ _ _ => rfl⟩

theorem Called.call (hc : Called t h) : Called t (t.getPublish state h).2 := by
  cases hclause : onClause state with
  | none =>
    rw [getPublish_none hclause]
    exact hc
  | some clause =>
    rw [getPublish_eq hclause]
    refine ⟨roots_mergeChain hc.roots, fun state' => ?_⟩
    by_cases hstate : state = state'
    · subst hstate
      exact .inr hc.sameOn
    · have hsame : ∀ n ∈ t.sections state', ∀ q k, (mergeChain t (t.sections state) h).get n q k = h.get n q k :=
        fun n hn q k => hc.get_eq (not_mem_dropLast hstate hn)
      rcases hc.sections state' with hsame' | hsame'
      · exact .inl fun n hn q k => (hsame n hn q k).trans (hsame' n hn q k)
      · exact .inr fun n hn q k => (hsame n hn q k).trans (hsame' n hn q k)

theorem called_after (calls : List State) : Called t (t.after calls) := by
  unfold after
  have hfoldl : ∀ h, Called t h → Called t (calls.foldl (fun h state => (t.getPublish state h).2) h) := by
    induction calls with
    | nil => exact fun h hc => hc
    | cons state calls ih => exact fun h hc => ih _ hc.call
  exact hfoldl _ called_fresh

/-- What a call returns does not depend on the calls before. -/
theorem repeatable (t : TaskPublishing) (state : State) : t.Repeatable state := fun calls => by
  cases hclause : onClause state with
  | none =>
    unfold published
    rw [getPublish_none hclause, getPublish_none hclause]
    rfl
  | some clause =>
    unfold published
    rw [getPublish_eq hclause, getPublish_eq hclause]
    simp only [Except.map]
    cases hhead : (t.sections state).head? with
    | none => rfl
    | some s =>
      have hmem : s ∈ t.sections state := List.mem_of_head? hhead
      have hc := called_after (t := t) calls
      simp only [Option.map_some]
      congr 2
      funext q
      exact hc.sameOn.node? (closed_mergeChain hc.roots hc.closed fun _ hs => hs) hmem

/-! ### Variables -/

theorem isSome_fresh {var : String} : (t.fresh.node? s [] [scope, var]).isSome ↔ t.Declares s scope var := by
  have hholds : t.fresh.node? s [] [scope, var] = (t.data s).node? [scope, var] :=
    Heap.holds_ofTrees (n := s) (p := []) [scope, var]
  rw [Declares, hholds]

theorem hasScope_of_declares {var : String} (hd : t.Declares s scope var) : t.hasScope s scope := by
  rw [Declares, Dict.node?_cons] at hd
  rw [hasScope]
  cases hlookup : (t.data s).lookup scope with
  | none => rw [hlookup] at hd; cases hd
  | some v => rfl

theorem node?_root {var : String} (hroots : Roots t h) (hs : t.hasScope s scope) :
    h.node? s [] [scope, var] = h.node? s [scope] [var] :=
  Heap.node?_of_dict (by rw [hroots, hs]; rfl)

theorem node?_root_none {var : String} (hroots : Roots t h) (hs : ¬t.hasScope s scope) : h.node? s [] [scope, var] = none := by
  rw [Heap.node?, hroots, if_neg hs]

/-- The first section of a chain gets the variables of the sections that have the scope, up to the first one that has
    not. -/
theorem isSome_mergeChain {var : String} (hnodup : (x :: chain).Nodup) :
    ((mergeChain t (x :: chain) t.fresh).node? x [] [scope, var]).isSome ↔
      ∃ s ∈ (x :: chain).takeWhile (t.hasScope · scope), t.Declares s scope var := by
  induction chain generalizing x with
  | nil =>
    rw [show mergeChain t [x] t.fresh = t.fresh from rfl, isSome_fresh, List.takeWhile_cons, List.takeWhile_nil]
    split
    next => simp
    next hx => simpa using fun hd => hx (hasScope_of_declares hd)
  | cons y rest ih =>
    obtain ⟨hx, hnodup'⟩ := List.nodup_cons.mp hnodup
    have hroots' : Roots t (mergeChain t (y :: rest) t.fresh) := roots_mergeChain roots_fresh
    by_cases hxscope : t.hasScope x scope
    · have hxsame : ∀ q k, (mergeChain t (y :: rest) t.fresh).get x q k = t.fresh.get x q k := fun q k =>
        get_mergeChain roots_fresh hnodup' (fun _ _ => alone_fresh) fun hmem => hx ((List.dropLast_sublist _).subset hmem)
      have hagree := agreeBelow_merge hroots' x y scope
      have hxfresh : ((mergeChain t (y :: rest) t.fresh).node? x [scope] [var]).isSome ↔ t.Declares x scope var := by
        rw [node?_alone alone_fresh hxsame, ← node?_root roots_fresh hxscope, isSome_fresh]
      rw [List.takeWhile_cons, if_pos hxscope, mergeChain, node?_root (roots_merge hroots') hxscope, hagree.node?]
      by_cases hyscope : t.hasScope y scope
      · have hdeep := shallow_mergeChain (t := t) roots_fresh hnodup' (fun _ _ => alone_fresh) fun _ _ => shallow_fresh
        rw [if_pos ⟨hxscope, hyscope⟩, Heap.isSome_node?_mergeAt fun q y => hdeep scope q y hyscope, hxfresh,
          ← node?_root hroots' hyscope, ih hnodup']
        simp
      · rw [if_neg fun h => hyscope h.2, hxfresh, List.takeWhile_cons, if_neg hyscope]
        simp
    · rw [mergeChain, node?_root_none (roots_merge hroots') hxscope, List.takeWhile_cons, if_neg hxscope]
      simp

theorem keepsVariables_iff : t.KeepsVariables state ↔ onClause state ≠ none ∧ t.ScopesReach state := by
  cases hclause : onClause state with
  | none =>
    refine iff_of_false (fun h => ?_) fun h => h.1 rfl
    obtain ⟨spec, hspec, -⟩ := h
    rw [getPublish_none hclause] at hspec
    cases hspec
  | some clause =>
    rw [KeepsVariables, getPublish_eq hclause, ScopesReach]
    simp only [Except.ok.injEq, exists_eq_left', ne_eq, reduceCtorEq, not_false_eq_true, true_and]
    have hnodup := sections_nodup t state
    cases hsections : t.sections state with
    | nil => exact iff_of_true (fun s hs => absurd hs List.not_mem_nil) fun s hs => absurd hs List.not_mem_nil
    | cons x chain =>
      rw [hsections] at hnodup
      refine forall₂_congr fun s _ => forall₃_congr fun scope var _ => ?_
      simp only [List.head?_cons, Option.mem_def, Option.some.injEq, exists_eq_left']
      exact isSome_mergeChain hnodup

end

/-- `get_publish` keeps the variables of all sections, and returns the same again, if and only if the task has
    succeeded, failed or was skipped and no section with further variables is merged into one without their scope. -/
theorem publish_merged_iff (t : TaskPublishing) (state : State) : t.KeepsVariables state ∧ t.Repeatable state ↔
    state ∈ [State.success, .error, .skipped] ∧ t.ScopesReach state := by
  rw [and_iff_left (repeatable t state), keepsVariables_iff]
  refine and_congr_left fun _ => ?_
  cases state <;> decide

/-- The task publishes one variable to its branch, and another one for all workflow tasks when it succeeds. -/
def globalOnSuccess : TaskPublishing where
  publish := [("a", .value "1")]
  onSuccess := some { global := some [("b", .value "2")] }

theorem branch_variable_lost : ¬globalOnSuccess.KeepsVariables .success := by
  rintro ⟨spec, hspec, hkeeps⟩
  obtain rfl : some .onSuccess = spec := Except.ok.inj hspec
  obtain ⟨s, hs, hnode⟩ := hkeeps .publish (by decide) "branch" "a" rfl
  cases hs
  revert hnode
  decide

end TaskPublishing
end Mistral
