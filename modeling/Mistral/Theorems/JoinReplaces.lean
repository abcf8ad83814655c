import Mistral.Workflow.SharedContexts

/-! What a join gets for a variable that one of its upstream executions has published, where the strategy is to replace. -/

def Json.node : Json → Node
  | .dict _ => .dict
  | .value x => .value x

theorem Dict.node?_concat (d : Dict) (q : List String) (k : String) :
    d.node? (q ++ [k]) = ((d.below q).lookup k).map Json.node := by
  induction q generalizing d with
  | nil =>
    rw [List.nil_append, node?_cons, below]
    cases d.lookup k with
    | none => rfl
    | some v => cases v <;> rfl
  | cons k' q ih =>
    rw [List.cons_append, node?_cons, below]
    cases d.lookup k' with
    | none => rfl
    | some v =>
      cases v with
      | dict e => exact ih e
      | value x => cases q <;> rfl

namespace Mistral
namespace Contexts
variable {τ : Type} {conf : DataFlowConf} {depth : Nat} {rows : τ → ContextRow} {layers : String → Dict}
  {s : Contexts τ} {x : String} {t p : τ} {ts done : List τ} {published ctx : Holder τ}

/-- The tree of a holder. -/
def tree (rows : τ → ContextRow) (layers : String → Dict) : Holder τ → Dict
  | .inContext t => (rows t).inContext
  | .published t => (rows t).published
  | .layer name => layers name
  | .new _ => []

theorem loaded_heap : (loaded rows layers : Contexts τ).heap = .ofTrees (tree rows layers) := by
  rw [loaded]
  congr 1

/-- What is under a key of a row that was loaded. -/
theorem node_loaded (rows : τ → ContextRow) (layers : String → Dict) (n : Holder τ) (q : Place) (k : String) :
    ((loaded rows layers).heap.get n q k).map Slot.node = (tree rows layers n).node? (q ++ [k]) := by
  rw [loaded_heap, Heap.get_ofTrees, Dict.node?_concat, Option.map_map]
  congr 1
  funext v
  cases v <;> rfl

/-! ### One upstream execution -/

section
variable [DecidableEq τ]

/-- The variable `x` after one upstream execution, where it has nothing to merge into the published variables. -/
structure Round (depth : Nat) (x : String) (published ctx : Holder τ) (s : Contexts τ) (t : τ) (s' : Contexts τ) : Prop where
  next : s.next ≤ s'.next
  fresh : ∀ n, s'.next ≤ n → s'.heap.get (.new n) [] x = none
  publishedVars : s'.heap.get published [] x = (s.heap.get published [] x).or (s.heap.get (.published t) [] x)
  context : s'.heap.get ctx [] x = Heap.mergeSlot true (s.heap.get ctx [] x)
    ((s.heap.get (.published t) [] x).or (s.heap.get (.inContext t) [] x))
  inContexts : ∀ u, u ≠ t → s'.heap.get (.inContext u) [] x = s.heap.get (.inContext u) [] x
  publisheds : ∀ u, s'.heap.get (.published u) [] x = s.heap.get (.published u) [] x
  merged : ∀ a b, s.heap.get ctx [] x = some (.dict a) →
    (s.heap.get (.published t) [] x).or (s.heap.get (.inContext t) [] x) = some (.dict b) →
    Heap.AgreeBelow [x] s'.heap (s.heap.mergeAt (fun _ => true) depth [x] a b)
  apart : (∀ a b, ¬(s.heap.get ctx [] x = some (.dict a) ∧
    (s.heap.get (.published t) [] x).or (s.heap.get (.inContext t) [] x) = some (.dict b))) → Heap.AgreeBelow [x] s'.heap s.heap

theorem addUpstream_round (hversioning : conf.versioning = false) (hstrategy : conf.mergeStrategy = .replace) {a b : Nat}
    (ha : a < s.next) (hb : b < s.next) (hab : a ≠ b) (hfresh : ∀ n, s.next ≤ n → s.heap.get (.new n) [] x = none)
    (hnone : s.heap.get (.new a) [] x = none ∨ s.heap.get (.published t) [] x = none) :
    Round depth x (.new a) (.new b) s t (addUpstream conf (depth + 1) (.new a) (.new b) s t) := by
  have hm₁ := Heap.merged (fun _ => true) depth s.heap [] (.new a) (.published t)
  generalize hh₁ : s.heap.mergeAt (fun _ => true) (depth + 1) [] (.new a) (.published t) = h₁ at hm₁
  have hbelow₁ : Heap.AgreeBelow [x] h₁ s.heap := hm₁.agreeBelow_apart fun c d hcd => by
    rcases hnone with hnone | hnone
    · rw [hnone] at hcd
      cases hcd.1
    · rw [hnone] at hcd
      cases hcd.2
  have hout : ∃ n m, getInContextWithVersions conf (depth + 1) t { s with heap := h₁ } = (n, { heap := h₁, next := m }) ∧
      s.next ≤ m ∧ h₁.get n [] x = s.heap.get (.inContext t) [] x ∧ (∀ k, n = .new k → k = s.next ∧ m = s.next + 1) ∧
      (∀ u, n = .inContext u → u = t) ∧ ∀ u, n ≠ .published u := by
    have hsame : h₁.get (.inContext t) [] x = s.heap.get (.inContext t) [] x := hm₁.others _ x (by rintro ⟨⟩)
    simp only [getInContextWithVersions, hversioning, Bool.not_false, if_true]
    split
    next hempty =>
      refine ⟨.new s.next, s.next + 1, rfl, Nat.le_succ _, ?_, fun k hk => ⟨(Holder.new.inj hk).symm, rfl⟩, by simp, by simp⟩
      have hempty : (h₁.entries (.inContext t) []).entries = [] := List.isEmpty_iff.mp hempty
      have hget : h₁.get (.inContext t) [] x = none := by rw [Heap.get, AList.lookup, hempty]; rfl
      rw [← hsame, hget, hm₁.others _ x fun h => Nat.lt_irrefl a (by have := Holder.new.inj h; omega)]
      exact hfresh _ (Nat.le_refl _)
    next =>
      exact ⟨.inContext t, s.next, rfl, Nat.le_refl _, hsame, by simp, fun u hu => (Holder.inContext.inj hu).symm, by simp⟩
  obtain ⟨n, m, heq, hnext, hbase, hnew, hown, hpub⟩ := hout
  have hna : n ≠ .new a := fun h => by have := (hnew a h).1; omega
  have hnb : n ≠ .new b := fun h => by have := (hnew b h).1; omega
  -- The published variables are written over the inbound context.
  have hpublished : h₁.get (.published t) [] x = s.heap.get (.published t) [] x := hm₁.others _ x (by rintro ⟨⟩)
  have hslot₂ : ∀ n', (h₁.updateAt [] n (.published t)).get n' [] x =
      if n' = n then (s.heap.get (.published t) [] x).or (s.heap.get (.inContext t) [] x) else h₁.get n' [] x := fun n' => by
    rw [Heap.get_updateAt]
    by_cases hn' : n' = n
    · subst hn'
      rw [if_pos ⟨rfl, rfl⟩, if_pos rfl, hpublished, hbase]
    · rw [if_neg fun h => hn' h.1, if_neg hn']
  have hbelow₂ : Heap.AgreeBelow [x] (h₁.updateAt [] n (.published t)) s.heap := fun n' q k => by
    rw [Heap.get_updateAt, if_neg fun h => List.cons_ne_nil _ _ h.2]
    exact hbelow₁ n' q k
  have hs' : addUpstream conf (depth + 1) (.new a) (.new b) s t =
      { heap := (h₁.updateAt [] n (.published t)).mergeAt (fun _ => true) (depth + 1) [] (.new b) n, next := m } := by
    simp only [addUpstream, evaluateTaskOutboundContext, mergeDicts, hh₁, heq, hstrategy, updateDict]
  generalize h₁.updateAt [] n (.published t) = h₂ at hslot₂ hbelow₂ hs'
  have hm₃ := Heap.merged (fun _ => true) depth h₂ [] (.new b) n
  have hkept : ∀ n', n' ≠ .new a → n' ≠ .new b → n' ≠ n →
      (h₂.mergeAt (fun _ => true) (depth + 1) [] (.new b) n).get n' [] x = s.heap.get n' [] x := fun n' hna hnb hnn => by
    rw [hm₃.others n' x hnb, hslot₂, if_neg hnn, hm₁.others n' x hna]
  have hctx : h₂.get (.new b) [] x = s.heap.get (.new b) [] x := by
    rw [hslot₂, if_neg (Ne.symm hnb), hm₁.others _ x fun h => hab (Holder.new.inj h).symm]
  have hright : h₂.get n [] x = (s.heap.get (.published t) [] x).or (s.heap.get (.inContext t) [] x) := by
    rw [hslot₂, if_pos rfl]
  rw [hs']
  refine ⟨hnext, fun k hk => ?_, ?_, ?_, fun u hu => ?_, fun u => ?_, fun c d hc hd => ?_, fun hapart => ?_⟩
  · have hk : m ≤ k := hk
    refine (hkept _ (fun h => ?_) (fun h => ?_) fun h => ?_).trans (hfresh k (Nat.le_trans hnext hk))
    · have := Holder.new.inj h
      omega
    · have := Holder.new.inj h
      omega
    · obtain ⟨rfl, rfl⟩ := hnew k h.symm
      exact Nat.not_succ_le_self _ hk
  · show (h₂.mergeAt (fun _ => true) (depth + 1) [] (.new b) n).get (.new a) [] x = _
    rw [hm₃.others _ x fun h => hab (Holder.new.inj h), hslot₂, if_neg (Ne.symm hna), hm₁.slot]
    rcases hnone with hnone | hnone
    · rw [hnone, Option.none_or]
      cases s.heap.get (.published t) [] x <;> rfl
    · rw [hnone, Option.or_none]
      cases s.heap.get (.new a) [] x <;> rfl
  · show (h₂.mergeAt (fun _ => true) (depth + 1) [] (.new b) n).get (.new b) [] x = _
    rw [hm₃.slot, hctx, hright]
  · exact hkept _ (by simp) (by simp) fun h => hu (hown u h.symm)
  · exact hkept _ (by simp) (by simp) fun h => hpub u h.symm
  · have hbelow : Heap.AgreeBelow [x] _ _ := (hm₃.agreeBelow_dicts (hctx.trans hc) (hright.trans hd))
    exact hbelow.trans ((Heap.local_mergeAt _ depth).agree hbelow₂)
  · have hbelow : Heap.AgreeBelow [x] _ _ := hm₃.agreeBelow_apart fun c d hcd => hapart c d ⟨hctx ▸ hcd.1, hright ▸ hcd.2⟩
    exact hbelow.trans hbelow₂

end

/-! ### All upstream executions -/

/-- Exactly one of the upstream executions has published the variable. -/
structure OnePublisher (rows : τ → ContextRow) (ts : List τ) (x : String) (p : τ) (v : Json) : Prop where
  nodup : ts.Nodup
  mem : p ∈ ts
  published : (rows p).published.lookup x = some v
  others : ∀ u ∈ ts, u ≠ p → (rows u).published.lookup x = none

/-- The two dictionaries of `evaluate_upstream_context`. -/
def upstreamStart (rows : τ → ContextRow) (layers : String → Dict) : Contexts τ := { loaded rows layers with next := 2 }

variable {v : Json}

theorem OnePublisher.perm (h : OnePublisher rows ts x p v) {ts' : List τ} (hperm : ts'.Perm ts) : OnePublisher rows ts' x p v :=
  ⟨hperm.symm.nodup h.nodup, hperm.mem_iff.mpr h.mem, h.published, fun u hu => h.others u (hperm.mem_iff.mp hu)⟩

theorem get_loaded_eq_none (rows : τ → ContextRow) (layers : String → Dict) {n : Holder τ}
    (h : (tree rows layers n).lookup x = none) : (loaded rows layers).heap.get n [] x = none := by
  have hnode := node_loaded rows layers n [] x
  rw [List.nil_append, Dict.node?_cons, h] at hnode
  exact Option.map_eq_none_iff.mp hnode

section
variable [DecidableEq τ]

/-- The variable, after the executions `done`. -/
structure Base (rows : τ → ContextRow) (layers : String → Dict) (x : String) (p : τ) (done : List τ) (s : Contexts τ) : Prop where
  next : 2 ≤ s.next
  fresh : ∀ n, s.next ≤ n → s.heap.get (.new n) [] x = none
  publishedVars : s.heap.get (.new 0) [] x =
    if p ∈ done then (loaded rows layers).heap.get (.published p) [] x else none
  inContexts : ∀ u, u ∉ done → s.heap.get (.inContext u) [] x = (loaded rows layers).heap.get (.inContext u) [] x
  publisheds : ∀ u, s.heap.get (.published u) [] x = (loaded rows layers).heap.get (.published u) [] x

theorem base_start : Base rows layers x p [] (upstreamStart rows layers) := by
  have hnew : ∀ n, (loaded rows layers).heap.get (.new n : Holder τ) [] x = none := fun n => get_loaded_eq_none rows layers rfl
  exact ⟨Nat.le_refl _, fun n _ => hnew n, hnew 0, fun _ _ => rfl, fun _ => rfl⟩

theorem Base.slots (h : Base rows layers x p done s) (hone : OnePublisher rows ts x p v) (ht : t ∈ ts) (hnot : t ∉ done) :
    (s.heap.get (.new 0) [] x = none ∨ s.heap.get (.published t) [] x = none) ∧
    (s.heap.get (.published t) [] x).or (s.heap.get (.inContext t) [] x) =
      if t = p then (loaded rows layers).heap.get (.published p) [] x else (loaded rows layers).heap.get (.inContext t) [] x := by
  by_cases htp : t = p
  · subst htp
    have hsome : ((loaded rows layers).heap.get (.published t) [] x).isSome := by
      have hnode := node_loaded rows layers (.published t) [] x
      rw [List.nil_append, Dict.node?_cons, show (tree rows layers (.published t)).lookup x = some v from hone.published] at hnode
      rw [← Option.isSome_map, hnode]
      cases v <;> rfl
    rw [h.publishedVars, if_neg hnot, if_pos rfl, h.publisheds]
    refine ⟨.inl rfl, ?_⟩
    obtain ⟨w, hw⟩ := Option.isSome_iff_exists.mp hsome
    rw [hw]
    rfl
  · have hnone : (loaded rows layers).heap.get (.published t) [] x = none := get_loaded_eq_none rows layers (hone.others t ht htp)
    rw [if_neg htp, h.publisheds, hnone, h.inContexts t hnot]
    exact ⟨.inr rfl, rfl⟩

theorem Base.round (h : Base rows layers x p done s) (hone : OnePublisher rows ts x p v) (ht : t ∈ ts) (hnot : t ∉ done)
    {s' : Contexts τ} (hround : Round depth x (.new 0) (.new 1) s t s') : Base rows layers x p (done ++ [t]) s' where
  next := Nat.le_trans h.next hround.next
  fresh := hround.fresh
  publishedVars := by
    rw [hround.publishedVars, h.publishedVars, h.publisheds]
    by_cases hp : p ∈ done
    · have hne : t ≠ p := fun h => hnot (h ▸ hp)
      rw [if_pos hp, if_pos (List.mem_append_left _ hp), get_loaded_eq_none rows layers (n := .published t) (hone.others t ht hne),
        Option.or_none]
    · rw [if_neg hp, Option.none_or]
      by_cases htp : t = p
      · subst htp
        rw [if_pos (List.mem_append_right _ (List.mem_singleton_self _))]
      · rw [if_neg, get_loaded_eq_none rows layers (n := .published t) (hone.others t ht htp)]
        rw [List.mem_append, List.mem_singleton, not_or]
        exact ⟨hp, Ne.symm htp⟩
  inContexts u hu := by
    rw [List.mem_append, List.mem_singleton, not_or] at hu
    rw [hround.inContexts u hu.2, h.inContexts u hu.1]
  publisheds u := by rw [hround.publisheds, h.publisheds]

/-- What every round keeps, all of them keep. -/
theorem rounds (rows : τ → ContextRow) (layers : String → Dict) (depth : Nat) (hversioning : conf.versioning = false)
    (hstrategy : conf.mergeStrategy = .replace) (hone : OnePublisher rows ts x p v) {I : List τ → Contexts τ → Prop}
    (hinit : I [] (upstreamStart rows layers))
    (hstep : ∀ done t rest s s', done ++ t :: rest = ts → t ∈ ts → t ∉ done → Base rows layers x p done s →
      Round depth x (.new 0) (.new 1) s t s' → I done s → I (done ++ [t]) s') :
    Base rows layers x p ts (ts.foldl (addUpstream conf (depth + 1) (.new 0) (.new 1)) (upstreamStart rows layers)) ∧
      I ts (ts.foldl (addUpstream conf (depth + 1) (.new 0) (.new 1)) (upstreamStart rows layers)) := by
  have hall : ∀ (rest done : List τ) (s : Contexts τ), done ++ rest = ts → Base rows layers x p done s → I done s →
      Base rows layers x p ts (rest.foldl (addUpstream conf (depth + 1) (.new 0) (.new 1)) s) ∧
        I ts (rest.foldl (addUpstream conf (depth + 1) (.new 0) (.new 1)) s) := fun rest => by
    induction rest with
    | nil =>
      rintro done s heq hbase hI
      rw [List.append_nil] at heq
      exact heq ▸ ⟨hbase, hI⟩
    | cons t rest ih =>
      intro done s heq hbase hI
      have ht : t ∈ ts := heq ▸ List.mem_append_right _ List.mem_cons_self
      have hnot : t ∉ done := fun hmem => by
        have hnodup := hone.nodup
        rw [← heq, List.nodup_append] at hnodup
        exact hnodup.2.2 t hmem t List.mem_cons_self rfl
      have hround : Round depth x (.new 0) (.new 1) s t _ := addUpstream_round hversioning hstrategy
        (by have := hbase.next; omega) (by have := hbase.next; omega) (by decide) hbase.fresh (hbase.slots hone ht hnot).1
      refine ih (done ++ [t]) _ ?_ (hbase.round hone ht hnot hround) (hstep done t rest s _ heq ht hnot hbase hround hI)
      rw [List.append_assoc]
      exact heq
  exact hall ts [] _ rfl base_start hinit

end

/-! ### Where every older dictionary is part of the new one -/

section
variable {d : Dict}

/-- The dictionaries that the variable may lead to: the published one, and those that were inherited. -/
def Relevant (ts : List τ) (x : String) (p : τ) (q : Place) (n : Holder τ) : Prop :=
  (∃ q', q = x :: q') ∧ (n = .published p ∨ ∃ u ∈ ts, u ≠ p ∧ n = .inContext u)

/-- They hold no more than the published dictionary `d`. -/
def PartOf (x : String) (d : Dict) (q : Place) (k : String) (w : Slot (Holder τ)) : Prop :=
  ∀ q', q = x :: q' → d.node? (q' ++ [k]) = some w.node

/-- What the others have inherited, the publisher has published. -/
def Inherits (rows : τ → ContextRow) (ts : List τ) (x : String) (p : τ) (d : Dict) : Prop :=
  ∀ u ∈ ts, u ≠ p → ∀ e, (rows u).inContext.lookup x = some (.dict e) →
    ∀ q n, Dict.node? e q = some n → d.node? q = some n

/-- The dictionaries hold no more than the published one, which is as it was. -/
structure Bounded (rows : τ → ContextRow) (layers : String → Dict) (ts : List τ) (x : String) (p : τ) (d : Dict)
    (s : Contexts τ) : Prop where
  sound : s.heap.Sound (Relevant ts x p) (PartOf x d)
  same : ∀ q k, s.heap.get (.published p) (x :: q) k = (loaded rows layers).heap.get (.published p) (x :: q) k
  context : ∀ m, s.heap.get (.new 1) [] x = some (.dict m) → Relevant ts x p [x] m

theorem node_published (layers : String → Dict) (h : (rows p).published.lookup x = some (.dict d)) (q : Place) (k : String) :
    ((loaded rows layers).heap.get (.published p) (x :: q) k).map Slot.node = d.node? (q ++ [k]) := by
  rw [node_loaded]
  show (rows p).published.node? (x :: (q ++ [k])) = _
  rw [Dict.node?_cons, h]
  rfl

theorem owner_loaded {n m : Holder τ} {q : Place} {k : String} (h : (loaded rows layers).heap.get n q k = some (.dict m)) :
    m = n := by
  rw [loaded_heap] at h
  exact Heap.owner_ofTrees h

theorem bounded_start (hone : OnePublisher rows ts x p (.dict d)) (hinherits : Inherits rows ts x p d) :
    Bounded rows layers ts x p d (upstreamStart rows layers) := by
  refine ⟨?_, fun _ _ => rfl, fun m hm => ?_⟩
  · rintro _ n ⟨⟨q, rfl⟩, hn⟩ k w hw
    have hw : (loaded rows layers).heap.get n (x :: q) k = some w := hw
    refine ⟨?_, fun m hm => ⟨⟨q ++ [k], rfl⟩, ?_⟩⟩
    · rintro q' hq
      obtain rfl : q = q' := (List.cons.inj hq).2
      have hnode := node_loaded rows layers n (x :: q) k
      rw [hw, Option.map_some] at hnode
      rcases hn with rfl | ⟨u, hu, hup, rfl⟩
      · rw [← node_published layers hone.published, hw]
        rfl
      · have hnode : some w.node = (rows u).inContext.node? (x :: (q ++ [k])) := hnode
        rw [Dict.node?_cons] at hnode
        obtain ⟨j, hj, hnode⟩ := Option.bind_eq_some_iff.mp hnode.symm
        cases j with
        | dict e => exact hinherits u hu hup e hj _ _ hnode
        | value y => cases q <;> cases hnode
    · obtain rfl : m = n := owner_loaded (hm ▸ hw)
      exact hn
  · have hnone : (loaded rows layers).heap.get (.new 1 : Holder τ) [] x = none := get_loaded_eq_none rows layers rfl
    cases hnone.symm.trans hm

/-- Only what is below the variable counts. -/
theorem sound_congr {h h' : Heap (Holder τ)} (hagree : Heap.AgreeBelow [x] h' h) (hs : h.Sound (Relevant ts x p) (PartOf x d)) :
    h'.Sound (Relevant ts x p) (PartOf x d) := by
  rintro _ n ⟨⟨q, rfl⟩, hn⟩ k w hw
  exact hs (x :: q) n ⟨⟨q, rfl⟩, hn⟩ k w ((hagree n q k).symm.trans hw)

/-- The published dictionary has everything that a dictionary may hold. -/
theorem Bounded.complete (h : Bounded rows layers ts x p d s) (hone : OnePublisher rows ts x p (.dict d)) :
    ∀ q, Relevant ts x p q (.published p) → ∀ k w, PartOf x d q k w → ∀ o,
      Heap.mergeSlot o (s.heap.get (.published p) q k) (some w) = s.heap.get (.published p) q k := by
  rintro _ ⟨⟨q, rfl⟩, -⟩ k w hw o
  have hnode := node_published layers hone.published q k
  rw [← h.same, hw q rfl] at hnode
  obtain ⟨w', hw', hkind⟩ := Option.map_eq_some_iff.mp hnode
  rw [hw']
  cases w' with
  | dict a =>
    cases w with
    | dict b => rfl
    | value y => cases hkind
  | value y =>
    cases w with
    | dict b => cases hkind
    | value z =>
      have hyz : Node.value y = Node.value z := hkind
      cases hyz
      exact Heap.mergeSlot_self o _

section
variable [DecidableEq τ]

theorem Bounded.slot (hone : OnePublisher rows ts x p (.dict d)) (hbase : Base rows layers x p done s) (ht : t ∈ ts)
    (hnot : t ∉ done) {b : Holder τ}
    (hb : (s.heap.get (.published t) [] x).or (s.heap.get (.inContext t) [] x) = some (.dict b)) : Relevant ts x p [x] b := by
  rw [(hbase.slots hone ht hnot).2] at hb
  refine ⟨⟨[], rfl⟩, ?_⟩
  split at hb
  next => exact .inl (owner_loaded hb)
  next htp => exact .inr ⟨t, ht, htp, owner_loaded hb⟩

theorem Bounded.round (h : Bounded rows layers ts x p d s) (hone : OnePublisher rows ts x p (.dict d))
    (hbase : Base rows layers x p done s) (ht : t ∈ ts) (hnot : t ∉ done) {s' : Contexts τ}
    (hround : Round depth x (.new 0) (.new 1) s t s') : Bounded rows layers ts x p d s' := by
  have hslot := fun {b} => Bounded.slot (b := b) hone hbase ht hnot
  have hcontext : ∀ m, s'.heap.get (.new 1) [] x = some (.dict m) → Relevant ts x p [x] m := fun m hm => by
    rw [hround.context] at hm
    rcases Heap.mergeSlot_cases true (s.heap.get (.new 1) [] x)
      ((s.heap.get (.published t) [] x).or (s.heap.get (.inContext t) [] x)) with heq | heq
    · exact h.context m (heq ▸ hm)
    · exact hslot (heq ▸ hm)
  by_cases hdicts : ∃ a b, s.heap.get (.new 1) [] x = some (.dict a) ∧
    (s.heap.get (.published t) [] x).or (s.heap.get (.inContext t) [] x) = some (.dict b)
  · obtain ⟨a, b, ha, hb⟩ := hdicts
    have hagree := hround.merged a b ha hb
    refine ⟨sound_congr hagree (h.sound.mergeAt (h.context a ha) (hslot hb)), fun q k => ?_, hcontext⟩
    have hq : Relevant ts x p (x :: q) (.published p) := ⟨⟨q, rfl⟩, .inl rfl⟩
    rw [← h.same]
    exact (hagree _ q k).trans
      (Heap.get_mergeAt_of_complete h.sound (h.context a ha) (hslot hb) (h.complete hone) hq)
  · have hagree := hround.apart fun a b hab => hdicts ⟨a, b, hab⟩
    exact ⟨sound_congr hagree h.sound, fun q k => (hagree _ q k).trans (h.same q k), hcontext⟩

end

/-- What a dictionary below the variable holds, the published one does. -/
theorem node?_of_sound {h : Heap (Holder τ)} (hs : h.Sound (Relevant ts x p) (PartOf x d)) {q : List String} :
    ∀ {q' : Place} {n : Holder τ} {y : Node}, Relevant ts x p (x :: q') n → q ≠ [] → h.node? n (x :: q') q = some y →
      d.node? (q' ++ q) = some y := by
  induction q with
  | nil => exact fun _ hne => absurd rfl hne
  | cons k q ih =>
    intro q' n y hn _ hy
    rw [Heap.node?] at hy
    split at hy
    next => cases hy
    next z hz =>
      split at hy
      next hq =>
        subst hq
        rw [← hy]
        exact (hs _ n hn k _ hz).1 q' rfl
      next => cases hy
    next m hm =>
      obtain ⟨hpart, hlead⟩ := hs _ n hn k _ hm
      cases q with
      | nil =>
        rw [← hy]
        exact hpart q' rfl
      | cons k' q =>
        have hnode : d.node? ((q' ++ [k]) ++ k' :: q) = some y := ih (hlead m rfl) (List.cons_ne_nil _ _) hy
        rwa [List.append_assoc] at hnode

end

section
variable [DecidableEq τ]

/-- The value of the variable in the context that is returned. -/
def GivesPublished (conf : DataFlowConf) (depth : Nat) (rows : τ → ContextRow) (layers : String → Dict) (ts : List τ) (x : String)
    (v : Json) : Prop :=
  let (ctx, s) := evaluateUpstreamContext conf depth ts none (loaded rows layers)
  ∀ q, s.heap.node? ctx [] (x :: q) = v.node? q

theorem evaluateUpstreamContext_eq (hversioning : conf.versioning = false) :
    evaluateUpstreamContext conf depth ts none (loaded rows layers) = (.new 1,
      (ts.foldl (addUpstream conf depth (.new 0) (.new 1)) (upstreamStart rows layers)).mergeDicts depth (.new 1) (.new 0)) := by
  simp only [evaluateUpstreamContext, hversioning, Bool.not_false, if_true]
  rfl

end

/-- Dictionaries below the variable that are as they were loaded. -/
theorem node?_same {h : Heap (Holder τ)} {n : Holder τ}
    (hsame : ∀ q k, h.get n (x :: q) k = (loaded rows layers).heap.get n (x :: q) k) {q : List String} :
    ∀ q', h.node? n (x :: q') q = (loaded rows layers).heap.node? n (x :: q') q := by
  induction q with
  | nil => exact fun _ => rfl
  | cons k q ih =>
    intro q'
    rw [Heap.node?, Heap.node?, hsame]
    split
    · rfl
    · rfl
    next m hm =>
      obtain rfl := owner_loaded hm
      exact ih (q' ++ [k])

theorem node?_loaded {n : Holder τ} {d : Dict} (h : (tree rows layers n).lookup x = some (.dict d)) (q : List String) :
    (loaded rows layers).heap.node? n [x] q = d.node? q := by
  have hholds : (Heap.ofTrees (tree rows layers)).Holds n [x] ((tree rows layers n).below [x]) := Heap.holds_ofTrees
  rw [← loaded_heap] at hholds
  rw [hholds, Dict.below, h]
  rfl

theorem slot_published (layers : String → Dict) {w : Json} (h : (rows p).published.lookup x = some w) :
    ∃ slot, (loaded rows layers).heap.get (.published p) [] x = some slot ∧ slot.node = w.node ∧
      ∀ m, slot = .dict m → m = .published p := by
  have hnode := node_loaded rows layers (.published p) [] x
  rw [List.nil_append, Dict.node?_cons, show (tree rows layers (.published p)).lookup x = some w from h] at hnode
  obtain ⟨slot, hslot, hkind⟩ := Option.map_eq_some_iff.mp (hnode.trans (show _ = some w.node by cases w <;> rfl))
  exact ⟨slot, hslot, hkind, fun m hm => owner_loaded (hm ▸ hslot)⟩

section
variable (hversioning : conf.versioning = false) (hstrategy : conf.mergeStrategy = .replace)

include hversioning hstrategy

section
variable [DecidableEq τ]

/-- A value that is no dictionary is written over everything. -/
theorem gives_value {y : String} (hone : OnePublisher rows ts x p (.value y)) :
    GivesPublished conf (depth + 1) rows layers ts x (.value y) := by
  obtain ⟨hbase, -⟩ := rounds (I := fun _ _ => True) rows layers depth hversioning hstrategy
    hone trivial fun _ _ _ _ _ _ _ _ _ _ _ => trivial
  obtain ⟨slot, hslot, hkind, -⟩ := slot_published layers hone.published
  have hslot : (loaded rows layers).heap.get (.published p) [] x = some (.value y) := by
    cases slot with
    | dict m => cases hkind
    | value z =>
      have hzy : Node.value z = Node.value y := hkind
      cases hzy
      exact hslot
  rw [GivesPublished, evaluateUpstreamContext_eq hversioning]
  intro q
  have hm := Heap.merged (fun _ => true) depth
    (ts.foldl (addUpstream conf (depth + 1) (.new 0) (.new 1)) (upstreamStart rows layers)).heap [] (.new 1) (.new 0)
  have hvalue : (Heap.mergeAt (fun _ => true) (depth + 1)
      (ts.foldl (addUpstream conf (depth + 1) (.new 0) (.new 1)) (upstreamStart rows layers)).heap [] (.new 1) (.new 0)).get
        (.new 1) [] x = some (.value y) := by
    rw [hm.slot, hbase.publishedVars, if_pos hone.mem, hslot]
    generalize Heap.get _ (Holder.new 1) [] x = old
    rcases old with _ | ⟨_⟩ | _ <;> rfl
  show Heap.node? (Heap.mergeAt _ _ _ _ _ _) _ _ _ = _
  rw [Heap.node?, hvalue]
  cases q <;> rfl

/-- A dictionary that everything older is part of comes through. -/
theorem gives_dict {d : Dict} (hone : OnePublisher rows ts x p (.dict d)) (hinherits : Inherits rows ts x p d)
    (hdepth : ∀ q y, d.node? q = some y → q.length ≤ depth) : GivesPublished conf (depth + 1) rows layers ts x (.dict d) := by
  obtain ⟨hbase, hbounded⟩ := rounds (I := fun _ s => Bounded rows layers ts x p d s) rows layers depth hversioning hstrategy hone
    (bounded_start hone hinherits) fun done t _ s s' _ ht hnot hbase hround h => h.round hone hbase ht hnot hround
  rw [GivesPublished, evaluateUpstreamContext_eq hversioning]
  generalize ts.foldl (addUpstream conf (depth + 1) (.new 0) (.new 1)) (upstreamStart rows layers) = s at hbase hbounded
  intro q
  show (s.heap.mergeAt (fun _ => true) (depth + 1) [] (.new 1) (.new 0)).node? (.new 1) [] (x :: q) = d.node? q
  have hm := Heap.merged (fun _ => true) depth s.heap [] (.new 1) (.new 0)
  obtain ⟨slot, hslot, hkind, howner⟩ := slot_published layers hone.published
  have hright : s.heap.get (.new 0) [] x = some (.dict (.published p)) := by
    rw [hbase.publishedVars, if_pos hone.mem, hslot]
    cases slot with
    | dict m => rw [howner m rfl]
    | value z => cases hkind
  have hpublished : ∀ q, s.heap.node? (.published p) [x] q = d.node? q := fun q =>
    (node?_same hbounded.same []).trans (node?_loaded (n := .published p) hone.published q)
  by_cases hctx : ∃ a, s.heap.get (.new 1) [] x = some (.dict a)
  · obtain ⟨a, ha⟩ := hctx
    have hrel := hbounded.context a ha
    have hpub : Relevant ts x p [x] (.published p) := ⟨⟨[], rfl⟩, .inl rfl⟩
    rw [Heap.node?_of_dict (m := a) (by rw [hm.slot, ha, hright]; rfl), (hm.agreeBelow_dicts ha hright).node?]
    cases hd : d.node? q with
    | some y => exact Heap.node?_mergeAt_of_some (hdepth q y hd) ((hpublished q).trans hd)
    | none =>
      cases q with
      | nil => cases hd
      | cons k q =>
        rw [← Option.not_isSome_iff_eq_none]
        intro hsome
        obtain ⟨y, hy⟩ := Option.isSome_iff_exists.mp hsome
        have hsound : (s.heap.mergeAt (fun _ => true) depth [x] a (.published p)).Sound (Relevant ts x p) (PartOf x d) :=
          hbounded.sound.mergeAt hrel hpub
        cases hd.symm.trans (node?_of_sound hsound hrel (List.cons_ne_nil _ _) hy)
  · have hapart := hm.agreeBelow_apart (k := x) fun a b hab => hctx ⟨a, hab.1⟩
    rw [Heap.node?_of_dict (m := .published p), hapart.node?]
    · exact hpublished q
    · rw [hm.slot, hright]
      rcases hold : s.heap.get (.new 1) [] x with _ | ⟨a⟩ | _
      · rfl
      · exact absurd ⟨a, hold⟩ hctx
      · rfl

end
end

/-! ### Where an older dictionary has something else -/

/-- The published dictionary, and those of the executions that have been merged into it. -/
def MergedInto (done : List τ) (x : String) (p : τ) (q : Place) (n : Holder τ) : Prop :=
  (∃ q', q = x :: q') ∧ (n = .published p ∨ ∃ u ∈ done, n = .inContext u)

/-- An execution has inherited a dictionary. -/
def inheritsDict (rows : τ → ContextRow) (x : String) (u : τ) : Bool :=
  match (rows u).inContext.lookup x with
  | some (.dict _) => true
  | _ => false

/-- The publisher comes first, then the dictionaries that others have inherited, `t` last of them, then the rest. -/
structure Spoiled (rows : τ → ContextRow) (layers : String → Dict) (x : String) (p t : τ) (q : List String) (n : Node)
    (done : List τ) (s : Contexts τ) : Prop where
  loaded : done = [] → s.heap.get (.new 1) [] x = none ∧ Heap.AgreeBelow [x] s.heap (loaded rows layers).heap
  before : p ∈ done → t ∉ done → s.heap.get (.new 1) [] x = some (.dict (.published p)) ∧
    s.heap.Sound (MergedInto done x p) (fun _ _ _ => True) ∧
    ∀ u, u ∉ done → ∀ q k, s.heap.get (.inContext u) (x :: q) k = (Contexts.loaded rows layers).heap.get (.inContext u) (x :: q) k
  after : t ∈ done → s.heap.node? (.published p) [x] q = some n ∧
    (s.heap.get (.new 1) [] x = some (.dict (.published p)) ∨ ∃ y, s.heap.get (.new 1) [] x = some (.value y))

theorem inheritsDict_iff {u : τ} : inheritsDict rows x u ↔ ∃ e, (rows u).inContext.lookup x = some (.dict e) := by
  unfold inheritsDict
  split
  next e he => exact ⟨fun _ => ⟨e, he⟩, fun _ => rfl⟩
  next hnot => exact ⟨nofun, fun ⟨e, he⟩ => absurd he (hnot e)⟩

/-- What an execution has inherited, as it was loaded. -/
theorem slot_inContext {u : τ} : (∃ e, (rows u).inContext.lookup x = some (.dict e)) ↔
    (loaded rows layers).heap.get (.inContext u) [] x = some (.dict (.inContext u)) := by
  have hnode := node_loaded rows layers (.inContext u) [] x
  rw [List.nil_append, Dict.node?_cons] at hnode
  have htree : (tree rows layers (.inContext u)).lookup x = (rows u).inContext.lookup x := rfl
  rw [htree] at hnode
  constructor
  · rintro ⟨e, he⟩
    rw [he] at hnode
    obtain ⟨slot, hslot, hkind⟩ := Option.map_eq_some_iff.mp hnode
    cases slot with
    | dict m => rw [hslot, owner_loaded hslot]
    | value z => cases hkind
  · intro hslot
    rw [hslot] at hnode
    cases hlookup : (rows u).inContext.lookup x with
    | none =>
      rw [hlookup] at hnode
      cases hnode
    | some j =>
      cases j with
      | dict e => exact ⟨e, rfl⟩
      | value y =>
        rw [hlookup] at hnode
        cases hnode

/-- An execution whose dictionary is merged into the published one. -/
theorem sound_merge {h : Heap (Holder τ)} {u : τ} (hs : h.Sound (MergedInto done x p) fun _ _ _ => True)
    (hsame : ∀ q k, h.get (.inContext u) (x :: q) k = (loaded rows layers).heap.get (.inContext u) (x :: q) k) :
    h.Sound (MergedInto (done ++ [u]) x p) fun _ _ _ => True := by
  rintro _ n ⟨⟨q, rfl⟩, hn⟩ k w hw
  refine ⟨trivial, fun m hm => ⟨⟨q ++ [k], rfl⟩, ?_⟩⟩
  have hgrow : MergedInto done x p (x :: q ++ [k]) m → m = .published p ∨ ∃ w ∈ done ++ [u], m = .inContext w := by
    rintro ⟨-, hm | ⟨w, hw, hm⟩⟩
    · exact .inl hm
    · exact .inr ⟨w, List.mem_append_left _ hw, hm⟩
  rcases hn with rfl | ⟨w', hw', rfl⟩
  · exact hgrow ((hs _ _ ⟨⟨q, rfl⟩, .inl rfl⟩ k w hw).2 m hm)
  · rcases List.mem_append.mp hw' with hmem | hmem
    · exact hgrow ((hs _ _ ⟨⟨q, rfl⟩, .inr ⟨w', hmem, rfl⟩⟩ k w hw).2 m hm)
    · obtain rfl := List.mem_singleton.mp hmem
      rw [hsame, hm] at hw
      exact .inr ⟨w', hw', owner_loaded hw⟩

section
variable [DecidableEq τ]

theorem slots_of_inheritsDict (hone : OnePublisher rows ts x p v) (hbase : Base rows layers x p done s) (ht : t ∈ ts)
    (hnot : t ∉ done) (htp : t ≠ p) :
    (inheritsDict rows x t → (s.heap.get (.published t) [] x).or (s.heap.get (.inContext t) [] x) = some (.dict (.inContext t))) ∧
    (¬inheritsDict rows x t →
      ∀ b, (s.heap.get (.published t) [] x).or (s.heap.get (.inContext t) [] x) ≠ some (.dict b)) := by
  rw [(hbase.slots hone ht hnot).2, if_neg htp, inheritsDict_iff]
  refine ⟨slot_inContext.mp, fun hno b hb => hno ?_⟩
  obtain rfl := owner_loaded hb
  exact slot_inContext.mpr hb

end

section
variable {d : Dict} {q : List String} {n : Node} {s' : Contexts τ}

section
variable [DecidableEq τ]

/-- The publisher. -/
theorem Spoiled.publisher (h : Spoiled rows layers x p t q n [] s) (hone : OnePublisher rows ts x p (.dict d))
    (hbase : Base rows layers x p [] s) (htp : t ≠ p) (hround : Round depth x (.new 0) (.new 1) s p s') :
    Spoiled rows layers x p t q n [p] s' := by
  obtain ⟨hnone, hloaded⟩ := h.loaded rfl
  have hagree := (hround.apart fun a b hab => by rw [hnone] at hab; cases hab.1).trans hloaded
  refine ⟨nofun, fun _ _ => ⟨?_, ?_, fun u _ q k => hagree _ q k⟩, fun hmem => absurd (List.mem_singleton.mp hmem) htp⟩
  · obtain ⟨slot, hslot, hkind, howner⟩ := slot_published layers hone.published
    rw [hround.context, hnone, (hbase.slots hone hone.mem List.not_mem_nil).2, if_pos rfl, hslot]
    cases slot with
    | dict m => rw [howner m rfl]; rfl
    | value z => cases hkind
  · rintro _ m ⟨⟨q, rfl⟩, hm⟩ k w hw
    refine ⟨trivial, fun m' hm' => ⟨⟨q ++ [k], rfl⟩, ?_⟩⟩
    subst hm'
    obtain rfl := owner_loaded ((hagree m q k).symm.trans hw)
    exact hm

/-- A dictionary that is merged into the published one, before `t`. -/
theorem Spoiled.early {u : τ} (h : Spoiled rows layers x p t q n done s) (hone : OnePublisher rows ts x p v)
    (hbase : Base rows layers x p done s) (hp : p ∈ done) (ht : t ∉ done) (hu : u ∈ ts) (hnot : u ∉ done) (hut : u ≠ t)
    (hdict : inheritsDict rows x u) (hround : Round depth x (.new 0) (.new 1) s u s') :
    Spoiled rows layers x p t q n (done ++ [u]) s' := by
  obtain ⟨hctx, hsound, hothers⟩ := h.before hp ht
  have hup : u ≠ p := fun h => hnot (h ▸ hp)
  have hright := (slots_of_inheritsDict hone hbase hu hnot hup).1 hdict
  have hagree := hround.merged _ _ hctx hright
  have hsound := sound_merge hsound (hothers u hnot)
  have hleft : MergedInto (done ++ [u]) x p [x] (.published p) := ⟨⟨[], rfl⟩, .inl rfl⟩
  have hinner : MergedInto (done ++ [u]) x p [x] (.inContext u) :=
    ⟨⟨[], rfl⟩, .inr ⟨u, List.mem_append_right _ (List.mem_singleton_self u), rfl⟩⟩
  have hnotdone : t ∉ done ++ [u] := by
    rw [List.mem_append, List.mem_singleton, not_or]
    exact ⟨ht, Ne.symm hut⟩
  refine ⟨fun h => absurd h (by simp), fun _ _ => ⟨?_, ?_, fun w hw q k => ?_⟩, fun hmem => absurd hmem hnotdone⟩
  · rw [hround.context, hctx, hright]
    rfl
  · rintro _ m ⟨⟨q, rfl⟩, hm⟩ k w hw
    exact hsound.mergeAt hleft hinner (x :: q) m ⟨⟨q, rfl⟩, hm⟩ k w ((hagree m q k).symm.trans hw)
  · have hw' : w ∉ done := fun hmem => hw (List.mem_append_left _ hmem)
    have hapart : ¬MergedInto (done ++ [u]) x p (x :: q) (.inContext w) := by
      rintro ⟨-, h | ⟨w', hmem, h⟩⟩
      · cases h
      · cases h
        exact hw hmem
    exact ((hagree _ q k).trans (Heap.get_mergeAt_of_sound hsound hleft hapart)).trans (hothers w hw' q k)

/-- The dictionary that has something else. -/
theorem Spoiled.reached (h : Spoiled rows layers x p t q n done s) (hone : OnePublisher rows ts x p v)
    (hbase : Base rows layers x p done s) (hp : p ∈ done) (ht : t ∈ ts) (hnot : t ∉ done) {e : Dict}
    (he : (rows t).inContext.lookup x = some (.dict e)) (hn : e.node? q = some n) (hq : q.length ≤ depth)
    (hround : Round depth x (.new 0) (.new 1) s t s') : Spoiled rows layers x p t q n (done ++ [t]) s' := by
  obtain ⟨hctx, -, hothers⟩ := h.before hp hnot
  have htp : t ≠ p := fun h => hnot (h ▸ hp)
  have hright := (slots_of_inheritsDict hone hbase ht hnot htp).1 (inheritsDict_iff.mpr ⟨e, he⟩)
  have hmem : t ∈ done ++ [t] := List.mem_append_right _ (List.mem_singleton_self t)
  refine ⟨fun h => absurd h (by simp), fun _ hno => absurd hmem hno, fun _ => ⟨?_, .inl ?_⟩⟩
  · rw [(hround.merged _ _ hctx hright).node?]
    refine Heap.node?_mergeAt_of_some hq ?_
    rw [node?_same (hothers t hnot), node?_loaded (n := .inContext t) he, hn]
  · rw [hround.context, hctx, hright]
    rfl

/-- An execution after `t` that has inherited no dictionary. -/
theorem Spoiled.late {u : τ} (h : Spoiled rows layers x p t q n done s) (hone : OnePublisher rows ts x p v)
    (hbase : Base rows layers x p done s) (hp : p ∈ done) (ht : t ∈ done) (hu : u ∈ ts) (hnot : u ∉ done)
    (hdict : ¬inheritsDict rows x u) (hround : Round depth x (.new 0) (.new 1) s u s') :
    Spoiled rows layers x p t q n (done ++ [u]) s' := by
  obtain ⟨hnode, hctx⟩ := h.after ht
  have hup : u ≠ p := fun h => hnot (h ▸ hp)
  have hright := (slots_of_inheritsDict hone hbase hu hnot hup).2 hdict
  refine ⟨fun h => absurd h (by simp), fun _ hno => absurd (List.mem_append_left _ ht) hno, fun _ => ⟨?_, ?_⟩⟩
  · rw [(hround.apart fun a b hab => hright b hab.2).node?]
    exact hnode
  · rw [hround.context]
    revert hright
    generalize (s.heap.get (.published u) [] x).or (s.heap.get (.inContext u) [] x) = right
    intro hright
    rcases right with _ | ⟨b⟩ | y
    · rcases hctx with hctx | ⟨z, hctx⟩
      · exact .inl (by rw [hctx]; rfl)
      · exact .inr ⟨z, by rw [hctx]; rfl⟩
    · exact absurd rfl (hright b)
    · refine .inr ⟨y, ?_⟩
      rcases hctx with hctx | ⟨z, hctx⟩ <;> rw [hctx] <;> rfl

end
end

/-! ### The order in which it goes wrong -/

section
variable {early late rest : List τ} {u : τ}

theorem order_cases (hnodup : (p :: (early ++ t :: late)).Nodup) (heq : done ++ u :: rest = p :: (early ++ t :: late)) :
    (done = [] ∧ u = p) ∨ (p ∈ done ∧ (u ∈ early ∧ t ∉ done ∨ u = t ∧ t ∉ done ∨ u ∈ late ∧ t ∈ done)) := by
  cases done with
  | nil => exact .inl ⟨rfl, (List.cons.inj heq).1⟩
  | cons w done =>
    obtain ⟨rfl, hrest⟩ := List.cons.inj heq
    have htw : t ≠ w := fun h => (List.nodup_cons.mp hnodup).1 (h ▸ List.mem_append_right _ List.mem_cons_self)
    have hnot : t ∉ early := fun hmem =>
      (List.nodup_append.mp (List.nodup_cons.mp hnodup).2).2.2 t hmem t List.mem_cons_self rfl
    refine .inr ⟨List.mem_cons_self, ?_⟩
    rcases List.append_eq_append_iff.mp hrest with ⟨a, rfl, htail⟩ | ⟨a, rfl, htail⟩
    · have hdone : t ∉ w :: done := fun hmem => by
        rcases List.mem_cons.mp hmem with hmem | hmem
        · exact htw hmem
        · exact hnot (List.mem_append_left _ hmem)
      cases a with
      | nil => exact .inr (.inl ⟨(List.cons.inj htail).1, hdone⟩)
      | cons u' a =>
        obtain ⟨rfl, -⟩ := List.cons.inj htail
        exact .inl ⟨List.mem_append_right _ List.mem_cons_self, hdone⟩
    · cases a with
      | nil =>
        rw [List.append_nil]
        refine .inr (.inl ⟨(List.cons.inj htail).1.symm, fun hmem => ?_⟩)
        rcases List.mem_cons.mp hmem with hmem | hmem
        · exact htw hmem
        · exact hnot hmem
      | cons t' a =>
        obtain ⟨rfl, rfl⟩ := List.cons.inj htail
        refine .inr (.inr ⟨List.mem_append_right _ List.mem_cons_self, ?_⟩)
        exact List.mem_cons_of_mem _ (List.mem_append_right _ List.mem_cons_self)

section
variable [DecidableEq τ]

/-- Some order has the publisher first, and then the dictionaries that others have inherited up to `t`. -/
theorem exists_order (hmem : p ∈ ts) (ht : t ∈ ts) (htp : t ≠ p) (rows : τ → ContextRow) (x : String) :
    ∃ early late, (p :: (early ++ t :: late)).Perm ts ∧ (∀ u ∈ early, inheritsDict rows x u) ∧
      ∀ u ∈ late, ¬inheritsDict rows x u := by
  have hrest : t ∈ ts.erase p := (List.mem_erase_of_ne htp).mpr ht
  refine ⟨((ts.erase p).erase t).filter (inheritsDict rows x), ((ts.erase p).erase t).filter fun u => !inheritsDict rows x u,
    ?_, fun u hu => (List.mem_filter.mp hu).2, fun u hu => by simpa using (List.mem_filter.mp hu).2⟩
  have hothers := List.filter_append_perm (inheritsDict rows x) ((ts.erase p).erase t)
  have htail := (List.perm_middle.trans (hothers.cons t)).trans (List.perm_cons_erase hrest).symm
  exact (htail.cons p).trans (List.perm_cons_erase hmem).symm

end
end

section
variable (hversioning : conf.versioning = false) (hstrategy : conf.mergeStrategy = .replace) {d e : Dict} {early late : List τ}

include hversioning hstrategy

section
variable [DecidableEq τ]

/-- In this order the published variable gets what `t` has inherited. -/
theorem not_gives (hone : OnePublisher rows (p :: (early ++ t :: late)) x p (.dict d)) (hearly : ∀ u ∈ early, inheritsDict rows x u)
    (hlate : ∀ u ∈ late, ¬inheritsDict rows x u) (he : (rows t).inContext.lookup x = some (.dict e)) {q : List String} {n : Node}
    (hn : e.node? q = some n) (hne : d.node? q ≠ some n) (hq : q.length ≤ depth) :
    ¬GivesPublished conf (depth + 1) rows layers (p :: (early ++ t :: late)) x (.dict d) := by
  have ht : t ∈ p :: (early ++ t :: late) := List.mem_cons_of_mem _ (List.mem_append_right _ List.mem_cons_self)
  have htp : t ≠ p := fun h => (List.nodup_cons.mp hone.nodup).1 (h ▸ List.mem_append_right _ List.mem_cons_self)
  have hstart : Spoiled rows layers x p t q n [] (upstreamStart rows layers) :=
    ⟨fun _ => ⟨get_loaded_eq_none rows layers rfl, fun _ _ _ => rfl⟩, fun h => absurd h List.not_mem_nil,
      fun h => absurd h List.not_mem_nil⟩
  obtain ⟨hbase, hspoiled⟩ := rounds (I := fun done s => Spoiled rows layers x p t q n done s) rows layers depth hversioning
    hstrategy hone hstart fun done u rest s s' heq hu hnot hbase hround h => by
      rcases order_cases hone.nodup heq with ⟨rfl, rfl⟩ | ⟨hp, ⟨hmem, hdone⟩ | ⟨rfl, hdone⟩ | ⟨hmem, hdone⟩⟩
      · exact h.publisher hone hbase htp hround
      · have hut : u ≠ t := fun hut =>
          (List.nodup_append.mp (List.nodup_cons.mp hone.nodup).2).2.2 u hmem t List.mem_cons_self hut
        exact h.early hone hbase hp hdone hu hnot hut (hearly u hmem) hround
      · exact h.reached hone hbase hp hu hnot he hn hq hround
      · exact h.late hone hbase hp hdone hu hnot (hlate u hmem) hround
  rw [GivesPublished, evaluateUpstreamContext_eq hversioning]
  generalize (p :: (early ++ t :: late)).foldl (addUpstream conf (depth + 1) (.new 0) (.new 1)) (upstreamStart rows layers) = s
    at hbase hspoiled
  intro hgives
  obtain ⟨hnode, hctx⟩ := hspoiled.after ht
  have hm := Heap.merged (fun _ => true) depth s.heap [] (.new 1) (.new 0)
  obtain ⟨slot, hslot, hkind, howner⟩ := slot_published layers hone.published
  have hright : s.heap.get (.new 0) [] x = some (.dict (.published p)) := by
    rw [hbase.publishedVars, if_pos hone.mem, hslot]
    cases slot with
    | dict m => rw [howner m rfl]
    | value z => cases hkind
  have hresult : (s.heap.mergeAt (fun _ => true) (depth + 1) [] (.new 1) (.new 0)).node? (.new 1) [] (x :: q) = some n := by
    rcases hctx with hctx | ⟨y, hctx⟩
    · rw [Heap.node?_of_dict (m := .published p) (by rw [hm.slot, hctx, hright]; rfl), (hm.agreeBelow_dicts hctx hright).node?]
      exact Heap.node?_mergeAt_right.trans hnode
    · have hapart := hm.agreeBelow_apart (k := x) fun a b hab => by rw [hctx] at hab; cases hab.1
      rw [Heap.node?_of_dict (m := .published p) (by rw [hm.slot, hctx, hright]; rfl), hapart.node?]
      exact hnode
  exact hne ((hgives q).symm.trans hresult)

end
end

section
variable [DecidableEq τ]

/-- For every order of the upstream executions the variable is what was published, exactly where nothing older is
    merged into it. -/
theorem join_replaces_iff (hversioning : conf.versioning = false) (hstrategy : conf.mergeStrategy = .replace)
    (hone : OnePublisher rows ts x p v) (layers : String → Dict)
    (hdepth : ∀ u ∈ ts, (rows u).inContext.depth ≤ depth ∧ (rows u).published.depth ≤ depth) :
    (∀ ts', ts'.Perm ts → GivesPublished conf depth rows layers ts' x v) ↔ ∀ d, v = .dict d → Inherits rows ts x p d := by
  have hpaths : ∀ (d e : Dict), d.lookup x = some (.dict e) → d.depth ≤ depth → ∀ q n, e.node? q = some n → q.length < depth :=
    fun d e hlookup hle q n hn => by
      have hnode : d.node? (x :: q) = some n := by
        rw [Dict.node?_cons, hlookup]
        exact hn
      exact Nat.lt_of_lt_of_le (Nat.lt_succ_self _) (Nat.le_trans (Dict.length_le_depth hnode) hle)
  obtain ⟨depth, rfl⟩ : ∃ k, depth = k + 1 := by
    have hnode : (rows p).published.node? [x] ≠ none := by
      rw [Dict.node?_cons, hone.published]
      cases v <;> exact nofun
    obtain ⟨n, hn⟩ := Option.ne_none_iff_exists'.mp hnode
    have hlen := Nat.le_trans (Dict.length_le_depth hn) (hdepth p hone.mem).2
    exact ⟨depth - 1, (Nat.sub_add_cancel hlen).symm⟩
  constructor
  · rintro hall d rfl u hu hup e he q n hn
    by_contra hne
    obtain ⟨early, late, hperm, hearly, hlate⟩ := exists_order hone.mem hu hup rows x
    have hq := hpaths _ e he (hdepth u hu).1 q n hn
    exact not_gives hversioning hstrategy (hone.perm hperm) hearly hlate he hn hne (Nat.le_of_lt_succ hq) (hall _ hperm)
  · intro hinherits ts' hperm
    cases v with
    | value y => exact gives_value hversioning hstrategy (hone.perm hperm)
    | dict d =>
      refine gives_dict hversioning hstrategy (hone.perm hperm) (fun u hu => hinherits d rfl u (hperm.mem_iff.mp hu)) fun q n hn => ?_
      exact Nat.le_of_lt_succ (hpaths _ d hone.published (hdepth p hone.mem).2 q n hn)

end

/-- The execution `true` publishes `{"b": 1}` as `x`, and the other one has inherited `older` as `x`. -/
def twoBranches (older : Json) : Bool → ContextRow
  | true => { inContext := [("x", older)], published := [("x", .dict [("b", .value "1")])] }
  | false => { inContext := [("x", older)] }

theorem twoBranches_onePublisher (older : Json) :
    OnePublisher (twoBranches older) [true, false] "x" true (.dict [("b", .value "1")]) :=
  ⟨by decide, by decide, rfl, fun u _ hu => by cases u with
    | true => exact absurd rfl hu
    | false => rfl⟩

/-- An older value that is no dictionary is replaced. -/
theorem join_replaces_older_value :
    GivesPublished { utils := dictUtils, versioning := false } 2 (twoBranches (.value "0")) (fun _ => []) [true, false] "x"
        (.dict [("b", .value "1")]) ∧
      GivesPublished { utils := dictUtils, versioning := false } 2 (twoBranches (.value "0")) (fun _ => []) [false, true] "x"
        (.dict [("b", .value "1")]) := by
  have hall : ∀ ts', ts'.Perm [true, false] → GivesPublished { utils := dictUtils, versioning := false } 2
      (twoBranches (.value "0")) (fun _ => []) ts' "x" (.dict [("b", .value "1")]) := by
    refine (join_replaces_iff rfl rfl (twoBranches_onePublisher _) _ ?_).mpr fun d hd u _ hu e he => ?_
    · rintro (_ | _) - <;> decide
    · cases u with
      | true => exact absurd rfl hu
      | false => cases he
  exact ⟨hall _ (.refl _), hall _ (.swap _ _ _)⟩

/-- A key that was removed comes back from the other branch. -/
theorem join_keeps_removed_key : ¬∀ ts', ts'.Perm [true, false] →
    GivesPublished { utils := dictUtils, versioning := false } 2 (twoBranches (.dict [("a", .value "0")])) (fun _ => []) ts' "x"
      (.dict [("b", .value "1")]) := fun h => by
  have hgives := h [true, false] (.refl _) ["a"]
  revert hgives
  decide

end Contexts
end Mistral
