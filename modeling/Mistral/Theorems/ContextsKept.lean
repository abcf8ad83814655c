import Mistral.Lib.ObjectSources
import Mistral.Theorems.SameContexts

/-! Which calls that compute contexts leave the stored dictionaries as they are, so that they give the same results again. -/

namespace Mistral
namespace Contexts
variable {τ : Type}

/-! ### Covered calls

Contexts share the nested dictionaries of those that are merged into them first, so these have to have what comes later. -/

section
variable (conf : DataFlowConf) (stored : Holder τ → Prop) (h : Heap (Holder τ))

/-- Without versioning the inbound context is what the published variables are written into, unless it is empty. -/
def OutboundCovered (t : τ) : Prop :=
  conf.versioning ∨ (h.entries (.inContext t) []).entries.isEmpty ∨
    match conf.mergeStrategy with
    | .merge => ∀ q m b, h.owner? (.inContext t) [] q = some m → h.owner? (.published t) [] q = some b → h.Has q m b
    | .replace => ∀ k v, h.get (.published t) [] k = some v → h.get (.inContext t) [] k = some v

/-- The column with the variables of the outbound context, without versioning. -/
def outboundColumn (t : τ) : Holder τ :=
  if (h.entries (.inContext t) []).entries.isEmpty then .published t else .inContext t

/-- The dictionary covers what the outbound context of `t` is made of. -/
def CoversOutbound (n : Holder τ) (t : τ) : Prop := h.Covers stored n (.inContext t) ∧ h.Covers stored n (.published t)

/-- The contexts, in the order in which they are merged, cover the later ones. -/
def UpstreamCovered (ts : List τ) (additive : Option (Holder τ)) : Prop :=
  if !conf.versioning then
    (∀ t ∈ ts, OutboundCovered conf h t) ∧ (ts.map (outboundColumn h) ++ ts.map Holder.published).Pairwise (h.Covers stored)
  else
    match ts.getLast? with
    | none => True
    | some last =>
      match additive.filter fun n => !(h.entries n []).entries.isEmpty with
      | some ctx => ¬stored ctx ∧ (∀ t ∈ ts, CoversOutbound stored h ctx t) ∧
        ts.Pairwise fun t u => CoversOutbound stored h (.published t) u
      | none => (last :: ts.dropLast).Pairwise fun t u => CoversOutbound stored h (.published t) u

/-- The layers of a view, the last one first, cover those before. -/
def ViewCovered (dicts : List (Holder τ)) : Prop := conf.mergeStrategy = .merge → dicts.reverse.Pairwise (h.Covers stored)

end

/-! ### What is kept -/

variable {conf : DataFlowConf} {depth : Nat} {stored : Holder τ → Prop} {s₀ s s' : Contexts τ} {n l r c : Holder τ} {t : τ}
  {L L' : List (Holder τ)} {A B : Set (Holder τ)}

/-- The stored dictionaries are as they were. -/
structure Keeps (stored : Holder τ → Prop) (s s' : Contexts τ) : Prop where
  get : ∀ n, stored n → ∀ q k, s'.heap.get n q k = s.heap.get n q k
  le : s.next ≤ s'.next

theorem Keeps.refl (s : Contexts τ) : Keeps stored s s := ⟨fun _ _ _ _ => rfl, Nat.le_refl _⟩

theorem Keeps.trans {s'' : Contexts τ} (h : Keeps stored s s') (h' : Keeps stored s' s'') : Keeps stored s s'' :=
  ⟨fun n hn q k => (h'.get n hn q k).trans (h.get n hn q k), Nat.le_trans h.le h'.le⟩

theorem Keeps.newDict : Keeps stored s s.newDict.2 := ⟨fun _ _ _ _ => rfl, Nat.le_succ _⟩

theorem Keeps.exists (h : Keeps stored s s') (hn : s.Exists n) : s'.Exists n := by
  cases n with
  | new i => exact Nat.lt_of_lt_of_le hn h.le
  | _ => trivial

theorem Keeps.mono {fewer : Holder τ → Prop} (h : Keeps stored s s') (hle : ∀ n, fewer n → stored n) : Keeps fewer s s' :=
  ⟨fun n hn => h.get n (hle n hn), h.le⟩

/-- What is stored has been made and leads to what is stored, and all columns are. -/
structure Stored (stored : Holder τ → Prop) (s : Contexts τ) : Prop where
  columns : ∀ t, stored (.inContext t) ∧ stored (.published t)
  closed : s.heap.Closed stored
  made : ∀ n, stored n → s.Exists n

theorem Stored.keeps (h : Stored stored s) (hk : Keeps stored s s') : Stored stored s' where
  columns := h.columns
  closed n q k m hn hget := h.closed n q k m hn ((hk.get n hn q k).symm.trans hget)
  made n hn := hk.exists (h.made n hn)

theorem Stored.not_new (h : Stored stored s) {i : Nat} (hi : s.next ≤ i) : ¬stored (.new i) := fun hs =>
  absurd (h.made _ hs) (Nat.not_lt.mpr hi)

theorem Stored.exists (hok : s.Ok) : Stored s.Exists s := ⟨fun _ => ⟨trivial, trivial⟩, hok.closed, fun _ hn => hn⟩

theorem Ok.alike (h : s.Ok) : Alike (fun _ => True) s s :=
  ⟨rfl, fun _ _ _ _ => rfl, fun _ _ _ _ _ _ => trivial, fun _ _ => trivial, h⟩

theorem Ok.exists_new (h : s.Ok) : ∀ k, s.heap.get (.new s.next) [] k = none := fun k =>
  h.fresh (.new s.next) (Nat.lt_irrefl s.next) [] k

theorem isEmpty_congr {h h' : Heap (Holder τ)} (hsame : ∀ k, h.get n [] k = h'.get n [] k) :
    (h.entries n []).entries.isEmpty = (h'.entries n []).entries.isEmpty := (perm_entries hsame).isEmpty_eq

/-! ### Dictionaries with the stored ones one level below -/

/-- The dictionary has been made of those in the list, and everything inside of it is stored. -/
structure Gathers (stored : Holder τ → Prop) (h₀ h : Heap (Holder τ)) (L : List (Holder τ)) (n : Holder τ) : Prop where
  madeOf : Heap.MadeOf (fun _ => True) stored h₀ h {a | a ∈ L} {b | b ∈ L} n
  inside : ∀ q m, q ≠ [] → h.owner? n [] q = some m → stored m

section
variable {h₀ h h' : Heap (Holder τ)}

theorem Gathers.of_stored (hclosed : h₀.Closed stored) (hsame : Heap.SameOn stored h h₀) (hn : stored n) :
    Gathers stored h₀ h [n] n where
  madeOf := by
    have hset : {a | a ∈ [n]} = ({n} : Set (Holder τ)) := Set.ext fun _ => List.mem_singleton
    rw [hset]
    exact .of_stored hclosed hsame hn
  inside q m _ hm := by
    have hclosed' : h.Closed stored := fun n q k m hn hget => hclosed n q k m hn ((hsame n hn q k).symm.trans hget)
    exact hclosed'.owner? hn hm

theorem Gathers.nil (hn : ∀ k, h.get n [] k = none) : Gathers stored h₀ h [] n where
  madeOf := by
    have hset : {a | a ∈ ([] : List (Holder τ))} = (∅ : Set (Holder τ)) :=
      Set.eq_empty_of_forall_notMem fun _ ha => List.not_mem_nil ha
    rw [hset]
    exact .empty hn
  inside q m hq hm := by
    cases q with
    | nil => exact absurd rfl hq
    | cons k q =>
      rw [Heap.owner?, hn k] at hm
      cases hm

theorem Gathers.blend (hn : Gathers stored h₀ h L n) (hr : Gathers stored h₀ h L' r)
    (hb : Heap.Blends (fun _ => True) r h h') :
    Gathers stored h₀ h' (L ++ L') n where
  madeOf := by
    have hset : {a | a ∈ L ++ L'} = {a | a ∈ L} ∪ {a | a ∈ L'} := Set.ext fun _ => List.mem_append
    rw [hset]
    exact hn.madeOf.blend hr.madeOf hb
  inside q m hq hm := (hb.owner? (fun _ _ => trivial) hm).elim (hn.inside q m hq) (hr.inside q m hq)

/-- A step that leaves the stored dictionaries and the top of this one. -/
theorem Gathers.congr (hn : Gathers stored h₀ h L n) (htop : ∀ k, h'.get n [] k = h.get n [] k)
    (hsame : ∀ m, stored m → ∀ q k, h'.get m q k = h.get m q k) : Gathers stored h₀ h' L n := by
  have hget : ∀ q m, h.owner? n [] q = some m → ∀ k, h'.get m q k = h.get m q k := fun q m hm k => by
    cases q with
    | nil =>
      obtain rfl : n = m := Option.some.inj hm
      exact htop k
    | cons k₀ q => exact hsame m (hn.inside _ m (List.cons_ne_nil k₀ q) hm) _ k
  refine ⟨hn.madeOf.congr hget, fun q m hq hm => ?_⟩
  exact hn.inside q m hq (Heap.owner?_of_congr hget hm)

section
variable [DecidableEq τ] {overwrite : Place → Bool}

theorem get_mergeAt_top (hn : n ≠ l) {k : String} : (h.mergeAt overwrite depth [] l r).get n [] k = h.get n [] k := by
  have hget : (h.mergeAt overwrite depth [] l r).get n ([] ++ []) k = _ := Heap.get_mergeAt
  rw [List.nil_append] at hget
  rw [hget, if_neg fun heq => hn (Option.some.inj heq.2).symm]

end
end

section
variable [DecidableEq τ]

/-- Merging into a dictionary that is not stored, where what it was made of covers what comes. -/
theorem Gathers.mergeDicts (depth : Nat) (hl : Gathers stored s₀.heap s.heap L l) (hr : Gathers stored s₀.heap s.heap L' r)
    (hk : Keeps stored s₀ s) (hc : ∀ a ∈ L, ∀ b ∈ L', s₀.heap.Covers stored a b) (hnot : ¬stored l) :
    Keeps stored s (s.mergeDicts depth l r) ∧ Gathers stored s₀.heap (s.mergeDicts depth l r).heap (L ++ L') l := by
  refine ⟨⟨fun n hn q k => ?_, Nat.le_refl _⟩, hl.blend hr Heap.blends_mergeAt⟩
  exact hl.madeOf.get_mergeAt hr.madeOf hc hk.get hnot (fun _ hvar => absurd trivial hvar) hn

/-- Merging a dictionary into one that has it already. -/
theorem get_mergeAt_of_has {h : Heap (Holder τ)} {q : Place} {k : String}
    (hh : ∀ q m b, h.owner? l [] q = some m → h.owner? r [] q = some b → h.Has q m b) :
    (h.mergeAt (fun _ => true) depth [] l r).get n q k = h.get n q k := by
  have hget : (h.mergeAt (fun _ => true) depth [] l r).get n ([] ++ q) k = _ := Heap.get_mergeAt
  rw [List.nil_append] at hget
  rw [hget]
  split
  next hleft =>
    split
    next b hright =>
      cases hv : h.get b q k with
      | none => cases h.get n q k <;> rfl
      | some v => exact Heap.mergeSlot_of_node (hh q n b hleft.2 hright k v.node (by rw [hv]; rfl))
    next => rfl
  next => rfl

theorem get_updateDict_of_ne (hn : n ≠ l) {q : Place} {k : String} : (s.updateDict l r).heap.get n q k = s.heap.get n q k := by
  rw [updateDict, Heap.get_updateAt, if_neg fun heq => hn heq.1]

/-- Without versioning, the outbound context of a covered execution is made of one of its columns. -/
theorem outbound_of_not_versioning (depth : Nat) (hversioning : conf.versioning = false) (hst : Stored stored s₀)
    (hk : Keeps stored s₀ s) (hok : s.Ok) (hc : OutboundCovered conf s₀.heap t) :
    Keeps stored s (evaluateTaskOutboundContext conf depth t s).2 ∧
      Gathers stored s₀.heap (evaluateTaskOutboundContext conf depth t s).2.heap [outboundColumn s₀.heap t]
        (evaluateTaskOutboundContext conf depth t s).1 ∧
      ∀ m, s.Exists m → ¬stored m → ∀ k, (evaluateTaskOutboundContext conf depth t s).2.heap.get m [] k = s.heap.get m [] k := by
  obtain ⟨hin, hpub⟩ := hst.columns t
  have hempty : (s.heap.entries (.inContext t) []).entries.isEmpty = (s₀.heap.entries (.inContext t) []).entries.isEmpty :=
    isEmpty_congr fun k => hk.get _ hin [] k
  have hpublished : Gathers stored s₀.heap s.heap [.published t] (.published t) := .of_stored hst.closed hk.get hpub
  have hctx : getInContextWithVersions conf depth t s =
      if (s₀.heap.entries (.inContext t) []).entries.isEmpty then s.newDict else (.inContext t, s) := by
    rw [getInContextWithVersions, hversioning, hempty]
    rfl
  unfold evaluateTaskOutboundContext outboundColumn
  rw [hctx]
  cases hfull : (s₀.heap.entries (.inContext t) []).entries.isEmpty with
  | true =>
    -- A new dictionary gets the published variables.
    have hnew : Gathers stored s₀.heap s.newDict.2.heap [] (.new s.next) := .nil hok.exists_new
    have hnot : ¬stored (.new s.next) := (hst.keeps hk).not_new (Nat.le_refl _)
    have hother : ∀ m, s.Exists m → m ≠ .new s.next := by
      rintro m hm rfl
      exact Nat.lt_irrefl s.next hm
    have hk' : Keeps stored s₀ s.newDict.2 := hk.trans .newDict
    cases conf.mergeStrategy with
    | merge =>
      obtain ⟨hkeeps, hgathers⟩ := hnew.mergeDicts depth hpublished hk' (fun a ha => absurd ha List.not_mem_nil) hnot
      exact ⟨Keeps.newDict.trans hkeeps, hgathers, fun m hm _ k => get_mergeAt_top (hother m hm)⟩
    | replace =>
      refine ⟨⟨fun m hm q k => ?_, Nat.le_succ _⟩, hnew.blend hpublished Heap.blends_updateAt, fun m hm _ k => ?_⟩
      · exact get_updateDict_of_ne (hother m ((hst.keeps hk).made m hm))
      · exact get_updateDict_of_ne (hother m hm)
  | false =>
    -- The inbound context itself, which has the published variables.
    have hsame : Heap.SameOn stored s.heap s₀.heap := hk.get
    have hclosed := (hst.keeps hk).closed
    rcases hc with hversions | hnone | hc
    · exact absurd (hversions.symm.trans hversioning) (by decide)
    · exact absurd (hnone.symm.trans hfull) (by decide)
    cases hstrategy : conf.mergeStrategy with
    | merge =>
      rw [hstrategy] at hc
      have hkept : ∀ m q k, (s.mergeDicts depth (.inContext t) (.published t)).heap.get m q k = s.heap.get m q k := by
        refine fun m q k => get_mergeAt_of_has fun q m b hm hb k x hx => ?_
        rw [hsame.owner? hclosed hin] at hm
        rw [hsame.owner? hclosed hpub] at hb
        rw [hsame b (hst.closed.owner? hpub hb)] at hx
        rw [hsame m (hst.closed.owner? hin hm)]
        exact hc q m b hm hb k x hx
      refine ⟨⟨fun m _ q k => hkept m q k, Nat.le_refl _⟩, ?_, fun m _ _ k => hkept m [] k⟩
      exact .of_stored hst.closed (fun m hm q k => (hkept m q k).trans (hsame m hm q k)) hin
    | replace =>
      rw [hstrategy] at hc
      have hkept : ∀ m q k, (s.updateDict (.inContext t) (.published t)).heap.get m q k = s.heap.get m q k := by
        intro m q k
        rw [updateDict, Heap.get_updateAt]
        split
        next heq =>
          obtain ⟨rfl, rfl⟩ := heq
          cases hv : s.heap.get (.published t) [] k with
          | none => rfl
          | some v =>
            rw [hsame _ hpub] at hv
            exact ((hsame _ hin [] k).trans (hc k v hv)).symm
        next => rfl
      refine ⟨⟨fun m _ q k => hkept m q k, Nat.le_refl _⟩, ?_, fun m _ _ k => hkept m [] k⟩
      exact .of_stored hst.closed (fun m hm q k => (hkept m q k).trans (hsame m hm q k)) hin

/-! ### Upstream contexts without versioning -/

/-- The two dictionaries that an upstream context is put together from: the published variables and the outbound contexts. -/
structure Gathered (stored : Holder τ → Prop) (s₀ s : Contexts τ) (l c : Holder τ) (P C : List (Holder τ)) : Prop where
  ok : s.Ok
  keeps : Keeps stored s₀ s
  published : Gathers stored s₀.heap s.heap P l
  ctx : Gathers stored s₀.heap s.heap C c
  made : s.Exists l ∧ s.Exists c
  notStored : ¬stored l ∧ ¬stored c
  ne : l ≠ c

variable {P C : List (Holder τ)}

theorem Gathered.addUpstream (depth : Nat) (h : Gathered stored s₀ s l c P C) (hversioning : conf.versioning = false)
    (hst : Stored stored s₀)
    (hc : OutboundCovered conf s₀.heap t) (hpublished : ∀ a ∈ P, s₀.heap.Covers stored a (.published t))
    (hctx : ∀ a ∈ C, s₀.heap.Covers stored a (outboundColumn s₀.heap t)) :
    Gathered stored s₀ (addUpstream conf depth l c s t) l c (P ++ [.published t]) (C ++ [outboundColumn s₀.heap t]) := by
  obtain ⟨-, hpub⟩ := hst.columns t
  -- The published variables.
  obtain ⟨hkeeps₁, hpublished₁⟩ := h.published.mergeDicts depth (.of_stored hst.closed h.keeps.get hpub) h.keeps
    (fun a ha b hb => List.mem_singleton.mp hb ▸ hpublished a ha) h.notStored.1
  have hctx₁ : Gathers stored s₀.heap (s.mergeDicts depth l (.published t)).heap C c :=
    h.ctx.congr (fun k => get_mergeAt_top (Ne.symm h.ne)) hkeeps₁.get
  have hknown : Known (fun _ => True) s (.published t) := ⟨trivial, trivial⟩
  have hok₁ : (s.mergeDicts depth l (.published t)).Ok := (h.ok.alike.mergeDicts ⟨trivial, h.made.1⟩ hknown).ok
  unfold Contexts.addUpstream
  have hmade₁ : (s.mergeDicts depth l (.published t)).Exists l ∧ (s.mergeDicts depth l (.published t)).Exists c := h.made
  generalize s.mergeDicts depth l (.published t) = s₁ at hkeeps₁ hpublished₁ hctx₁ hok₁ hmade₁ ⊢
  have hk₁ := h.keeps.trans hkeeps₁
  -- The outbound context.
  obtain ⟨hkeeps₂, hout, htop⟩ := outbound_of_not_versioning depth hversioning hst hk₁ hok₁ hc
  have htogether : Together (fun _ => True) s₁ (evaluateTaskOutboundContext conf depth t s₁)
    (evaluateTaskOutboundContext conf depth t s₁) := hok₁.alike.evaluateTaskOutboundContext trivial trivial
  generalize evaluateTaskOutboundContext conf depth t s₁ = a at hkeeps₂ hout htop htogether ⊢
  obtain ⟨n, s₂⟩ := a
  have hk₂ := hk₁.trans hkeeps₂
  have hpublished₂ := hpublished₁.congr (htop l hmade₁.1 h.notStored.1) hkeeps₂.get
  have hctx₂ := hctx₁.congr (htop c hmade₁.2 h.notStored.2) hkeeps₂.get
  -- It is merged into the context.
  obtain ⟨hkeeps₃, hctx₃⟩ := hctx₂.mergeDicts depth hout hk₂
    (fun a ha b hb => List.mem_singleton.mp hb ▸ hctx a ha) h.notStored.2
  exact {
    ok := (htogether.alike.ok.alike.mergeDicts ⟨trivial, hkeeps₂.exists hmade₁.2⟩ htogether.known).ok
    keeps := hk₂.trans hkeeps₃
    published := hpublished₂.congr (fun k => get_mergeAt_top h.ne) hkeeps₃.get
    ctx := hctx₃
    made := ⟨hkeeps₂.exists hmade₁.1, hkeeps₂.exists hmade₁.2⟩
    notStored := h.notStored
    ne := h.ne }

theorem Gathered.foldl (depth : Nat) (hversioning : conf.versioning = false) (hst : Stored stored s₀) {ts : List τ}
    (hc : ∀ t ∈ ts, OutboundCovered conf s₀.heap t) (h : Gathered stored s₀ s l c P C)
    (hpublished : (P ++ ts.map Holder.published).Pairwise (s₀.heap.Covers stored))
    (hctx : (C ++ ts.map (outboundColumn s₀.heap)).Pairwise (s₀.heap.Covers stored)) :
    Gathered stored s₀ (ts.foldl (Contexts.addUpstream conf depth l c) s) l c (P ++ ts.map Holder.published)
      (C ++ ts.map (outboundColumn s₀.heap)) := by
  induction ts generalizing s P C with
  | nil => rwa [List.map_nil, List.map_nil, List.append_nil, List.append_nil]
  | cons t ts ih =>
    have hnext := h.addUpstream depth hversioning hst (hc t List.mem_cons_self)
      (fun a ha => (List.pairwise_append.mp hpublished).2.2 a ha _ List.mem_cons_self)
      fun a ha => (List.pairwise_append.mp hctx).2.2 a ha _ List.mem_cons_self
    rw [List.map_cons, ← List.singleton_append, ← List.append_assoc] at hpublished hctx
    have hall := ih (fun u hu => hc u (List.mem_cons_of_mem t hu)) hnext hpublished hctx
    rw [List.append_assoc, List.append_assoc] at hall
    exact hall

theorem keeps_upstream_of_not_versioning (hversioning : conf.versioning = false) (hst : Stored stored s) (hok : s.Ok)
    {ts : List τ} {additive : Option (Holder τ)} (hc : UpstreamCovered conf stored s.heap ts additive) :
    Keeps stored s (evaluateUpstreamContext conf depth ts additive s).2 := by
  unfold UpstreamCovered at hc
  unfold evaluateUpstreamContext
  rw [hversioning] at hc ⊢
  obtain ⟨hcovered, hpairs⟩ := hc
  obtain ⟨hctx, hpublished, hboth⟩ := List.pairwise_append.mp hpairs
  obtain ⟨-, hl, hnew⟩ := hok.alike.newDict
  obtain ⟨-, hr, hnew'⟩ := hnew.ok.alike.newDict
  have hstart : Gathered stored s s.newDict.2.newDict.2 s.newDict.1 s.newDict.2.newDict.1 [] [] :=
    { ok := hnew'.ok
      keeps := Keeps.newDict.trans .newDict
      published := .nil hok.exists_new
      ctx := .nil hnew.ok.exists_new
      made := ⟨(hl.mono (Nat.le_succ _)).2, hr.2⟩
      notStored := ⟨hst.not_new (Nat.le_refl _), hst.not_new (Nat.le_succ _)⟩
      ne := fun heq => Nat.succ_ne_self s.next (Holder.new.inj heq).symm }
  have hend := hstart.foldl depth hversioning hst hcovered hpublished hctx
  obtain ⟨hkeeps, -⟩ := hend.ctx.mergeDicts depth hend.published hend.keeps hboth hend.notStored.2
  exact hend.keeps.trans hkeeps

/-! ### Views -/

theorem keeps_foldl_mergeDicts (hst : Stored stored s₀) {ds : List (Holder τ)} (hds : ∀ n ∈ ds, stored n)
    (hk : Keeps stored s₀ s) (hl : Gathers stored s₀.heap s.heap L l) (hnot : ¬stored l)
    (hc : (L ++ ds).Pairwise (s₀.heap.Covers stored)) :
    Keeps stored s₀ (ds.foldl (fun s d => s.mergeDicts depth l d) s) := by
  induction ds generalizing s L with
  | nil => exact hk
  | cons d ds ih =>
    obtain ⟨hd, hds⟩ := List.forall_mem_cons.mp hds
    obtain ⟨hkeeps, hnext⟩ := hl.mergeDicts depth (.of_stored hst.closed hk.get hd) hk
      (fun a ha b hb => List.mem_singleton.mp hb ▸ (List.pairwise_append.mp hc).2.2 a ha d List.mem_cons_self) hnot
    rw [← List.singleton_append, ← List.append_assoc] at hc
    exact ih hds (hk.trans hkeeps) hnext hc

theorem keeps_contextView (hst : Stored stored s) (hok : s.Ok) {dicts : List (Holder τ)} (hdicts : ∀ n ∈ dicts, stored n)
    (hc : ViewCovered conf stored s.heap dicts) : Keeps stored s (contextView conf depth dicts s).2 := by
  unfold contextView
  cases hstrategy : conf.mergeStrategy with
  | replace => exact .refl s
  | merge =>
    have hnew : Gathers stored s.heap s.newDict.2.heap [] (.new s.next) := .nil hok.exists_new
    exact keeps_foldl_mergeDicts hst (fun n hn => hdicts n (List.mem_reverse.mp hn)) .newDict hnew
      (hst.not_new (Nat.le_refl _)) (hc hstrategy)

/-! ### Outbound contexts with versioning -/

/-- The variables that are merged by versions. -/
def Variable (k : String) : Prop := k ≠ versionsKey

theorem not_inside_versions {q : Place} : ¬Heap.Inside Variable (versionsKey :: q) := fun hq => hq versionsKey rfl rfl

/-- The copy that is made with versioning leads to itself only. -/
theorem closed_getInContextWithVersions (conf : DataFlowConf) (depth : Nat) (t : τ) (hversioning : conf.versioning = true)
    (hok : s.Ok) :
    (getInContextWithVersions conf depth t s).1 = .new s.next ∧
      (getInContextWithVersions conf depth t s).2.heap.Closed (· = .new s.next) := by
  have hfirst : s.heap.Closed (· = .new s.next) := by
    rintro n q k m rfl hget
    exact absurd ((hok.fresh (.new s.next) (Nat.lt_irrefl s.next) q k).symm.trans hget) nofun
  have hcopied : (s.heap.copy (.inContext t) (.new s.next)).Closed (· = .new s.next) := hfirst.copy rfl
  have hversions : (setdefaultVersions (.new s.next) (s.heap.copy (.inContext t) (.new s.next))).Closed (· = .new s.next) := by
    unfold setdefaultVersions
    split
    · exact hcopied
    · exact hcopied.set fun m hm => (Slot.dict.inj hm).symm
  have hcounted : ∀ (keys : List String) (h : Heap (Holder τ)), h.Closed (· = .new s.next) →
      (keys.foldl (countUp (.new s.next)) h).Closed (· = .new s.next) := by
    intro keys
    induction keys with
    | nil => exact fun h hc => hc
    | cons key keys ih => exact fun h hc => ih _ (hc.set nofun)
  unfold getInContextWithVersions
  rw [hversioning]
  exact ⟨rfl, hcounted _ _ hversions⟩

/-- Counting the versions up changes nothing else. -/
theorem get_foldl_countUp {keys : List String} {h : Heap (Holder τ)} {m : Holder τ} {q : Place} {k : String}
    (hne : ¬(m = n ∧ q = [versionsKey])) : (keys.foldl (countUp n) h).get m q k = h.get m q k := by
  induction keys generalizing h with
  | nil => rfl
  | cons key keys ih => rw [List.foldl_cons, ih, get_countUp, if_neg fun heq => hne ⟨heq.1, heq.2.1⟩]

/-- What the copy has, apart from its versions, and what everything else has. -/
theorem get_getInContextWithVersions (hversioning : conf.versioning = true) {m : Holder τ} {q : Place} {k : String}
    (hne : m ≠ .new s.next ∨ Heap.Inside Variable (q ++ [k])) : (getInContextWithVersions conf depth t s).2.heap.get m q k =
      (s.heap.copy (.inContext t) (.new s.next)).get m q k := by
  have hplace : ¬(m = .new s.next ∧ q = [versionsKey]) := by
    rintro ⟨rfl, rfl⟩
    exact hne.elim (fun hne => hne rfl) not_inside_versions
  have htop : ¬(m = .new s.next ∧ q = [] ∧ k = versionsKey) := by
    rintro ⟨rfl, rfl, rfl⟩
    exact hne.elim (fun hne => hne rfl) not_inside_versions
  unfold getInContextWithVersions
  rw [hversioning]
  change ((updatedKeys conf depth s.heap [] (.published t)).foldl (countUp (.new s.next))
    (setdefaultVersions (.new s.next) (s.heap.copy (.inContext t) (.new s.next)))).get m q k = _
  rw [get_foldl_countUp hplace, setdefaultVersions]
  split
  · rfl
  · rw [Heap.get_set, if_neg htop]

theorem madeOf_copy {h₀ h : Heap (Holder τ)} (hclosed₀ : h₀.Closed stored) (hsame : Heap.SameOn stored h h₀) (hr : stored r)
    (hclosed : h.Closed (· = n)) (hn : ¬stored n) : Heap.MadeOf Variable stored h₀ (h.copy r n) ∅ {r} n := by
  have hown : ∀ q m, (h.copy r n).owner? n [] q = some m → m = n := fun q m hm => (hclosed.copy rfl).owner? rfl hm
  constructor
  · exact fun q m _ _ hm hs => absurd (hown q m hm ▸ hs) hn
  · intro q m k v _ hm hget
    obtain rfl := hown q m hm
    rw [Heap.get_copy, if_pos rfl] at hget
    obtain ⟨b, hb, hslot⟩ := Option.bind_eq_some_iff.mp hget
    obtain ⟨w, hw, rfl⟩ := Option.map_eq_some_iff.mp hslot
    have hclosed' : h.Closed stored := fun n q k m hn hget => hclosed₀ n q k m hn ((hsame n hn q k).symm.trans hget)
    refine ⟨r, rfl, b, (hsame.owner? hclosed' hr).symm.trans hb, ?_⟩
    rw [← hsame b (hclosed'.owner? hr hb), hw]
    cases w <;> rfl

/-- With versioning, an outbound context is a new dictionary, which shares dictionaries with the published variables only. -/
theorem outbound_of_versioning (depth : Nat) (t : τ) (hversioning : conf.versioning = true) (hst : Stored stored s₀)
    (hk : Keeps stored s₀ s) (hok : s.Ok) : (evaluateTaskOutboundContext conf depth t s).1 = .new s.next ∧
      (∀ m, m ≠ .new s.next → ∀ q k, (evaluateTaskOutboundContext conf depth t s).2.heap.get m q k = s.heap.get m q k) ∧
      Heap.MadeOf Variable stored s₀.heap (evaluateTaskOutboundContext conf depth t s).2.heap {.published t}
        ({.inContext t} ∪ {.published t}) (.new s.next) := by
  obtain ⟨hin, hpub⟩ := hst.columns t
  obtain ⟨hn, hclosed⟩ := closed_getInContextWithVersions conf depth t hversioning hok
  have hnot : ¬stored (.new s.next) := (hst.keeps hk).not_new (Nat.le_refl _)
  have hframe : ∀ m, m ≠ .new s.next → ∀ q k,
      (getInContextWithVersions conf depth t s).2.heap.get m q k = s.heap.get m q k := fun m hm q k => by
    rw [get_getInContextWithVersions hversioning (.inl hm), Heap.get_copy, if_neg hm]
  have hself : s.heap.Closed (· = .new s.next) := by
    rintro n q k m rfl hget
    exact absurd ((hok.fresh (.new s.next) (Nat.lt_irrefl s.next) q k).symm.trans hget) nofun
  have hcopy : Heap.MadeOf Variable stored s₀.heap (getInContextWithVersions conf depth t s).2.heap ∅ {.inContext t}
      (.new s.next) := by
    refine (madeOf_copy hst.closed hk.get hin hself hnot).fewer fun m q k v hinside hget => ?_
    rwa [get_getInContextWithVersions hversioning (.inr hinside)] at hget
  have hpublished : Heap.MadeOf Variable stored s₀.heap (getInContextWithVersions conf depth t s).2.heap {.published t}
      {.published t} (.published t) := by
    refine .of_stored hst.closed (fun m hm q k => ?_) hpub
    rw [hframe m (fun heq => hnot (heq ▸ hm)), hk.get m hm]
  unfold evaluateTaskOutboundContext
  generalize getInContextWithVersions conf depth t s = a at hn hclosed hframe hcopy hpublished ⊢
  obtain ⟨n, s'⟩ := a
  obtain rfl : n = .new s.next := hn
  cases conf.mergeStrategy with
  | merge =>
    refine ⟨rfl, fun m hm q k => ?_, ?_⟩
    · exact (Heap.get_mergeAt_of_closed hclosed rfl hm).trans (hframe m hm q k)
    · have hblend : Heap.MadeOf Variable stored s₀.heap (s'.mergeDicts depth (.new s.next) (.published t)).heap
          (∅ ∪ {.published t}) ({.inContext t} ∪ {.published t}) (.new s.next) := hcopy.blend hpublished Heap.blends_mergeAt
      rwa [Set.empty_union] at hblend
  | replace =>
    refine ⟨rfl, fun m hm q k => ?_, ?_⟩
    · exact (get_updateDict_of_ne hm).trans (hframe m hm q k)
    · have hblend : Heap.MadeOf Variable stored s₀.heap (s'.updateDict (.new s.next) (.published t)).heap
          (∅ ∪ {.published t}) ({.inContext t} ∪ {.published t}) (.new s.next) := hcopy.blend hpublished Heap.blends_updateAt
      rwa [Set.empty_union] at hblend

theorem removeInternalData_le {h : Heap (Holder τ)} {m : Holder τ} {q : Place} {k : String} {v : Slot (Holder τ)}
    (hget : (removeInternalData n h).get m q k = some v) : h.get m q k = some v := by
  rw [removeInternalData, Heap.get_erase] at hget
  split at hget
  · cases hget
  · rw [Heap.get_erase] at hget
    split at hget
    · cases hget
    · exact hget

theorem get_removeInternalData_versions {h : Heap (Holder τ)} : (removeInternalData n h).get n [] versionsKey = none := by
  rw [removeInternalData, Heap.get_erase, if_pos ⟨rfl, rfl, rfl⟩]

theorem get_removeInternalData {h : Heap (Holder τ)} {m : Holder τ} {q : Place} {k : String} (hm : m ≠ n) :
    (removeInternalData n h).get m q k = h.get m q k := by
  rw [removeInternalData, Heap.get_erase, if_neg fun heq => hm heq.1, Heap.get_erase, if_neg fun heq => hm heq.1]

/-- A context that is not stored, and what it has been made of. -/
structure Collects (stored : Holder τ → Prop) (s₀ s : Contexts τ) (n : Holder τ) (A B : Set (Holder τ)) : Prop where
  ok : s.Ok
  keeps : Keeps stored s₀ s
  madeOf : Heap.MadeOf Variable stored s₀.heap s.heap A B n
  made : s.Exists n
  notStored : ¬stored n

theorem Collects.mergeContextByVersion (h : Collects stored s₀ s l A B) (hst : Stored stored s₀) {B' : Set (Holder τ)}
    {A' : Set (Holder τ)} (hr : Collects stored s₀ s r A' B') (hc : ∀ a ∈ A, ∀ b ∈ B', s₀.heap.Covers stored a b) :
    Collects stored s₀ (mergeContextByVersion conf depth l r s) l (A ∪ A') (B ∪ B') := by
  have hnew : ¬stored (.new s.next) := (hst.keeps h.keeps).not_new (Nat.le_refl _)
  have hremoved : ∀ m, stored m → ∀ q k,
      (removeInternalData r (removeInternalData l s.heap)).get m q k = s.heap.get m q k := fun m hm q k => by
    have hmr : m ≠ r := fun heq => hr.notStored (heq ▸ hm)
    have hml : m ≠ l := fun heq => h.notStored (heq ▸ hm)
    rw [get_removeInternalData hmr, get_removeInternalData hml]
  have hfewer : ∀ m q k v, (removeInternalData r (removeInternalData l s.heap)).get m q k = some v →
      s.heap.get m q k = some v := fun m q k v hget => removeInternalData_le (removeInternalData_le hget)
  have hleft := h.madeOf.fewer fun m q k v _ => hfewer m q k v
  have hright := hr.madeOf.fewer fun m q k v _ => hfewer m q k v
  have hversions : ∀ k, ¬Variable k → (removeInternalData r (removeInternalData l s.heap)).get l [] k = none := fun k hk => by
    obtain rfl : k = versionsKey := not_not.mp hk
    cases hget : (removeInternalData r (removeInternalData l s.heap)).get l [] versionsKey with
    | none => rfl
    | some v => exact absurd (get_removeInternalData_versions.symm.trans (removeInternalData_le hget)) nofun
  have hsame : Heap.SameOn stored (removeInternalData r (removeInternalData l s.heap)) s₀.heap := fun m hm q k =>
    (hremoved m hm q k).trans (h.keeps.get m hm q k)
  have hmerged : Heap.MadeOf Variable stored s₀.heap (mergedByVersion conf depth l r s).heap (A ∪ A') (B ∪ B') l :=
    hleft.blend hright Heap.blends_mergeAt
  have hok : Alike (fun _ => True) (Contexts.mergeContextByVersion conf depth l r s)
    (Contexts.mergeContextByVersion conf depth l r s) := h.ok.alike.mergeContextByVersion ⟨trivial, h.made⟩ ⟨trivial, hr.made⟩
  have hkeeps : Keeps stored s (Contexts.mergeContextByVersion conf depth l r s) := by
    refine ⟨fun m hm q k => ?_, Nat.le_succ _⟩
    have hml : m ≠ l := fun heq => h.notStored (heq ▸ hm)
    have hmn : m ≠ .new s.next := fun heq => hnew (heq ▸ hm)
    change (((mergedByVersion conf depth l r s).heap.write (.new s.next) [versionsKey] _).set l [] versionsKey _).get m q k = _
    rw [Heap.get_set, if_neg fun heq => hml heq.1, Heap.get_write, if_neg fun heq => hmn heq.1]
    exact (hleft.get_mergeAt hright hc hsame h.notStored hversions hm).trans (hremoved m hm q k)
  refine ⟨hok.ok, h.keeps.trans hkeeps, hmerged.fewer fun m q k v hinside hget => ?_, hkeeps.exists h.made, h.notStored⟩
  change (((mergedByVersion conf depth l r s).heap.write (.new s.next) [versionsKey] _).set l [] versionsKey _).get m q k = _
    at hget
  rw [Heap.get_set, Heap.get_write] at hget
  split at hget
  next heq =>
    obtain ⟨-, rfl, rfl⟩ := heq
    exact absurd hinside not_inside_versions
  next =>
    split at hget
    next heq =>
      obtain ⟨-, rfl⟩ := heq
      exact absurd hinside not_inside_versions
    next => exact hget

theorem Collects.addUpstreamByVersion (h : Collects stored s₀ s l A B) (hversioning : conf.versioning = true)
    (hst : Stored stored s₀) (hc : ∀ a ∈ A, CoversOutbound stored s₀.heap a t) :
    Collects stored s₀ (addUpstreamByVersion conf depth l s t) l (A ∪ {.published t})
      (B ∪ ({.inContext t} ∪ {.published t})) := by
  obtain ⟨hn, hframe, hmadeOf⟩ := outbound_of_versioning depth t hversioning hst h.keeps h.ok
  have htogether : Together (fun _ => True) s (evaluateTaskOutboundContext conf depth t s)
    (evaluateTaskOutboundContext conf depth t s) := h.ok.alike.evaluateTaskOutboundContext trivial trivial
  unfold Contexts.addUpstreamByVersion
  generalize evaluateTaskOutboundContext conf depth t s = a at hn hframe hmadeOf htogether ⊢
  obtain ⟨n, s'⟩ := a
  obtain rfl : n = .new s.next := hn
  have hnot : ¬stored (.new s.next) := (hst.keeps h.keeps).not_new (Nat.le_refl _)
  have hkeeps : Keeps stored s s' := by
    refine ⟨fun m hm q k => hframe m (fun heq => hnot (heq ▸ hm)) q k, htogether.le⟩
  have hleft : Collects stored s₀ s' l A B := by
    refine ⟨htogether.alike.ok, h.keeps.trans hkeeps, h.madeOf.congr fun q m hm k => hframe m ?_ q k, hkeeps.exists h.made,
      h.notStored⟩
    rintro rfl
    exact Nat.lt_irrefl s.next (h.ok.closed.owner? h.made hm)
  have hright : Collects stored s₀ s' (.new s.next) {.published t} ({.inContext t} ∪ {.published t}) :=
    ⟨htogether.alike.ok, h.keeps.trans hkeeps, hmadeOf, htogether.known.2, hnot⟩
  refine hleft.mergeContextByVersion hst hright fun a ha b hb => ?_
  rcases hb with hb | hb
  · exact hb ▸ (hc a ha).1
  · exact hb ▸ (hc a ha).2

theorem Collects.foldl (hversioning : conf.versioning = true) (hst : Stored stored s₀) {ts : List τ}
    (h : Collects stored s₀ s l A B) (hc : ∀ a ∈ A, ∀ t ∈ ts, CoversOutbound stored s₀.heap a t)
    (hpairs : ts.Pairwise fun t u => CoversOutbound stored s₀.heap (.published t) u) :
    Keeps stored s₀ (ts.foldl (Contexts.addUpstreamByVersion conf depth l) s) := by
  induction ts generalizing s A B with
  | nil => exact h.keeps
  | cons t ts ih =>
    obtain ⟨hfirst, hpairs⟩ := List.pairwise_cons.mp hpairs
    refine ih (h.addUpstreamByVersion hversioning hst fun a ha => hc a ha t List.mem_cons_self) (fun a ha u hu => ?_) hpairs
    rcases ha with ha | ha
    · exact hc a ha u (List.mem_cons_of_mem t hu)
    · exact ha ▸ hfirst u hu

theorem keeps_evaluateUpstreamContext (hst : Stored stored s) (hok : s.Ok) {ts : List τ} {additive : Option (Holder τ)}
    (hadd : ∀ n ∈ additive, s.Exists n) (hc : UpstreamCovered conf stored s.heap ts additive) :
    Keeps stored s (evaluateUpstreamContext conf depth ts additive s).2 := by
  cases hversioning : conf.versioning with
  | false => exact keeps_upstream_of_not_versioning hversioning hst hok hc
  | true =>
    unfold UpstreamCovered at hc
    unfold evaluateUpstreamContext
    rw [hversioning] at hc ⊢
    simp only [Bool.not_true, Bool.false_eq_true, if_false] at hc ⊢
    cases hlast : ts.getLast? with
    | none => exact .newDict
    | some last =>
      rw [hlast] at hc
      dsimp only at hc ⊢
      cases hctx : additive.filter fun n => !(s.heap.entries n []).entries.isEmpty with
      | some ctx =>
        rw [hctx] at hc
        obtain ⟨hnot, hfirst, hpairs⟩ := hc
        have hstart : Collects stored s s ctx {ctx} {ctx} :=
          ⟨hok, .refl s, .self, hadd ctx (Option.eq_some_of_filter_eq_some hctx), hnot⟩
        exact hstart.foldl hversioning hst (fun a ha t ht => ha ▸ hfirst t ht) hpairs
      | none =>
        rw [hctx] at hc
        obtain ⟨hfirst, hpairs⟩ := List.pairwise_cons.mp hc
        obtain ⟨hn, hframe, hmadeOf⟩ := outbound_of_versioning depth last hversioning hst (.refl s) hok
        have htogether : Together (fun _ => True) s (evaluateTaskOutboundContext conf depth last s)
          (evaluateTaskOutboundContext conf depth last s) := hok.alike.evaluateTaskOutboundContext trivial trivial
        dsimp only
        generalize evaluateTaskOutboundContext conf depth last s = a at hn hframe hmadeOf htogether ⊢
        obtain ⟨n, s'⟩ := a
        obtain rfl : n = .new s.next := hn
        have hnot : ¬stored (.new s.next) := hst.not_new (Nat.le_refl _)
        have hkeeps : Keeps stored s s' :=
          ⟨fun m hm q k => hframe m (fun heq => hnot (heq ▸ hm)) q k, htogether.le⟩
        have hstart : Collects stored s s' (.new s.next) {.published last} ({.inContext last} ∪ {.published last}) :=
          ⟨htogether.alike.ok, hkeeps, hmadeOf, htogether.known.2, hnot⟩
        exact hstart.foldl hversioning hst (fun a ha t ht => ha ▸ hfirst t ht) hpairs

/-- An outbound context. -/
theorem keeps_evaluateTaskOutboundContext (hst : Stored stored s) (hok : s.Ok) (hc : OutboundCovered conf s.heap t) :
    Keeps stored s (evaluateTaskOutboundContext conf depth t s).2 := by
  cases hversioning : conf.versioning with
  | false => exact (outbound_of_not_versioning depth hversioning hst (.refl s) hok hc).1
  | true =>
    obtain ⟨-, hframe, -⟩ := outbound_of_versioning depth t hversioning hst (.refl s) hok
    have htogether : Together (fun _ => True) s (evaluateTaskOutboundContext conf depth t s)
      (evaluateTaskOutboundContext conf depth t s) := hok.alike.evaluateTaskOutboundContext trivial trivial
    refine ⟨fun m hm q k => hframe m (fun heq => ?_) q k, htogether.le⟩
    exact hst.not_new (Nat.le_refl _) (heq ▸ hm)

end
end Contexts

/-! ### Runs -/

/-- Dictionaries that lead to dictionaries that have been made, so that the next ones are new. -/
structure ContextStore (τ : Type) where
  contexts : Contexts τ
  ok : contexts.Ok

section
variable {τ : Type} (conf : DataFlowConf) (depth : Nat)

namespace ContextCall

/-- The call is about dictionaries that there are. -/
def Uses (exist : Holder τ → Prop) : ContextCall τ → Prop
  | .outbound _ => True
  | .upstream _ additive => ∀ n ∈ additive, exist n
  | .view dicts => ∀ n ∈ dicts, exist n

/-- What the call shares and merges covers what is merged into it, in the state in which it is made. -/
def Covered (stored : Holder τ → Prop) : ContextCall τ → Contexts τ → Prop
  | .outbound t, s => Contexts.OutboundCovered conf s.heap t
  | .upstream ts additive, s => Contexts.UpstreamCovered conf stored s.heap ts additive
  | .view dicts, s => Contexts.ViewCovered conf s.Exists s.heap dicts

end ContextCall

namespace ContextStore
variable (store : ContextStore τ)

section
variable [DecidableEq τ]

/-- Each call is covered in the state in which it is made. -/
def CoveredFrom : Contexts τ → List (ContextCall τ) → Prop
  | _, [] => True
  | s, call :: calls => call.Uses s.Exists ∧ call.Covered conf store.contexts.Exists s ∧
    CoveredFrom (call.run conf depth s).2 calls

/-- After some calls the dictionaries of the store are as they were, and every call on them gives what it would have given at
    the beginning. -/
structure Unchanged (s : Contexts τ) : Prop where
  same : ∀ n, store.contexts.Exists n → ∀ q, s.heap.node? n [] q = store.contexts.heap.node? n [] q
  results : ∀ call : ContextCall τ, call.Uses store.contexts.Exists →
    let first := call.run conf depth { store.contexts with next := s.next }
    (call.run conf depth s).1 = first.1 ∧
      ∀ n ∈ first.1, ∀ q, (call.run conf depth s).2.heap.node? n [] q = first.2.heap.node? n [] q

/-- A view leaves its layers as they are, those that other calls have made included. -/
def LayersKept (s : Contexts τ) (dicts : List (Holder τ)) : Prop :=
  ∀ n ∈ dicts, ∀ q, ((ContextCall.view dicts).run conf depth s).2.heap.node? n [] q = s.heap.node? n [] q

end
end ContextStore
end

section
variable {τ : Type} {conf : DataFlowConf} {depth : Nat} {owners stored : Holder τ → Prop} {s s₁ s₂ : Contexts τ}
  {call : ContextCall τ} {t : τ}

namespace Contexts

section
variable [DecidableEq τ]

theorem Alike.run (h : Alike owners s₁ s₂) (hown : ∀ t, owners (.inContext t) ∧ owners (.published t))
    (huses : call.Uses (Known owners s₁)) : Gives owners s₁ (call.run conf depth s₁) (call.run conf depth s₂) := by
  cases call with
  | outbound t =>
    have ht : Together owners s₁ (Contexts.evaluateTaskOutboundContext conf depth t s₁)
        (Contexts.evaluateTaskOutboundContext conf depth t s₂) := h.evaluateTaskOutboundContext (hown t).1 (hown t).2
    exact ⟨congrArg ([·]) ht.eq, List.forall_mem_singleton.mpr ht.known, ht.le, ht.alike⟩
  | upstream ts additive =>
    have ht : Together owners s₁ (Contexts.evaluateUpstreamContext conf depth ts additive s₁)
        (Contexts.evaluateUpstreamContext conf depth ts additive s₂) :=
      h.evaluateUpstreamContext (fun t _ => hown t) huses
    exact ⟨congrArg ([·]) ht.eq, List.forall_mem_singleton.mpr ht.known, ht.le, ht.alike⟩
  | view dicts => exact h.contextView huses

theorem Ok.run (h : s.Ok) (huses : call.Uses s.Exists) : (call.run conf depth s).2.Ok := by
  have huses' : call.Uses (Known (fun _ => True) s) := by
    cases call with
    | outbound t => trivial
    | upstream ts additive => exact fun n hn => ⟨trivial, huses n hn⟩
    | view dicts => exact fun n hn => ⟨trivial, huses n hn⟩
  exact (h.alike.run (fun _ => ⟨trivial, trivial⟩) huses').alike.ok

theorem keeps_run (hst : Stored stored s) (hok : s.Ok) (huses : call.Uses s.Exists) (h : call.Covered conf stored s) :
    Keeps stored s (call.run conf depth s).2 := by
  cases call with
  | outbound t => exact keeps_evaluateTaskOutboundContext hst hok h
  | upstream ts additive => exact keeps_evaluateUpstreamContext hst hok huses h
  | view dicts => exact (keeps_contextView (Stored.exists hok) hok huses h).mono hst.made

end

end Contexts

namespace ContextStore

open Contexts

variable {store : ContextStore τ} {calls : List (ContextCall τ)}

section
variable [DecidableEq τ]

theorem unchanged_of_keeps (hok : s.Ok) (hkeeps : Keeps store.contexts.Exists store.contexts s) :
    store.Unchanged conf depth s := by
  have hsame : Heap.SameOn store.contexts.Exists s.heap store.contexts.heap := hkeeps.get
  have hclosed : s.heap.Closed store.contexts.Exists := fun n q k m hn hget =>
    store.ok.closed n q k m hn ((hsame n hn q k).symm.trans hget)
  refine ⟨fun n hn q => hsame.node? hclosed hn, fun call huses => ?_⟩
  -- Both states are the same for the store and for what is still to be made.
  have halike : Alike (fun n => store.contexts.Exists n ∨ ¬s.Exists n) s { store.contexts with next := s.next } := by
    refine ⟨rfl, fun n hn q k => ?_, fun n q k m hn hget => ?_, fun i hi => .inr (Nat.not_lt.mpr hi), hok⟩
    · rcases hn with hn | hn
      · exact hsame n hn q k
      · rw [hok.fresh n hn]
        exact (store.ok.fresh n (fun hex => hn (hkeeps.exists hex)) q k).symm
    · rcases hn with hn | hn
      · exact .inl (hclosed n q k m hn hget)
      · exact absurd ((hok.fresh n hn q k).symm.trans hget) nofun
  have huses' : call.Uses (Known (fun n => store.contexts.Exists n ∨ ¬s.Exists n) s) := by
    cases call with
    | outbound t => trivial
    | upstream ts additive => exact fun n hn => ⟨.inl (huses n hn), hkeeps.exists (huses n hn)⟩
    | view dicts => exact fun n hn => ⟨.inl (huses n hn), hkeeps.exists (huses n hn)⟩
  have hgives : Gives (fun n => store.contexts.Exists n ∨ ¬s.Exists n) s (call.run conf depth s)
      (call.run conf depth { store.contexts with next := s.next }) := halike.run (fun t => ⟨.inl trivial, .inl trivial⟩) huses'
  refine ⟨hgives.eq, fun n hn q => hgives.alike.same.node? hgives.alike.closed ?_⟩
  exact (hgives.known n (hgives.eq ▸ hn)).1

theorem keeps_of_covered (h : store.CoveredFrom conf depth s calls) (hok : s.Ok)
    (hkeeps : Keeps store.contexts.Exists store.contexts s) {done : List (ContextCall τ)} (hdone : done <+: calls) :
    (s.runCalls conf depth done).Ok ∧ Keeps store.contexts.Exists store.contexts (s.runCalls conf depth done) := by
  induction calls generalizing s done with
  | nil => exact List.prefix_nil.mp hdone ▸ ⟨hok, hkeeps⟩
  | cons call calls ih =>
    cases done with
    | nil => exact ⟨hok, hkeeps⟩
    | cons call' done =>
      obtain ⟨rfl, htail⟩ := List.cons_prefix_cons.mp hdone
      obtain ⟨huses, hcovered, hrest⟩ := h
      have hst : Stored store.contexts.Exists s := (Stored.exists store.ok).keeps hkeeps
      exact ih hrest (hok.run huses) (hkeeps.trans (keeps_run hst hok huses hcovered)) htail

theorem coveredFrom_append {done rest : List (ContextCall τ)} (h : store.CoveredFrom conf depth s (done ++ rest)) :
    store.CoveredFrom conf depth (s.runCalls conf depth done) rest := by
  induction done generalizing s with
  | nil => exact h
  | cons call done ih => exact ih h.2.2

theorem layersKept_of_covered {dicts : List (Holder τ)} (hok : s.Ok) (huses : (ContextCall.view dicts).Uses s.Exists)
    (h : (ContextCall.view dicts).Covered conf stored s) : LayersKept conf depth s dicts := fun n hn q => by
  have hkeeps : Keeps s.Exists s ((ContextCall.view dicts).run conf depth s).2 :=
    keeps_contextView (Stored.exists hok) hok huses h
  have hsame : Heap.SameOn s.Exists ((ContextCall.view dicts).run conf depth s).2.heap s.heap := hkeeps.get
  exact hsame.node? ((Stored.exists hok).keeps hkeeps).closed (huses n hn)

/-- In every run of covered calls the stored dictionaries and the layers of views stay as they are, and every call gives the same
    result at any time. -/
theorem unchanged_by_covered_calls (h : store.CoveredFrom conf depth store.contexts calls) :
    ∀ done, done <+: calls → store.Unchanged conf depth (store.contexts.runCalls conf depth done) ∧
      ∀ dicts, done ++ [.view dicts] <+: calls → LayersKept conf depth (store.contexts.runCalls conf depth done) dicts := by
  intro done hdone
  obtain ⟨hok, hkeeps⟩ := keeps_of_covered h store.ok (.refl store.contexts) hdone
  refine ⟨unchanged_of_keeps hok hkeeps, fun dicts hview => ?_⟩
  obtain ⟨rest, rfl⟩ := hview
  rw [List.append_assoc] at h
  obtain ⟨huses, hcovered, -⟩ := coveredFrom_append h
  exact layersKept_of_covered hok huses hcovered

/-- A store in which nothing is shared yet. -/
def loaded (rows : τ → ContextRow) (layers : String → Dict) : ContextStore τ where
  contexts := .loaded rows layers
  ok := {
    fresh := fun n hn q k => by
      cases n with
      | new i =>
        rw [Contexts.loaded, Heap.get_ofTrees]
        cases q <;> rfl
      | _ => exact absurd trivial hn
    closed := fun n q k m hn hget => (Heap.owner_ofTrees hget).symm ▸ hn }

/-- Two executions that have published the variable `x`, one of them with an inbound context. -/
def twoRows : Bool → ContextRow
  | true => { inContext := [("a", .value "0")], published := [("x", .dict [("p", .value "1")])] }
  | false => { published := [("x", .dict [("q", .value "2")])] }

end

/-- With versioning, the outbound contexts of both and the upstream context of one of them change nothing. -/
theorem contexts_unchanged : (loaded twoRows fun _ => []).Unchanged { utils := dictUtils, versioning := true } 2
    ((loaded twoRows fun _ => []).contexts.runCalls { utils := dictUtils, versioning := true } 2
      [.outbound true, .upstream [true] none, .outbound false]) := by
  have hcovered : (loaded twoRows fun _ => []).CoveredFrom { utils := dictUtils, versioning := true } 2
      (loaded twoRows fun _ => []).contexts [.outbound true, .upstream [true] none, .outbound false] :=
    ⟨trivial, .inl rfl, fun _ hn => absurd hn (by rintro ⟨⟩), List.pairwise_singleton _ _, trivial, .inl rfl, trivial⟩
  exact (unchanged_by_covered_calls hcovered _ (List.prefix_refl _)).1

/-- Without versioning an outbound context is written into the inbound context of the execution, and with versioning an upstream
    context is merged into the published variables of its last execution. -/
theorem columns_written :
    ¬(loaded twoRows fun _ => []).Unchanged { utils := dictUtils, versioning := false } 2
        ((loaded twoRows fun _ => []).contexts.runCalls { utils := dictUtils, versioning := false } 2 [.outbound true]) ∧
      ¬(loaded twoRows fun _ => []).Unchanged { utils := dictUtils, versioning := true } 2
        ((loaded twoRows fun _ => []).contexts.runCalls { utils := dictUtils, versioning := true } 2
          [.upstream [true, false] none]) := by
  refine ⟨fun h => ?_, fun h => ?_⟩
  · exact absurd (h.same (.inContext true) trivial ["x"]) (by decide)
  · exact absurd (h.same (.published false) trivial ["x", "p"]) (by decide)

end ContextStore
end
end Mistral
