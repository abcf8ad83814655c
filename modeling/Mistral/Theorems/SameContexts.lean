import Mathlib.Data.List.Perm.Basic
import Mistral.Lib.ObjectWrites
import Mistral.Workflow.SharedContexts

/-! The calls that compute contexts give the same results in states that are the same for what they use. -/

namespace Mistral
namespace Contexts
variable {τ : Type} {conf : DataFlowConf} {depth : Nat} {owners : Holder τ → Prop} {s s₁ s₂ : Contexts τ}
  {n l r : Holder τ} {t : τ}

/-- The dictionary has been made. -/
def Exists (s : Contexts τ) : Holder τ → Prop
  | .new i => i < s.next
  | _ => True

/-- Dictionaries lead to dictionaries that have been made, and the others are empty. -/
structure Ok (s : Contexts τ) : Prop where
  fresh : ∀ n, ¬s.Exists n → ∀ q k, s.heap.get n q k = none
  closed : s.heap.Closed s.Exists

/-! ### The same calls in two states -/

/-- Two states that are the same for some dictionaries, among which all are that will be made. -/
structure Alike (owners : Holder τ → Prop) (s₁ s₂ : Contexts τ) : Prop where
  next : s₂.next = s₁.next
  same : Heap.SameOn owners s₁.heap s₂.heap
  closed : s₁.heap.Closed owners
  new : ∀ i, s₁.next ≤ i → owners (.new i)
  ok : s₁.Ok

/-- The dictionary has been made, and the states are the same for it. -/
def Known (owners : Holder τ → Prop) (s : Contexts τ) (n : Holder τ) : Prop := owners n ∧ s.Exists n

theorem Known.mono (h : Known owners s n) (hle : s.next ≤ s₁.next) : Known owners s₁ n := by
  refine ⟨h.1, ?_⟩
  cases n with
  | new i => exact Nat.lt_of_lt_of_le h.2 hle
  | _ => trivial

theorem Ok.heap {h : Heap (Holder τ)} (hok : s.Ok) (hclosed : h.Closed s.Exists)
    (hfresh : ∀ n, ¬s.Exists n → ∀ q k, h.get n q k = s.heap.get n q k) : ({ s with heap := h } : Contexts τ).Ok where
  fresh n hn q k := (hfresh n hn q k).trans (hok.fresh n hn q k)
  closed := hclosed

theorem Alike.newDict (h : Alike owners s₁ s₂) : s₁.newDict.1 = s₂.newDict.1 ∧ Known owners s₁.newDict.2 s₁.newDict.1 ∧
    Alike owners s₁.newDict.2 s₂.newDict.2 := by
  refine ⟨congrArg Holder.new h.next.symm, ⟨h.new _ (Nat.le_refl _), Nat.lt_succ_self s₁.next⟩, ?_⟩
  have hmono : ∀ n, s₁.Exists n → s₁.newDict.2.Exists n := fun n hn => by
    cases n with
    | new i => exact Nat.lt_succ_of_lt hn
    | _ => trivial
  refine ⟨congrArg (· + 1) h.next, h.same, h.closed, fun i hi => h.new i (Nat.le_of_succ_le hi), fun n hn q k => ?_, ?_⟩
  · exact h.ok.fresh n (fun hex => hn (hmono n hex)) q k
  · intro n q k m hn hget
    by_cases hex : s₁.Exists n
    · exact hmono m (h.ok.closed n q k m hex hget)
    · exact absurd ((h.ok.fresh n hex q k).symm.trans hget) nofun

section
variable [DecidableEq τ]

theorem Alike.mergeAt {overwrite₁ overwrite₂ : Place → Bool} (h : Alike owners s₁ s₂) (hl : Known owners s₁ l)
    (hr : Known owners s₁ r) (ho : overwrite₁ = overwrite₂) :
    Alike owners { s₁ with heap := s₁.heap.mergeAt overwrite₁ depth [] l r }
      { s₂ with heap := s₂.heap.mergeAt overwrite₂ depth [] l r } where
  next := h.next
  same := ho ▸ h.same.mergeAt h.closed hl.1 hr.1
  closed := h.closed.mergeAt hl.1 hr.1
  new := h.new
  ok := h.ok.heap (h.ok.closed.mergeAt hl.2 hr.2) fun _ hn _ _ => Heap.get_mergeAt_of_closed h.ok.closed hl.2 hn

theorem Alike.mergeDicts (h : Alike owners s₁ s₂) (hl : Known owners s₁ l) (hr : Known owners s₁ r) :
    Alike owners (s₁.mergeDicts depth l r) (s₂.mergeDicts depth l r) := h.mergeAt hl hr rfl

theorem Alike.updateDict (h : Alike owners s₁ s₂) (hl : Known owners s₁ l) (hr : Known owners s₁ r) :
    Alike owners (s₁.updateDict l r) (s₂.updateDict l r) where
  next := h.next
  same := h.same.updateAt hr.1
  closed := h.closed.updateAt hr.1
  new := h.new
  ok := h.ok.heap (h.ok.closed.updateAt hr.2) fun n hn q k => by
    rw [Heap.get_updateAt]
    refine if_neg ?_
    rintro ⟨rfl, -⟩
    exact hn hl.2

theorem Alike.set {p : Place} {k : String} {v : Slot (Holder τ)} (h : Alike owners s₁ s₂) (hn : Known owners s₁ n)
    (hv : ∀ m, v = .dict m → Known owners s₁ m) :
    Alike owners { s₁ with heap := s₁.heap.set n p k v } { s₂ with heap := s₂.heap.set n p k v } where
  next := h.next
  same := h.same.set
  closed := h.closed.set fun m hm => (hv m hm).1
  new := h.new
  ok := h.ok.heap (h.ok.closed.set fun m hm => (hv m hm).2) fun m hm q k => by
    rw [Heap.get_set]
    refine if_neg ?_
    rintro ⟨rfl, -⟩
    exact hm hn.2

theorem Alike.erase {p : Place} {k : String} (h : Alike owners s₁ s₂) (hn : Known owners s₁ n) :
    Alike owners { s₁ with heap := s₁.heap.erase n p k } { s₂ with heap := s₂.heap.erase n p k } where
  next := h.next
  same := h.same.erase
  closed := h.closed.erase
  new := h.new
  ok := h.ok.heap h.ok.closed.erase fun m hm q k => by
    rw [Heap.get_erase]
    refine if_neg ?_
    rintro ⟨rfl, -⟩
    exact hm hn.2

theorem Alike.copy (h : Alike owners s₁ s₂) (hr : Known owners s₁ r) (hn : Known owners s₁ n) :
    Alike owners { s₁ with heap := s₁.heap.copy r n } { s₂ with heap := s₂.heap.copy r n } where
  next := h.next
  same := h.same.copy h.closed hr.1
  closed := h.closed.copy hn.1
  new := h.new
  ok := h.ok.heap (h.ok.closed.copy hn.2) fun m hm q k => by
    rw [Heap.get_copy]
    refine if_neg ?_
    rintro rfl
    exact hm hn.2

theorem Alike.write {p : Place} {e₁ e₂ : AList fun _ : String => Slot (Holder τ)} (h : Alike owners s₁ s₂)
    (hn : Known owners s₁ n) (he : ∀ k, e₁.lookup k = e₂.lookup k)
    (hdicts : ∀ k m, e₁.lookup k = some (.dict m) → Known owners s₁ m) :
    Alike owners { s₁ with heap := s₁.heap.write n p e₁ } { s₂ with heap := s₂.heap.write n p e₂ } where
  next := h.next
  same := h.same.write he
  closed := h.closed.write fun k m hm => (hdicts k m hm).1
  new := h.new
  ok := h.ok.heap (h.ok.closed.write fun k m hm => (hdicts k m hm).2) fun m hm q k => by
    rw [Heap.get_write]
    refine if_neg ?_
    rintro ⟨rfl, -⟩
    exact hm hn.2

end

/-! ### Versions -/

theorem perm_entries {h₁ h₂ : Heap (Holder τ)} {p : Place} (hsame : ∀ k, h₁.get n p k = h₂.get n p k) :
    (h₁.entries n p).entries.Perm (h₂.entries n p).entries :=
  List.lookup_ext (h₁.entries n p).nodupKeys (h₂.entries n p).nodupKeys fun k v => by
    have := hsame k
    rw [Heap.get, Heap.get, AList.lookup, AList.lookup] at this
    rw [this]

theorem perm_updatedKeys {h₁ h₂ : Heap (Holder τ)} {p : Place} (hsame : Heap.SameOn owners h₁ h₂) (hclosed : h₁.Closed owners)
    (hn : owners n) : (updatedKeys conf depth h₁ p n).Perm (updatedKeys conf depth h₂ p n) := by
  induction depth generalizing p n with
  | zero => exact .refl _
  | succ depth ih =>
    rw [updatedKeys, updatedKeys]
    refine (perm_entries (hsame n hn p)).flatMap fun e he => ?_
    obtain ⟨k, v⟩ := e
    cases v with
    | value x => exact .refl _
    | dict m => exact ih (hclosed n p k m hn (AList.mem_lookup_iff.mpr he))

theorem versionOf_congr {v₁ v₂ : AList fun _ : String => Slot (Holder τ)} {key : String} (h : v₁.lookup key = v₂.lookup key) :
    versionOf v₁ key = versionOf v₂ key := by
  rw [versionOf, versionOf, h]

theorem Alike.versionsOf (h : Alike owners s₁ s₂) (hn : Known owners s₁ n) :
    (∀ k, (versionsOf s₁.heap n).lookup k = (versionsOf s₂.heap n).lookup k) ∧
      ∀ k m, (versionsOf s₁.heap n).lookup k = some (.dict m) → Known owners s₁ m := by
  unfold Contexts.versionsOf
  rw [← h.same n hn.1]
  split
  next m hm =>
    have hknown : Known owners s₁ m := ⟨h.closed n [] _ m hn.1 hm, h.ok.closed n [] _ m hn.2 hm⟩
    exact ⟨fun k => h.same m hknown.1 _ k, fun k m' hm' => ⟨h.closed m _ k m' hknown.1 hm', h.ok.closed m _ k m' hknown.2 hm'⟩⟩
  next => exact ⟨fun _ => rfl, nofun⟩

theorem Alike.refl_left (h : Alike owners s₁ s₂) : Alike owners s₁ s₁ := ⟨rfl, fun _ _ _ _ => rfl, h.closed, h.new, h.ok⟩

theorem Alike.trans {s₃ : Contexts τ} (h : Alike owners s₁ s₂) (h' : Alike owners s₂ s₃) : Alike owners s₁ s₃ :=
  ⟨h'.next.trans h.next, fun n hn q k => (h.same n hn q k).trans (h'.same n hn q k), h.closed, h.new, h.ok⟩

theorem lookup_mergeVersions {l r : AList fun _ : String => Slot (Holder τ)} {k : String} : (mergeVersions l r).lookup k =
    if (r.lookup k).isSome then some (.value (toString (max (versionOf l k) (versionOf r k)))) else l.lookup k := by
  have hfold : ∀ (es : List (Sigma fun _ : String => Slot (Holder τ))) (l : AList fun _ : String => Slot (Holder τ)),
      es.NodupKeys → (es.foldl (fun l e => l.insert e.1 (.value (toString (max (versionOf l e.1) (versionOf r e.1))))) l).lookup k =
        if (es.dlookup k).isSome then some (.value (toString (max (versionOf l k) (versionOf r k)))) else l.lookup k := by
    intro es
    induction es with
    | nil => exact fun l _ => rfl
    | cons e es ih =>
      intro l hes
      obtain ⟨k₀, v⟩ := e
      obtain ⟨hnot, hes⟩ := List.nodupKeys_cons.mp hes
      rw [List.foldl_cons, ih _ hes]
      by_cases hk : k = k₀
      · subst hk
        rw [List.dlookup_eq_none.mpr hnot, List.dlookup_cons_eq]
        simp
      · rw [List.dlookup_cons_ne _ _ (by exact hk)]
        have hl : ∀ v, (l.insert k₀ v).lookup k = l.lookup k := fun v => AList.lookup_insert_ne hk
        rw [hl, versionOf_congr (hl _)]
  exact hfold r.entries l r.nodupKeys

section
variable [DecidableEq τ]

theorem Alike.countUp {key : String} (h : Alike owners s₁ s₂) (hn : Known owners s₁ n) :
    Alike owners { s₁ with heap := countUp n s₁.heap key } { s₂ with heap := countUp n s₂.heap key } := by
  have hversion : versionOf (s₁.heap.entries n [versionsKey]) key = versionOf (s₂.heap.entries n [versionsKey]) key :=
    versionOf_congr (h.same n hn.1 _ key)
  rw [Contexts.countUp, Contexts.countUp, hversion]
  exact h.set hn nofun

theorem get_countUp {h : Heap (Holder τ)} {m : Holder τ} {q : Place} {key k : String} : (countUp n h key).get m q k =
    if m = n ∧ q = [versionsKey] ∧ k = key then
      some (.value (toString (versionOf (h.entries n [versionsKey]) key + 1)))
    else h.get m q k := Heap.get_set

theorem versionOf_countUp {h : Heap (Holder τ)} {key k : String} (hne : k ≠ key) :
    versionOf ((countUp n h key).entries n [versionsKey]) k = versionOf (h.entries n [versionsKey]) k :=
  versionOf_congr (get_countUp.trans (if_neg fun heq => hne heq.2.2))

/-- The versions may go up in any order. -/
theorem get_countUp_comm {h : Heap (Holder τ)} {m : Holder τ} {q : Place} {key key' k : String} :
    (countUp n (countUp n h key) key').get m q k = (countUp n (countUp n h key') key).get m q k := by
  by_cases hkeys : key = key'
  · rw [hkeys]
  · rw [get_countUp, get_countUp, get_countUp, get_countUp, versionOf_countUp (Ne.symm hkeys), versionOf_countUp hkeys]
    by_cases hplace : m = n ∧ q = [versionsKey] ∧ k = key
    · obtain ⟨rfl, rfl, rfl⟩ := hplace
      rw [if_neg fun heq => hkeys heq.2.2, if_pos ⟨rfl, rfl, rfl⟩, if_pos ⟨rfl, rfl, rfl⟩]
    · rw [if_neg hplace, if_neg hplace]

theorem Alike.foldl_countUp {keys : List String} (h : Alike owners s₁ s₂) (hn : Known owners s₁ n) :
    Alike owners { s₁ with heap := keys.foldl (Contexts.countUp n) s₁.heap }
      { s₂ with heap := keys.foldl (Contexts.countUp n) s₂.heap } := by
  induction keys generalizing s₁ s₂ with
  | nil => exact h
  | cons key keys ih => exact ih (h.countUp hn) hn

theorem Alike.foldl_perm {keys₁ keys₂ : List String} (hp : keys₁.Perm keys₂) (h : Alike owners s₁ s₂)
    (hn : Known owners s₁ n) : Alike owners { s₁ with heap := keys₁.foldl (Contexts.countUp n) s₁.heap }
      { s₂ with heap := keys₂.foldl (Contexts.countUp n) s₂.heap } := by
  induction hp generalizing s₁ s₂ with
  | nil => exact h
  | cons key _ ih => exact ih (h.countUp hn) hn
  | swap key key' keys =>
    have hfirst : Alike owners { s₁ with heap := Contexts.countUp n s₁.heap key' }
        { s₂ with heap := Contexts.countUp n s₂.heap key' } := h.countUp hn
    have hboth : Alike owners { s₁ with heap := Contexts.countUp n (Contexts.countUp n s₁.heap key') key }
        { s₂ with heap := Contexts.countUp n (Contexts.countUp n s₂.heap key') key } := hfirst.countUp hn
    have hswapped : Alike owners { s₁ with heap := Contexts.countUp n (Contexts.countUp n s₁.heap key') key }
        { s₂ with heap := Contexts.countUp n (Contexts.countUp n s₂.heap key) key' } :=
      ⟨hboth.next, fun m hm q k => (hboth.same m hm q k).trans get_countUp_comm, hboth.closed, hboth.new, hboth.ok⟩
    exact hswapped.foldl_countUp hn
  | trans _ _ ih₁ ih₂ => exact (ih₁ h.refl_left hn).trans (ih₂ h hn)

theorem Alike.removeInternalData (h : Alike owners s₁ s₂) (hn : Known owners s₁ n) :
    Alike owners { s₁ with heap := removeInternalData n s₁.heap } { s₂ with heap := removeInternalData n s₂.heap } := by
  have hfirst : Alike owners { s₁ with heap := s₁.heap.erase n [] taskExecutionKey }
      { s₂ with heap := s₂.heap.erase n [] taskExecutionKey } := h.erase hn
  exact hfirst.erase hn

/-- Where a value of the right context is newer. -/
def newer (conf : DataFlowConf) (h : Heap (Holder τ)) (l r : Holder τ) (p : Place) : Bool :=
  versionOf (versionsOf h l) (conf.hashed (versionKey p)) < versionOf (versionsOf h r) (conf.hashed (versionKey p))

/-- The contexts merged, before the left one gets its versions. -/
def mergedByVersion (conf : DataFlowConf) (depth : Nat) (l r : Holder τ) (s : Contexts τ) : Contexts τ :=
  let removed := removeInternalData r (removeInternalData l s.heap)
  { s with heap := removed.mergeAt (newer conf s.heap l r) depth [] l r }

theorem Alike.mergeContextByVersion (h : Alike owners s₁ s₂) (hl : Known owners s₁ l) (hr : Known owners s₁ r) :
    Alike owners (mergeContextByVersion conf depth l r s₁) (mergeContextByVersion conf depth l r s₂) := by
  obtain ⟨hleft, hdicts⟩ := h.versionsOf hl
  obtain ⟨hright, -⟩ := h.versionsOf hr
  have hnewer : newer conf s₁.heap l r = newer conf s₂.heap l r := funext fun p => by
    rw [newer, newer, versionOf_congr (hleft _), versionOf_congr (hright _)]
  have hremoved : Alike owners
      { s₁ with heap := Contexts.removeInternalData r (Contexts.removeInternalData l s₁.heap) }
      { s₂ with heap := Contexts.removeInternalData r (Contexts.removeInternalData l s₂.heap) } :=
    (h.removeInternalData hl).removeInternalData hr
  have hmerged : Alike owners (mergedByVersion conf depth l r s₁) (mergedByVersion conf depth l r s₂) :=
    hremoved.mergeAt hl hr hnewer
  obtain ⟨-, hn, hnew⟩ := hmerged.newDict
  have hle : s₁.next ≤ s₁.next + 1 := Nat.le_succ _
  have hlookup : ∀ k, (mergeVersions (Contexts.versionsOf s₁.heap l) (Contexts.versionsOf s₁.heap r)).lookup k =
      (mergeVersions (Contexts.versionsOf s₂.heap l) (Contexts.versionsOf s₂.heap r)).lookup k := fun k => by
    rw [lookup_mergeVersions, lookup_mergeVersions, hleft, hright, versionOf_congr (hleft k), versionOf_congr (hright k)]
  have hknown : ∀ k m, (mergeVersions (Contexts.versionsOf s₁.heap l) (Contexts.versionsOf s₁.heap r)).lookup k =
      some (.dict m) → Known owners s₁ m := fun k m hm => by
    rw [lookup_mergeVersions] at hm
    split at hm
    · cases hm
    · exact hdicts k m hm
  have hwritten := hnew.write (p := [versionsKey]) hn hlookup fun k m hm => (hknown k m hm).mono hle
  have hset := hwritten.set (p := []) (k := versionsKey) (v := .dict (.new s₁.next)) (hl.mono hle) fun m hm =>
    Slot.dict.inj hm ▸ hn
  have hnext : s₂.next = s₁.next := h.next
  have hs₂ : Contexts.mergeContextByVersion conf depth l r s₂ = { (mergedByVersion conf depth l r s₂).newDict.2 with
      heap := ((mergedByVersion conf depth l r s₂).heap.write (.new s₂.next) [versionsKey]
        (mergeVersions (Contexts.versionsOf s₂.heap l) (Contexts.versionsOf s₂.heap r))).set l [] versionsKey
          (.dict (.new s₂.next)) } := rfl
  rw [hs₂, hnext]
  exact hset

end

/-! ### Outbound contexts -/

/-- The same dictionary is given in both states, which are the same for it. -/
structure Together (owners : Holder τ → Prop) (s₁ : Contexts τ) (a b : Holder τ × Contexts τ) : Prop where
  eq : a.1 = b.1
  known : Known owners a.2 a.1
  le : s₁.next ≤ a.2.next
  alike : Alike owners a.2 b.2

theorem Alike.together_newDict (h : Alike owners s₁ s₂) : Together owners s₁ s₁.newDict s₂.newDict := by
  obtain ⟨heq, hknown, hnew⟩ := h.newDict
  exact ⟨heq, hknown, Nat.le_succ _, hnew⟩

section
variable [DecidableEq τ]

/-- `setdefault` of the versions. -/
def setdefaultVersions (n : Holder τ) (h : Heap (Holder τ)) : Heap (Holder τ) :=
  if (h.get n [] versionsKey).isSome then h else h.set n [] versionsKey (.dict n)

theorem Alike.setdefaultVersions (h : Alike owners s₁ s₂) (hn : Known owners s₁ n) :
    Alike owners { s₁ with heap := setdefaultVersions n s₁.heap } { s₂ with heap := setdefaultVersions n s₂.heap } := by
  unfold Contexts.setdefaultVersions
  rw [h.same n hn.1]
  split
  · exact h
  · exact h.set hn fun m hm => Slot.dict.inj hm ▸ hn

theorem Alike.getInContextWithVersions (h : Alike owners s₁ s₂) (hin : Known owners s₁ (.inContext t))
    (hpub : Known owners s₁ (.published t)) : Together owners s₁ (getInContextWithVersions conf depth t s₁)
      (getInContextWithVersions conf depth t s₂) := by
  obtain ⟨h₂, next⟩ := s₂
  obtain rfl : next = s₁.next := h.next
  unfold Contexts.getInContextWithVersions
  cases conf.versioning with
  | false =>
    rw [(perm_entries (h.same _ hin.1 [])).isEmpty_eq]
    simp only [Bool.not_false, if_true]
    split
    · exact h.together_newDict
    · exact ⟨rfl, hin, Nat.le_refl _, h⟩
  | true =>
    obtain ⟨heq, hn, hnew⟩ := h.newDict
    have hle : s₁.next ≤ s₁.newDict.2.next := Nat.le_succ _
    have hcopied := (hnew.copy (hin.mono hle) hn).setdefaultVersions hn
    have hkeys : (updatedKeys conf depth s₁.heap [] (.published t)).Perm (updatedKeys conf depth h₂ [] (.published t)) :=
      perm_updatedKeys h.same h.closed hpub.1
    exact ⟨heq, hn, hle, hcopied.foldl_perm hkeys hn⟩

theorem Alike.evaluateTaskOutboundContext (h : Alike owners s₁ s₂) (hin : owners (.inContext t))
    (hpub : owners (.published t)) : Together owners s₁ (evaluateTaskOutboundContext conf depth t s₁)
      (evaluateTaskOutboundContext conf depth t s₂) := by
  have hctx : Together owners s₁ (Contexts.getInContextWithVersions conf depth t s₁)
      (Contexts.getInContextWithVersions conf depth t s₂) := h.getInContextWithVersions ⟨hin, trivial⟩ ⟨hpub, trivial⟩
  unfold Contexts.evaluateTaskOutboundContext
  generalize Contexts.getInContextWithVersions conf depth t s₁ = a at hctx ⊢
  generalize Contexts.getInContextWithVersions conf depth t s₂ = b at hctx ⊢
  obtain ⟨n, s⟩ := a
  obtain ⟨n', s'⟩ := b
  obtain ⟨heq, hn, hle, halike⟩ := hctx
  obtain rfl : n = n' := heq
  cases conf.mergeStrategy with
  | merge => exact ⟨rfl, hn, hle, halike.mergeDicts hn ⟨hpub, trivial⟩⟩
  | replace => exact ⟨rfl, hn, hle, halike.updateDict hn ⟨hpub, trivial⟩⟩

/-! ### Upstream contexts and views -/

/-- Two states that remain the same after a step. -/
def Onward (owners : Holder τ → Prop) (s₁ s₁' s₂' : Contexts τ) : Prop := s₁.next ≤ s₁'.next ∧ Alike owners s₁' s₂'

theorem Alike.addUpstream (h : Alike owners s₁ s₂) (ht : owners (.inContext t) ∧ owners (.published t))
    (hl : Known owners s₁ l) (hr : Known owners s₁ r) :
    Onward owners s₁ (addUpstream conf depth l r s₁ t) (addUpstream conf depth l r s₂ t) := by
  have hmerged : Alike owners (s₁.mergeDicts depth l (.published t)) (s₂.mergeDicts depth l (.published t)) :=
    h.mergeDicts hl ⟨ht.2, trivial⟩
  have hctx : Together owners (s₁.mergeDicts depth l (.published t))
      (Contexts.evaluateTaskOutboundContext conf depth t (s₁.mergeDicts depth l (.published t)))
      (Contexts.evaluateTaskOutboundContext conf depth t (s₂.mergeDicts depth l (.published t))) :=
    hmerged.evaluateTaskOutboundContext ht.1 ht.2
  unfold Contexts.addUpstream
  generalize Contexts.evaluateTaskOutboundContext conf depth t (s₁.mergeDicts depth l (.published t)) = a at hctx ⊢
  generalize Contexts.evaluateTaskOutboundContext conf depth t (s₂.mergeDicts depth l (.published t)) = b at hctx ⊢
  obtain ⟨n, s⟩ := a
  obtain ⟨n', s'⟩ := b
  obtain ⟨heq, hn, hle, halike⟩ := hctx
  obtain rfl : n = n' := heq
  exact ⟨hle, halike.mergeDicts (hr.mono hle) hn⟩

theorem Alike.addUpstreamByVersion (h : Alike owners s₁ s₂) (ht : owners (.inContext t) ∧ owners (.published t))
    (hl : Known owners s₁ l) :
    Onward owners s₁ (addUpstreamByVersion conf depth l s₁ t) (addUpstreamByVersion conf depth l s₂ t) := by
  have hctx : Together owners s₁ (Contexts.evaluateTaskOutboundContext conf depth t s₁)
      (Contexts.evaluateTaskOutboundContext conf depth t s₂) := h.evaluateTaskOutboundContext ht.1 ht.2
  unfold Contexts.addUpstreamByVersion
  generalize Contexts.evaluateTaskOutboundContext conf depth t s₁ = a at hctx ⊢
  generalize Contexts.evaluateTaskOutboundContext conf depth t s₂ = b at hctx ⊢
  obtain ⟨n, s⟩ := a
  obtain ⟨n', s'⟩ := b
  obtain ⟨heq, hn, hle, halike⟩ := hctx
  obtain rfl : n = n' := heq
  exact ⟨Nat.le_succ_of_le hle, halike.mergeContextByVersion (hl.mono hle) hn⟩

end

/-- The states remain the same when a step is made for each element. -/
theorem Alike.foldl {α : Type} (h : Alike owners s₁ s₂) (step : Contexts τ → α → Contexts τ) (as : List α)
    (hstep : ∀ a ∈ as, ∀ s₁' s₂', s₁.next ≤ s₁'.next → Alike owners s₁' s₂' → Onward owners s₁' (step s₁' a) (step s₂' a)) :
    Onward owners s₁ (as.foldl step s₁) (as.foldl step s₂) := by
  induction as generalizing s₁ s₂ with
  | nil => exact ⟨Nat.le_refl _, h⟩
  | cons a as ih =>
    obtain ⟨hle, hnext⟩ := hstep a List.mem_cons_self s₁ s₂ (Nat.le_refl _) h
    obtain ⟨hle', hlast⟩ := ih hnext fun a' ha' s₁' s₂' hs => hstep a' (List.mem_cons_of_mem a ha') s₁' s₂' (Nat.le_trans hle hs)
    exact ⟨Nat.le_trans hle hle', hlast⟩

section
variable [DecidableEq τ]

theorem Alike.evaluateUpstreamContext {ts : List τ} {additive : Option (Holder τ)} (h : Alike owners s₁ s₂)
    (hts : ∀ t ∈ ts, owners (.inContext t) ∧ owners (.published t)) (hadd : ∀ n ∈ additive, Known owners s₁ n) :
    Together owners s₁ (evaluateUpstreamContext conf depth ts additive s₁)
      (evaluateUpstreamContext conf depth ts additive s₂) := by
  unfold Contexts.evaluateUpstreamContext
  cases conf.versioning with
  | false =>
    obtain ⟨h₂, next⟩ := s₂
    obtain rfl : next = s₁.next := h.next
    obtain ⟨-, hpub, hnew⟩ := h.newDict
    obtain ⟨-, hctx, hnew⟩ := hnew.newDict
    have hle : s₁.newDict.2.next ≤ s₁.newDict.2.newDict.2.next := Nat.le_succ _
    have hpub := hpub.mono hle
    obtain ⟨hfold, halike⟩ := hnew.foldl (Contexts.addUpstream conf depth s₁.newDict.1 s₁.newDict.2.newDict.1) ts
      fun t ht s₁' s₂' hle h => h.addUpstream (hts t ht) (hpub.mono hle) (hctx.mono hle)
    refine ⟨rfl, hctx.mono hfold, ?_, halike.mergeDicts (hctx.mono hfold) (hpub.mono hfold)⟩
    exact Nat.le_trans (Nat.le_add_right s₁.next 2) hfold
  | true =>
    simp only [Bool.not_true, Bool.false_eq_true, if_false]
    cases hlast : ts.getLast? with
    | none => exact h.together_newDict
    | some last =>
      have hlast := hts last (List.mem_of_getLast? hlast)
      have hfilter : (additive.filter fun n => !(s₁.heap.entries n []).entries.isEmpty) =
          additive.filter fun n => !(s₂.heap.entries n []).entries.isEmpty := by
        cases additive with
        | none => rfl
        | some n => simp only [Option.filter, (perm_entries (h.same n (hadd n rfl).1 [])).isEmpty_eq]
      dsimp only
      rw [hfilter]
      cases hctx : additive.filter fun n => !(s₂.heap.entries n []).entries.isEmpty with
      | some ctx =>
        have hknown : Known owners s₁ ctx := hadd ctx (Option.eq_some_of_filter_eq_some hctx)
        obtain ⟨hle, halike⟩ := h.foldl (Contexts.addUpstreamByVersion conf depth ctx) ts
          fun t ht s₁' s₂' hle h => h.addUpstreamByVersion (hts t ht) (hknown.mono hle)
        exact ⟨rfl, hknown.mono hle, hle, halike⟩
      | none =>
        have hfirst : Together owners s₁ (Contexts.evaluateTaskOutboundContext conf depth last s₁)
            (Contexts.evaluateTaskOutboundContext conf depth last s₂) := h.evaluateTaskOutboundContext hlast.1 hlast.2
        dsimp only
        generalize Contexts.evaluateTaskOutboundContext conf depth last s₁ = a at hfirst ⊢
        generalize Contexts.evaluateTaskOutboundContext conf depth last s₂ = b at hfirst ⊢
        obtain ⟨n, s⟩ := a
        obtain ⟨n', s'⟩ := b
        obtain ⟨heq, hn, hle, halike⟩ := hfirst
        obtain rfl : n = n' := heq
        obtain ⟨hle', halike⟩ := halike.foldl (Contexts.addUpstreamByVersion conf depth n) ts.dropLast
          fun t ht s₁' s₂' hle h => h.addUpstreamByVersion (hts t (List.dropLast_subset ts ht)) (hn.mono hle)
        exact ⟨rfl, hn.mono hle', Nat.le_trans hle hle', halike⟩

/-- The same dictionaries are given in both states. -/
structure Gives (owners : Holder τ → Prop) (s₁ : Contexts τ) (a b : List (Holder τ) × Contexts τ) : Prop where
  eq : a.1 = b.1
  known : ∀ n ∈ a.1, Known owners a.2 n
  le : s₁.next ≤ a.2.next
  alike : Alike owners a.2 b.2

theorem Alike.contextView {dicts : List (Holder τ)} (h : Alike owners s₁ s₂) (hdicts : ∀ n ∈ dicts, Known owners s₁ n) :
    Gives owners s₁ (contextView conf depth dicts s₁) (contextView conf depth dicts s₂) := by
  unfold Contexts.contextView
  cases conf.mergeStrategy with
  | replace => exact ⟨rfl, hdicts, Nat.le_refl _, h⟩
  | merge =>
    obtain ⟨h₂, next⟩ := s₂
    obtain rfl : next = s₁.next := h.next
    obtain ⟨-, hn, hnew⟩ := h.newDict
    have hle : s₁.next ≤ s₁.newDict.2.next := Nat.le_succ _
    obtain ⟨hfold, halike⟩ := hnew.foldl (fun s d => s.mergeDicts depth s₁.newDict.1 d) dicts.reverse
      fun d hd s₁' s₂' hs h => ⟨Nat.le_refl _, h.mergeDicts (hn.mono hs)
        ((hdicts d (List.mem_reverse.mp hd)).mono (Nat.le_trans hle hs))⟩
    exact ⟨rfl, List.forall_mem_singleton.mpr (hn.mono hfold), Nat.le_trans hle hfold, halike⟩

end
end Contexts
end Mistral
