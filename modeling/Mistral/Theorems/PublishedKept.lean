import Mistral.Engine.GlobalPublishing

/-! The context of a workflow has all that its tasks have published, where every change reaches the column and nobody
    overwrites the change of another. -/

namespace Mistral

/-- The context has each variable and each nested key that some task has published, with the value of such a task. -/
def Dict.HasPublished (context : Dict) (published : List Dict) : Prop :=
  ∀ d ∈ published, ∀ p, (Dict.node? d p).isSome →
    ∃ d' ∈ published, (Dict.node? d' p).isSome ∧ Dict.node? context p = Dict.node? d' p

namespace Publishing
variable {τ : Type} [DecidableEq τ] {m : MergeDicts} {s s' : Publishing τ} {t u : τ}

/-- A transaction that sets a key of the context writes back what is stored, with its changes, and puts no other value
    in the place of a dictionary with keys that a task has published. What any other transaction publishes is there. -/
def Keeps (s : Publishing τ) : PublishEvent τ → Prop
  | .run t =>
    match s.step t with
    | .writeBack context vars => Dict.SetsKey context vars → s.context.committed = context
    | .commit context vars =>
      if Dict.SetsKey context vars then
        ∀ d ∈ s.published, ∀ p k q x, Dict.node? vars p = some (.value x) → Dict.node? d (p ++ k :: q) = none
      else ∀ p, (Dict.node? vars p).isSome → Dict.node? s.context.committed p = Dict.node? vars p
    | _ => True
  | _ => True

/-- A transaction has written the merged context when it comes to its commit, if it sets a key of it. -/
def Wrote (m : MergeDicts) (s : Publishing τ) (t : τ) : Prop :=
  match s.step t with
  | .commit context vars =>
    if m.sets context vars then s.context.own t = some (m.merge context vars) ∧ s.context.committed = context
    else s.context.own t = none
  | _ => s.context.own t = none

/-- A step of others leaves a transaction alone. -/
theorem Wrote.apart (h : s.Wrote m t) (hstep : s'.step t = s.step t) (hown : s'.context.own t = s.context.own t)
    (hcommitted : s.context.own t ≠ none → s'.context.committed = s.context.committed) : s'.Wrote m t := by
  unfold Wrote at h ⊢
  rw [hstep, hown]
  split at h
  next context vars hs =>
    by_cases hsets : m.sets context vars
    · rw [if_pos hsets] at h ⊢
      rw [hcommitted (by simp [h.1])]
      exact h
    · rw [if_neg hsets] at h ⊢
      exact h
  · exact h

@[simp] theorem step_goTo {st : PublishStep} : (s.goTo t st).step u = if u = t then st else s.step u := by
  simp [goTo, Function.update_apply]

/-- Merging keeps what tasks have published, and adds what this one publishes. -/
theorem hasPublished_merge (hm : m.InPlace) {context vars : Dict} {published : List Dict}
    (h : Dict.HasPublished context published)
    (hkept : ∀ d ∈ published, ∀ p k q x, Dict.node? vars p = some (.value x) → Dict.node? d (p ++ k :: q) = none) :
    Dict.HasPublished (m.merge context vars) (vars :: published) := by
  intro d hd p hp
  cases hvars : Dict.node? vars p with
  | some n => exact ⟨vars, by simp, by simp [hvars], by rw [hm.merge.node?_of_some hvars, hvars]⟩
  | none =>
    obtain rfl | hd := List.mem_cons.mp hd
    · simp [hvars] at hp
    · obtain ⟨d', hd', hsome, hnode⟩ := h d hd p hp
      refine ⟨d', by simp [hd'], hsome, ?_⟩
      rw [hm.merge.node?_of_none hvars fun q k q' hpath x hq => ?_, hnode]
      rw [hpath, hkept d hd q k q' x hq] at hp
      cases hp

theorem hasPublished_same {context vars : Dict} {published : List Dict} (h : Dict.HasPublished context published)
    (hthere : ∀ p, (Dict.node? vars p).isSome → Dict.node? context p = Dict.node? vars p) :
    Dict.HasPublished context (vars :: published) := by
  intro d hd p hp
  obtain rfl | hd := List.mem_cons.mp hd
  · exact ⟨d, by simp, hp, hthere p hp⟩
  · obtain ⟨d', hd', hsome, hnode⟩ := h d hd p hp
    exact ⟨d', by simp [hd'], hsome, hnode⟩

/-- The stored context has what is published, and each transaction has written what it should. -/
structure Ok (m : MergeDicts) (s : Publishing τ) : Prop where
  has : Dict.HasPublished s.context.committed s.published
  wrote : ∀ t, s.Wrote m t

/-- A step that stores nothing and changes no more than what `t` has written. -/
theorem Ok.step (h : s.Ok m) (hcommitted : s'.context.committed = s.context.committed)
    (hpublished : s'.published = s.published) (hstep : ∀ u, u ≠ t → s'.step u = s.step u)
    (hown : ∀ u, u ≠ t → s'.context.own u = s.context.own u) (ht : s'.Wrote m t) : s'.Ok m where
  has := by rw [hcommitted, hpublished]; exact h.has
  wrote u := by
    by_cases hu : u = t
    · subst hu
      exact ht
    · exact (h.wrote u).apart (hstep u hu) (hown u hu) fun _ => hcommitted

theorem Ok.goTo (h : s.Ok m) {st : PublishStep} (ht : (s.goTo t st).Wrote m t) : (s.goTo t st).Ok m :=
  h.step (t := t) rfl rfl (fun u hu => by simp [hu]) (fun _ _ => rfl) ht

theorem Ok.own_none (h : s.Ok m) (hcommit : ∀ context vars, s.step t ≠ .commit context vars) : s.context.own t = none := by
  have ht := h.wrote t
  unfold Wrote at ht
  split at ht
  next context vars hstep => exact absurd hstep (hcommit context vars)
  · exact ht

theorem Ok.writeBack (h : s.Ok m) (hm : m.InPlace) {context vars : Dict} (hstep : s.step t = .writeBack context vars)
    (hkeeps : s.Keeps (.run t)) : (s.execute m t).Ok m := by
  simp only [Keeps, hstep] at hkeeps
  have hown : s.context.own t = none := h.own_none (by simp [hstep])
  simp only [execute, hstep]
  split
  next hsets =>
    split
    · exact h
    next hfree =>
      refine h.step (t := t) rfl rfl (fun u hu => by simp [hu])
        (fun u hu => Cell.own_write_of_ne (by simpa using hfree) hu) ?_
      simp only [Wrote, step_goTo, if_true, if_pos hsets]
      exact ⟨Cell.own_write, hkeeps ((hm.sets context vars).mp hsets)⟩
  next hsets =>
    refine h.goTo ?_
    simp only [Wrote, step_goTo, if_true, if_neg hsets]
    exact hown

theorem Ok.commit (h : s.Ok m) (hm : m.InPlace) {context vars : Dict} (hstep : s.step t = .commit context vars)
    (hkeeps : s.Keeps (.run t)) : (s.execute m t).Ok m := by
  have ht := h.wrote t
  simp only [Wrote, hstep] at ht
  simp only [Keeps, hstep] at hkeeps
  simp only [execute, hstep]
  refine ⟨?_, fun u => ?_⟩
  · simp only [Cell.committed_commit]
    by_cases hsets : m.sets context vars
    · rw [if_pos hsets] at ht
      rw [if_pos ((hm.sets context vars).mp hsets)] at hkeeps
      rw [Cell.read_of_own ht.1]
      exact hasPublished_merge hm (ht.2 ▸ h.has) hkeeps
    · rw [if_neg hsets] at ht
      rw [if_neg fun hset => hsets ((hm.sets context vars).mpr hset)] at hkeeps
      rw [Cell.read_of_own_none ht]
      exact hasPublished_same h.has hkeeps
  · by_cases hu : u = t
    · subst hu
      simp [Wrote]
    · refine (h.wrote u).apart (by simp [hu]) (Cell.own_commit_of_ne hu) fun hown => ?_
      obtain ⟨v, hv⟩ := Option.ne_none_iff_exists'.mp hown
      exact Cell.committed_commit_of_own hv hu

theorem Ok.rollback (h : s.Ok m) : (s.rollback t).Ok m := by
  unfold Publishing.rollback
  split
  · exact h
  · refine h.step (t := t) Cell.committed_rollback rfl (fun u hu => by simp [hu]) (fun u hu => Cell.own_rollback_of_ne hu) ?_
    simp [Wrote]

theorem Ok.next (h : s.Ok m) (hm : m.InPlace) {e : PublishEvent τ} (hkeeps : s.Keeps e) : (s.next m e).Ok m := by
  cases e with
  | run t =>
    simp only [Publishing.next]
    cases hstep : s.step t with
    | writeBack context vars => exact h.writeBack hm hstep hkeeps
    | commit context vars => exact h.commit hm hstep hkeeps
    | read =>
      simp only [execute, hstep]
      refine h.goTo ?_
      simp only [Wrote, step_goTo, if_true]
      exact h.own_none (t := t) (by simp [hstep])
    | publish | ended =>
      simp only [execute, hstep]
      exact h
  | publish t vars =>
    simp only [Publishing.next, Publishing.publish]
    split
    next context hstep =>
      refine h.goTo ?_
      simp only [Wrote, step_goTo, if_true]
      exact h.own_none (t := t) (by simp [hstep])
    · exact h
  | rollback t => exact h.rollback

/-- In every run, the stored context has what is published. -/
def KeepsPublished (τ : Type) [DecidableEq τ] (m : MergeDicts) (guard : Publishing τ → PublishEvent τ → Prop) : Prop :=
  ∀ s, (publishSystem τ m).Reach guard s → Dict.HasPublished s.context.committed s.published

end Publishing

/-- Global publishing loses nothing, where each transaction keeps what others have published and its changes are
    noticed. -/
theorem global_publishing_keeps {τ : Type} [DecidableEq τ] {m : MergeDicts} (hm : m.InPlace) :
    Publishing.KeepsPublished τ m Publishing.Keeps := fun s hreach => by
  have hok : s.Ok m :=
    hreach.invariant (fun _ ⟨context, hs⟩ => hs ▸ ⟨fun d hd => absurd hd List.not_mem_nil, fun t => rfl⟩)
      fun _ _ _ h hkeeps => h.next hm hkeeps
  exact hok.has

def mergeDicts : MergeDicts where
  merge := Dict.mergeInto
  sets := Dict.setsKey

theorem inPlace_mergeDicts : mergeDicts.InPlace where
  merge := Dict.mergesRecursively_mergeInto
  sets _ _ := Dict.setsKey_iff

theorem global_publishing_keeps_mergeDicts : Publishing.KeepsPublished Nat mergeDicts Publishing.Keeps :=
  global_publishing_keeps inPlace_mergeDicts

/-- Two tasks publish keys of one dictionary, one after the other: nobody notices the second key. -/
theorem nested_key_lost : ¬Publishing.KeepsPublished (Fin 2) mergeDicts fun _ _ => True := fun h => by
  let events : List (PublishEvent (Fin 2)) :=
    [.run 0, .publish 0 [("x", .dict [("a", .value "1")])], .run 0, .run 0,
      .run 1, .publish 1 [("x", .dict [("b", .value "2")])], .run 1, .run 1]
  have hreach : (publishSystem (Fin 2) mergeDicts).Reach (fun _ _ => True)
      ((publishSystem (Fin 2) mergeDicts).run (Publishing.start []) events) :=
    .run (.init ⟨_, rfl⟩) (by simp [events, System.Guarded])
  obtain ⟨d', -, hsome, hnode⟩ := h _ hreach [("x", .dict [("b", .value "2")])] (by exact List.mem_cons_self) ["x", "b"] rfl
  rw [← hnode] at hsome
  revert hsome
  decide

end Mistral
