import Mathlib.Logic.Function.Iterate
import Mistral.Services.ActionHeartbeats
import Mistral.Lib.Excepts

/-! What broken actions do to the others that have missed their heartbeats. -/

namespace Mistral
namespace Heartbeats
open AdhocActions
variable {ω χ δ γ ε : Type} (world : World ω χ δ γ ε)

/-- The result that the checker makes. -/
def notReceived : Result δ := { data := world.noData, error := some world.heartbeatNotReceived }

/-- The handler of the action does not raise. -/
def Passes (a : ActionExecution δ ε) : Prop :=
  ∃ desc, world.provider.find a.name a.workflowNamespace = some desc ∧
    ((∃ r, postProcess world (notReceived world) desc = .ok r) ∧ world.scheduleOnActionComplete a.id = .ok () ∨
      ∃ e, postProcess world (notReceived world) desc = .error e ∧ world.catches e ∧ world.forceFailTask a.id = .ok ())

namespace Db
variable (s : Db δ ε) (expirationTime : Nat)

/-- The task or the workflow execution is gone, or the definition, or the chain of an ad-hoc action raises. -/
def Broken (a : ActionExecution δ ε) : Prop :=
  s.hasParents a = false ∨ world.provider.find a.name a.workflowNamespace = none ∨
    ∃ d e, world.provider.find a.name a.workflowNamespace = some (.adhoc d) ∧
      postProcessAdhoc world d (notReceived world) = .error e

/-- The action execution is in `ERROR`. -/
def InError (id : String) : Prop :=
  id ∈ s.actionExecutions.map (·.id) ∧ ∀ r ∈ s.actionExecutions, r.id = id → r.state = .error

/-- An iteration commits, and each action of its batch that is not broken is in `ERROR` and its task is told so. -/
def ExpiresOthers : Prop :=
  ∃ s', s.handleExpiredActions world expirationTime = .ok s' ∧
    ∀ a ∈ s.getRunningExpiredSyncActionExecutions expirationTime, ¬s.Broken world a →
      s'.InError a.id ∧ .actionCompleted a.id ∈ s'.notices

/-- However often the checker comes back, its transaction is rolled back. -/
def KeepsFailing : Prop :=
  ∀ n, ∃ e, Db.handleExpiredActions ((fun s => s.iterate world expirationTime)^[n] s) world expirationTime = .error e

/-- Every action of the batch whose task and workflow execution exist has a definition, and the exception that its
    completion raises, if any, is one that the handler catches. -/
def Harmless : Prop :=
  ∀ a ∈ s.getRunningExpiredSyncActionExecutions expirationTime, s.hasParents a → Passes world a

/-! ### One action -/

/-- What stays while the actions of a batch are handled. -/
structure Keeps (s s' : Db δ ε) : Prop where
  taskExecutions : s'.taskExecutions = s.taskExecutions
  workflowExecutions : s'.workflowExecutions = s.workflowExecutions
  notices : s.notices ⊆ s'.notices
  inError : ∀ id, s.InError id → s'.InError id
  ids : s'.actionExecutions.map (·.id) = s.actionExecutions.map (·.id)

variable {world s expirationTime} {s' s'' : Db δ ε} {a : ActionExecution δ ε}

theorem Keeps.refl (s : Db δ ε) : s.Keeps s := ⟨rfl, rfl, List.Subset.refl _, fun _ h => h, rfl⟩

theorem Keeps.trans (h : s.Keeps s') (h' : s'.Keeps s'') : s.Keeps s'' :=
  ⟨h'.taskExecutions.trans h.taskExecutions, h'.workflowExecutions.trans h.workflowExecutions,
    List.Subset.trans h.notices h'.notices, fun id hid => h'.inError id (h.inError id hid), h'.ids.trans h.ids⟩

theorem Keeps.hasParents (h : s.Keeps s') : s'.hasParents a = s.hasParents a := by
  rw [Db.hasParents, Db.hasParents, h.taskExecutions, h.workflowExecutions]

theorem save_ids (s : Db δ ε) (a : ActionExecution δ ε) :
    (s.save a).actionExecutions.map (·.id) = s.actionExecutions.map (·.id) := by
  rw [save, List.map_map]
  refine List.map_congr_left fun b _ => ?_
  rw [Function.comp_apply]
  split
  · next hb => exact hb.symm
  · rfl

/-- An action execution that is saved in `ERROR` is there in `ERROR`, and so are those that were. -/
theorem save_spec (s : Db δ ε) (a : ActionExecution δ ε) (n : Notice) (ha : a.state = .error) :
    s.Keeps ((s.save a).notify n) ∧
      (a.id ∈ s.actionExecutions.map (·.id) → ((s.save a).notify n).InError a.id) ∧ n ∈ ((s.save a).notify n).notices := by
  refine ⟨⟨rfl, rfl, List.subset_append_left _ _, ?_, save_ids s a⟩, fun hid => ⟨?_, ?_⟩, ?_⟩
  · rintro id ⟨hid, hstate⟩
    refine ⟨by rwa [notify, save_ids], fun r hr hrid => ?_⟩
    obtain ⟨b, hb, rfl⟩ := List.mem_map.mp hr
    split at hrid
    · next hba => rw [if_pos hba, ha]
    · next hba =>
      rw [if_neg hba]
      exact hstate b hb hrid
  · rwa [notify, save_ids]
  · intro r hr hrid
    obtain ⟨b, hb, rfl⟩ := List.mem_map.mp hr
    split at hrid
    · next hba => rw [if_pos hba, ha]
    · next hba => exact absurd hrid hba
  · exact List.mem_append_right _ (List.mem_singleton_self n)

theorem complete_eq {desc : Descriptor ω χ δ} (ha : a.state = .running) :
    complete world desc a (notReceived world) = (postProcess world (notReceived world) desc).map fun converted =>
      { a with state := .error, output := some (.result converted), accepted := true } := by
  rw [complete, ha]
  cases postProcess world (notReceived world) desc <;> rfl

/-- The handler of an action that runs returns iff it passes. Then the action is in `ERROR`, and its task is told of it
    unless the completion has raised. -/
theorem onActionComplete_spec (world : World ω χ δ γ ε) (s : Db δ ε) (ha : a.state = .running) :
    ((∃ s', s.onActionComplete world a (notReceived world) = .ok s') ↔ Passes world a) ∧
      ∀ s', s.onActionComplete world a (notReceived world) = .ok s' → s.Keeps s' ∧
        (a.id ∈ s.actionExecutions.map (·.id) → s'.InError a.id) ∧
        ((∀ desc e, world.provider.find a.name a.workflowNamespace = some desc →
          postProcess world (notReceived world) desc ≠ .error e) → .actionCompleted a.id ∈ s'.notices) := by
  unfold onActionComplete Passes
  cases hfind : world.provider.find a.name a.workflowNamespace with
  | none => exact ⟨⟨nofun, nofun⟩, nofun⟩
  | some desc =>
    simp only [complete_eq ha, Option.some.injEq, exists_eq_left']
    cases hpost : postProcess world (notReceived world) desc with
    | ok r =>
      simp only [Except.map]
      cases world.scheduleOnActionComplete a.id with
      | error e => exact ⟨⟨nofun, by simp⟩, nofun⟩
      | ok u =>
        refine ⟨⟨fun _ => .inl ⟨⟨r, rfl⟩, rfl⟩, fun _ => ⟨_, rfl⟩⟩, fun s' hs' => ?_⟩
        cases hs'
        obtain ⟨hkeeps, herror, hnotice⟩ := save_spec s
          { a with state := .error, output := some (.result r), accepted := true } (.actionCompleted a.id) rfl
        exact ⟨hkeeps, herror, fun _ => hnotice⟩
    | error e =>
      simp only [Except.map]
      cases hcatches : world.catches e with
      | false => exact ⟨⟨nofun, by simp [hcatches]⟩, nofun⟩
      | true =>
        cases world.forceFailTask a.id with
        | error e' => exact ⟨⟨nofun, by simp⟩, nofun⟩
        | ok u =>
          refine ⟨⟨fun _ => .inr ⟨e, rfl, hcatches, rfl⟩, fun _ => ⟨_, rfl⟩⟩, fun s' hs' => ?_⟩
          cases hs'
          obtain ⟨hkeeps, herror, -⟩ := save_spec s (fail a e) (.forcedFailure a.id) rfl
          exact ⟨hkeeps, herror, fun hnot => absurd hpost (hnot desc e rfl)⟩

theorem handleExpiredAction_spec (world : World ω χ δ γ ε) (s : Db δ ε) (ha : a.state = .running) :
    ((∃ s', s.handleExpiredAction world a = .ok s') ↔ (s.hasParents a → Passes world a)) ∧
      ∀ s', s.handleExpiredAction world a = .ok s' → s.Keeps s' ∧
        (a.id ∈ s.actionExecutions.map (·.id) → ¬s.Broken world a →
          s'.InError a.id ∧ .actionCompleted a.id ∈ s'.notices) := by
  unfold handleExpiredAction
  cases hparents : s.hasParents a with
  | false =>
    refine ⟨⟨fun _ => nofun, fun _ => ⟨s, rfl⟩⟩, fun s' hs' => ?_⟩
    cases hs'
    exact ⟨.refl s, fun _ hbroken => absurd (.inl hparents) hbroken⟩
  | true =>
    obtain ⟨hiff, hspec⟩ := onActionComplete_spec world s ha
    refine ⟨hiff.trans ⟨fun h _ => h, fun h => h rfl⟩, fun s' hs' => ?_⟩
    obtain ⟨hkeeps, herror, hnotice⟩ := hspec s' hs'
    refine ⟨hkeeps, fun hid hbroken => ⟨herror hid, hnotice fun desc e hfind hpost => hbroken ?_⟩⟩
    cases desc with
    | adhoc d => exact .inr (.inr ⟨d, e, hfind, hpost⟩)
    | other o => cases hpost

/-! ### A batch -/

/-- A batch is handled iff none of its actions raises, and then each that is not broken is in `ERROR`. -/
theorem foldlM_spec (world : World ω χ δ γ ε) {batch : List (ActionExecution δ ε)} (hrunning : ∀ a ∈ batch, a.state = .running)
    (hids : ∀ a ∈ batch, a.id ∈ s.actionExecutions.map (·.id)) :
    ((∃ s', batch.foldlM (fun s a => s.handleExpiredAction world a) s = .ok s') ↔
        ∀ a ∈ batch, s.hasParents a → Passes world a) ∧
      ∀ s', batch.foldlM (fun s a => s.handleExpiredAction world a) s = .ok s' → s.Keeps s' ∧
        ∀ a ∈ batch, ¬s.Broken world a → s'.InError a.id ∧ .actionCompleted a.id ∈ s'.notices := by
  induction batch generalizing s with
  | nil =>
    refine ⟨⟨fun _ a ha => absurd ha List.not_mem_nil, fun _ => ⟨s, rfl⟩⟩, fun s' hs' => ?_⟩
    cases hs'
    exact ⟨.refl s, fun a ha => absurd ha List.not_mem_nil⟩
  | cons a batch ih =>
    obtain ⟨ha, hrunning⟩ := List.forall_mem_cons.mp hrunning
    obtain ⟨hid, hids⟩ := List.forall_mem_cons.mp hids
    obtain ⟨hiff, hspec⟩ := handleExpiredAction_spec world s ha
    simp only [List.foldlM_cons, List.forall_mem_cons, bind_ok]
    -- What is broken is the same after the first action.
    have hrest : ∀ s₁, s.Keeps s₁ → _ := fun s₁ hkeeps =>
      ih (s := s₁) hrunning fun b hb => by rw [hkeeps.ids]; exact hids b hb
    constructor
    · constructor
      · rintro ⟨s', s₁, hs₁, hs'⟩
        obtain ⟨hkeeps, -⟩ := hspec s₁ hs₁
        refine ⟨hiff.mp ⟨s₁, hs₁⟩, fun b hb hparents => ?_⟩
        exact (hrest s₁ hkeeps).1.mp ⟨s', hs'⟩ b hb (by rwa [hkeeps.hasParents])
      · rintro ⟨hpasses, hall⟩
        obtain ⟨s₁, hs₁⟩ := hiff.mpr hpasses
        obtain ⟨hkeeps, -⟩ := hspec s₁ hs₁
        obtain ⟨s', hs'⟩ := (hrest s₁ hkeeps).1.mpr fun b hb hparents => hall b hb (by rwa [hkeeps.hasParents] at hparents)
        exact ⟨s', s₁, hs₁, hs'⟩
    · rintro s' ⟨s₁, hs₁, hs'⟩
      obtain ⟨hkeeps, hfirst⟩ := hspec s₁ hs₁
      obtain ⟨hkeeps', hothers⟩ := (hrest s₁ hkeeps).2 s' hs'
      refine ⟨hkeeps.trans hkeeps', fun hbroken => ?_, fun b hb hbroken => hothers b hb ?_⟩
      · obtain ⟨herror, hnotice⟩ := hfirst hid hbroken
        exact ⟨hkeeps'.inError _ herror, hkeeps'.notices hnotice⟩
      · rwa [Broken, hkeeps.hasParents]

/-- An iteration that is rolled back is followed by the same one. -/
theorem keepsFailing_iff : s.KeepsFailing world expirationTime ↔
    ∃ e, s.handleExpiredActions world expirationTime = .error e := by
  refine ⟨fun h => h 0, fun ⟨e, he⟩ n => ⟨e, ?_⟩⟩
  have hstays : s.iterate world expirationTime = s := by rw [iterate, he]
  rw [Function.iterate_fixed hstays]
  exact he

end Db

/-- An iteration expires the actions that are not broken, and the checker does not come back to the same batch for ever, iff
    no action of the batch raises what is not caught. -/
theorem broken_actions_spare_others (s : Db δ ε) (expirationTime : Nat) :
    (s.ExpiresOthers world expirationTime ∧ ¬s.KeepsFailing world expirationTime) ↔
      s.Harmless world expirationTime := by
  have hbatch : ∀ a ∈ s.getRunningExpiredSyncActionExecutions expirationTime, a ∈ s.actionExecutions ∧ a.state = .running := by
    intro a ha
    obtain ⟨ha, hmatch⟩ := List.mem_filter.mp ha
    exact ⟨ha, (of_decide_eq_true hmatch).2.2⟩
  obtain ⟨hiff, hspec⟩ := Db.foldlM_spec world (fun a ha => (hbatch a ha).2) fun a ha =>
    List.mem_map_of_mem (hbatch a ha).1
  rw [Db.Harmless, ← hiff]
  constructor
  · rintro ⟨⟨s', hs', -⟩, -⟩
    exact ⟨s', hs'⟩
  · rintro ⟨s', hs'⟩
    refine ⟨⟨s', hs', (hspec s' hs').2⟩, fun hkeeps => ?_⟩
    obtain ⟨e, he⟩ := Db.keepsFailing_iff.mp hkeeps
    cases he.symm.trans hs'

/-- The action `std.noop` exists, and `gone` does not. -/
def withoutGoneAction : World Unit Unit Unit Unit Unit where
  provider := { definitions := [], before := fun name _ => if name = "std.noop" then some () else none }
  evaluation := { input := fun _ args _ => .ok args, output := fun _ data => .ok data }
  isMistralException _ := true
  scheduleOnActionComplete _ := .ok ()
  forceFailTask _ := .ok ()
  noData := ()
  heartbeatNotReceived := ()

/-- The definition of the first of two expired actions was deleted. -/
def withDeletedDefinition : Db Unit Unit where
  actionExecutions := [{ id := "1", name := "gone", lastHeartbeat := 0, taskExecutionId := some "t" },
    { id := "2", name := "std.noop", lastHeartbeat := 0, taskExecutionId := some "t" }]
  taskExecutions := [{ id := "t", workflowExecutionId := "w" }]
  workflowExecutions := ["w"]

theorem deleted_definition_blocks_batch : ¬withDeletedDefinition.ExpiresOthers withoutGoneAction 1 ∧
    withDeletedDefinition.KeepsFailing withoutGoneAction 1 := by
  have hraises : withDeletedDefinition.handleExpiredActions withoutGoneAction 1 =
      .error (.invalidAction "Failed to find action [action_name=gone]") := rfl
  refine ⟨?_, Db.keepsFailing_iff.mpr ⟨_, hraises⟩⟩
  rintro ⟨s', hs', -⟩
  rw [hraises] at hs'
  cases hs'

end Heartbeats
end Mistral
