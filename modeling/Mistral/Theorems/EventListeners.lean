import Mistral.Lib.Lists
import Mistral.Services.EventTriggers

/-! When the listeners and the map of the event engine are those of the triggers that exist. -/

namespace Mistral
namespace EventEngine

namespace TriggersMap
variable {m m' : TriggersMap} {t t' : EventTrigger} {e : String}

theorem mem_create (ht : t.id ∈ ((m t.event).getD []).map (·.id) → t ∈ (m t.event).getD []) :
    t' ∈ (m.create t e).getD [] ↔ t' ∈ (m e).getD [] ∨ t' = t ∧ t.event = e := by
  unfold create
  split
  · next hid =>
    refine ⟨.inl, fun h => h.elim id ?_⟩
    rintro ⟨rfl, rfl⟩
    exact ht hid
  · by_cases he : e = t.event
    · subst he
      simp
    · simp [Function.update_of_ne he, Ne.symm he]

theorem create_once (h : ∀ e ts, m e = some ts → (ts.map (·.id)).Nodup ∧ ts ≠ []) {ts : List EventTrigger}
    (hts : m.create t e = some ts) : (ts.map (·.id)).Nodup ∧ ts ≠ [] := by
  unfold create at hts
  split at hts
  · exact h e ts hts
  · next hid =>
    by_cases he : e = t.event
    · subst he
      rw [Function.update_self] at hts
      cases hts
      have hold : (((m t.event).getD []).map (·.id)).Nodup := by
        cases hm : m t.event with
        | none => exact List.nodup_nil
        | some us => exact (h _ us hm).1
      refine ⟨?_, by simp⟩
      rw [List.map_append, List.nodup_append]
      refine ⟨hold, List.nodup_singleton _, ?_⟩
      rintro id hin _ hnew rfl
      rw [List.map_singleton, List.mem_singleton] at hnew
      exact hid (hnew ▸ hin)
    · rw [Function.update_of_ne he] at hts
      exact h e ts hts

/-- A trigger that is in the map is removed, and its event if it has no other one. -/
theorem delete_spec (h : ∀ e ts, m e = some ts → (ts.map (·.id)).Nodup ∧ ts ≠ []) (ht : t ∈ (m t.event).getD []) :
    ∃ m', m.delete? t = some m' ∧
      (∀ e t', t' ∈ (m' e).getD [] ↔ t' ∈ (m e).getD [] ∧ ¬(e = t.event ∧ t'.id = t.id)) ∧
      ∀ e ts, m' e = some ts → (ts.map (·.id)).Nodup ∧ ts ≠ [] := by
  cases hm : m t.event with
  | none =>
    rw [hm] at ht
    cases ht
  | some us =>
    obtain ⟨hnodup, -⟩ := h _ us hm
    have herase := Lists.eraseP_eq_filter (fun u : EventTrigger => u.id) (k := t.id) hnodup
    rw [delete?, hm, Option.map_some, herase]
    cases hleft : us.filter (·.id ≠ t.id) with
    | nil =>
      dsimp only
      refine ⟨_, rfl, fun e t' => ?_, fun e ts hts => ?_⟩
      · by_cases he : e = t.event
        · subst he
          have hnone : t' ∈ us → t'.id = t.id := fun hin => by
            simpa using List.filter_eq_nil_iff.mp hleft t' hin
          simpa [hm] using hnone
        · simp [he]
      · by_cases he : e = t.event
        · subst he
          rw [Function.update_self] at hts
          cases hts
        · rw [Function.update_of_ne he] at hts
          exact h e ts hts
    | cons u left =>
      dsimp only
      refine ⟨_, rfl, fun e t' => ?_, fun e ts hts => ?_⟩
      · by_cases he : e = t.event
        · subst he
          simp [hm, ← hleft]
        · simp [he]
      · by_cases he : e = t.event
        · subst he
          rw [Function.update_self] at hts
          cases hts
          rw [← hleft]
          exact ⟨hnodup.sublist (List.filter_sublist.map _), by rw [hleft]; exact List.cons_ne_nil u left⟩
        · rw [Function.update_of_ne he] at hts
          exact h e ts hts

end TriggersMap

/-! ### The condition, and the result -/

def Request.isSent : Request → Bool
  | .sent _ _ => true
  | _ => false

/-- The change that a request makes. -/
def Request.task? : Request → Option (Op × EventTrigger)
  | .wrote op trigger | .sent op trigger => some (op, trigger)
  | _ => none

/-- The uncommitted change of a row, and who makes it. -/
def RowState.writer? {τ : Type} : RowState τ → Option (Op × τ)
  | .inserted t => some (.create, t)
  | .deleting t => some (.delete, t)
  | _ => none

/-- The handler of the message changes a listener. -/
def RpcPhase.busy : RpcPhase → Bool
  | .stopping _ | .stopped | .started _ => true
  | _ => false

/-- The row is there when all transactions that have sent their messages have committed. -/
def TriggerRow.after {τ : Type} (requests : τ → Request) (r : TriggerRow τ) : Bool :=
  match r.state with
  | .inserted t => (requests t).isSent
  | .present => true
  | .deleting t => !(requests t).isSent
  | .gone => false

namespace Cluster
variable {τ : Type} (s : Cluster τ)

/-- A request that has sent its message is not rolled back, and a request for an exchange and a topic does not read the
    triggers while another one has sent its message and has not committed. The message of a deletion is received after
    that of the creation. A handler does not begin to change the listener of an exchange and a topic while another one
    changes it, or after that of a later message has changed it. -/
def Orderly : ClusterEvent τ → Prop
  | .rollback t => (s.requests t).isSent = false
  | .send t => ∀ op trigger, s.requests t = .wrote op trigger →
      ∀ u op' trigger', s.requests u = .sent op' trigger' → trigger'.exchangeTopic ≠ trigger.exchangeTopic
  | .receive n => ∀ m, s.sent[n]? = some (m, .queued) → m.op = .delete →
      ∀ m' ∈ s.sent, m'.1.op = .create → m'.1.trigger.id = m.trigger.id → m'.2 ≠ .queued
  | .listen n => ∀ m, s.sent[n]? = some (m, .mapped) →
      ∀ k m' phase, s.sent[k]? = some (m', phase) → m'.trigger.exchangeTopic = m.trigger.exchangeTopic →
        phase.busy = false ∧ (phase = .processed → k < n)
  | _ => True

/-- All requests have ended, and all messages are processed. -/
structure Quiescent : Prop where
  requests : ∀ t, (s.requests t).task? = none
  sent : ∀ m ∈ s.sent, m.2 = .processed

/-- The trigger exists. -/
def Exists (t : EventTrigger) : Prop := ⟨t, .present⟩ ∈ s.rows

/-- The listener with this number listens to these events of an exchange and a topic. -/
def Runs (i : Nat) (key : String × String) (events : List String) : Prop := s.started[i]? = some ⟨key, events, true⟩

/-- The listeners and the map are those of the triggers that exist: for an exchange and a topic with a trigger, one listener
    runs, it is the one that the engine knows, and it listens to the events of the triggers. For no other one a listener
    runs. -/
structure Matches : Prop where
  listened : ∀ key, (∃ i events, s.Runs i key events) ↔ ∃ t, s.Exists t ∧ t.exchangeTopic = key
  known : ∀ key i, s.listeners key = some i ↔ ∃ events, s.Runs i key events
  events : ∀ key i events, s.Runs i key events →
    ∀ e, e ∈ events ↔ ∃ t, s.Exists t ∧ t.exchangeTopic = key ∧ t.event = e
  triggers : ∀ e t, t ∈ (s.triggers e).getD [] ↔ s.Exists t ∧ t.event = e
  once : ∀ e triggers, s.triggers e = some triggers → (triggers.map (·.id)).Nodup ∧ triggers ≠ []

/-! ### The invariant -/

/-- The triggers, and whether they are there when all transactions that have sent their messages have committed. -/
def existing : List (EventTrigger × Bool) := s.rows.map fun r => (r.trigger, r.after s.requests)

/-- The messages that have been sent. -/
def messages : List Rpc := s.sent.map (·.1)

def Sent (op : Op) (t : EventTrigger) : Prop := ∃ m ∈ s.messages, m.op = op ∧ m.trigger = t

def Received (op : Op) (t : EventTrigger) : Prop := ∃ m ∈ s.sent, m.1.op = op ∧ m.1.trigger = t ∧ m.2 ≠ .queued

/-- The last message for an exchange and a topic. -/
def lastSent? (key : String × String) : Option Rpc :=
  (s.messages.filter (·.trigger.exchangeTopic = key)).getLast?

/-- Of the messages for an exchange and a topic that are processed, the last one. -/
def lastProcessed? (key : String × String) : Option (Rpc × RpcPhase) :=
  (s.sent.filter fun m => m.1.trigger.exchangeTopic = key ∧ m.2 = .processed).getLast?

/-- Who changes which row. -/
structure RowsOk : Prop where
  ids : (s.rows.map (·.trigger.id)).Nodup
  owner : ∀ r ∈ s.rows, ∀ op t, r.state.writer? = some (op, t) → (s.requests t).task? = some (op, r.trigger)
  holds : ∀ t op trigger, (s.requests t).task? = some (op, trigger) →
    ∃ r ∈ s.rows, r.trigger = trigger ∧ r.state.writer? = some (op, t)

/-- What the messages say. -/
structure SentOk : Prop where
  known : ∀ m ∈ s.messages, m.trigger ∈ s.existing.map (·.1)
  once : (s.messages.map fun m => (m.op, m.trigger.id)).Nodup
  after : ∀ p ∈ s.existing, p.2 ↔ s.Sent .create p.1 ∧ ¬s.Sent .delete p.1
  order : ∀ t, s.Sent .delete t → s.Sent .create t
  unsent : ∀ t op trigger, s.requests t = .wrote op trigger → ¬s.Sent op trigger
  snapshot : ∀ key e, e ∈ (s.lastSent? key).elim [] (·.events) ↔
    ∃ t, (t, true) ∈ s.existing ∧ t.exchangeTopic = key ∧ t.event = e
  own : ∀ m ∈ s.messages, m.op = .create → m.events ≠ []

/-- What the engine has made of the messages. -/
structure EngineOk : Prop where
  triggers : ∀ e t, t ∈ (s.triggers e).getD [] ↔ t.event = e ∧ s.Received .create t ∧ ¬s.Received .delete t
  once : ∀ e triggers, s.triggers e = some triggers → (triggers.map (·.id)).Nodup ∧ triggers ≠ []
  order : ∀ t, s.Received .delete t → ∀ m ∈ s.sent, m.1.op = .create → m.1.trigger = t → m.2 ≠ .queued

/-- All listeners for an exchange and a topic that run: none, or just the one that the engine knows. -/
def Listens (key : String × String) : Option (List String) → Prop
  | none => s.listeners key = none ∧ ∀ i events, ¬s.Runs i key events
  | some events => ∃ i, s.listeners key = some i ∧ s.Runs i key events ∧ ∀ j events', s.Runs j key events' → j = i

/-- What the handler of a message knows of the listeners for its exchange and topic. -/
def Handling (m : Rpc) : RpcPhase → Prop
  | .stopping i => (∃ l, s.started[i]? = some l ∧ l.exchangeTopic = m.trigger.exchangeTopic) ∧
      ∀ j events, s.Runs j m.trigger.exchangeTopic events → j = i
  | .stopped => ∀ j events, ¬s.Runs j m.trigger.exchangeTopic events
  | .started i => ∃ events, m.listener = some events ∧ s.Runs i m.trigger.exchangeTopic events ∧
      ∀ j events', s.Runs j m.trigger.exchangeTopic events' → j = i
  | _ => True

/-- The other handlers for the exchange and the topic of a message do not change the listener, and those that have ended are
    those of earlier messages. -/
def AloneAt (n : Nat) (m : Rpc) : Prop :=
  ∀ k m' phase, s.sent[k]? = some (m', phase) → k ≠ n → m'.trigger.exchangeTopic = m.trigger.exchangeTopic →
    phase.busy = false ∧ (phase = .processed → k < n)

/-- What is listened to: what the last message says whose handler has ended, as long as no other one changes it. -/
structure ListenersOk : Prop where
  listens : ∀ key, (∀ m ∈ s.sent, m.1.trigger.exchangeTopic = key → m.2.busy = false) →
    s.Listens key ((s.lastProcessed? key).bind (·.1.listener))
  handling : ∀ m ∈ s.sent, s.Handling m.1 m.2
  alone : ∀ n m phase, s.sent[n]? = some (m, phase) → phase.busy → s.AloneAt n m

/-- The invariant, by the parts of the cluster. -/
structure Ok : Prop where
  rows : s.RowsOk
  sent : s.SentOk
  engine : s.EngineOk
  listeners : s.ListenersOk

variable {s} {t : τ} {n : Nat} {m : Rpc} {key : String × String}

/-! ### Requests -/

/-- If the messages and the map of the engine stay, so does what is said of them. -/
theorem EngineOk.of_eq {s' : Cluster τ} (h : s.EngineOk) (hsent : s'.sent = s.sent) (htriggers : s'.triggers = s.triggers) :
    s'.EngineOk := by
  obtain ⟨rows', requests', sent', triggers', started', listeners'⟩ := s'
  cases hsent
  cases htriggers
  exact ⟨h.triggers, h.once, h.order⟩

theorem Listens.congr {s' : Cluster τ} {o : Option (List String)} (h : s.Listens key o)
    (hlisteners : s'.listeners key = s.listeners key) (hruns : ∀ i events, s'.Runs i key events ↔ s.Runs i key events) :
    s'.Listens key o := by
  cases o with
  | none =>
    refine ⟨hlisteners.trans h.1, fun i events => ?_⟩
    rw [hruns]
    exact h.2 i events
  | some events =>
    obtain ⟨i, hi, hrun, honly⟩ := h
    exact ⟨i, hlisteners.trans hi, (hruns _ _).mpr hrun, fun j events' hj => honly j events' ((hruns _ _).mp hj)⟩

theorem handling_of_idle {phase : RpcPhase} (h : phase.busy = false) : s.Handling m phase := by
  cases phase <;> trivial

theorem Handling.congr {s' : Cluster τ} {phase : RpcPhase} (h : s.Handling m phase)
    (hstarted : ∀ (i : Nat) (l : Listener), s.started[i]? = some l →
      ∃ l' : Listener, s'.started[i]? = some l' ∧ l'.exchangeTopic = l.exchangeTopic)
    (hruns : ∀ i events, s'.Runs i m.trigger.exchangeTopic events ↔ s.Runs i m.trigger.exchangeTopic events) :
    s'.Handling m phase := by
  cases phase with
  | stopping i =>
    obtain ⟨⟨l, hl, hkey⟩, honly⟩ := h
    obtain ⟨l', hl', hkey'⟩ := hstarted i l hl
    exact ⟨⟨l', hl', hkey'.trans hkey⟩, fun j events hj => honly j events ((hruns _ _).mp hj)⟩
  | stopped => exact fun j events hj => h j events ((hruns _ _).mp hj)
  | started i =>
    obtain ⟨events, hevents, hrun, honly⟩ := h
    exact ⟨events, hevents, (hruns _ _).mpr hrun, fun j events' hj => honly j events' ((hruns _ _).mp hj)⟩
  | _ => trivial

/-- What is listened to stays if the listeners stay, and the handlers that change listeners or have ended. -/
theorem ListenersOk.of_eq {s' : Cluster τ} (h : s.ListenersOk) (hstarted : s'.started = s.started)
    (hlisteners : s'.listeners = s.listeners) (hlast : ∀ key, s'.lastProcessed? key = s.lastProcessed? key)
    (hsame : ∀ (k : Nat) (m : Rpc) (phase : RpcPhase), phase.busy ∨ phase = .processed →
      (s'.sent[k]? = some (m, phase) ↔ s.sent[k]? = some (m, phase))) : s'.ListenersOk := by
  have hruns : ∀ key i events, s'.Runs i key events ↔ s.Runs i key events := fun key i events => by rw [Runs, Runs, hstarted]
  have hbusy : ∀ (m : Rpc) (phase : RpcPhase), phase.busy → ((m, phase) ∈ s'.sent ↔ (m, phase) ∈ s.sent) := fun m phase hphase => by
    rw [List.mem_iff_getElem?, List.mem_iff_getElem?]
    exact exists_congr fun k => hsame k m phase (.inl hphase)
  refine ⟨fun key hquiet => ?_, ?_, ?_⟩
  · rw [hlast]
    refine (h.listens key fun m hm hkey => ?_).congr (congrFun hlisteners key) (hruns key)
    by_contra hphase
    rw [Bool.not_eq_false] at hphase
    exact absurd (hphase.symm.trans (hquiet m ((hbusy m.1 m.2 hphase).mpr hm) hkey)) (by rintro ⟨⟩)
  · rintro ⟨m, phase⟩ hm
    cases hphase : phase.busy with
    | false => exact handling_of_idle hphase
    | true =>
      refine (h.handling (m, phase) ((hbusy m phase hphase).mp hm)).congr (fun i l hl => ?_) (hruns _)
      exact ⟨l, by rw [hstarted]; exact hl, rfl⟩
  · intro n m phase hm hphase k m' phase' hk hne hkey
    have halone := h.alone n m phase ((hsame n m phase (.inl hphase)).mp hm) hphase
    refine ⟨?_, fun hprocessed =>
      (halone k m' phase' ((hsame k m' phase' (.inr hprocessed)).mp hk) hne hkey).2 hprocessed⟩
    by_contra hother
    rw [Bool.not_eq_false] at hother
    have hidle := (halone k m' phase' ((hsame k m' phase' (.inl hother)).mp hk) hne hkey).1
    exact absurd (hother.symm.trans hidle) (by rintro ⟨⟩)

/-- If the triggers that will be there and the messages stay, so does what the messages say. -/
theorem SentOk.of_eq {s' : Cluster τ} (h : s.SentOk) (hmessages : s'.messages = s.messages)
    (hexisting : s'.existing = s.existing)
    (hwrote : ∀ t op trigger, s'.requests t = .wrote op trigger → ¬s.Sent op trigger) : s'.SentOk := by
  have hsent : ∀ op t, s'.Sent op t ↔ s.Sent op t := fun op t => by rw [Sent, Sent, hmessages]
  exact { known := by rw [hmessages, hexisting]; exact h.known
          once := by rw [hmessages]; exact h.once
          after := by simpa only [hsent, hexisting] using h.after
          order := by simpa only [hsent] using h.order
          unsent := fun t op trigger hw => by rw [hsent]; exact hwrote t op trigger hw
          snapshot := by
            intro key e
            rw [lastSent?, hmessages, hexisting]
            exact h.snapshot key e
          own := by rw [hmessages]; exact h.own }

theorem RowsOk.eq_of_trigger (h : s.RowsOk) {r r' : TriggerRow τ} (hr : r ∈ s.rows) (hr' : r' ∈ s.rows)
    (hid : r.trigger.id = r'.trigger.id) : r = r' :=
  List.inj_on_of_nodup_map h.ids hr hr' hid

/-- Two requests do not change one trigger. -/
theorem RowsOk.unique (h : s.RowsOk) {u : τ} {op op' : Op} {trigger : EventTrigger}
    (ht : (s.requests t).task? = some (op, trigger)) (hu : (s.requests u).task? = some (op', trigger)) : u = t := by
  obtain ⟨r, hr, hrt, hw⟩ := h.holds t op trigger ht
  obtain ⟨r', hr', hrt', hw'⟩ := h.holds u op' trigger hu
  have := h.eq_of_trigger hr hr' (by rw [hrt, hrt'])
  subst this
  rw [hw] at hw'
  cases hw'
  rfl

theorem after_congr {requests requests' : τ → Request} {r : TriggerRow τ}
    (h : ∀ u, (requests' u).isSent = (requests u).isSent) : r.after requests' = r.after requests := by
  unfold TriggerRow.after
  cases r.state <;> simp only [h]

section
variable [DecidableEq τ]

theorem update_isSent {r : Request} (h : r.isSent = (s.requests t).isSent) (u : τ) :
    (Function.update s.requests t r u).isSent = (s.requests u).isSent := by
  by_cases hu : u = t
  · rw [hu, Function.update_self, h]
  · rw [Function.update_of_ne hu]

theorem insert_ok (h : s.Ok) (trigger : EventTrigger) : (s.insert t trigger).Ok := by
  unfold insert
  cases hidle : s.requests t with
  | idle =>
    dsimp only
    split
    · exact h
    · next hid =>
      have hsame := update_isSent (s := s) (t := t) (r := .wrote .create trigger) (by rw [hidle]; rfl)
      have hexisting : (s.rows ++ [(⟨trigger, .inserted t⟩ : TriggerRow τ)]).map (fun r =>
          (r.trigger, r.after (Function.update s.requests t (.wrote .create trigger)))) =
          s.existing ++ [(trigger, false)] := by
        rw [List.map_append, List.map_singleton, TriggerRow.after]
        dsimp only
        rw [Function.update_self]
        exact congrArg (· ++ _) (List.map_congr_left fun r _ => congrArg _ (after_congr hsame))
      have hnew : ∀ op, ¬s.Sent op trigger := by
        rintro op ⟨m, hm, -, rfl⟩
        obtain ⟨p, hp, hpm⟩ := List.mem_map.mp (h.sent.known m hm)
        obtain ⟨r, hr, rfl⟩ := List.mem_map.mp hp
        exact hid (List.mem_map.mpr ⟨r, hr, congrArg _ hpm⟩)
      refine ⟨⟨?_, ?_, ?_⟩, ⟨?_, h.sent.once, ?_, h.sent.order, ?_, ?_, h.sent.own⟩, h.engine.of_eq rfl rfl,
        h.listeners.of_eq rfl rfl (fun _ => rfl) fun _ _ _ _ => Iff.rfl⟩
      · rw [List.map_append, List.nodup_append]
        refine ⟨h.rows.ids, List.nodup_singleton _, ?_⟩
        rintro id hr _ hnew rfl
        rw [List.map_singleton, List.mem_singleton] at hnew
        exact hid (hnew ▸ hr)
      · intro r hr op u hw
        dsimp only
        rcases List.mem_append.mp hr with hr | hr
        · have howner := h.rows.owner r hr op u hw
          rwa [Function.update_of_ne]
          rintro rfl
          rw [hidle] at howner
          cases howner
        · cases List.mem_singleton.mp hr
          cases hw
          rw [Function.update_self]
          rfl
      · intro u op tr htask
        dsimp only at htask
        by_cases hu : u = t
        · subst hu
          rw [Function.update_self] at htask
          cases htask
          exact ⟨_, List.mem_append_right _ (List.mem_singleton_self _), rfl, rfl⟩
        · rw [Function.update_of_ne hu] at htask
          obtain ⟨r, hr, hrest⟩ := h.rows.holds u op tr htask
          exact ⟨r, List.mem_append_left _ hr, hrest⟩
      · intro m hm
        rw [existing, hexisting, List.map_append]
        exact List.mem_append_left _ (h.sent.known m hm)
      · intro p hp
        rw [existing, hexisting] at hp
        rcases List.mem_append.mp hp with hp | hp
        · exact h.sent.after p hp
        · cases List.mem_singleton.mp hp
          exact ⟨nofun, fun hs => absurd hs.1 (hnew .create)⟩
      · intro u op tr hw
        dsimp only at hw
        by_cases hu : u = t
        · subst hu
          rw [Function.update_self] at hw
          cases hw
          exact hnew .create
        · rw [Function.update_of_ne hu] at hw
          exact h.sent.unsent u op tr hw
      · intro key e
        refine (h.sent.snapshot key e).trans (exists_congr fun tr => and_congr_left fun _ => ?_)
        conv_rhs => rw [existing, hexisting, List.mem_append, List.mem_singleton]
        exact ⟨.inl, fun h => h.resolve_right nofun⟩
  | _ => exact h

/-- The state of one's own row changes, and the trigger will be there as before. -/
theorem mapRows_ok (h : s.Ok) {r : Request} {f : TriggerRow τ → RowState τ}
    (howner : ∀ row ∈ s.rows, ∀ op u, (f row).writer? = some (op, u) →
      (Function.update s.requests t r u).task? = some (op, row.trigger))
    (hholds : ∀ u op trigger, (Function.update s.requests t r u).task? = some (op, trigger) →
      ∃ row ∈ s.rows, row.trigger = trigger ∧ (f row).writer? = some (op, u))
    (hafter : ∀ row ∈ s.rows, TriggerRow.after (Function.update s.requests t r) { row with state := f row } =
      row.after s.requests)
    (hwrote : ∀ op trigger, r = .wrote op trigger → ¬s.Sent op trigger) : ((s.setRequest t r).mapRows f).Ok := by
  refine ⟨⟨?_, ?_, ?_⟩, h.sent.of_eq rfl ?_ ?_, h.engine.of_eq rfl rfl,
    h.listeners.of_eq rfl rfl (fun _ => rfl) fun _ _ _ _ => Iff.rfl⟩
  · rw [mapRows, List.map_map]
    exact h.rows.ids
  · intro _ hmem op u hw
    obtain ⟨row, hrow, rfl⟩ := List.mem_map.mp hmem
    exact howner row hrow op u hw
  · intro u op trigger htask
    obtain ⟨row, hrow, htrigger, hw⟩ := hholds u op trigger htask
    exact ⟨_, List.mem_map_of_mem hrow, htrigger, hw⟩
  · rw [existing, mapRows, List.map_map]
    exact List.map_congr_left fun row hrow => congrArg _ (hafter row hrow)
  · intro u op trigger hw
    dsimp only [mapRows, setRequest] at hw
    by_cases hu : u = t
    · subst hu
      rw [Function.update_self] at hw
      exact hwrote op trigger hw
    · rw [Function.update_of_ne hu] at hw
      exact h.sent.unsent u op trigger hw

theorem remove_ok (h : s.Ok) (id : String) : (s.remove t id).Ok := by
  unfold remove
  cases hidle : s.requests t with
  | idle =>
    cases hfind : s.rows.find? fun r => r.trigger.id = id ∧ r.state = .present with
    | none => exact h
    | some row =>
      have hrow := List.mem_of_find?_eq_some hfind
      obtain ⟨hid, hpresent⟩ : row.trigger.id = id ∧ row.state = .present := by
        simpa using List.find?_some hfind
      have hsame : ∀ r ∈ s.rows, r.trigger.id = id → r = row := fun r hr hrid =>
        h.rows.eq_of_trigger hr hrow (hrid.trans hid.symm)
      refine mapRows_ok h ?_ ?_ ?_ ?_
      · intro r hr op u hw
        by_cases hrid : r.trigger.id = id
        · obtain rfl := hsame r hr hrid
          rw [if_pos hrid] at hw
          cases hw
          rw [Function.update_self]
          rfl
        · rw [if_neg hrid] at hw
          have howner := h.rows.owner r hr op u hw
          rwa [Function.update_of_ne]
          rintro rfl
          rw [hidle] at howner
          cases howner
      · intro u op trigger htask
        by_cases hu : u = t
        · subst hu
          rw [Function.update_self] at htask
          cases htask
          exact ⟨row, hrow, rfl, by rw [if_pos hid]; rfl⟩
        · rw [Function.update_of_ne hu] at htask
          obtain ⟨r, hr, htrigger, hw⟩ := h.rows.holds u op trigger htask
          refine ⟨r, hr, htrigger, ?_⟩
          rwa [if_neg]
          intro hrid
          rw [hsame r hr hrid, hpresent] at hw
          cases hw
      · intro r hr
        by_cases hrid : r.trigger.id = id
        · obtain rfl := hsame r hr hrid
          simp only [if_pos hrid, TriggerRow.after, hpresent, Function.update_self]
          rfl
        · rw [if_neg hrid]
          exact after_congr (update_isSent (by rw [hidle]; rfl))
      · intro op trigger hw hsent
        cases hw
        have hafter := (h.sent.after (row.trigger, row.after s.requests) (List.mem_map_of_mem hrow)).mp
          (by simp [TriggerRow.after, hpresent])
        exact hafter.2 hsent
  | _ => exact h

theorem writer?_commit {state : RowState τ} {op : Op} {u : τ} :
    (state.commit t).writer? = some (op, u) ↔ state.writer? = some (op, u) ∧ u ≠ t := by
  cases state with
  | inserted v =>
    by_cases hv : v = t
    · simp +contextual [RowState.commit, RowState.writer?, hv, eq_comm]
    · simp +contextual [RowState.commit, RowState.writer?, hv, Ne.symm hv, eq_comm]
  | deleting v =>
    by_cases hv : v = t
    · simp +contextual [RowState.commit, RowState.writer?, hv, eq_comm]
    · simp +contextual [RowState.commit, RowState.writer?, hv, Ne.symm hv, eq_comm]
  | _ => simp [RowState.commit, RowState.writer?]

theorem writer?_rollback {state : RowState τ} {op : Op} {u : τ} :
    (state.rollback t).writer? = some (op, u) ↔ state.writer? = some (op, u) ∧ u ≠ t := by
  cases state with
  | inserted v =>
    by_cases hv : v = t
    · simp +contextual [RowState.rollback, RowState.writer?, hv, eq_comm]
    · simp +contextual [RowState.rollback, RowState.writer?, hv, Ne.symm hv, eq_comm]
  | deleting v =>
    by_cases hv : v = t
    · simp +contextual [RowState.rollback, RowState.writer?, hv, eq_comm]
    · simp +contextual [RowState.rollback, RowState.writer?, hv, Ne.symm hv, eq_comm]
  | _ => simp [RowState.rollback, RowState.writer?]

/-- A transaction ends, and the triggers that will be there are the same. -/
theorem over_ok (h : s.Ok) {f : TriggerRow τ → RowState τ}
    (hwriter : ∀ row op u, (f row).writer? = some (op, u) ↔ row.state.writer? = some (op, u) ∧ u ≠ t)
    (hafter : ∀ row ∈ s.rows, TriggerRow.after (Function.update s.requests t .over) { row with state := f row } =
      row.after s.requests) : ((s.setRequest t .over).mapRows f).Ok := by
  refine mapRows_ok h ?_ ?_ hafter (by simp)
  · intro row hrow op u hw
    obtain ⟨hw, hu⟩ := (hwriter row op u).mp hw
    rw [Function.update_of_ne hu]
    exact h.rows.owner row hrow op u hw
  · intro u op trigger htask
    have hu : u ≠ t := by
      rintro rfl
      rw [Function.update_self] at htask
      cases htask
    rw [Function.update_of_ne hu] at htask
    obtain ⟨row, hrow, htrigger, hw⟩ := h.rows.holds u op trigger htask
    exact ⟨row, hrow, htrigger, (hwriter row op u).mpr ⟨hw, hu⟩⟩

theorem commit_ok (h : s.Ok) : (s.commit t).Ok := by
  unfold commit
  cases hsent : s.requests t with
  | sent op trigger =>
    refine over_ok h (fun row op u => writer?_commit) fun row hrow => ?_
    rw [TriggerRow.after, TriggerRow.after]
    cases hstate : row.state with
    | inserted u =>
      by_cases hu : u = t
      · simp [RowState.commit, hu, hsent, Request.isSent]
      · simp [RowState.commit, hu]
    | deleting u =>
      by_cases hu : u = t
      · simp [RowState.commit, hu, hsent, Request.isSent]
      · simp [RowState.commit, hu]
    | _ => rfl
  | _ => exact h

theorem rollback_ok (h : s.Ok) (horderly : (s.requests t).isSent = false) : (s.rollback t).Ok := by
  unfold rollback
  cases hwrote : s.requests t with
  | wrote op trigger =>
    refine over_ok h (fun row op u => writer?_rollback) fun row hrow => ?_
    rw [TriggerRow.after, TriggerRow.after]
    cases hstate : row.state with
    | inserted u =>
      by_cases hu : u = t
      · simp [RowState.rollback, hu, hwrote, Request.isSent]
      · simp [RowState.rollback, hu]
    | deleting u =>
      by_cases hu : u = t
      · simp [RowState.rollback, hu, hwrote, Request.isSent]
      · simp [RowState.rollback, hu]
    | _ => rfl
  | sent op trigger =>
    rw [hwrote] at horderly
    cases horderly
  | _ => exact h

end

/-! ### Messages -/

theorem RowsOk.of_task (h : s.RowsOk) {s' : Cluster τ} (hrows : s'.rows = s.rows)
    (htask : ∀ u, (s'.requests u).task? = (s.requests u).task?) : s'.RowsOk := by
  refine ⟨hrows ▸ h.ids, ?_, ?_⟩
  · intro r hr op u hw
    rw [htask]
    exact h.owner r (hrows ▸ hr) op u hw
  · intro u op trigger hu
    rw [htask] at hu
    rw [hrows]
    exact h.holds u op trigger hu

/-- What the sending of a message does: only the row of the request will be there in another way. -/
structure Sends (s s' : Cluster τ) (op : Op) (r : TriggerRow τ) (events : List String) : Prop where
  mem : r ∈ s.rows
  rows : s'.rows = s.rows
  sent : s'.sent = s.sent ++ [(⟨op, r.trigger, events⟩, .queued)]
  unsent : ¬s.Sent op r.trigger
  before : r.after s.requests = decide (op = .delete)
  self : r.after s'.requests = decide (op = .create)
  other : ∀ r' ∈ s.rows, r'.trigger ≠ r.trigger → r'.after s'.requests = r'.after s.requests
  triggers : s'.triggers = s.triggers
  started : s'.started = s.started
  listeners : s'.listeners = s.listeners

/-- Whether a row will be there depends on what its writer has sent. -/
theorem after_of_writer {requests : τ → Request} {r : TriggerRow τ} {op : Op} (h : r.state.writer? = some (op, t)) :
    r.after requests = ((requests t).isSent == decide (op = .create)) := by
  unfold TriggerRow.after
  cases hstate : r.state <;> rw [hstate] at h <;> cases h <;> simp

theorem after_of_not_writer {requests requests' : τ → Request} {r : TriggerRow τ}
    (h : ∀ u, u ≠ t → requests' u = requests u) (hr : ∀ op, r.state.writer? ≠ some (op, t)) :
    r.after requests' = r.after requests := by
  unfold TriggerRow.after
  cases hstate : r.state with
  | inserted u =>
    have hu : u ≠ t := fun hu => hr .create (by rw [hstate, hu]; rfl)
    simp [h u hu]
  | deleting u =>
    have hu : u ≠ t := fun hu => hr .delete (by rw [hstate, hu]; rfl)
    simp [h u hu]
  | _ => rfl

section
variable [DecidableEq τ]

/-- Where no other request has sent its message and has not committed, a transaction reads just the triggers that will be
    there when it has committed. -/
theorem visible_eq_after (h : s.RowsOk) {op : Op} {trigger : EventTrigger}
    (horderly : ∀ u op' trigger', s.requests u = .sent op' trigger' → trigger'.exchangeTopic ≠ trigger.exchangeTopic)
    {r : TriggerRow τ} (hr : r ∈ s.rows) (hkey : r.trigger.exchangeTopic = trigger.exchangeTopic) :
    r.visible t = r.after (Function.update s.requests t (.sent op trigger)) := by
  have hother : ∀ op' u, r.state.writer? = some (op', u) → u ≠ t → (s.requests u).isSent = false := by
    intro op' u hw hu
    have htask := h.owner r hr op' u hw
    cases hreq : s.requests u with
    | sent op'' trigger' =>
      rw [hreq] at htask
      cases htask
      exact absurd hkey (horderly u _ _ hreq)
    | _ => rfl
  rw [TriggerRow.visible, TriggerRow.after]
  cases hstate : r.state with
  | inserted u =>
    by_cases hu : u = t
    · simp [hu, Request.isSent]
    · simp [hu, hother .create u (by rw [hstate]; rfl) hu]
  | deleting u =>
    by_cases hu : u = t
    · simp [hu, Request.isSent]
    · simp [hu, hother .delete u (by rw [hstate]; rfl) hu]
  | _ => rfl

theorem mem_readEvents {op : Op} {e : String} :
    e ∈ s.readEvents t op key ↔ ∃ r ∈ s.rows, r.visible t ∧ r.trigger.exchangeTopic = key ∧ r.trigger.event = e := by
  unfold readEvents
  cases op <;> simp [and_assoc]

theorem send_sends (h : s.Ok) {op : Op} {trigger : EventTrigger} (hwrote : s.requests t = .wrote op trigger) :
    ∃ r, r.trigger = trigger ∧ s.Sends (s.send t) op r (s.readEvents t op trigger.exchangeTopic) := by
  obtain ⟨r, hr, rfl, hwriter⟩ := h.rows.holds t op trigger (by rw [hwrote]; rfl)
  refine ⟨r, rfl, hr, ?_, ?_, h.sent.unsent t op r.trigger hwrote, ?_, ?_, fun r' hr' hne => ?_, ?_, ?_, ?_⟩
  · rw [send, hwrote]
  · rw [send, hwrote]
  · rw [after_of_writer hwriter, hwrote]
    cases op <;> rfl
  · rw [after_of_writer hwriter, send, hwrote]
    dsimp only
    rw [Function.update_self]
    cases op <;> rfl
  · refine after_of_not_writer (fun u (hu : u ≠ t) => ?_) fun op' hw => hne ?_
    · rw [send, hwrote]
      exact Function.update_of_ne hu _ _
    · have htask := h.rows.owner r' hr' op' t hw
      rw [hwrote] at htask
      exact (Prod.mk.inj (Option.some.inj htask)).2.symm
  · rw [send, hwrote]
  · rw [send, hwrote]
  · rw [send, hwrote]

end

/-- A message that is known is about a row. -/
theorem Ok.exists_row (h : s.Ok) (hm : m ∈ s.messages) :
    ∃ r ∈ s.rows, r.trigger = m.trigger := by
  obtain ⟨p, hp, hpm⟩ := List.mem_map.mp (h.sent.known m hm)
  obtain ⟨r, hr, rfl⟩ := List.mem_map.mp hp
  exact ⟨r, hr, hpm⟩

namespace Sends
variable {s' : Cluster τ} {op : Op} {r : TriggerRow τ} {events : List String}

theorem messages (hs : s.Sends s' op r events) : s'.messages = s.messages ++ [⟨op, r.trigger, events⟩] := by
  rw [Cluster.messages, hs.sent, List.map_append]
  rfl

theorem sent_iff (hs : s.Sends s' op r events) {op' : Op} {t' : EventTrigger} :
    s'.Sent op' t' ↔ s.Sent op' t' ∨ op = op' ∧ r.trigger = t' := by
  rw [Sent, hs.messages]
  simp only [List.mem_append, List.mem_singleton, or_and_right, exists_or, exists_eq_left]
  rfl

theorem received_iff (hs : s.Sends s' op r events) {op' : Op} {t' : EventTrigger} :
    s'.Received op' t' ↔ s.Received op' t' := by
  rw [Received, hs.sent]
  simp [Received, or_and_right, exists_or]

/-- The other triggers will be there as before. -/
theorem mem_existing_iff (hs : s.Sends s' op r events) {t' : EventTrigger} {b : Bool} (hne : t' ≠ r.trigger) :
    (t', b) ∈ s'.existing ↔ (t', b) ∈ s.existing := by
  rw [existing, existing, hs.rows]
  simp only [List.mem_map, Prod.mk.injEq]
  refine exists_congr fun r' => and_congr_right fun hr' => and_congr_right fun ht' => ?_
  rw [hs.other r' hr' (ht' ▸ hne)]

theorem existing_keys (hs : s.Sends s' op r events) : s'.existing.map (·.1) = s.existing.map (·.1) := by
  rw [existing, existing, hs.rows, List.map_map, List.map_map]
  rfl

theorem once (hs : s.Sends s' op r events) (h : s.Ok) : (s'.messages.map fun m => (m.op, m.trigger.id)).Nodup := by
  rw [hs.messages, List.map_append, List.nodup_append]
  refine ⟨h.sent.once, List.nodup_singleton _, ?_⟩
  rintro _ hm _ hnew rfl
  obtain ⟨m, hm, hmkey⟩ := List.mem_map.mp hm
  obtain ⟨hop, hid⟩ := Prod.mk.inj (hmkey.trans (List.mem_singleton.mp hnew))
  obtain ⟨r', hr', htrigger⟩ := h.exists_row hm
  obtain rfl := h.rows.eq_of_trigger hr' hs.mem (by rw [← hid, htrigger])
  exact hs.unsent ⟨m, hm, hop, htrigger.symm⟩

theorem after (hs : s.Sends s' op r events) (h : s.Ok) (p : EventTrigger × Bool) (hp : p ∈ s'.existing) :
    p.2 ↔ s'.Sent .create p.1 ∧ ¬s'.Sent .delete p.1 := by
  rw [hs.sent_iff, hs.sent_iff]
  by_cases hne : p.1 = r.trigger
  · rw [existing, hs.rows] at hp
    obtain ⟨r', hr', rfl⟩ := List.mem_map.mp hp
    obtain rfl := h.rows.eq_of_trigger hr' hs.mem (congrArg _ hne)
    dsimp only
    rw [hs.self]
    cases op with
    | create =>
      have hdelete : ¬s.Sent .delete r'.trigger := fun hd => hs.unsent (h.sent.order _ hd)
      simp [hdelete]
    | delete => simp
  · have hp' := (hs.mem_existing_iff hne).mp hp
    simpa [Ne.symm hne] using h.sent.after p hp'

theorem order (hs : s.Sends s' op r events) (h : s.Ok) (t' : EventTrigger) (hdelete : s'.Sent .delete t') :
    s'.Sent .create t' := by
  rw [hs.sent_iff] at hdelete ⊢
  rcases hdelete with hdelete | ⟨rfl, rfl⟩
  · exact .inl (h.sent.order t' hdelete)
  · exact .inl ((h.sent.after (r.trigger, r.after s.requests) (List.mem_map_of_mem hs.mem)).mp hs.before).1

/-- The last message for an exchange and a topic says which events have triggers that will be there. -/
theorem snapshot (hs : s.Sends s' op r events) (h : s.Ok)
    (hevents : ∀ e, e ∈ events ↔ ∃ r' ∈ s.rows, r'.after s'.requests ∧
      r'.trigger.exchangeTopic = r.trigger.exchangeTopic ∧ r'.trigger.event = e) (key : String × String) (e : String) :
    e ∈ (s'.lastSent? key).elim [] (·.events) ↔
      ∃ t', (t', true) ∈ s'.existing ∧ t'.exchangeTopic = key ∧ t'.event = e := by
  rw [lastSent?, hs.messages, List.filter_append]
  by_cases hkey : r.trigger.exchangeTopic = key
  · subst hkey
    simp only [List.filter_cons, List.filter_nil, decide_true, if_true, List.getLast?_append, List.getLast?_singleton,
      Option.some_or, Option.elim_some]
    rw [hevents, existing, hs.rows]
    constructor
    · rintro ⟨r', hr', hafter, hrest⟩
      exact ⟨r'.trigger, List.mem_map.mpr ⟨r', hr', by rw [hafter]⟩, hrest⟩
    · rintro ⟨t', ht', hrest⟩
      obtain ⟨r', hr', hrt⟩ := List.mem_map.mp ht'
      obtain ⟨rfl, hafter⟩ := Prod.mk.inj hrt
      exact ⟨r', hr', hafter, hrest⟩
  · simp only [List.filter_cons, List.filter_nil, hkey, decide_false, Bool.false_eq_true, if_false, List.append_nil]
    refine (h.sent.snapshot key e).trans (exists_congr fun t' => ?_)
    constructor
    · rintro ⟨ht', hkey', he⟩
      exact ⟨(hs.mem_existing_iff fun hne => hkey (hne ▸ hkey')).mpr ht', hkey', he⟩
    · rintro ⟨ht', hkey', he⟩
      exact ⟨(hs.mem_existing_iff fun hne => hkey (hne ▸ hkey')).mp ht', hkey', he⟩

theorem engineOk (hs : s.Sends s' op r events) (h : s.Ok) : s'.EngineOk := by
  refine ⟨fun e t' => ?_, ?_, fun t' hdelete m hm hcreate htrigger => ?_⟩
  · rw [hs.received_iff, hs.received_iff, hs.triggers]
    exact h.engine.triggers e t'
  · rw [hs.triggers]
    exact h.engine.once
  · rw [hs.received_iff] at hdelete
    rw [hs.sent] at hm
    rcases List.mem_append.mp hm with hm | hm
    · exact h.engine.order t' hdelete m hm hcreate htrigger
    · cases List.mem_singleton.mp hm
      cases hcreate
      subst htrigger
      obtain ⟨m, hm, hop, htrigger, -⟩ := hdelete
      exact absurd (h.sent.order _ ⟨m.1, List.mem_map_of_mem hm, hop, htrigger⟩) hs.unsent

theorem listenersOk (hs : s.Sends s' op r events) (h : s.Ok) : s'.ListenersOk := by
  refine h.listeners.of_eq hs.started hs.listeners (fun key => ?_) fun k m phase hphase => ?_
  · rw [lastProcessed?, hs.sent, List.filter_append, List.filter_cons_of_neg (by simp), List.filter_nil, List.append_nil]
    rfl
  · rw [hs.sent]
    refine ⟨fun hk => ?_, fun hk => by rw [List.getElem?_append_left (List.getElem?_eq_some_iff.mp hk).1, hk]⟩
    rcases Lists.getElem?_append_singleton hk with hk | ⟨-, heq⟩
    · exact hk
    · cases heq
      rcases hphase with hphase | hphase <;> cases hphase

end Sends

section
variable [DecidableEq τ]

theorem send_ok (h : s.Ok) (horderly : s.Orderly (.send t)) : (s.send t).Ok := by
  cases hwrote : s.requests t with
  | wrote op trigger =>
    obtain ⟨r, rfl, hs⟩ := send_sends h hwrote
    have hrequests : (s.send t).requests = Function.update s.requests t (.sent op r.trigger) := by rw [send, hwrote]
    have hevents : ∀ e, e ∈ s.readEvents t op r.trigger.exchangeTopic ↔ ∃ r' ∈ s.rows, r'.after (s.send t).requests ∧
        r'.trigger.exchangeTopic = r.trigger.exchangeTopic ∧ r'.trigger.event = e := by
      intro e
      rw [mem_readEvents, hrequests]
      refine exists_congr fun r' => and_congr_right fun hr' => ?_
      rw [← and_assoc, ← and_assoc]
      refine and_congr_left fun _ => and_congr_left fun hkey => ?_
      rw [visible_eq_after h.rows (horderly op r.trigger hwrote) hr' hkey]
    refine ⟨h.rows.of_task hs.rows fun u => ?_,
      ⟨?_, hs.once h, hs.after h, fun t' => hs.order h t', ?_, hs.snapshot h hevents, ?_⟩, hs.engineOk h,
      hs.listenersOk h⟩
    · rw [hrequests]
      by_cases hu : u = t
      · rw [hu, Function.update_self, hwrote]
        rfl
      · rw [Function.update_of_ne hu]
    · intro m hm
      rw [hs.existing_keys]
      rw [hs.messages] at hm
      rcases List.mem_append.mp hm with hm | hm
      · exact h.sent.known m hm
      · cases List.mem_singleton.mp hm
        exact List.mem_map.mpr ⟨_, List.mem_map_of_mem hs.mem, rfl⟩
    · intro u op' t' hu
      rw [hrequests] at hu
      have hut : u ≠ t := by
        rintro rfl
        rw [Function.update_self] at hu
        cases hu
      rw [Function.update_of_ne hut] at hu
      rw [hs.sent_iff]
      rintro (hsent | ⟨rfl, rfl⟩)
      · exact h.sent.unsent u op' t' hu hsent
      · exact hut (h.rows.unique (by rw [hwrote]; rfl) (by rw [hu]; rfl))
    · intro m hm hcreate
      rw [hs.messages] at hm
      rcases List.mem_append.mp hm with hm | hm
      · exact h.sent.own m hm hcreate
      · cases List.mem_singleton.mp hm
        cases hcreate
        exact List.ne_nil_of_mem ((hevents _).mpr ⟨r, hs.mem, by rw [hs.self]; rfl, rfl, rfl⟩)
  | _ =>
    rw [send, hwrote]
    exact h

end

/-! ### Handlers -/

theorem Ok.trigger_eq (h : s.Ok) {m' : Rpc} (hm : m ∈ s.messages) (hm' : m' ∈ s.messages)
    (hid : m.trigger.id = m'.trigger.id) : m.trigger = m'.trigger := by
  obtain ⟨r, hr, hrm⟩ := h.exists_row hm
  obtain ⟨r', hr', hrm'⟩ := h.exists_row hm'
  obtain rfl := h.rows.eq_of_trigger hr hr' (by rw [hrm, hrm', hid])
  rw [← hrm, ← hrm']

/-- The handler of a message goes on. -/
structure Handles (s s' : Cluster τ) (n : Nat) (m : Rpc) (old new : RpcPhase) : Prop where
  found : s.sent[n]? = some (m, old)
  rows : s'.rows = s.rows
  requests : s'.requests = s.requests
  sent : s'.sent = s.sent.set n (m, new)
  begun : new ≠ .queued

namespace Handles
variable {s' : Cluster τ} {old new : RpcPhase}

theorem messages (hs : s.Handles s' n m old new) : s'.messages = s.messages := by
  rw [Cluster.messages, hs.sent]
  exact Lists.map_set_of_eq hs.found rfl

theorem mem (hs : s.Handles s' n m old new) : (m, old) ∈ s.sent := List.mem_of_getElem? hs.found

theorem mem_new (hs : s.Handles s' n m old new) : (m, new) ∈ s'.sent := by
  obtain ⟨hn, -⟩ := List.getElem?_eq_some_iff.mp hs.found
  rw [hs.sent]
  exact List.mem_set hn _

theorem received_iff (hs : s.Handles s' n m old new) {op : Op} {t' : EventTrigger} :
    s'.Received op t' ↔ s.Received op t' ∨ m.op = op ∧ m.trigger = t' := by
  constructor
  · rintro ⟨z, hz, hop, htrigger, hphase⟩
    rw [hs.sent] at hz
    rcases List.mem_or_eq_of_mem_set hz with hz | rfl
    · exact .inl ⟨z, hz, hop, htrigger, hphase⟩
    · exact .inr ⟨hop, htrigger⟩
  · rintro (⟨z, hz, hop, htrigger, hphase⟩ | ⟨hop, htrigger⟩)
    · by_cases hne : z = (m, old)
      · subst hne
        exact ⟨(m, new), hs.mem_new, hop, htrigger, hs.begun⟩
      · refine ⟨z, ?_, hop, htrigger, hphase⟩
        rw [hs.sent]
        exact (Lists.mem_set_iff hs.found hne).mpr (.inr hz)
    · exact ⟨(m, new), hs.mem_new, hop, htrigger, hs.begun⟩

/-- The rows and the messages are as before. -/
theorem ok (hs : s.Handles s' n m old new) (h : s.Ok) (hengine : s'.EngineOk) (hlisteners : s'.ListenersOk) : s'.Ok := by
  refine ⟨h.rows.of_task hs.rows fun u => by rw [hs.requests], h.sent.of_eq hs.messages ?_ ?_, hengine, hlisteners⟩
  · rw [existing, existing, hs.rows, hs.requests]
  · rw [hs.requests]
    exact h.sent.unsent

theorem order (hs : s.Handles s' n m old new) (h : s.Ok)
    (hdelete : m.op = .delete → ∀ m' ∈ s.sent, m'.1.op = .create → m'.1.trigger.id = m.trigger.id → m'.2 ≠ .queued)
    (t' : EventTrigger) (hreceived : s'.Received .delete t') (m' : Rpc × RpcPhase) (hm' : m' ∈ s'.sent)
    (hcreate : m'.1.op = .create) (htrigger : m'.1.trigger = t') : m'.2 ≠ .queued := by
  rw [hs.sent] at hm'
  rcases List.mem_or_eq_of_mem_set hm' with hm' | rfl
  · rcases hs.received_iff.mp hreceived with hreceived | ⟨hop, hm⟩
    · exact h.engine.order t' hreceived m' hm' hcreate htrigger
    · exact hdelete hop m' hm' hcreate (by rw [htrigger, hm])
  · exact hs.begun

theorem cases (hs : s.Handles s' n m old new) {k : Nat} {x : Rpc × RpcPhase} (hk : s'.sent[k]? = some x) :
    k = n ∧ x = (m, new) ∨ k ≠ n ∧ s.sent[k]? = some x := by
  rw [hs.sent] at hk
  by_cases hkn : k = n
  · subst hkn
    rw [List.getElem?_set_self (List.getElem?_eq_some_iff.mp hs.found).1] at hk
    exact .inl ⟨rfl, (Option.some.inj hk).symm⟩
  · rw [List.getElem?_set_ne (Ne.symm hkn)] at hk
    exact .inr ⟨hkn, hk⟩

theorem get_of_ne (hs : s.Handles s' n m old new) {k : Nat} (hk : k ≠ n) : s'.sent[k]? = s.sent[k]? := by
  rw [hs.sent, List.getElem?_set_ne (Ne.symm hk)]

/-- A handler that has only changed the map of the triggers has changed no listener. -/
theorem listenersOk_of_mapped (hs : s.Handles s' n m .queued .mapped) (h : s.Ok) (hstarted : s'.started = s.started)
    (hlisteners : s'.listeners = s.listeners) : s'.ListenersOk := by
  refine h.listeners.of_eq hstarted hlisteners (fun key => ?_) fun k m' phase hphase => ?_
  · rw [lastProcessed?, hs.sent, Lists.filter_set_of_not hs.found (by simp) (by simp)]
    rfl
  · by_cases hk : k = n
    · subst hk
      constructor
      · intro hnew
        rcases hs.cases hnew with ⟨-, heq⟩ | ⟨hne, -⟩
        · cases heq
          rcases hphase with hphase | hphase <;> cases hphase
        · exact absurd rfl hne
      · intro hold
        cases hs.found.symm.trans hold
        rcases hphase with hphase | hphase <;> cases hphase
    · rw [hs.get_of_ne hk]

/-- A handler that changes a listener leaves the map of the triggers alone. -/
theorem engineOk (hs : s.Handles s' n m old new) (h : s.Ok) (hold : old ≠ .queued) (htriggers : s'.triggers = s.triggers) :
    s'.EngineOk := by
  have hreceived : ∀ op t', m.op = op ∧ m.trigger = t' → s.Received op t' := fun op t' hmt =>
    ⟨_, hs.mem, hmt.1, hmt.2, hold⟩
  refine ⟨fun e t' => ?_, by rw [htriggers]; exact h.engine.once, hs.order h fun hop m' hm' hcreate hid => ?_⟩
  · rw [hs.received_iff, hs.received_iff, or_iff_left_of_imp (hreceived _ _), or_iff_left_of_imp (hreceived _ _), htriggers]
    exact h.engine.triggers e t'
  · exact h.engine.order m.trigger (hreceived _ _ ⟨hop, rfl⟩) m' hm' hcreate
      (h.trigger_eq (List.mem_map_of_mem hm') (List.mem_map_of_mem hs.mem) hid)

/-- The only handler that changes the listener of its exchange and topic goes on, and leaves all others alone. -/
theorem listenersOk (hs : s.Handles s' n m old new) (h : s.Ok) (hold : old ≠ .processed) (halone : s.AloneAt n m)
    (hframe : ∀ key, key ≠ m.trigger.exchangeTopic → s'.listeners key = s.listeners key ∧
      ∀ i events, s'.Runs i key events ↔ s.Runs i key events)
    (hstarted : ∀ (i : Nat) (l : Listener), s.started[i]? = some l →
      ∃ l' : Listener, s'.started[i]? = some l' ∧ l'.exchangeTopic = l.exchangeTopic)
    (hhandling : s'.Handling m new)
    (hends : new.busy = false → new = .processed ∧ s'.Listens m.trigger.exchangeTopic m.listener) : s'.ListenersOk := by
  obtain ⟨hn, -⟩ := List.getElem?_eq_some_iff.mp hs.found
  refine ⟨fun key hquiet => ?_, ?_, ?_⟩
  · by_cases hkey : key = m.trigger.exchangeTopic
    · -- Nothing changes this listener, so that the handler has ended.
      subst hkey
      obtain ⟨rfl, hlistens⟩ := hends (hquiet _ hs.mem_new rfl)
      rw [lastProcessed?, hs.sent, Lists.getLast?_filter_set hn (by simp)]
      · exact hlistens
      · rintro k ⟨m', phase⟩ hk hp
        obtain ⟨hkey, rfl⟩ := of_decide_eq_true hp
        refine (halone k m' _ hk ?_ hkey).2 rfl
        rintro rfl
        cases hs.found.symm.trans hk
        exact hold rfl
    · obtain ⟨hlisteners, hruns⟩ := hframe key hkey
      rw [lastProcessed?, hs.sent, Lists.filter_set_of_not hs.found (by simp [Ne.symm hkey]) (by simp [Ne.symm hkey])]
      refine (h.listeners.listens key fun m' hm' hm'key => hquiet m' ?_ hm'key).congr hlisteners hruns
      rw [hs.sent]
      refine (Lists.mem_set_iff hs.found ?_).mpr (.inr hm')
      rintro rfl
      exact hkey hm'key.symm
  · rintro ⟨m', phase⟩ hm'
    obtain ⟨k, hk⟩ := List.mem_iff_getElem?.mp hm'
    rcases hs.cases hk with ⟨-, heq⟩ | ⟨hkn, hk⟩
    · cases heq
      exact hhandling
    · by_cases hkey : m'.trigger.exchangeTopic = m.trigger.exchangeTopic
      · exact handling_of_idle (halone k m' phase hk hkn hkey).1
      · exact (h.listeners.handling _ (List.mem_of_getElem? hk)).congr hstarted (hframe _ hkey).2
  · intro k m' phase hk hbusy j m'' phase' hj hjk hkey
    rcases hs.cases hk with ⟨rfl, heq⟩ | ⟨hkn, hk⟩
    · cases heq
      rw [hs.get_of_ne hjk] at hj
      exact halone j m'' phase' hj hjk hkey
    · have hother : m'.trigger.exchangeTopic ≠ m.trigger.exchangeTopic := fun hsame =>
        absurd (hbusy.symm.trans (halone k m' phase hk hkn hsame).1) (by rintro ⟨⟩)
      rcases hs.cases hj with ⟨-, heq⟩ | ⟨-, hj⟩
      · cases heq
        exact absurd hkey.symm hother
      · exact h.listeners.alone k m' phase hk hbusy j m'' phase' hj hjk hkey

end Handles

theorem receive_ok (h : s.Ok) (horderly : s.Orderly (.receive n)) : (s.receive n).Ok := by
  unfold receive
  split
  · next m hfound =>
    have hm : m ∈ s.messages := List.mem_map_of_mem (List.mem_of_getElem? hfound)
    cases hop : m.op with
    | create =>
      have hs : s.Handles { s with sent := s.sent.set n (m, .mapped), triggers := s.triggers.create m.trigger } n m
          .queued .mapped := ⟨hfound, rfl, rfl, rfl, nofun⟩
      refine hs.ok h ⟨fun e t' => ?_, fun e ts => TriggersMap.create_once h.engine.once,
        hs.order h fun hdelete => (by cases hop.symm.trans hdelete)⟩ (hs.listenersOk_of_mapped h rfl rfl)
      · rw [hs.received_iff, hs.received_iff, TriggersMap.mem_create, h.engine.triggers, hop]
        · have hnot : ¬s.Received .delete m.trigger := fun hd =>
            h.engine.order m.trigger hd _ (List.mem_of_getElem? hfound) hop rfl rfl
          constructor
          · rintro (⟨he, hcreate, hdelete⟩ | ⟨rfl, he⟩)
            · exact ⟨he, .inl hcreate, by simpa using hdelete⟩
            · exact ⟨he, .inr ⟨rfl, rfl⟩, by simpa using hnot⟩
          · rintro ⟨he, hcreate | ⟨-, rfl⟩, hdelete⟩
            · exact .inl ⟨he, hcreate, by simpa using hdelete⟩
            · exact .inr ⟨rfl, he⟩
        · intro hid
          obtain ⟨t'', ht'', hid⟩ := List.mem_map.mp hid
          obtain ⟨m', hm', -, htrigger, -⟩ := ((h.engine.triggers _ _).mp ht'').2.1
          have : t'' = m.trigger := by
            rw [← htrigger]
            exact h.trigger_eq (List.mem_map_of_mem hm') hm (by rw [htrigger, hid])
          exact this ▸ ht''
    | delete =>
      have hguard := horderly m hfound hop
      obtain ⟨mc, hmc, hmcop, hmctrigger⟩ := h.sent.order m.trigger ⟨m, hm, hop, rfl⟩
      obtain ⟨z, hz, rfl⟩ := List.mem_map.mp hmc
      have hnot : ¬s.Received .delete m.trigger := by
        rintro ⟨z', hz', hz'op, hz'trigger, hphase⟩
        have honce : (s.sent.map fun z => (z.1.op, z.1.trigger.id)).Nodup := by
          have := h.sent.once
          rwa [messages, List.map_map] at this
        have := List.inj_on_of_nodup_map honce hz' (List.mem_of_getElem? hfound) (by rw [hz'op, hz'trigger, hop])
        subst this
        exact hphase rfl
      have hmem : m.trigger ∈ (s.triggers m.trigger.event).getD [] :=
        (h.engine.triggers _ _).mpr ⟨rfl, ⟨z, hz, hmcop, hmctrigger, hguard z hz hmcop (by rw [hmctrigger])⟩, hnot⟩
      obtain ⟨m', hdelete, hmem', honce'⟩ := TriggersMap.delete_spec h.engine.once hmem
      rw [hdelete]
      have hs : s.Handles { s with sent := s.sent.set n (m, .mapped), triggers := m' } n m .queued .mapped :=
        ⟨hfound, rfl, rfl, rfl, nofun⟩
      refine hs.ok h ⟨fun e t' => ?_, honce', hs.order h fun _ => hguard⟩ (hs.listenersOk_of_mapped h rfl rfl)
      · rw [hs.received_iff, hs.received_iff, hmem', h.engine.triggers, hop]
        constructor
        · rintro ⟨⟨rfl, hcreate, hdelete⟩, hne⟩
          refine ⟨rfl, .inl hcreate, ?_⟩
          rintro (hd | ⟨-, rfl⟩)
          · exact hdelete hd
          · exact hne ⟨rfl, rfl⟩
        · rintro ⟨rfl, hcreate | ⟨hop', -⟩, hdelete⟩
          · refine ⟨⟨rfl, hcreate, fun hd => hdelete (.inl hd)⟩, ?_⟩
            rintro ⟨-, hid⟩
            obtain ⟨m'', hm'', -, htrigger, -⟩ := hcreate
            refine hdelete (.inr ⟨rfl, ?_⟩)
            rw [← htrigger]
            exact h.trigger_eq hm (List.mem_map_of_mem hm'') (by rw [htrigger, hid])
          · cases hop'
  · exact h

/-- A handler comes to the map of the listeners, in which no other one changes the entry for its exchange and topic. -/
theorem listen_mapped (h : s.Ok) (hfound : s.sent[n]? = some (m, .mapped)) (halone : s.AloneAt n m) : (s.listen n).Ok := by
  have hlistens := h.listeners.listens m.trigger.exchangeTopic fun x hx hkey => by
    obtain ⟨k, hk⟩ := List.mem_iff_getElem?.mp hx
    by_cases hkn : k = n
    · subst hkn
      cases hfound.symm.trans hk
      rfl
    · exact (halone k x.1 x.2 hk hkn hkey).1
  simp only [listen, hfound]
  cases hlistener : s.listeners m.trigger.exchangeTopic with
  | some i =>
    have hs : s.Handles { s with sent := s.sent.set n (m, .stopping i) } n m .mapped (.stopping i) :=
      ⟨hfound, rfl, rfl, rfl, by rintro ⟨⟩⟩
    refine hs.ok h (hs.engineOk h (by rintro ⟨⟩) rfl) (hs.listenersOk h (by rintro ⟨⟩) halone (fun _ _ => ⟨rfl, fun _ _ => .rfl⟩)
      (fun i l hl => ⟨l, hl, rfl⟩) ?_ (by rintro ⟨⟩))
    cases hlast : (s.lastProcessed? m.trigger.exchangeTopic).bind (·.1.listener) with
    | none =>
      rw [hlast] at hlistens
      cases hlistener.symm.trans hlistens.1
    | some events =>
      rw [hlast] at hlistens
      obtain ⟨j, hj, hrun, honly⟩ := hlistens
      cases hlistener.symm.trans hj
      exact ⟨⟨_, hrun, rfl⟩, honly⟩
  | none =>
    have hnone : ∀ i events, ¬s.Runs i m.trigger.exchangeTopic events := by
      cases hlast : (s.lastProcessed? m.trigger.exchangeTopic).bind (·.1.listener) with
      | none =>
        rw [hlast] at hlistens
        exact hlistens.2
      | some events =>
        rw [hlast] at hlistens
        obtain ⟨j, hj, -⟩ := hlistens
        cases hlistener.symm.trans hj
    have hs : s.Handles { s with sent := s.sent.set n (m, if m.listener.isNone then .processed else .stopped) } n m .mapped
        (if m.listener.isNone then .processed else .stopped) := ⟨hfound, rfl, rfl, rfl, by split <;> rintro ⟨⟩⟩
    refine hs.ok h (hs.engineOk h (by rintro ⟨⟩) rfl) (hs.listenersOk h (by rintro ⟨⟩) halone (fun _ _ => ⟨rfl, fun _ _ => .rfl⟩)
      (fun i l hl => ⟨l, hl, rfl⟩) ?_ fun hidle => ?_)
    · split
      · trivial
      · exact hnone
    · cases hm : m.listener with
      | none => exact ⟨rfl, hlistener, hnone⟩
      | some events =>
        rw [hm] at hidle
        cases hidle

/-- The old listener is stopped. -/
theorem listen_stopping (h : s.Ok) {i : Nat} (hfound : s.sent[n]? = some (m, .stopping i)) : (s.listen n).Ok := by
  obtain ⟨⟨l, hl, hkey⟩, honly⟩ := h.listeners.handling _ (List.mem_of_getElem? hfound)
  simp only [listen, hfound]
  have hs : s.Handles { s with
      sent := s.sent.set n (m, .stopped), started := s.started.modify i fun l => { l with running := false } } n m
        (.stopping i) .stopped := ⟨hfound, rfl, rfl, rfl, by rintro ⟨⟩⟩
  have hself : (s.started.modify i fun l => { l with running := false })[i]? = some { l with running := false } := by
    rw [List.getElem?_modify_eq, hl]
    rfl
  have hother : ∀ j, j ≠ i → (s.started.modify i fun l => { l with running := false })[j]? = s.started[j]? := fun j hj =>
    List.getElem?_modify_ne _ _ (Ne.symm hj)
  refine hs.ok h (hs.engineOk h (by rintro ⟨⟩) rfl) (hs.listenersOk h (by rintro ⟨⟩)
    (h.listeners.alone n m _ hfound rfl) (fun key hne => ⟨rfl, fun j events => ?_⟩) (fun j l' hl' => ?_) ?_ (by rintro ⟨⟩))
  · rw [Runs, Runs]
    by_cases hj : j = i
    · subst hj
      refine iff_of_false (fun hrun => ?_) fun hrun => hne ?_
      · exact absurd (congrArg Listener.running (Option.some.inj (hself.symm.trans hrun))) Bool.false_ne_true
      · rw [← hkey, Option.some.inj (hl.symm.trans hrun)]
    · dsimp only
      rw [hother j hj]
  · by_cases hj : j = i
    · subst hj
      cases hl.symm.trans hl'
      exact ⟨_, hself, rfl⟩
    · exact ⟨l', by dsimp only; rw [hother j hj, hl'], rfl⟩
  · intro j events hrun
    by_cases hj : j = i
    · subst hj
      exact absurd (congrArg Listener.running (Option.some.inj (hself.symm.trans hrun))) Bool.false_ne_true
    · exact hj (honly j events ((hother j hj).symm.trans hrun))

/-- A new listener is started, or the old one is removed from the map. -/
theorem listen_stopped (h : s.Ok) (hfound : s.sent[n]? = some (m, .stopped)) : (s.listen n).Ok := by
  have hnone : ∀ j events, ¬s.Runs j m.trigger.exchangeTopic events := h.listeners.handling _ (List.mem_of_getElem? hfound)
  have halone := h.listeners.alone n m _ hfound rfl
  simp only [listen, hfound]
  cases hm : m.listener with
  | none =>
    have hs : s.Handles { s with
        sent := s.sent.set n (m, .processed)
        listeners := Function.update s.listeners m.trigger.exchangeTopic none } n m .stopped .processed :=
      ⟨hfound, rfl, rfl, rfl, by rintro ⟨⟩⟩
    refine hs.ok h (hs.engineOk h (by rintro ⟨⟩) rfl) (hs.listenersOk h (by rintro ⟨⟩) halone
      (fun key hne => ⟨Function.update_of_ne hne _ _, fun _ _ => .rfl⟩) (fun i l hl => ⟨l, hl, rfl⟩) trivial fun _ => ⟨rfl, ?_⟩)
    rw [hm]
    exact ⟨Function.update_self _ _ _, hnone⟩
  | some events =>
    have hs : s.Handles { s with
        sent := s.sent.set n (m, .started s.started.length)
        started := s.started ++ [⟨m.trigger.exchangeTopic, events, true⟩] } n m .stopped (.started s.started.length) :=
      ⟨hfound, rfl, rfl, rfl, by rintro ⟨⟩⟩
    have hruns : ∀ {key j events'}, Runs { s with
        sent := s.sent.set n (m, .started s.started.length)
        started := s.started ++ [⟨m.trigger.exchangeTopic, events, true⟩] } j key events' →
          s.Runs j key events' ∨ j = s.started.length ∧ key = m.trigger.exchangeTopic := fun hrun => by
      rcases Lists.getElem?_append_singleton hrun with hrun | ⟨hj, heq⟩
      · exact .inl hrun
      · exact .inr ⟨hj, by cases heq; rfl⟩
    have hkept : ∀ {j l}, s.started[j]? = some l →
        (s.started ++ [⟨m.trigger.exchangeTopic, events, true⟩])[j]? = some l := fun hl => by
      rw [List.getElem?_append_left (List.getElem?_eq_some_iff.mp hl).1, hl]
    refine hs.ok h (hs.engineOk h (by rintro ⟨⟩) rfl) (hs.listenersOk h (by rintro ⟨⟩) halone
      (fun key hne => ⟨rfl, fun j events' => ⟨fun hrun => (hruns hrun).resolve_right fun hnew => hne hnew.2, hkept⟩⟩)
      (fun j l hl => ⟨l, hkept hl, rfl⟩) ⟨events, hm, List.getElem?_concat_length, fun j events' hrun => ?_⟩ (by rintro ⟨⟩))
    exact (hruns hrun).elim (fun hrun => absurd hrun (hnone j events')) (·.1)

/-- The new listener is put into the map. -/
theorem listen_started (h : s.Ok) {i : Nat} (hfound : s.sent[n]? = some (m, .started i)) : (s.listen n).Ok := by
  obtain ⟨events, hm, hrun, honly⟩ := h.listeners.handling _ (List.mem_of_getElem? hfound)
  simp only [listen, hfound]
  have hs : s.Handles { s with
      sent := s.sent.set n (m, .processed)
      listeners := Function.update s.listeners m.trigger.exchangeTopic (some i) } n m (.started i) .processed :=
    ⟨hfound, rfl, rfl, rfl, by rintro ⟨⟩⟩
  refine hs.ok h (hs.engineOk h (by rintro ⟨⟩) rfl) (hs.listenersOk h (by rintro ⟨⟩) (h.listeners.alone n m _ hfound rfl)
    (fun key hne => ⟨Function.update_of_ne hne _ _, fun _ _ => .rfl⟩) (fun i l hl => ⟨l, hl, rfl⟩) trivial fun _ => ⟨rfl, ?_⟩)
  rw [hm]
  exact ⟨i, Function.update_self _ _ _, hrun, honly⟩

theorem listen_ok (h : s.Ok) (horderly : s.Orderly (.listen n)) : (s.listen n).Ok := by
  cases hfound : s.sent[n]? with
  | none => simpa only [listen, hfound] using h
  | some x =>
    obtain ⟨m, phase⟩ := x
    cases phase with
    | mapped => exact listen_mapped h hfound fun k m' phase hk _ hkey => horderly m hfound k m' phase hk hkey
    | stopping i => exact listen_stopping h hfound
    | stopped => exact listen_stopped h hfound
    | started i => exact listen_started h hfound
    | _ => simpa only [listen, hfound] using h

section
variable [DecidableEq τ]

theorem Ok.step (h : s.Ok) (l : ClusterEvent τ) (horderly : s.Orderly l) : (s.step l).Ok := by
  cases l with
  | insert t trigger => exact insert_ok h trigger
  | remove t id => exact remove_ok h id
  | send t => exact send_ok h horderly
  | commit t => exact commit_ok h
  | rollback t => exact rollback_ok h horderly
  | receive n => exact receive_ok h horderly
  | listen n => exact listen_ok h horderly

end

theorem ok_initial : ({} : Cluster τ).Ok where
  rows := ⟨List.nodup_nil, nofun, nofun⟩
  sent :=
    { known := nofun
      once := List.nodup_nil
      after := nofun
      order := by
        rintro _ ⟨_, h, -⟩
        cases h
      unsent := nofun
      snapshot := by
        refine fun key e => ⟨nofun, ?_⟩
        rintro ⟨_, h, -⟩
        cases h
      own := nofun }
  engine :=
    { triggers := by
        refine fun e t => ⟨nofun, ?_⟩
        rintro ⟨-, ⟨_, h, -⟩, -⟩
        cases h
      once := nofun
      order := by
        rintro _ ⟨_, h, -⟩
        cases h }
  listeners :=
    { listens := fun _ _ => ⟨rfl, nofun⟩
      handling := nofun
      alone := nofun }

/-- When all requests have ended and all messages are processed, the engine knows what is in the table. -/
theorem Ok.matches (h : s.Ok) (hquiescent : s.Quiescent) : s.Matches := by
  -- Nobody is in the middle of a request: a row is there, or it is not.
  have hexists : ∀ t', (t', true) ∈ s.existing ↔ s.Exists t' := by
    intro t'
    constructor
    · intro ht'
      obtain ⟨⟨tr, state⟩, hr, hrt⟩ := List.mem_map.mp ht'
      obtain ⟨rfl, hafter⟩ := Prod.mk.inj hrt
      cases state with
      | inserted u =>
        have htask := h.rows.owner _ hr .create u rfl
        rw [hquiescent.requests u] at htask
        cases htask
      | present => exact hr
      | deleting u =>
        have htask := h.rows.owner _ hr .delete u rfl
        rw [hquiescent.requests u] at htask
        cases htask
      | gone => cases hafter
    · exact fun hr => List.mem_map.mpr ⟨_, hr, rfl⟩
  -- No message is under way.
  have hreceived : ∀ op t', s.Received op t' ↔ s.Sent op t' := by
    intro op t'
    constructor
    · rintro ⟨m, hm, hop, htrigger, -⟩
      exact ⟨m.1, List.mem_map_of_mem hm, hop, htrigger⟩
    · rintro ⟨m, hm, hop, htrigger⟩
      obtain ⟨z, hz, rfl⟩ := List.mem_map.mp hm
      exact ⟨z, hz, hop, htrigger, by rw [hquiescent.sent z hz]; nofun⟩
  -- All handlers have ended, so that the listener is what the last message says.
  have hlistens : ∀ key, s.Listens key ((s.lastSent? key).bind Rpc.listener) := by
    intro key
    have hfilter : (s.sent.filter fun m => m.1.trigger.exchangeTopic = key ∧ m.2 = .processed) =
        s.sent.filter fun m => m.1.trigger.exchangeTopic = key :=
      List.filter_congr fun m hm => by simp [hquiescent.sent m hm]
    have hlast := h.listeners.listens key fun m hm _ => by rw [hquiescent.sent m hm]; rfl
    rw [lastProcessed?, hfilter] at hlast
    rw [lastSent?, messages, List.filter_map, List.getLast?_map, Option.bind_map]
    exact hlast
  have hsnapshot := h.sent.snapshot
  simp only [hexists] at hsnapshot
  have hruns : ∀ key, (∃ i events, s.Runs i key events) ↔ ((s.lastSent? key).bind Rpc.listener).isSome := fun key => by
    have hlistens := hlistens key
    cases hlast : (s.lastSent? key).bind Rpc.listener with
    | none =>
      rw [hlast] at hlistens
      exact iff_of_false (fun hrun => hrun.elim fun i hrun => hrun.elim fun events hrun => hlistens.2 i events hrun)
        Bool.false_ne_true
    | some events =>
      rw [hlast] at hlistens
      obtain ⟨i, -, hrun, -⟩ := hlistens
      exact iff_of_true ⟨i, events, hrun⟩ rfl
  refine ⟨fun key => ?_, fun key i => ?_, fun key i events hrun e => ?_, fun e t' => ?_, h.engine.once⟩
  · rw [hruns]
    cases hm : s.lastSent? key with
    | none =>
      refine ⟨nofun, ?_⟩
      rintro ⟨t', ht', hkey⟩
      have := (hsnapshot key t'.event).mpr ⟨t', ht', hkey, rfl⟩
      rw [hm] at this
      cases this
    | some m =>
      have hmem : m ∈ s.messages := (List.mem_filter.mp (List.mem_of_getLast? hm)).1
      rw [Option.bind_some, Rpc.listener]
      split
      · next hnone =>
        refine ⟨nofun, ?_⟩
        rintro ⟨t', ht', hkey⟩
        have := (hsnapshot key t'.event).mpr ⟨t', ht', hkey, rfl⟩
        rw [hm, Option.elim_some, hnone.2] at this
        cases this
      · next hsome =>
        refine ⟨fun _ => ?_, fun _ => rfl⟩
        have hne : m.events ≠ [] := by
          intro hnil
          cases hop : m.op with
          | create => exact h.sent.own m hmem hop hnil
          | delete => exact hsome ⟨hop, hnil⟩
        obtain ⟨e, he⟩ := List.exists_mem_of_ne_nil _ hne
        obtain ⟨t', ht', hkey, -⟩ := (hsnapshot key e).mp (by rw [hm]; exact he)
        exact ⟨t', ht', hkey⟩
  · have hlistens := hlistens key
    cases hlast : (s.lastSent? key).bind Rpc.listener with
    | none =>
      rw [hlast] at hlistens
      rw [hlistens.1]
      exact iff_of_false (by rintro ⟨⟩) fun hrun => hrun.elim fun events hrun => hlistens.2 i events hrun
    | some events =>
      rw [hlast] at hlistens
      obtain ⟨j, hj, hrun, honly⟩ := hlistens
      rw [hj]
      constructor
      · intro hij
        cases hij
        exact ⟨events, hrun⟩
      · rintro ⟨events', hrun'⟩
        rw [honly i events' hrun']
  · -- The listener that runs is that of the last message, whose events are those of the triggers.
    rw [← hsnapshot]
    have hlistens := hlistens key
    cases hlast : (s.lastSent? key).bind Rpc.listener with
    | none =>
      rw [hlast] at hlistens
      exact absurd hrun (hlistens.2 i events)
    | some events' =>
      rw [hlast] at hlistens
      obtain ⟨j, -, hrun', honly⟩ := hlistens
      cases honly i events hrun
      cases hrun.symm.trans hrun'
      obtain ⟨m, hm, hlistener⟩ := Option.bind_eq_some_iff.mp hlast
      rw [hm, Option.elim_some]
      unfold Rpc.listener at hlistener
      split at hlistener
      · cases hlistener
      · cases hlistener
        rfl
  · rw [h.engine.triggers, hreceived, hreceived, and_comm, ← hexists]
    refine and_congr_left fun _ => ?_
    constructor
    · rintro ⟨hcreate, hdelete⟩
      obtain ⟨m, hm, -, rfl⟩ := id hcreate
      obtain ⟨⟨t', b⟩, hp, rfl⟩ := List.mem_map.mp (h.sent.known m hm)
      have hb : b = true := (h.sent.after _ hp).mpr ⟨hcreate, hdelete⟩
      exact hb ▸ hp
    · exact fun ht' => (h.sent.after _ ht').mp rfl

end Cluster

/-- In every run of orderly steps, when all requests have ended and all messages are processed, the listeners and the map
    of the engine are those of the triggers that exist. -/
theorem listeners_match_triggers (τ : Type) [DecidableEq τ] (ls : List (ClusterEvent τ))
    (horderly : (clusterSystem τ).Guarded Cluster.Orderly {} ls)
    (hquiescent : ((clusterSystem τ).run {} ls).Quiescent) : ((clusterSystem τ).run {} ls).Matches :=
  (horderly.invariant Cluster.ok_initial fun _ l h hl => h.step l hl).matches hquiescent

/-- A trigger of the exchange `nova` and the topic `notifications`. -/
def novaTrigger (event : String) : EventTrigger :=
  { id := event, exchange := "nova", topic := "notifications", event }

/-- Two requests create triggers one after the other. The handler of the second message stops the listener that the first one
    has started. -/
def oneAfterTheOther : List (ClusterEvent Bool) :=
  [.insert true (novaTrigger "a"), .send true, .commit true, .insert false (novaTrigger "b"), .send false, .commit false,
    .receive 0, .listen 0, .listen 0, .listen 0, .receive 1, .listen 1, .listen 1, .listen 1, .listen 1]

theorem listener_of_two_triggers :
    ((clusterSystem Bool).run {} oneAfterTheOther).Runs 1 ("nova", "notifications") ["a", "b"] ∧
      ((clusterSystem Bool).run {} oneAfterTheOther).Matches := by
  refine ⟨rfl, listeners_match_triggers Bool oneAfterTheOther ?_ ⟨?_, ?_⟩⟩
  · have hlater : ∀ {sent : List (Rpc × RpcPhase)} {n : Nat} {phase : RpcPhase}, (sent[n]?.map (·.2)) = some phase →
        phase ≠ .mapped → ∀ m, sent[n]? ≠ some (m, .mapped) := fun hphase hne m hm => by
      rw [hm] at hphase
      exact hne (Option.some.inj hphase).symm
    refine ⟨trivial, ?_, trivial, trivial, ?_, trivial, ?_, ?_, ?_, ?_, ?_, ?_, ?_, ?_, ?_, trivial⟩
    · intro op trigger _ u op' trigger' hu
      cases u <;> cases hu
    · intro op trigger _ u op' trigger' hu
      cases u <;> cases hu
    · intro m hm hop
      cases hm
      cases hop
    · intro m _ k m' phase hk _
      match k with
      | 0 => cases hk; exact ⟨rfl, by rintro ⟨⟩⟩
      | 1 => cases hk; exact ⟨rfl, by rintro ⟨⟩⟩
      | k + 2 => cases hk
    · exact fun m hm => absurd hm (hlater rfl (by decide) m)
    · exact fun m hm => absurd hm (hlater rfl (by decide) m)
    · intro m hm hop
      cases hm
      cases hop
    · intro m _ k m' phase hk _
      match k with
      | 0 => cases hk; exact ⟨rfl, fun _ => Nat.zero_lt_one⟩
      | 1 => cases hk; exact ⟨rfl, by rintro ⟨⟩⟩
      | k + 2 => cases hk
    · exact fun m hm => absurd hm (hlater rfl (by decide) m)
    · exact fun m hm => absurd hm (hlater rfl (by decide) m)
    · exact fun m hm => absurd hm (hlater rfl (by decide) m)
  · intro t
    cases t <;> rfl
  · decide

/-- Two requests read the triggers before the other one has committed. -/
def atTheSameTime : List (ClusterEvent Bool) :=
  [.insert true (novaTrigger "a"), .insert false (novaTrigger "b"), .send true, .send false, .commit true, .commit false,
    .receive 0, .listen 0, .listen 0, .listen 0, .receive 1, .listen 1, .listen 1, .listen 1, .listen 1]

/-- After two creations at the same time, the listener does not listen to the event of one of the triggers. -/
theorem concurrent_creation_loses_event :
    ¬∀ ls, ((clusterSystem Bool).run {} ls).Quiescent → ((clusterSystem Bool).run {} ls).Matches := by
  intro h
  have hmatches := h atTheSameTime ⟨fun t => by cases t <;> rfl, by decide⟩
  have hlistener : ((clusterSystem Bool).run {} atTheSameTime).Runs 1 ("nova", "notifications") ["b"] := rfl
  have ha := (hmatches.events _ _ _ hlistener "a").mpr ⟨novaTrigger "a", List.mem_cons_self, rfl, rfl⟩
  revert ha
  decide

end EventEngine
end Mistral
