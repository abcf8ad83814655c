import Mistral.Engine.HandlerEffects

/-! When a task completes, its next commands are dispatched in the same transaction, unless the workflow is
    paused; and resuming the workflow catches up on the rest. So while the workflow is `RUNNING`, every
    completed task is processed between transactions. -/

namespace Mistral

variable {spec : WorkflowSpec} {ls : ListSort} {o : Oracle} {t : TaskId} {α β : Type} {P Q R : Engine → Prop}

/-! ### What holds at every point, and between transactions -/

/-- A join is retried, and `complete` goes on with it: it selects nothing and sets the flag `processed`. Or a
    command to run a join takes a completed execution of it back. -/
def Event.Stray : Event → Prop
  | .retried _ st wf => st = .waiting ∧ wf ≠ .paused
  | .deferred _ st => st.isCompleted
  | _ => False

def Engine.Clean (s : Engine) : Prop := ∀ ev ∈ s.trace, ¬ev.Stray

/-- The states that a delayed completion asks for. -/
def LateState (st : State) : Prop := st.isCompleted ∧ st ≠ .skipped ∨ st = .runningDelayed

theorem lateState_success : LateState .success := .inl ⟨rfl, nofun⟩

theorem lateState_error : LateState .error := .inl ⟨rfl, nofun⟩

/-- Only completed tasks are processed, and each completion was continued when it was not processed yet. -/
structure Engine.Sound (s : Engine) : Prop where
  processed : ∀ t v, s.view t = some v → v.processed → v.state.isCompleted
  continued : ∀ t st p wf, .continued t st p wf ∈ s.trace → st.isCompleted ∧ p = false
  late : ∀ t st info, .completeTask t st info ∈ s.jobs → LateState st

/-- What holds between transactions. -/
structure Engine.Steady (s : Engine) : Prop extends s.Sound where
  settled : s.wf.state = .running → s.Settled

/-- Every completed task is processed, whatever the state of the workflow. -/
structure Engine.Calm (s : Engine) : Prop extends s.Sound where
  settled : s.Settled

/-- The task execution `t` is not processed. -/
structure Engine.Fresh (t : TaskId) (s : Engine) : Prop extends s.Steady where
  fresh : ∀ v, s.view t = some v → v.processed = false

/-- The task execution `t` is on its way to be continued: unless the workflow is paused, its state is `ok`. -/
structure Engine.Entered (t : TaskId) (ok : State → Prop) (s : Engine) : Prop extends s.Sound where
  fresh : ∀ v, s.view t = some v → v.processed = false
  others : s.wf.state = .running → ∀ u v, u ≠ t → s.view u = some v → v.state.isCompleted → v.processed
  state : ∀ v, s.view t = some v → s.wf.state = .paused ∨ ok v.state

/-- From a state with `P`, `m` leads to one with `Q`, or raises in a sound one, as long as the trace is clean. -/
def Leads (P Q : Engine → Prop) (m : M α) : Prop :=
  ∀ s, (s.Clean → P s) → Ends m s (fun _ s' => s'.Clean → Q s') fun _ s' => s'.Clean → s'.Sound

namespace Leads

protected theorem pure (h : ∀ s, P s → Q s) (a : α) : Leads P Q (pure a) := fun s hs hc => h s (hs hc)

protected theorem throw (h : ∀ s, P s → s.Sound) (e : Exc) : Leads P Q (throw e : M α) := fun s hs hc => h s (hs hc)

protected theorem bind {m : M α} {f : α → M β} (hm : Leads P Q m) (hf : ∀ a, Leads Q R (f a)) : Leads P R (m >>= f) :=
  fun s hs => Ends.bind (hm s hs) (fun a s' h => hf a s' h) fun _ _ h => h

end Leads

/-! ### Computations that are about no task of their own -/

/-- What a path does that is about no task of its own: it may create the task, or put one that is not
    completed into `WAITING`. -/
def Untouched (v v' : Option View) : Prop :=
  v' = v ∨ (∀ x, v = some x → ¬x.state.isCompleted) ∧
    ∀ x', v' = some x' → ¬x'.state.isCompleted ∧ (x'.processed → ∃ x, v = some x ∧ x.processed)

theorem Untouched.trans {v v' v'' : Option View} (h : Untouched v v') (h' : Untouched v' v'') : Untouched v v'' := by
  rcases h with rfl | ⟨hopen, hmid⟩
  · exact h'
  rcases h' with rfl | ⟨-, hend⟩
  · exact .inr ⟨hopen, hmid⟩
  refine .inr ⟨hopen, fun x'' hx'' => ⟨(hend x'' hx'').1, fun hp => ?_⟩⟩
  obtain ⟨x', hx', hp'⟩ := (hend x'' hx'').2 hp
  exact (hmid x' hx').2 hp'

theorem Path.untouched {r : Option TaskId} {v v' : Option View} {w : List Event} (h : Path { reruns := r } t v w v') (hw : ∀ ev ∈ w, ¬ev.Stray) :
    Untouched v v' ∧ ∀ st p wf, .continued t st p wf ∉ w := by
  induction h with
  | nil v => exact ⟨.inl rfl, by simp⟩
  | @cons v v' v'' w w' head _ ih =>
    obtain ⟨htail, hnone⟩ := ih fun ev hev => hw ev (List.mem_append_right _ hev)
    have hhead : Untouched v v' ∧ ∀ st p wf, .continued t st p wf ∉ w := by
      cases head with
      | @create x hstate hp =>
        refine ⟨.inr ⟨nofun, fun x' hx' => ?_⟩, by simp⟩
        cases hx'
        refine ⟨?_, by simp [hp]⟩
        rcases hstate with ⟨h, -⟩ | h <;> simp [h]
      | @defer x hstate hkey =>
        have hopen : ¬x.state.isCompleted := hw _ (List.mem_append_left _ List.mem_cons_self)
        refine ⟨.inr ⟨fun y hy => by cases hy; exact hopen, fun x' hx' => ?_⟩, by simp⟩
        cases hx'
        exact ⟨by simp, fun hp => ⟨x, rfl, hp⟩⟩
      | rewait => exact ⟨.inl rfl, by simp⟩
      | continued h => rcases h with h | ⟨h, -⟩ <;> cases h
      | marked h => cases h
      | change h | attempt h | reopen h | revive h | scheduled h | requested h => cases h
    exact ⟨hhead.1.trans htail, fun st p wf h => (List.mem_append.mp h).elim (hhead.2 st p wf) (hnone st p wf)⟩

/-- What such a computation does to the whole state. -/
theorem Evolves.untouched {r : Option TaskId} {s s' : Engine} (h : Evolves { reruns := r } s s') (hc : s'.Clean) :
    s.Clean ∧ (∀ t, Untouched (s.view t) (s'.view t)) ∧
      ∀ t st p wf, .continued t st p wf ∈ s'.trace → .continued t st p wf ∈ s.trace := by
  obtain ⟨es, hes, hpath⟩ := h.events
  have hnew : ∀ ev ∈ es, ¬ev.Stray := fun ev hev => hc ev (hes ▸ List.mem_append_right _ hev)
  have hall := fun t => (hpath t).untouched fun ev hev => hnew ev (List.mem_filter.mp hev).1
  refine ⟨fun ev hev => hc ev (hes ▸ List.mem_append_left _ hev), fun t => (hall t).1, fun t st p wf hev => ?_⟩
  rw [hes] at hev
  refine (List.mem_append.mp hev).resolve_right fun hev => (hall t).2 st p wf ?_
  exact List.mem_filter.mpr ⟨hev, by simp [Event.about, Event.task]⟩

theorem Evolves.sound {r : Option TaskId} {s s' : Engine} (h : Evolves { reruns := r } s s') (hc : s'.Clean) (hs : s.Sound) : s'.Sound where
  processed t v hv hp := by
    rcases (h.untouched hc).2.1 t with heq | ⟨hopen, hend⟩
    · exact hs.processed t v (heq ▸ hv) hp
    · obtain ⟨x, hx, hxp⟩ := (hend v hv).2 hp
      exact absurd (hs.processed t x hx hxp) (hopen x hx)
  continued t st p wf hev := hs.continued t st p wf ((h.untouched hc).2.2 t st p wf hev)
  late t st info hj := by
    obtain ⟨js, hjs, hok⟩ := h.jobs
    rw [hjs] at hj
    rcases List.mem_append.mp hj with hj | hj
    · exact hs.late t st info hj
    · exact nomatch (hok _ hj).1

theorem Evolves.settled {r : Option TaskId} {s s' : Engine} (h : Evolves { reruns := r } s s') (hc : s'.Clean) (hs : s.Settled) : s'.Settled := by
  intro t v hv hdone
  rcases (h.untouched hc).2.1 t with heq | ⟨_, hend⟩
  · exact hs t v (heq ▸ hv) hdone
  · exact absurd hdone (hend v hv).1

theorem Evolves.steady {r : Option TaskId} {s s' : Engine} (h : Evolves { reruns := r } s s') (hc : s'.Clean) (hs : s.Steady) : s'.Steady where
  toSound := h.sound hc hs.toSound
  settled hr := h.settled hc (hs.settled ((h.wf hr).resolve_right id))

theorem Evolves.fresh {r : Option TaskId} {s s' : Engine} (h : Evolves { reruns := r } s s') (hc : s'.Clean) (hs : s.Fresh t) : s'.Fresh t where
  toSteady := h.steady hc hs.toSteady
  fresh v hv := by
    rcases (h.untouched hc).2.1 t with heq | ⟨_, hend⟩
    · exact hs.fresh v (heq ▸ hv)
    · refine Bool.eq_false_iff.mpr fun hp => ?_
      obtain ⟨x, hx, hxp⟩ := (hend v hv).2 hp
      exact absurd hxp (by simp [hs.fresh x hx])

theorem leads_of_evolves {r : Option TaskId} {m : M α} (hP : ∀ s, P s → s.Sound)
    (hkeep : ∀ s s', Evolves { reruns := r } s s' → s'.Clean → P s → P s') (hm : Kept { reruns := r } m) : Leads P P m := fun s hs =>
  (hm s).mono (fun _ s' h hc => hkeep s s' h hc (hs (h.untouched hc).1))
    fun _ _ h hc => h.sound hc (hP s (hs (h.untouched hc).1))

theorem leads_of_kept {m : M α} (hm : Kept {} m) : Leads Engine.Steady Engine.Steady m :=
  leads_of_evolves (fun _ h => h.toSound) (fun _ _ h hc hs => h.steady hc hs) hm

theorem leads_of_kept_fresh {m : M α} (hm : Kept {} m) : Leads (Engine.Fresh t) (Engine.Fresh t) m :=
  leads_of_evolves (fun _ h => h.toSound) (fun _ _ h hc hs => h.fresh hc hs) hm

theorem leads_of_kept_calm {m : M α} (hm : Kept {} m) : Leads Engine.Calm Engine.Calm m :=
  leads_of_evolves (fun _ h => h.toSound) (fun _ _ h hc hs => ⟨h.sound hc hs.toSound, h.settled hc hs.settled⟩) hm

/-! ### Changes of one task execution -/

section
variable {s s' : Engine} {w : List Event}

theorem Engine.Clean.of_append (hc : s'.Clean) (htrace : s'.trace = s.trace ++ w) : s.Clean := fun ev hev =>
  hc ev (htrace ▸ List.mem_append_left _ hev)

/-- The row of `t` changes, and the events `w` do not say that a task is continued. -/
theorem Engine.Sound.update (hs : s.Sound) (hothers : ∀ u ≠ t, s'.view u = s.view u)
    (ht : ∀ v, s'.view t = some v → v.processed → v.state.isCompleted) (htrace : s'.trace = s.trace ++ w)
    (hw : ∀ u st p wf, .continued u st p wf ∈ w → st.isCompleted ∧ p = false)
    (hjobs : ∀ t st info, .completeTask t st info ∈ s'.jobs → LateState st) : s'.Sound where
  processed u v hv := by
    rcases eq_or_ne u t with rfl | hu
    · exact ht v hv
    · exact hs.processed u v (hothers u hu ▸ hv)
  continued u st p wf hev := by
    rw [htrace] at hev
    exact (List.mem_append.mp hev).elim (hs.continued u st p wf) (hw u st p wf)
  late := hjobs

theorem Engine.Sound.emit {ev : Event} (hs : s.Sound) (hev : ∀ u st p wf, ev ≠ .continued u st p wf) :
    (s.emit ev).Sound where
  processed := hs.processed
  continued u st p wf h :=
    hs.continued u st p wf ((List.mem_append.mp h).resolve_right fun h => hev u st p wf (List.mem_singleton.mp h).symm)
  late := hs.late

theorem Engine.Sound.addJob {j : Job} (hs : s.Sound) (hj : ∀ u st info, j ≠ .completeTask u st info) :
    (s.addJob j).Sound where
  processed := hs.processed
  continued := hs.continued
  late u st info h :=
    hs.late u st info ((List.mem_append.mp h).resolve_right fun h => hj u st info (List.mem_singleton.mp h).symm)

/-- The task execution `t` changes its state, and is neither completed nor processed afterwards. -/
theorem Engine.Steady.reopen {e : TaskEx} {b : State} {info : Option String} {p : Option Bool} (hs : s.Steady)
    (he : s.tasks[t]? = some e) (hb : ¬b.isCompleted) (hp : p.getD e.processed = false) :
    ((s.setRow t (·.withState b info p)).emit (.taskState t e.state b)).Fresh t := by
  have hview : ∀ u ≠ t, ((s.setRow t (·.withState b info p)).emit (.taskState t e.state b)).view u = s.view u :=
    fun u hu => by rw [Engine.view_emit, Engine.view_setRow_ne hu]
  have ht : ∀ v, ((s.setRow t (·.withState b info p)).emit (.taskState t e.state b)).view t = some v →
      v.state = b ∧ v.processed = false := by
    intro v hv
    rw [Engine.view_emit, Engine.view_setRow_self he] at hv
    cases hv
    exact ⟨rfl, hp⟩
  refine ⟨⟨hs.toSound.update hview (fun v hv => by simp [ht v hv]) rfl (by simp) hs.late, fun hr u v hv hdone => ?_⟩,
    fun v hv => (ht v hv).2⟩
  rcases eq_or_ne u t with rfl | hu
  · exact absurd ((ht v hv).1 ▸ hdone) hb
  · exact hs.settled hr u v (hview u hu ▸ hv) hdone

end

/-- `set_state` of a task that is not processed, to a state that is not completed. -/
theorem leads_setState {b : State} {info : Option String} (hb : ¬b.isCompleted) :
    Leads (Engine.Fresh t) (Engine.Fresh t) (setState t b info) := by
  intro s hs
  refine setState_iff.mpr ⟨fun e he _ hc => ?_, fun _ _ _ => hs, fun _ hc => (hs hc).toSound⟩
  have hs := hs (hc.of_append (w := [.taskState t e.state b]) rfl)
  exact hs.toSteady.reopen he hb (hs.fresh _ (Engine.view_of_row he))

/-- A task that is restarted is not processed any more. Where `set_state` has nothing to do, it is `RUNNING`
    already. -/
theorem leads_setState_reopens :
    Leads Engine.Steady (Engine.Fresh t) (setState t .running none (some false)) := by
  intro s hs
  refine setState_iff.mpr ⟨fun e he _ hc => ?_, fun e he hd hc => ⟨hs hc, fun v hv => ?_⟩, fun _ hc => (hs hc).toSound⟩
  · exact (hs (hc.of_append (w := [.taskState t e.state .running]) rfl)).reopen he (by simp) rfl
  · obtain rfl := Option.some.inj ((Engine.view_of_row he).symm.trans hv)
    simp only [TaskEx.differs, Bool.or_eq_true, bne_iff_ne, ne_eq, not_or, not_not] at hd
    refine Bool.eq_false_iff.mpr fun hp => ?_
    have hdone := (hs hc).processed t _ hv hp
    simp [TaskEx.view, hd.1] at hdone

/-! ### Completing a task -/

section
variable {task : Task}

theorem Chain.retried_of_waiting {a b : State} {w : List Event} (h : Chain t a w b) (hb : b = .waiting) :
    a = .waiting ∨ ∃ wf, .retried t .waiting wf ∈ w := by
  induction h with
  | nil => exact .inl hb
  | change _ hwait _ ih =>
    rcases ih hb with h | ⟨wf, h⟩
    · exact .inl (hwait h)
    · exact .inr ⟨wf, List.mem_cons_of_mem _ h⟩
  | delay _ ih =>
    obtain ⟨wf, h⟩ := (ih hb).resolve_left nofun
    exact .inr ⟨wf, List.mem_cons_of_mem _ h⟩
  | @retry a b c wf w _ _ _ ih =>
    rcases ih hb with rfl | ⟨wf', h⟩
    · exact .inr ⟨wf, List.mem_cons_self⟩
    · exact .inr ⟨wf', List.mem_cons_of_mem _ (List.mem_cons_of_mem _ h)⟩

/-- The policies let the task go on in a completed state, delay it or retry it. A retry of a join in a workflow
    that is not paused is a stray event. -/
theorem Engine.Entered.chained {s s' : Engine} (h : ChainsTo { own := some t } LateState LateState
    (fun a => LateState a ∨ a = .waiting) t s s') (hs : s.Clean → s.Entered t LateState) (hc : s'.Clean)
    {v : View} (hv : s.view t = some v) (hlate : LateState v.state) : s'.Entered t LateState := by
  obtain ⟨b, w, hb, c⟩ := h v hv hlate
  have hs := hs (hc.of_append c.trace)
  refine ⟨hs.toSound.update c.others (fun v' hv' => ?_) c.trace (fun u st p wf hev => ?_) ?_, fun v' hv' => ?_,
    fun hr u v' hu hv' => ?_, fun v' hv' => ?_⟩
  · obtain rfl := Option.some.inj (c.view.symm.trans hv')
    simp [hs.fresh v hv]
  · rcases c.chain.mem _ hev with ⟨_, _, h⟩ | ⟨_, _, h⟩ <;> cases h
  · obtain ⟨js, hjs, hok⟩ := c.jobs
    intro u st info hj
    rw [hjs] at hj
    exact (List.mem_append.mp hj).elim (hs.late u st info) fun hj => (hok _ hj).2
  · obtain rfl := Option.some.inj (c.view.symm.trans hv')
    exact hs.fresh v hv
  · rw [c.others u hu] at hv'
    exact hs.others (c.wf ▸ hr) u v' hu hv'
  · obtain rfl := Option.some.inj (c.view.symm.trans hv')
    refine hb.elim .inr fun hb => .inl ?_
    have hne : v.state ≠ .waiting := by
      intro hw
      rw [hw] at hlate
      simp [LateState] at hlate
    obtain ⟨wf, hret⟩ := (c.chain.retried_of_waiting hb).resolve_left hne
    have hwf := c.retried _ _ _ hret
    have hclean := hc _ (c.trace ▸ List.mem_append_right _ hret)
    rw [c.wf]
    simpa [Event.Stray, hwf] using hclean

/-- The task is not completed, and enters the state that it completes with. -/
theorem entered_setState {s : Engine} {e : TaskEx} {state : State} {info : Option String}
    (hs : s.Clean → s.Steady) (he : s.tasks[t]? = some e) (hopen : ¬e.state.isCompleted) (hlate : LateState state) :
    Ends (setState t state info) s
      (fun _ s' => (s'.Clean → s'.Entered t LateState) ∧ ∃ v, s'.view t = some v ∧ LateState v.state)
      fun _ s' => s'.Clean → s'.Sound := by
  have hfresh : s.Clean → ∀ v, s.view t = some v → v.processed = false := by
    intro hc v hv
    obtain rfl := Option.some.inj ((Engine.view_of_row he).symm.trans hv)
    exact Bool.eq_false_iff.mpr fun hp => hopen ((hs hc).processed t _ hv hp)
  refine setState_iff.mpr ⟨fun e' he' _ => ?_, fun e' he' hd => ?_, fun _ hc => (hs hc).toSound⟩
  all_goals obtain rfl : e = e' := Option.some.inj (he.symm.trans he')
  · have hview : ((s.setRow t (·.withState state info none)).emit (.taskState t e.state state)).view t =
        some { e.view with state } := by
      rw [Engine.view_emit, Engine.view_setRow_self he]
      rfl
    have hother : ∀ u ≠ t, ((s.setRow t (·.withState state info none)).emit (.taskState t e.state state)).view u =
        s.view u := fun u hu => by rw [Engine.view_emit, Engine.view_setRow_ne hu]
    refine ⟨fun hc => ?_, _, hview, hlate⟩
    have hc := hc.of_append (w := [.taskState t e.state state]) rfl
    have hp := hfresh hc _ (Engine.view_of_row he)
    refine ⟨(hs hc).toSound.update hother (fun v hv => ?_) rfl (by simp) (hs hc).late, fun v hv => ?_,
      fun hr u v hu hv hdone => (hs hc).settled hr u v (hother u hu ▸ hv) hdone, fun v hv => ?_⟩ <;>
      obtain rfl := Option.some.inj (hview.symm.trans hv)
    · simp [hp]
    · exact hp
    · exact .inr hlate
  · simp only [TaskEx.differs, Bool.or_eq_true, bne_iff_ne, ne_eq, not_or, not_not] at hd
    have hv := Engine.view_of_row he
    have hst : LateState e.view.state := by simpa [TaskEx.view, hd.1] using hlate
    refine ⟨fun hc => ⟨(hs hc).toSound, hfresh hc, fun hr u v _ hv hdone => (hs hc).settled hr u v hv hdone,
      fun v hv' => ?_⟩, _, hv, hst⟩
    obtain rfl := Option.some.inj (hv.symm.trans hv')
    exact .inr hst

theorem settles_enterState {s : Engine} {e : TaskEx} {state : State} {info : Option String} (hs : s.Clean → s.Steady)
    (he : s.tasks[task.id]? = some e) (hopen : ¬e.state.isCompleted) (hlate : LateState state) :
    Ends (enterState spec o task state info) s (fun _ s' => s'.Clean → s'.Entered task.id LateState)
      fun _ s' => s'.Clean → s'.Sound := by
  have hok : ∀ a, LateState a → LateState a ∧ a ≠ .skipped ∧ a ≠ .waiting := by
    rintro a (⟨hdone, hns⟩ | rfl)
    · refine ⟨.inl ⟨hdone, hns⟩, hns, ?_⟩
      rintro rfl
      simp at hdone
    · exact ⟨.inr rfl, nofun, nofun⟩
  unfold enterState
  refine Ends.bind (entered_setState hs he hopen hlate) (fun _ s₁ ⟨h, v, hv, hv'⟩ => ?_) fun _ _ h => h
  have hown : ({ own := some task.id } : Scope).own = some task.id := rfl
  refine (chain_afterSetState hown hok (.inr rfl) (.inl ⟨rfl, nofun⟩)
    (hok _ hlate).2.1 s₁).mono (fun _ _ hch hc => ?_) fun _ _ hch hc => ?_
  · exact .chained hch h hc hv hv'
  · exact (Engine.Entered.chained hch h hc hv hv').toSound

/-- A completed task is marked when its commands are dispatched. -/
theorem leads_setProcessed {s : Engine} {e : TaskEx} (hs : s.Clean → s.Entered t (·.isCompleted)) (he : s.tasks[t]? = some e)
    (hwf : s.wf.state ≠ .paused) : Ends (setProcessed true t e) s (fun _ s' => s'.Clean → s'.Steady)
      fun _ s' => s'.Clean → s'.Sound := by
  simp only [setProcessed, emit, setRow, Ends.bind_iff, Ends.get_iff, Ends.modify_iff, if_true]
  intro hc
  have hv := Engine.view_of_row he
  have hs := hs (hc.of_append (w := [.continued t e.state e.processed s.wf.state]) rfl)
  have hdone : e.state.isCompleted := (hs.state _ hv).resolve_left hwf
  have hview : ((s.emit (.continued t e.state e.processed s.wf.state)).setRow t fun e => { e with processed := true }).view t =
      some { e.view with processed := true } := by
    rw [Engine.view_setRow_self (by exact he)]
    rfl
  have hother : ∀ u ≠ t, ((s.emit (.continued t e.state e.processed s.wf.state)).setRow t
      fun e => { e with processed := true }).view u = s.view u :=
    fun u hu => by rw [Engine.view_setRow_ne hu, Engine.view_emit]
  refine ⟨hs.toSound.update hother (fun v hv' _ => ?_) rfl ?_ hs.late, fun hr u v hv' hdone' => ?_⟩
  · obtain rfl := Option.some.inj (hview.symm.trans hv')
    exact hdone
  · intro u st p wf hev
    obtain ⟨rfl, rfl, rfl, rfl⟩ : u = t ∧ st = e.state ∧ p = e.processed ∧ wf = s.wf.state := by simpa using hev
    exact ⟨hdone, hs.fresh _ hv⟩
  · rcases eq_or_ne u t with rfl | hu
    · obtain rfl := Option.some.inj (hview.symm.trans hv')
      rfl
    · exact hs.others hr u v hu (hother u hu ▸ hv') hdone'

theorem leads_dispatchNext {s : Engine} {cmds : List Cmd} (hs : s.Clean → s.Entered t (·.isCompleted))
    (hwf : s.wf.state ≠ .paused) (hcmds : ∀ cmd ∈ cmds, Scope.CmdOk {} cmd) :
    Ends (dispatchNext spec ls o t cmds) s (fun _ s' => s'.Clean → s'.Steady) fun _ s' => s'.Clean → s'.Sound := by
  unfold dispatchNext
  rw [Ends.bind_iff, taskEx_iff]
  refine ⟨fun e he => Ends.bind (leads_setProcessed hs he hwf) (fun _ s' h => ?_) fun _ _ h => h,
    fun _ hc => (hs hc).toSound⟩
  exact Leads.bind (leads_of_kept (kept_registerWorkflowCompletionCheck t))
    (fun _ => leads_of_kept (kept_dispatchWorkflowCommands spec o ls (by nofun) hcmds)) s' h

theorem leads_continueAfterCompletion :
    Leads (Engine.Entered t LateState) Engine.Steady (continueAfterCompletion spec ls o t) := by
  intro s hs
  unfold continueAfterCompletion
  rw [Ends.bind_iff, taskEx_iff]
  refine ⟨fun e he => ?_, fun _ hc => (hs hc).toSound⟩
  have hv := Engine.view_of_row he
  split
  next hdelayed =>
    refine fun hc => ⟨(hs hc).toSound, fun hr u v hu hdone => ?_⟩
    rcases eq_or_ne u t with rfl | hne
    · obtain rfl := Option.some.inj (hv.symm.trans hu)
      simp [TaskEx.view, hdelayed] at hdone
    · exact (hs hc).others hr u v hne hu hdone
  next hdelayed =>
  simp only [Ends.bind_iff, Ends.get_iff, ofExcept_iff, emit, setRow, Ends.modify_iff]
  refine ⟨fun cmds hcmds => ?_, fun _ _ hc => (hs hc).toSound⟩
  have hview : ∀ u, ((s.emit (.selected t cmds)).setRow t (·.withNextTasks cmds)).view u = s.view u := fun u =>
    Engine.view_setRow_quiet fun _ => rfl
  have hs' : ((s.emit (.selected t cmds)).setRow t (·.withNextTasks cmds)).Clean →
      ((s.emit (.selected t cmds)).setRow t (·.withNextTasks cmds)).Entered t (·.isCompleted) := by
    intro hc
    have hbefore := hs (hc.of_append (w := [.selected t cmds]) rfl)
    have hselected : (s.emit (.selected t cmds)).Sound := hbefore.toSound.emit (by rintro u st p wf ⟨⟩)
    obtain ⟨-, h₂, -⟩ := hselected
    obtain ⟨⟨h₁, -, h₃⟩, h₄, h₅, h₆⟩ := hbefore
    refine ⟨⟨fun u v hu => h₁ u v (hview u ▸ hu), h₂, h₃⟩, fun v hu => h₄ v (hview t ▸ hu),
      fun hr u v hne hu => h₅ hr u v hne (hview u ▸ hu), fun v hu => (h₆ v (hview t ▸ hu)).imp_right ?_⟩
    obtain rfl := Option.some.inj (hv.symm.trans (hview t ▸ hu))
    exact fun h => (h.resolve_right hdelayed).1
  split
  next hpaused =>
    have hpaused : s.wf.state = .paused := by simpa [State.isPaused, Engine.setRow, Engine.emit] using hpaused
    exact fun hc => ⟨(hs' hc).toSound, fun hr => by cases hpaused.symm.trans hr⟩
  next hpaused =>
    exact leads_dispatchNext hs' (by simpa [State.isPaused] using hpaused) (cmdOk_continueWorkflow hcmds)

/-- `complete` leaves no completed task behind in a running workflow. -/
theorem leads_complete {state : State} {info : Option String} (hlate : LateState state) :
    Leads Engine.Steady Engine.Steady (complete spec ls o task state info) := by
  intro s hs
  unfold complete
  rw [Ends.bind_iff, taskEx_iff]
  refine ⟨fun e he => ?_, fun _ hc => (hs hc).toSound⟩
  split
  · exact hs
  next hopen =>
  have hns : state.isSkipped = false := by
    rcases hlate with ⟨_, h⟩ | rfl
    · simpa [State.isSkipped] using h
    · rfl
  have hopen : ¬e.state.isCompleted := by simpa [hns] using hopen
  exact Ends.bind (settles_enterState hs he hopen hlate) (fun _ s' h => leads_continueAfterCompletion s' h) fun _ _ h => h

/-! ### Starting and running a task -/

theorem leads_scheduleAction (i : Nat) : Leads Engine.Steady Engine.Steady (scheduleAction o task i) := by
  refine Leads.bind (Q := Engine.Steady) (fun s hs hc => ?_) fun _ => ?_
  · have hs := hs (hc.of_append (w := [.actionScheduled task.id i]) rfl)
    exact ⟨hs.toSound.emit nofun, hs.settled⟩
  · split
    · exact leads_of_kept (.modify fun _ => .of_eq rfl (fun _ => rfl) rfl rfl rfl)
    · exact leads_of_kept (kept_setRow fun _ => by rfl)

theorem leads_scheduleFailed (i : Nat) : Leads Engine.Steady Engine.Steady (scheduleFailed spec ls o task i) := by
  unfold scheduleFailed
  split
  · exact fun _ hs hc => (hs hc).toSound
  · exact leads_complete lateState_error

theorem leads_scheduleItems (is : List Nat) : Leads Engine.Steady Engine.Steady (scheduleItems spec ls o task is) := by
  induction is with
  | nil => exact .pure (fun _ => id) _
  | cons i is ih =>
    unfold scheduleItems
    split
    · exact leads_scheduleFailed i
    refine .bind (leads_scheduleAction i) fun _ s hs => ?_
    rw [Ends.bind_iff, taskEx_iff]
    refine ⟨fun e he => ?_, fun _ hc => (hs hc).toSound⟩
    split
    · exact fun hc => (hs hc).toSound
    next e' hdec =>
    have hset : Evolves {} s (s.setRow task.id fun _ => e') := evolves_decreaseCapacity he hdec
    rw [setRow, Ends.bind_iff, Ends.modify_iff]
    exact ih _ fun hc => hset.steady hc (hs (hset.untouched hc).1)

theorem leads_scheduleWithItems : Leads Engine.Steady Engine.Steady (scheduleWithItems spec ls o task) := by
  have hprep : ∀ e : TaskEx, (e.prepareRuntimeContext (o.items task.id)).view = e.view := fun e => by
    unfold TaskEx.prepareRuntimeContext
    split <;> rfl
  refine .bind (leads_of_kept (kept_evaluateAt o _)) fun _ => .bind (leads_of_kept (kept_setRow hprep)) fun _ =>
    .bind (leads_of_kept (kept_taskEx _)) fun e => ?_
  split
  · exact leads_complete lateState_success
  · exact leads_scheduleItems _

theorem leads_scheduleActions : Leads Engine.Steady Engine.Steady (scheduleActions spec ls o task) := by
  unfold scheduleActions
  split
  · exact leads_scheduleWithItems
  refine .bind (leads_of_kept (kept_evaluateAt o _)) fun _ => ?_
  split
  · exact leads_scheduleFailed 0
  · exact leads_scheduleAction 0

theorem leads_schedule {j : Job} (hj : ∀ u st info, j ≠ .completeTask u st info) :
    Leads Engine.Steady Engine.Steady (schedule j) := fun _ hs hc =>
  ⟨(hs hc).toSound.addJob hj, (hs hc).settled⟩

theorem leads_schedule_fresh {j : Job} (hj : ∀ u st info, j ≠ .completeTask u st info) :
    Leads (Engine.Fresh t) (Engine.Fresh t) (schedule j) := fun _ hs hc =>
  ⟨⟨(hs hc).toSound.addJob hj, (hs hc).settled⟩, (hs hc).fresh⟩

theorem leads_beforeTaskStart :
    Leads (Engine.Fresh task.id) (Engine.Fresh task.id) (beforeTaskStart spec o task) := by
  have hall : ∀ ps : List Policy,
      Leads (Engine.Fresh task.id) (Engine.Fresh task.id) (ps.forM (·.beforeTaskStart o task)) := by
    intro ps
    induction ps with
    | nil => exact .pure (fun _ => id) _
    | cons p ps ih =>
      refine .bind ?_ fun _ => ih
      have heval : Leads (Engine.Fresh task.id) (Engine.Fresh task.id) (evaluateAt o (.policy task.id p.kind)) :=
        leads_of_kept_fresh (kept_evaluateAt o _)
      have hpure : Leads (Engine.Fresh task.id) (Engine.Fresh task.id) (pure ()) := .pure (fun _ => id) _
      cases p with
      | failOn expr => exact hpure
      | pauseBefore expr =>
        refine .bind heval fun _ => ?_
        simp only [pauseBeforeTaskStart]
        split
        · exact .bind (leads_setState (by simp)) fun _ => leads_of_kept_fresh (kept_pauseWorkflow none)
        · exact hpure
      | waitBefore delay =>
        refine .bind heval fun _ => ?_
        simp only [waitBeforeTaskStart]
        split
        · exact hpure
        refine .bind (leads_of_kept_fresh (kept_taskEx _)) fun e => ?_
        split
        · exact leads_setState (by simp)
        split
        · exact .bind (leads_of_kept_fresh (kept_setRow fun _ => by rfl)) fun _ => .bind (leads_setState (by simp))
            fun _ => leads_schedule_fresh (by simp)
        · exact hpure
      | timeout delay =>
        refine .bind heval fun _ => ?_
        simp only [timeoutBeforeTaskStart]
        split
        · exact leads_schedule_fresh (by simp)
        · exact hpure
      | concurrency n =>
        refine .bind heval fun _ => ?_
        simp only [concurrencyBeforeTaskStart]
        split
        · exact leads_of_kept_fresh (kept_setRow fun _ => by rfl)
        · exact hpure
      | waitAfter | retry => exact .bind heval fun _ => hpure
  exact hall _

/-- Once the policies let the task start, its actions are scheduled. -/
theorem leads_start {rest : M Unit} (hrest : Leads Engine.Steady Engine.Steady rest) :
    Leads (Engine.Fresh task.id) Engine.Steady (do
      beforeTaskStart spec o task
      if (← taskEx task.id).state ≠ .running then return
      rest) := by
  refine .bind leads_beforeTaskStart fun _ => .bind (leads_of_kept_fresh (kept_taskEx _)) fun e => ?_
  split
  · exact .pure (fun _ h => h.toSteady) _
  · exact fun s hs => hrest s fun hc => (hs hc).toSteady

theorem leads_runNew : Leads Engine.Steady Engine.Steady (runNew spec ls o task) := by
  intro s hs
  unfold runNew
  split
  · exact hs
  rw [Ends.bind_iff, taskEx_iff]
  refine ⟨fun e he => ?_, fun _ hc => (hs hc).toSound⟩
  split
  case isFalse => exact hs
  next hidle =>
  have hidle : e.state = .idle := by simpa [State.isIdle] using hidle
  have hfresh : s.Clean → s.Fresh task.id := fun hc => ⟨hs hc, fun v hv => by
    obtain rfl := Option.some.inj ((Engine.view_of_row he).symm.trans hv)
    refine Bool.eq_false_iff.mpr fun hp => ?_
    have hdone := (hs hc).processed _ _ hv hp
    simp [TaskEx.view, hidle] at hdone⟩
  exact Leads.bind (leads_setState (by simp)) (fun _ => leads_start leads_scheduleActions) s hfresh

theorem leads_restartActions : Leads Engine.Steady Engine.Steady (restartActions spec ls o task) :=
  .bind (leads_of_kept (kept_updateInboundContext spec o task)) fun _ =>
    .bind (leads_of_kept (kept_updateTriggeredBy task)) fun _ =>
      .bind (leads_of_kept (kept_setRow fun _ => by rfl)) fun _ => leads_scheduleActions

theorem leads_runExisting : Leads Engine.Steady Engine.Steady (runExisting spec ls o task) := by
  unfold runExisting
  split
  · exact .pure (fun _ => id) _
  refine .bind (leads_of_kept (kept_taskEx _)) fun e => ?_
  split
  · exact .throw (fun _ h => h.toSound) _
  refine .bind leads_setState_reopens fun _ => ?_
  split
  · exact leads_start leads_restartActions
  · exact fun s hs => leads_restartActions s fun hc => (hs hc).toSteady

theorem leads_run {firstRun : Bool} : Leads Engine.Steady Engine.Steady (run spec ls o task firstRun) := by
  unfold run
  split
  · exact leads_runNew
  · exact leads_runExisting

/-- The state of the execution matters to a regular task only: a with-items task looks at all of them. -/
theorem leads_taskOnActionComplete {x : Execution} (hx : task.spec.withItems = false → x.state.isCompleted) :
    Leads Engine.Steady Engine.Steady (taskOnActionComplete spec ls o task x) := by
  have hfinal : ∀ e : TaskEx, LateState e.getFinalState := fun e => by
    unfold TaskEx.getFinalState
    split
    · exact .inl ⟨rfl, nofun⟩
    · split <;> exact .inl ⟨rfl, nofun⟩
  have hcap : ∀ e : TaskEx, e.increaseCapacity.view = e.view := fun e => by
    unfold TaskEx.increaseCapacity
    split
    · split <;> rfl
    · rfl
  unfold taskOnActionComplete
  split
  · refine .bind (leads_of_kept (kept_taskEx _)) fun e => ?_
    split
    · exact .pure (fun _ => id) _
    refine .bind (leads_of_kept (kept_setRow hcap)) fun _ => .bind (leads_of_kept (kept_taskEx _)) fun e => ?_
    split
    · exact leads_complete (hfinal e)
    split
    · exact leads_scheduleWithItems
    · exact .pure (fun _ => id) _
  next hreg => exact leads_complete (.inl ⟨hx (by simpa using hreg), x.notTask.2⟩)

end

/-! ### Handlers -/

section
variable {task : Task}

theorem wf_failWorkflow (msg : Option String) (s : Engine) :
    Ends (failWorkflow o msg) s (fun _ s' => s'.wf.state ≠ .running) fun _ _ => True := by
  unfold failWorkflow
  rw [Ends.bind_iff, Ends.get_iff]
  split
  next h =>
    refine fun hr => ?_
    rw [hr] at h
    cases h
  · simp only [setWfState, emit, Ends.bind_iff, Ends.get_iff, Ends.ite_iff, Ends.modify_iff, Ends.throw_iff,
      implies_true, and_true]
    refine fun _ => storeOutput_iff.mpr ?_
    split
    · trivial
    · exact ⟨fun _ => by rintro ⟨⟩, fun _ => by rintro ⟨⟩⟩

/-- A forced failure does not leave the workflow running. -/
theorem leads_forceFailTask (msg : String) : Leads Engine.Sound Engine.Steady (forceFailTask o t msg) := by
  intro s hs
  unfold forceFailTask
  rw [Ends.bind_iff]
  have hset : Ends (setState t .error (some msg)) s (fun _ s' => s'.Clean → s'.Sound) fun _ s' => s'.Clean → s'.Sound := by
    refine setState_iff.mpr ⟨fun e he _ hc => ?_, fun _ _ _ => hs, fun _ => hs⟩
    have hs := hs (hc.of_append (w := [.taskState t e.state .error]) rfl)
    refine hs.update (t := t) (fun u hu => by rw [Engine.view_emit, Engine.view_setRow_ne hu]) (fun v hv _ => ?_) rfl
      (by simp) hs.late
    rw [Engine.view_emit, Engine.view_setRow_self he] at hv
    cases hv
    rfl
  refine hset.mono (fun _ s' h => ?_) fun _ _ h => h
  have hstop : Kept {} (stopWorkflow o .error (some msg)) := kept_stopWorkflow o .error (some msg)
  have hkept := (hstop s').and (wf_failWorkflow (o := o) (some msg) s')
  exact hkept.mono (fun _ s'' h' hc => ⟨h'.1.sound hc (h (h'.1.untouched hc).1), fun hr => absurd hr h'.2⟩)
    fun _ s'' h' hc => h'.1.sound hc (h (h'.1.untouched hc).1)

theorem settles_handling {lib : Bool} {what : String} {body : M Unit} {s : Engine}
    (hbody : Ends body s (fun _ s' => s'.Clean → s'.Steady) fun _ s' => s'.Clean → s'.Sound) :
    Ends (handling spec o lib what task body) s (fun _ s' => s'.Clean → s'.Steady) fun _ s' => s'.Clean → s'.Sound := by
  unfold handling
  rw [Ends.bind_iff, Ends.tryCatch_iff]
  simp only [Ends.bind_iff, Ends.pure_iff, if_true]
  refine hbody.mono (fun _ s' h => leads_of_kept (kept_checkAffectedTasks task) s' h) fun e s' h => ?_
  split
  · simp only [Ends.bind_iff, Ends.pure_iff, Bool.false_eq_true, if_false]
    exact leads_forceFailTask _ s' h
  · exact h

theorem leads_handling {lib : Bool} {what : String} {body : M Unit} (hbody : Leads Engine.Steady Engine.Steady body) :
    Leads Engine.Steady Engine.Steady (handling spec o lib what task body) := fun s hs => settles_handling (hbody s hs)

theorem leads_buildTask {f : Task → M Unit} (h : ∀ task : Task, task.id = t → Leads Engine.Steady Engine.Steady (f task)) :
    Leads Engine.Steady Engine.Steady (buildTask spec t >>= f) := by
  unfold buildTask
  rw [bind_assoc]
  refine .bind (leads_of_kept (kept_taskSpecOf spec t)) fun ts => ?_
  rw [pure_bind]
  exact h _ rfl

theorem leads_runTask (m : StartTask) : Leads Engine.Steady Engine.Steady (runTask spec ls o m) := by
  refine .bind (leads_of_kept (kept_taskSpecOf spec m.taskEx)) fun ts => leads_handling ?_
  simp only [Bool.false_and, Bool.false_eq_true, if_false]
  exact leads_run

theorem leads_completeTask {state : State} {info : Option String} (hlate : LateState state) :
    Leads Engine.Steady Engine.Steady (completeTask spec ls o t state info) :=
  leads_buildTask fun _ _ => leads_handling (leads_complete hlate)

theorem leads_failTaskIfIncomplete (timeout : Nat) :
    Leads Engine.Steady Engine.Steady (failTaskIfIncomplete spec ls o t timeout) := by
  refine .bind (leads_of_kept (kept_taskEx t)) fun e => ?_
  split
  · exact leads_completeTask lateState_error
  · exact .pure (fun _ => id) _

/-- `continue_task` for a task that is not completed. -/
theorem settles_continueTask {s : Engine} (hs : s.Clean → s.Steady)
    (hopen : ∀ v, s.view t = some v → ¬v.state.isCompleted) :
    Ends (continueTask spec ls o t) s (fun _ s' => s'.Clean → s'.Steady) fun _ s' => s'.Clean → s'.Sound := by
  have hfresh : s.Clean → s.Fresh t := fun hc => ⟨hs hc, fun v hv =>
    Bool.eq_false_iff.mpr fun hp => hopen v hv ((hs hc).processed t v hv hp)⟩
  unfold continueTask buildTask taskSpecOf
  simp only [bind_assoc]
  rw [Ends.bind_iff, taskEx_iff]
  refine ⟨fun e he => ?_, fun _ hc => (hs hc).toSound⟩
  split
  · simp only [pure_bind]
    refine settles_handling (Leads.bind (leads_setState (by simp)) (fun _ s' h => ?_) s hfresh)
    exact leads_run s' fun hc => (h hc).toSteady
  · exact fun hc => (hs hc).toSound

theorem settles_onActionComplete {s : Engine} {i : Nat} (hs : s.Clean → s.Steady)
    (hx : ∀ e x ts, s.tasks[t]? = some e → e.executions[i]? = some x → spec.getTask e.name = some ts →
      ts.withItems = false → ¬e.state.isCompleted → x.state.isCompleted) :
    Ends (onActionComplete spec ls o t i) s (fun _ s' => s'.Clean → s'.Steady) fun _ s' => s'.Clean → s'.Sound := by
  unfold onActionComplete buildTask taskSpecOf
  simp only [bind_assoc]
  rw [Ends.bind_iff, taskEx_iff]
  refine ⟨fun e he => ?_, fun _ hc => (hs hc).toSound⟩
  split
  case h_2 => exact fun hc => (hs hc).toSound
  next ts hts =>
  simp only [pure_bind]
  rw [Ends.bind_iff, taskEx_iff]
  refine ⟨fun e' he' => ?_, fun _ hc => (hs hc).toSound⟩
  obtain rfl : e = e' := Option.some.inj (he.symm.trans he')
  split
  · exact hs
  next x hxe =>
  refine settles_handling ?_
  by_cases hdone : e.state.isCompleted ∧ ts.withItems = false
  · -- `complete` ignores the result.
    simp only [taskOnActionComplete, hdone.2, Bool.false_eq_true, if_false, regularOnActionComplete, complete,
      Ends.bind_iff, taskEx_iff]
    refine ⟨fun e' he' => ?_, fun _ hc => (hs hc).toSound⟩
    obtain rfl : e = e' := Option.some.inj (he.symm.trans he')
    have hns : x.state.isSkipped = false := by simpa [State.isSkipped] using x.notTask.2
    rw [if_pos (by simp [hdone.1, hns])]
    exact hs
  · refine leads_taskOnActionComplete (fun hreg => ?_) s hs
    exact hx e x ts he hxe hts hreg fun h => hdone ⟨h, hreg⟩

theorem settles_scheduleOnActionComplete {s : Engine} {i : Nat} (hs : s.Clean → s.Steady)
    (hx : ∀ e x ts, s.tasks[t]? = some e → e.executions[i]? = some x → spec.getTask e.name = some ts →
      ts.withItems = false → ¬e.state.isCompleted → x.state.isCompleted) :
    Ends (scheduleOnActionComplete spec ls o t i) s (fun _ s' => s'.Clean → s'.Steady)
      fun _ s' => s'.Clean → s'.Sound := by
  unfold scheduleOnActionComplete taskSpecOf
  rw [bind_assoc, Ends.bind_iff, taskEx_iff]
  refine ⟨fun e he => ?_, fun _ hc => (hs hc).toSound⟩
  split
  · rw [pure_bind]
    split
    · exact leads_schedule (by nofun) s hs
    · exact settles_onActionComplete hs hx
  · exact fun hc => (hs hc).toSound

theorem leads_refuseResult (i : Nat) : Leads Engine.Steady Engine.Steady (refuseResult o t i) := by
  intro s hs
  unfold refuseResult
  rw [Ends.bind_iff, taskEx_iff]
  refine ⟨fun e he => ?_, fun _ hc => (hs hc).toSound⟩
  split
  · simp only [setRow, Ends.bind_iff, Ends.modify_iff]
    exact leads_forceFailTask _ _ fun hc => (leads_of_kept (kept_setRow fun _ => by rfl) s hs hc).toSound
  · exact fun hc => (hs hc).toSound

/-- A result is stored before the task looks at it. -/
theorem leads_onActionResult (i : Nat) (result : ActionResult) :
    Leads Engine.Steady Engine.Steady (onActionResult spec ls o t i result) := by
  intro s hs
  unfold onActionResult
  split
  · exact leads_refuseResult i s hs
  unfold completeAction
  rw [bind_assoc, Ends.bind_iff, taskEx_iff]
  refine ⟨fun e he => ?_, fun _ hc => (hs hc).toSound⟩
  split
  · exact fun hc => (hs hc).toSound
  next x hx =>
  split
  · exact fun hc => (hs hc).toSound
  simp only [setRow, Ends.bind_iff, Ends.modify_iff]
  refine settles_scheduleOnActionComplete (leads_of_kept (kept_setRow fun _ => by rfl) s hs) fun e' x' ts he' hx' _ _ _ => ?_
  rw [getElem?_setRow he] at he'
  cases he'
  simp only [TaskEx.setExecution, List.getElem?_modify, hx] at hx'
  cases hx'
  simp only [if_true]
  cases result <;> rfl

theorem settles_applyLogicalState {s : Engine} (logical : LogicalState) (hs : s.Clean → s.Steady)
    (hopen : ∀ v, s.view t = some v → ¬v.state.isCompleted) :
    Ends (applyLogicalState spec ls o t logical) s (fun _ s' => s'.Clean → s'.Steady)
      fun _ s' => s'.Clean → s'.Sound := by
  simp only [applyLogicalState, setRow, Ends.bind_iff, Ends.modify_iff]
  have hview : ∀ u, (s.setRow t fun x =>
      x.mapContext fun c => { c with triggeredBy := some logical.triggeredBy }).view u = s.view u :=
    fun u => Engine.view_setRow_quiet fun _ => rfl
  have hs' := leads_of_kept (kept_setRow (t := t) (f := fun x =>
    x.mapContext fun c => { c with triggeredBy := some logical.triggeredBy }) fun _ => by rfl) s hs
  split
  · exact settles_continueTask hs' fun v hv => hopen v (hview t ▸ hv)
  · exact leads_completeTask lateState_error _ hs'
  · exact hs'
  · exact fun hc => (hs' hc).toSound

theorem leads_refreshTaskState : Leads Engine.Steady Engine.Steady (refreshTaskState spec ls o t) := by
  intro s hs
  unfold refreshTaskState
  rw [Ends.bind_iff, taskEx_iff]
  refine ⟨fun e he => ?_, fun _ hc => (hs hc).toSound⟩
  split
  · exact hs
  next hopen =>
  rw [Ends.bind_iff, Ends.get_iff]
  split
  · exact hs
  have hstate : ∀ v, s.view t = some v → ¬v.state.isCompleted := by
    intro v hv
    obtain rfl := Option.some.inj ((Engine.view_of_row he).symm.trans hv)
    simp only [Bool.or_eq_true, decide_eq_true_eq, not_or] at hopen
    exact hopen.1
  unfold taskSpecOf
  rw [bind_assoc, Ends.bind_iff, taskEx_iff]
  refine ⟨fun e' _ => ?_, fun _ hc => (hs hc).toSound⟩
  split
  · rw [pure_bind, Ends.bind_iff, ofExcept_iff]
    exact ⟨fun logical _ => settles_applyLogicalState logical hs hstate, fun _ _ hc => (hs hc).toSound⟩
  · exact fun hc => (hs hc).toSound

end

/-! ### The workflow as a whole -/

theorem leads_setWfState_calm (st : State) (info : Option String) :
    Leads Engine.Calm Engine.Calm (setWfState st info) := by
  intro s hs
  simp only [setWfState, emit, Ends.bind_iff, Ends.get_iff, Ends.ite_iff, Ends.modify_iff, Ends.throw_iff]
  refine ⟨fun _ hc => ?_, fun _ hc => (hs hc).toSound⟩
  have hs := hs (hc.of_append (w := [.wfState s.wf.state st]) rfl)
  exact ⟨Engine.Sound.emit (s := s.setWf _) ⟨hs.processed, hs.continued, hs.late⟩ (by simp), hs.settled⟩

theorem leads_setWfState_sound (st : State) (info : Option String) :
    Leads Engine.Sound Engine.Sound (setWfState st info) := by
  intro s hs
  simp only [setWfState, emit, Ends.bind_iff, Ends.get_iff, Ends.ite_iff, Ends.modify_iff, Ends.throw_iff]
  refine ⟨fun _ hc => ?_, fun _ => hs⟩
  have hs := hs (hc.of_append (w := [.wfState s.wf.state st]) rfl)
  exact Engine.Sound.emit (s := s.setWf _) ⟨hs.processed, hs.continued, hs.late⟩ (by simp)

theorem Engine.Calm.steady {s : Engine} (h : s.Calm) : s.Steady := ⟨h.toSound, fun _ => h.settled⟩

/-- A workflow that is started has no tasks. -/
theorem settles_startWorkflow {s : Engine} (hs : s.Clean → s.Sound) (htasks : s.tasks = []) :
    Ends (startWorkflow spec ls o) s (fun _ s' => s'.Clean → s'.Steady) fun _ s' => s'.Clean → s'.Sound := by
  have hcalm : s.Clean → s.Calm := fun hc => ⟨hs hc, fun t v hv => by simp [Engine.view, htasks] at hv⟩
  unfold startWorkflow
  refine Ends.bind (leads_setWfState_calm _ _ s hcalm) (fun _ s' h => ?_) fun _ _ h => h
  have h : s'.Clean → s'.Steady := fun hc => (h hc).steady
  rw [Ends.bind_iff, Ends.get_iff, Ends.bind_iff, ofExcept_iff]
  refine ⟨fun cmds hcmds => ?_, fun _ _ hc => (h hc).toSound⟩
  exact Leads.bind (leads_of_kept (kept_dispatchWorkflowCommands spec o ls (by simp) (cmdOk_continueWholeWorkflow hcmds)))
    (fun _ => leads_of_kept (kept_checkAndComplete spec o)) s' h

/-- After its turn in the loop of `_continue_workflow`, a completed task is processed; the tasks whose turn
    does not come are as they were. -/
theorem settles_markLoop (ts : List TaskId) {s : Engine} (hs : s.Clean → s.Sound) :
    Ends (ts.forM (markIfUnprocessed true)) s
      (fun _ s' => (s'.Clean → s'.Sound) ∧
        ∀ t v, s'.view t = some v → v.state.isCompleted → v.processed ∨ t ∉ ts ∧ s.view t = some v)
      fun _ s' => s'.Clean → s'.Sound := by
  induction ts generalizing s with
  | nil => exact ⟨hs, fun t v hv _ => .inr ⟨List.not_mem_nil, hv⟩⟩
  | cons u ts ih =>
    change Ends (markIfUnprocessed true u >>= fun _ => ts.forM (markIfUnprocessed true)) s _ _
    refine Ends.bind (Q := fun _ s' => (s'.Clean → s'.Sound) ∧ ∀ t v, s'.view t = some v → v.state.isCompleted →
      v.processed ∨ t ≠ u ∧ s.view t = some v) ?_ (fun _ s₁ ⟨h₁, hold⟩ => ?_) fun _ _ h => h
    · unfold markIfUnprocessed
      rw [Ends.bind_iff, taskEx_iff]
      refine ⟨fun e he => ?_, fun _ => hs⟩
      have hv := Engine.view_of_row he
      split
      next hcond =>
        simp only [Bool.and_eq_true, Bool.not_eq_eq_eq_not, Bool.not_true] at hcond
        simp only [setProcessed, emit, setRow, Ends.bind_iff, Ends.get_iff, Ends.modify_iff, if_true]
        have hview : ((s.emit (.continued u e.state e.processed s.wf.state)).setRow u
            fun e => { e with processed := true }).view u = some { e.view with processed := true } := by
          rw [Engine.view_setRow_self (by exact he)]
          rfl
        have hother : ∀ t ≠ u, ((s.emit (.continued u e.state e.processed s.wf.state)).setRow u
            fun e => { e with processed := true }).view t = s.view t :=
          fun t ht => by rw [Engine.view_setRow_ne ht, Engine.view_emit]
        refine ⟨fun hc => ?_, fun t v ht _ => ?_⟩
        · have hs := hs (hc.of_append (w := [.continued u e.state e.processed s.wf.state]) rfl)
          refine hs.update hother (fun v hv' _ => ?_) rfl (fun t st p wf hev => ?_) hs.late
          · obtain rfl := Option.some.inj (hview.symm.trans hv')
            exact hcond.1
          · obtain ⟨rfl, rfl, rfl, rfl⟩ : t = u ∧ st = e.state ∧ p = e.processed ∧ wf = s.wf.state := by simpa using hev
            exact hcond
        · rcases eq_or_ne t u with rfl | hne
          · obtain rfl := Option.some.inj (hview.symm.trans ht)
            exact .inl rfl
          · exact .inr ⟨hne, hother t hne ▸ ht⟩
      next hcond =>
        refine ⟨hs, fun t v ht hdone => ?_⟩
        rcases eq_or_ne t u with rfl | hne
        · obtain rfl := Option.some.inj (hv.symm.trans ht)
          simp only [Bool.and_eq_true, not_and, Bool.not_eq_eq_eq_not, Bool.not_true, Bool.not_eq_false] at hcond
          exact .inl (hcond hdone)
        · exact .inr ⟨hne, ht⟩
    · refine (ih h₁).mono (fun _ s' ⟨h', hold'⟩ => ⟨h', fun t v hv hdone => ?_⟩) fun _ _ h => h
      rcases hold' t v hv hdone with h | ⟨hnot, hv₁⟩
      · exact .inl h
      · rcases hold t v hv₁ hdone with h | ⟨hne, hv₀⟩
        · exact .inl h
        · exact .inr ⟨by simp [hne, hnot], hv₀⟩

/-- `_continue_workflow` leaves no completed task unprocessed. -/
theorem leads_continueWorkflowWith {cmds : List Cmd} (hcmds : ∀ cmd ∈ cmds, Scope.CmdOk {} cmd) :
    Leads Engine.Sound Engine.Steady (continueWorkflowWith spec ls o true cmds) := by
  intro s hs
  unfold continueWorkflowWith
  dsimp only
  rw [Ends.bind_iff, Ends.get_iff]
  refine Ends.bind (settles_markLoop _ hs) (fun _ s' ⟨h', hold⟩ => ?_) fun _ _ h => h
  have hsteady : s'.Clean → s'.Steady := by
    refine fun hc => ⟨h' hc, fun _ t v hv hdone => (hold t v hv hdone).resolve_right fun ⟨hnot, hv⟩ => ?_⟩
    obtain ⟨e, he, -⟩ := Engine.row_of_view hv
    exact hnot (List.mem_range.mpr (List.getElem?_eq_some_iff.mp he).1)
  refine Leads.bind (leads_of_kept .get) (fun s₁ => ?_) s' hsteady
  split
  · exact leads_of_kept (kept_checkAndCompleteWorkflow spec o)
  · exact leads_of_kept (kept_dispatchWorkflowCommands spec o ls (by nofun)
      fun cmd hcmd => hcmds cmd (List.mem_filter.mp hcmd).1)

theorem leads_resumeWorkflow : Leads Engine.Steady Engine.Steady (resumeWorkflow spec ls o) := by
  refine .bind (leads_of_kept .get) fun s₀ => ?_
  split
  · intro s hs
    refine Ends.bind (leads_setWfState_sound _ _ s fun hc => (hs hc).toSound) (fun _ s' h => ?_) fun _ _ h => h
    rw [Ends.bind_iff, Ends.get_iff, Ends.bind_iff, ofExcept_iff]
    refine ⟨fun cmds hcmds => ?_, fun _ _ => h⟩
    have hselect : Leads Engine.Sound Engine.Sound (selectUnprocessed spec o) :=
      leads_of_evolves (r := none) (fun _ h => h) (fun _ _ h hc hs => h.sound hc hs) kept_selectUnprocessed
    exact (hselect.bind fun _ => leads_continueWorkflowWith (cmdOk_continueWholeWorkflow hcmds)) s' h
  · exact .pure (fun _ => id) _

/-- A rerun that finds every completed task processed. -/
theorem leads_rerun (reset : Bool) : Leads Engine.Calm Engine.Steady (rerun spec ls o t reset false) := by
  refine .bind (leads_setWfState_calm _ _) fun _ => .bind (Q := Engine.Calm) (fun s hs hc => ?_) fun _ =>
    .bind (leads_of_kept_calm .get) fun s₀ => .bind (leads_of_kept_calm (kept_taskEx t)) fun e =>
    .bind (leads_of_kept_calm (kept_taskSpecOf spec t)) fun own => ?_
  · have hs := hs (hc.of_append (w := [.rerunRequested t]) rfl)
    exact ⟨hs.toSound.emit nofun, hs.settled⟩
  dsimp only
  have hrest : Leads Engine.Calm Engine.Steady (continueWorkflowWith spec ls o false (rerunTask s₀ own t e reset)) := by
    intro s hs
    unfold continueWorkflowWith
    dsimp only
    rw [Ends.bind_iff, Ends.get_iff]
    have hloop : Ends.Keeps (fun s s' => s.Settled → s' = s)
        ((List.range s.tasks.length).forM (markIfUnprocessed false)) :=
      Ends.Keeps.forM (fun _ _ => rfl) (fun h h' hs => by
        obtain rfl := h hs
        exact h' hs) fun t _ => markIfUnprocessed_settled false t
    have hkept : Kept { whole := True, marks := True } ((List.range s.tasks.length).forM (markIfUnprocessed false)) :=
      .forM fun t _ => kept_markIfUnprocessed trivial (fun _ => trivial) t
    have hcalm : Ends ((List.range s.tasks.length).forM (markIfUnprocessed false)) s (fun _ s' => s'.Clean → s'.Calm)
        fun _ s' => s'.Clean → s'.Calm := by
      have hsame : ∀ {s'}, Evolves { whole := True, marks := True } s s' ∧ (s.Settled → s' = s) → s'.Clean → s'.Calm := by
        rintro s' ⟨h, h'⟩ hc
        obtain ⟨es, hes, -⟩ := h.events
        have hs := hs (hc.of_append hes)
        exact h' hs.settled ▸ hs
      exact ((hkept s).and (hloop s)).mono (fun _ _ => hsame) fun _ _ => hsame
    refine Ends.bind hcalm (fun _ s' h => ?_) fun _ _ h hc => (h hc).toSound
    refine Leads.bind (leads_of_kept .get) (fun s₁ => ?_) s' fun hc => (h hc).steady
    split
    · exact leads_of_kept (kept_checkAndCompleteWorkflow spec o)
    · have hdispatch : Kept { reruns := some t } (dispatchWorkflowCommands spec o ls (skipTaskHandler spec ls o)
          ((rerunTask s₀ own t e reset).filter (!·.isPause))) :=
        kept_dispatchWorkflowCommands spec o ls (by nofun) fun cmd hcmd =>
          cmdOk_rerunTask rfl cmd (List.mem_filter.mp hcmd).1
      exact leads_of_evolves (fun _ h => h.toSound) (fun _ _ h hc hs => h.steady hc hs) hdispatch
  simp only [Bool.false_eq_true, if_false]
  split
  · exact .bind (leads_of_kept_calm (kept_setRow fun _ => by rfl)) fun _ => hrest
  · exact hrest

theorem leads_rerunInSubworkflow (i : Nat) : Leads Engine.Calm Engine.Steady (rerunInSubworkflow t i) := by
  refine .bind (leads_of_kept_calm (kept_setRow fun _ => by rfl)) fun _ => .bind (leads_setWfState_calm _ _) fun _ => ?_
  intro s hs
  exact (leads_setState_reopens s fun hc => (hs hc).steady).mono (fun _ _ h hc => (h hc).toSteady) fun _ _ h => h

/-! ### Updates of executions -/

section
variable {s : Engine}

theorem settles_updateTask {b : State} (hs : s.Clean → s.Steady)
    (hb : ∀ v, s.view t = some v → ¬v.state.isCompleted → ¬b.isCompleted) :
    Ends (updateTask t b) s (fun _ s' => s'.Clean → s'.Steady) fun _ s' => s'.Clean → s'.Sound := by
  simp only [updateTask]
  rw [Ends.bind_iff, taskEx_iff]
  refine ⟨fun e he => ?_, fun _ hc => (hs hc).toSound⟩
  split
  · exact hs
  next hopen =>
  split
  · exact hs
  simp only [Bool.or_eq_true, not_or] at hopen
  have hv := Engine.view_of_row he
  have hfresh : s.Clean → s.Fresh t := fun hc => ⟨hs hc, fun v hv' => by
    obtain rfl := Option.some.inj (hv.symm.trans hv')
    exact Bool.eq_false_iff.mpr fun hp => hopen.1 ((hs hc).processed t _ hv hp)⟩
  refine Ends.bind (leads_setState (hb _ hv hopen.1) s hfresh) (fun _ s' h => ?_) fun _ _ h => h
  refine Leads.bind (leads_of_kept (kept_taskEx t)) (fun e' => ?_) s' fun hc => (h hc).toSteady
  split
  · exact leads_of_kept (kept_registerWorkflowCompletionCheck t)
  · exact .pure (fun _ => id) _

theorem settles_onActionUpdate {i : Nat} (hs : s.Clean → s.Steady)
    (hx : ∀ e x, s.tasks[t]? = some e → e.executions[i]? = some x → ¬e.state.isCompleted → ¬x.state.isCompleted) :
    Ends (onActionUpdate spec ls o t i) s (fun _ s' => s'.Clean → s'.Steady) fun _ s' => s'.Clean → s'.Sound := by
  unfold onActionUpdate buildTask taskSpecOf
  simp only [bind_assoc]
  rw [Ends.bind_iff, taskEx_iff]
  refine ⟨fun e he => ?_, fun _ hc => (hs hc).toSound⟩
  split
  case h_2 => exact fun hc => (hs hc).toSound
  simp only [pure_bind]
  rw [Ends.bind_iff, taskEx_iff]
  refine ⟨fun e' he' => ?_, fun _ hc => (hs hc).toSound⟩
  obtain rfl : e = e' := Option.some.inj (he.symm.trans he')
  split
  · exact hs
  next x hxe =>
  have hupdate := settles_updateTask (t := t) (b := x.state) hs fun v hv hopen => by
    obtain rfl := Option.some.inj ((Engine.view_of_row he).symm.trans hv)
    exact hx e x he hxe hopen
  have hresume : Leads Engine.Steady Engine.Steady (do
      if x.state.isRunning && !(← get).tasks.any (·.state.isPaused) then resumeWorkflow spec ls o) := by
    refine .bind (leads_of_kept .get) fun s => ?_
    split
    · exact leads_resumeWorkflow
    · exact .pure (fun _ => id) _
  refine settles_handling (Ends.bind hupdate (fun _ s' h => ?_) fun _ _ h => h)
  dsimp only
  split
  · exact Leads.bind (leads_of_kept (kept_pauseWorkflow none)) (fun _ => hresume) s' h
  · exact hresume s' h

/-- An update leaves the execution paused or running. -/
theorem leads_onExecutionUpdate (i : Nat) (paused : Bool) :
    Leads Engine.Steady Engine.Steady (onExecutionUpdate spec ls o t i paused) := by
  intro s hs
  have hst : ¬(updatedState paused).1.isCompleted := by cases paused <;> simp [updatedState]
  unfold onExecutionUpdate
  generalize updatedState paused = p at hst
  obtain ⟨st, hnot⟩ := p
  dsimp only
  rw [Ends.bind_iff, taskEx_iff]
  refine ⟨fun e he => ?_, fun _ hc => (hs hc).toSound⟩
  split
  · exact fun hc => (hs hc).toSound
  next x hx =>
  split
  case isFalse => exact fun hc => (hs hc).toSound
  simp only [setRow, Ends.bind_iff, Ends.modify_iff]
  have hs' := leads_of_kept (kept_setRow (t := t) (f := (·.setExecution i fun x => { x with state := st, notTask := hnot }))
    fun _ => by rfl) s hs
  unfold scheduleOnActionUpdate taskSpecOf
  rw [bind_assoc, Ends.bind_iff, taskEx_iff]
  refine ⟨fun e' he' => ?_, fun _ hc => (hs' hc).toSound⟩
  split
  case h_2 => exact fun hc => (hs' hc).toSound
  rw [pure_bind]
  split
  · exact leads_schedule (by nofun) _ hs'
  refine settles_onActionUpdate hs' fun e'' x' he'' hx' _ => ?_
  rw [getElem?_setRow he] at he''
  cases he''
  simp only [TaskEx.setExecution, List.getElem?_modify, hx] at hx'
  cases hx'
  simpa using hst

end

/-! ### Steps -/

/-- What a request has to meet, so that the completions before it and in it are all continued: a delayed
    continuation finds its task open, the result of a regular task is final, a late update does not complete
    its task, no task is skipped, and a rerun finds every completed task processed. -/
structure Request.Regular (spec : WorkflowSpec) (s : Engine) (r : Request) : Prop where
  continues : ∀ t v, r = .runJob (.continueTask t) → s.view t = some v → ¬v.state.isCompleted
  result : ∀ t i e x ts, r = .subworkflowResult t i ∨ r = .runJob (.onActionComplete t i) → s.tasks[t]? = some e →
    e.executions[i]? = some x → spec.getTask e.name = some ts → ts.withItems = false → ¬e.state.isCompleted →
    x.state.isCompleted
  update : ∀ t i e x, r = .runJob (.onActionUpdate t i) → s.tasks[t]? = some e → e.executions[i]? = some x →
    ¬e.state.isCompleted → ¬x.state.isCompleted
  rerun : ∀ t reset skip, r = .rerun t reset skip → skip = false ∧ (s.wf.state = .paused ∨ s.Settled)
  rerunSub : ∀ t i, r = .rerunInSubworkflow t i → s.Settled

theorem settles_rerunWorkflow {s : Engine} {reset : Bool} (hs : s.Clean → s.Steady)
    (h : s.wf.state = .paused ∨ s.Settled) :
    Ends (rerunWorkflow spec ls o t reset false) s (fun _ s' => s'.Clean → s'.Steady)
      fun _ s' => s'.Clean → s'.Sound := by
  unfold rerunWorkflow
  rw [Ends.bind_iff, Ends.get_iff]
  split
  · exact hs
  next hne => exact leads_rerun reset s fun hc => ⟨(hs hc).toSound, h.resolve_left hne⟩

theorem settles_handle (ls : ListSort) (o : Oracle) {s : Engine} {r : Request} (hs : s.Clean → s.Steady) (h : r.Regular spec s)
    (hstart : r = .start → s.tasks = []) (hlate : ∀ t st info, r = .runJob (.completeTask t st info) → LateState st) :
    Ends (handle spec ls o r) s (fun _ s' => s'.Clean → s'.Steady) fun _ s' => s'.Clean → s'.Sound := by
  cases r with
  | start => exact settles_startWorkflow (fun hc => (hs hc).toSound) (hstart rfl)
  | startTask m => exact leads_runTask m s hs
  | actionResult t i result => exact leads_onActionResult i result s hs
  | executionUpdate t i paused => exact leads_onExecutionUpdate i paused s hs
  | subworkflowStarted t i => exact leads_of_kept (kept_setRow fun _ => by rfl) s hs
  | subworkflowCompleted t i result => exact leads_of_kept (kept_subworkflowCompleted i result) s hs
  | subworkflowResult t i =>
    exact settles_scheduleOnActionComplete hs fun e x ts => h.result t i e x ts (.inl rfl)
  | runJob j =>
    cases j with
    | refreshTaskState t => exact leads_refreshTaskState s hs
    | continueTask t => exact settles_continueTask hs fun v => h.continues t v rfl
    | completeTask t st info => exact leads_completeTask (hlate t st info rfl) s hs
    | failTaskIfIncomplete t timeout => exact leads_failTaskIfIncomplete timeout s hs
    | onActionComplete t i => exact settles_onActionComplete hs fun e x ts => h.result t i e x ts (.inr rfl)
    | onActionUpdate t i => exact settles_onActionUpdate hs fun e x => h.update t i e x rfl
  | scheduleIfNeeded t jobsExist =>
    cases jobsExist with
    | true => exact hs
    | false => exact leads_schedule (by nofun) s hs
  | checkAndComplete => exact leads_of_kept (kept_checkAndComplete spec o) s hs
  | pause => exact leads_of_kept (kept_pauseWorkflow none) s hs
  | resume => exact leads_resumeWorkflow s hs
  | stop state msg => exact leads_of_kept (kept_stopWorkflow o state msg) s hs
  | rerun t reset skip =>
    obtain ⟨rfl, hsettled⟩ := h.rerun t reset skip rfl
    exact settles_rerunWorkflow hs hsettled
  | rerunInSubworkflow t i =>
    exact leads_rerunInSubworkflow i s fun hc => ⟨(hs hc).toSound, h.rerunSub t i rfl⟩

end Mistral
