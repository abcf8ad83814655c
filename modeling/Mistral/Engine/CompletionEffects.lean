import Mistral.Engine.Effects

/-! The moves of completing and starting a task, and of the handlers. -/

namespace Mistral

variable {sc : Scope} {late ok : State → Prop} {α : Type}

/-! ### Policies after completion

Between the new state and the next commands, the policies may take a completed state back. All of it is one
chain of states of the task, and nothing else changes. -/

/-- A delayed completion asks for a state that is `late`. -/
def Job.Late (late : State → Prop) : Job → Prop
  | .completeTask _ st _ => late st
  | _ => True

/-- The task execution `t` was in state `v.state` and has gone along a chain. -/
structure Chained (sc : Scope) (late : State → Prop) (t : TaskId) (v : View) (b : State) (w : List Event) (s s' : Engine) : Prop where
  view : s'.view t = some { v with state := b }
  chain : Chain t v.state w b
  trace : s'.trace = s.trace ++ w
  retried : ∀ u b wf, .retried u b wf ∈ w → wf = s.wf.state
  others : ∀ u ≠ t, s'.view u = s.view u
  jobs : ∃ js, s'.jobs = s.jobs ++ js ∧ ∀ j ∈ js, sc.JobOk j ∧ j.Late late
  messages : s'.messages = s.messages
  wf : s'.wf = s.wf

/-- From a state that is `ok`, the task execution goes along a chain to a state that is `ok'`. -/
def ChainsTo (sc : Scope) (late ok ok' : State → Prop) (t : TaskId) (s s' : Engine) : Prop :=
  ∀ v, s.view t = some v → ok v.state → ∃ b w, ok' b ∧ Chained sc late t v b w s s'

/-- From a state `ok` of `t`, a chain leads to one that is `ok` again. -/
abbrev Chains (sc : Scope) (late ok : State → Prop) (t : TaskId) (s s' : Engine) : Prop := ChainsTo sc late ok ok t s s'

theorem Chain.mem {t : TaskId} {a b : State} {w : List Event} (h : Chain t a w b) :
    ∀ ev ∈ w, (∃ x y, ev = .taskState t x y) ∨ ∃ x wf, ev = .retried t x wf := by
  induction h with
  | nil => simp
  | change _ _ _ ih | delay _ ih => exact List.forall_mem_cons.mpr ⟨.inl ⟨_, _, rfl⟩, ih⟩
  | retry _ _ _ ih =>
    exact List.forall_mem_cons.mpr ⟨.inr ⟨_, _, rfl⟩, List.forall_mem_cons.mpr ⟨.inl ⟨_, _, rfl⟩, ih⟩⟩

theorem Chain.about {t : TaskId} {a b : State} {w : List Event} (h : Chain t a w b) : ∀ ev ∈ w, ev.task = some t := by
  intro ev hev
  rcases h.mem ev hev with ⟨_, _, rfl⟩ | ⟨_, _, rfl⟩ <;> rfl

theorem ChainsTo.refl {t : TaskId} (s : Engine) : Chains sc late ok t s s := fun v hv hok =>
  ⟨v.state, [], hok, hv, .nil _, by simp, by simp, fun _ _ => rfl, ⟨[], by simp, by simp⟩, rfl, rfl⟩

theorem ChainsTo.trans {ok' ok'' : State → Prop} {t : TaskId} {s s' s'' : Engine} (h : ChainsTo sc late ok ok' t s s')
    (h' : ChainsTo sc late ok' ok'' t s' s'') : ChainsTo sc late ok ok'' t s s'' := by
  intro v hv hs
  obtain ⟨b, w, hb, c⟩ := h v hv hs
  obtain ⟨b', w', hb', c'⟩ := h' _ c.view hb
  obtain ⟨js, hjs, hok⟩ := c.jobs
  obtain ⟨js', hjs', hok'⟩ := c'.jobs
  exact ⟨b', w ++ w', hb',
    { view := c'.view
      chain := c.chain.append c'.chain
      trace := by rw [c'.trace, c.trace, List.append_assoc]
      retried := fun u b wf h => (List.mem_append.mp h).elim (c.retried u b wf) fun h => c.wf ▸ c'.retried u b wf h
      others := fun u hu => (c'.others u hu).trans (c.others u hu)
      jobs := ⟨js ++ js', by rw [hjs', hjs, List.append_assoc],
        fun j hj => (List.mem_append.mp hj).elim (hok j) (hok' j)⟩
      messages := c'.messages.trans c.messages
      wf := c'.wf.trans c.wf }⟩

theorem ChainsTo.mono {ok₁ ok' ok₁' : State → Prop} {t : TaskId} {s s' : Engine} (h : ChainsTo sc late ok ok' t s s')
    (hin : ∀ a, ok₁ a → ok a) (hout : ∀ b, ok' b → ok₁' b) : ChainsTo sc late ok₁ ok₁' t s s' := by
  intro v hv ha
  obtain ⟨b, w, hb, c⟩ := h v hv (hin _ ha)
  exact ⟨b, w, hout b hb, c⟩

/-- A chain from a state that is not completed is a move. -/
theorem Chained.evolves {t : TaskId} {v : View} {b : State} {w : List Event} {s s' : Engine}
    (h : Chained sc late t v b w s s') (hv : s.view t = some v) (hown : sc.own = some t) (hopen : ¬v.state.isCompleted) :
    Evolves sc s s' where
  events := by
    refine ⟨w, h.trace, fun u => ?_⟩
    have habout := h.chain.about
    rcases eq_or_ne u t with rfl | hu
    · rw [List.filter_eq_self.mpr fun ev hev => by simp [Event.about, habout ev hev], hv, h.view]
      exact .single (.attempt hown hopen h.chain)
    · rw [List.filter_eq_nil_iff.mpr fun ev hev => by simp [Event.about, habout ev hev, Ne.symm hu], h.others u hu]
      exact .nil _
  jobs :=
    let ⟨js, hjs, hok⟩ := h.jobs
    ⟨js, hjs, fun j hj => (hok j hj).1⟩
  messages := ⟨[], by simp [h.messages], by simp⟩
  wf hr := .inl (by rwa [h.wf] at hr)
  done _ := .inl (by rw [h.wf])
  wfId := by rw [h.wf]

/-- However `m` ends, the task execution `t` has gone along a chain. -/
abbrev KeptChain (sc : Scope) (late ok : State → Prop) (t : TaskId) (m : M α) : Prop := Ends.Keeps (Chains sc late ok t) m

namespace KeptChain
variable {β : Type} {t : TaskId}

protected theorem pure (a : α) : KeptChain sc late ok t (pure a) := Ends.Keeps.pure ChainsTo.refl a

protected theorem throw (e : Exc) : KeptChain sc late ok t (throw e : M α) := Ends.Keeps.throw ChainsTo.refl e

protected theorem bind {m : M α} {f : α → M β} (hm : KeptChain sc late ok t m) (hf : ∀ a, KeptChain sc late ok t (f a)) :
    KeptChain sc late ok t (m >>= f) := Ends.Keeps.bind ChainsTo.trans hm hf

protected theorem get : KeptChain sc late ok t (get : M Engine) := fun s => ChainsTo.refl s

/-- The last part of a computation may leave the states that are `ok`. -/
theorem bindTo {ok' : State → Prop} {m : M α} {f : α → M β} (hout : ∀ a, ok a → ok' a) (hm : KeptChain sc late ok t m)
    (hf : ∀ a s, Ends (f a) s (fun _ => ChainsTo sc late ok ok' t s) fun _ => ChainsTo sc late ok ok' t s) (s : Engine) :
    Ends (m >>= f) s (fun _ => ChainsTo sc late ok ok' t s) fun _ => ChainsTo sc late ok ok' t s :=
  Ends.bind (hm s) (fun a s' h => (hf a s').mono (fun _ _ => h.trans) fun _ _ => h.trans)
    fun _ _ h => h.mono (fun _ => id) hout

protected theorem forM {ι : Type} {l : List ι} {g : ι → M PUnit} (hg : ∀ i ∈ l, KeptChain sc late ok t (g i)) :
    KeptChain sc late ok t (l.forM g) := Ends.Keeps.forM ChainsTo.refl ChainsTo.trans hg

end KeptChain

section
variable {t : TaskId}

theorem chain_evaluateAt (o : Oracle) (site : Site) : KeptChain sc late ok t (evaluateAt o site) := by
  unfold evaluateAt
  split
  · exact .throw _
  · exact .pure _

theorem chain_setRow {f : TaskEx → TaskEx} (hf : ∀ e, (f e).view = e.view) : KeptChain sc late ok t (setRow t f) :=
  fun s v hv hs => ⟨v.state, [], hs,
    { view := (Engine.view_setRow_quiet hf).trans hv
      chain := .nil _
      trace := (List.append_nil _).symm
      retried := by simp
      others := fun _ _ => Engine.view_setRow_quiet hf
      jobs := ⟨[], (List.append_nil _).symm, by simp⟩
      messages := rfl
      wf := rfl }⟩

theorem chain_schedule {j : Job} (hj : sc.JobOk j ∧ j.Late late) : KeptChain sc late ok t (schedule j) :=
  fun s v hv hs => ⟨v.state, [], hs,
    { view := hv
      chain := .nil _
      trace := (List.append_nil _).symm
      retried := by simp
      others := fun _ _ => rfl
      jobs := ⟨[j], rfl, by simpa using hj⟩
      messages := rfl
      wf := rfl }⟩

/-- The state of the task execution changes, with the events of a chain. -/
theorem ChainsTo.of_row {s s' : Engine} {e e' : TaskEx} {b : State} {w : List Event} (he : s.tasks[t]? = some e)
    (htasks : s'.tasks = (s.setRow t fun _ => e').tasks) (hview : e'.view = { e.view with state := b })
    (hchain : Chain t e.state w b) (htrace : s'.trace = s.trace ++ w)
    (hretried : ∀ u b wf, .retried u b wf ∈ w → wf = s.wf.state) (hjobs : s'.jobs = s.jobs)
    (hmessages : s'.messages = s.messages) (hwf : s'.wf = s.wf) : ChainsTo sc late ok (· = b) t s s' := by
  intro v hv _
  obtain rfl := Option.some.inj ((Engine.view_of_row he).symm.trans hv)
  have hview' : ∀ u, s'.view u = (s.setRow t fun _ => e').view u := fun u => by simp [Engine.view, htasks]
  exact ⟨b, w, rfl,
    { view := by rw [hview', Engine.view_setRow_self he, hview]
      chain := hchain
      trace := htrace
      retried := hretried
      others := fun u hu => by rw [hview', Engine.view_setRow_ne hu]
      jobs := ⟨[], by simp [hjobs], by simp⟩
      messages := hmessages
      wf := hwf }⟩

theorem setRow_const {s : Engine} {e : TaskEx} {f : TaskEx → TaskEx} (he : s.tasks[t]? = some e) :
    s.setRow t f = s.setRow t fun _ => f e := by
  simp only [Engine.setRow, Engine.mk.injEq, true_and, and_true]
  refine List.ext_getElem? fun i => ?_
  simp only [List.getElem?_modify]
  rcases eq_or_ne t i with rfl | h
  · simp [he]
  · simp [h]

/-- A link of the chain. -/
theorem chains_setState {s : Engine} {b : State} {info : Option String} (hb : ok b)
    (hlink : ∀ e, s.tasks[t]? = some e → Chain t e.state [.taskState t e.state b] b) :
    Ends (setState t b info) s (fun _ => Chains sc late ok t s) fun _ => Chains sc late ok t s := by
  refine setState_iff.mpr ⟨fun e he _ => ?_, fun _ _ _ => .refl s, fun _ => .refl s⟩
  rw [setRow_const he]
  have hrow : ChainsTo sc late ok (· = b) t s
      ((s.setRow t fun _ => e.withState b info none).emit (.taskState t e.state b)) :=
    .of_row he rfl rfl (hlink e he) rfl (by simp) rfl rfl rfl
  exact hrow.mono (fun _ => id) fun _ h => h ▸ hb

theorem Chain.link {a b : State} (h : a.isCompleted → b.isCompleted) (hw : b = .waiting → a = .waiting) :
    Chain t a [.taskState t a b] b := .change h hw (.nil b)

end

/-- The row after `setRow`. -/
theorem getElem?_setRow {s : Engine} {e : TaskEx} {f : TaskEx → TaskEx} (he : s.tasks[t]? = some e) :
    (s.setRow t f).tasks[t]? = some (f e) := by
  simp [Engine.setRow, he]

/-- There is nothing to prove from a state that is not `ok`. -/
theorem Chains.of_not_ok {s s' : Engine} {e : TaskEx} (he : s.tasks[t]? = some e) (hs : ¬ok e.state) :
    Chains sc late ok t s s' := by
  intro v hv hok
  obtain rfl := Option.some.inj ((Engine.view_of_row he).symm.trans hv)
  exact absurd hok hs

/-! ### What each policy does -/

section
variable {o : Oracle} {task : Task}

theorem chain_waitAfter (hown : sc.own = some task.id) (hok : ∀ a, ok a → late a ∧ a ≠ .skipped ∧ a ≠ .waiting)
    (hd : ok .runningDelayed) (delay : NatExpr) : KeptChain sc late ok task.id (waitAfterTaskComplete o task delay) := by
  intro s
  unfold waitAfterTaskComplete
  dsimp only
  split
  · exact .refl s
  rw [Ends.bind_iff, taskEx_iff]
  refine ⟨fun e he => ?_, fun _ => .refl s⟩
  by_cases hs : ok e.state
  · split
    · exact .refl s
    have hset : ∀ info, KeptChain sc late ok task.id (setState task.id .runningDelayed info) := fun info s =>
      chains_setState hd fun _ _ => .delay (.nil _)
    have hjob : ∀ info, KeptChain sc late ok task.id (schedule (.completeTask task.id e.state info)) := fun _ =>
      chain_schedule ⟨⟨hown, (hok _ hs).2⟩, (hok _ hs).1⟩
    exact KeptChain.bind (chain_setRow fun _ => by rfl) (fun _ => .bind (hset _) fun _ => hjob _) s
  · exact .of_forall (fun _ _ => .of_not_ok he hs) fun _ _ => .of_not_ok he hs

theorem chain_failOn (he : ok .error) (expr : BoolExpr) : KeptChain sc late ok task.id (failOnAfterTaskComplete o task expr) := by
  intro s
  unfold failOnAfterTaskComplete
  rw [Ends.bind_iff, taskEx_iff]
  refine ⟨fun e _ => ?_, fun _ => .refl s⟩
  split
  · exact .refl s
  split
  · exact chains_setState he fun _ _ => .link (fun _ => rfl) nofun
  · exact .refl s

/-- The two events of a retry. -/
theorem chains_retried {s : Engine} {e : TaskEx} {b : State} {info : Option String}
    (he : s.tasks[task.id]? = some e) (hdone : e.state.isCompleted) (hb : b = .waiting ∨ b = .runningDelayed)
    (hok : ok b) : Ends (setState task.id b info) (s.emit (.retried task.id b s.wf.state))
      (fun _ => Chains sc late ok task.id s) fun _ => Chains sc late ok task.id s := by
  have hne : e.state ≠ b := by
    rintro rfl
    rcases hb with h | h <;> simp [h] at hdone
  refine setState_iff.mpr ⟨fun e' he' _ => ?_, fun e' he' hd => ?_, fun hn => ?_⟩
  · obtain rfl : e = e' := Option.some.inj (he.symm.trans he')
    rw [setRow_const he']
    have hrow : ChainsTo sc late ok (· = b) task.id s (((s.emit (.retried task.id b s.wf.state)).setRow task.id fun _ =>
        e.withState b info none).emit (.taskState task.id e.state b)) :=
      .of_row (w := [.retried task.id b s.wf.state, .taskState task.id e.state b]) he rfl rfl (.retry hdone hb (.nil b))
        (by simp [Engine.emit, Engine.setRow]) (by simp) rfl rfl rfl
    exact hrow.mono (fun _ => id) fun _ h => h ▸ hok
  · obtain rfl : e = e' := Option.some.inj (he.symm.trans he')
    simp [TaskEx.differs, hne] at hd
  · cases he.symm.trans hn

theorem chain_startRetry (hown : sc.own = some task.id) (hw : ok .waiting) (hd : ok .runningDelayed) {s : Engine}
    {e : TaskEx} (he : s.tasks[task.id]? = some e) (hdone : e.state.isCompleted) (r : RetrySpec) :
    Ends (startRetry o task r) s (fun _ => Chains sc late ok task.id s) fun _ => Chains sc late ok task.id s := by
  have hjob : ∀ {j : Job} {s' : Engine}, sc.JobOk j ∧ j.Late late → Chains sc late ok task.id s s' →
      Ends (schedule j) s' (fun _ => Chains sc late ok task.id s) fun _ => Chains sc late ok task.id s := fun hj h =>
    (chain_schedule hj _).mono (fun _ _ => h.trans) fun _ _ => h.trans
  unfold startRetry
  rw [Ends.bind_iff, Ends.get_iff]
  dsimp only
  split
  · rw [Ends.bind_iff]
    exact Ends.bind (chains_retried he hdone (.inl rfl) hw) (fun _ _ => hjob (j := .refreshTaskState task.id) ⟨trivial, trivial⟩)
      fun _ _ h => h
  · rw [Ends.bind_iff]
    exact Ends.bind (chains_retried he hdone (.inr rfl) hd) (fun _ _ => hjob (j := .continueTask task.id) ⟨hown, trivial⟩)
      fun _ _ h => h

theorem chain_retry (hown : sc.own = some task.id) (hw : ok .waiting) (hd : ok .runningDelayed) (r : RetrySpec) :
    KeptChain sc late ok task.id (retryAfterTaskComplete o task r) := by
  intro s
  unfold retryAfterTaskComplete
  dsimp only
  split
  · exact .refl s
  rw [Ends.bind_iff, taskEx_iff]
  refine ⟨fun e he => ?_, fun _ => .refl s⟩
  split
  · exact .refl s
  next hdone =>
  simp only [Bool.or_eq_true, Bool.not_eq_eq_eq_not, Bool.not_true, not_or, Bool.not_eq_false] at hdone
  split
  · exact .refl s
  simp only [setRow, Ends.bind_iff, Ends.modify_iff]
  have hquiet {f : TaskEx → TaskEx} (hf : ∀ e, (f e).view = e.view) :
      Chains sc late ok task.id s (s.setRow task.id f) := chain_setRow hf s
  have hrow := hquiet (f := fun x => x.invalidateResult.mapContext fun c =>
    { c with retryNo := some (e.runtimeContext.retryNo.getD 0 + 1) }) fun _ => rfl
  exact (chain_startRetry hown hw hd (getElem?_setRow he) hdone.1 r).mono (fun _ _ => hrow.trans) fun _ _ => hrow.trans

/-- The kinds of the policies that the factories build. -/
def policyKinds : List PolicyKind := [.pauseBefore, .waitBefore, .waitAfter, .failOn, .retry, .timeout, .concurrency]

theorem factories_kinds :
    List.Forall₂ (fun f k => ∀ x p, f x = some p → Policy.kind p = k) Policy.getPolicyFactories policyKinds := by
  have hnat : ∀ {mk : NatExpr → Policy} {k : PolicyKind} {n : NatExpr} {p : Policy}, (∀ n, (mk n).kind = k) →
      Policy.ofNat mk n = some p → p.kind = k := fun hk hp => by
    unfold Policy.ofNat at hp
    split at hp <;> cases hp
    exact hk _
  have hbool : ∀ {mk : BoolExpr → Policy} {k : PolicyKind} {b : BoolExpr} {p : Policy}, (∀ b, (mk b).kind = k) →
      Policy.ofBool mk b = some p → p.kind = k := fun hk hp => by
    unfold Policy.ofBool at hp
    split at hp <;> cases hp
    exact hk _
  refine .cons (fun _ _ => hbool fun _ => rfl) (.cons (fun _ _ => hnat fun _ => rfl) (.cons (fun _ _ => hnat fun _ => rfl)
    (.cons (fun _ _ => hbool fun _ => rfl) (.cons (fun x p hp => ?_) (.cons (fun _ _ => hnat fun _ => rfl)
      (.cons (fun _ _ => hnat fun _ => rfl) .nil))))))
  obtain ⟨r, -, rfl⟩ := Option.map_eq_some_iff.mp hp
  rfl

/-- A task has at most one policy of each kind, in the order of the factories. -/
theorem buildPolicies_kinds (spec : WorkflowSpec) (ts : TaskSpec) :
    ((spec.buildPolicies ts).map Policy.kind).Sublist policyKinds := by
  unfold WorkflowSpec.buildPolicies
  generalize Policy.getPolicyFactories = fs, policyKinds = ks, factories_kinds = h
  induction h with
  | nil => exact .refl _
  | @cons f k fs ks hf _ ih =>
    rw [List.filterMap_cons]
    split
    · exact ih.cons k
    next p hp =>
      have hk : p.kind = k := by
        rcases Option.or_eq_some_iff.mp hp with hp | ⟨-, hp⟩
        · exact hf _ p hp
        · obtain ⟨d, -, hd⟩ := Option.bind_eq_some_iff.mp hp
          exact hf _ p hd
      rw [List.map_cons, hk]
      exact ih.cons_cons k

/-- Policies fall into two parts, by their kinds. -/
theorem split_kinds {ps : List Policy} (ks : List PolicyKind) {ks' : List PolicyKind}
    (h : (ps.map Policy.kind).Sublist (ks ++ ks')) :
    ∃ l l', ps = l ++ l' ∧ (l.map Policy.kind).Sublist ks ∧ (l'.map Policy.kind).Sublist ks' := by
  obtain ⟨k₁, k₂, heq, h₁, h₂⟩ := List.sublist_append_iff.mp h
  obtain ⟨l, l', hl, rfl, rfl⟩ := List.map_eq_append_iff.mp heq
  exact ⟨l, l', hl, h₁, h₂⟩

theorem kind_mem {l : List Policy} {ks : List PolicyKind} (h : (l.map Policy.kind).Sublist ks) {p : Policy} (hp : p ∈ l) :
    p.kind ∈ ks := h.subset (List.mem_map_of_mem hp)

/-- States that are `ok` lead to such states, and a retry may lead to `WAITING`. -/
theorem chain_afterTaskComplete (spec : WorkflowSpec) (hown : sc.own = some task.id) (hlate : ∀ a, ok a → late a ∧ a ≠ .skipped ∧ a ≠ .waiting)
    (hd : ok .runningDelayed) (he : ok .error) (s : Engine) :
    Ends (afterTaskComplete spec o task) s (fun _ => ChainsTo sc late ok (fun a => ok a ∨ a = .waiting) task.id s)
      fun _ => ChainsTo sc late ok (fun a => ok a ∨ a = .waiting) task.id s := by
  -- `wait-after` comes before `retry`, which may put the task into `WAITING`.
  obtain ⟨l, l', hsplit, hl, hl'⟩ := split_kinds [.pauseBefore, .waitBefore, .waitAfter, .failOn]
    (buildPolicies_kinds spec task.spec)
  have hweak : ∀ {s s' : Engine}, Chains sc late ok task.id s s' →
      ChainsTo sc late ok (fun a => ok a ∨ a = .waiting) task.id s s' := fun h => h.mono (fun _ => id) fun _ => .inl
  have hfirst : KeptChain sc late ok task.id (l.forM (·.afterTaskComplete o task)) := by
    refine .forM fun p hp => .bind (chain_evaluateAt o _) fun _ => ?_
    cases p with
    | waitAfter delay => exact chain_waitAfter hown hlate hd delay
    | failOn expr => exact chain_failOn he expr
    | retry r => exact absurd (kind_mem hl hp) (by simp [Policy.kind])
    | _ => exact .pure _
  have hsecond : KeptChain sc late (fun a => ok a ∨ a = .waiting) task.id (l'.forM (·.afterTaskComplete o task)) := by
    refine .forM fun p hp => .bind (chain_evaluateAt o _) fun _ => ?_
    cases p with
    | waitAfter delay => exact absurd (kind_mem hl' hp) (by simp [Policy.kind])
    | failOn expr => exact chain_failOn (.inl he) expr
    | retry r => exact chain_retry hown (.inr rfl) (.inl hd) r
    | _ => exact .pure _
  rw [afterTaskComplete, hsplit, List.forM_eq_forM, List.forM_append]
  have hthen : ∀ {s s' s''}, Chains sc late ok task.id s s' → Chains sc late (fun a => ok a ∨ a = .waiting) task.id s' s'' →
      ChainsTo sc late ok (fun a => ok a ∨ a = .waiting) task.id s s'' := fun h h' => (hweak h).trans h'
  exact Ends.bind (hfirst s) (fun _ s' h => (hsecond s').mono (fun _ _ => hthen h) fun _ _ => hthen h) fun _ _ => hweak

end

/-! ### Completion -/

section
variable {spec : WorkflowSpec} {ls : ListSort} {o : Oracle} {task : Task} {t : TaskId}

theorem chain_updateInboundContext : KeptChain sc late ok task.id (updateInboundContext spec o task) := by
  refine .bind .get fun s => ?_
  split
  · exact .throw _
  · exact chain_setRow fun _ => by rfl

/-- After the new state of the task come publishing and the policies. -/
theorem chain_afterSetState (hown : sc.own = some task.id) (hlate : ∀ a, ok a → late a ∧ a ≠ .skipped ∧ a ≠ .waiting)
    (hd : ok .runningDelayed) (herr : ok .error) {state : State} (hs : state ≠ .skipped) (s : Engine) :
    Ends (do
        updateInboundContext spec o task
        evaluateAt o (.publish task.id)
        if !task.spec.keepResult then setRow task.id (·.destroyResult)
        if !state.isSkipped then afterTaskComplete spec o task) s
      (fun _ => ChainsTo sc late ok (fun a => ok a ∨ a = .waiting) task.id s)
      fun _ => ChainsTo sc late ok (fun a => ok a ∨ a = .waiting) task.id s := by
  have hout : ∀ a, ok a → ok a ∨ a = .waiting := fun _ => .inl
  refine KeptChain.bindTo hout chain_updateInboundContext (fun _ => KeptChain.bindTo hout (chain_evaluateAt o _)
    fun _ s => ?_) s
  have hafter := chain_afterTaskComplete (o := o) spec hown hlate hd herr
  have hns : state.isSkipped = false := by simpa [State.isSkipped] using hs
  simp only [hns, Bool.not_false, if_true]
  split
  · exact KeptChain.bindTo hout (chain_setRow fun _ => by rfl) (fun _ => hafter) s
  · exact hafter s

/-- The new state and the policies are one chain. -/
theorem chain_enterState (hown : sc.own = some task.id) (hlate : ∀ a, ok a → late a ∧ a ≠ .skipped ∧ a ≠ .waiting)
    (hd : ok .runningDelayed) (herr : ok .error) {state : State} (hstate : ok state) {info : Option String} (s : Engine) :
    Ends (enterState spec o task state info) s
      (fun _ => ChainsTo sc late (¬·.isCompleted) (fun a => ok a ∨ a = .waiting) task.id s)
      fun _ => ChainsTo sc late (¬·.isCompleted) (fun a => ok a ∨ a = .waiting) task.id s := by
  obtain ⟨-, hs, hw⟩ := hlate _ hstate
  -- The first link leads to `state`, where `wait-after` finds the task.
  have hset : Ends (setState task.id state info) s (fun _ => ChainsTo sc late (¬·.isCompleted) ok task.id s)
      fun _ => ChainsTo sc late (¬·.isCompleted) (fun a => ok a ∨ a = .waiting) task.id s := by
    have hout : ∀ a, a = state → ok a := fun a h => h ▸ hstate
    refine setState_iff.mpr ⟨fun e he _ v hv ha => ?_, fun e he hd v hv ha => ?_, fun hn v hv _ => ?_⟩
    · obtain rfl := Option.some.inj ((Engine.view_of_row he).symm.trans hv)
      have hrow : ChainsTo sc late (¬·.isCompleted) (· = state) task.id s
          ((s.setRow task.id fun _ => e.withState state info none).emit (.taskState task.id e.state state)) :=
        .of_row he rfl rfl (.link (fun h => absurd h ha) fun h => absurd h hw) rfl (by simp) rfl rfl rfl
      rw [setRow_const he]
      exact hrow.mono (fun _ => id) hout _ hv ha
    · obtain rfl := Option.some.inj ((Engine.view_of_row he).symm.trans hv)
      simp only [TaskEx.differs, Bool.or_eq_true, bne_iff_ne, ne_eq, not_or, not_not] at hd
      exact (ChainsTo.refl s).mono (fun _ => id) hout _ hv hd.1
    · obtain ⟨e, he, _⟩ := Engine.row_of_view hv
      cases hn.symm.trans he
  unfold enterState
  refine Ends.bind hset (fun _ s' h => ?_) fun _ _ h => h
  exact (chain_afterSetState hown hlate hd herr hs s').mono (fun _ _ => h.trans) fun _ _ => h.trans

/-- `complete` sets the state of a task that is not completed, or skips it. -/
theorem evolves_enterState (hown : sc.own = some task.id) {state : State} {info : Option String}
    (hw : state ≠ .waiting) {s : Engine} {e : TaskEx} (he : s.tasks[task.id]? = some e)
    (h : ¬e.state.isCompleted ∨ state = .skipped) :
    Ends (enterState spec o task state info) s (fun _ => Evolves sc s) fun _ => Evolves sc s := by
  by_cases hs : state = .skipped
  · subst hs
    refine Kept.bind (kept_setState_completed hown rfl) (fun _ => ?_) s
    refine .bind (kept_updateInboundContext spec o task) fun _ => .bind (kept_evaluateAt o _) fun _ => ?_
    simp only [State.isSkipped, beq_self_eq_true, Bool.not_true, Bool.false_eq_true, if_false]
    split
    · exact .bind (kept_setRow fun _ => by rfl) fun _ => .pure _
    · exact .pure _
  · have hv := Engine.view_of_row he
    have hopen := h.resolve_right hs
    have hmove : ∀ {s'}, ChainsTo sc (fun _ => True) (¬·.isCompleted)
        (fun a => (a ≠ .skipped ∧ a ≠ .waiting) ∨ a = .waiting) task.id s s' → Evolves sc s s' := fun h =>
      let ⟨_, _, _, c⟩ := h _ hv hopen
      c.evolves hv hown hopen
    exact (chain_enterState hown (fun _ h => ⟨trivial, h⟩) ⟨nofun, nofun⟩ ⟨nofun, nofun⟩ ⟨hs, hw⟩ s).mono
      (fun _ _ => hmove) fun _ _ => hmove

theorem evolves_setProcessed {dispatched : Bool} {e : TaskEx}
    (hd : dispatched → sc.own = some t ∨ sc.whole ∧ e.state.isCompleted)
    (hm : dispatched = false → sc.marks ∧ e.state.isCompleted ∧ e.processed = false) {s : Engine} (he : s.tasks[t]? = some e) :
    Ends (setProcessed dispatched t e) s (fun _ => Evolves sc s) fun _ => Evolves sc s := by
  simp only [setProcessed, emit, setRow, Ends.bind_iff, Ends.get_iff, Ends.modify_iff]
  refine .of_move (t := t) (w := [if dispatched then .continued t e.state e.processed s.wf.state else .marked t]) ?_ ?_ rfl
    (fun u hu => by rw [Engine.view_setRow_ne hu, Engine.view_emit]) rfl rfl rfl
  · rw [Engine.view_of_row he, Engine.view_setRow_self (by exact he)]
    cases dispatched with
    | true => exact .continued (hd rfl)
    | false => exact .marked (hm rfl).1 (hm rfl).2.1 (hm rfl).2.2
  · cases dispatched <;> simp [Event.task]

theorem kept_dispatchNext (hown : sc.own = some t) {cmds : List Cmd} (h : ∀ cmd ∈ cmds, sc.CmdOk cmd) :
    Kept sc (dispatchNext spec ls o t cmds) := by
  intro s
  unfold dispatchNext
  rw [Ends.bind_iff, taskEx_iff]
  refine ⟨fun e he => ?_, fun _ => .refl s⟩
  refine Ends.bind (evolves_setProcessed (fun _ => .inl hown) (by nofun) he) (fun _ s' h' => ?_) fun _ _ h => h
  refine (Kept.bind (kept_registerWorkflowCompletionCheck t) (fun _ => ?_) s').mono (fun _ _ => h'.trans)
    fun _ _ => h'.trans
  exact kept_dispatchWorkflowCommands spec o ls (fun _ _ => .throw _) h

theorem kept_continueAfterCompletion (hown : sc.own = some t) : Kept sc (continueAfterCompletion spec ls o t) := by
  refine .bind (kept_taskEx t) fun e => ?_
  split
  · exact .pure _
  refine .bind .get fun s₀ s => ?_
  rw [Ends.bind_iff, ofExcept_iff]
  refine ⟨fun cmds hcmds => ?_, fun _ _ => .refl s⟩
  refine Kept.bind (kept_emit rfl) (fun _ => .bind (kept_setRow fun _ => by rfl) fun _ => .bind .get fun s₁ => ?_) s
  split
  · exact .pure _
  · exact kept_dispatchNext hown (cmdOk_continueWorkflow hcmds)

theorem kept_complete (hown : sc.own = some task.id) {state : State} {info : Option String} (hw : state ≠ .waiting) :
    Kept sc (complete spec ls o task state info) := by
  intro s
  unfold complete
  rw [Ends.bind_iff, taskEx_iff]
  refine ⟨fun e he => ?_, fun _ => .refl s⟩
  split
  · exact .refl s
  next h =>
  have h : ¬e.state.isCompleted ∨ state = .skipped := by
    by_cases hc : e.state.isCompleted
    · exact .inr (by simpa [hc, State.isSkipped] using h)
    · exact .inl hc
  exact Ends.bind (evolves_enterState hown hw he h)
    (fun _ s' h' => (kept_continueAfterCompletion hown s').mono (fun _ _ => h'.trans) fun _ _ => h'.trans)
    fun _ _ h => h

/-! ### Starting actions -/

theorem kept_scheduleAction (hown : sc.own = some task.id) (i : Nat) : Kept sc (scheduleAction o task i) := by
  refine .bind (.modify fun s => ?_) fun _ => ?_
  · exact .of_move (w := [.actionScheduled task.id i]) (.scheduled hown) (by simp [Event.task]) rfl (fun _ _ => rfl) rfl
      rfl rfl
  split
  · exact .modify fun _ => .of_eq rfl (fun _ => rfl) rfl rfl rfl
  · exact kept_setRow fun _ => by rfl

theorem view_decreaseCapacity {e e' : TaskEx} (h : e.decreaseCapacity = some e') : e'.view = e.view := by
  unfold TaskEx.decreaseCapacity at h
  split at h
  · cases h
    rfl
  · split at h <;> cases h
    rfl

theorem evolves_decreaseCapacity {s : Engine} {e e' : TaskEx} (he : s.tasks[t]? = some e)
    (h : e.decreaseCapacity = some e') : Evolves sc s (s.setRow t fun _ => e') := by
  refine .of_eq rfl (fun u => ?_) rfl rfl rfl
  rcases eq_or_ne u t with rfl | hu
  · rw [Engine.view_setRow_self he, Engine.view_of_row he, view_decreaseCapacity h]
  · exact Engine.view_setRow_ne hu

theorem kept_scheduleFailed (hown : sc.own = some task.id) (i : Nat) : Kept sc (scheduleFailed spec ls o task i) := by
  unfold scheduleFailed
  split
  · exact .throw _
  · exact kept_complete hown nofun

theorem kept_scheduleItems (hown : sc.own = some task.id) (is : List Nat) :
    Kept sc (scheduleItems spec ls o task is) := by
  induction is with
  | nil => exact .pure _
  | cons i is ih =>
    unfold scheduleItems
    split
    · exact kept_scheduleFailed hown i
    refine .bind (kept_scheduleAction hown i) fun _ s => ?_
    rw [Ends.bind_iff, taskEx_iff]
    refine ⟨fun e he => ?_, fun _ => .refl s⟩
    split
    · exact .refl s
    next e' hdec =>
    have hset : Evolves sc s (s.setRow task.id fun _ => e') := evolves_decreaseCapacity he hdec
    rw [setRow, Ends.bind_iff, Ends.modify_iff]
    exact (ih _).mono (fun _ _ => hset.trans) fun _ _ => hset.trans

theorem kept_scheduleWithItems (hown : sc.own = some task.id) : Kept sc (scheduleWithItems spec ls o task) := by
  have hprep : ∀ e : TaskEx, (e.prepareRuntimeContext (o.items task.id)).view = e.view := fun e => by
    unfold TaskEx.prepareRuntimeContext
    split <;> rfl
  refine .bind (kept_evaluateAt o _) fun _ => .bind (kept_setRow hprep) fun _ => .bind (kept_taskEx _) fun e => ?_
  split
  · exact kept_complete hown nofun
  · exact kept_scheduleItems hown _

theorem kept_scheduleActions (hown : sc.own = some task.id) : Kept sc (scheduleActions spec ls o task) := by
  unfold scheduleActions
  split
  · exact kept_scheduleWithItems hown
  refine .bind (kept_evaluateAt o _) fun _ => ?_
  split
  · exact kept_scheduleFailed hown 0
  · exact kept_scheduleAction hown 0

end

/-! ### Policies before a task starts

They run while the task is not completed, and leave it so. -/

/-- From a state in which the task execution `t` is not completed, it evolves to one in which it is not. -/
def Opens (sc : Scope) (t : TaskId) (s s' : Engine) : Prop :=
  (∀ v, s.view t = some v → ¬v.state.isCompleted) → Evolves sc s s' ∧ ∀ v, s'.view t = some v → ¬v.state.isCompleted

theorem Opens.refl {t : TaskId} (s : Engine) : Opens sc t s s := fun h => ⟨.refl s, h⟩

theorem Opens.trans {t : TaskId} {s s' s'' : Engine} (h : Opens sc t s s') (h' : Opens sc t s' s'') :
    Opens sc t s s'' := fun ho => ⟨(h ho).1.trans (h' (h ho).2).1, (h' (h ho).2).2⟩

theorem Opens.of_view {t : TaskId} {s s' : Engine} (h : Evolves sc s s') (hview : s'.view t = s.view t) :
    Opens sc t s s' := fun ho => ⟨h, by rwa [hview]⟩

/-- However `m` ends, `t` is not completed if it was not before. -/
abbrev KeptOpen (sc : Scope) (t : TaskId) (m : M α) : Prop := Ends.Keeps (Opens sc t) m

namespace KeptOpen
variable {β : Type} {t : TaskId}

protected theorem pure (a : α) : KeptOpen sc t (pure a) := Ends.Keeps.pure Opens.refl a

protected theorem bind {m : M α} {f : α → M β} (hm : KeptOpen sc t m) (hf : ∀ a, KeptOpen sc t (f a)) :
    KeptOpen sc t (m >>= f) := Ends.Keeps.bind Opens.trans hm hf

protected theorem forM {ι : Type} {l : List ι} {g : ι → M PUnit} (hg : ∀ i ∈ l, KeptOpen sc t (g i)) :
    KeptOpen sc t (l.forM g) := Ends.Keeps.forM Opens.refl Opens.trans hg

end KeptOpen

section
variable {spec : WorkflowSpec} {ls : ListSort} {o : Oracle} {task : Task} {t : TaskId}

theorem open_evaluateAt (site : Site) : KeptOpen sc t (evaluateAt o site) := by
  unfold evaluateAt
  split
  · exact fun s => .refl s
  · exact .pure _

theorem open_taskEx : KeptOpen sc t (taskEx t) := fun s => taskEx_iff.mpr ⟨fun _ _ => .refl s, fun _ => .refl s⟩

theorem open_setRow {f : TaskEx → TaskEx} (hf : ∀ e, (f e).view = e.view) : KeptOpen sc t (setRow t f) :=
  fun _ => .of_view (.of_eq rfl (fun _ => Engine.view_setRow_quiet hf) rfl rfl rfl) (Engine.view_setRow_quiet hf)

theorem open_schedule {j : Job} (hj : sc.JobOk j) : KeptOpen sc t (schedule j) := fun _ => .of_view (.of_job hj) rfl

theorem open_pauseWorkflow (msg : Option String) : KeptOpen sc t (pauseWorkflow msg) := by
  intro s
  have h : Ends (pauseWorkflow msg) s (fun _ => Evolves sc s) fun _ => Evolves sc s := kept_pauseWorkflow msg s
  have hview : Ends (pauseWorkflow msg) s (fun _ s' => s'.view t = s.view t) fun _ s' => s'.view t = s.view t := by
    simp only [pauseWorkflow, setWfState, emit, Ends.bind_iff, Ends.get_iff, Ends.ite_iff, Ends.pure_iff,
      Ends.modify_iff, Ends.throw_iff]
    simp [Engine.view, Engine.setWf, Engine.emit]
  exact (h.and hview).mono (fun _ _ h => .of_view h.1 h.2) fun _ _ h => .of_view h.1 h.2

theorem open_setState (hown : sc.own = some t) {b : State} {info : Option String} (hb : ¬b.isCompleted)
    (hw : b ≠ .waiting) : KeptOpen sc t (setState t b info) := by
  intro s
  by_cases ho : ∀ v, s.view t = some v → ¬v.state.isCompleted
  · refine ((setState_moves fun v hv => .change hown (fun h => absurd h (ho v hv)) fun h => absurd h hw).and
      (?_ : Ends _ s (fun _ s' => ∀ v, s'.view t = some v → ¬v.state.isCompleted)
        fun _ s' => ∀ v, s'.view t = some v → ¬v.state.isCompleted)).mono ?_ ?_
    · refine setState_iff.mpr ⟨fun e he _ v hv => ?_, fun _ _ _ => ho, fun _ => ho⟩
      rw [Engine.view_emit, Engine.view_setRow_self he] at hv
      cases hv
      exact hb
    · exact fun _ _ h _ => ⟨h.1.1, h.2⟩
    · exact fun _ _ h _ => h
  · exact .of_forall (fun _ _ h => absurd h ho) fun _ _ h => absurd h ho

theorem open_beforeTaskStart (hown : sc.own = some task.id) : KeptOpen sc task.id (beforeTaskStart spec o task) := by
  refine .forM fun p _ => ?_
  have heval : KeptOpen sc task.id (evaluateAt o (.policy task.id p.kind)) := open_evaluateAt _
  cases p with
  | failOn expr => exact .pure _
  | pauseBefore expr =>
    refine .bind heval fun _ => ?_
    simp only [pauseBeforeTaskStart]
    split
    · exact .bind (open_setState hown nofun nofun) fun _ => open_pauseWorkflow _
    · exact .pure _
  | waitBefore delay =>
    refine .bind heval fun _ => ?_
    simp only [waitBeforeTaskStart]
    split
    · exact .pure _
    refine .bind open_taskEx fun e => ?_
    split
    · exact open_setState hown nofun nofun
    split
    · exact .bind (open_setRow fun _ => by rfl) fun _ => .bind (open_setState hown nofun nofun) fun _ =>
        open_schedule hown
    · exact .pure _
  | timeout delay =>
    refine .bind heval fun _ => ?_
    simp only [timeoutBeforeTaskStart]
    split
    · exact open_schedule hown
    · exact .pure _
  | concurrency n =>
    refine .bind heval fun _ => ?_
    simp only [concurrencyBeforeTaskStart]
    split
    · exact open_setRow fun _ => by rfl
    · exact .pure _
  | waitAfter | retry => exact .bind heval fun _ => .pure _

/-! ### Running a task -/

/-- The task is in `RUNNING` and its policies come next. -/
theorem evolves_beforeTaskStart (hown : sc.own = some task.id) {s : Engine} {v : View} (hv : s.view task.id = some v)
    (hr : v.state = .running) :
    Ends (beforeTaskStart spec o task) s (fun _ => Evolves sc s) fun _ => Evolves sc s := by
  have ho : ∀ v', s.view task.id = some v' → ¬v'.state.isCompleted := by
    rintro v' hv'
    obtain rfl := Option.some.inj (hv.symm.trans hv')
    simp [hr]
  exact (open_beforeTaskStart hown s).mono (fun _ _ h => (h ho).1) fun _ _ h => (h ho).1

theorem kept_runNew (hown : sc.own = some task.id) : Kept sc (runNew spec ls o task) := by
  intro s
  unfold runNew
  split
  · exact .refl s
  rw [Ends.bind_iff, taskEx_iff]
  refine ⟨fun e he => ?_, fun _ => .refl s⟩
  split
  case isFalse => exact .refl s
  next hidle =>
  have hidle : e.state = .idle := by simpa [State.isIdle] using hidle
  refine Kept.of_bind (setState_moves fun v hv => ?_) fun _ s' ⟨v, hv, hr⟩ => ?_
  · obtain rfl := Option.some.inj ((Engine.view_of_row he).symm.trans hv)
    exact .change hown (by simp [TaskEx.view, hidle]) nofun
  refine Ends.bind (evolves_beforeTaskStart hown hv hr) (fun _ s'' h => ?_) fun _ _ h => h
  refine (Kept.bind (kept_taskEx _) (fun e' => ?_) s'').mono (fun _ _ => h.trans) fun _ _ => h.trans
  split
  · exact .pure _
  · exact kept_scheduleActions hown

theorem kept_restartActions (hown : sc.own = some task.id) : Kept sc (restartActions spec ls o task) :=
  .bind (kept_updateInboundContext spec o task) fun _ => .bind (kept_updateTriggeredBy task) fun _ =>
    .bind (kept_setRow fun _ => by rfl) fun _ => kept_scheduleActions hown

theorem evolves_runExisting (hown : sc.own = some task.id) {s : Engine}
    (h : ∀ v, s.view task.id = some v → v.state ≠ .success → v.state.isCompleted → v.processed = false → sc.loses) :
    Ends (runExisting spec ls o task) s (fun _ => Evolves sc s) fun _ => Evolves sc s := by
  unfold runExisting
  split
  · exact .refl s
  rw [Ends.bind_iff, taskEx_iff]
  refine ⟨fun e he => ?_, fun _ => .refl s⟩
  split
  · exact Evolves.refl s
  next hns =>
  have hloses : ∀ v, s.view task.id = some v → v.state.isCompleted → v.processed = false → sc.loses := by
    intro v hv
    obtain rfl := Option.some.inj ((Engine.view_of_row he).symm.trans hv)
    exact h _ hv hns
  refine Kept.of_bind (setState_reopens hown hloses) fun _ s' ⟨v, hv, hr⟩ => ?_
  dsimp only
  split
  · refine Ends.bind (evolves_beforeTaskStart hown hv hr) (fun _ s'' h => ?_) fun _ _ h => h
    refine (Kept.bind (kept_taskEx _) (fun e' => ?_) s'').mono (fun _ _ => h.trans) fun _ _ => h.trans
    split
    · exact .pure _
    · exact kept_restartActions hown
  · exact kept_restartActions hown s'

theorem evolves_run (hown : sc.own = some task.id) {firstRun : Bool} {s : Engine}
    (h : firstRun = false → ∀ v, s.view task.id = some v → v.state ≠ .success → v.state.isCompleted →
      v.processed = false → sc.loses) :
    Ends (run spec ls o task firstRun) s (fun _ => Evolves sc s) fun _ => Evolves sc s := by
  unfold run
  cases firstRun with
  | true => exact kept_runNew hown s
  | false => exact evolves_runExisting hown (h rfl)

theorem kept_taskOnActionComplete (hown : sc.own = some task.id) (x : Execution) :
    Kept sc (taskOnActionComplete spec ls o task x) := by
  have hfinal : ∀ e : TaskEx, e.getFinalState ≠ .waiting := fun e => by
    unfold TaskEx.getFinalState
    split
    · exact nofun
    · split <;> exact nofun
  have hcap : ∀ e : TaskEx, e.increaseCapacity.view = e.view := fun e => by
    unfold TaskEx.increaseCapacity
    split
    · split <;> rfl
    · rfl
  unfold taskOnActionComplete
  split
  · refine .bind (kept_taskEx _) fun e => ?_
    split
    · exact .pure _
    refine .bind (kept_setRow hcap) fun _ => .bind (kept_taskEx _) fun e => ?_
    split
    · exact kept_complete hown (hfinal e)
    split
    · exact kept_scheduleWithItems hown
    · exact .pure _
  · exact kept_complete hown x.notTask.1

end
end Mistral
