import Mistral.Services.CronTriggers

/-! Cron triggers fire once per tick, and each is written only for itself. -/

namespace Mistral

/-! ### Versions of a trigger -/

/-- An execution more has been used. -/
def Fewer : Option Nat → Option Nat → Prop
  | none, none => True
  | some m, some n => m < n
  | _, _ => False

/-- The row `u` is the row `t`, or what it has become at a later tick. -/
def Later (t u : CronTrigger) : Prop :=
  t.nextExecutionTime = u.nextExecutionTime ∧ t.remainingExecutions = u.remainingExecutions ∨
    t.nextExecutionTime < u.nextExecutionTime ∧ Fewer u.remainingExecutions t.remainingExecutions

/-- Two starts are for different triggers, or for different ticks and different executions. -/
def Apart (t u : CronTrigger) : Prop :=
  t.id = u.id → t.nextExecutionTime ≠ u.nextExecutionTime ∧
    (t.remainingExecutions = u.remainingExecutions → t.remainingExecutions = none)

section
variable {a b c : Option Nat} {t u v : CronTrigger}

theorem Fewer.trans (h : Fewer a b) (h' : Fewer b c) : Fewer a c := by
  cases a <;> cases b <;> cases c <;> simp only [Fewer] at *
  omega

theorem Later.refl (t : CronTrigger) : Later t t := .inl ⟨rfl, rfl⟩

theorem Later.trans (h : Later t u) (h' : Later u v) : Later t v := by
  rcases h with ⟨htime, hrem⟩ | ⟨htime, hrem⟩ <;> rcases h' with ⟨htime', hrem'⟩ | ⟨htime', hrem'⟩
  · exact .inl ⟨htime.trans htime', hrem.trans hrem'⟩
  · exact .inr ⟨htime ▸ htime', hrem ▸ hrem'⟩
  · exact .inr ⟨htime' ▸ htime, hrem' ▸ hrem⟩
  · exact .inr ⟨htime.trans htime', hrem'.trans hrem⟩

theorem Later.le (h : Later t u) : t.nextExecutionTime ≤ u.nextExecutionTime := by
  rcases h with ⟨htime, -⟩ | ⟨htime, -⟩ <;> omega

theorem Later.remaining_eq (h : Later t u) (htime : u.nextExecutionTime = t.nextExecutionTime) :
    t.remainingExecutions = u.remainingExecutions := by
  rcases h with ⟨-, hrem⟩ | ⟨hlt, -⟩
  · exact hrem
  · omega

theorem Apart.symm (h : Apart t u) : Apart u t := fun hid => by
  obtain ⟨htime, hrem⟩ := h hid.symm
  exact ⟨htime.symm, fun heq => heq.trans (hrem heq.symm)⟩

theorem fewer_decrement (h : t.remainingExecutions ≠ some 0) :
    Fewer t.decrement.remainingExecutions t.remainingExecutions := by
  unfold CronTrigger.decrement
  rcases hr : t.remainingExecutions with _ | n
  · trivial
  · have hn : n ≠ 0 := fun hn => h (hn ▸ hr)
    show n - 1 < n
    omega

end

/-! ### Triggers that are in the way -/

/-- The name of `t` leads to the row `u` of another trigger, which the project may delete if it is the last execution of
    `t`, and which is not past the tick of `t` otherwise. -/
def CronTrigger.InTheWay (t u : CronTrigger) : Prop :=
  u.id ≠ t.id ∧ t.finds u ∧
    if t.decrement.remainingExecutions = some 0 then u.projectId = t.projectId
    else u.nextExecutionTime ≤ t.nextExecutionTime

/-- Whenever a trigger is processed, no other one is in the way. -/
def NoneInTheWay (s : CronState) : CronStep → Prop
  | .advance engine _ _ => ∀ t rest, s.cycles engine = ⟨t :: rest, .idle⟩ → ∀ u ∈ s.triggers, ¬t.InTheWay u
  | _ => True

/-! ### The invariant -/

section
variable (s₀ s : CronState) (t : CronTrigger)

/-- A copy of a row, as it is or as it was. -/
structure Copy : Prop where
  positive : t.remainingExecutions ≠ some 0
  origin : ∀ r ∈ s₀.triggers, r.id = t.id → Later r t
  row : ∀ r ∈ s.triggers, r.id = t.id → Later t r

/-- The row has been advanced past the tick of a workflow that has started or will. -/
structure Won : Prop where
  origin : ∀ r ∈ s₀.triggers, r.id = t.id → Fewer t.remainingExecutions r.remainingExecutions
  row : ∀ r ∈ s.triggers, r.id = t.id → t.nextExecutionTime < r.nextExecutionTime ∧
    (r.remainingExecutions = t.remainingExecutions ∨ Fewer r.remainingExecutions t.remainingExecutions)

/-- What holds of the trigger that an engine processes. An `UPDATE` that found the row of another trigger is too late. -/
def PhaseOk : Phase → Prop
  | .idle => True
  | .delete t id => id = t.id ∧ t.remainingExecutions = some 0 ∧ ∃ c, t = c.decrement ∧ Copy s₀ s c
  | .update t id nextTime =>
    t.remainingExecutions ≠ some 0 ∧ t.nextExecutionTime < nextTime ∧ (∃ c, t = c.decrement ∧ Copy s₀ s c) ∧
      (id = t.id ∨ ∀ r ∈ s.triggers, r.id = id → t.nextExecutionTime < r.nextExecutionTime)
  | .start t => Won s₀ s t

/-- The invariant of a run from `s₀`: all that is known of triggers are copies of its rows, advanced, and no two
    starts are for one time of one trigger. -/
structure CronInv : Prop where
  ids : (s.triggers.map fun t => t.id).Nodup
  rows : ∀ r ∈ s.triggers, Copy s₀ s r
  copies : ∀ e, ∀ c ∈ (s.cycles e).pending, Copy s₀ s c
  phases : ∀ e, PhaseOk s₀ s (s.cycles e).phase
  started : ∀ t ∈ s.starts, Won s₀ s t
  apart : s.starts.Pairwise Apart
  apartStarting : ∀ e t, (s.cycles e).phase = .start t → ∀ u ∈ s.starts, Apart u t
  apartEngines : ∀ e e' t t', e ≠ e' → (s.cycles e).phase = .start t → (s.cycles e').phase = .start t' → Apart t t'

/-- The rows of `s` come from those of `s₀`, by advancing. -/
def RowsAdvance : Prop := ∀ r ∈ s.triggers, ∃ r' ∈ s₀.triggers, r'.id = r.id ∧ Later r' r

end

section
variable {s₀ s s' : CronState} {t c : CronTrigger} {phase : Phase}

theorem Copy.mono (h : Copy s₀ s t) (hadv : RowsAdvance s s') : Copy s₀ s' t where
  positive := h.positive
  origin := h.origin
  row r hr hid := by
    obtain ⟨r', hr', hid', hlater⟩ := hadv r hr
    exact (h.row r' hr' (hid'.trans hid)).trans hlater

theorem Won.mono (h : Won s₀ s t) (hadv : RowsAdvance s s') : Won s₀ s' t where
  origin := h.origin
  row r hr hid := by
    obtain ⟨r', hr', hid', hlater⟩ := hadv r hr
    obtain ⟨htime, hrem⟩ := h.row r' hr' (hid'.trans hid)
    refine ⟨Nat.lt_of_lt_of_le htime hlater.le, ?_⟩
    rcases hlater with ⟨-, heq⟩ | ⟨-, hfewer⟩
    · rwa [← heq]
    · rcases hrem with heq | hfewer'
      · exact .inr (heq ▸ hfewer)
      · exact .inr (hfewer.trans hfewer')

theorem PhaseOk.mono (h : PhaseOk s₀ s phase) (hadv : RowsAdvance s s') : PhaseOk s₀ s' phase := by
  cases phase with
  | idle => trivial
  | delete t id =>
    obtain ⟨hid, hrem, c, hc, hcopy⟩ := h
    exact ⟨hid, hrem, c, hc, hcopy.mono hadv⟩
  | update t id nextTime =>
    obtain ⟨hrem, htime, ⟨c, hc, hcopy⟩, hrow⟩ := h
    refine ⟨hrem, htime, ⟨c, hc, hcopy.mono hadv⟩, hrow.imp_right fun hlate r hr hid => ?_⟩
    obtain ⟨r', hr', hid', hlater⟩ := hadv r hr
    exact Nat.lt_of_lt_of_le (hlate r' hr' (hid'.trans hid)) hlater.le
  | start t => exact Won.mono h hadv

theorem RowsAdvance.of_eq (h : s'.triggers = s.triggers) : RowsAdvance s s' := fun r hr => ⟨r, h ▸ hr, rfl, .refl r⟩

/-- The workflow of a copy may start once the row is past its tick. -/
theorem Copy.won (h : Copy s₀ s c)
    (hrow : ∀ r ∈ s'.triggers, r.id = c.id → c.nextExecutionTime < r.nextExecutionTime ∧
      r.remainingExecutions = c.decrement.remainingExecutions) : Won s₀ s' c.decrement where
  origin r hr hid := by
    have hfewer := fewer_decrement h.positive
    rcases h.origin r hr hid with ⟨-, heq⟩ | ⟨-, hfewer'⟩
    · rwa [heq]
    · exact hfewer.trans hfewer'
  row r hr hid := ⟨(hrow r hr hid).1, .inl (hrow r hr hid).2⟩

/-- What has started or will is apart from what the row lets start at its tick. -/
theorem Won.apart {u r : CronTrigger} (h : Won s₀ s u) (hcopy : Copy s₀ s c) (hr : r ∈ s.triggers) (hid : r.id = c.id)
    (htime : r.nextExecutionTime = c.nextExecutionTime) : Apart u c.decrement := by
  intro huid
  obtain ⟨hlt, hrem⟩ := h.row r hr (hid.trans huid.symm)
  have heq : c.remainingExecutions = r.remainingExecutions := (hcopy.row r hr hid).remaining_eq htime
  refine ⟨fun hu => ?_, fun hu => ?_⟩
  · have hu : u.nextExecutionTime = c.nextExecutionTime := hu
    omega
  · have hpositive := hcopy.positive
    have hu : u.remainingExecutions = c.remainingExecutions.map (· - 1) := hu
    rcases hc : c.remainingExecutions with _ | n
    · rw [hu, hc]
      rfl
    · rw [hc] at heq hu hpositive
      rw [← heq, hu] at hrem
      have hn : n ≠ 0 := fun hn => hpositive (congrArg some hn)
      rcases hrem with hn' | hn'
      · have hn' : n = n - 1 := Option.some.inj hn'
        omega
      · have hn' : n < n - 1 := hn'
        omega

/-! ### Steps -/

theorem CronInv.next (h : CronInv s₀ s) (e : Nat) (c : Cycle) (triggers : List CronTrigger)
    (hs' : s' = { s.setCycle e c with triggers }) (hadv : RowsAdvance s s') (hids : (triggers.map fun t => t.id).Nodup)
    (hpositive : ∀ r ∈ triggers, r.remainingExecutions ≠ some 0) (hpending : ∀ t ∈ c.pending, Copy s₀ s t)
    (hphase : PhaseOk s₀ s' c.phase) (hapart : ∀ t, c.phase = .start t → ∀ u, Won s₀ s u → Apart u t) :
    CronInv s₀ s' := by
  have hcycle : ∀ e', s'.cycles e' = if e' = e then c else s.cycles e' := fun e' => by
    rw [hs']
    exact Function.update_apply ..
  have htriggers : s'.triggers = triggers := by rw [hs']
  have hstarts : s'.starts = s.starts := by rw [hs']; rfl
  have hwon : ∀ e' t, e' ≠ e → (s'.cycles e').phase = .start t → (s.cycles e').phase = .start t := by
    intro e' t hne ht
    rwa [hcycle, if_neg hne] at ht
  have hsame : ∀ t, (s'.cycles e).phase = .start t → c.phase = .start t := by
    intro t ht
    rwa [hcycle, if_pos rfl] at ht
  refine ⟨htriggers ▸ hids, fun r hr => ?_, fun e' t ht => ?_, fun e' => ?_, fun t ht => ?_, hstarts ▸ h.apart,
    fun e' t ht u hu => ?_, fun e' e'' t t' hne ht ht' => ?_⟩
  · refine ⟨hpositive r (htriggers ▸ hr), fun r₀ hr₀ hid => ?_, fun r' hr' hid => ?_⟩
    · obtain ⟨r', hr', hid', hlater⟩ := hadv r hr
      exact ((h.rows r' hr').origin r₀ hr₀ (hid.trans hid'.symm)).trans hlater
    · rw [htriggers] at hr hr'
      rw [List.inj_on_of_nodup_map hids hr hr' hid.symm]
      exact .refl r'
  · rw [hcycle] at ht
    split at ht
    · exact (hpending t ht).mono hadv
    · exact (h.copies e' t ht).mono hadv
  · rw [hcycle]
    split
    · exact hphase
    · exact (h.phases e').mono hadv
  · exact (h.started t (hstarts ▸ ht)).mono hadv
  · rw [hstarts] at hu
    by_cases he : e' = e
    · subst he
      exact hapart t (hsame t ht) u (h.started u hu)
    · exact h.apartStarting e' t (hwon e' t he ht) u hu
  · have hwinner : ∀ e' t, e' ≠ e → (s'.cycles e').phase = .start t → Won s₀ s t := fun e' t he ht => by
      have hok := h.phases e'
      rwa [hwon e' t he ht] at hok
    by_cases he : e' = e
    · subst he
      exact (hapart t (hsame t ht) t' (hwinner e'' t' hne.symm ht')).symm
    · by_cases he' : e'' = e
      · subst he'
        exact hapart t' (hsame t' ht') t (hwinner e' t he ht)
      · exact h.apartEngines e' e'' t t' hne (hwon e' t he ht) (hwon e'' t' he' ht')

/-- A step that only changes the loop of its engine, and lets nothing start. -/
theorem CronInv.setCycle (h : CronInv s₀ s) (e : Nat) (c : Cycle) (hpending : ∀ t ∈ c.pending, Copy s₀ s t)
    (hphase : PhaseOk s₀ s c.phase) (hnot : ∀ t, c.phase ≠ .start t) : CronInv s₀ (s.setCycle e c) :=
  h.next e c s.triggers rfl (.of_eq rfl) h.ids (fun r hr => (h.rows r hr).positive) hpending
    (hphase.mono (.of_eq rfl)) fun t ht => absurd ht (hnot t)

theorem CronInv.start (h : CronInv s₀ s) {e : Nat} {rest : List CronTrigger} (hcycle : s.cycles e = ⟨rest, .start t⟩)
    (raises : Bool) :
    CronInv s₀ { s.setCycle e { pending := rest } with starts := if raises then s.starts else s.starts ++ [t] } := by
  have hphase : (s.cycles e).phase = .start t := by rw [hcycle]
  have hidle : CronInv s₀ (s.setCycle e { pending := rest }) :=
    h.setCycle e _ (fun c hc => h.copies e c (by rw [hcycle]; exact hc)) trivial (by simp)
  cases raises with
  | true => exact hidle
  | false =>
    have hcycles : ∀ e' t', ((s.setCycle e { pending := rest }).cycles e').phase = .start t' →
        e' ≠ e ∧ (s.cycles e').phase = .start t' := by
      intro e' t' ht'
      unfold CronState.setCycle at ht'
      dsimp only at ht'
      rw [Function.update_apply] at ht'
      split at ht'
      · cases ht'
      · next hne => exact ⟨hne, ht'⟩
    have hwon : Won s₀ s t := by
      have hok := h.phases e
      rwa [hphase] at hok
    refine ⟨hidle.ids, fun r hr => (hidle.rows r hr).mono (.of_eq rfl),
      fun e' c hc => (hidle.copies e' c hc).mono (.of_eq rfl), fun e' => (hidle.phases e').mono (.of_eq rfl), ?_, ?_, ?_,
      hidle.apartEngines⟩
    · intro u hu
      rcases List.mem_append.mp hu with hu | hu
      · exact (hidle.started u hu).mono (.of_eq rfl)
      · cases List.mem_singleton.mp hu
        exact hwon.mono (.of_eq rfl)
    · refine List.pairwise_append.mpr ⟨h.apart, List.pairwise_singleton .., fun u hu t' ht' => ?_⟩
      cases List.mem_singleton.mp ht'
      exact h.apartStarting e _ hphase u hu
    · intro e' t' ht' u hu
      obtain ⟨hne, ht'⟩ := hcycles e' t' ht'
      rcases List.mem_append.mp hu with hu | hu
      · exact h.apartStarting e' t' ht' u hu
      · cases List.mem_singleton.mp hu
        exact h.apartEngines e e' t t' (Ne.symm hne) hphase ht'

/-- The row of a trigger whose last execution starts is deleted. -/
theorem CronInv.writeDelete (h : CronInv s₀ s) {e : Nat} {rest : List CronTrigger} {id : String}
    (hcycle : s.cycles e = ⟨rest, .delete t id⟩) :
    CronInv s₀ { s.setCycle e ⟨rest, afterWrite s.triggers (.delete t id)⟩ with
      triggers := written s.triggers (.delete t id) } := by
  have hok := h.phases e
  rw [hcycle] at hok
  obtain ⟨rfl, hlast, c, rfl, hcopy⟩ := hok
  have hpending : ∀ t ∈ rest, Copy s₀ s t := fun t ht => h.copies e t (by rw [hcycle]; exact ht)
  have hkept : ∀ r ∈ written s.triggers (.delete c.decrement c.decrement.id), r ∈ s.triggers ∧ r.id ≠ c.id := by
    intro r hr
    obtain ⟨hr, hne⟩ := List.mem_filter.mp hr
    have hne : r.id ≠ c.decrement.id := by simpa using hne
    exact ⟨hr, hne⟩
  have hids : ((written s.triggers (.delete c.decrement c.decrement.id)).map fun t => t.id).Nodup :=
    h.ids.sublist (List.filter_sublist.map _)
  have hone : c.remainingExecutions = some 1 := by
    have hlast : c.remainingExecutions.map (· - 1) = some 0 := hlast
    obtain ⟨n, hn, hzero⟩ := Option.map_eq_some_iff.mp hlast
    have hpositive : n ≠ 0 := fun hn' => hcopy.positive (hn' ▸ hn)
    rw [hn]
    congr
    omega
  refine h.next e _ _ rfl (fun r hr => ⟨r, (hkept r hr).1, rfl, .refl r⟩) hids
    (fun r hr => (h.rows r (hkept r hr).1).positive) hpending ?_ ?_
  · unfold afterWrite
    dsimp only
    split
    · exact hcopy.won fun r hr hid => absurd hid (hkept r hr).2
    · trivial
  · intro t ht u hu
    unfold afterWrite at ht
    dsimp only at ht
    split at ht
    · next hany =>
      cases ht
      obtain ⟨r, hr, hid⟩ := List.any_eq_true.mp hany
      have hid : r.id = c.decrement.id := by simpa using hid
      refine hu.apart hcopy hr hid ?_
      -- The row has not moved, since none of its executions would remain.
      rcases hcopy.row r hr hid with ⟨htime, -⟩ | ⟨-, hfewer⟩
      · exact htime.symm
      · rw [hone] at hfewer
        rcases hrem : r.remainingExecutions with _ | n
        · rw [hrem] at hfewer
          cases hfewer
        · rw [hrem] at hfewer
          have hn : n < 1 := hfewer
          exact absurd (hrem.trans (congrArg some (by omega))) (h.rows r hr).positive
    · cases ht

/-- An `UPDATE` statement changes the row of the trigger, if it changes one. -/
theorem PhaseOk.of_matches {r : CronTrigger} {id : String} {nextTime : Nat} (h : PhaseOk s₀ s (.update t id nextTime))
    (hr : r ∈ s.triggers) (hm : t.matchesFilter id r) :
    r.id = t.id ∧ r.nextExecutionTime = t.nextExecutionTime := by
  obtain ⟨-, -, -, hrow⟩ := h
  obtain ⟨hid, hnext⟩ := Bool.and_eq_true_iff.mp hm
  rw [beq_iff_eq] at hid hnext
  refine ⟨?_, hnext⟩
  rcases hrow with hown | hlate
  · exact hid.trans hown
  · have hlt := hlate r hr hid
    omega

/-- A row is advanced if it is still at the tick of the copy. -/
theorem CronInv.writeUpdate (h : CronInv s₀ s) {e : Nat} {rest : List CronTrigger} {id : String} {nextTime : Nat}
    (hcycle : s.cycles e = ⟨rest, .update t id nextTime⟩) :
    CronInv s₀ { s.setCycle e ⟨rest, afterWrite s.triggers (.update t id nextTime)⟩ with
      triggers := written s.triggers (.update t id nextTime) } := by
  have hok := h.phases e
  rw [hcycle] at hok
  have hmatches := fun r => hok.of_matches (r := r)
  obtain ⟨hnotLast, htime, ⟨c, rfl, hcopy⟩, -⟩ := hok
  have hpending : ∀ t ∈ rest, Copy s₀ s t := fun t ht => h.copies e t (by rw [hcycle]; exact ht)
  have hmatch : ∀ r ∈ s.triggers, c.decrement.matchesFilter id r → r.id = c.id ∧
      r.nextExecutionTime = c.nextExecutionTime ∧ Later r (c.decrement.advanced nextTime r) := by
    intro r hr hm
    obtain ⟨hown, hnext⟩ := hmatches r hr hm
    have hrem := (hcopy.row r hr hown).remaining_eq hnext
    refine ⟨hown, hnext, .inr ⟨?_, hrem ▸ fewer_decrement hcopy.positive⟩⟩
    show r.nextExecutionTime < nextTime
    exact hnext ▸ htime
  have hwritten : ∀ r' ∈ written s.triggers (.update c.decrement id nextTime), ∃ r ∈ s.triggers, r.id = r'.id ∧ Later r r' ∧
      (r' = r ∧ ¬c.decrement.matchesFilter id r ∨ c.decrement.matchesFilter id r ∧ r' = c.decrement.advanced nextTime r) := by
    intro r' hr'
    obtain ⟨r, hr, rfl⟩ := List.mem_map.mp hr'
    by_cases hm : c.decrement.matchesFilter id r
    · rw [if_pos hm]
      exact ⟨r, hr, rfl, (hmatch r hr hm).2.2, .inr ⟨hm, rfl⟩⟩
    · rw [if_neg hm]
      exact ⟨r, hr, rfl, .refl r, .inl ⟨rfl, hm⟩⟩
  have hids : ((written s.triggers (.update c.decrement id nextTime)).map fun t => t.id).Nodup := by
    have hsame : (written s.triggers (.update c.decrement id nextTime)).map (fun t => t.id) = s.triggers.map fun t => t.id := by
      refine (List.map_map ..).trans (List.map_congr_left fun r _ => ?_)
      dsimp only [Function.comp]
      split <;> rfl
    exact hsame ▸ h.ids
  refine h.next e _ _ rfl (fun r' hr' => ?_) hids (fun r' hr' => ?_) hpending ?_ ?_
  · obtain ⟨r, hr, hid, hlater, -⟩ := hwritten r' hr'
    exact ⟨r, hr, hid, hlater⟩
  · obtain ⟨r, hr, -, -, ⟨rfl, -⟩ | ⟨-, rfl⟩⟩ := hwritten r' hr'
    · exact (h.rows _ hr).positive
    · exact hnotLast
  · unfold afterWrite
    dsimp only
    split
    · next hany =>
      obtain ⟨r₁, hr₁, hm₁⟩ := List.any_eq_true.mp hany
      obtain ⟨hown₁, -⟩ := hmatch r₁ hr₁ hm₁
      refine hcopy.won fun r' hr' hid' => ?_
      obtain ⟨r, hr, hid, -, ⟨rfl, hnot⟩ | ⟨hm, rfl⟩⟩ := hwritten r' hr'
      · have heq : r' = r₁ := List.inj_on_of_nodup_map h.ids hr hr₁ (hid'.trans hown₁.symm)
        exact absurd hm₁ (heq ▸ hnot)
      · exact ⟨htime, rfl⟩
    · trivial
  · intro t ht u hu
    unfold afterWrite at ht
    dsimp only at ht
    split at ht
    · next hany =>
      cases ht
      obtain ⟨r, hr, hm⟩ := List.any_eq_true.mp hany
      obtain ⟨hown, hnext, -⟩ := hmatch r hr hm
      exact hu.apart hcopy hr hown hnext
    · cases ht

theorem of_getCronTriggerOf {triggers : List CronTrigger} {first : String} {r : CronTrigger}
    (h : getCronTriggerOf triggers t first = some r) : r ∈ triggers ∧ t.finds r := by
  have hmem : r ∈ triggers.filter t.finds := by
    rcases Option.or_eq_some_iff.mp h with h | ⟨-, h⟩
    · exact List.mem_of_find?_eq_some h
    · exact List.mem_of_head? h
  exact List.mem_filter.mp hmem

/-- A row that the project may access is its own. -/
theorem projectId_of_access {r : DbRow} (h : checkDbObjAccess t.context r = .ok ()) : r.projectId = t.projectId := by
  unfold checkDbObjAccess at h
  split at h
  · cases h
  · next hown => simpa [CronTrigger.context] using hown

variable {croniter : String → Nat → Option Nat}

/-- A trigger finds its own row if none is in the way, or one that has been advanced past its tick. -/
theorem CronInv.phaseOk_advance (h : CronInv s₀ s) (hcopy : Copy s₀ s t)
    (hcroniter : ∀ pattern start next, croniter pattern start = some next → start < next)
    (halone : ∀ u ∈ s.triggers, ¬t.InTheWay u) (now : Nat) (first : String) :
    PhaseOk s₀ s (advanceCronTrigger croniter s.triggers t now first) := by
  unfold advanceCronTrigger
  dsimp only
  split
  · next hlast =>
    split
    · trivial
    · next r hr =>
      split
      · trivial
      · next hcheck =>
        obtain ⟨hmem, hfinds⟩ := of_getCronTriggerOf hr
        have hown : r.projectId = t.projectId := projectId_of_access hcheck
        refine ⟨?_, hlast, t, rfl, hcopy⟩
        by_contra hne
        exact halone r hmem ⟨hne, hfinds, by rwa [if_pos hlast]⟩
  · next hlast =>
    split
    · trivial
    · next nextTime htime =>
      split
      · trivial
      · next r hr =>
        obtain ⟨hmem, hfinds⟩ := of_getCronTriggerOf hr
        obtain ⟨pattern, -, htime⟩ := Option.bind_eq_some_iff.mp htime
        have hlt := hcroniter _ _ _ htime
        refine ⟨hlast, lt_of_le_of_lt (le_max_right ..) hlt, ⟨t, rfl, hcopy⟩, ?_⟩
        by_cases hid : r.id = t.id
        · exact .inl hid
        · refine .inr fun r' hr' hid' => ?_
          rw [List.inj_on_of_nodup_map h.ids hr' hmem hid']
          by_contra hle
          exact halone r hmem ⟨hid, hfinds, by rw [if_neg hlast]; exact not_lt.mp hle⟩

theorem CronInv.step (h : CronInv s₀ s)
    (hcroniter : ∀ pattern start next, croniter pattern start = some next → start < next) (l : CronStep)
    (hguard : NoneInTheWay s l) : CronInv s₀ (cronStep croniter s l) := by
  cases l with
  | read e now =>
    unfold cronStep
    dsimp only
    split
    · refine h.setCycle e _ (fun t ht => ?_) trivial (by simp)
      have ht := (List.perm_insertionSort ..).mem_iff.mp ht
      exact h.rows t (List.mem_filter.mp ht).1
    · exact h
  | advance e now first =>
    unfold cronStep
    dsimp only
    split
    · next t rest hcycle =>
      have hcopies := h.copies e
      rw [hcycle] at hcopies
      obtain ⟨hcopy, hrest⟩ := List.forall_mem_cons.mp hcopies
      refine h.setCycle e _ hrest (h.phaseOk_advance hcopy hcroniter (hguard t rest hcycle) now first) fun u hu => ?_
      unfold advanceCronTrigger at hu
      dsimp only at hu
      repeat' split at hu
      all_goals cases hu
    · exact h
  | write e raises =>
    unfold cronStep
    dsimp only
    rcases hcycle : s.cycles e with ⟨rest, phase⟩
    have hpending : ∀ t ∈ rest, Copy s₀ s t := fun t ht => h.copies e t (by rw [hcycle]; exact ht)
    cases raises with
    | true =>
      cases phase with
      | delete t id | update t id nextTime => exact h.setCycle e _ hpending trivial (by simp)
      | idle | start t => exact h
    | false =>
      cases phase with
      | delete t id => exact h.writeDelete hcycle
      | update t id nextTime => exact h.writeUpdate hcycle
      | idle => exact h.setCycle e _ hpending trivial (by rintro _ ⟨⟩)
      | start t =>
        have hsame : s.setCycle e ⟨rest, .start t⟩ = s := by rw [← hcycle, CronState.setCycle_self]
        change CronInv s₀ { s.setCycle e ⟨rest, .start t⟩ with triggers := s.triggers }
        rw [hsame]
        exact h
  | start e raises =>
    unfold cronStep
    dsimp only
    split
    · next rest t hcycle => exact h.start hcycle raises
    · exact h

/-! ### Runs -/

/-- The trigger that an engine is about to write. -/
def Phase.Writes (t : CronTrigger) : Phase → Prop
  | .delete u _ | .update u _ _ => u = t
  | _ => False

/-- A step changes only the row of the trigger that the engine writes. -/
theorem CronInv.mem_step_iff (h : CronInv s₀ s) (l : CronStep) (r : CronTrigger) :
    (r ∈ (cronStep croniter s l).triggers ↔ r ∈ s.triggers) ∨ ∃ t, (s.cycles l.engine).phase.Writes t ∧ t.id = r.id := by
  have hsame : ∀ {s'}, s' = s ∨ (∃ e c, s' = s.setCycle e c) → (r ∈ s'.triggers ↔ r ∈ s.triggers) := by
    rintro s' (rfl | ⟨e, c, rfl⟩)
    · rfl
    · rfl
  cases l with
  | read e now =>
    refine .inl (hsame ?_)
    unfold cronStep
    dsimp only
    split
    · exact .inr ⟨_, _, rfl⟩
    · exact .inl rfl
  | advance e now first =>
    refine .inl (hsame ?_)
    unfold cronStep
    dsimp only
    split
    · exact .inr ⟨_, _, rfl⟩
    · exact .inl rfl
  | start e raises =>
    left
    unfold cronStep
    dsimp only
    split
    · rfl
    · rfl
  | write e raises =>
    cases raises with
    | true =>
      refine .inl (hsame ?_)
      unfold cronStep
      dsimp only
      rw [if_pos rfl]
      split
      · exact .inr ⟨_, _, rfl⟩
      · exact .inr ⟨_, _, rfl⟩
      · exact .inl rfl
    | false =>
      change (r ∈ written s.triggers (s.cycles e).phase ↔ r ∈ s.triggers) ∨ ∃ t, (s.cycles e).phase.Writes t ∧ t.id = r.id
      have hok := h.phases e
      generalize (s.cycles e).phase = phase at hok
      cases phase with
      | idle | start t => exact .inl Iff.rfl
      | delete t id =>
        obtain ⟨rfl, -⟩ := hok
        by_cases hid : t.id = r.id
        · exact .inr ⟨t, rfl, hid⟩
        · refine .inl (List.mem_filter.trans (and_iff_left ?_))
          simpa using Ne.symm hid
      | update t id nextTime =>
        by_cases hid : t.id = r.id
        · exact .inr ⟨t, rfl, hid⟩
        · left
          constructor
          · intro hr
            obtain ⟨x, hx, hxr⟩ := List.mem_map.mp hr
            split at hxr
            · next hm => exact absurd ((hok.of_matches hx hm).1.symm.trans (hxr ▸ rfl)) hid
            · exact hxr ▸ hx
          · intro hr
            refine List.mem_map.mpr ⟨r, hr, if_neg fun hm => ?_⟩
            exact hid (hok.of_matches hr hm).1.symm

theorem CronInv.starts_at_tick (h : CronInv s₀ s) (id : String) (time : Nat) :
    (s.starts.filter fun t => t.id = id ∧ t.nextExecutionTime = time).length ≤ 1 := by
  have hapart := h.apart.filter fun t => t.id = id ∧ t.nextExecutionTime = time
  have hall : ∀ t ∈ s.starts.filter (fun t => t.id = id ∧ t.nextExecutionTime = time),
      t.id = id ∧ t.nextExecutionTime = time := fun t ht => of_decide_eq_true (List.mem_filter.mp ht).2
  generalize s.starts.filter (fun t => t.id = id ∧ t.nextExecutionTime = time) = l at hapart hall
  rcases l with _ | ⟨t, _ | ⟨u, l⟩⟩
  · exact Nat.zero_le 1
  · exact Nat.le_refl 1
  · have htu : Apart t u := (List.pairwise_cons.mp hapart).1 u List.mem_cons_self
    obtain ⟨htid, httime⟩ := hall t List.mem_cons_self
    obtain ⟨huid, hutime⟩ := hall u (List.mem_cons_of_mem _ List.mem_cons_self)
    exact absurd (httime.trans hutime.symm) (htu (htid.trans huid.symm)).1

theorem CronInv.starts_le (h : CronInv s₀ s) (ht : t ∈ s₀.triggers) {n : Nat} (hn : t.remainingExecutions = some n) :
    (s.starts.filter fun u => u.id = t.id).length ≤ n := by
  have hrem : ∀ u ∈ s.starts.filter (fun u => u.id = t.id), ∃ m < n, u.remainingExecutions = some m := by
    intro u hu
    obtain ⟨hu, hid⟩ := List.mem_filter.mp hu
    have hfewer := (h.started u hu).origin t ht (of_decide_eq_true hid).symm
    rw [hn] at hfewer
    rcases hm : u.remainingExecutions with _ | m
    · rw [hm] at hfewer
      cases hfewer
    · rw [hm] at hfewer
      exact ⟨m, hfewer, rfl⟩
  have hnodup : ((s.starts.filter fun u => u.id = t.id).map fun u => u.remainingExecutions.getD 0).Nodup := by
    refine List.pairwise_map.mpr ((h.apart.filter _).imp_of_mem fun {u v} hu hv hapart heq => ?_)
    obtain ⟨m, -, hm⟩ := hrem u hu
    obtain ⟨k, -, hk⟩ := hrem v hv
    have huid := of_decide_eq_true (List.mem_filter.mp hu).2
    have hvid := of_decide_eq_true (List.mem_filter.mp hv).2
    rw [hm, hk] at heq
    have heq : m = k := heq
    have hnone := (hapart (huid.trans hvid.symm)).2 (by rw [hm, hk, heq])
    rw [hm] at hnone
    cases hnone
  have hrange : ((s.starts.filter fun u => u.id = t.id).map fun u => u.remainingExecutions.getD 0) ⊆ List.range n := by
    intro m hm
    obtain ⟨u, hu, rfl⟩ := List.mem_map.mp hm
    obtain ⟨m, hlt, hm⟩ := hrem u hu
    rw [hm]
    exact List.mem_range.mpr hlt
  have hle := (List.subperm_of_subset hnodup hrange).length_le
  rwa [List.length_map, List.length_range] at hle

theorem CronInv.initial {triggers : List CronTrigger} (hids : (triggers.map fun t => t.id).Nodup)
    (hpositive : ∀ t ∈ triggers, t.remainingExecutions ≠ some 0) : CronInv { triggers } { triggers } where
  ids := hids
  rows t ht := by
    have hsame : ∀ {r}, r ∈ triggers → r.id = t.id → r = t := fun hr hid => List.inj_on_of_nodup_map hids hr ht hid
    refine ⟨hpositive t ht, fun r hr hid => ?_, fun r hr hid => ?_⟩
    · exact hsame hr hid ▸ .refl r
    · exact hsame hr hid ▸ .refl r
  copies _ _ ht := absurd ht List.not_mem_nil
  phases _ := trivial
  started _ ht := absurd ht List.not_mem_nil
  apart := .nil
  apartStarting _ _ _ _ hu := absurd hu List.not_mem_nil
  apartEngines _ _ _ _ _ ht := nomatch ht

end

/-- In guarded runs, an engine changes only the row of the trigger that it processes, a tick of a trigger starts one
    workflow at most, and a trigger starts at most as many as it has executions that remain. -/
def FiresOncePerTick (croniter : String → Nat → Option Nat) (guard : CronState → CronStep → Prop) : Prop :=
  (∀ pattern start next, croniter pattern start = some next → start < next) →
  ∀ s₀, (cronTriggers croniter).init s₀ → ∀ steps, (cronTriggers croniter).Guarded guard s₀ steps →
    ∀ s, s = (cronTriggers croniter).run s₀ steps →
      (∀ l r, (r ∈ (cronStep croniter s l).triggers ↔ r ∈ s.triggers) ∨
        ∃ t, (s.cycles l.engine).phase.Writes t ∧ t.id = r.id) ∧
      (∀ id time, (s.starts.filter fun t => t.id = id ∧ t.nextExecutionTime = time).length ≤ 1) ∧
      ∀ t ∈ s₀.triggers, ∀ n, t.remainingExecutions = some n → (s.starts.filter fun u => u.id = t.id).length ≤ n

/-- Cron triggers fire once per tick, if none is in the way of another one. -/
theorem cron_triggers_fire_once (croniter : String → Nat → Option Nat) : FiresOncePerTick croniter NoneInTheWay := by
  rintro hcroniter _ ⟨triggers, rfl, hids, -, hpositive⟩ steps hguarded s rfl
  have hinv : CronInv { triggers } ((cronTriggers croniter).run { triggers } steps) :=
    hguarded.invariant (CronInv.initial hids hpositive) fun s l h hg => h.step hcroniter l hg
  exact ⟨hinv.mem_step_iff, hinv.starts_at_tick, fun t ht n hn => hinv.starts_le ht hn⟩

/-- Two projects have public triggers of one name. -/
def sameNames : List CronTrigger :=
  [{ id := "1", name := "t", projectId := "p", scope := "public", pattern := some "*", nextExecutionTime := 60,
      remainingExecutions := none },
    { id := "2", name := "t", projectId := "q", scope := "public", pattern := some "*", nextExecutionTime := 60,
      remainingExecutions := none }]

/-- The first engine finds the row of the other trigger, and the second one the right one. -/
theorem same_names_fire_twice : ¬∀ croniter, FiresOncePerTick croniter fun _ _ => True := by
  intro h
  have h := h (fun _ t => some (t + 60)) (fun _ t next hnext => by cases hnext; omega) { triggers := sameNames }
    ⟨sameNames, rfl, by decide, by decide, by decide⟩
    [.read 0 60, .read 1 60, .advance 0 60 "2", .write 0 false, .start 0 false, .advance 1 60 "1", .write 1 false,
      .start 1 false] (by simp [System.Guarded]) _ rfl
  exact absurd (h.2.1 "1" 60) (by decide)

end Mistral
