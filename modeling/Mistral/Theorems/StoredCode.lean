import Mistral.Actions.DynamicAction

/-! Whether dynamic actions run the code that is stored. -/

namespace Mistral
namespace DynamicActions

variable {τ π ι γ : Type} {process : ι → π} {s : Store τ π ι γ} {t : τ} {l : ι} {c : γ} {src : CodeSource γ}

/-- What was committed at some time since a lookup began. -/
def Store.committedSince (s : Store τ π ι γ) (l : ι) : List (CodeSource γ) := s.committed.drop (s.since l - 1)

/-- Lookups find the code that is stored while they run, and no version stands for two contents. -/
structure RunsStoredCode (s : Store τ π ι γ) : Prop where
  found : ∀ l module, s.lookups l = .found module → ∃ src ∈ s.committedSince l, src.content = module
  versions : ∀ a ∈ s.committed, ∀ b ∈ s.committed, a.version = b.version → a.content = b.content

/-- An update writes over the version that it has read, or what is committed already, and a lookup does not put a module
    into the cache that is older than the version with which another lookup of the process is about to take it. -/
def Serial [DecidableEq τ] [DecidableEq γ] (process : ι → π) (s : Store τ π ι γ) : Event τ ι γ → Prop
  | .flush t content => s.source.blocker t = none → ∀ src, s.updates t = .loaded src →
      src.version = s.source.committed.version ∨ s.updated t src content = s.source.committed
  | .lookup l => ∀ src, s.lookups l = .store src → ∀ l' dbVer, process l' = process l → s.lookups l' = .take dbVer →
      dbVer ≤ src.version
  | _ => True

/-! ### The invariant -/

/-- The row is a later one, or the same. -/
def Newer (a b : CodeSource γ) : Prop := a.version < b.version ∨ a = b

def LookupOk (s : Store τ π ι γ) (l : ι) : Lookup γ → Prop
  | .start => True
  | .compare dbVer | .take dbVer => 0 < s.since l ∧ ∃ src, s.committed[s.since l - 1]? = some src ∧ src.version = dbVer
  | .load => s.since l - 1 < s.committed.length
  | .store src => src ∈ s.committedSince l
  | .found module => ∃ src ∈ s.committedSince l, src.content = module
  | .keyError => True

/-- The invariant: rows are committed in the order of their versions, every cached module is one that was committed
    with its version, and every lookup stands where `LookupOk` says. -/
structure Good (process : ι → π) (s : Store τ π ι γ) : Prop where
  last : ∃ older, s.committed = older ++ [s.source.committed]
  ordered : s.committed.Pairwise Newer
  pending : ∀ t row, s.source.pending = some (t, row) → Newer s.source.committed row
  cached : ∀ p module version, s.codeSources p = some (module, version) → ⟨version, module⟩ ∈ s.committed
  lookups : ∀ l, LookupOk s l (s.lookups l)
  takes : ∀ l dbVer, s.lookups l = .take dbVer → ∃ module version, s.codeSources (process l) = some (module, version) ∧
    dbVer ≤ version

theorem Newer.trans {a b d : CodeSource γ} (h : Newer a b) (h' : Newer b d) : Newer a d := by
  rcases h with h | rfl
  · rcases h' with h' | rfl
    · exact .inl (Nat.lt_trans h h')
    · exact .inl h
  · exact h'

/-- What is committed is kept, and more may be. -/
theorem LookupOk.mono {s' : Store τ π ι γ} {phase : Lookup γ} (h : LookupOk s l phase)
    (hcommitted : s.committed <+: s'.committed) (hsince : s'.since l = s.since l) : LookupOk s' l phase := by
  have hdrop : ∀ src, src ∈ s.committedSince l → src ∈ s'.committedSince l := fun src hsrc => by
    rw [Store.committedSince, hsince]
    obtain ⟨more, hmore⟩ := hcommitted
    rw [← hmore, List.drop_append]
    exact List.mem_append_left _ hsrc
  cases phase with
  | start | keyError => trivial
  | compare dbVer | take dbVer =>
    obtain ⟨hpos, src, hsrc, hversion⟩ := h
    refine ⟨hsince ▸ hpos, src, ?_, hversion⟩
    obtain ⟨more, hmore⟩ := hcommitted
    rw [hsince, ← hmore, List.getElem?_append_left (List.getElem?_eq_some_iff.mp hsrc).1]
    exact hsrc
  | load =>
    show s'.since l - 1 < s'.committed.length
    rw [hsince]
    exact Nat.lt_of_lt_of_le h hcommitted.length_le
  | store src => exact hdrop src h
  | found module =>
    obtain ⟨src, hsrc, hcontent⟩ := h
    exact ⟨src, hdrop src hsrc, hcontent⟩

namespace Good

theorem initial (src : CodeSource γ) : Good process (.initial src : Store τ π ι γ) where
  last := ⟨[], rfl⟩
  ordered := List.pairwise_singleton _ _
  pending _ _ h := nomatch h
  cached _ _ _ h := nomatch h
  lookups _ := trivial
  takes _ _ h := nomatch h

theorem newer_committed (h : Good process s) (hsrc : src ∈ s.committed) : Newer src s.source.committed := by
  obtain ⟨older, holder⟩ := h.last
  have hordered := h.ordered
  rw [holder] at hsrc hordered
  rcases List.mem_append.mp hsrc with hsrc | hsrc
  · exact (List.pairwise_append.mp hordered).2.2 src hsrc _ (List.mem_singleton_self _)
  · exact .inr (List.mem_singleton.mp hsrc)

theorem eq_of_version (h : Good process s) {a b : CodeSource γ} (ha : a ∈ s.committed) (hb : b ∈ s.committed)
    (hversion : a.version = b.version) : a = b := by
  obtain ⟨i, hi, rfl⟩ := List.mem_iff_getElem.mp ha
  obtain ⟨j, hj, rfl⟩ := List.mem_iff_getElem.mp hb
  have hordered := List.pairwise_iff_getElem.mp h.ordered
  obtain hij | rfl | hij := Nat.lt_trichotomy i j
  · exact (hordered i j hi hj hij).resolve_left (by omega)
  · rfl
  · exact ((hordered j i hj hi hij).resolve_left (by omega)).symm

theorem last_mem (h : Good process s) (hsince : s.since l - 1 < s.committed.length) :
    s.source.committed ∈ s.committedSince l := by
  obtain ⟨older, holder⟩ := h.last
  rw [holder, List.length_append, List.length_singleton] at hsince
  rw [Store.committedSince, holder, List.drop_append_of_le_length (by omega)]
  exact List.mem_append_right _ (List.mem_singleton_self _)

/-! ### Steps -/

theorem load [DecidableEq τ] (h : Good process s) (t : τ) : Good process (s.load t) := by
  unfold Store.load
  split
  · exact ⟨h.last, h.ordered, h.pending, h.cached, h.lookups, h.takes⟩
  · exact h

theorem flush [DecidableEq τ] [DecidableEq γ] (h : Good process s) (t : τ) (content : γ) (hserial : Serial process s (.flush t content)) :
    Good process (s.flush t content) := by
  unfold Store.flush
  split
  next src hloaded =>
    split
    · exact h
    next hfree =>
      refine ⟨h.last, h.ordered, fun u row hrow => ?_, h.cached, h.lookups, h.takes⟩
      obtain ⟨rfl, rfl⟩ := Prod.mk.inj (Option.some.inj hrow)
      rcases hserial (by simpa using hfree) src hloaded with hversion | hsame
      · exact .inl (hversion ▸ Nat.lt_succ_self src.version)
      · exact .inr hsame.symm
  · exact h

theorem commit [DecidableEq τ] (h : Good process s) (t : τ) : Good process (s.commit t) := by
  unfold Store.commit
  split
  next =>
    have hnewer : Newer s.source.committed (s.source.read t) := by
      rcases hp : s.source.pending with _ | ⟨u, row⟩
      · exact .inr (Cell.read_of_none hp).symm
      · by_cases hu : u = t
        · subst hu
          rw [Cell.read_of_pending hp]
          exact h.pending u row hp
        · exact .inr (Cell.read_of_ne hp hu).symm
    refine ⟨⟨s.committed, by rw [Cell.committed_commit]⟩, ?_, fun u row hrow => ?_, fun p module version hc => ?_,
      fun l => ?_, h.takes⟩
    · refine List.pairwise_append.mpr ⟨h.ordered, List.pairwise_singleton _ _, fun a ha b hb => ?_⟩
      exact List.mem_singleton.mp hb ▸ (h.newer_committed ha).trans hnewer
    · obtain ⟨hp, hne⟩ := Cell.pending_commit hrow
      rw [Cell.committed_commit, Cell.read_of_ne hp hne]
      exact h.pending u row hp
    · exact List.mem_append_left _ (h.cached p module version hc)
    · exact (h.lookups l).mono (List.prefix_append _ _) rfl
  · exact h

theorem rollback [DecidableEq τ] (h : Good process s) (t : τ) : Good process (s.rollback t) := by
  refine ⟨?_, h.ordered, fun u row hrow => ?_, h.cached, h.lookups, h.takes⟩
  · obtain ⟨older, holder⟩ := h.last
    exact ⟨older, by rw [Store.rollback, Cell.committed_rollback]; exact holder⟩
  · rw [Store.rollback, Cell.committed_rollback]
    exact h.pending u row (Cell.pending_rollback hrow).1

/-- One lookup goes on, and the others stay where they are. -/
theorem goTo [DecidableEq ι] (h : Good process s) {next : Lookup γ} (hnext : LookupOk s l next)
    (htake : ∀ dbVer, next = .take dbVer → ∃ module version, s.codeSources (process l) = some (module, version) ∧
      dbVer ≤ version) : Good process (s.goTo l next) := by
  refine ⟨h.last, h.ordered, h.pending, h.cached, fun l' => ?_, fun l' dbVer hl' => ?_⟩
  · show LookupOk s l' (Function.update s.lookups l next l')
    rcases eq_or_ne l' l with rfl | hl
    · rw [Function.update_self]
      exact hnext
    · rw [Function.update_of_ne hl]
      exact h.lookups l'
  · change Function.update s.lookups l next l' = .take dbVer at hl'
    rcases eq_or_ne l' l with rfl | hl
    · rw [Function.update_self] at hl'
      exact htake dbVer hl'
    · rw [Function.update_of_ne hl] at hl'
      exact h.takes l' dbVer hl'

/-- A module in the cache that is not too old was committed after the lookup began, or was so already then. -/
theorem cached_since (h : Good process s) {dbVer version : Nat} {module : γ} (hcompare : LookupOk s l (.compare dbVer))
    (hmem : ⟨version, module⟩ ∈ s.committed) (hle : dbVer ≤ version) :
    (⟨version, module⟩ : CodeSource γ) ∈ s.committedSince l := by
  obtain ⟨-, src, hsrc, rfl⟩ := hcompare
  obtain ⟨hn, hsrc⟩ := List.getElem?_eq_some_iff.mp hsrc
  obtain ⟨i, hi, hrow⟩ := List.mem_iff_getElem.mp hmem
  have hat : ∀ j (hj : j < s.committed.length), s.since l - 1 ≤ j → s.committed[j] ∈ s.committedSince l := fun j hj hle =>
    List.mem_iff_getElem.mpr ⟨j - (s.since l - 1), by rw [Store.committedSince, List.length_drop]; omega, by
      simp only [Store.committedSince, List.getElem_drop]
      congr 1
      omega⟩
  by_cases hin : s.since l - 1 ≤ i
  · exact hrow ▸ hat i hi hin
  · rcases List.pairwise_iff_getElem.mp h.ordered i _ hi hn (by omega) with hlt | heq
    · rw [hrow, hsrc] at hlt
      exact absurd hle (Nat.not_le.mpr hlt)
    · exact hrow ▸ heq ▸ hat _ hn (Nat.le_refl _)

theorem lookup [DecidableEq τ] [DecidableEq γ] [DecidableEq π] [DecidableEq ι] (h : Good process s) (l : ι)
    (hserial : Serial process s (.lookup l)) : Good process (s.lookup process l) := by
  have hl := h.lookups l
  unfold Store.lookup
  split
  next hphase =>
    obtain ⟨older, holder⟩ := h.last
    refine ⟨h.last, h.ordered, h.pending, h.cached, fun l' => ?_, fun l' dbVer hl' => ?_⟩
    · by_cases hne : l' = l
      · subst hne
        simp only [Store.goTo, Function.update_self, LookupOk]
        refine ⟨by rw [holder, List.length_append, List.length_singleton]; exact Nat.succ_pos _,
          s.source.committed, ?_, rfl⟩
        simp [holder]
      · simp only [Store.goTo, Function.update_of_ne hne]
        exact (h.lookups l').mono (List.prefix_refl _) (Function.update_of_ne hne _ _)
    · change Function.update s.lookups l (.compare s.source.committed.version) l' = .take dbVer at hl'
      rcases eq_or_ne l' l with rfl | hne
      · rw [Function.update_self] at hl'
        cases hl'
      · rw [Function.update_of_ne hne] at hl'
        exact h.takes l' dbVer hl'
  next dbVer hphase =>
    rw [hphase] at hl
    have hsince : s.since l - 1 < s.committed.length := by
      obtain ⟨-, src, hsrc, -⟩ := hl
      exact (List.getElem?_eq_some_iff.mp hsrc).1
    split
    next module version hc =>
      split
      · exact h.goTo hsince (by simp)
      next hle =>
        refine h.goTo hl fun dbVer' heq => ?_
        cases heq
        exact ⟨module, version, hc, Nat.le_of_not_lt hle⟩
    · exact h.goTo hsince (by simp)
  next dbVer hphase =>
    -- The module in the cache may be another one than the one that was compared, but it is not older.
    rw [hphase] at hl
    obtain ⟨module, version, hc, hle⟩ := h.takes l dbVer hphase
    rw [hc]
    exact h.goTo ⟨_, h.cached_since hl (h.cached _ _ _ hc) hle, rfl⟩ (by simp)
  next hphase =>
    rw [hphase] at hl
    exact h.goTo (h.last_mem hl) (by simp)
  next src hphase =>
    rw [hphase] at hl
    have hgo : Good process (s.goTo l (.found src.content)) := h.goTo ⟨src, hl, rfl⟩ (by simp)
    refine ⟨hgo.last, hgo.ordered, hgo.pending, fun p module version hc => ?_, hgo.lookups, fun l' dbVer hl' => ?_⟩
    · by_cases hp : p = process l
      · subst hp
        simp only [Function.update_self] at hc
        obtain ⟨rfl, rfl⟩ := Prod.mk.inj (Option.some.inj hc)
        exact List.mem_of_mem_drop hl
      · simp only [Function.update_of_ne hp] at hc
        exact h.cached p module version hc
    · by_cases hp : process l' = process l
      · refine ⟨src.content, src.version, by simp only [hp, Function.update_self], ?_⟩
        change Function.update s.lookups l (.found src.content) l' = .take dbVer at hl'
        rcases eq_or_ne l' l with rfl | hne
        · rw [Function.update_self] at hl'
          cases hl'
        · rw [Function.update_of_ne hne] at hl'
          exact hserial src hphase l' dbVer hp hl'
      · simp only [Function.update_of_ne hp]
        exact hgo.takes l' dbVer hl'
  · exact h
  · exact h

theorem runsStoredCode (h : Good process s) : RunsStoredCode s where
  found l module hl := by
    have hok := h.lookups l
    rw [hl] at hok
    exact hok
  versions _ ha _ hb hversion := congrArg CodeSource.content (h.eq_of_version ha hb hversion)

end Good

/-- Where updates are serial and no older module gets into a cache between the two accesses of a lookup, dynamic actions
    run the stored code. -/
theorem runs_stored_code [DecidableEq τ] [DecidableEq π] [DecidableEq ι] [DecidableEq γ] (process : ι → π)
    {s : Store τ π ι γ} (h : (runs process).Reach (Serial process) s) : RunsStoredCode s := by
  refine (h.invariant (I := Good process) ?_ fun s e _ hgood hserial => ?_).runsStoredCode
  · rintro _ ⟨src, rfl⟩
    exact Good.initial src
  · cases e with
    | load t => exact hgood.load t
    | flush t content => exact hgood.flush t content hserial
    | commit t => exact hgood.commit t
    | rollback t => exact hgood.rollback t
    | lookup l => exact hgood.lookup l hserial

/-! ### Two updates of the same version -/

/-- The version 1 with the content 10, which transactions `Bool` update, and one engine process. -/
def firstVersion : Store Bool Unit Nat Nat := .initial ⟨1, 10⟩

theorem firstVersion_reach {guard : Store Bool Unit Nat Nat → Event Bool Nat Nat → Prop} :
    (runs fun _ => ()).Reach guard firstVersion := .init ⟨⟨1, 10⟩, rfl⟩

/-- One update, and a lookup after it. -/
def oneUpdate : List (Event Bool Nat Nat) :=
  [.load false, .flush false 20, .commit false, .lookup 0, .lookup 0, .lookup 0, .lookup 0]

theorem oneUpdate_runs_stored_code : RunsStoredCode ((runs fun _ => ()).run firstVersion oneUpdate) := by
  have hnone : ∀ l dbVer, ((runs fun _ => ()).run firstVersion (oneUpdate.take 6)).lookups l ≠ .take dbVer := by
    intro l dbVer h
    rcases eq_or_ne l 0 with rfl | hl
    · cases h
    · have hstart : ((runs fun _ => ()).run firstVersion (oneUpdate.take 6)).lookups l = .start := by
        simp [oneUpdate, runs, System.run, Store.step, Store.lookup, Store.goTo, Store.load, Store.flush, Store.commit,
          firstVersion, Store.initial, hl, Cell.blocker]
      rw [hstart] at h
      cases h
  exact runs_stored_code (fun _ => ()) (firstVersion_reach.run
    ⟨trivial, fun _ src h => .inl (by cases h; rfl), trivial, fun _ h => (by cases h), fun _ h => (by cases h),
      fun _ h => (by cases h), fun _ _ l dbVer _ h => absurd h (hnone l dbVer), trivial⟩)

/-- Both transactions read version 1 and write version 2, and a lookup comes between their commits. -/
def twoUpdates : List (Event Bool Nat Nat) :=
  .load true :: oneUpdate ++ [.flush true 30, .commit true, .lookup 1, .lookup 1, .lookup 1]

/-- The last lookup finds a module that is not stored any more. -/
theorem stale_module_found :
    ¬∀ s, (runs fun _ : Nat => ()).Reach (fun (_ : Store Bool Unit Nat Nat) _ => True) s → RunsStoredCode s := by
  intro h
  have hall : ∀ (events : List (Event Bool Nat Nat)) (s : Store Bool Unit Nat Nat),
      (runs fun _ => ()).Guarded (fun _ _ => True) s events := by
    intro events
    induction events with
    | nil => exact fun _ => trivial
    | cons e events ih => exact fun s => ⟨trivial, ih _⟩
  have hruns := h _ (firstVersion_reach.run (hall twoUpdates firstVersion))
  obtain ⟨src, hsrc, hcontent⟩ := hruns.found 1 20 rfl
  have hsince : ((runs fun _ => ()).run firstVersion twoUpdates).committedSince 1 = [⟨2, 30⟩] := rfl
  rw [hsince] at hsrc
  rw [List.mem_singleton.mp hsrc] at hcontent
  exact absurd hcontent (by decide)

end DynamicActions
end Mistral
