import Mistral.Lang.OnClause
import Mistral.Lib.Excepts
import Mistral.Theorems.InlineInput

/-! Which on-clauses keep every transition that is written in them, with its condition and its parameters. -/

namespace Mistral

/-! ### What is written in an on-clause -/

/-- How the parameters of a command are written: after spaces, or in brackets. -/
inductive CallForm
  | spaced
  | bracketed
  deriving DecidableEq, Repr

namespace CallForm

def opening : CallForm → Char
  | spaced => ' '
  | bracketed => '('

def closing : CallForm → List Char
  | spaced => []
  | bracketed => [')']

/-- What may stand between two parameters. -/
def separators : CallForm → List Char
  | spaced => [' ']
  | bracketed => [' ', ',']

end CallForm

/-- A name with parameters: the first one follows the name, and each of the others stands after some separators. -/
structure WrittenCall (conf : OnClauseConf) where
  form : CallForm
  name : List Char
  key : List Char
  value : InputValue
  others : List (List Char × List Char × InputValue) := []
  trail : List Char := []
  name_ne : name ≠ []
  name_word : ∀ c ∈ name, conf.classes.word c
  separated : ∀ p ∈ others, p.1 ≠ [] ∧ ∀ c ∈ p.1, c ∈ form.separators
  trailing : ∀ c ∈ trail, c ∈ form.separators
  keys_nodup : (key :: others.map fun p => p.2.1).Nodup
  values_written : value.Written conf.toCommandConf ∧ ∀ p ∈ others, p.2.2.Written conf.toCommandConf

namespace WrittenCall
variable {conf : OnClauseConf} (w : WrittenCall conf)

/-- The parameters, each with what stands before it. -/
def params : List (List Char × List Char × InputValue) := ([w.form.opening], w.key, w.value) :: w.others

/-- What stands after the last parameter. -/
def tail : List Char := w.trail ++ w.form.closing

def text : List Char := w.name ++ filledText w.tail w.params

/-- The names and the values of the parameters. -/
def values : SpecDict := w.params.map fun p => (String.ofList p.2.1, p.2.2.value)

/-- The pattern finds every parameter with the whole text of its value. -/
def FoundWhole : Prop :=
  (conf.scanParams 0 w.text).map (fun p => (p.1, conf.strip p.2)) = w.params.map fun p => (p.2.1, p.2.2.source)

end WrittenCall

section
variable (conf : OnClauseConf)

/-- The command is a name with parameters. -/
def IsCall (c : String) : Prop := conf.dictPattern.Matches c.toList ∨ conf.funcPattern.Matches c.toList

/-- The name and the parameters that are written in a command. -/
def ReadsAs (c name : String) (params : SpecDict) : Prop :=
  conf.namePattern.Matches c.toList ∧ ¬IsCall conf c ∧ name = c ∧ params = [] ∨
    IsCall conf c ∧ ∃ w : WrittenCall conf, c.toList = w.text ∧ name = String.ofList w.name ∧ params = w.values ∧ w.FoundWhole

/-- The command of a transition, and its condition or the empty text. -/
def itemTransitions : SpecData → List (String × SpecData)
  | .text s => [(s, .text "")]
  | .dict d => d
  | _ => []

def nextTransitions : SpecData → List (String × SpecData)
  | .list items => items.flatMap itemTransitions
  | v => itemTransitions v

/-- The transitions of an on-clause in either form. -/
def clauseTransitions : SpecData → List (String × SpecData)
  | .dict d => if conf.taskWithExpression (.dict d) then d else ((d.lookup "next").map nextTransitions).getD []
  | v => nextTransitions v

/-- The transitions are those that are written in the clause. -/
def KeepsTransitions (validate : Bool) (v : SpecData) : Prop :=
  ∃ spec, conf.onClauseSpec validate v = .ok spec ∧
    List.Forall₂ (fun t w => ReadsAs conf w.1 t.name t.params ∧ t.cond = w.2) spec.next (clauseTransitions conf v)

/-- A name, or a name with parameters that has a space in it and whose values are all taken whole. -/
def Readable (c : String) : Prop :=
  conf.namePattern.Matches c.toList ∧ ¬IsCall conf c ∨
    IsCall conf c ∧ ' ' ∈ c.toList ∧
      ∃ w : WrittenCall conf, c.toList = w.text ∧ AllFilledWhole conf.toCommandConf w.tail w.params

/-- A task with a condition stands in a list only, the commands can be read, and the publish section is valid. -/
def ConditionsInLists (validate : Bool) : SpecData → Prop
  | .dict d => ¬conf.taskWithExpression (.dict d) ∧
    (∀ next, d.lookup "next" = some next → ¬conf.taskWithExpression next ∧ ∀ w ∈ nextTransitions next, Readable conf w.1) ∧
    ∀ publish, d.lookup "publish" = some publish → ∃ spec, conf.publishSpec validate publish = .ok spec
  | v => ∀ w ∈ nextTransitions v, Readable conf w.1

/-- A value that the schema accepts. -/
structure OnClauseData where
  data : SpecData
  valid : conf.onClauseSchema data

end

section
variable {conf : OnClauseConf} {validate : Bool} {c : String} {v : SpecData}

/-! ### Commands -/

theorem not_mem_of_namePattern (h : conf.namePattern.Matches c.toList) : ' ' ∉ c.toList := by
  obtain ⟨r, hr⟩ := Pattern.matches_iff.mp h
  obtain ⟨s, hs, hr⟩ := Pattern.mem_rests_seq.mp hr
  obtain ⟨t, -, hc, ht⟩ := Pattern.mem_rests_plus.mp hs
  obtain ⟨-, hend⟩ := Pattern.mem_rests_lineEnd.mp hr
  intro hspace
  rw [hc] at hspace
  rcases List.mem_append.mp hspace with hspace | hspace
  · have hnot := ht ' ' hspace
    rw [conf.classes.space_space] at hnot
    cases hnot
  · rcases hend with rfl | rfl <;> simp at hspace

theorem parse_of_not_mem (h : ' ' ∉ c.toList) : conf.parseCmdAndInput c = .ok (c, []) := if_pos h

namespace WrittenCall
variable (w : WrittenCall conf)

theorem opening_cases : w.form.opening = ' ' ∨ w.form.opening = '(' := by
  cases w.form
  · exact .inl rfl
  · exact .inr rfl

theorem filling_params : ∀ p ∈ w.params, p.1 ≠ [] ∧ IsFilling p.1 := by
  refine List.forall_mem_cons.mpr ⟨⟨List.cons_ne_nil _ _, List.forall_mem_singleton.mpr ?_⟩, fun p hp => ?_⟩
  · rcases w.opening_cases with h | h <;> simp [h]
  · obtain ⟨hne, hsep⟩ := w.separated p hp
    refine ⟨hne, fun c hc => ?_⟩
    have hc := hsep c hc
    cases hform : w.form <;> rw [hform] at hc <;> simp only [CallForm.separators, List.mem_cons, List.not_mem_nil, or_false] at hc
    · simp [hc]
    · rcases hc with rfl | rfl <;> simp

theorem filling_tail : IsFilling w.tail := by
  intro c hc
  rcases List.mem_append.mp hc with hc | hc
  · have hc := w.trailing c hc
    cases hform : w.form <;> rw [hform] at hc <;> simp only [CallForm.separators, List.mem_cons, List.not_mem_nil, or_false] at hc
    · simp [hc]
    · rcases hc with rfl | rfl <;> simp
  · cases hform : w.form <;> rw [hform] at hc <;> simp only [CallForm.closing, List.mem_cons, List.not_mem_nil, or_false] at hc
    simp [hc]

theorem written_params : ∀ p ∈ w.params, p.2.2.Written conf.toCommandConf :=
  List.forall_mem_cons.mpr w.values_written

theorem text_eq : ∃ s, filledText w.tail w.params = w.form.opening :: s := ⟨_, rfl⟩

/-- The name has no part in a parameter. -/
theorem scanParams_text (hstd : conf.Standard) : conf.scanParams 0 w.text = conf.scanParams 0 (filledText w.tail w.params) := by
  obtain ⟨s, hs⟩ := w.text_eq
  have hequals : '=' ∉ w.name := fun h => absurd (w.name_word '=' h) (by simp [conf.classes.word_equals])
  have hopening : IsFilling [w.form.opening] := (w.filling_params _ List.mem_cons_self).2
  have hkey := hstd.keyChar_of_filling hopening List.mem_cons_self
  have hne : w.form.opening ≠ '=' := by rcases w.opening_cases with h | h <;> rw [h] <;> decide
  rw [text, hs, CommandConf.scanParams_name hequals hkey hne, ← CommandConf.scanParams_filling hstd hopening]
  rfl

theorem foundWhole_iff (hstd : conf.Standard) : w.FoundWhole ↔ AllFilledWhole conf.toCommandConf w.tail w.params := by
  rw [FoundWhole, w.scanParams_text hstd]
  exact ⟨CommandConf.allFilledWhole_of_scanParams hstd w.written_params w.filling_params w.filling_tail,
    CommandConf.scanParams_of_allFilledWhole hstd w.written_params w.filling_params w.filling_tail⟩

/-- What is parsed where the text has a space in it. -/
theorem parse_text (hc : c.toList = w.text) (hspace : ' ' ∈ c.toList) :
    conf.parseCmdAndInput c = .ok (String.ofList w.name, conf.toParams (conf.scanParams 0 w.text)) := by
  obtain ⟨s, hs⟩ := w.text_eq
  rw [CommandConf.parseCmdAndInput, if_neg (not_not_intro hspace), hc]
  nth_rewrite 1 [text]
  rw [hs, CommandConf.matchPrefix_cmdPattern w.name_ne (fun x hx => by simp [w.name_word x hx]) w.opening_cases]

/-- The values of what is found whole. -/
theorem toParams_text (hstd : conf.Standard) (h : w.FoundWhole) : conf.toParams (conf.scanParams 0 w.text) = w.values := by
  have hmap : ∀ {β : Type} (f : List Char × InputValue → β), w.params.map (fun p => f p.2) = (w.params.map Prod.snd).map f :=
    fun f => (List.map_map).symm
  rw [FoundWhole, hmap fun p => (p.1, p.2.source)] at h
  rw [values, hmap fun p => (String.ofList p.1, p.2.value)]
  refine CommandConf.toParams_found hstd (List.forall_mem_map.mpr w.written_params) ?_ h
  rw [List.map_map]
  exact w.keys_nodup

theorem name_ne_text : w.name ≠ w.text := by
  intro h
  have hlength := congrArg List.length h
  obtain ⟨s, hs⟩ := w.text_eq
  rw [text, hs, List.length_append, List.length_cons] at hlength
  omega

end WrittenCall

/-- A command gives what is written in it if and only if it can be read. -/
theorem reads_iff (hstd : conf.Standard) :
    (∃ t, conf.prepareTask (c, v) = .ok t ∧ ReadsAs conf c t.name t.params ∧ t.cond = v) ↔ Readable conf c := by
  have hprepare : ∀ {name params}, conf.parseCmdAndInput c = .ok (name, params) →
      ((∃ t, conf.prepareTask (c, v) = .ok t ∧ ReadsAs conf c t.name t.params ∧ t.cond = v) ↔ ReadsAs conf c name params) :=
    fun {name params} h => by
      rw [OnClauseConf.prepareTask, h]
      constructor
      · rintro ⟨t, ht, hreads, -⟩
        cases ht
        exact hreads
      · intro hreads
        exact ⟨_, rfl, hreads, rfl⟩
  by_cases hcall : IsCall conf c
  · by_cases hspace : ' ' ∈ c.toList
    · constructor
      · rintro ⟨t, -, ⟨-, hnot, -⟩ | ⟨-, w, hc, -, -, hfound⟩, -⟩
        · exact absurd hcall hnot
        · exact .inr ⟨hcall, hspace, w, hc, (w.foundWhole_iff hstd).mp hfound⟩
      · rintro (⟨-, hnot⟩ | ⟨-, -, w, hc, hwhole⟩)
        · exact absurd hcall hnot
        · have hfound := (w.foundWhole_iff hstd).mpr hwhole
          refine (hprepare (w.parse_text hc hspace)).mpr (.inr ⟨hcall, w, hc, rfl, ?_, hfound⟩)
          exact w.toParams_text hstd hfound
    · rw [hprepare (parse_of_not_mem hspace)]
      constructor
      · rintro (⟨-, hnot, -⟩ | ⟨-, w, hc, hname, -⟩)
        · exact absurd hcall hnot
        · exact absurd (by rw [← hc, hname, String.toList_ofList]) w.name_ne_text
      · rintro (⟨-, hnot⟩ | ⟨-, h, -⟩)
        · exact absurd hcall hnot
        · exact absurd h hspace
  · constructor
    · rintro ⟨t, -, ⟨h, hnot, -⟩ | ⟨h, -⟩, -⟩
      · exact .inl ⟨h, hnot⟩
      · exact absurd h hcall
    · rintro (⟨h, hnot⟩ | ⟨h, -⟩)
      · exact (hprepare (parse_of_not_mem (not_mem_of_namePattern h))).mpr (.inl ⟨h, hnot, rfl, rfl⟩)
      · exact absurd h hcall

/-- The transitions of a list give what is written in them if and only if all commands can be read. -/
theorem prepare_iff (hstd : conf.Standard) {ws : List (String × SpecData)} :
    (∃ ts, ws.mapM conf.prepareTask = .ok ts ∧
      List.Forall₂ (fun t w => ReadsAs conf w.1 t.name t.params ∧ t.cond = w.2) ts ws) ↔ ∀ w ∈ ws, Readable conf w.1 := by
  induction ws with
  | nil => exact iff_of_true ⟨[], rfl, .nil⟩ fun w hw => absurd hw List.not_mem_nil
  | cons w ws ih =>
    obtain ⟨c, v⟩ := w
    rw [List.forall_mem_cons, ← reads_iff hstd (v := v), ← ih]
    constructor
    · rintro ⟨_, hts, ht⟩
      obtain ⟨t, ts, htw, htws, rfl⟩ := List.forall₂_cons_left_iff.mp (mapM_ok.mp hts)
      obtain ⟨hreads, hforall⟩ := List.forall₂_cons.mp ht
      exact ⟨⟨t, htw, hreads⟩, ts, mapM_ok.mpr htws, hforall⟩
    · rintro ⟨⟨t, htw, hreads⟩, ts, hts, hforall⟩
      exact ⟨t :: ts, mapM_ok.mpr (.cons htw (mapM_ok.mp hts)), .cons hreads hforall⟩

/-! ### Forms of the clause -/

theorem pattern_text {p : Pattern} {s : String} : Schema.pattern p (.text s) ↔ p.Matches s.toList := decide_eq_true_iff

theorem exists_of_oneOf {schemas : List Schema} (h : Schema.oneOf schemas v) : ∃ s ∈ schemas, s v := by
  have hpos : 0 < schemas.countP (· v) := by rw [eq_of_beq h]; exact Nat.one_pos
  exact List.countP_pos_iff.mp hpos

theorem ne_empty_of_plus {p : Char → Bool} {a : Pattern} {s : List Char} (h : (Pattern.seq (.plus p) a).Matches s) : s ≠ [] := by
  obtain ⟨r, hr⟩ := Pattern.matches_iff.mp h
  obtain ⟨s', hs', -⟩ := Pattern.mem_rests_seq.mp hr
  obtain ⟨t, hne, rfl, -⟩ := Pattern.mem_rests_plus.mp hs'
  exact fun h => hne (List.append_eq_nil_iff.mp h).1

theorem text_of_nextTask (h : conf.nextTask v) : ∃ s, v = .text s ∧ s ≠ "" := by
  obtain ⟨schema, hmem, hv⟩ := exists_of_oneOf h
  obtain ⟨p, hp, rfl⟩ := List.mem_map.mp hmem
  cases v with
  | text s =>
    refine ⟨s, rfl, ?_⟩
    rintro rfl
    have hmatch : p.Matches [] := pattern_text.mp hv
    simp only [OnClauseConf.nextTaskPatterns, List.mem_cons, List.not_mem_nil, or_false] at hp
    rcases hp with rfl | rfl | rfl <;> exact ne_empty_of_plus hmatch rfl
  | _ => cases hv

theorem dict_of_taskWithExpression (h : conf.taskWithExpression v) : ∃ k w, v = .dict [(k, w)] := by
  unfold OnClauseConf.taskWithExpression at h
  split at h
  · exact ⟨_, _, rfl⟩
  · cases h

theorem asTuple_item (h : Schema.oneOf [conf.nextTask, conf.taskWithExpression] v) :
    ∃ e, OnClauseConf.asTuple v = .ok e ∧ itemTransitions v = [e] := by
  obtain ⟨schema, hmem, hv⟩ := exists_of_oneOf h
  simp only [List.mem_cons, List.not_mem_nil, or_false] at hmem
  rcases hmem with rfl | rfl
  · obtain ⟨s, rfl, -⟩ := text_of_nextTask hv
    exact ⟨_, rfl, rfl⟩
  · obtain ⟨k, w, rfl⟩ := dict_of_taskWithExpression hv
    exact ⟨_, rfl, rfl⟩

/-- A task and a list of tasks are read as they are written. -/
theorem asListOfTuples_eq (h : conf.nextTask v ∨ conf.listOfTasks v) : OnClauseConf.asListOfTuples v = .ok (nextTransitions v) := by
  rcases h with h | h
  · obtain ⟨s, rfl, hne⟩ := text_of_nextTask h
    have htruthy : (SpecData.text s).truthy = true := by simpa [SpecData.truthy] using hne
    rw [OnClauseConf.asListOfTuples, htruthy]
    rfl
  · cases v with
    | list items =>
      simp only [OnClauseConf.listOfTasks, Bool.and_eq_true, List.all_eq_true] at h
      obtain ⟨⟨hitems, -⟩, hne⟩ := h
      have htruthy : (SpecData.list items).truthy = true := hne
      have hmapM : ∀ items : List SpecData, (∀ v ∈ items, Schema.oneOf [conf.nextTask, conf.taskWithExpression] v) →
          items.mapM OnClauseConf.asTuple = .ok (items.flatMap itemTransitions) := fun items h => by
        rw [mapM_ok]
        induction items with
        | nil => exact .nil
        | cons v items ih =>
          obtain ⟨e, hv, hwritten⟩ := asTuple_item (h v List.mem_cons_self)
          rw [List.flatMap_cons, hwritten]
          exact .cons hv (ih fun v hv => h v (List.mem_cons_of_mem _ hv))
      rw [OnClauseConf.asListOfTuples, htruthy]
      exact hmapM items hitems
    | _ => cases h

/-- What comes after `next`. -/
theorem prepareNextClause_iff (hstd : conf.Standard) (h : conf.nextTask v ∨ conf.listOfTasks v) :
    (∃ ts, conf.prepareNextClause v = .ok ts ∧
      List.Forall₂ (fun t w => ReadsAs conf w.1 t.name t.params ∧ t.cond = w.2) ts (nextTransitions v)) ↔
      ∀ w ∈ nextTransitions v, Readable conf w.1 := by
  rw [OnClauseConf.prepareNextClause, asListOfTuples_eq h]
  exact prepare_iff hstd

theorem ne_empty_of_expression {s : String} (h : conf.expressionSchema (.text s)) : s ≠ "" := by
  obtain ⟨schema, hmem, hv⟩ := exists_of_oneOf h
  rintro rfl
  have hno : ∀ a b : Pattern, ¬(Schema.pattern (.seq (.seq (.literal ['{', '{']) a) b) (.text "") ∨
      Schema.pattern (.seq (.seq (.literal ['<', '%']) a) b) (.text "")) := fun a b => by
    rintro (h | h) <;> exact pattern_text.mp h rfl
  simp only [List.mem_cons, List.not_mem_nil, or_false] at hmem
  rcases hmem with rfl | rfl
  · exact hno _ _ (.inl hv)
  · exact hno _ _ (.inr hv)

/-! ### Tasks with a condition -/

/-- The condition of a task is an expression. -/
theorem expression_of_reads {w : SpecData} {name : String} {params : SpecDict} (h : conf.taskWithExpression (.dict [(c, w)]))
    (hreads : ReadsAs conf c name params) : conf.expressionSchema w := by
  simp only [OnClauseConf.taskWithExpression, OnClauseConf.nextTaskPatterns, List.all_eq_true, List.mem_cons, List.not_mem_nil,
    or_false, forall_eq_or_imp, forall_eq, Bool.or_eq_true, Bool.not_eq_true', decide_eq_false_iff_not] at h
  obtain ⟨hname, hdict, hfunc⟩ := h
  rcases hreads with ⟨hmatch, -⟩ | ⟨hmatch | hmatch, -⟩
  · exact hname.resolve_left (not_not_intro hmatch)
  · exact hdict.resolve_left (not_not_intro hmatch)
  · exact hfunc.resolve_left (not_not_intro hmatch)

theorem cond_ne_empty {w : SpecData} (h : conf.expressionSchema w) : w ≠ .text "" := by
  rintro rfl
  exact ne_empty_of_expression h rfl

/-- A transition of the plain form has no condition. -/
theorem cond_of_prepare {ws : List (String × SpecData)} {ts : List OnClauseConf.NextTask} (h : ws.mapM conf.prepareTask = .ok ts)
    (hws : ∀ w ∈ ws, w.2 = .text "") : ∀ t ∈ ts, t.cond = .text "" := by
  have hforall := mapM_ok.mp h
  clear h
  induction hforall with
  | nil => exact fun t ht => absurd ht List.not_mem_nil
  | @cons w t ws ts hw _ ih =>
    obtain ⟨hw', hws⟩ := List.forall_mem_cons.mp hws
    refine List.forall_mem_cons.mpr ⟨?_, ih hws⟩
    obtain ⟨⟨name, params⟩, -, ht⟩ := bind_ok.mp hw
    cases ht
    exact hw'

/-- Transitions that are read from texts have no conditions, and a task with one is not among them. -/
theorem not_forall₂_dict {w : SpecData} (h : conf.taskWithExpression (.dict [(c, w)])) {ws : List (String × SpecData)}
    (hws : ∀ w ∈ ws, w.2 = .text "") {ts : List OnClauseConf.NextTask} (hts : ws.mapM conf.prepareTask = .ok ts) :
    ¬List.Forall₂ (fun t w => ReadsAs conf w.1 t.name t.params ∧ t.cond = w.2) ts [(c, w)] := by
  intro hforall
  obtain ⟨t, _, ⟨hreads, hcond⟩, -, rfl⟩ := List.forall₂_cons_right_iff.mp hforall
  exact cond_ne_empty (expression_of_reads h hreads) (hcond.symm.trans (cond_of_prepare hts hws t List.mem_cons_self))

theorem asListOfTuples_texts {ws : List (String × SpecData)} (hv : ∀ items, v ≠ .list items)
    (h : OnClauseConf.asListOfTuples v = .ok ws) : ∀ w ∈ ws, w.2 = .text "" := by
  unfold OnClauseConf.asListOfTuples at h
  split at h
  · cases h
    exact fun w hw => absurd hw List.not_mem_nil
  · split at h
    · cases h
      exact fun w hw => by rw [List.mem_singleton.mp hw]
    · exact absurd rfl (hv _)
    next d _ =>
      rw [show (d.mapM fun e => OnClauseConf.asTuple (.text e.1)) = d.mapM fun e => pure (e.1, SpecData.text "") from rfl,
        List.mapM_pure] at h
      cases h
      intro w hw
      obtain ⟨e, -, rfl⟩ := List.mem_map.mp hw
      rfl
    · cases h

/-! ### The whole clause -/

theorem onClauseSpec_dict {d : SpecDict} (hv : conf.onClauseSchema (.dict d)) {spec : OnClauseConf.OnClauseSpec} :
    conf.onClauseSpec validate (.dict d) = .ok spec ↔ ∃ publish ts, conf.publishProperty validate d = .ok publish ∧
      conf.prepareNextClause ((d.lookup "next").getD .null) = .ok ts ∧ spec = { publish, next := ts } := by
  rw [OnClauseConf.onClauseSpec, hv, Bool.not_true, Bool.and_false, if_neg Bool.false_ne_true]
  simp only [bind_ok]
  constructor
  · rintro ⟨publish, hpublish, ts, hts, hspec⟩
    cases hspec
    exact ⟨publish, ts, hpublish, hts, rfl⟩
  · rintro ⟨publish, ts, hpublish, hts, rfl⟩
    exact ⟨publish, hpublish, ts, hts, rfl⟩

theorem onClauseSpec_plain (hv : conf.onClauseSchema v) (hplain : ∀ d, v ≠ .dict d) {spec : OnClauseConf.OnClauseSpec} :
    conf.onClauseSpec validate v = .ok spec ↔
      ∃ ts, conf.prepareNextClause v = .ok ts ∧ spec = { publish := none, next := ts } := by
  have hspec : conf.onClauseSpec validate v = do return { publish := none, next := ← conf.prepareNextClause v } := by
    rw [OnClauseConf.onClauseSpec, hv, Bool.not_true, Bool.and_false, if_neg Bool.false_ne_true]
    exact hplain
  rw [hspec]
  simp only [bind_ok]
  constructor
  · rintro ⟨ts, hts, hspec⟩
    cases hspec
    exact ⟨ts, hts, rfl⟩
  · rintro ⟨ts, hts, rfl⟩
    exact ⟨ts, hts, rfl⟩

/-- The publish section of the advanced form. -/
theorem publishProperty_ok {d : SpecDict} (hd : conf.advancedPublishingDict (.dict d)) :
    (∃ publish, conf.publishProperty validate d = .ok publish) ↔
      ∀ publish, d.lookup "publish" = some publish → ∃ spec, conf.publishSpec validate publish = .ok spec := by
  unfold OnClauseConf.publishProperty
  split
  next hlookup => exact iff_of_true ⟨none, rfl⟩ fun publish h => by rw [hlookup] at h; cases h
  next hlookup =>
    obtain ⟨l₁, l₂, rfl, -⟩ := List.lookup_eq_some_iff.mp hlookup
    simp only [OnClauseConf.advancedPublishingDict, Schema.onlyProperties, Bool.and_eq_true, List.all_eq_true] at hd
    have hnull := hd.2 ("publish", .null) (by simp)
    exact absurd hnull (by rintro ⟨⟩)
  next publish _ hlookup =>
    rw [hlookup]
    simp only [Option.some.injEq, forall_eq']
    cases conf.publishSpec validate publish with
    | error e => exact iff_of_false (by simp [Except.map]) (by simp)
    | ok spec => exact iff_of_true ⟨some spec, rfl⟩ ⟨spec, rfl⟩

/-- A task with a condition that is not in a list is never kept. -/
theorem not_keeps_dict {d : SpecDict} (hv : conf.onClauseSchema (.dict d)) (hd : conf.taskWithExpression (.dict d)) :
    ¬KeepsTransitions conf validate (.dict d) := by
  rintro ⟨spec, hspec, hforall⟩
  obtain ⟨c, w, hcw⟩ := dict_of_taskWithExpression hd
  obtain rfl : d = [(c, w)] := SpecData.dict.inj hcw
  rw [clauseTransitions, if_pos hd] at hforall
  obtain ⟨publish, ts, -, hts, rfl⟩ := (onClauseSpec_dict hv).mp hspec
  obtain ⟨ws, hws, hts⟩ := bind_ok.mp hts
  refine not_forall₂_dict hd (asListOfTuples_texts ?_ hws) hts hforall
  -- What comes after `next` is missing, or it is the condition, which is a text.
  intro items hitems
  obtain ⟨t, _, ⟨hreads, -⟩, -, -⟩ := List.forall₂_cons_right_iff.mp hforall
  obtain ⟨schema, hmem, hw⟩ := exists_of_oneOf (expression_of_reads hd hreads)
  rw [List.lookup_cons] at hitems
  split at hitems
  · obtain rfl : w = .list items := hitems
    simp only [List.mem_cons, List.not_mem_nil, or_false] at hmem
    rcases hmem with rfl | rfl <;> cases hw
  · cases hitems

/-- The advanced form is kept where what comes after `next` is. -/
theorem keeps_advanced (hstd : conf.Standard) {d : SpecDict} (hv : conf.onClauseSchema (.dict d)) (hd : conf.advancedPublishingDict (.dict d))
    (hplain : ¬conf.taskWithExpression (.dict d)) :
    KeepsTransitions conf validate (.dict d) ↔ ConditionsInLists conf validate (.dict d) := by
  have hkeeps : KeepsTransitions conf validate (.dict d) ↔ (∃ ts, conf.prepareNextClause ((d.lookup "next").getD .null) = .ok ts ∧
      List.Forall₂ (fun t w => ReadsAs conf w.1 t.name t.params ∧ t.cond = w.2) ts (((d.lookup "next").map nextTransitions).getD [])) ∧
      ∃ publish, conf.publishProperty validate d = .ok publish := by
    rw [KeepsTransitions, clauseTransitions, if_neg hplain]
    constructor
    · rintro ⟨spec, hspec, hforall⟩
      obtain ⟨publish, ts, hpublish, hts, rfl⟩ := (onClauseSpec_dict hv).mp hspec
      exact ⟨⟨ts, hts, hforall⟩, publish, hpublish⟩
    · rintro ⟨⟨ts, hts, hforall⟩, publish, hpublish⟩
      exact ⟨_, (onClauseSpec_dict hv).mpr ⟨publish, ts, hpublish, hts, rfl⟩, hforall⟩
  rw [hkeeps, publishProperty_ok hd, ConditionsInLists, and_iff_right hplain]
  refine and_congr_left fun _ => ?_
  cases hnext : d.lookup "next" with
  | none => exact iff_of_true ⟨[], rfl, .nil⟩ nofun
  | some next =>
    simp only [Option.getD_some, Option.map_some, Option.some.injEq, forall_eq']
    have hschema : Schema.oneOf [conf.nextTask, conf.taskWithExpression, conf.listOfTasks] next := by
      obtain ⟨l₁, l₂, rfl, -⟩ := List.lookup_eq_some_iff.mp hnext
      simp only [OnClauseConf.advancedPublishingDict, Schema.onlyProperties, Bool.and_eq_true, List.all_eq_true] at hd
      exact hd.2 ("next", next) (by simp)
    obtain ⟨schema, hmem, hschema⟩ := exists_of_oneOf hschema
    simp only [List.mem_cons, List.not_mem_nil, or_false] at hmem
    by_cases htask : conf.taskWithExpression next
    · refine iff_of_false ?_ fun h => h.1 htask
      obtain ⟨c, w, rfl⟩ := dict_of_taskWithExpression htask
      rintro ⟨ts, hts, hforall⟩
      obtain ⟨ws, hws, hts⟩ := bind_ok.mp hts
      exact not_forall₂_dict htask (asListOfTuples_texts (fun items h => SpecData.noConfusion h) hws) hts hforall
    · rw [and_iff_right htask]
      refine prepareNextClause_iff hstd ?_
      rcases hmem with rfl | rfl | rfl
      · exact .inl hschema
      · exact absurd hschema htask
      · exact .inr hschema

theorem keeps_plain (hstd : conf.Standard) (hv : conf.onClauseSchema v) (hplain : ∀ d, v ≠ .dict d) :
    KeepsTransitions conf validate v ↔ ∀ w ∈ nextTransitions v, Readable conf w.1 := by
  have hwritten : clauseTransitions conf v = nextTransitions v := by
    cases v with
    | dict d => exact absurd rfl (hplain d)
    | _ => rfl
  have hnext : conf.nextTask v ∨ conf.listOfTasks v := by
    obtain ⟨schema, hmem, hschema⟩ := exists_of_oneOf (Bool.and_eq_true_iff.mp hv).1
    simp only [List.mem_cons, List.not_mem_nil, or_false] at hmem
    rcases hmem with rfl | rfl | rfl | rfl
    · exact .inl hschema
    · obtain ⟨k, w, rfl⟩ := dict_of_taskWithExpression hschema
      exact absurd rfl (hplain _)
    · exact .inr hschema
    · cases v with
      | dict d => exact absurd rfl (hplain d)
      | _ => cases hschema
  rw [KeepsTransitions, hwritten, ← prepareNextClause_iff hstd hnext]
  constructor
  · rintro ⟨spec, hspec, hforall⟩
    obtain ⟨ts, hts, rfl⟩ := (onClauseSpec_plain hv hplain).mp hspec
    exact ⟨ts, hts, hforall⟩
  · rintro ⟨ts, hts, hforall⟩
    exact ⟨_, (onClauseSpec_plain hv hplain).mpr ⟨ts, hts, rfl⟩, hforall⟩

end

/-- An on-clause keeps its transitions if and only if each condition stands in a list and each command can be read. -/
theorem transitions_kept_iff (conf : OnClauseConf) (hstd : conf.Standard) (validate : Bool) (v : OnClauseData conf) :
    KeepsTransitions conf validate v.data ↔ ConditionsInLists conf validate v.data := by
  obtain ⟨v, hv⟩ := v
  cases v with
  | dict d =>
    by_cases htask : conf.taskWithExpression (.dict d)
    · exact iff_of_false (not_keeps_dict hv htask) fun h => h.1 htask
    · obtain ⟨schema, hmem, hschema⟩ := exists_of_oneOf (Bool.and_eq_true_iff.mp hv).1
      simp only [List.mem_cons, List.not_mem_nil, or_false] at hmem
      rcases hmem with rfl | rfl | rfl | rfl
      · obtain ⟨s, hs, -⟩ := text_of_nextTask hschema
        cases hs
      · exact absurd hschema htask
      · cases hschema
      · exact keeps_advanced hstd hv hschema htask
  | _ => exact keeps_plain hstd hv (by simp)

/-! ### Two clauses that are kept in part, and one that is kept -/

/-- Commands within ASCII. -/
def asciiConf : OnClauseConf where
  toCommandConf := InlineCommand.asciiConf
  validateExpr _ := .ok ()

/-- `fail msg="no mail" code=10`. -/
def failCall : WrittenCall asciiConf where
  form := .spaced
  name := "fail".toList
  key := "msg".toList
  value := .double "no mail".toList
  others := [([' '], "code".toList, .number "10".toList 10)]
  name_ne := by decide
  name_word := List.all_eq_true.mp (by decide)
  separated := List.forall_mem_singleton.mpr ⟨by decide, List.forall_mem_singleton.mpr (by decide)⟩
  trailing := List.forall_mem_nil _
  keys_nodup := by decide
  values_written := ⟨(by decide : '"' ∉ "no mail".toList), List.forall_mem_singleton.mpr ⟨by decide, List.all_eq_true.mp (by decide), rfl⟩⟩

/-- A task, and a command with parameters and a condition. -/
def failClause : OnClauseData asciiConf where
  data := .list [.text "email", .dict [("fail msg=\"no mail\" code=10", .text "<% $.v1 %>")]]
  valid := by decide +kernel

theorem fail_kept : KeepsTransitions asciiConf true failClause.data := by
  refine (transitions_kept_iff asciiConf InlineCommand.asciiConf_standard true failClause).mpr ?_
  have hnot : ¬(asciiConf.dictPattern.Matches "email".toList ∨ asciiConf.funcPattern.Matches "email".toList) := by
    decide +kernel
  have hemail : Readable asciiConf "email" := .inl ⟨by decide +kernel, hnot⟩
  have hkey : ∀ k : List Char, k ≠ [] ∧ k.all asciiConf.keyChar → k ≠ [] ∧ ∀ c ∈ k, asciiConf.keyChar c := fun _ h =>
    ⟨h.1, List.all_eq_true.mp h.2⟩
  have hfail : Readable asciiConf "fail msg=\"no mail\" code=10" := by
    refine .inr ⟨.inl (by decide +kernel), by decide +kernel, failCall, by decide +kernel, hkey _ (by decide +kernel), trivial,
      hkey _ (by decide +kernel), ?_, trivial⟩
    exact List.all_eq_true.mp (by decide)
  exact List.forall_mem_cons.mpr ⟨hemail, List.forall_mem_singleton.mpr hfail⟩

/-- A task with a condition as the clause itself. -/
def emailClause : OnClauseData asciiConf where
  data := .dict [("email", .text "<% $.v1 %>")]
  valid := by decide +kernel

/-- A task with a condition after `next`. -/
def nextEmailClause : OnClauseData asciiConf where
  data := .dict [("next", .dict [("email", .text "<% $.v1 %>")])]
  valid := by decide +kernel

/-- The first clause has no transition, and the second one has a transition without its condition. -/
theorem condition_lost :
    ¬KeepsTransitions asciiConf true emailClause.data ∧ ¬KeepsTransitions asciiConf true nextEmailClause.data := by
  refine ⟨not_keeps_dict emailClause.valid (by decide +kernel), fun h => ?_⟩
  have hlists := (keeps_advanced InlineCommand.asciiConf_standard nextEmailClause.valid (by decide +kernel)
    (by decide +kernel)).mp h
  exact (hlists.2.1 _ rfl).1 (by decide +kernel)

end Mistral
