import Mistral.Theorems.CommandScan

/-! Which commands with inline input are parsed completely: the name, and every parameter with the text of its value. -/

namespace Mistral

/-! ### What is written -/

/-- A value of a parameter. A list and a number carry what they are. -/
inductive InputValue
  | double (text : List Char)
  | single (text : List Char)
  | yaql (body : List Char)
  | jinja (body : List Char)
  | list (inside : List Char) (items : List SpecData)
  | flag (b : Bool)
  | null
  | number (text : List Char) (q : ℚ)

namespace InputValue

/-- How a value is written. -/
def source : InputValue → List Char
  | double text => '"' :: (text ++ ['"'])
  | single text => '\'' :: (text ++ ['\''])
  | yaql body => '<' :: '%' :: (body ++ ['%', '>'])
  | jinja body => '{' :: '{' :: (body ++ ['}', '}'])
  | list inside _ => '[' :: (inside ++ [']'])
  | flag b => (if b then "true" else "false").toList
  | null => "null".toList
  | number text _ => text

/-- The value itself. An expression is evaluated later and remains a text. -/
def value : InputValue → SpecData
  | double text => .text (String.ofList text)
  | single text => .text (String.ofList text)
  | yaql body => .text (String.ofList (source (yaql body)))
  | jinja body => .text (String.ofList (source (jinja body)))
  | list _ items => .list items
  | flag b => .flag b
  | null => .null
  | number _ q => .number q

attribute [grind =] source value

/-- The characters of numbers in JSON. -/
def numberChar (c : Char) : Bool := c.isDigit || c ∈ ['-', '+', '.', 'e', 'E']

/-- Texts do not have their quotes inside, and lists and numbers are written in JSON. -/
def Written (conf : CommandConf) : InputValue → Prop
  | double text => '"' ∉ text
  | single text => '\'' ∉ text
  | list inside items => conf.loads (String.ofList (source (list inside items))) = some (.list items)
  | number text q => text ≠ [] ∧ (∀ c ∈ text, numberChar c) ∧ conf.loads (String.ofList text) = some (.number q)
  | _ => True

/-- The delimiter does not end before its place at the end. -/
def ClosesOnce (d body : List Char) : Prop := ∀ t c u, body = t ++ c :: u → ¬d <+: c :: (u ++ d)

theorem closesOnce_of_not_mem {a : Char} {d body : List Char} (h : a ∉ body) : ClosesOnce (a :: d) body := by
  rintro t c u rfl hprefix
  obtain rfl := (List.cons_prefix_cons.mp hprefix).1
  exact h (List.mem_append_right t List.mem_cons_self)

/-- A value that is taken whole where the rest follows it: an expression is on one line and is not closed before its end,
    a list is on one line and no other bracket closes after it on this line, and a number has nothing but digits. -/
def TakenWhole : InputValue → List Char → Prop
  | yaql body, _ => '\n' ∉ body ∧ ClosesOnce ['%', '>'] body
  | jinja body, _ => '\n' ∉ body ∧ ClosesOnce ['}', '}'] body
  | list inside _, rest => '\n' ∉ inside ∧ ']' ∉ rest.takeWhile (· != '\n')
  | number text _, _ => ∀ c ∈ text, c.isDigit
  | _, _ => True

end InputValue

/-- Parameters as they are written, each after a space. -/
def inputText (params : List (List Char × InputValue)) : List Char :=
  params.flatMap fun p => ' ' :: (p.1 ++ '=' :: p.2.source)

/-- The characters around parameters: spaces, and commas and the brackets of a list of parameters. -/
def IsFilling (s : List Char) : Prop := ∀ c ∈ s, c ∈ [' ', ',', '(', ')']

/-- Parameters after a filling each, with one more after the last of them. -/
def filledText (tail : List Char) : List (List Char × List Char × InputValue) → List Char
  | [] => tail
  | (filling, k, v) :: params => filling ++ (k ++ '=' :: (v.source ++ filledText tail params))

/-- A command with the values of its parameters. -/
structure InlineCommand (conf : CommandConf) where
  name : List Char
  params : List (List Char × InputValue)
  name_ne : name ≠ []
  name_chars : ∀ c ∈ name, conf.classes.word c || c == '.'
  params_ne : params ≠ []
  keys_nodup : (params.map Prod.fst).Nodup
  values_written : ∀ p ∈ params, p.2.Written conf

def InlineCommand.text {conf : CommandConf} (cmd : InlineCommand conf) : List Char := cmd.name ++ inputText cmd.params

/-- What `re` and `json` do: the classes are those of ASCII on its characters, no word and no digit is a space, constants
    are read as what they are, and expressions are no JSON. -/
structure CommandConf.Standard (conf : CommandConf) : Prop where
  word_ascii : ∀ c : Char, c.toNat < 128 → conf.classes.word c = CharClasses.ascii.word c
  space_ascii : ∀ c : Char, c.toNat < 128 → conf.classes.space c = CharClasses.ascii.space c
  digit_ascii : ∀ c : Char, c.toNat < 128 → conf.classes.digit c = CharClasses.ascii.digit c
  word_not_space : ∀ c, conf.classes.word c → conf.classes.space c = false
  digit_not_space : ∀ c, conf.classes.digit c → conf.classes.space c = false
  loads_flag : ∀ b : Bool, conf.loads (if b then "true" else "false") = some (.flag b)
  loads_null : conf.loads "null" = some .null
  loads_yaql : ∀ s, conf.loads (String.ofList ('<' :: s)) = none
  loads_jinja : ∀ s, conf.loads (String.ofList ('{' :: '{' :: s)) = none

/-- The pattern finds every parameter with the whole text of its value, and the command is parsed as its name and the
    values. -/
def ParsedCompletely {conf : CommandConf} (cmd : InlineCommand conf) : Prop :=
  (conf.scanParams 0 cmd.text).map (fun p => (p.1, conf.strip p.2)) = cmd.params.map (fun p => (p.1, p.2.source)) ∧
    conf.parseCmdAndInput (String.ofList cmd.text) =
      .ok (String.ofList cmd.name, cmd.params.map fun p => (String.ofList p.1, p.2.value))

/-- Every parameter has a name that the pattern knows and a value that is taken whole. -/
def AllTakenWhole (conf : CommandConf) : List (List Char × InputValue) → Prop
  | [] => True
  | (k, v) :: params => (k ≠ [] ∧ ∀ c ∈ k, conf.keyChar c) ∧ v.TakenWhole (inputText params) ∧ AllTakenWhole conf params

/-- The same of parameters with any filling. -/
def AllFilledWhole (conf : CommandConf) (tail : List Char) : List (List Char × List Char × InputValue) → Prop
  | [] => True
  | (_, k, v) :: params =>
    (k ≠ [] ∧ ∀ c ∈ k, conf.keyChar c) ∧ v.TakenWhole (filledText tail params) ∧ AllFilledWhole conf tail params

/-! ### Values at their place -/

namespace CommandConf
variable {conf : CommandConf} {v : InputValue} {s w rest : List Char} {c d : Char}

theorem Standard.space_eq_false (hstd : conf.Standard) (hc : c.toNat < 128 ∧ CharClasses.ascii.space c = false) :
    conf.classes.space c = false := (hstd.space_ascii c hc.1).trans hc.2

theorem Standard.digit_eq_false (hstd : conf.Standard) (hc : c.toNat < 128 ∧ CharClasses.ascii.digit c = false) :
    conf.classes.digit c = false := (hstd.digit_ascii c hc.1).trans hc.2

theorem ne_of_numberChar (hc : InputValue.numberChar c) (hd : InputValue.numberChar d = false) : c ≠ d := by
  rintro rfl
  rw [hd] at hc
  cases hc

theorem toNat_lt_of_numberChar (hc : InputValue.numberChar c) : c.toNat < 128 := by
  rw [InputValue.numberChar, Bool.or_eq_true] at hc
  rcases hc with hc | hc
  · rw [Char.isDigit, Bool.and_eq_true, decide_eq_true_iff, decide_eq_true_iff] at hc
    exact Nat.lt_of_le_of_lt (show c.toNat ≤ 57 from hc.2) (by decide)
  · simp only [List.mem_cons, List.not_mem_nil, or_false, decide_eq_true_iff] at hc
    rcases hc with rfl | rfl | rfl | rfl | rfl <;> decide

theorem space_of_numberChar (hstd : conf.Standard) (hc : InputValue.numberChar c) : conf.classes.space c = false := by
  refine hstd.space_eq_false ⟨toNat_lt_of_numberChar hc, ?_⟩
  refine Bool.eq_false_iff.mpr fun hspace => ?_
  simp only [CharClasses.ascii, List.mem_cons, List.not_mem_nil, or_false, decide_eq_true_iff] at hspace
  rcases hspace with rfl | rfl | rfl | rfl | rfl | rfl | rfl | rfl | rfl | rfl <;> exact absurd hc (by decide)

theorem rests_double (hstd : conf.Standard) : conf.paramValue.rests ('"' :: s) =
    (Pattern.seq (.many (· != '"')) (.seq (.char '"') conf.spaces)).rests s := by
  have hdigit : conf.classes.digit '"' = false := hstd.digit_eq_false (by decide)
  simp [paramValue, quoted, expression, jinja, yaql, Pattern.rests, Pattern.plus, Pattern.literal, Pattern.char, hdigit]

theorem rests_single (hstd : conf.Standard) : conf.paramValue.rests ('\'' :: s) =
    (Pattern.seq (.many (· != '\'')) (.seq (.char '\'') conf.spaces)).rests s := by
  have hdigit : conf.classes.digit '\'' = false := hstd.digit_eq_false (by decide)
  simp [paramValue, quoted, expression, jinja, yaql, Pattern.rests, Pattern.plus, Pattern.literal, Pattern.char, hdigit]

theorem rests_yaql (hstd : conf.Standard) : conf.paramValue.rests ('<' :: '%' :: s) =
    (Pattern.seq (.few dot) (.literal ['%', '>'])).rests s := by
  have hdigit : conf.classes.digit '<' = false := hstd.digit_eq_false (by decide)
  simp [paramValue, quoted, expression, jinja, yaql, Pattern.rests, Pattern.plus, Pattern.literal, Pattern.char, hdigit]

theorem rests_jinja (hstd : conf.Standard) : conf.paramValue.rests ('{' :: '{' :: s) =
    (Pattern.seq (.few dot) (.literal ['}', '}'])).rests s := by
  have hdigit : conf.classes.digit '{' = false := hstd.digit_eq_false (by decide)
  simp [paramValue, quoted, expression, jinja, yaql, Pattern.rests, Pattern.plus, Pattern.literal, Pattern.char, hdigit]

theorem rests_list (hstd : conf.Standard) : conf.paramValue.rests ('[' :: s) =
    (Pattern.seq (.many dot) (.seq (.char ']') conf.spaces)).rests s := by
  have hdigit : conf.classes.digit '[' = false := hstd.digit_eq_false (by decide)
  simp [paramValue, quoted, expression, jinja, yaql, Pattern.rests, Pattern.plus, Pattern.literal, Pattern.char, hdigit]

theorem rests_flag (hstd : conf.Standard) (b : Bool) : conf.paramValue.rests ((InputValue.flag b).source ++ s) = [s] := by
  have ht : conf.classes.digit 't' = false := hstd.digit_eq_false (by decide)
  have hf : conf.classes.digit 'f' = false := hstd.digit_eq_false (by decide)
  cases b <;> simp [InputValue.source, paramValue, quoted, expression, jinja, yaql, Pattern.rests, Pattern.plus,
    Pattern.literal, Pattern.char, ht, hf]

theorem rests_null (hstd : conf.Standard) : conf.paramValue.rests (InputValue.null.source ++ s) = [s] := by
  have hdigit : conf.classes.digit 'n' = false := hstd.digit_eq_false (by decide)
  simp [InputValue.source, paramValue, quoted, expression, jinja, yaql, Pattern.rests, Pattern.plus, Pattern.literal,
    Pattern.char, hdigit]

theorem rests_number (hc : InputValue.numberChar c) :
    conf.paramValue.rests (c :: s) = (Pattern.plus conf.classes.digit).rests (c :: s) := by
  have hne : ∀ d, InputValue.numberChar d = false → (c = d) = False := fun d hd => eq_false (ne_of_numberChar hc hd)
  simp [paramValue, quoted, expression, jinja, yaql, Pattern.rests, Pattern.plus, Pattern.literal, Pattern.char,
    hne '"' (by decide), hne '\'' (by decide), hne '<' (by decide), hne '{' (by decide), hne '[' (by decide),
    hne 't' (by decide), hne 'f' (by decide), hne 'n' (by decide)]

/-- The first match of the pattern of values takes the value, and spaces after it. -/
def FoundBefore (conf : CommandConf) (v : InputValue) (rest : List Char) : Prop :=
  ∃ u r, rest = u ++ r ∧ (∀ a ∈ u, conf.classes.space a) ∧ (conf.paramValue.rests (v.source ++ rest)).head? = some r

theorem all_dot_iff : (∀ a ∈ s, dot a) ↔ '\n' ∉ s := by
  constructor
  · exact fun h hmem => absurd (h '\n' hmem) (by decide)
  · exact fun h a ha => bne_iff_ne.mpr fun heq => h (heq ▸ ha)

theorem head?_spaces : (conf.spaces.rests s).head? = some (s.dropWhile conf.classes.space) := Pattern.head?_manyRests

theorem foundBefore_dropWhile
    (h : (conf.paramValue.rests (v.source ++ rest)).head? = some (rest.dropWhile conf.classes.space)) :
    conf.FoundBefore v rest :=
  ⟨rest.takeWhile conf.classes.space, _, List.takeWhile_append_dropWhile.symm, fun _ ha => List.mem_takeWhile_imp ha, h⟩

theorem foundBefore_all (h : (conf.paramValue.rests (v.source ++ rest)).head? = some rest) : conf.FoundBefore v rest :=
  ⟨[], rest, rfl, nofun, h⟩

theorem head?_quoted (hs : d ∉ s) :
    ((Pattern.seq (.many (· != d)) (.seq (.char d) conf.spaces)).rests (s ++ d :: rest)).head? =
      some (rest.dropWhile conf.classes.space) := by
  have hdrop : (s ++ d :: rest).dropWhile (· != d) = d :: rest := by
    rw [List.dropWhile_append_of_pos fun a ha => bne_iff_ne.mpr fun heq : a = d => hs (heq ▸ ha),
      List.dropWhile_cons_of_neg (by simp)]
  have hmany : ((Pattern.many (· != d)).rests (s ++ d :: rest)).head? = some (d :: rest) :=
    Pattern.head?_manyRests.trans (congrArg some hdrop)
  exact Pattern.head?_rests_seq hmany (Pattern.head?_char_seq.trans head?_spaces)

/-- An expression is found whole if and only if it is on one line and is not closed before its end. -/
theorem found_closing {d : List Char} (hd : d ≠ []) :
    (∃ u r, rest = u ++ r ∧ (∀ a ∈ u, conf.classes.space a) ∧
      ((Pattern.seq (.few dot) (.literal d)).rests (s ++ (d ++ rest))).head? = some r) ↔
        '\n' ∉ s ∧ InputValue.ClosesOnce d s := by
  constructor
  · rintro ⟨u, r, rfl, -, hr⟩
    obtain ⟨t, ht, hdot, hearlier⟩ := (Pattern.head?_few_literal hd).mp hr
    obtain rfl : s = t := by
      rcases List.append_eq_append_iff.mp ht with ⟨t', rfl, ht'⟩ | ⟨s', rfl, hs'⟩
      · cases t' with
        | nil => exact (List.append_nil s).symm
        | cons a t' =>
          refine absurd ?_ (hearlier s a t' rfl)
          rw [List.cons_append, ← List.cons_append, ← ht']
          exact List.prefix_append d _
      · -- The match leaves no more than what follows the expression.
        have hlength := congrArg List.length hs'
        simp only [List.length_append] at hlength
        obtain rfl : s' = [] := List.length_eq_zero_iff.mp (by omega)
        exact List.append_nil t
    refine ⟨all_dot_iff.mp hdot, fun t c u' hs hprefix => hearlier t c u' hs ?_⟩
    rw [List.cons_append, ← List.append_assoc, ← List.cons_append]
    exact hprefix.trans (List.prefix_append _ r)
  · rintro ⟨hline, hcloses⟩
    refine ⟨[], rest, rfl, nofun, (Pattern.head?_few_literal hd).mpr ⟨s, rfl, all_dot_iff.mpr hline, ?_⟩⟩
    intro t c u hs hprefix
    rw [List.cons_append, ← List.append_assoc, ← List.cons_append] at hprefix
    refine hcloses t c u hs (List.prefix_of_prefix_length_le hprefix (List.prefix_append _ rest) ?_)
    rw [List.length_cons, List.length_append]
    omega

/-- The last of a character before others of a kind. -/
theorem eq_of_append_cons {p : Char → Bool} {u u' : List Char} (hc : p c = false) (hu : ∀ a ∈ u, p a)
    (hu' : ∀ a ∈ u', p a) (h : s ++ c :: u = w ++ c :: u') : s = w ∧ u = u' := by
  have hnot : ∀ {u : List Char}, (∀ a ∈ u, p a) → c ∉ u := fun hu hmem => by
    rw [hu c hmem] at hc
    cases hc
  rcases List.append_eq_append_iff.mp h with ⟨t, rfl, ht⟩ | ⟨t, rfl, ht⟩
  · cases t with
    | nil => exact ⟨(List.append_nil s).symm, (List.cons.inj ht).2⟩
    | cons a t =>
      obtain ⟨rfl, rfl⟩ := List.cons.inj ht
      exact absurd (List.mem_append_right _ List.mem_cons_self) (hnot hu)
  · cases t with
    | nil => exact ⟨List.append_nil w, (List.cons.inj ht).2.symm⟩
    | cons a t =>
      obtain ⟨rfl, rfl⟩ := List.cons.inj ht
      exact absurd (List.mem_append_right _ List.mem_cons_self) (hnot hu')

/-- A list is found whole if and only if it is on one line and no other bracket closes after it on this line. -/
theorem found_list (hstd : conf.Standard) :
    (∃ u r, rest = u ++ r ∧ (∀ a ∈ u, conf.classes.space a) ∧
      ((Pattern.seq (.many dot) (.seq (.char ']') conf.spaces)).rests (s ++ ']' :: rest)).head? = some r) ↔
        '\n' ∉ s ∧ ']' ∉ rest.takeWhile (· != '\n') := by
  have hfirst : ∀ {r},
      ((Pattern.seq (.many dot) (.seq (.char ']') conf.spaces)).rests (s ++ ']' :: rest)).head? = some r ↔ _ :=
    Pattern.head?_many_char (by decide) fun s' => List.ne_nil_of_mem (List.mem_of_head? head?_spaces)
  constructor
  · rintro ⟨u, r, rfl, hu, hr⟩
    obtain ⟨t, s', ht, hdot, hlast, hr⟩ := hfirst.mp hr
    obtain rfl := Option.some.inj (head?_spaces.symm.trans hr)
    have hs' := (List.takeWhile_append_dropWhile (p := conf.classes.space) (l := s')).symm
    have hcut : s ++ ']' :: u = t ++ ']' :: s'.takeWhile conf.classes.space := by
      refine (List.append_left_inj (s'.dropWhile conf.classes.space)).mp ?_
      rw [List.append_assoc, List.append_assoc, List.cons_append, List.cons_append, ht, ← hs']
    obtain ⟨rfl, rfl⟩ :=
      eq_of_append_cons (hstd.space_eq_false (by decide)) hu (fun _ ha => List.mem_takeWhile_imp ha) hcut
    rw [← hs']
    exact ⟨all_dot_iff.mp hdot, hlast⟩
  · rintro ⟨hline, hlast⟩
    exact ⟨rest.takeWhile conf.classes.space, _, List.takeWhile_append_dropWhile.symm,
      fun _ ha => List.mem_takeWhile_imp ha, hfirst.mpr ⟨s, rest, rfl, all_dot_iff.mpr hline, hlast, head?_spaces⟩⟩

theorem all_of_dropWhile_length {p : Char → Bool} (h : ((s ++ rest).dropWhile p).length ≤ rest.length) :
    ∀ a ∈ s, p a := by
  induction s with
  | nil => exact nofun
  | cons c s ih =>
    rw [List.cons_append] at h
    by_cases hc : p c
    · rw [List.dropWhile_cons_of_pos hc] at h
      exact List.forall_mem_cons.mpr ⟨hc, ih h⟩
    · rw [List.dropWhile_cons_of_neg hc, List.length_cons, List.length_append] at h
      omega

theorem takenWhole_of_foundBefore (hstd : conf.Standard) (hv : v.Written conf) (h : conf.FoundBefore v rest) :
    v.TakenWhole rest := by
  obtain ⟨u, r, hrest, hu, hr⟩ := h
  cases v with
  | double text => trivial
  | single text => trivial
  | yaql body =>
    rw [InputValue.source, List.cons_append, List.cons_append, List.append_assoc, rests_yaql hstd] at hr
    exact (found_closing (by decide)).mp ⟨u, r, hrest, hu, hr⟩
  | jinja body =>
    rw [InputValue.source, List.cons_append, List.cons_append, List.append_assoc, rests_jinja hstd] at hr
    exact (found_closing (by decide)).mp ⟨u, r, hrest, hu, hr⟩
  | list inside items =>
    rw [InputValue.source, List.cons_append, List.append_assoc, rests_list hstd] at hr
    exact (found_list hstd).mp ⟨u, r, hrest, hu, hr⟩
  | flag b => trivial
  | null => trivial
  | number text q =>
    obtain ⟨hne, hchars, -⟩ := hv
    obtain ⟨c, text, rfl⟩ := List.exists_cons_of_ne_nil hne
    have hdigits : ∀ a ∈ c :: text, conf.classes.digit a := by
      rw [InputValue.source, List.cons_append, rests_number (hchars c List.mem_cons_self)] at hr
      by_cases hc : conf.classes.digit c
      · obtain rfl := Option.some.inj ((Pattern.head?_rests_plus hc).symm.trans hr)
        have hle : ((text ++ rest).dropWhile conf.classes.digit).length ≤ rest.length := by
          have hlength := congrArg List.length hrest
          rw [List.length_append] at hlength
          omega
        exact List.forall_mem_cons.mpr ⟨hc, all_of_dropWhile_length hle⟩
      · rw [Pattern.plus, Pattern.rests, Pattern.rests, if_neg hc] at hr
        cases hr
    intro a ha
    exact (hstd.digit_ascii a (toNat_lt_of_numberChar (hchars a ha))).symm.trans (hdigits a ha)

/-- A value that is taken whole is found where no digit follows it. -/
theorem foundBefore_of_takenWhole (hstd : conf.Standard) (hv : v.Written conf)
    (hrest : ∀ c ∈ rest.head?, conf.classes.digit c = false) (h : v.TakenWhole rest) : conf.FoundBefore v rest := by
  cases v with
  | double text =>
    refine foundBefore_dropWhile ?_
    rw [InputValue.source, List.cons_append, List.append_assoc, rests_double hstd]
    exact head?_quoted hv
  | single text =>
    refine foundBefore_dropWhile ?_
    rw [InputValue.source, List.cons_append, List.append_assoc, rests_single hstd]
    exact head?_quoted hv
  | yaql body =>
    rw [FoundBefore, InputValue.source, List.cons_append, List.cons_append, List.append_assoc, rests_yaql hstd]
    exact (found_closing (by decide)).mpr h
  | jinja body =>
    rw [FoundBefore, InputValue.source, List.cons_append, List.cons_append, List.append_assoc, rests_jinja hstd]
    exact (found_closing (by decide)).mpr h
  | list inside items =>
    rw [FoundBefore, InputValue.source, List.cons_append, List.append_assoc, rests_list hstd]
    exact (found_list hstd).mpr h
  | flag b => exact foundBefore_all (by rw [rests_flag hstd]; rfl)
  | null => exact foundBefore_all (by rw [rests_null hstd]; rfl)
  | number text q =>
    obtain ⟨hne, hchars, -⟩ := hv
    obtain ⟨c, text, rfl⟩ := List.exists_cons_of_ne_nil hne
    have hdigits : ∀ a ∈ c :: text, conf.classes.digit a := fun a ha =>
      (hstd.digit_ascii a (toNat_lt_of_numberChar (hchars a ha))).trans (h a ha)
    obtain ⟨hc, htext⟩ := List.forall_mem_cons.mp hdigits
    have hstop : rest.dropWhile conf.classes.digit = rest := by
      cases rest with
      | nil => rfl
      | cons a rest => exact List.dropWhile_cons_of_neg (by simp [hrest a rfl])
    refine foundBefore_all ?_
    rw [InputValue.source, List.cons_append, rests_number (hchars c List.mem_cons_self), Pattern.head?_rests_plus hc,
      List.dropWhile_append_of_pos htext, hstop]

theorem first_of_char_seq {b : Pattern} {r : List Char} (h : r ∈ (Pattern.seq (.char c) b).rests s) :
    ∃ t, s = c :: (t ++ r) := by
  obtain ⟨s', hs', hr⟩ := Pattern.mem_rests_seq.mp h
  obtain rfl := Pattern.mem_rests_char.mp hs'
  obtain ⟨t, rfl⟩ := Pattern.suffix_of_mem_rests hr
  exact ⟨t, rfl⟩

/-- A match of the pattern of values takes something, and not a space first. -/
theorem first_of_match (hstd : conf.Standard) {r : List Char} (h : r ∈ conf.paramValue.rests s) :
    ∃ c t, s = c :: (t ++ r) ∧ conf.classes.space c = false := by
  have hascii : ∀ c : Char, c.toNat < 128 ∧ CharClasses.ascii.space c = false → (∃ t, s = c :: (t ++ r)) →
      ∃ c t, s = c :: (t ++ r) ∧ conf.classes.space c = false := fun c hc ⟨t, ht⟩ => ⟨c, t, ht, hstd.space_eq_false hc⟩
  have hopened : ∀ {c : Char} {d : List Char} {b : Pattern}, r ∈ (Pattern.seq (.literal (c :: d)) b).rests s →
      ∃ t, s = c :: (t ++ r) := fun h => by
    obtain ⟨s', hs', hr⟩ := Pattern.mem_rests_seq.mp h
    obtain ⟨t, rfl⟩ := first_of_char_seq hs'
    obtain ⟨t', rfl⟩ := Pattern.suffix_of_mem_rests hr
    exact ⟨t ++ t', by rw [List.append_assoc]⟩
  rcases List.mem_append.mp h with h | h
  · exact hascii '"' (by decide) (first_of_char_seq h)
  rcases List.mem_append.mp h with h | h
  · exact hascii '\'' (by decide) (first_of_char_seq h)
  rcases List.mem_append.mp h with h | h
  · rcases List.mem_append.mp h with h | h
    · exact hascii '{' (by decide) (hopened h)
    · exact hascii '<' (by decide) (hopened h)
  rcases List.mem_append.mp h with h | h
  · exact hascii '[' (by decide) (first_of_char_seq h)
  rcases List.mem_append.mp h with h | h
  · exact hascii 't' (by decide) (first_of_char_seq h)
  rcases List.mem_append.mp h with h | h
  · exact hascii 'f' (by decide) (first_of_char_seq h)
  rcases List.mem_append.mp h with h | h
  · exact hascii 'n' (by decide) (first_of_char_seq h)
  · obtain ⟨t, hne, rfl, hdigits⟩ := Pattern.mem_rests_plus.mp h
    obtain ⟨c, t, rfl⟩ := List.exists_cons_of_ne_nil hne
    exact ⟨c, t, rfl, hstd.digit_not_space c (hdigits c List.mem_cons_self)⟩

theorem takenWhole_nil (h : v.TakenWhole rest) : v.TakenWhole [] := by
  cases v with
  | list inside items => exact ⟨h.1, List.not_mem_nil⟩
  | _ => exact h

/-- The pattern matches something where a value begins that is taken whole by itself. -/
theorem paramValue_matches (hstd : conf.Standard) (hv : v.Written conf)
    (hrest : ∀ c ∈ rest.head?, conf.classes.digit c = false) (h : v.TakenWhole []) : conf.paramValue.rests (v.source ++ rest) ≠ [] := by
  cases v with
  | list inside items =>
    rw [InputValue.source, List.cons_append, List.append_assoc, rests_list hstd]
    refine List.ne_nil_of_mem (a := rest.dropWhile conf.classes.space) ?_
    refine Pattern.mem_rests_seq.mpr ⟨']' :: rest, Pattern.mem_manyRests.mpr ⟨inside, rfl, all_dot_iff.mpr h.1⟩, ?_⟩
    exact Pattern.mem_rests_seq.mpr ⟨rest, Pattern.mem_rests_char.mpr rfl, List.mem_of_head? head?_spaces⟩
  | _ =>
    obtain ⟨u, r, -, -, hr⟩ := foundBefore_of_takenWhole hstd hv hrest h
    exact List.ne_nil_of_mem (List.mem_of_head? hr)

/-- A value neither begins nor ends with a space. -/
theorem source_ends (hstd : conf.Standard) (hv : v.Written conf) :
    (∃ c t, v.source = c :: t ∧ conf.classes.space c = false) ∧
      ∃ t c, v.source = t ++ [c] ∧ conf.classes.space c = false := by
  have hascii : ∀ c : Char, c.toNat < 128 ∧ CharClasses.ascii.space c = false → conf.classes.space c = false :=
    fun c hc => hstd.space_eq_false hc
  cases v with
  | double text => exact ⟨⟨_, _, rfl, hascii '"' (by decide)⟩, '"' :: text, '"', rfl, hascii '"' (by decide)⟩
  | single text => exact ⟨⟨_, _, rfl, hascii '\'' (by decide)⟩, '\'' :: text, '\'', rfl, hascii '\'' (by decide)⟩
  | yaql body =>
    refine ⟨⟨_, _, rfl, hascii '<' (by decide)⟩, '<' :: '%' :: (body ++ ['%']), '>', ?_, hascii '>' (by decide)⟩
    simp [InputValue.source]
  | jinja body =>
    refine ⟨⟨_, _, rfl, hascii '{' (by decide)⟩, '{' :: '{' :: (body ++ ['}']), '}', ?_, hascii '}' (by decide)⟩
    simp [InputValue.source]
  | list inside items => exact ⟨⟨_, _, rfl, hascii '[' (by decide)⟩, '[' :: inside, ']', rfl, hascii ']' (by decide)⟩
  | flag b =>
    cases b with
    | false => exact ⟨⟨_, _, rfl, hascii 'f' (by decide)⟩, "fals".toList, 'e', rfl, hascii 'e' (by decide)⟩
    | true => exact ⟨⟨_, _, rfl, hascii 't' (by decide)⟩, "tru".toList, 'e', rfl, hascii 'e' (by decide)⟩
  | null => exact ⟨⟨_, _, rfl, hascii 'n' (by decide)⟩, "nul".toList, 'l', rfl, hascii 'l' (by decide)⟩
  | number text q =>
    obtain ⟨hne, hchars, -⟩ := hv
    obtain ⟨c, t, rfl⟩ := List.exists_cons_of_ne_nil hne
    refine ⟨⟨c, t, rfl, space_of_numberChar hstd (hchars c List.mem_cons_self)⟩, (c :: t).dropLast,
      (c :: t).getLast hne, ?_, ?_⟩
    · exact (List.dropLast_concat_getLast hne).symm
    · exact space_of_numberChar hstd (hchars _ (List.getLast_mem hne))

/-- What is found and strips to a value is the value with spaces. -/
theorem foundBefore_of_strip (hstd : conf.Standard) {r : List Char} (hr : (conf.paramValue.rests (w ++ r)).head? = some r)
    (hstrip : conf.strip w = v.source) :
    ∃ u, w = v.source ++ u ∧ (∀ a ∈ u, conf.classes.space a) ∧ conf.FoundBefore v (u ++ r) := by
  obtain ⟨c, t, ht, hc⟩ := first_of_match hstd (List.mem_of_head? hr)
  obtain rfl : w = c :: t := List.append_cancel_right ht
  obtain ⟨u, hu, hspace⟩ := strip_eq (s := t) hc
  rw [hstrip] at hu
  refine ⟨u, hu, hspace, u, r, rfl, hspace, ?_⟩
  rw [← List.append_assoc, ← hu]
  exact hr

theorem convert_eq (hstd : conf.Standard) (hv : v.Written conf) (hstrip : conf.strip w = v.source) :
    conf.convert w = v.value := by
  rw [convert, hstrip]
  cases v with
  | double text => simp [InputValue.source, InputValue.value]
  | single text => simp [InputValue.source, InputValue.value]
  | yaql body => exact congrArg (Option.getD · _) (hstd.loads_yaql _)
  | jinja body => exact congrArg (Option.getD · _) (hstd.loads_jinja _)
  | list inside items =>
    change (conf.loads (String.ofList (InputValue.list inside items).source)).getD _ = _
    rw [hv]
    rfl
  | flag b =>
    have hloads := hstd.loads_flag b
    cases b <;> exact congrArg (Option.getD · _) hloads
  | null => exact congrArg (Option.getD · _) hstd.loads_null
  | number text q =>
    obtain ⟨hne, hchars, hloads⟩ := hv
    obtain ⟨c, text, rfl⟩ := List.exists_cons_of_ne_nil hne
    have hc := hchars c List.mem_cons_self
    split
    next heq => exact absurd (List.cons.inj heq).1 (ne_of_numberChar hc (by decide))
    next heq => exact absurd (List.cons.inj heq).1 (ne_of_numberChar hc (by decide))
    next => exact congrArg (Option.getD · _) hloads

theorem keyChar_of_space (hstd : conf.Standard) (hc : conf.classes.space c) : conf.keyChar c = false := by
  refine Bool.eq_false_iff.mpr fun hkey => ?_
  simp only [keyChar, Bool.or_eq_true, beq_iff_eq] at hkey
  rcases hkey with (rfl | rfl) | hword
  · rw [hstd.space_eq_false (by decide)] at hc
    cases hc
  · rw [hstd.space_eq_false (by decide)] at hc
    cases hc
  · rw [hstd.word_not_space c hword] at hc
    cases hc

/-! ### All parameters of a command -/

variable {params : List (List Char × List Char × InputValue)} {k r f tail : List Char}

theorem Standard.digit_of_filling (hstd : conf.Standard) (hf : IsFilling f) (hc : c ∈ f) : conf.classes.digit c = false := by
  have hc := hf c hc
  simp only [List.mem_cons, List.not_mem_nil, or_false] at hc
  rcases hc with rfl | rfl | rfl | rfl <;> exact hstd.digit_eq_false (by decide)

theorem Standard.keyChar_of_filling (hstd : conf.Standard) (hf : IsFilling f) (hc : c ∈ f) : conf.keyChar c = false := by
  have hc := hf c hc
  simp only [List.mem_cons, List.not_mem_nil, or_false] at hc
  rcases hc with rfl | rfl | rfl | rfl <;> rw [keyChar, hstd.word_ascii _ (by decide)] <;> decide

/-- No digit follows a value. -/
theorem filledText_head (hstd : conf.Standard) (hf : ∀ p ∈ params, p.1 ≠ [] ∧ IsFilling p.1) (htail : IsFilling tail) :
    ∀ c ∈ (filledText tail params).head?, conf.classes.digit c = false := by
  cases params with
  | nil => exact fun c hc => hstd.digit_of_filling htail (List.mem_of_mem_head? hc)
  | cons p params =>
    obtain ⟨f, k, v⟩ := p
    obtain ⟨hne, hfill⟩ := hf _ List.mem_cons_self
    obtain ⟨a, f, rfl⟩ := List.exists_cons_of_ne_nil hne
    intro c hc
    obtain rfl : a = c := Option.some.inj hc
    exact hstd.digit_of_filling hfill List.mem_cons_self

/-- The parameter at the beginning is found with what the first match of the pattern of values takes. -/
theorem scanParams_cons (hk : k ≠ [] ∧ ∀ c ∈ k, conf.keyChar c) (hr : (conf.paramValue.rests (w ++ r)).head? = some r) :
    conf.scanParams 0 (k ++ '=' :: (w ++ r)) = (k, w) :: conf.scanParams 0 r := by
  refine scanParams_of_match ?_
  rw [matchParam_of_key hk.1 hk.2, hr, Option.map_some, List.length_append, Nat.add_sub_cancel, List.take_left]

theorem scanParams_filling (hstd : conf.Standard) (hf : IsFilling f) : conf.scanParams 0 (f ++ s) = conf.scanParams 0 s :=
  scanParams_spaces fun _ ha => hstd.keyChar_of_filling hf ha

theorem scanParams_of_allFilledWhole (hstd : conf.Standard) (hw : ∀ p ∈ params, p.2.2.Written conf)
    (hf : ∀ p ∈ params, p.1 ≠ [] ∧ IsFilling p.1) (htail : IsFilling tail) (h : AllFilledWhole conf tail params) :
    (conf.scanParams 0 (filledText tail params)).map (fun p => (p.1, conf.strip p.2)) =
      params.map fun p => (p.2.1, p.2.2.source) := by
  induction params with
  | nil =>
    rw [filledText, ← List.append_nil tail, scanParams_filling hstd htail]
    rfl
  | cons p params ih =>
    obtain ⟨f, k, v⟩ := p
    obtain ⟨hk, hv, hall⟩ := h
    have hwritten : v.Written conf := hw _ List.mem_cons_self
    have hfill : ∀ p ∈ params, p.1 ≠ [] ∧ IsFilling p.1 := fun p hp => hf p (List.mem_cons_of_mem _ hp)
    obtain ⟨u, r, hrest, hu, hr⟩ := foundBefore_of_takenWhole hstd hwritten (filledText_head hstd hfill htail) hv
    have ih := ih (fun p hp => hw p (List.mem_cons_of_mem _ hp)) hfill hall
    obtain ⟨hfirst, hlast⟩ := source_ends hstd hwritten
    rw [hrest, scanParams_spaces fun a ha => keyChar_of_space hstd (hu a ha)] at ih
    rw [hrest, ← List.append_assoc] at hr
    rw [filledText, scanParams_filling hstd (hf _ List.mem_cons_self).2, hrest, ← List.append_assoc, scanParams_cons hk hr,
      List.map_cons, List.map_cons, ih, strip_append hfirst hlast hu]

/-- What is found with its key and its text is taken whole by itself. -/
theorem takenWhole_of_found (hstd : conf.Standard) {n : Nat} (hv : v.Written conf)
    (h : (k, v.source) ∈ (conf.scanParams n s).map fun p => (p.1, conf.strip p.2)) :
    (k ≠ [] ∧ ∀ c ∈ k, conf.keyChar c) ∧ v.TakenWhole [] := by
  obtain ⟨⟨k, w⟩, hmem, heq⟩ := List.mem_map.mp h
  obtain ⟨rfl, hstrip⟩ := Prod.mk.inj heq
  obtain ⟨hne, hkey, r, hr⟩ := mem_scanParams hmem
  obtain ⟨u, -, -, hbefore⟩ := foundBefore_of_strip hstd hr hstrip
  exact ⟨⟨hne, hkey⟩, takenWhole_nil (takenWhole_of_foundBefore hstd hv hbefore)⟩

theorem allFilledWhole_of_scanParams (hstd : conf.Standard) (hw : ∀ p ∈ params, p.2.2.Written conf)
    (hf : ∀ p ∈ params, p.1 ≠ [] ∧ IsFilling p.1) (htail : IsFilling tail)
    (h : (conf.scanParams 0 (filledText tail params)).map (fun p => (p.1, conf.strip p.2)) =
      params.map fun p => (p.2.1, p.2.2.source)) : AllFilledWhole conf tail params := by
  have hfound : ∀ p ∈ params, (p.2.1 ≠ [] ∧ ∀ c ∈ p.2.1, conf.keyChar c) ∧ p.2.2.TakenWhole [] := fun p hp =>
    takenWhole_of_found hstd (hw p hp) (h ▸ List.mem_map.mpr ⟨p, hp, rfl⟩)
  induction params with
  | nil => trivial
  | cons p params ih =>
    obtain ⟨f, k, v⟩ := p
    obtain ⟨hk, hv⟩ := hfound _ List.mem_cons_self
    have hwritten : v.Written conf := hw _ List.mem_cons_self
    have hfill : ∀ p ∈ params, p.1 ≠ [] ∧ IsFilling p.1 := fun p hp => hf p (List.mem_cons_of_mem _ hp)
    obtain ⟨r, hr⟩ : ∃ r, (conf.paramValue.rests (v.source ++ filledText tail params)).head? = some r :=
      Option.isSome_iff_exists.mp
        (List.isSome_head?.mpr (paramValue_matches hstd hwritten (filledText_head hstd hfill htail) hv))
    obtain ⟨w, hw'⟩ := Pattern.suffix_of_mem_rests (List.mem_of_head? hr)
    rw [← hw'] at hr
    rw [filledText, scanParams_filling hstd (hf _ List.mem_cons_self).2, ← hw', scanParams_cons hk hr, List.map_cons,
      List.map_cons, List.cons.injEq, Prod.mk.injEq] at h
    obtain ⟨⟨-, hstrip⟩, h⟩ := h
    obtain ⟨u, rfl, hu, hbefore⟩ := foundBefore_of_strip hstd hr hstrip
    rw [List.append_assoc] at hw'
    have hrest : u ++ r = filledText tail params := List.append_cancel_left hw'
    rw [hrest] at hbefore
    refine ⟨hk, takenWhole_of_foundBefore hstd hwritten hbefore, ih (fun p hp => hw p (List.mem_cons_of_mem _ hp)) hfill ?_
      fun p hp => hfound p (List.mem_cons_of_mem _ hp)⟩
    rw [← hrest, scanParams_spaces fun a ha => keyChar_of_space hstd (hu a ha)]
    exact h

/-- The values of parameters that are found with their texts. -/
theorem toParams_found (hstd : conf.Standard) {params : List (List Char × InputValue)} (hw : ∀ p ∈ params, p.2.Written conf)
    (hnodup : (params.map Prod.fst).Nodup) {found : List (List Char × List Char)}
    (h : found.map (fun p => (p.1, conf.strip p.2)) = params.map fun p => (p.1, p.2.source)) :
    conf.toParams found = params.map fun p => (String.ofList p.1, p.2.value) := by
  have hkeys : found.map Prod.fst = params.map Prod.fst := by
    have := congrArg (List.map Prod.fst) h
    rwa [List.map_map, List.map_map] at this
  rw [toParams_of_nodup (hkeys ▸ hnodup)]
  clear hkeys hnodup
  induction params generalizing found with
  | nil => rw [List.map_eq_nil_iff.mp h, List.map_nil, List.map_nil]
  | cons p params ih =>
    obtain ⟨q, found, rfl, hq, h⟩ := List.map_eq_cons_iff.mp h
    obtain ⟨hkey, hstrip⟩ := Prod.mk.inj hq
    rw [List.map_cons, List.map_cons, ih (fun p hp => hw p (List.mem_cons_of_mem _ hp)) h, hkey,
      convert_eq hstd (hw p List.mem_cons_self) hstrip]

/-! ### Parameters with single spaces -/

theorem inputText_eq (params : List (List Char × InputValue)) :
    inputText params = filledText [] (params.map fun p => ([' '], p)) := by
  induction params with
  | nil => rfl
  | cons p params ih =>
    rw [List.map_cons, filledText, ← ih]
    simp [inputText]

theorem allTakenWhole_iff (params : List (List Char × InputValue)) :
    AllTakenWhole conf params ↔ AllFilledWhole conf [] (params.map fun p => ([' '], p)) := by
  induction params with
  | nil => exact Iff.rfl
  | cons p params ih =>
    obtain ⟨k, v⟩ := p
    rw [List.map_cons, AllTakenWhole, AllFilledWhole, ← ih, inputText_eq]

/-- The parameters of a text with single spaces are found if and only if they are taken whole. -/
theorem scanParams_inputText (hstd : conf.Standard) {params : List (List Char × InputValue)}
    (hw : ∀ p ∈ params, p.2.Written conf) :
    (conf.scanParams 0 (inputText params)).map (fun p => (p.1, conf.strip p.2)) = params.map (fun p => (p.1, p.2.source)) ↔
      AllTakenWhole conf params := by
  have hw' : ∀ p ∈ params.map fun p => ([' '], p), p.2.2.Written conf := List.forall_mem_map.mpr hw
  have hf : ∀ p ∈ params.map fun p => ([' '], p), p.1 ≠ [] ∧ IsFilling p.1 := List.forall_mem_map.mpr fun _ _ =>
    ⟨List.cons_ne_nil _ _, List.forall_mem_singleton.mpr List.mem_cons_self⟩
  have hsame : params.map (fun p => (p.1, p.2.source)) =
      (params.map fun p => ([' '], p)).map fun p => (p.2.1, p.2.2.source) := by
    rw [List.map_map]
    rfl
  rw [inputText_eq, allTakenWhole_iff, hsame]
  exact ⟨allFilledWhole_of_scanParams hstd hw' hf (List.forall_mem_nil _),
    scanParams_of_allFilledWhole hstd hw' hf (List.forall_mem_nil _)⟩

end CommandConf

namespace InlineCommand
variable {conf : CommandConf} (cmd : InlineCommand conf)

theorem text_eq : ∃ s, inputText cmd.params = ' ' :: s := by
  obtain ⟨p, params, hparams⟩ := List.exists_cons_of_ne_nil cmd.params_ne
  exact ⟨_, by rw [hparams, inputText, List.flatMap_cons, List.cons_append]⟩

theorem scanParams_text : conf.scanParams 0 cmd.text = conf.scanParams 0 (inputText cmd.params) := by
  obtain ⟨s, hs⟩ := cmd.text_eq
  have hequals : '=' ∉ cmd.name := fun h => absurd (cmd.name_chars '=' h) (by simp [conf.classes.word_equals])
  rw [text, hs, CommandConf.scanParams_name hequals CommandConf.keyChar_space (by decide),
    ← CommandConf.scanParams_spaces (w := [' ']) (List.forall_mem_singleton.mpr CommandConf.keyChar_space)]
  rfl

theorem parse_text : conf.parseCmdAndInput (String.ofList cmd.text) =
    .ok (String.ofList cmd.name, conf.toParams (conf.scanParams 0 (inputText cmd.params))) := by
  obtain ⟨s, hs⟩ := cmd.text_eq
  have hspace : ' ' ∈ (String.ofList cmd.text).toList := by
    rw [String.toList_ofList, text, hs]
    exact List.mem_append_right _ List.mem_cons_self
  rw [CommandConf.parseCmdAndInput, if_neg (not_not_intro hspace), String.toList_ofList, cmd.scanParams_text, text, hs,
    CommandConf.matchPrefix_cmdPattern cmd.name_ne cmd.name_chars (.inl rfl)]

/-- A command with inline input is parsed completely if and only if every parameter has a name that the pattern knows and
    a value that is taken whole. -/
theorem parsedCompletely_iff (hstd : conf.Standard) : ParsedCompletely cmd ↔ AllTakenWhole conf cmd.params := by
  rw [ParsedCompletely, cmd.scanParams_text, cmd.parse_text, CommandConf.scanParams_inputText hstd cmd.values_written]
  refine and_iff_left_of_imp fun h => ?_
  rw [CommandConf.toParams_found hstd cmd.values_written cmd.keys_nodup
    ((CommandConf.scanParams_inputText hstd cmd.values_written).mpr h)]

/-- The classes of ASCII, and JSON of some texts. -/
def asciiConf : CommandConf where
  classes := .ascii
  loads s := [("true", .flag true), ("false", .flag false), ("null", .null), ("-1", .number (-1)), ("10", .number 10),
    ("[1]", .list [.number 1]), ("[2]", .list [.number 2])].lookup s

theorem ascii_space {c : Char} (hc : CharClasses.ascii.space c) :
    CharClasses.ascii.word c = false ∧ CharClasses.ascii.digit c = false := by
  simp only [CharClasses.ascii, List.mem_cons, List.not_mem_nil, or_false, decide_eq_true_iff] at hc
  rcases hc with rfl | rfl | rfl | rfl | rfl | rfl | rfl | rfl | rfl | rfl <;> decide

theorem asciiConf_standard : asciiConf.Standard := by
  have hspace : ∀ c, CharClasses.ascii.word c ∨ CharClasses.ascii.digit c → CharClasses.ascii.space c = false := by
    intro c hc
    refine Bool.eq_false_iff.mpr fun h => ?_
    obtain ⟨hword, hdigit⟩ := ascii_space h
    rw [hword, hdigit] at hc
    exact absurd hc (by decide)
  have hnone : ∀ (c : Char) (s : List Char), c ∉ ['t', 'f', 'n', '-', '1', '['] →
      asciiConf.loads (String.ofList (c :: s)) = none := by
    intro c s hc
    refine List.lookup_eq_none_iff.mpr fun e he => bne_iff_ne.mpr fun heq => hc ?_
    have hhead : some c = e.1.toList.head? := by rw [← heq, String.toList_ofList, List.head?_cons]
    have hheads : ∀ k ∈ ["true", "false", "null", "-1", "10", "[1]", "[2]"], ∀ c, some c = k.toList.head? →
        c ∈ ['t', 'f', 'n', '-', '1', '['] := by simp
    exact hheads e.1 (List.mem_map_of_mem (f := Prod.fst) he) c hhead
  exact {
    word_ascii := fun _ _ => rfl
    space_ascii := fun _ _ => rfl
    digit_ascii := fun _ _ => rfl
    word_not_space := fun c hc => hspace c (.inl hc)
    digit_not_space := fun c hc => hspace c (.inr hc)
    loads_flag := fun b => by cases b <;> rfl
    loads_null := rfl
    loads_yaql := fun s => hnone _ _ (by decide)
    loads_jinja := fun s => hnone _ _ (by decide) }

/-- `std.echo a="x y" b=<% $.v %> c=[1] d=10`. -/
def plain : InlineCommand asciiConf where
  name := "std.echo".toList
  params := [(['a'], .double "x y".toList), (['b'], .yaql " $.v ".toList), (['c'], .list ['1'] [.number 1]),
    (['d'], .number "10".toList 10)]
  name_ne := by decide
  name_chars := List.all_eq_true.mp (by decide)
  params_ne := nofun
  keys_nodup := by decide
  values_written := by
    intro p hp
    simp only [List.mem_cons, List.not_mem_nil, or_false] at hp
    rcases hp with rfl | rfl | rfl | rfl
    · exact (by decide : '"' ∉ "x y".toList)
    · trivial
    · exact rfl
    · exact ⟨by decide, List.all_eq_true.mp (by decide), rfl⟩

/-- `std.echo a=-1`. -/
def negative : InlineCommand asciiConf where
  name := "std.echo".toList
  params := [(['a'], .number "-1".toList (-1))]
  name_ne := by decide
  name_chars := List.all_eq_true.mp (by decide)
  params_ne := nofun
  keys_nodup := by decide
  values_written := List.forall_mem_singleton.mpr ⟨by decide, List.all_eq_true.mp (by decide), rfl⟩

/-- `std.echo a=[1] b=[2]`. -/
def twoLists : InlineCommand asciiConf where
  name := "std.echo".toList
  params := [(['a'], .list ['1'] [.number 1]), (['b'], .list ['2'] [.number 2])]
  name_ne := by decide
  name_chars := List.all_eq_true.mp (by decide)
  params_ne := nofun
  keys_nodup := by decide
  values_written := List.forall_mem_cons.mpr ⟨rfl, List.forall_mem_singleton.mpr rfl⟩

theorem plain_parsed : ParsedCompletely plain := by
  have hkey : ∀ c, asciiConf.keyChar c → [c] ≠ [] ∧ ∀ a ∈ [c], asciiConf.keyChar a := fun c hc =>
    ⟨List.cons_ne_nil c [], List.forall_mem_singleton.mpr hc⟩
  refine (plain.parsedCompletely_iff asciiConf_standard).mpr ⟨hkey 'a' (by decide), trivial, hkey 'b' (by decide),
    ⟨by decide, ?_⟩, hkey 'c' (by decide), ⟨by decide, by decide⟩, hkey 'd' (by decide), ?_, trivial⟩
  · exact InputValue.closesOnce_of_not_mem (by decide)
  · exact List.all_eq_true.mp (by decide)

/-- A negative number is dropped, and a list takes the parameter after it. -/
theorem dropped_and_merged : ¬ParsedCompletely negative ∧ ¬ParsedCompletely twoLists :=
  ⟨fun h => absurd h.1 (by decide), fun h => absurd h.1 (by decide)⟩

end InlineCommand

end Mistral
