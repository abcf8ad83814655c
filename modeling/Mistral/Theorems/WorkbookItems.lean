import Mistral.Lang.Parser

/-! When the definition of a workflow or an action is cut out of a workbook exactly. -/

namespace Mistral
namespace WorkbookText

variable {blanks : Blanks} {line : List Char}

/-! ### Lines of a workbook in block style -/

/-- The sections of a workbook that hold definitions. -/
inductive Section
  | workflows
  | actions
  deriving DecidableEq, Repr

def Section.word : Section → List Char
  | .workflows => "workflows:".toList
  | .actions => "actions:".toList

/-- The definition that is stored for an item of a section. -/
def storedDefinition (blanks : Blanks) (wbDef name : List Char) : Section → Except Exc (List Char)
  | .workflows => getWorkflowDefinition blanks wbDef name
  | .actions => getActionDefinition blanks wbDef name

section
variable (blanks : Blanks)

def IsBlank (line : List Char) : Prop := Lines.strip blanks.space line = []

def IsComment (line : List Char) : Prop := ['#'] <+: Lines.strip blanks.space line

instance (line : List Char) : Decidable (IsBlank blanks line) := inferInstanceAs (Decidable (_ = _))

instance (line : List Char) : Decidable (IsComment blanks line) := inferInstanceAs (Decidable (_ <+: _))

/-- The blanks at the beginning of a line. -/
def indent (line : List Char) : Nat := (line.takeWhile fun c => blanks.space c && c != '\n').length

/-- Something else than a blank line or a comment. -/
def IsContent (line : List Char) : Prop := ¬IsBlank blanks line ∧ ¬IsComment blanks line

/-- The line moved to the left, where it has that many blanks. -/
def reindent (ident : Nat) (line : List Char) : List Char := if ident ≤ indent blanks line then line.drop ident else line

/-- A key as it is, or in quotes. -/
def Spells (key name : List Char) : Prop := key = name ∨ key = '\'' :: name ++ ['\''] ∨ key = '"' :: name ++ ['"']

/-- An item of a section: its line is the first one below the section, or has the same indentation as the items before it,
    and everything that follows with a larger indentation belongs to it, with the blank lines and comments in between. -/
structure Item (lines : List (List Char)) (sec : Section) (name : List Char) where
  before : List (List Char)
  sectionLine : List Char
  between : List (List Char)
  header : List Char
  body : List (List Char)
  after : List (List Char)
  lines_eq : lines = before ++ sectionLine :: between ++ header :: (body ++ after)
  section_word : ∃ ws rest, sectionLine = ws ++ sec.word ++ rest ∧ ∀ c ∈ ws, blanks.space c
  nested : indent blanks sectionLine < indent blanks header
  first_level : ∀ line ∈ between, IsContent blanks line → indent blanks header ≤ indent blanks line
  spelled : ∃ ws key rest, header = ws ++ (key ++ ':' :: rest) ∧ Spells key name ∧ ∀ c ∈ ws, blanks.space c
  name_plain : ∃ c t, name = c :: t ∧ blanks.space c = false ∧ c ≠ '#'
  deeper : ∀ line ∈ body, IsContent blanks line → indent blanks header < indent blanks line
  ends : ∀ line ∈ after.head?, IsContent blanks line ∧ indent blanks line ≤ indent blanks header

end

section
variable {lines : List (List Char)} {sec : Section} {name : List Char} (item : Item blanks lines sec name)

/-- The lines of the item moved to the left, without blanks at the end. -/
def Item.text : List Char :=
  Lines.rstrip blanks.space ((item.header :: item.body).map (reindent blanks (indent blanks item.header))).flatten ++
    ['\n']

end

/-- The lines that are cut out are those of the item, and they are moved to the left. -/
structure CutExactly {wbDef name : List Char} {sec : Section} (item : Item blanks (Lines.readLines wbDef) sec name) :
    Prop where
  lines : ∃ ls, linesAfter wbDef sec.word = .ok ls ∧
    fromItem blanks (name ++ [':']) ls = item.header :: (item.body ++ item.after)
  text : storedDefinition blanks wbDef name sec = .ok item.text

/-- The line of the item is its name and nothing else, no line like it stands between the first line with the word of the
    section and this one, and no blank line within the item is as long as its indentation. -/
structure Unmistakable {lines : List (List Char)} {sec : Section} {name : List Char}
    (item : Item blanks lines sec name) : Prop where
  header : Lines.strip blanks.space item.header = name ++ [':']
  first : ∀ line ∈ ((item.before ++ item.sectionLine :: item.between).dropWhile fun line => ¬sec.word <:+: line).tail,
    Lines.strip blanks.space line ≠ name ++ [':']
  blanks : ∀ line ∈ item.body.rdropWhile fun line => IsBlank blanks line,
    IsBlank blanks line → indent blanks line < indent blanks item.header

/-! ### The lines that are read -/

theorem Section.newline_not_mem_word (sec : Section) : '\n' ∉ sec.word := by cases sec <;> decide

theorem Section.word_ne_nil (sec : Section) : sec.word ≠ [] := by cases sec <;> decide

/-- Reading begins after the first line with the word of the section. -/
theorem linesAfter_eq {wbDef sectionLine : List Char} {sec : Section} {before between rest : List (List Char)}
    (hlines : Lines.readLines wbDef = before ++ sectionLine :: between ++ rest) (hword : sec.word <:+: sectionLine) :
    linesAfter wbDef sec.word =
      .ok (((before ++ sectionLine :: between).dropWhile fun line => ¬sec.word <:+: line).tail ++ rest) := by
  have hmem : sectionLine ∈ before ++ sectionLine :: between := List.mem_append_right _ List.mem_cons_self
  have hline : sectionLine ∈ Lines.readLines wbDef := by
    rw [hlines]
    exact List.mem_append_left _ hmem
  obtain ⟨i, hi⟩ := Lines.exists_index (Lines.infix_of_line hline hword)
  have hne : ((before ++ sectionLine :: between).dropWhile fun line => ¬sec.word <:+: line) ≠ [] := by
    intro hnil
    simpa [hword] using List.dropWhile_eq_nil_iff.mp hnil _ hmem
  rw [linesAfter, hi]
  simp only
  rw [Lines.tail_readLines_drop sec.newline_not_mem_word sec.word_ne_nil hi, hlines, List.dropWhile_append,
    if_neg (by simpa using hne), List.tail_append_of_ne_nil hne]

/-- The first loop stops at the line of the item exactly where this is the first one that is the name. -/
theorem fromItem_eq_iff {itemName : List Char} {before rest : List (List Char)} {header : List Char} :
    fromItem blanks itemName (before ++ header :: rest) = header :: rest ↔
      Lines.strip blanks.space header = itemName ∧ ∀ line ∈ before, Lines.strip blanks.space line ≠ itemName := by
  constructor
  · intro h
    have hnot := List.head?_dropWhile_not (fun line => decide (Lines.strip blanks.space line ≠ itemName))
      (before ++ header :: rest)
    rw [fromItem] at h
    rw [h] at hnot
    refine ⟨by simpa using hnot, fun line hline heq => ?_⟩
    have hne : before.dropWhile (fun line => Lines.strip blanks.space line ≠ itemName) ≠ [] := by
      intro hnil
      simpa [heq] using List.dropWhile_eq_nil_iff.mp hnil line hline
    rw [List.dropWhile_append, if_neg (by simpa using hne)] at h
    have hlen := congrArg List.length h
    have hpos := List.length_pos_iff.mpr hne
    rw [List.length_append] at hlen
    omega
  · rintro ⟨hheader, hbefore⟩
    have hnil : before.dropWhile (fun line => Lines.strip blanks.space line ≠ itemName) = [] :=
      List.dropWhile_eq_nil_iff.mpr fun line hline => by simpa using hbefore line hline
    rw [fromItem, List.dropWhile_append, hnil, List.isEmpty_nil, if_pos rfl,
      List.dropWhile_cons_of_neg (by simpa using hheader)]

/-! ### The lines that are cut out -/

/-- What the second loop makes of a line within the item. -/
def cutLine (blanks : Blanks) (ident : Nat) (line : List Char) : List Char :=
  if IsBlank blanks line then line else reindent blanks ident line

/-- A line that is not blank: its blanks, and what comes after them. -/
theorem exists_blanks (hline : '\n' ∉ line.dropLast) (hblank : ¬IsBlank blanks line) :
    ∃ ws c t, line = ws ++ c :: t ∧ (∀ b ∈ ws, blanks.space b) ∧ blanks.space c = false ∧
      indent blanks line = ws.length := by
  have hsome : ∃ a ∈ line, blanks.space a = false := by
    by_contra hnone
    exact hblank (Lines.strip_eq_nil_iff.mpr fun a ha => by
      by_contra hspace
      exact hnone ⟨a, ha, Bool.eq_false_iff.mpr hspace⟩)
  obtain ⟨ws, c, t, rfl, hws, hc⟩ := Lines.exists_blanks hsome
  refine ⟨ws, c, t, rfl, hws, hc, ?_⟩
  rw [List.dropLast_append_of_ne_nil (List.cons_ne_nil c t)] at hline
  have hws' : ∀ b ∈ ws, (blanks.space b && b != '\n') = true := fun b hb => by
    rw [hws b hb, Bool.true_and, bne_iff_ne]
    rintro rfl
    exact hline (List.mem_append_left _ hb)
  rw [indent, List.takeWhile_append_of_pos hws', List.takeWhile_cons_of_neg (by simp [hc]), List.append_nil]

theorem lstrip_eq_drop (hline : '\n' ∉ line.dropLast) (hblank : ¬IsBlank blanks line) :
    Lines.lstrip blanks.space line = reindent blanks (indent blanks line) line := by
  obtain ⟨ws, c, t, rfl, hws, hc, hindent⟩ := exists_blanks hline hblank
  rw [reindent, if_pos (Nat.le_refl _), hindent, Lines.lstrip_blanks hws hc, List.drop_left]

/-- The second loop takes the lines of the item, and stops after them. -/
theorem takeBody_eq {ident : Nat} {body after : List (List Char)} (hlines : ∀ line ∈ body ++ after, '\n' ∉ line.dropLast)
    (hdeeper : ∀ line ∈ body, IsContent blanks line → ident < indent blanks line)
    (hends : ∀ line ∈ after.head?, IsContent blanks line ∧ indent blanks line ≤ ident) :
    takeBody blanks ident (body ++ after) = body.map (cutLine blanks ident) := by
  induction body with
  | nil =>
    cases after with
    | nil => rfl
    | cons line after =>
      obtain ⟨⟨hblank, hcomment⟩, hle⟩ := hends line rfl
      obtain ⟨ws, c, t, rfl, hws, hc, hindent⟩ := exists_blanks (hlines line List.mem_cons_self) hblank
      have htemp : Lines.index (Lines.lstrip blanks.space (ws ++ c :: t)) (ws ++ c :: t) = some ws.length := by
        rw [Lines.lstrip_blanks hws hc]
        simpa using Lines.index_after_blanks hws hc []
      have hstrip : Lines.strip blanks.space (ws ++ c :: t) ≠ [] := hblank
      have hhash : ¬['#'] <+: Lines.strip blanks.space (ws ++ c :: t) := hcomment
      rw [List.nil_append, takeBody, if_neg hstrip, if_neg hhash, htemp]
      exact if_neg (Nat.not_lt.mpr (hindent ▸ hle))
  | cons line body ih =>
    have ih := ih (fun l hl => hlines l (List.mem_cons_of_mem _ hl)) fun l hl => hdeeper l (List.mem_cons_of_mem _ hl)
    rw [List.cons_append, takeBody, List.map_cons, ih]
    by_cases hblank : IsBlank blanks line
    · have hstrip : Lines.strip blanks.space line = [] := hblank
      rw [if_pos hstrip, cutLine, if_pos hblank]
    have hstrip : Lines.strip blanks.space line ≠ [] := hblank
    rw [if_neg hstrip, cutLine, if_neg hblank]
    obtain ⟨ws, c, t, rfl, hws, hc, hindent⟩ := exists_blanks (hlines line List.mem_cons_self) hblank
    by_cases hcomment : ['#'] <+: Lines.strip blanks.space (ws ++ c :: t)
    · have hhash : c = '#' := by
        rw [Lines.strip, Lines.lstrip_blanks hws hc] at hcomment
        have hprefix := hcomment.trans (List.rdropWhile_prefix blanks.space (c :: t))
        exact (List.cons_prefix_cons.mp hprefix).1.symm
      subst hhash
      have hpos : Lines.index ['#'] (ws ++ '#' :: t) = some ws.length := Lines.index_after_blanks hws hc t
      rw [if_pos hcomment, hpos, reindent, hindent]
      by_cases hlt : ws.length < ident
      · rw [if_neg (Nat.not_le.mpr hlt)]
        exact congrArg (· :: _) (if_pos hlt)
      · rw [if_pos (Nat.le_of_not_lt hlt)]
        exact congrArg (· :: _) (if_neg hlt)
    · have hlt := hdeeper _ List.mem_cons_self ⟨hblank, hcomment⟩
      have htemp : Lines.index (Lines.lstrip blanks.space (ws ++ c :: t)) (ws ++ c :: t) = some ws.length := by
        rw [Lines.lstrip_blanks hws hc]
        simpa using Lines.index_after_blanks hws hc []
      rw [if_neg hcomment, htemp, reindent, if_pos (Nat.le_of_lt hlt)]
      exact if_pos (hindent ▸ hlt)

/-! ### The text -/

section
variable {ident : Nat} {body : List (List Char)}

theorem indent_le_length (blanks : Blanks) (line : List Char) : indent blanks line ≤ line.length :=
  (List.takeWhile_prefix _).length_le

theorem length_reindent_le (blanks : Blanks) (ident : Nat) (line : List Char) :
    (reindent blanks ident line).length ≤ (cutLine blanks ident line).length := by
  unfold cutLine
  split
  · unfold reindent
    split
    · exact List.length_drop ▸ Nat.sub_le _ _
    · exact Nat.le_refl _
  · exact Nat.le_refl _

theorem length_flatten_le (blanks : Blanks) (ident : Nat) (lines : List (List Char)) :
    (lines.map (reindent blanks ident)).flatten.length ≤ (lines.map (cutLine blanks ident)).flatten.length := by
  induction lines with
  | nil => exact Nat.le_refl _
  | cons line lines ih =>
    simp only [List.map_cons, List.flatten_cons, List.length_append]
    exact Nat.add_le_add (length_reindent_le blanks ident line) ih

/-- Texts of the same length have lines of the same length, where no line of one is longer than that of the other. -/
theorem length_eq_of_flatten {lines : List (List Char)}
    (h : (lines.map (cutLine blanks ident)).flatten.length = (lines.map (reindent blanks ident)).flatten.length) :
    ∀ line ∈ lines, (cutLine blanks ident line).length = (reindent blanks ident line).length := by
  induction lines with
  | nil => exact fun _ h => absurd h List.not_mem_nil
  | cons l lines ih =>
    simp only [List.map_cons, List.flatten_cons, List.length_append] at h
    have hl := length_reindent_le blanks ident l
    have hrest := length_flatten_le blanks ident lines
    intro line hline
    rcases List.mem_cons.mp hline with rfl | hline
    · omega
    · exact ih (by omega) line hline

theorem reindent_blank (h : IsBlank blanks line) : ∀ a ∈ reindent blanks ident line, blanks.space a := by
  have hall := Lines.strip_eq_nil_iff.mp h
  intro a ha
  unfold reindent at ha
  split at ha
  · exact hall a (List.mem_of_mem_drop ha)
  · exact hall a ha

theorem cutLine_eq_iff (hident : 0 < ident) :
    (cutLine blanks ident line).length = (reindent blanks ident line).length ↔
      (IsBlank blanks line → indent blanks line < ident) := by
  unfold cutLine
  split
  next hblank =>
    unfold reindent
    have hle := indent_le_length blanks line
    split
    next hlong =>
      rw [List.length_drop]
      exact ⟨fun h => by omega, fun h => absurd (h hblank) (Nat.not_lt.mpr hlong)⟩
    next hshort => exact ⟨fun _ _ => Nat.lt_of_not_le hshort, fun _ => rfl⟩
  next hblank => exact ⟨fun _ h => absurd h hblank, fun _ => rfl⟩

theorem cutLine_eq_reindent (h : IsBlank blanks line → indent blanks line < ident) :
    cutLine blanks ident line = reindent blanks ident line := by
  unfold cutLine
  split
  next hblank => exact (if_neg (Nat.not_le.mpr (h hblank))).symm
  · rfl

/-- Both texts are the same exactly where no blank line in the middle is moved. -/
theorem rstrip_eq_iff (hident : 0 < ident) (first : List Char) (hlines : ∀ line ∈ body, '\n' ∉ line.dropLast) :
    Lines.rstrip blanks.space (first ++ (body.map (cutLine blanks ident)).flatten) =
        Lines.rstrip blanks.space (first ++ (body.map (reindent blanks ident)).flatten) ↔
      ∀ line ∈ body.rdropWhile fun line => IsBlank blanks line, IsBlank blanks line → indent blanks line < ident := by
  have hparts : (body.rdropWhile fun line => IsBlank blanks line) ++
      (body.rtakeWhile fun line => IsBlank blanks line) = body :=
    List.rdropWhile_append_rtakeWhile
  have htrail : ∀ line ∈ body.rtakeWhile fun line => IsBlank blanks line, IsBlank blanks line := fun line hline => by
    simpa using List.mem_rtakeWhile_imp hline
  have hflat : ∀ f : List Char → List Char, (∀ line, IsBlank blanks line → ∀ a ∈ f line, blanks.space a) →
      Lines.rstrip blanks.space (first ++ (body.map f).flatten) = Lines.rstrip blanks.space
        (first ++ ((body.rdropWhile fun line => IsBlank blanks line).map f).flatten) := fun f hf => by
    conv_lhs => rw [← hparts]
    rw [List.map_append, List.flatten_append, ← List.append_assoc]
    refine Lines.rstrip_append_of_blank fun a ha => ?_
    obtain ⟨_, hl, ha⟩ := List.mem_flatten.mp ha
    obtain ⟨line, hline, rfl⟩ := List.mem_map.mp hl
    exact hf line (htrail line hline) a ha
  rw [hflat (cutLine blanks ident) fun line hblank a ha => by
      rw [cutLine, if_pos hblank] at ha
      exact Lines.strip_eq_nil_iff.mp hblank a ha,
    hflat (reindent blanks ident) fun line => reindent_blank]
  by_cases hnil : (body.rdropWhile fun line => IsBlank blanks line) = []
  · rw [hnil]
    exact ⟨fun _ _ h => absurd h List.not_mem_nil, fun _ => rfl⟩
  -- The last line is not blank, so that nothing before it is stripped.
  obtain ⟨core, last, hcore⟩ : ∃ core last, (body.rdropWhile fun line => IsBlank blanks line) = core ++ [last] :=
    ⟨_, _, (List.dropLast_append_getLast hnil).symm⟩
  have hlast : ¬IsBlank blanks last := by
    have := List.rdropWhile_last_not (fun line => decide (IsBlank blanks line)) body hnil
    simpa [hcore] using this
  have hmem : last ∈ body :=
    (List.rdropWhile_prefix _ _).subset (hcore ▸ List.mem_append_right _ (List.mem_singleton_self last))
  have hsome : ∃ a ∈ reindent blanks ident last, blanks.space a = false := by
    obtain ⟨ws, c, t, rfl, hws, hc, hindent⟩ := exists_blanks (hlines last hmem) hlast
    refine ⟨c, ?_, hc⟩
    unfold reindent
    split
    next hle =>
      rw [List.drop_append_of_le_length (hindent ▸ hle)]
      exact List.mem_append_right _ List.mem_cons_self
    · exact List.mem_append_right _ List.mem_cons_self
  have hcut : cutLine blanks ident last = reindent blanks ident last := if_neg hlast
  rw [hcore]
  simp only [List.map_append, List.map_cons, List.map_nil, List.flatten_append, List.flatten_cons, List.flatten_nil,
    List.append_nil, hcut, ← List.append_assoc]
  rw [Lines.rstrip_append hsome, Lines.rstrip_append hsome, List.append_left_inj, List.append_right_inj]
  constructor
  · intro h line hline
    rcases List.mem_append.mp hline with hline | hline
    · exact (cutLine_eq_iff hident).mp (length_eq_of_flatten (congrArg List.length h) line hline)
    · exact fun hblank => absurd (List.mem_singleton.mp hline ▸ hblank) hlast
  · intro h
    exact congrArg List.flatten (List.map_congr_left fun line hline =>
      cutLine_eq_reindent (h line (List.mem_append_left _ hline)))

end

/-! ### Items -/

theorem indent_lt_of_item {lines : List (List Char)} {sec : Section} {name : List Char}
    (item : Item blanks lines sec name) : 0 < indent blanks item.header := Nat.lt_of_le_of_lt (Nat.zero_le _) item.nested

/-- The line of an item that is its name alone. -/
theorem index_header {header name : List Char} (hline : '\n' ∉ header.dropLast)
    (hname : ∃ c t, name = c :: t ∧ blanks.space c = false)
    (hheader : Lines.strip blanks.space header = name) :
    ¬IsBlank blanks header ∧ Lines.index name header = some (indent blanks header) := by
  obtain ⟨c, t, rfl, hc⟩ := hname
  have hblank : ¬IsBlank blanks header := fun h => List.cons_ne_nil c t (hheader.symm.trans h)
  obtain ⟨ws, c', t', rfl, hws, hc', hindent⟩ := exists_blanks hline hblank
  refine ⟨hblank, ?_⟩
  rw [Lines.strip, Lines.lstrip_blanks hws hc'] at hheader
  obtain ⟨r, hr⟩ := List.rdropWhile_prefix blanks.space (c' :: t')
  rw [Lines.rstrip] at hheader
  rw [hheader] at hr
  rw [hindent, ← hr]
  exact Lines.index_after_blanks hws hc r

/-- A definition is cut out exactly where the line of its item is unmistakable and no blank line in it is to be moved. -/
theorem cut_exactly_iff {wbDef name : List Char} {sec : Section} (item : Item blanks (Lines.readLines wbDef) sec name) :
    CutExactly item ↔ Unmistakable item := by
  have hword : sec.word <:+: item.sectionLine := by
    obtain ⟨ws, rest, heq, -⟩ := item.section_word
    exact heq ▸ List.infix_append ws sec.word rest
  have hafter := linesAfter_eq item.lines_eq hword
  have hbreak : ∀ line ∈ item.header :: (item.body ++ item.after), '\n' ∉ line.dropLast := fun line hline =>
    Lines.newline_not_mem_dropLast (s := wbDef) (item.lines_eq.symm ▸ List.mem_append_right _ hline)
  have hstored : storedDefinition blanks wbDef name sec = parseDefFromWb blanks wbDef sec.word (name ++ [':']) := by
    cases sec <;> rfl
  have hplain : ∃ c t, name ++ [':'] = c :: t ∧ blanks.space c = false := by
    obtain ⟨c, t, rfl, hc, -⟩ := item.name_plain
    exact ⟨c, t ++ [':'], rfl, hc⟩
  -- What is returned where the first loop stops at the item.
  have htext : Lines.strip blanks.space item.header = name ++ [':'] →
      fromItem blanks (name ++ [':']) (((item.before ++ item.sectionLine :: item.between).dropWhile fun line =>
        ¬sec.word <:+: line).tail ++ item.header :: (item.body ++ item.after)) =
          item.header :: (item.body ++ item.after) →
      (storedDefinition blanks wbDef name sec = .ok item.text ↔
        ∀ line ∈ item.body.rdropWhile fun line => IsBlank blanks line,
          IsBlank blanks line → indent blanks line < indent blanks item.header) := by
    intro hheader hfrom
    have hhead : '\n' ∉ item.header.dropLast := hbreak _ List.mem_cons_self
    obtain ⟨hblank, hindex⟩ := index_header hhead hplain hheader
    have hbody := takeBody_eq (fun line hline => hbreak line (List.mem_cons_of_mem _ hline)) item.deeper item.ends
    rw [hstored, parseDefFromWb, hafter]
    simp only [Except.map]
    rw [hfrom, definition, hindex, Option.getD_some, hbody, lstrip_eq_drop hhead hblank, Except.ok.injEq, Item.text,
      List.append_left_inj]
    exact rstrip_eq_iff (indent_lt_of_item item) _ fun line hline =>
      hbreak line (List.mem_cons_of_mem _ (List.mem_append_left _ hline))
  constructor
  · rintro ⟨⟨ls, hls, hfrom⟩, hresult⟩
    rw [hafter] at hls
    obtain rfl := Except.ok.inj hls
    obtain ⟨hheader, hfirst⟩ := fromItem_eq_iff.mp hfrom
    exact ⟨hheader, hfirst, (htext hheader hfrom).mp hresult⟩
  · intro h
    exact ⟨⟨_, hafter, fromItem_eq_iff.mpr ⟨h.header, h.first⟩⟩,
      (htext h.header (fromItem_eq_iff.mpr ⟨h.header, h.first⟩)).mpr h.blanks⟩

/-! ### A task with the name of another workflow -/

def asciiBlanks : Blanks where
  space c := c ∈ [' ', '\t', '\n', '\r']
  newline := by decide
  hash := by decide

/-- Two workflows, of which the first has a task with the name of the second. -/
def nestedName : List Char := "workflows:\n a:\n  tasks:\n   b:\n    action: x\n b:\n  tasks: y\n".toList

/-- The second workflow. -/
def secondWorkflow : Item asciiBlanks (Lines.readLines nestedName) .workflows ['b'] where
  before := []
  sectionLine := "workflows:\n".toList
  between := [" a:\n".toList, "  tasks:\n".toList, "   b:\n".toList, "    action: x\n".toList]
  header := " b:\n".toList
  body := ["  tasks: y\n".toList]
  after := []
  lines_eq := by decide
  section_word := ⟨[], ['\n'], by decide, nofun⟩
  nested := by decide
  first_level := by unfold IsContent; decide
  spelled := ⟨[' '], ['b'], ['\n'], by decide, .inl rfl, List.forall_mem_singleton.mpr (by decide)⟩
  name_plain := ⟨'b', [], rfl, by decide, by decide⟩
  deeper := by unfold IsContent; decide
  ends := nofun

/-- The task is stored instead. -/
theorem task_cut_out :
    storedDefinition asciiBlanks nestedName ['b'] .workflows = .ok "b:\n action: x\n".toList ∧
      ¬CutExactly secondWorkflow := by
  have htask : storedDefinition asciiBlanks nestedName ['b'] .workflows = .ok "b:\n action: x\n".toList := by decide
  refine ⟨htask, fun h => ?_⟩
  have htext : secondWorkflow.text = "b:\n tasks: y\n".toList := by decide
  exact absurd (Except.ok.inj (htask.symm.trans (h.text.trans (congrArg _ htext)))) (by decide)

end WorkbookText
end Mistral
