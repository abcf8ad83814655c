import Mistral.Expressions.JinjaExpression

/-! Which templates are evaluated as Jinja does it. -/

namespace Mistral
namespace JinjaExpression

variable {lexer : Lexer} {s : List Char}

/-- What is between the delimiters, where the first match of the regular expression is the whole string. -/
def wholeExpression (s : List Char) : Option (List Char) :=
  match findExpressions s with
  | [] => none
  | (found, expr) :: _ => if found = s then some expr else none

/-- A template that is recognised and valid is evaluated as Jinja does it, whatever the values are. -/
def EvaluatedAsJinja (lexer : Lexer) (s : List Char) : Prop :=
  isExpression s → validate lexer s = .ok () → ∀ {Context Value : Type} (jinja : Jinja lexer Context Value)
    (dataContext : Context), (evaluate jinja dataContext s).toOption = (reference jinja dataContext s).toOption

/-- The regular expression finds an expression, and it takes the string for one expression where the lexer does. -/
def NotionsCoincide (lexer : Lexer) (s : List Char) : Prop :=
  isExpression s → validate lexer s = .ok () → findExpressions s ≠ [] ∧ wholeExpression s = lexer.single s

/-! ### Values that tell expressions apart -/

/-- A Jinja in which one expression is a number, and every other one is the empty text. -/
def oneNumber (lexer : Lexer) (e₀ : List Char) : Jinja lexer Unit (Option (List Char)) where
  compile e _ := .ok (if e = e₀ then none else some [])
  str v := .ok (v.getD ['1'])
  render s _ := .ok (match lexer.single s with
    | some e => if e = e₀ then ['1'] else []
    | none => [])
  text := some
  render_single s e _ h := by
    rw [h]
    by_cases he : e = e₀ <;> simp [he, bind, Except.bind]

theorem toOption_mapError {ε ε' α : Type} (f : ε → ε') (x : Except ε α) : (x.mapError f).toOption = x.toOption := by
  cases x <;> rfl

theorem toOption_evaluateExpression {Context Value : Type} (jinja : Jinja lexer Context Value) (dataContext : Context)
    (e : List Char) : (evaluateExpression jinja dataContext e).toOption =
      (do let result ← jinja.compile e dataContext; let _ ← jinja.str result; .ok result : Except JinjaExc Value).toOption := by
  unfold evaluateExpression
  split
  next h => rw [h]; rfl
  · rfl

/-- Evaluation by the notion of an expression that the regular expression has. -/
theorem toOption_evaluate {Context Value : Type} (jinja : Jinja lexer Context Value) (dataContext : Context)
    (hfound : findExpressions s ≠ []) : (evaluate jinja dataContext s).toOption =
      (match wholeExpression s with
        | some e => do let result ← jinja.compile e dataContext; let _ ← jinja.str result; .ok result
        | none => (jinja.render s dataContext).map jinja.text : Except JinjaExc Value).toOption := by
  obtain ⟨⟨found, expr⟩, rest, hpatterns⟩ := List.exists_cons_of_ne_nil hfound
  simp only [evaluate, wholeExpression, hpatterns, toOption_mapError]
  by_cases h : found = s
  · rw [if_pos h, if_pos h]
    exact toOption_evaluateExpression jinja dataContext expr
  · rw [if_neg h, if_neg h]

/-- Templates are evaluated as Jinja does it exactly where the notions of an expression coincide. -/
theorem evaluated_as_jinja_iff (lexer : Lexer) (s : List Char) : EvaluatedAsJinja lexer s ↔ NotionsCoincide lexer s := by
  constructor
  · intro h hexpr hvalid
    have hfound : findExpressions s ≠ [] := by
      intro hnil
      have hagree := h hexpr hvalid (oneNumber lexer []) ()
      have hraises : (evaluate (oneNumber lexer []) () s).toOption = none := by rw [evaluate, hnil]; rfl
      rw [hraises, reference] at hagree
      cases hsingle : lexer.single s <;> rw [hsingle] at hagree <;> cases hagree
    refine ⟨hfound, ?_⟩
    by_contra hne
    -- An expression that only one of the two notions finds is the number.
    cases hwhole : wholeExpression s with
    | some b =>
      have hagree := h hexpr hvalid (oneNumber lexer b) ()
      rw [toOption_evaluate _ _ hfound, hwhole, reference] at hagree
      cases hsingle : lexer.single s with
      | none =>
        rw [hsingle] at hagree
        simp [oneNumber, hsingle, Except.toOption, Except.map, bind, Except.bind] at hagree
      | some e =>
        have heb : e ≠ b := fun heb => hne (by rw [hwhole, hsingle, heb])
        rw [hsingle] at hagree
        simp [oneNumber, heb, Except.toOption, bind, Except.bind] at hagree
    | none =>
      obtain ⟨e, hsingle⟩ := Option.ne_none_iff_exists'.mp fun hnone => hne (hwhole.trans hnone.symm)
      have hagree := h hexpr hvalid (oneNumber lexer e) ()
      rw [toOption_evaluate _ _ hfound, hwhole, reference, hsingle] at hagree
      simp [oneNumber, hsingle, Except.toOption, Except.map, bind, Except.bind] at hagree
  · intro h hexpr hvalid Context Value jinja dataContext
    obtain ⟨hfound, hsame⟩ := h hexpr hvalid
    rw [toOption_evaluate jinja dataContext hfound, hsame]
    rfl

/-! ### A template without expressions -/

/-- What the lexer says of the template below. -/
def acceptingLexer : Lexer where
  single _ := none
  parse _ := .ok ()

theorem block_raises : ¬EvaluatedAsJinja acceptingLexer "{% if true %}x{% endif %}".toList := by
  intro h
  have hagree := h (by decide) rfl (oneNumber acceptingLexer []) ()
  have hraises : (evaluate (oneNumber acceptingLexer []) () "{% if true %}x{% endif %}".toList).toOption = none := by decide
  exact absurd (hraises.symm.trans hagree) (by decide)

end JinjaExpression
end Mistral
