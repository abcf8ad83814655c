import Mistral.Lang.Base

/-! Inline Jinja expressions (`mistral/expressions/jinja_expression.py`). -/

namespace Mistral
namespace JinjaExpression

/-- The exceptions that the evaluation tells apart. -/
inductive JinjaExc
  | dbError (msg : String)
  | evaluation (msg : String)
  | grammar (msg : String)
  | indexError
  | memoryError
  | other (msg : String)
  deriving DecidableEq, Repr

/-- `str(e)`. -/
def JinjaExc.toString : JinjaExc → String
  | .dbError msg | .evaluation msg | .grammar msg | .other msg => msg
  | .indexError => "list index out of range"
  | .memoryError => ""

/-- How Jinja reads a template. -/
structure Lexer where
  /-- The text between the delimiters, where the template is one expression and nothing else. -/
  single : List Char → Option (List Char)
  /-- `_env.parse`, with the text of a `TemplateError`. -/
  parse : List Char → Except String Unit

/-- What Jinja makes of templates that it reads with a lexer. -/
structure Jinja (lexer : Lexer) (Context Value : Type) where
  /-- `compile_expression(expression)(**ctx)`. -/
  compile : List Char → Context → Except JinjaExc Value
  str : Value → Except JinjaExc (List Char)
  /-- `from_string(expression).render(**ctx)`. -/
  render : List Char → Context → Except JinjaExc (List Char)
  /-- A text as a value. -/
  text : List Char → Value
  render_single : ∀ s e ctx, lexer.single s = some e → render s ctx = compile e ctx >>= str

/-! ### Recognition and validation -/

/-- `JINJA_BLOCK_REGEXP`. -/
def findBlockPattern : Pattern := .seq (.literal ['{', '%']) (.seq (.few CommandConf.dot) (.literal ['%', '}']))

/-- `find_expression_pattern.findall`: the matches, with what is between their delimiters. -/
def findExpressions (s : List Char) : List (List Char × List Char) :=
  (CommandConf.jinja.findall s).map fun found => (found, (found.drop 2).dropLast.dropLast)

/-- `InlineJinjaEvaluator.is_expression`. -/
def isExpression (s : List Char) : Bool := !(findExpressions s).isEmpty || !(findBlockPattern.findall s).isEmpty

/-- `InlineJinjaEvaluator.validate` of a string. -/
def validate (lexer : Lexer) (expression : List Char) : Except JinjaExc Unit :=
  (lexer.parse expression).mapError fun msg => .grammar ("Syntax error '" ++ msg ++ "'.")

/-! ### Evaluation -/

section
variable {lexer : Lexer} {Context Value : Type} (jinja : Jinja lexer Context Value) (dataContext : Context)

/-- `JinjaEvaluator.evaluate`. -/
def evaluateExpression (expression : List Char) : Except JinjaExc Value :=
  match (do let result ← jinja.compile expression dataContext; let _ ← jinja.str result; .ok result) with
  | .error .memoryError =>
    .error (.evaluation ("Expression evaluation exceeded the available memory [expression=" ++ String.ofList expression ++ "]"))
  | res => res

/-- The handler of `InlineJinjaEvaluator.evaluate`. -/
def reraise (expression : List Char) : JinjaExc → JinjaExc
  | .dbError msg => .dbError msg
  | .evaluation msg => .evaluation msg
  | e => .evaluation ("Can not evaluate Jinja expression [expression=" ++ String.ofList expression ++ ", error=" ++
    e.toString ++ "]")

/-- `InlineJinjaEvaluator.evaluate`. -/
def evaluate (expression : List Char) : Except JinjaExc Value :=
  let patterns := findExpressions expression
  let result : Except JinjaExc Value := match patterns with
    | [] => .error .indexError
    | (found, expr) :: _ =>
      if found = expression then evaluateExpression jinja dataContext expr
      else (jinja.render expression dataContext).map jinja.text
  result.mapError (reraise expression)

/-! ### The purpose -/

/-- The native value of a single expression, and of other templates what Jinja makes of them. -/
def reference (expression : List Char) : Except JinjaExc Value :=
  match lexer.single expression with
  | some e => do let result ← jinja.compile e dataContext; let _ ← jinja.str result; .ok result
  | none => (jinja.render expression dataContext).map jinja.text

end

end JinjaExpression
end Mistral
