import Mistral.Lang.Base
import Mistral.Lib.Replacing

/-! Inline YAQL expressions (`mistral/expressions/yaql_expression.py`). -/

namespace Mistral
namespace YaqlExpression

/-- `YAQLEvaluator.evaluate`, which evaluates one expression without its delimiters, and `str`. The number counts the
    evaluations: the same expression may have another value each time (`uuid()`, `random()`). -/
structure Evaluator (Context Value ε : Type) where
  evaluate : Nat → List Char → Context → Except ε Value
  str : Value → List Char

/-- What `InlineYAQLEvaluator.evaluate` returns: a text, or the value of a single expression. -/
inductive Result (Value : Type)
  | text (t : List Char)
  | value (v : Value)
  deriving DecidableEq, Repr

/-- `expr.strip("<%>")`. -/
def stripDelimiters (expr : List Char) : List Char :=
  let isDelimiter (c : Char) := c ∈ ['<', '%', '>']
  ((expr.dropWhile isDelimiter).reverse.dropWhile isDelimiter).reverse

/-- `find_inline_expressions`. -/
def findInlineExpressions (s : List Char) : List (List Char) := CommandConf.yaql.findall s

section
variable {Context Value ε : Type} (evaluator : Evaluator Context Value ε) (dataContext : Context)

/-- The value of an expression with its delimiters, if it is the one after `n` others. -/
def Evaluator.evaluateExpr (n : Nat) (expr : List Char) : Except ε Value :=
  evaluator.evaluate n (stripDelimiters expr) dataContext

def Result.toText : Result Value → List Char
  | .text t => t
  | .value v => evaluator.str v

/-- The body of the loop of `InlineYAQLEvaluator.evaluate`. -/
def replaceExpr (expression : List Char) (result : Result Value) (expr : List Char × Nat) : Except ε (Result Value) :=
  (evaluator.evaluateExpr dataContext expr.2 expr.1).map fun evaluated =>
    if expression.length = expr.1.length then .value evaluated
    else .text (Replacing.replace expr.1 (evaluator.str evaluated) (result.toText evaluator))

/-- `InlineYAQLEvaluator.evaluate`. -/
def evaluate (expression : List Char) : Except ε (Result Value) :=
  (findInlineExpressions expression).zipIdx.foldlM (replaceExpr evaluator dataContext expression) (.text expression)

/-! ### The purpose -/

/-- The values of the expressions of a string, which are evaluated in their order. -/
def values (expression : List Char) : Except ε (List Value) :=
  (findInlineExpressions expression).zipIdx.mapM fun expr => evaluator.evaluateExpr dataContext expr.2 expr.1

/-- The string with the text of every value at the position of its own expression, or the value of the expression that the
    string consists of. -/
def interpolate (expression : List Char) : Except ε (Result Value) :=
  if findInlineExpressions expression = [expression] then
    (evaluator.evaluateExpr dataContext 0 expression).map .value
  else
    (values evaluator dataContext expression).map fun vs =>
      .text (Replacing.Segments.weave (CommandConf.yaql.segments 0 expression) (vs.map evaluator.str))

end

end YaqlExpression
end Mistral
