import Mathlib.Data.List.Induction
import Mistral.Expressions.YaqlExpression
import Mistral.Lib.Excepts

/-! When the values of inline expressions are put where the expressions stand. -/

namespace Mistral
namespace YaqlExpression

variable {Context Value ε : Type} {evaluator : Evaluator Context Value ε} {dataContext : Context}
variable {expression expr e : List Char} {n : Nat}

/-! ### Expressions of a string -/

theorem yaql_proper : CommandConf.yaql.Proper := by
  intro s r hr
  obtain ⟨s₁, hs₁, hr⟩ := Pattern.mem_rests_seq.mp hr
  have hlen := (Pattern.suffix_of_mem_rests hr).length_le
  obtain ⟨s₂, hs₂, hrest⟩ := Pattern.mem_rests_seq.mp hs₁
  obtain rfl := Pattern.mem_rests_char.mp hs₂
  have hlen₁ := (Pattern.suffix_of_mem_rests hrest).length_le
  rw [List.length_cons]
  omega

theorem mem_findall_iff : e ∈ findInlineExpressions expression ↔ .inr e ∈ CommandConf.yaql.segments 0 expression := by
  rw [findInlineExpressions, Pattern.findall, List.mem_filterMap]
  constructor
  · rintro ⟨c | t, hseg, heq⟩
    · cases heq
    · exact Option.some.inj heq ▸ hseg
  · exact fun h => ⟨_, h, rfl⟩

/-- An expression as long as the string is the string. -/
theorem findInlineExpressions_of_length (he : e ∈ findInlineExpressions expression)
    (hlen : expression.length = e.length) :
    findInlineExpressions expression = [expression] := by
  obtain ⟨before, after, hsegs⟩ := List.append_of_mem (mem_findall_iff.mp he)
  have htext := Pattern.flatMap_segments yaql_proper expression
  rw [hsegs, List.flatMap_append, List.flatMap_cons] at htext
  have hlens := congrArg List.length htext
  simp only [List.length_append, Sum.elim_inr, id] at hlens
  have hnil : ∀ segs : List (Char ⊕ List Char), (∀ t, .inr t ∈ segs → .inr t ∈ CommandConf.yaql.segments 0 expression) →
      (segs.flatMap (Sum.elim ([·]) id)).length = 0 → segs = [] := by
    rintro (_ | ⟨c | t, segs⟩) hmem hzero
    · rfl
    · simp at hzero
    · have ht := Pattern.ne_nil_of_mem_findall yaql_proper (mem_findall_iff.mpr (hmem t List.mem_cons_self))
      simp only [List.flatMap_cons, List.length_append, Sum.elim_inr, id] at hzero
      exact absurd (List.length_eq_zero_iff.mp (Nat.eq_zero_of_add_eq_zero_right hzero)) ht
  obtain rfl := hnil before (fun t ht => hsegs ▸ List.mem_append_left _ ht) (by omega)
  obtain rfl := hnil after (fun t ht => hsegs ▸ List.mem_append_right _ (List.mem_cons_of_mem _ ht)) (by omega)
  rw [findInlineExpressions, Pattern.findall, hsegs]
  simpa using htext

/-! ### The loop -/

local instance expression_lawful : LawfulBEq (List Char) := inferInstance

/-- The text of the value that an expression had when it was evaluated first, if it is among the first `n`. -/
def evaluated (evaluator : Evaluator Context Value ε) (dataContext : Context) (expression : List Char) (n : Nat)
    (e : List Char) : Option (List Char) :=
  if e ∈ (findInlineExpressions expression).take n then
    (evaluator.evaluateExpr dataContext ((findInlineExpressions expression).idxOf e) e).toOption.map evaluator.str
  else none

/-- The string, in which the first `n` expressions are replaced by their values wherever they stand. -/
def filled (evaluator : Evaluator Context Value ε) (dataContext : Context) (expression : List Char) (n : Nat) : List Char :=
  Replacing.Segments.fill (evaluated evaluator dataContext expression n) (CommandConf.yaql.segments 0 expression)

/-- What stands between the places of an expression in that text. -/
def partsAround (evaluator : Evaluator Context Value ε) (dataContext : Context) (expression : List Char) (n : Nat)
    (expr : List Char) : List (List Char) :=
  Replacing.Segments.around (evaluated evaluator dataContext expression n) expr (CommandConf.yaql.segments 0 expression)

/-- The next expression, which the loop gets to after `n` others. -/
structure Next (evaluator : Evaluator Context Value ε) (dataContext : Context) (expression : List Char) (n : Nat)
    (expr : List Char) : Prop where
  found : (findInlineExpressions expression)[n]? = some expr
  evaluates : ∀ i ≤ n, ∀ e, (findInlineExpressions expression)[i]? = some e →
    ∃ v, evaluator.evaluateExpr dataContext i e = .ok v

theorem mem_take_succ {l : List (List Char)} (h : l[n]? = some expr) : e ∈ l.take (n + 1) ↔ e ∈ l.take n ∨ e = expr := by
  rw [List.take_add_one, h, List.mem_append, Option.toList_some, List.mem_singleton]

theorem idxOf_of_getElem? {l : List (List Char)} (h : l[n]? = some expr) (hnew : expr ∉ l.take n) : l.idxOf expr = n := by
  obtain ⟨hn, heq⟩ := List.getElem?_eq_some_iff.mp h
  have hsplit : l = l.take n ++ expr :: l.drop (n + 1) := by rw [← heq, List.getElem_cons_drop, List.take_append_drop]
  rw [hsplit, List.idxOf_append_of_notMem hnew, List.idxOf_cons_self, List.length_take, Nat.min_eq_left hn.le, Nat.add_zero]

theorem idxOf_lt_of_mem_take {l : List (List Char)} (h : e ∈ l.take n) : l.idxOf e < n ∧ l[l.idxOf e]? = some e := by
  have hmem := List.mem_of_mem_take h
  have hlt : (l.take n).idxOf e < (l.take n).length := List.idxOf_lt_length_iff.mpr h
  have heq : l.idxOf e = (l.take n).idxOf e := by
    conv_lhs => rw [← List.take_append_drop n l]
    exact List.idxOf_append_of_mem h
  refine ⟨by rw [heq]; exact hlt.trans_le (List.length_take_le n l), ?_⟩
  rw [List.getElem?_eq_getElem (List.idxOf_lt_length_iff.mpr hmem), List.getElem_idxOf]

/-- The next expression gets its value wherever it has none yet. -/
theorem evaluated_succ (hnext : Next evaluator dataContext expression n expr) {v : Value}
    (hv : evaluator.evaluateExpr dataContext n expr = .ok v) :
    evaluated evaluator dataContext expression (n + 1) =
      Function.update (evaluated evaluator dataContext expression n) expr
        ((evaluated evaluator dataContext expression n expr).getD (evaluator.str v)) := by
  funext e
  rcases eq_or_ne e expr with rfl | he
  · rw [Function.update_self, evaluated, evaluated, if_pos ((mem_take_succ hnext.found).mpr (.inr rfl))]
    split
    next hdone =>
      obtain ⟨hlt, hget⟩ := idxOf_lt_of_mem_take hdone
      obtain ⟨w, hw⟩ := hnext.evaluates _ hlt.le _ hget
      rw [hw]
      rfl
    next hnew =>
      rw [idxOf_of_getElem? hnext.found hnew, hv]
      rfl
  · rw [Function.update_of_ne he, evaluated, evaluated]
    simp only [mem_take_succ hnext.found, he, or_false]

/-- Where only the places of the expression are cut out, its value is put there. -/
theorem replace_filled (hnext : Next evaluator dataContext expression n expr) {v : Value}
    (hv : evaluator.evaluateExpr dataContext n expr = .ok v)
    (h : Replacing.split expr 0 (filled evaluator dataContext expression n) =
      partsAround evaluator dataContext expression n expr) :
    Replacing.replace expr (evaluator.str v) (filled evaluator dataContext expression n) =
      filled evaluator dataContext expression (n + 1) := by
  rw [Replacing.replace, h, partsAround, Replacing.intercalate_around, filled, evaluated_succ hnext hv]

theorem filled_zero : filled evaluator dataContext expression 0 = expression := by
  have hnone : evaluated evaluator dataContext expression 0 = fun _ => none := funext fun e => if_neg (by simp)
  rw [filled, hnone, Replacing.fill_none, Pattern.flatMap_segments yaql_proper]

/-! ### Values at their own positions -/

/-- What the loop is for: its result has every value at its own position, and each of its rounds cuts out nothing but the
    places of its expression, neither text of a value nor other text of the string. -/
structure SubstitutesInPlace (evaluator : Evaluator Context Value ε) (dataContext : Context) (expression : List Char) :
    Prop where
  result : evaluate evaluator dataContext expression = interpolate evaluator dataContext expression
  places : findInlineExpressions expression ≠ [expression] → ∀ n expr t,
    Next evaluator dataContext expression n expr →
    ((findInlineExpressions expression).zipIdx.take n).foldlM (replaceExpr evaluator dataContext expression)
      (.text expression) = .ok (.text t) →
    Replacing.split expr 0 t = partsAround evaluator dataContext expression n expr

/-- When an expression is evaluated, the string in which the expressions before it are replaced has its text nowhere but at
    its own places. -/
def OnlyInPlace (evaluator : Evaluator Context Value ε) (dataContext : Context) (expression : List Char) : Prop :=
  findInlineExpressions expression ≠ [expression] → ∀ n expr, Next evaluator dataContext expression n expr →
    Replacing.Apart expr (partsAround evaluator dataContext expression n expr)

/-- If all expressions of the string have values, then it is the same text with the first value of an expression at each of
    its places. -/
def RepeatsAlike (evaluator : Evaluator Context Value ε) (dataContext : Context) (expression : List Char) : Prop :=
  findInlineExpressions expression ≠ [expression] → ∀ vs, values evaluator dataContext expression = .ok vs →
    filled evaluator dataContext expression (findInlineExpressions expression).length =
      Replacing.Segments.weave (CommandConf.yaql.segments 0 expression) (vs.map evaluator.str)

theorem ne_nil_of_next (hnext : Next evaluator dataContext expression n expr) : expr ≠ [] :=
  Pattern.ne_nil_of_mem_findall yaql_proper (List.mem_of_getElem? hnext.found)

/-- The text of an expression is cut out at its own places if and only if it is nowhere else. -/
theorem split_filled_iff (hnext : Next evaluator dataContext expression n expr) :
    Replacing.split expr 0 (filled evaluator dataContext expression n) =
      partsAround evaluator dataContext expression n expr ↔
        Replacing.Apart expr (partsAround evaluator dataContext expression n expr) := by
  rw [partsAround, ← Replacing.split_intercalate_iff (ne_nil_of_next hnext) Replacing.around_ne_nil,
    Replacing.intercalate_around_self, filled]

theorem replaceExpr_text (hsingle : findInlineExpressions expression ≠ [expression])
    (he : e ∈ findInlineExpressions expression) {v : Value} (hv : evaluator.evaluateExpr dataContext n e = .ok v)
    (t : List Char) :
    replaceExpr evaluator dataContext expression (.text t) (e, n) =
      .ok (.text (Replacing.replace e (evaluator.str v) t)) := by
  rw [replaceExpr, hv]
  exact congrArg Except.ok (if_neg fun hlen => hsingle (findInlineExpressions_of_length he hlen))

theorem take_zipIdx_succ {l : List (List Char)} (h : l[n]? = some expr) :
    l.zipIdx.take (n + 1) = l.zipIdx.take n ++ [(expr, n)] := by
  rw [List.take_add_one, List.getElem?_zipIdx, h, Nat.zero_add]
  rfl

/-- The expressions before one that the loop gets to have values. -/
theorem next_of_values (hfound : (findInlineExpressions expression)[n]? = some expr) {vs : List Value}
    (hvs : ((findInlineExpressions expression).zipIdx.take n).mapM
      (fun expr => evaluator.evaluateExpr dataContext expr.2 expr.1) = .ok vs) {v : Value}
    (hv : evaluator.evaluateExpr dataContext n expr = .ok v) : Next evaluator dataContext expression n expr := by
  refine ⟨hfound, fun i hi e he => ?_⟩
  rcases Nat.lt_or_eq_of_le hi with hlt | rfl
  · have hget : ((findInlineExpressions expression).zipIdx.take n)[i]? = some (e, i) := by
      rw [List.getElem?_take_of_lt hlt, List.getElem?_zipIdx, he, Nat.zero_add]
      rfl
    exact ok_of_mapM_ok hvs _ (List.mem_of_getElem? hget)
  · rw [hfound] at he
    exact ⟨v, Option.some.inj he ▸ hv⟩

/-- As long as only places of expressions are cut out, the loop fills in one value after the other. -/
theorem foldlM_eq_filled (hsingle : findInlineExpressions expression ≠ [expression])
    (hn : n ≤ (findInlineExpressions expression).length)
    (hplaces : ∀ i < n, ∀ e, Next evaluator dataContext expression i e →
      Replacing.Apart e (partsAround evaluator dataContext expression i e)) :
    ((findInlineExpressions expression).zipIdx.take n).foldlM (replaceExpr evaluator dataContext expression)
        (.text expression) =
      (((findInlineExpressions expression).zipIdx.take n).mapM
        fun expr => evaluator.evaluateExpr dataContext expr.2 expr.1).map fun _ =>
          .text (filled evaluator dataContext expression n) := by
  induction n with
  | zero =>
    rw [filled_zero]
    rfl
  | succ n ih =>
    obtain ⟨expr, hexpr⟩ : ∃ expr, (findInlineExpressions expression)[n]? = some expr :=
      ⟨_, List.getElem?_eq_getElem (by omega)⟩
    rw [take_zipIdx_succ hexpr, List.foldlM_append, ih (by omega) fun i hi => hplaces i (by omega), List.mapM_append]
    cases hvalues : ((findInlineExpressions expression).zipIdx.take n).mapM
        fun expr => evaluator.evaluateExpr dataContext expr.2 expr.1 with
    | error x => rfl
    | ok vs =>
      cases hv : evaluator.evaluateExpr dataContext n expr with
      | error x =>
        have hround : [(expr, n)].foldlM (replaceExpr evaluator dataContext expression)
            (.text (filled evaluator dataContext expression n)) = .error x := by
          rw [List.foldlM_cons, replaceExpr, hv]
          rfl
        rw [List.mapM_cons, hv]
        exact hround
      | ok v =>
        have hnext := next_of_values hexpr hvalues hv
        have hround : [(expr, n)].foldlM (replaceExpr evaluator dataContext expression)
            (.text (filled evaluator dataContext expression n)) =
              .ok (.text (filled evaluator dataContext expression (n + 1))) := by
          rw [List.foldlM_cons, replaceExpr_text hsingle (List.mem_of_getElem? hexpr) hv,
            replace_filled hnext hv ((split_filled_iff hnext).mpr (hplaces n (Nat.lt_succ_self n) expr hnext))]
          rfl
        rw [List.mapM_cons, hv]
        exact hround

/-- The whole loop. -/
theorem evaluate_eq_filled (hsingle : findInlineExpressions expression ≠ [expression])
    (hplaces : OnlyInPlace evaluator dataContext expression) :
    evaluate evaluator dataContext expression =
      (values evaluator dataContext expression).map fun _ =>
        .text (filled evaluator dataContext expression (findInlineExpressions expression).length) := by
  have hall : (findInlineExpressions expression).zipIdx.take (findInlineExpressions expression).length =
      (findInlineExpressions expression).zipIdx := List.take_of_length_le (by simp)
  have hloop := foldlM_eq_filled hsingle le_rfl fun i _ => hplaces hsingle i
  rwa [hall] at hloop

theorem evaluate_single (hsingle : findInlineExpressions expression = [expression]) :
    evaluate evaluator dataContext expression = interpolate evaluator dataContext expression := by
  rw [evaluate, interpolate, hsingle, if_pos rfl, List.zipIdx_singleton, List.foldlM_cons, replaceExpr]
  cases evaluator.evaluateExpr dataContext 0 expression with
  | error x => rfl
  | ok v => exact congrArg Except.ok (if_pos rfl)

/-- Two variables, of which the first holds the text of an expression. -/
def twoVariables : Evaluator Unit (List Char) Unit where
  evaluate _ expr _ := .ok (if expr = " $.a ".toList then "<% $.b %>".toList else "x".toList)
  str := id

/-- Every evaluation has another value. -/
def counting : Evaluator Unit (List Char) Unit where
  evaluate n _ _ := .ok (if n = 0 then "x".toList else "y".toList)
  str := id

end YaqlExpression
end Mistral
