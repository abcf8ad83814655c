import Mistral.Lib.Lines

/-! Definitions of workflows and actions, cut out of the text of a workbook (`mistral/lang/parser.py`). -/

namespace Mistral
namespace WorkbookText

/-- The characters that `str.strip` takes for blanks. -/
structure Blanks where
  space : Char → Bool
  newline : space '\n' = true
  hash : space '#' = false

/-- The exception of `index`, where a line is not found. -/
inductive Exc
  | valueError
  deriving DecidableEq, Repr

section
variable (blanks : Blanks)

/-- The second loop of `_parse_def_from_wb`: the lines until one with the same or a smaller indentation. -/
def takeBody (ident : Nat) : List (List Char) → List (List Char)
  | [] => []
  | line :: rest =>
    let newLine := Lines.strip blanks.space line
    if newLine = [] then line :: takeBody ident rest
    else if ['#'] <+: newLine then
      -- A comment with a smaller indentation stays as it is.
      (if (Lines.index ['#'] line).getD 0 < ident then line else line.drop ident) :: takeBody ident rest
    else
      let temp := (Lines.index (Lines.lstrip blanks.space line) line).getD 0
      if ident < temp then line.drop ident :: takeBody ident rest else []

/-- What is read after the line with the section name. -/
def linesAfter (wbDef sectionName : List Char) : Except Exc (List (List Char)) :=
  match Lines.index sectionName wbDef with
  | none => .error .valueError
  | some i => .ok (Lines.readLines (wbDef.drop i)).tail

/-- The first loop of `_parse_def_from_wb` goes to the first line that is the item name. -/
def fromItem (itemName : List Char) (lines : List (List Char)) : List (List Char) :=
  lines.dropWhile fun line => Lines.strip blanks.space line ≠ itemName

/-- The lines that `_parse_def_from_wb` joins, from the line of the item on. -/
def definition (itemName : List Char) : List (List Char) → List (List Char)
  | [] => []
  | line :: rest => Lines.lstrip blanks.space line :: takeBody blanks ((Lines.index itemName line).getD 0) rest

/-- `_parse_def_from_wb`. -/
def parseDefFromWb (wbDef sectionName itemName : List Char) : Except Exc (List Char) :=
  (linesAfter wbDef sectionName).map fun lines =>
    Lines.rstrip blanks.space (definition blanks itemName (fromItem blanks itemName lines)).flatten ++ ['\n']

/-- `get_workflow_definition`. -/
def getWorkflowDefinition (wbDef wfName : List Char) : Except Exc (List Char) :=
  parseDefFromWb blanks wbDef "workflows:".toList (wfName ++ [':'])

/-- `get_action_definition`. -/
def getActionDefinition (wbDef actionName : List Char) : Except Exc (List Char) :=
  parseDefFromWb blanks wbDef "actions:".toList (actionName ++ [':'])

end

end WorkbookText
end Mistral
