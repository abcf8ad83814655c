import Mathlib.Data.Rat.Defs
import Mistral.Lib.Patterns

/-! Raw data of specifications, schemas for them, and the short form of a command with its input
    (`mistral/lang/base.py`, `mistral/lang/types.py`). -/

namespace Mistral

/-- Data of a specification as it is read from a definition. -/
inductive SpecData
  | null
  | flag (b : Bool)
  | number (q : ℚ)
  | text (s : String)
  | list (items : List SpecData)
  | dict (entries : List (String × SpecData))

/-- A dictionary of a definition, with its entries in their order. -/
abbrev SpecDict := List (String × SpecData)

/-- What the construction of a specification can end with: `InvalidModelException`, or an exception of Python. -/
inductive DslError
  | invalidModel (msg : String)
  | attributeError
  | typeError
  deriving DecidableEq, Repr

namespace SpecData

/-- The truth value of a value in Python. -/
def truthy : SpecData → Bool
  | .null => false
  | .flag b => b
  | .number q => q != 0
  | .text s => s != ""
  | .list items => !items.isEmpty
  | .dict entries => !entries.isEmpty

mutual

/-- Equality of values, whatever the order of the entries of dictionaries. -/
def same : SpecData → SpecData → Bool
  | .null, .null => true
  | .flag a, .flag b => a == b
  | .number a, .number b => a == b
  | .text a, .text b => a == b
  | .list a, .list b => sameItems a b
  | .dict a, .dict b => a.length == b.length && sameEntries a b
  | _, _ => false

def sameItems : List SpecData → List SpecData → Bool
  | [], [] => true
  | a :: as, b :: bs => a.same b && sameItems as bs
  | _, _ => false

def sameEntries : SpecDict → SpecDict → Bool
  | [], _ => true
  | (k, a) :: as, b => (match b.lookup k with
    | some v => a.same v
    | none => false) && sameEntries as b

end

end SpecData

/-! ### Schemas -/

/-- A part of a schema: whether a value is valid. -/
abbrev Schema := SpecData → Bool

namespace Schema

/-- `oneOf` of JSON schema. -/
def oneOf (schemas : List Schema) : Schema := fun v => schemas.countP (· v) == 1

/-- `anyOf` of JSON schema. -/
def anyOf (schemas : List Schema) : Schema := fun v => schemas.any (· v)

/-- A text that matches a pattern. -/
def pattern (p : Pattern) : Schema
  | .text s => p.Matches s.toList
  | _ => false

/-- `properties`, which says nothing about values that are not dictionaries. -/
def properties (ps : List (String × Schema)) : Schema
  | .dict d => d.all fun (k, v) => (ps.lookup k).all (· v)
  | _ => true

/-- `properties` of a dictionary without `additionalProperties`. -/
def onlyProperties (ps : List (String × Schema)) : Schema
  | .dict d => d.all fun (k, v) => (ps.lookup k).any (· v)
  | _ => false

/-- `uniqueItems`. -/
def uniqueItems : List SpecData → Bool
  | [] => true
  | v :: vs => vs.all (!v.same ·) && uniqueItems vs

def nonemptyString : Schema
  | .text s => s != ""
  | _ => false

def uniqueStringList : Schema
  | .list items => items.all nonemptyString && uniqueItems items && !items.isEmpty
  | _ => false

/-- `NONEMPTY_DICT`: any keys and values are valid. -/
def nonemptyDict : Schema
  | .dict d => !d.isEmpty
  | _ => false

/-- `POSITIVE_INTEGER` is the same for an integer. -/
def positiveNumber : Schema
  | .number q => 0 ≤ q
  | _ => false

def version : Schema := anyOf [nonemptyString, positiveNumber]

/-- The properties that each schema gets from `_meta_schema`. -/
def metaProperties : List (String × Schema) :=
  [("name", nonemptyString), ("version", version), ("description", nonemptyString), ("tags", uniqueStringList)]

end Schema

/-! ### Commands -/

/-- The classes `\w`, `\s` and `\d` of characters. -/
structure CharClasses where
  word : Char → Bool
  space : Char → Bool
  digit : Char → Bool
  word_space : word ' ' = false := by decide
  word_equals : word '=' = false := by decide
  word_paren : word '(' = false := by decide
  space_space : space ' ' = true := by decide

/-- The classes within ASCII. -/
def CharClasses.ascii : CharClasses where
  word c := c.isAlphanum || c == '_'
  space c := c ∈ [' ', '\t', '\n', '\x0b', '\x0c', '\r', '\x1c', '\x1d', '\x1e', '\x1f']
  digit := Char.isDigit

/-- What parses commands: the classes of characters, and `json.loads`, which may raise. -/
structure CommandConf where
  classes : CharClasses
  loads : String → Option SpecData

namespace CommandConf
variable (conf : CommandConf)

/-- `.` -/
def dot (c : Char) : Bool := c != '\n'

def spaces : Pattern := .many conf.classes.space

/-- `JINJA_REGEXP`. -/
def jinja : Pattern := .seq (.literal ['{', '{']) (.seq (.few dot) (.literal ['}', '}']))

/-- `INLINE_YAQL_REGEXP`. -/
def yaql : Pattern := .seq (.literal ['<', '%']) (.seq (.few dot) (.literal ['%', '>']))

/-- `ANY_JINJA_REGEXP`. -/
def anyJinja : Pattern :=
  .alt (.seq (.literal ['{', '{']) (.seq (.many dot) (.literal ['}', '}'])))
    (.seq (.literal ['{', '%']) (.seq (.many dot) (.literal ['%', '}'])))

/-- `ACTION_PATTERNS["command"]`. -/
def command : Pattern :=
  .seq (.plus fun c => conf.classes.word c || c == '.')
    (.many fun c => c != '=' && c != '(' && !conf.classes.space c && c != '"')

/-- `CMD_PTRN`. -/
def cmdPattern : Pattern := .alt conf.command (.alt yaql anyJinja)

/-- `EXPRESSION`. -/
def expression : Pattern := .alt jinja yaql

def quoted (quote : Char) : Pattern :=
  .seq (.char quote) (.seq (.many (· != quote)) (.seq (.char quote) conf.spaces))

/-- The value of a parameter: `ALL`. -/
def paramValue : Pattern :=
  .alt (conf.quoted '"') <| .alt (conf.quoted '\'') <| .alt expression <|
    .alt (.seq (.char '[') (.seq (.many dot) (.seq (.char ']') conf.spaces))) <|
    .alt (.literal "true".toList) <| .alt (.literal "false".toList) <| .alt (.literal "null".toList) <|
    .plus conf.classes.digit

/-- `[-_\w]`. -/
def keyChar (c : Char) : Bool := c == '-' || c == '_' || conf.classes.word c

/-- `PARAMS_PTRN` at the beginning of a text: the name and the value of a parameter, and what is left. -/
def matchParam (s : List Char) : Option ((List Char × List Char) × List Char) :=
  List.head? <| ((Pattern.plus conf.keyChar).rests s).flatMap fun r =>
    match r with
    | '=' :: r' => (conf.paramValue.rests r').map fun r'' =>
      ((s.take (s.length - r.length), r'.take (r'.length - r''.length)), r'')
    | _ => []

/-- `re.findall(PARAMS_PTRN, …)`, after some characters of a match. -/
def scanParams : Nat → List Char → List (List Char × List Char)
  | _, [] => []
  | skip + 1, _ :: s => scanParams skip s
  | 0, c :: s =>
    match conf.matchParam (c :: s) with
    | some (param, r) => param :: scanParams (s.length - r.length) s
    | none => scanParams 0 s

attribute [grind =] scanParams

/-- `str.strip`. -/
def strip (s : List Char) : List Char := ((s.dropWhile conf.classes.space).reverse.dropWhile conf.classes.space).reverse

/-- The value of a parameter without quotes, or as JSON if it is JSON. -/
def convert (v : List Char) : SpecData :=
  match conf.strip v with
  | '"' :: v => .text (String.ofList v.dropLast)
  | '\'' :: v => .text (String.ofList v.dropLast)
  | v => (conf.loads (String.ofList v)).getD (.text (String.ofList v))

/-- `params[k] = v`. -/
def setParam (params : SpecDict) (k : String) (v : SpecData) : SpecDict :=
  if (params.lookup k).isSome then params.map fun e => if e.1 = k then (k, v) else e else params ++ [(k, v)]

def toParams (found : List (List Char × List Char)) : SpecDict :=
  found.foldl (fun params (k, v) => setParam params (String.ofList k) (conf.convert v)) []

/-- `_parse_cmd_and_input`. -/
def parseCmdAndInput (cmdStr : String) : Except DslError (String × SpecDict) :=
  if ' ' ∉ cmdStr.toList then .ok (cmdStr, [])
  else
    match conf.cmdPattern.matchPrefix cmdStr.toList with
    | none => .error (.invalidModel ("Invalid action/workflow task property: " ++ cmdStr))
    | some (cmd, _) => .ok (String.ofList cmd, conf.toParams (conf.scanParams 0 cmdStr.toList))

end CommandConf

end Mistral
