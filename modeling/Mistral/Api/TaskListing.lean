import Mistral.Lib.Lines
import Mistral.Lib.Literals
import Mistral.Lib.Paging
import Mistral.Lib.QueryStrings

/-! Lists of task executions in pages (`mistral/api/controllers/v2/task.py`, `mistral/api/controllers/v2/types.py`,
    `mistral/api/controllers/resource.py`, `mistral/utils/filter_utils.py`, `mistral/utils/rest_utils.py`,
    `mistral/db/v2/sqlalchemy/api.py`). -/

namespace Mistral.TaskListing

/-- A text, by its characters. -/
abbrev Text := List Char

/-! ### Filters -/

/-- The operators of filters (`mistral/utils/filter_utils.py`). -/
inductive FilterType
  | eq | neq | gt | gte | lt | lte | has | isIn | notIn
  deriving DecidableEq, Repr

namespace FilterType

def text : FilterType → Text
  | .eq => "eq".toList
  | .neq => "neq".toList
  | .gt => "gt".toList
  | .gte => "gte".toList
  | .lt => "lt".toList
  | .lte => "lte".toList
  | .has => "has".toList
  | .isIn => "in".toList
  | .notIn => "nin".toList

/-- `filter_utils.ALL`. -/
def all : List FilterType := [.eq, .neq, .gt, .gte, .lt, .lte, .has, .isIn, .notIn]

/-- `filter_type + ':'`. -/
def pre (f : FilterType) : Text := f.text ++ [':']

end FilterType

/-- A value of a request or of a filter; `J` has the values of JSON other than those listed. -/
inductive Value (J : Type)
  | text (t : Text)
  | list (l : List Text)
  | flag (b : Bool)
  | json (j : J)
  deriving DecidableEq

variable {J : Type}

/-- `has_filters`. -/
def hasFilters (value : Text) : Bool := FilterType.all.any fun f => f.pre.isPrefixOf value

/-- The value of `filter_type:value`, where lists are separated by commas. -/
def extractFilterTypeAndValue (data : Text) : FilterType × Value J :=
  match FilterType.all.find? fun f => f.pre.isPrefixOf data with
  | none => (.eq, .text data)
  | some f =>
    let value := (data.dropWhile (· != ':')).drop 1
    if FilterType.isIn.text.isPrefixOf data || FilterType.notIn.text.isPrefixOf data then (f, .list (value.splitOn ','))
    else (f, .text value)

/-- The parameters by which tasks are filtered, in the order in which the filters are created. -/
inductive Column
  | createdAt | workflowName | workflowId | tags | state | stateInfo | updatedAt | name | workflowExecutionId
  | result | published | processed | reset | env
  deriving DecidableEq, Repr

namespace Column

def all : List Column :=
  [.createdAt, .workflowName, .workflowId, .tags, .state, .stateInfo, .updatedAt, .name, .workflowExecutionId,
    .result, .published, .processed, .reset, .env]

def text : Column → Text
  | .createdAt => "created_at".toList
  | .workflowName => "workflow_name".toList
  | .workflowId => "workflow_id".toList
  | .tags => "tags".toList
  | .state => "state".toList
  | .stateInfo => "state_info".toList
  | .updatedAt => "updated_at".toList
  | .name => "name".toList
  | .workflowExecutionId => "workflow_execution_id".toList
  | .result => "result".toList
  | .published => "published".toList
  | .processed => "processed".toList
  | .reset => "reset".toList
  | .env => "env".toList

end Column

/-- Filters, one for a column at most. -/
abbrev Filters (J : Type) := List (Column × FilterType × Value J)

/-- The operator in a text, or equality. -/
def createFilter (data : Value J) : FilterType × Value J :=
  match data with
  | .text t => extractFilterTypeAndValue t
  | data => (.eq, data)

/-- `create_filters_from_request_params`. -/
def createFiltersFromRequestParams (params : List (Column × Option (Value J))) : Filters J :=
  params.filterMap fun (c, data) => data.map fun d => (c, createFilter d)

/-! ### Parameters of a request -/

/-- A parameter of the request: one for the page, or a column to filter by. -/
inductive Param
  | marker | limit | sortKeys | sortDirs | fields
  | column (c : Column)
  deriving DecidableEq, Repr

def Param.text : Param → Text
  | .marker => "marker".toList
  | .limit => "limit".toList
  | .sortKeys => "sort_keys".toList
  | .sortDirs => "sort_dirs".toList
  | .fields => "fields".toList
  | .column c => c.text

/-- The parameters of a request as they are decoded from its query. -/
abbrev Raw := Param → Option Text

/-- The types of parameters: `wtypes.text`, `types.uuid`, `types.uniquelist`, `STATE_TYPES`, `types.jsontype` and `bool`. -/
inductive Kind
  | text | uuid | uniqueList | state | json | flag
  deriving DecidableEq, Repr

def Column.kind : Column → Kind
  | .workflowId | .workflowExecutionId => .uuid
  | .tags => .uniqueList
  | .state => .state
  | .published | .env => .json
  | .processed | .reset => .flag
  | _ => .text

/-- A character that lower case and the ends of a text leave alone. -/
def Small (c : Char) : Prop := '!' ≤ c ∧ c ≤ '~' ∧ ¬('A' ≤ c ∧ c ≤ 'Z')

instance (c : Char) : Decidable (Small c) := inferInstanceAs (Decidable (_ ∧ _))

/-- What the frameworks and the interpreter do with texts. -/
structure Frameworks (J : Type) where
  /-- `bytes.decode('utf-8', 'replace')` -/
  utf8 : List Nat → Text
  length_utf8 : ∀ bs, (utf8 bs).length ≤ bs.length
  /-- How `repr` prints a character other than a backslash and the quotation mark. -/
  printed : Char → Text
  printed_small : ∀ c, Small c → printed c = [c]
  /-- `str.isspace` -/
  space : Char → Bool
  space_small : ∀ c, Small c → space c = false
  /-- `str.lower` -/
  lower : Text → Text
  lower_append : ∀ s t, (∀ c ∈ s, Small c) → ∃ t', lower (s ++ t) = s ++ t'
  lower_small : ∀ s, (∀ c ∈ s, Small c) → lower s = s
  /-- `int` -/
  int : Text → Option Int
  int_decimal : ∀ n : Nat, int (Nat.toDigits 10 n) = some (n : Int)
  /-- `uuidutils.is_uuid_like` -/
  isUuidLike : Text → Bool
  uuid_chars : ∀ t, isUuidLike t → ∀ c ∈ t, c ≠ '&' ∧ c ≠ '#' ∧ c ≠ '+' ∧ c ≠ '%'
  uuid_filters : ∀ t, isUuidLike t → hasFilters t = false
  /-- The texts that the enumeration of states takes; it hands them on as they are. -/
  isState : Text → Bool
  /-- The conversion of texts to booleans. -/
  flag : Text → Option Bool
  /-- `json.loads`; `null` is no value. -/
  loads : Text → Option (Option (Value J))
  loads_filter : ∀ f t, loads (FilterType.pre f ++ t) = none
  /-- `str` of a value of JSON. -/
  shown : J → Text
  /-- The arguments of the endpoint for the parameters of a query. -/
  arguments : List (Text × Text) → Option Raw
  arguments_distinct : ∀ ps : List (Param × Text), (ps.map Prod.fst).Nodup →
    arguments (ps.map fun p => (p.1.text, p.2)) = some fun p => ps.lookup p

/-- What the request can end with instead of a page. -/
inductive ListError
  | invalidInput (param : Param)
  | clientSide (msg : String)
  | fieldsDoNotExist (fields : List Text)
  | notFound (id : Text)
  | attributeError (attr : Text)
  | assertionError
  | invalidSortKey
  deriving DecidableEq

/-! ### Types of parameters -/

section
variable (F : Frameworks J)

/-- `UuidType.validate` -/
def uuidValidate (value : Text) : Option Text :=
  match (extractFilterTypeAndValue value : FilterType × Value J).2 with
  | .text data => if F.isUuidLike data then some data else none
  | _ => none

/-- `ListType.validate` -/
def listValidate (value : Text) : List Text :=
  ((value.splitOn ',').map fun v => F.lower (Lines.strip F.space v)).filter (· ≠ [])

local instance text_lawful : LawfulBEq Text := inferInstance

/-- Each item where it occurs first. -/
def unique (seen : List Text) : List Text → List Text
  | [] => []
  | x :: xs => if x ∈ seen then unique seen xs else x :: unique (x :: seen) xs

/-- `UniqueListType.validate` -/
def uniqueListValidate (value : Text) : List Text := unique [] (listValidate F value)

/-- The value of a filter parameter, as its type reads it. -/
def convert (kind : Kind) (value : Text) : Option (Option (Value J)) :=
  match kind with
  | .text => some (some (.text value))
  | .uuid => (uuidValidate F value).map fun t => some (.text t)
  | .uniqueList => some (some (.list (uniqueListValidate F value)))
  | .state => if F.isState value then some (some (.text value)) else none
  | .json => F.loads value
  | .flag => (F.flag value).map fun b => some (.flag b)

/-- The arguments of `TasksController.get_all`. -/
structure Arguments (J : Type) where
  marker : Option Text
  limit : Option Int
  sortKeys : List Text
  sortDirs : List Text
  fields : List Text
  columns : List (Column × Option (Value J))

/-- A parameter that is read with `read`, if it is there. -/
def readParam {α : Type} (raw : Raw) (p : Param) (read : Text → Option α) : Except ListError (Option α) :=
  match raw p with
  | none => .ok none
  | some t => ((read t).map some).elim (.error (.invalidInput p)) .ok

def readColumn (raw : Raw) (c : Column) : Except ListError (Column × Option (Value J)) := do
  let data ← readParam raw (.column c) (convert F c.kind)
  return (c, data.join)

def readArguments (raw : Raw) : Except ListError (Arguments J) := do
  let marker ← readParam raw .marker (uuidValidate F)
  let limit ← readParam raw .limit F.int
  let columns ← Column.all.mapM (readColumn F raw)
  return {
    marker, limit, columns
    sortKeys := uniqueListValidate F ((raw .sortKeys).getD "created_at".toList)
    sortDirs := listValidate F ((raw .sortDirs).getD "asc".toList)
    fields := uniqueListValidate F ((raw .fields).getD "".toList) }

end

/-! ### The table -/

/-- Columns of the table of task executions. -/
def modelColumns : List Text :=
  ["id", "name", "description", "workflow_name", "workflow_namespace", "workflow_id", "workflow_execution_id", "state",
    "state_info", "tags", "runtime_context", "spec", "action_spec", "unique_key", "type", "started_at", "finished_at",
    "processed", "has_next_tasks", "next_tasks", "error_handled", "in_context", "published", "created_at", "updated_at",
    "scope", "project_id"].map String.toList

/-- `resources.Task.get_fields()` -/
def taskFields : List Text :=
  ["id", "name", "type", "workflow_name", "workflow_namespace", "workflow_id", "workflow_execution_id", "tags", "state",
    "state_info", "project_id", "runtime_context", "result", "published", "published_global", "processed", "created_at",
    "updated_at", "started_at", "finished_at", "reset", "env"].map String.toList

def idText : Text := "id".toList
def ascText : Text := "asc".toList
def descText : Text := "desc".toList

/-- The task executions that a caller can see. -/
structure Table (F : Frameworks J) (ρ : Type) where
  rows : List ρ
  id : ρ → Text
  /-- A column of a row as text. -/
  shows : ρ → Text → Text
  /-- The order of the values of a column. -/
  compare : Text → ρ → ρ → Ordering
  /-- What the condition of a filter keeps. -/
  meets : Column → FilterType → Value J → ρ → Bool
  nodup_ids : (rows.map id).Nodup
  uuid_id : ∀ r ∈ rows, F.isUuidLike (id r)
  shows_id : ∀ r, shows r idText = id r
  transCmp : ∀ key, Std.TransCmp (compare key)
  id_eq : ∀ a b, compare idText a b = .eq → id a = id b

variable {F : Frameworks J} {ρ : Type} (T : Table F ρ)

/-- The order of one sort key in its direction. -/
def Table.compareDir (key dir : Text) : ρ → ρ → Ordering :=
  if dir = descText then fun a b => T.compare key b a else T.compare key

/-- The lexicographic order of sort keys with their directions. -/
def Table.orderBy : List (Text × Text) → ρ → ρ → Ordering
  | [] => fun _ _ => .eq
  | (key, dir) :: sorts => compareLex (T.compareDir key dir) (Table.orderBy sorts)

/-- `apply_filters` -/
def Table.applyFilters (filters : Filters J) : Except ListError (List ρ) :=
  match filters.find? fun f => f.1.text ∉ modelColumns with
  | some f => .error (.attributeError f.1.text)
  | none => .ok (T.rows.filter fun r => filters.all fun (c, f, v) => T.meets c f v r)

/-- The first `limit` rows after the marker in the order of the sort keys. -/
def Table.paginateQuery (rows : List ρ) (limit : Nat) (sortKeys : List Text) (marker : Option ρ) (sortDirs : List Text) :
    Except ListError (List ρ) :=
  if sortDirs.length ≠ sortKeys.length then .error .assertionError
  else if ∃ key ∈ sortKeys, key ∉ modelColumns then .error .invalidSortKey
  else .ok (Paging.page (T.orderBy (sortKeys.zip sortDirs)) limit marker rows)

/-- The sort keys and directions of a query, which `_paginate_query` leaves in the lists that it was given. -/
def addIdKey (limit : Nat) (marker : Option ρ) (sortKeys sortDirs : List Text) : List Text × List Text :=
  if sortKeys = [] ∨ (marker.isSome ∨ limit ≠ 0) ∧ idText ∉ sortKeys then
    (sortKeys ++ [idText], if sortDirs = [] then [] else sortDirs ++ [ascText])
  else (sortKeys, sortDirs)

/-- `_get_collection`, with the sort keys and directions as they are after it. -/
def Table.getCollection (limit : Nat) (marker : Option ρ) (sortKeys sortDirs : List Text) (filters : Filters J) :
    Except ListError (List ρ × List Text × List Text) := do
  let rows ← T.applyFilters filters
  let sorts := addIdKey limit marker sortKeys sortDirs
  let collection ← T.paginateQuery rows limit sorts.1 marker sorts.2
  return (collection, sorts)

/-! ### The list and its link -/

/-- The identifier of a resource: with `fields`, they are paired with the values of those among them that are columns. -/
def Table.resourceId (fields : List Text) (row : ρ) : Text :=
  if fields = [] then T.id row
  else ((fields.zip ((fields.filter (· ∈ modelColumns)).map (T.shows row))).lookup idText).getD "Unset".toList

def formatValue (F : Frameworks J) : Value J → Text
  | .text t => t
  | .list l => Literals.reprList F.printed l
  | .flag b => if b then "True".toList else "False".toList
  | .json j => F.shown j

/-- What a request asks for, apart from its page. -/
structure Asked (J : Type) where
  filters : Filters J
  sortKeys : List Text
  sortDirs : List Text
  fields : List Text

/-- `'%s=%s' % (key, value)` -/
def keyValue (key : Param) (value : Text) : Text := key.text ++ '=' :: value

/-- The link to the next page, from its query on (`get_next`). -/
def getNext (F : Frameworks J) (asked : Asked J) (limit : Nat) (marker : Text) : Text :=
  keyValue .sortKeys ([','].intercalate asked.sortKeys) ++ '&' ::
    keyValue .sortDirs ([','].intercalate asked.sortDirs) ++ '&' ::
    asked.filters.flatMap (fun (c, f, v) => keyValue (.column c) (f.text ++ ':' :: formatValue F v) ++ ['&']) ++
    keyValue .limit (Nat.toDigits 10 limit) ++ '&' :: keyValue .marker marker ++
    if asked.fields = [] then [] else '&' :: keyValue .fields ([','].intercalate asked.fields)

/-- A page, with the request that it answers and the link to the next page. -/
structure Response (J ρ : Type) where
  asked : Asked J
  limit : Nat
  collection : List ρ
  next : Option Text

/-- `convert_with_links`. -/
def convertWithLinks (collection : List ρ) (limit : Nat) (asked : Asked J) : Response J ρ where
  asked := asked
  limit := limit
  collection := collection
  next :=
    match collection.getLast? with
    | some r => if collection.length = limit then some (getNext F asked limit (T.resourceId asked.fields r)) else none
    | none => none

/-! ### Requests -/

/-- `clamp_limit`. -/
def clampLimit (maxLimit : Nat) : Option Int → Int
  | none => maxLimit
  | some limit => if limit > maxLimit then maxLimit else limit

/-- The sort directions of a request, one for each key, if its parameters are valid. -/
def validateQueryParams (limit : Int) (sortKeys sortDirs : List Text) : Except ListError (List Text) :=
  if limit ≤ 0 then .error (.clientSide "Limit must be positive.")
  else if sortKeys.length < sortDirs.length then
    .error (.clientSide "Length of sort_keys must be equal or greater than sort_dirs.")
  else
    let sortDirs := sortDirs ++ List.replicate (sortKeys.length - sortDirs.length) ascText
    if ∀ dir ∈ sortDirs, dir ∈ [ascText, descText] then .ok sortDirs
    else .error (.clientSide "Unknown sort direction, must be 'desc' or 'asc'.")

/-- `validate_fields`. -/
def validateFields (fields : List Text) : Except ListError Unit :=
  match fields.filter (· ∉ taskFields) with
  | [] => .ok ()
  | invalid => .error (.fieldsDoNotExist invalid)

def Table.getMarker : Option Text → Except ListError (Option ρ)
  | none => .ok none
  | some marker => ((T.rows.find? (T.id · = marker)).map some).elim (.error (.notFound marker)) .ok

/-- `rest_utils.get_all` -/
def restGetAll (maxLimit : Nat) (args : Arguments J) (filters : Filters J) : Except ListError (Response J ρ) := do
  let fields := if args.fields ≠ [] ∧ idText ∉ args.fields then idText :: args.fields else args.fields
  let limit := clampLimit maxLimit args.limit
  let sortDirs ← validateQueryParams limit args.sortKeys args.sortDirs
  validateFields fields
  let marker ← T.getMarker args.marker
  let (collection, sortKeys, sortDirs) ← T.getCollection limit.toNat marker args.sortKeys sortDirs filters
  return convertWithLinks T collection limit.toNat { filters, sortKeys, sortDirs, fields }

/-- `TasksController.get_all` -/
def getAll (maxLimit : Nat) (raw : Raw) : Except ListError (Response J ρ) := do
  let args ← readArguments F raw
  restGetAll T maxLimit args (createFiltersFromRequestParams args.columns)

/-- The request that a link makes of the same endpoint. -/
def readLink (F : Frameworks J) (link : Text) : Option Raw := F.arguments (QueryStrings.parameters F.utf8 link)

end Mistral.TaskListing
