/-! Ad-hoc actions (`mistral/actions/adhoc.py`): the walk from an action over its bases, the input that the base action
    gets, and the result that is made of its result. -/

namespace Mistral
namespace AdhocActions

/-- A dictionary with arguments. `none` is `NotDefined`. -/
abbrev Arguments (δ : Type) := List (String × Option δ)

/-- A row of `ActionDefinition` with what its specification says; the expressions are of the type `χ`, the values of `δ`. -/
structure Definition (χ δ : Type) where
  name : String
  ns : String := ""
  base : String
  baseInput : List (String × χ) := []
  input : Arguments δ := []
  output : Option χ := none
  deriving DecidableEq, Repr

/-- What a provider finds: an `AdHocActionDescriptor`, or a descriptor of another kind. -/
inductive Descriptor (ω χ δ : Type)
  | adhoc (d : Definition χ δ)
  | other (o : ω)
  deriving DecidableEq, Repr

/-- The system provider: the definitions of the provider of ad-hoc actions, and the providers before and after it. -/
structure Provider (ω χ δ : Type) where
  definitions : List (Definition χ δ)
  before : String → String → Option ω := fun _ _ => none
  after : String → String → Option ω := fun _ _ => none

/-- The evaluation of expressions in the arguments and a workflow context, and in the data of a result. -/
structure Evaluation (χ δ γ ε : Type) where
  input : List (String × χ) → Arguments δ → γ → Except ε (Arguments δ)
  output : χ → δ → Except ε δ

/-- `mistral_lib.actions.Result`. -/
structure Result (δ : Type) where
  data : δ
  error : Option δ := none
  cancel : Bool := false
  deriving DecidableEq, Repr

/-- What is raised: the exceptions of the walk, and those of the expressions. -/
inductive Exc (ε : Type)
  | valueError (msg : String)
  | invalidAction (msg : String)
  | evaluation (e : ε)
  deriving DecidableEq, Repr

section
variable {ω χ δ γ ε ρ : Type}

def Provider.findDefinition (p : Provider ω χ δ) (name ns : String) : Option (Definition χ δ) :=
  p.definitions.find? fun d => d.name == name && d.ns == ns

def Provider.find (p : Provider ω χ δ) (name ns : String) : Option (Descriptor ω χ δ) :=
  ((p.before name ns).map .other).or (((p.findDefinition name ns).map .adhoc).or ((p.after name ns).map .other))

/-- What a callback returns for a descriptor and the result of the call before. -/
abbrev Callback (ω χ δ ε ρ : Type) := Descriptor ω χ δ → Option ρ → Except (Exc ε) ρ

/-- The loop of `_visit_hierarchy`, with a bound on its rounds. `self` is the action that the walk begins at. -/
def visitLoop (p : Provider ω χ δ) (self : Definition χ δ) (callback : Callback ω χ δ ε ρ) :
    Nat → List String → Definition χ δ → ρ → Option (Except (Exc ε) ρ)
  | 0, _, _, _ => none
  | fuel + 1, visited, d, callbackResult =>
    if d.base ∈ visited then
      some (.error (.valueError ("Found a cycle in an ad-hoc action chain [action_name=" ++ self.name ++
        ", duplicate_action_name=" ++ d.base ++ "]")))
    else
      match p.find d.base self.ns with
      | none => some (.error (.invalidAction ("Failed to find base action [action_name=" ++ d.base ++ " namespace=" ++
          self.ns ++ "] ")))
      | some desc =>
        match callback desc (some callbackResult) with
        | .error e => some (.error e)
        | .ok callbackResult =>
          match desc with
          | .adhoc baseDef => visitLoop p self callback fuel (d.base :: visited) baseDef callbackResult
          | .other _ => some (.ok callbackResult)

/-- `_visit_hierarchy`. -/
def visitHierarchy (p : Provider ω χ δ) (fuel : Nat) (callback : Callback ω χ δ ε ρ) (self : Definition χ δ) :
    Option (Except (Exc ε) ρ) :=
  match callback (.adhoc self) none with
  | .error e => some (.error e)
  | .ok callbackResult => visitLoop p self callback fuel [self.name] self callbackResult

/-- An argument that is missing or not defined gets a value. -/
def setDefault (args : Arguments δ) (k : String) (v : Option δ) : Arguments δ :=
  match args.lookup k with
  | some (some _) => args
  | _ => (k, v) :: args.filter (·.1 ≠ k)

/-- The arguments for the base of an ad-hoc action. -/
def mapInput (ev : Evaluation χ δ γ ε) (wfCtx : γ) (args : Arguments δ) (d : Definition χ δ) :
    Except (Exc ε) (Arguments δ) :=
  let args := d.input.foldl (fun args (k, v) => setDefault args k v) args
  match ev.input d.baseInput args wfCtx with
  | .ok args => .ok args
  | .error e => .error (.evaluation e)

/-- `_on_visit` of `instantiate`: the base descriptor and its arguments. The first call is for the action itself. -/
def onVisit (ev : Evaluation χ δ γ ε) (wfCtx : γ) (inputDict : Arguments δ) :
    Callback ω χ δ ε (Option (Descriptor ω χ δ) × Arguments δ) := fun desc prevRes =>
  let (baseDesc, baseInput) :=
    match prevRes with
    | none => (none, inputDict)
    | some prev => (some desc, prev.2)
  match desc with
  | .other _ => .ok (baseDesc, baseInput)
  | .adhoc d => (mapInput ev wfCtx baseInput d).map (baseDesc, ·)

/-- `instantiate`: the descriptor that makes the base action, and the arguments that it gets. -/
def instantiate (p : Provider ω χ δ) (fuel : Nat) (ev : Evaluation χ δ γ ε) (self : Definition χ δ)
    (inputDict : Arguments δ) (wfCtx : γ) : Option (Except (Exc ε) (Option (Descriptor ω χ δ) × Arguments δ)) :=
  visitHierarchy p fuel (onVisit ev wfCtx inputDict) self

/-- What a transformer makes of a result. -/
def transform (ev : Evaluation χ δ γ ε) (result : Result δ) : Option χ → Except (Exc ε) (Result δ)
  | none => .ok result
  | some transformer =>
    match ev.output transformer result.data with
    | .ok data => .ok { data, error := result.error }
    | .error e => .error (.evaluation e)

/-- `_on_visit` of `post_process_result`, with the list that it appends to as its result. -/
def collectOutput : Callback ω χ δ ε (List (Option χ)) := fun desc prevRes =>
  match desc with
  | .adhoc d => .ok (prevRes.getD [] ++ [d.output])
  | .other _ => .ok (prevRes.getD [])

/-- `post_process_result`. -/
def postProcessResult (p : Provider ω χ δ) (fuel : Nat) (ev : Evaluation χ δ γ ε) (self : Definition χ δ)
    (result : Result δ) : Option (Except (Exc ε) (Result δ)) :=
  (visitHierarchy p fuel collectOutput self).map fun transformers =>
    match transformers with
    | .error e => .error e
    | .ok transformers => transformers.reverse.foldlM (transform ev) result

end
end AdhocActions
end Mistral
