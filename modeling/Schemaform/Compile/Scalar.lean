import Mathlib.Data.Finset.Card
import Mathlib.Data.Finset.Insert
import Mathlib.Data.Finset.Lattice.Basic
import Schemaform.Compile.Projection

/-!
# Compile.Scalar

What kind of control the schemas that apply at one place compile to.

* `inferKind`: the one kind every `type` admits, beside null.
* `recognizeConstantChoice`: an `anyOf` or `oneOf` that lists constants.
* `scalarChoices`: the options every `enum`, `const` and constant choice admits.
* `projectScalar`: the kind, the options and whether null is accepted.
-/

namespace Schemaform.Engine

structure LocatedSchema where
  schema : Value
  resource : String
  pointer : Pointer
deriving DecidableEq, Repr

structure UnsupportedFinding where
  code : String
  keywordLocation : Pointer
  resource : String
  parameters : Value
deriving DecidableEq, Repr

/-! ## Kinds -/

inductive ProjectedKind where
  | string
  | number
  | integer
  | boolean
  | null
  | object
  | array
deriving DecidableEq, Repr

def projectedKind : String → Option ProjectedKind
  | "string" => some .string
  | "number" => some .number
  | "integer" => some .integer
  | "boolean" => some .boolean
  | "null" => some .null
  | "object" => some .object
  | "array" => some .array
  | _ => none

def insertProjectedKind (kinds : Finset ProjectedKind) (kind : ProjectedKind) :
    Finset ProjectedKind :=
  if kind = .number then insert .integer (insert kind kinds) else insert kind kinds

/-- The kinds of a list of names, none when one of them is not a kind. -/
def insertKinds (kinds : Finset ProjectedKind) : List Value → Option (Finset ProjectedKind)
  | [] => some kinds
  | kind :: rest => do
    let kind ← projectedKind (← kind.asString)
    insertKinds (insertProjectedKind kinds kind) rest

def declaredProjectedKinds (declared : Value) : Option (Finset ProjectedKind) :=
  match declared with
  | .string kind => (projectedKind kind).map (insertProjectedKind ∅)
  | .array kinds => insertKinds ∅ kinds
  | _ => none

def retainKinds (kinds : Finset ProjectedKind) : List Value → Option (Finset ProjectedKind)
  | [] => some kinds
  | declared :: rest => do
    let declared ← declaredProjectedKinds declared
    retainKinds (kinds ∩ declared) rest

def typeDeclarations (applicable : List LocatedSchema) : List Value :=
  applicable.filterMap fun located => located.schema.get "type"

/-- The kinds every declaration admits. -/
def admittedKinds (applicable : List LocatedSchema) : Option (Finset ProjectedKind) :=
  match typeDeclarations applicable with
  | [] => none
  | declared :: rest => do
    let kinds ← declaredProjectedKinds declared
    retainKinds kinds rest

def inferKind (applicable : List LocatedSchema) : Option ProjectedKind := do
  let admitted ← admittedKinds applicable
  let acceptsNull := decide (.null ∈ admitted)
  let kinds := admitted.erase .null
  if kinds = ∅ then if acceptsNull then some .null else none
  else if acceptsNull ∧ (.object ∈ kinds ∨ .array ∈ kinds) then none
  else if kinds = {.number, .integer} then some .number
  else if kinds.card = 1 then
    [.string, .number, .integer, .boolean, .null, .object, .array].find? fun kind =>
      decide (kind ∈ kinds)
  else none

def valueMatchesType (value : Value) (kind : String) : Bool :=
  match kind with
  | "string" => value.isString
  | "number" => value.isNumber
  | "integer" => value.asNumber.any numberIsInteger
  | "boolean" => value.isBoolean
  | "null" => value.isNull
  | "object" => value.isObject
  | "array" => value.isArray
  | _ => false

def valueMatchesTypeDeclaration (value declaration : Value) : Bool :=
  match declaration with
  | .string kind => valueMatchesType value kind
  | .array kinds => (kinds.filterMap Value.asString).any (valueMatchesType value)
  | _ => false

def applicableAcceptsNull (applicable : List LocatedSchema) : Bool :=
  let declarations := typeDeclarations applicable
  !declarations.isEmpty && declarations.all (valueMatchesTypeDeclaration .null)

/-! ## Constant choices -/

structure CompiledChoice where
  value : Value
  title : Option String
  description : Option String
deriving DecidableEq, Repr

def CompiledChoice.unannotated (value : Value) : CompiledChoice := ⟨value, none, none⟩

def draft202012Keywords : List String :=
  ["$anchor", "$comment", "$defs", "$dynamicAnchor", "$dynamicRef", "$id", "$ref", "$schema",
    "$vocabulary", "additionalProperties", "allOf", "anyOf", "const", "contains",
    "contentEncoding", "contentMediaType", "contentSchema", "default", "dependentRequired",
    "dependentSchemas", "deprecated", "description", "else", "enum", "examples",
    "exclusiveMaximum", "exclusiveMinimum", "format", "if", "items", "maxContains", "maxItems",
    "maxLength", "maxProperties", "maximum", "minContains", "minItems", "minLength",
    "minProperties", "minimum", "multipleOf", "not", "oneOf", "pattern", "patternProperties",
    "prefixItems", "properties", "propertyNames", "readOnly", "required", "then", "title", "type",
    "unevaluatedItems", "unevaluatedProperties", "uniqueItems", "writeOnly"]

def constantBranchKeywords : List String :=
  ["const", "type", "title", "description", "$comment", "deprecated", "examples"]

structure ConstantBranch where
  constant : Value
  satisfiesType : Bool
  members : List (String × Value)
deriving DecidableEq, Repr

def constantBranch (branch : Value) : Except String ConstantBranch :=
  match branch with
  | .object members =>
    match SortedMap.get "const" members with
    | none => .error "non-constant-branch"
    | some constant =>
      if constant.isArray || constant.isObject then .error "non-constant-branch"
      else if members.any fun (key, _) =>
          !constantBranchKeywords.contains key && draft202012Keywords.contains key then
        .error "non-constant-branch"
      else .ok ⟨constant, (SortedMap.get "type" members).all (valueMatchesTypeDeclaration constant),
        members⟩
  | .bool _ => .error "boolean-branch"
  | _ => .error "non-constant-branch"

def repeatsConstant (constants : List ConstantBranch) : Bool :=
  constants.zipIdx.any fun (branch, index) =>
    (constants.take index).any fun other => jsonValuesEqual other.constant branch.constant

def ConstantBranch.choice (branch : ConstantBranch) : CompiledChoice :=
  ⟨branch.constant, (SortedMap.get "title" branch.members).bind Value.asString,
    (SortedMap.get "description" branch.members).bind Value.asString⟩

/-- A branch adds its constant when its own type admits it and no earlier one added it. -/
def addConstant (choices : List CompiledChoice) (branch : ConstantBranch) : List CompiledChoice :=
  if !branch.satisfiesType || choices.any (fun existing =>
      jsonValuesEqual existing.value branch.constant) then choices
  else choices ++ [branch.choice]

def recognizeConstantChoice (keyword : String) (branches : List Value) :
    Except String (List CompiledChoice) := do
  let constants ← branches.mapM constantBranch
  if keyword == "oneOf" && repeatsConstant constants then throw "duplicate-constant"
  return constants.foldl addConstant []

structure RecognizedConstantChoice where
  located : LocatedSchema
  keyword : String
  keywordLocation : Pointer
  choices : List CompiledChoice
deriving DecidableEq, Repr

def branchApplicators (applicable : List LocatedSchema) (keyword : String) :
    List (LocatedSchema × List Value) :=
  applicable.filterMap fun located =>
    ((located.schema.get keyword).bind Value.asArray).map fun branches => (located, branches)

def RecognizedConstantChoice.before (left right : RecognizedConstantChoice) : Bool :=
  decide (left.located.resource < right.located.resource ∨
    left.located.resource = right.located.resource ∧
      left.keywordLocation.text ≤ right.keywordLocation.text)

def recognizedConstantChoices (applicable : List LocatedSchema) :
    List RecognizedConstantChoice :=
  let recognized := ["anyOf", "oneOf"].flatMap fun keyword =>
    (branchApplicators applicable keyword).filterMap fun (located, branches) =>
      match recognizeConstantChoice keyword branches with
      | .ok choices => some ⟨located, keyword, located.pointer ++ [keyword], choices⟩
      | .error _ => none
  recognized.mergeSort RecognizedConstantChoice.before

/-! ## Options -/

structure AnnotatedChoices where
  values : List CompiledChoice
  selectable : Bool
  nullOnly : Bool
deriving DecidableEq, Repr

inductive ChoicesError where
  | unsupported (finding : UnsupportedFinding)
  | panic (message : String)
deriving DecidableEq, Repr

def retainAllowedChoices (choices : List CompiledChoice) (allowed : List Value) :
    List CompiledChoice :=
  choices.filter fun candidate => allowed.any fun value => jsonValuesEqual candidate.value value

def keywordFinding (located : LocatedSchema) (code keyword : String) : ChoicesError :=
  .unsupported ⟨code, located.pointer ++ [keyword], located.resource, .object []⟩

/-- The options one source starts from and the enumerations it has not used up. -/
def seedChoices (constantChoices : List RecognizedConstantChoice) (enumerations : List (List Value))
    (constants : List Value) : List CompiledChoice × List (List Value) :=
  match constantChoices, enumerations, constants with
  | first :: _, enumerations, _ => (first.choices, enumerations)
  | [], first :: rest, _ => (first.map CompiledChoice.unannotated, rest)
  | [], [], constant :: _ => ([.unannotated constant], [])
  | [], [], [] => ([.unannotated .null], [])

/-- The seed narrowed by every other source, and by the types. -/
def narrowedChoices (applicable : List LocatedSchema)
    (constantChoices : List RecognizedConstantChoice) (enumerations : List (List Value))
    (constants : List Value) : List CompiledChoice :=
  let (values, enumerations) := seedChoices constantChoices enumerations constants
  let values := (constantChoices.drop 1).foldl
    (fun values other => retainAllowedChoices values (other.choices.map (·.value))) values
  let values := enumerations.foldl retainAllowedChoices values
  let values := constants.foldl (fun values constant => retainAllowedChoices values [constant]) values
  values.filter fun candidate => applicable.all fun located =>
    located.schema != .bool false &&
      (located.schema.get "type").all (valueMatchesTypeDeclaration candidate.value)

def addUnique (unique : List CompiledChoice) (value : CompiledChoice) : List CompiledChoice :=
  if unique.any fun existing => jsonValuesEqual existing.value value.value then unique
  else unique ++ [value]

def scalarChoiceSortKey : Value → Nat × String
  | .null => (0, "")
  | .bool value => (1, toString value)
  | .number literal => (2, literal)
  | .string value => (3, value)
  -- structured choices are rejected before
  | .array _ | .object _ => (4, "")

def choiceBefore (left right : CompiledChoice) : Bool :=
  let left := scalarChoiceSortKey left.value
  let right := scalarChoiceSortKey right.value
  decide (left.1 < right.1 ∨ left.1 = right.1 ∧ left.2 ≤ right.2)

def isStructured (value : Value) : Bool := value.isArray || value.isObject

/-- The first enumeration, else the first constant, is where an option set fails. -/
def choicesFinding (enumerations : List (LocatedSchema × List Value))
    (constants : List (LocatedSchema × Value)) (problem : String) : ChoicesError :=
  match enumerations, constants with
  | (located, _) :: _, _ => keywordFinding located ("validation.enum." ++ problem) "enum"
  | [], (located, _) :: _ => keywordFinding located ("validation.const." ++ problem) "const"
  | [], [] => .panic "choices come from enum or const"

/-- Each option once; constant choices keep the order their author gave them. -/
def orderedChoices (constantChoices : List RecognizedConstantChoice)
    (values : List CompiledChoice) : List CompiledChoice :=
  let unique := values.foldl addUnique []
  if constantChoices.isEmpty then unique.mergeSort choiceBefore else unique

def constantAssertions (applicable : List LocatedSchema) : List (LocatedSchema × Value) :=
  applicable.filterMap fun located =>
    (located.schema.get "const").map fun value => (located, value)

def scalarChoices (applicable : List LocatedSchema) (independentKind : Option ProjectedKind) :
    Except ChoicesError (Option AnnotatedChoices) :=
  let enumerations := branchApplicators applicable "enum"
  let constants := constantAssertions applicable
  let constantChoices := recognizedConstantChoices applicable
  let hasSource := !enumerations.isEmpty || !constants.isEmpty || !constantChoices.isEmpty
  let nullOnly := !hasSource && independentKind == some .null
  if !hasSource && !nullOnly then .ok none
  else
    match constants.find? fun (_, value) => isStructured value with
    | some (located, _) => .error (keywordFinding located "validation.const.structured" "const")
    | none =>
      match constants.head?.bind fun (_, first) =>
          constants.find? fun (_, value) => !jsonValuesEqual first value with
      | some (located, _) => .error (keywordFinding located "validation.const.conflicting" "const")
      | none =>
        let values := narrowedChoices applicable constantChoices (enumerations.map Prod.snd)
          (constants.map Prod.snd)
        if values.any fun choice => isStructured choice.value then
          .error (choicesFinding enumerations constants "structured")
        else
          let unique := orderedChoices constantChoices values
          if unique.isEmpty then
            match constantChoices with
            | first :: _ => .error (.unsupported ⟨"applicator.constant-choices.incompatible",
                first.keywordLocation, first.located.resource,
                .object [("keyword", .string first.keyword)]⟩)
            | [] => .error (choicesFinding enumerations constants "incompatible")
          else .ok (some {
            values := unique
            selectable := (!enumerations.isEmpty || !constantChoices.isEmpty) && constants.isEmpty
            nullOnly })

/-! ## Controls -/

structure ScalarProjection where
  kind : ControlKind
  choices : List CompiledChoice
  acceptsNull : Bool
deriving DecidableEq, Repr

def ProjectedKind.controlKind : ProjectedKind → Option ControlKind
  | .string => some .string
  | .number => some .number
  | .integer => some .integer
  | .boolean => some .boolean
  | .null | .object | .array => none

def AnnotatedChoices.controlKind (choices : AnnotatedChoices) : ControlKind :=
  if choices.nullOnly then .null else if choices.selectable then .choice else .constant

/-- The control a property or an item compiles to, when it compiles to one. -/
def projectScalar (applicable : List LocatedSchema) : Option ScalarProjection :=
  match scalarChoices applicable (inferKind applicable) with
  | .error _ => none
  | .ok (some choices) =>
    some ⟨choices.controlKind, choices.values, choices.values.any (·.value.isNull)⟩
  | .ok none => ((inferKind applicable).bind ProjectedKind.controlKind).map fun kind =>
      ⟨kind, [], applicableAcceptsNull applicable⟩

end Schemaform.Engine
