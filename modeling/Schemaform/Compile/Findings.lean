import Mathlib.Data.List.Dedup
import Mathlib.Data.List.Destutter
import Mathlib.Data.List.Sort
import Schemaform.Compile.Expand

/-!
# Compile.Findings

What the schemas that apply at one place say that the projection does not show.

* `firstByPlace`: of several schemas the one that findings name.
* `deferredShapeFindings`: choices between branches, conditions and references that are not
  followed, where they bear on the shape.
* `allOfKindConflicts`: the innermost `allOf`s whose branches admit no common kind.
* `unsupportedRootFinding`, `unsupportedControlFinding`: why no control was found.
* `openObjectWarnings`, `textAnnotation`: what is shown, with a warning.
-/

namespace Schemaform.Engine

open Resources (ResourceGraph GraphLocation)

/-! ## Origins -/

def LocatedSchema.has (located : LocatedSchema) (keyword : String) : Bool :=
  (located.schema.get keyword).isSome

def LocatedSchema.before (left right : LocatedSchema) : Bool :=
  decide (left.resource < right.resource ∨
    left.resource = right.resource ∧ left.pointer.text ≤ right.pointer.text)

def firstByPlace : List LocatedSchema → Option LocatedSchema
  | [] => none
  | first :: rest =>
    some (rest.foldl (fun best next => if best.before next then best else next) first)

section Schemas

variable (applicable : List LocatedSchema)

def anyHas (keyword : String) : Bool := applicable.any (·.has keyword)

def firstKeywordOrigin (keyword : String) : Option LocatedSchema :=
  firstByPlace (applicable.filter (·.has keyword))

/-- The first schema that gives a keyword one of these values. -/
def firstValueOrigin (keyword : String) (test : Value → Bool) : Option LocatedSchema :=
  firstByPlace (applicable.filter fun located => (located.schema.get keyword).any test)

def isTrue : Value → Bool
  | .bool value => value
  | _ => false

def isFalse : Value → Bool
  | .bool value => !value
  | _ => false

def isExplicitlyClosedObject : Bool :=
  applicable.any fun located => (located.schema.get "additionalProperties").any isFalse

/-! ## Findings of single keywords -/

def keywordFindings (keyword code : String) : List UnsupportedFinding :=
  findingsByPlace ((applicable.filter (·.has keyword)).map fun located =>
    located.finding code [keyword] emptyParameters)

/-- A recognized choice of constants is projected and has no finding. -/
def branchApplicatorFindings (keyword code : String) : List UnsupportedFinding :=
  findingsByPlace ((branchApplicators applicable keyword).filterMap fun (located, branches) =>
    match recognizeConstantChoice keyword branches with
    | .ok _ => none
    | .error reason => some (located.finding code [keyword] (.object
        [("branchCount", .number (Nat.repr branches.length)), ("reason", .string reason)])))

def prefixItemsFindings : List UnsupportedFinding :=
  findingsByPlace ((branchApplicators applicable "prefixItems").map fun (located, values) =>
    located.finding "applicator.prefix-items" ["prefixItems"]
      (.object [("itemCount", .number (Nat.repr values.length))]))

def namesArray (declared : Value) : Bool :=
  declared.asString == some "array" ||
    declared.asArray.any fun kinds => kinds.any fun kind => kind.asString == some "array"

def arrayMayApply : Bool := (typeDeclarations applicable).all namesArray

def declaredTypeNames : List String :=
  ((typeDeclarations applicable).flatMap fun declared =>
    match declared.asArray with
    | some kinds => kinds.filterMap Value.asString
    | none => declared.asString.toList).dedup

def dynamicMapFinding : List UnsupportedFinding :=
  if isExplicitlyClosedObject applicable then []
  else
    match firstValueOrigin applicable "additionalProperties"
      fun value => value.isObject || isTrue value with
    | some origin => [origin.finding "applicator.additional-properties.dynamic-map"
        ["additionalProperties"] (.object [("implicit", .bool false)])]
    | none => (firstByPlace applicable).toList.map fun origin =>
        origin.finding "applicator.additional-properties.dynamic-map" []
          (.object [("implicit", .bool true)])

/-- An object without `properties` has members of any names. -/
def dynamicObjectMapFindings : List UnsupportedFinding :=
  if anyHas applicable "properties" then []
  else
    dynamicMapFinding applicable ++
    [("patternProperties", "applicator.pattern-properties.shape"),
      ("unevaluatedProperties", "unevaluated.properties.shape")].flatMap fun (keyword, code) =>
        (firstKeywordOrigin applicable keyword).toList.map fun origin =>
          origin.finding code [keyword] emptyParameters

def unsupportedRootFinding (kind : Option ProjectedKind) (hasScalarChoices : Bool) :
    Option UnsupportedFinding :=
  applicable.head?.map fun location =>
    let declaredKinds := declaredTypeNames applicable
    let (code, keyword) : String × Option String :=
      if kind = some .array then ("structure.root.array", some "type")
      else if kind.isSome || hasScalarChoices then
        ("structure.root.scalar", if kind.isSome then some "type" else none)
      else if declaredKinds = ["array"] then ("structure.root.array", some "type")
      else if applicable.any (·.schema.isBoolean) then ("core.boolean.unconstrained", none)
      else if !declaredKinds.isEmpty then ("validation.type.ambiguous", some "type")
      else ("validation.type.unconstrained", none)
    ((keyword.bind (firstKeywordOrigin applicable)).getD location).finding code keyword.toList
      emptyParameters

def unsupportedControlFinding (location : LocatedSchema) : UnsupportedFinding :=
  if applicable.any (·.schema.isBoolean) then
    location.finding "core.boolean.unconstrained" [] emptyParameters
  else
    match firstKeywordOrigin applicable "type" with
    | some origin => origin.finding "validation.type.ambiguous" ["type"] emptyParameters
    | none => location.finding "validation.type.unconstrained" [] emptyParameters

/-! ## Warnings -/

/-- The first schema that leaves an object with `properties` open, `properties` alone doing so. -/
def openFinding : List UnsupportedFinding :=
  match firstValueOrigin applicable "additionalProperties" isTrue with
  | some origin => [origin.finding "applicator.additional-properties.open"
      ["additionalProperties"] (.object [("implicit", .bool false)])]
  | none => (firstKeywordOrigin applicable "properties").toList.map fun origin =>
      origin.finding "applicator.additional-properties.open" []
        (.object [("implicit", .bool true)])

def openObjectWarnings : List UnsupportedFinding :=
  if !anyHas applicable "properties" then []
  else
    let closed := isExplicitlyClosedObject applicable
    let schemaOrigin := firstValueOrigin applicable "additionalProperties" Value.isObject
    (if closed then [] else schemaOrigin.toList.map fun origin =>
      origin.finding "applicator.additional-properties.schema-projection"
        ["additionalProperties"] emptyParameters) ++
    (firstKeywordOrigin applicable "patternProperties").toList.map (fun origin =>
      origin.finding "applicator.pattern-properties.fixed-projection" ["patternProperties"]
        emptyParameters) ++
    (if closed || schemaOrigin.isSome then [] else openFinding applicable)

/-- The text all schemas agree on; several texts are a finding. -/
def textAnnotation (keyword : String) : Option String × Option UnsupportedFinding :=
  match (applicable.filterMap fun located =>
    textKeyword located.schema keyword).dedup.insertionSort (· ≤ ·) with
  | [] => (none, none)
  | [value] => (some value, none)
  | values =>
    (none, (firstValueOrigin applicable keyword Value.isString).map fun origin =>
      origin.finding "annotation.conflict" [keyword] (.object
        [("keyword", .string keyword), ("values", .array (values.map .string))]))

structure SchemaLocationDefinition where
  resource : String
  pointer : Pointer
deriving DecidableEq, Repr

def SchemaLocationDefinition.before (left right : SchemaLocationDefinition) : Bool :=
  decide (left.resource < right.resource ∨
    left.resource = right.resource ∧ left.pointer.text ≤ right.pointer.text)

def schemaLocations : List SchemaLocationDefinition :=
  (applicable.map fun located => (⟨located.resource, located.pointer⟩ :
    SchemaLocationDefinition)).dedup.mergeSort SchemaLocationDefinition.before

end Schemas

/-! ## Conflicts in `allOf` -/

def AllOfOrigin.before (left right : AllOfOrigin) : Bool :=
  decide (left.resource < right.resource ∨
    left.resource = right.resource ∧ left.keywordLocation.text ≤ right.keywordLocation.text)

/-- In order, equal neighbours once. -/
def orderedOrigins (origins : List AllOfOrigin) : List AllOfOrigin :=
  (origins.mergeSort AllOfOrigin.before).destutter (· ≠ ·)

section Conflicts

variable (applicable : List ApplicableSchema)

/-- The `allOf`s with a branch that declares a type. -/
def branchContributingOrigins : List AllOfOrigin :=
  orderedOrigins (applicable.flatMap fun located =>
    (located.allOfMemberships.filter fun membership =>
      membership.branchIndex.isSome && located.plain.has "type").map (·.origin))

def schemasForOrigin (origin : AllOfOrigin) : List ApplicableSchema :=
  applicable.filter fun located => located.allOfMemberships.any (·.origin == origin)

/-- Some schema is in a branch of the one inside a branch of the other. -/
def originPrecedes (ancestor descendant : AllOfOrigin) : Bool :=
  applicable.any fun located =>
    let origins := located.allOfMemberships.map (·.origin)
    origins.contains ancestor && origins.contains descendant &&
      decide (origins.idxOf ancestor < origins.idxOf descendant)

def leafConflictOrigins (candidates : List AllOfOrigin) : List AllOfOrigin :=
  orderedOrigins (candidates.filter fun candidate =>
    !candidates.any fun other =>
      candidate != other && originPrecedes applicable candidate other)

def allOfKindConflicts : List AllOfOrigin :=
  leafConflictOrigins applicable ((branchContributingOrigins applicable).filter fun origin =>
    (inferKind ((schemasForOrigin applicable origin).map (·.plain))).isNone)

end Conflicts

def allOfUnsupportedFinding (origin : AllOfOrigin) (reason : String) : UnsupportedFinding :=
  ⟨"applicator.all-of.ambiguous", origin.keywordLocation, origin.resource, .object
    [("branchCount", .number (Nat.repr origin.branchCount)), ("reason", .string reason)]⟩

/-! ## Conditions -/

/-- No answer is the panic of a reference or a subschema that is not qualified. -/
def qualified {α : Type} (answer : Option α) : Except CompileError α :=
  answer.elim (.error (.panic "qualified schemas remain resolvable during projection")) .ok

/-- What the schemas say without their conditions. -/
structure Independent where
  kind : Option ProjectedKind
  properties : PropertyKinds
  required : List String

variable (graph : ResourceGraph) (fuel : Nat)

def independentOf (applicable : List ApplicableSchema) (kind : Option ProjectedKind) :
    Except CompileError Independent := do
  let locations := applicable.map (·.location)
  let properties ← qualified (independentPropertyKinds graph fuel locations)
  pure ⟨kind, properties, independentRequired locations⟩

namespace Independent

variable (independent : Independent)

def isChangedBy (branch : GraphLocation) : Except CompileError Bool :=
  (qualified (branchChangesProjection graph fuel independent.kind independent.properties
    independent.required branch [])).map Prod.fst

/-- `conditional_properties_change_projection` -/
def hasPropertiesChangedBy (branch : GraphLocation) : Except CompileError Bool :=
  qualified (addsProperties graph fuel independent.kind independent.properties [] branch)

end Independent

/-- Findings of every schema, by place. -/
def collectFindings (applicable : List ApplicableSchema)
    (findings : ApplicableSchema → Except CompileError (List UnsupportedFinding)) :
    Except CompileError (List UnsupportedFinding) :=
  (applicable.mapM findings).map fun found => findingsByPlace found.flatten

def subschema (located : GraphLocation) (schema : Value) (tokens : List String) :
    Except CompileError GraphLocation :=
  qualified (locatedSubschema graph located schema tokens)

def dependentSchemaFindings (independent : Independent) (located : ApplicableSchema) :
    Except CompileError (List UnsupportedFinding) :=
  match located.schema.get "dependentSchemas" with
  | some (.object dependencies) => do
    let structural ← dependencies.anyM fun (property, branch) => do
      let branch ← subschema graph located.location branch ["dependentSchemas", property]
      independent.isChangedBy graph fuel branch
    pure (if structural then [located.plain.finding "applicator.dependent-schemas.structural"
      ["dependentSchemas"] emptyParameters] else [])
  | _ => .ok []

def structuralDependentSchemaFindings (applicable : List ApplicableSchema)
    (independentKind : Option ProjectedKind) : Except CompileError (List UnsupportedFinding) := do
  let independent ← independentOf graph fuel applicable independentKind
  collectFindings applicable (dependentSchemaFindings graph fuel independent)

def dynamicReferenceFindings (independent : Independent) (located : ApplicableSchema) :
    Except CompileError (List UnsupportedFinding) :=
  match textKeyword located.schema "$dynamicRef" with
  | none => .ok []
  | some reference => do
    let target ← qualified (graph.resolveReference located.resource reference).toOption
    let changed ← independent.isChangedBy graph fuel target
    pure (if changed then [located.plain.finding "core.dynamic-reference.shape" ["$dynamicRef"]
      emptyParameters] else [])

def dynamicObjectShapeFindings (applicable : List ApplicableSchema) :
    Except CompileError (List UnsupportedFinding) := do
  let independent ← independentOf graph fuel applicable (some .object)
  collectFindings applicable (dynamicReferenceFindings graph fuel independent)

/-- The question asked of `then` or `else`, where there is one. -/
def askBranch (located : ApplicableSchema) (keyword : String)
    (question : GraphLocation → Except CompileError Bool) : Except CompileError Bool :=
  match located.schema.get keyword with
  | none => .ok false
  | some branch => do
    let branch ← subschema graph located.location branch [keyword]
    question branch

def conditionalMembershipFindings (located : ApplicableSchema) : List UnsupportedFinding :=
  (located.allOfMemberships.filter (·.branchIndex.isSome)).map fun membership =>
    ⟨"applicator.all-of.conditional", membership.origin.keywordLocation,
      membership.origin.resource, emptyParameters⟩

/-- What a branch changes: the projection, and its properties among that. -/
structure BranchChanges where
  structural : Bool
  properties : Bool

def branchChanges (independent : Independent) (located : ApplicableSchema) (keyword : String) :
    Except CompileError BranchChanges := do
  let structural ← askBranch graph located keyword (independent.isChangedBy graph fuel)
  let properties ← askBranch graph located keyword (independent.hasPropertiesChangedBy graph fuel)
  pure ⟨structural, properties⟩

/-- What is told of a condition whose branches change this. -/
def changeFindings (located : ApplicableSchema) (thenChanges elseChanges : BranchChanges) :
    List UnsupportedFinding :=
  if !thenChanges.structural && !elseChanges.structural then []
  else
    let keywords := [("if", true), ("then", thenChanges.structural),
      ("else", elseChanges.structural)].filter Prod.snd
    let branches :=
      [("then", thenChanges.properties), ("else", elseChanges.properties)].filter Prod.snd
    conditionalMembershipFindings located ++
    keywords.map (fun (keyword, _) =>
      located.plain.finding ("applicator." ++ keyword ++ ".structural") [keyword]
        emptyParameters) ++
    branches.map fun (branch, _) =>
      located.plain.finding "applicator.properties.conditional" [branch, "properties"]
        (.object [("branch", .string branch)])

def conditionFindings (independent : Independent) (located : ApplicableSchema) :
    Except CompileError (List UnsupportedFinding) :=
  if !located.plain.has "if" then .ok []
  else do
    let thenChanges ← branchChanges graph fuel independent located "then"
    let elseChanges ← branchChanges graph fuel independent located "else"
    pure (changeFindings located thenChanges elseChanges)

def structuralConditionalFindings (applicable : List ApplicableSchema)
    (independentKind : Option ProjectedKind) : Except CompileError (List UnsupportedFinding) := do
  let independent ← independentOf graph fuel applicable independentKind
  collectFindings applicable (conditionFindings graph fuel independent)

/-! ## Choices under conditions -/

def itemsSchema (located : GraphLocation) : List (Option GraphLocation) :=
  (located.schema.get "items").toList.map fun items =>
    locatedSubschema graph located items ["items"]

/-- One schema under a condition, with the findings and the schemas visited so far. -/
def conditionalChoice (located : GraphLocation)
    (state : List SchemaIdentity × List UnsupportedFinding) :
    Except CompileError ((List SchemaIdentity × List UnsupportedFinding) × List GraphLocation) :=
  let (visited, findings) := state
  if visited.contains (schemaIdentity located) then .ok (state, [])
  else do
    let findings := if hasKeyword located "enum" then
      insertFinding ((locatedSchema located).finding "validation.enum.conditional" ["enum"]
        emptyParameters) findings else findings
    let target ← qualified (referenceTarget graph located)
    let children ← ((propertySchemas graph located).map Prod.snd ++ allOfBranches graph located ++
      itemsSchema graph located ++ conditionalBranches graph located).mapM qualified
    pure ((schemaIdentity located :: visited, findings), (target.toList ++ children).reverse)

/-- Each branch is searched with no schema visited. -/
def conditionalBranchFindings (located : ApplicableSchema) (findings : List UnsupportedFinding)
    (keyword : String) : Except CompileError (List UnsupportedFinding) :=
  match located.schema.get keyword with
  | none => .ok findings
  | some branch => do
    let branch ← subschema graph located.location branch [keyword]
    let (_, findings) ←
      Worklist.run (conditionalChoice graph) exhausted fuel [branch] ([], findings)
    pure findings

def conditionalChoiceFindings (applicable : List ApplicableSchema) :
    Except CompileError (List UnsupportedFinding) :=
  (applicable.filter (·.plain.has "if")).foldlM
    (fun findings located =>
      ["then", "else"].foldlM (conditionalBranchFindings graph fuel located) findings) []

/-! ## Shapes that are not projected -/

/-- Where nothing else decides the shape, any `$dynamicRef` may. -/
def dynamicShapeFindings (applicable : List ApplicableSchema)
    (independentKind : Option ProjectedKind) (undecided : Bool) :
    Except CompileError (List UnsupportedFinding) :=
  if undecided then .ok (keywordFindings (applicable.map (·.plain)) "$dynamicRef"
    "core.dynamic-reference.shape")
  else if independentKind = some .object then dynamicObjectShapeFindings graph fuel applicable
  else .ok []

def deferredShapeFindings (applicable : List ApplicableSchema)
    (independentKind : Option ProjectedKind) (hasFiniteChoices : Bool) :
    Except CompileError (List UnsupportedFinding) := do
  let schemas := applicable.map (·.plain)
  let undecided := independentKind.isNone && !hasFiniteChoices
  let dynamic ← dynamicShapeFindings graph fuel applicable independentKind undecided
  let conditional ← structuralConditionalFindings graph fuel applicable independentKind
  let choices ← conditionalChoiceFindings graph fuel applicable
  let dependent ← structuralDependentSchemaFindings graph fuel applicable independentKind
  pure (branchApplicatorFindings schemas "oneOf" "applicator.one-of" ++
    branchApplicatorFindings schemas "anyOf" "applicator.any-of" ++
    (if arrayMayApply schemas then prefixItemsFindings schemas else []) ++
    dynamic ++ conditional ++ choices ++ dependent ++
    if undecided then keywordFindings schemas "not" "applicator.not.shape" else [])

end Schemaform.Engine
