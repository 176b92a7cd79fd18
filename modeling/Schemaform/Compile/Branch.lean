import Schemaform.Compile.Scalar
import Schemaform.Lib.Explore
import Schemaform.Resources.Graph

/-!
# Compile.Branch

Whether a conditional branch changes what a schema list projects to.

* `independentPropertyKinds`, `independentRequired`: what the list declares without the branch.
* `propertySchemaChangesProjection`: the question asked of a property of the branch.
* `branchChangesProjection`: the question asked of the branch and of all it makes applicable,
  every reference followed once.
-/

namespace Schemaform.Engine

open Resources (ResourceGraph GraphLocation)

abbrev SchemaIdentity := Nat × Pointer

def schemaIdentity (located : GraphLocation) : SchemaIdentity :=
  (located.documentIndex, located.documentPointer)

/-- The schema and the names its findings carry. -/
def locatedSchema (located : GraphLocation) : LocatedSchema :=
  ⟨located.schema, located.resource, located.pointer⟩

def hasKeyword (located : GraphLocation) (keyword : String) : Bool :=
  (located.schema.get keyword).isSome

variable (graph : ResourceGraph)

/-! ## Schemas below a schema -/

/-- `none` is the panic of a subschema that is not normalized. -/
def locatedSubschema (parent : GraphLocation) (schema : Value) (tokens : List String) :
    Option GraphLocation :=
  (graph.normalizeLocation { parent with
    schema
    pointer := parent.pointer ++ tokens
    documentPointer := parent.documentPointer ++ tokens }).toOption

/-- The target of `$ref`, where there is one. -/
def referenceTarget (located : GraphLocation) : Option (Option GraphLocation) :=
  match (located.schema.get "$ref").bind Value.asString with
  | none => some none
  | some reference => (graph.resolveReference located.resource reference).toOption.map some

def allOfBranches (located : GraphLocation) : List (Option GraphLocation) :=
  match (located.schema.get "allOf").bind Value.asArray with
  | none => []
  | some branches => branches.mapIdx fun index branch =>
    locatedSubschema graph located branch ["allOf", Nat.repr index]

def conditionalBranches (located : GraphLocation) : List (Option GraphLocation) :=
  if hasKeyword located "if" then
    ["then", "else"].filterMap fun keyword =>
      (located.schema.get keyword).map fun nested =>
        locatedSubschema graph located nested [keyword]
  else []

def propertySchemas (located : GraphLocation) : List (String × Option GraphLocation) :=
  match located.schema.get "properties" with
  | some (.object properties) => properties.map fun property =>
    (property.1, locatedSubschema graph located property.2 ["properties", property.1])
  | _ => []

def requiredNames (located : GraphLocation) : List String :=
  (((located.schema.get "required").bind Value.asArray).getD []).filterMap Value.asString

/-! ## Kinds declared by name -/

def declaredKind (located : GraphLocation) : Option ProjectedKind :=
  ((located.schema.get "type").bind Value.asString).bind projectedKind

abbrev KindVisit := GraphLocation → List SchemaIdentity →
  Option (Finset ProjectedKind × List SchemaIdentity)

def referredKinds (visit : KindVisit) (target : Option GraphLocation)
    (visitedReferences : List SchemaIdentity) : Option (Finset ProjectedKind × List SchemaIdentity) :=
  match target with
  | none => some (∅, visitedReferences)
  | some target =>
    if schemaIdentity target ∈ visitedReferences then some (∅, visitedReferences)
    else visit target (schemaIdentity target :: visitedReferences)

def projectedKindsFromSchema : Nat → KindVisit
  | 0, _, _ => none
  | fuel + 1, schema, visitedReferences => do
    let kinds := (declaredKind schema).elim ∅ ({·})
    let (more, visitedReferences) ← referredKinds (projectedKindsFromSchema fuel)
      (← referenceTarget graph schema) visitedReferences
    (allOfBranches graph schema).foldlM (fun (kinds, visitedReferences) branch => do
      let (more, visitedReferences) ←
        projectedKindsFromSchema fuel (← branch) visitedReferences
      some (kinds ∪ more, visitedReferences)) (kinds ∪ more, visitedReferences)

abbrev PropertyKinds := List (String × Finset ProjectedKind)

/-- `properties.entry(name).or_default().extend(kinds)` -/
def PropertyKinds.extend (properties : PropertyKinds) (name : String)
    (kinds : Finset ProjectedKind) : PropertyKinds :=
  SortedMap.insert name ((SortedMap.get name properties).getD ∅ ∪ kinds) properties

def independentPropertyKinds (fuel : Nat) (applicable : List GraphLocation) :
    Option PropertyKinds :=
  (applicable.flatMap (propertySchemas graph)).foldlM (fun properties property => do
    let (kinds, _) ← projectedKindsFromSchema graph fuel (← property.2) []
    some (PropertyKinds.extend properties property.1 kinds)) []

def independentRequired (applicable : List GraphLocation) : List String :=
  applicable.flatMap requiredNames

/-! ## Properties of a branch -/

def propertyKeywords : List String :=
  ["properties", "required", "items", "prefixItems", "dependentSchemas", "$dynamicRef", "oneOf",
    "anyOf", "enum", "const"]

/-- A declared type other than the one kind the property has without the branch. -/
def changesPropertyKind (independentKinds : Finset ProjectedKind) (located : GraphLocation) :
    Bool :=
  hasKeyword located "type" &&
    (declaredKind located).all fun kind => decide (independentKinds ≠ {kind})

def propertyWalk (independentKinds : Finset ProjectedKind) :
    Explore.Walk GraphLocation SchemaIdentity where
  own located _ := some (changesPropertyKind independentKinds located ||
    propertyKeywords.any (hasKeyword located))
  target := referenceTarget graph
  key := schemaIdentity
  children := allOfBranches graph

def propertySchemaChangesProjection (fuel : Nat) (schema : GraphLocation)
    (independentKinds : Finset ProjectedKind) (visitedReferences : List SchemaIdentity) :
    Option (Bool × List SchemaIdentity) :=
  Explore.search (propertyWalk graph independentKinds) fuel schema visitedReferences

/-! ## Branches -/

variable (fuel : Nat) (independentKind : Option ProjectedKind)
  (independentProperties : PropertyKinds) (independentRequired : List String)

def addsProperty (visitedReferences : List SchemaIdentity)
    (property : String × Option GraphLocation) : Option Bool := do
  let propertySchema ← property.2
  match SortedMap.get property.1 independentProperties with
  | none => some true
  | some kinds =>
    (propertySchemaChangesProjection graph fuel propertySchema kinds visitedReferences).map Prod.fst

def addsProperties (visitedReferences : List SchemaIdentity) (branch : GraphLocation) :
    Option Bool :=
  if independentKind = some .object then
    (propertySchemas graph branch).anyM
      (addsProperty graph fuel independentProperties visitedReferences)
  else some false

def changesPresence (branch : GraphLocation) : Bool :=
  decide (independentKind = some .object) &&
    (requiredNames branch).any fun property => decide (property ∉ independentRequired)

def changesKind (branch : GraphLocation) : Bool :=
  hasKeyword branch "type" &&
    (independentKind.isNone || decide (declaredKind branch ≠ independentKind))

def choiceKeywords : List String := ["oneOf", "anyOf", "enum", "const"]

def changesShape (branch : GraphLocation) : Bool :=
  independentKind.isNone && (hasKeyword branch "items" || hasKeyword branch "prefixItems") ||
  decide (independentKind = some .object) && hasKeyword branch "dependentSchemas" ||
  (independentKind.isNone || decide (independentKind = some .object)) &&
    hasKeyword branch "$dynamicRef" ||
  choiceKeywords.any (hasKeyword branch)

def branchWalk : Explore.Walk GraphLocation SchemaIdentity where
  own branch visitedReferences := do
    let addsProperties ←
      addsProperties graph fuel independentKind independentProperties visitedReferences branch
    some (addsProperties || changesPresence independentKind independentRequired branch ||
      changesShape independentKind branch || changesKind independentKind branch)
  target := referenceTarget graph
  key := schemaIdentity
  children branch := allOfBranches graph branch ++ conditionalBranches graph branch

def branchChangesProjection (branch : GraphLocation) (visitedReferences : List SchemaIdentity) :
    Option (Bool × List SchemaIdentity) :=
  Explore.search
    (branchWalk graph fuel independentKind independentProperties independentRequired) fuel branch
    visitedReferences

end Schemaform.Engine
