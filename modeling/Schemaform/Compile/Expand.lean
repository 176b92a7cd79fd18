import Schemaform.Compile.Branch
import Schemaform.Lib.Worklist
import Schemaform.Resources.Queries

/-!
# Compile.Expand

Every schema that applies at one place.

* `ApplicableSchema`: a schema with the `allOf`s it is a branch of and the references that led to
  it.
* `expandReferences`: follows `$ref` and `allOf` from the schemas of one place, within the bound on
  visited schemas. A reference that leads back is a finding and is not followed.
* `includeValidationResources`: the resources a validator reads from one schema on.
-/

namespace Schemaform.Engine

open Resources (ResourceGraph GraphLocation GraphError)

/-! ## Applicable schemas -/

structure AllOfOrigin where
  resource : String
  keywordLocation : Pointer
  branchCount : Nat
deriving DecidableEq, Repr

/-- No index stands for the schema that has the `allOf`. -/
structure AllOfMembership where
  origin : AllOfOrigin
  branchIndex : Option Nat
deriving DecidableEq, Repr

structure ApplicableSchema where
  location : GraphLocation
  allOfMemberships : List AllOfMembership
  referencePath : List SchemaIdentity
deriving DecidableEq, Repr

def locatedFromGraph (location : GraphLocation) : ApplicableSchema :=
  ⟨location, [], [schemaIdentity location]⟩

namespace ApplicableSchema

variable (located : ApplicableSchema)

def schema : Value := located.location.schema

def resource : String := located.location.resource

def pointer : Pointer := located.location.pointer

def identity : SchemaIdentity := schemaIdentity located.location

def plain : LocatedSchema := locatedSchema located.location

end ApplicableSchema

def pushMembership (memberships : List AllOfMembership) (membership : AllOfMembership) :
    List AllOfMembership :=
  if memberships.contains membership then memberships else memberships ++ [membership]

/-- `values.insert(value)` -/
def insertValue {α : Type} [DecidableEq α] (values : List α) (value : α) : List α :=
  if value ∈ values then values else values ++ [value]

/-! ## Findings by place -/

def emptyParameters : Value := .object []

def UnsupportedFinding.before (left right : UnsupportedFinding) : Bool :=
  decide (left.resource < right.resource ∨ left.resource = right.resource ∧
    (left.keywordLocation.text < right.keywordLocation.text ∨
      left.keywordLocation.text = right.keywordLocation.text ∧ left.code < right.code))

def UnsupportedFinding.samePlace (left right : UnsupportedFinding) : Bool :=
  left.resource == right.resource && left.keywordLocation == right.keywordLocation &&
    left.code == right.code

/-- Findings in the order of their places, the later of two at one place. Every map has findings of
one code only or has the code in its keys. -/
def insertFinding (finding : UnsupportedFinding) : List UnsupportedFinding → List UnsupportedFinding
  | [] => [finding]
  | first :: rest =>
    if finding.samePlace first then finding :: rest
    else if finding.before first then finding :: first :: rest
    else first :: insertFinding finding rest

def findingsByPlace (findings : List UnsupportedFinding) : List UnsupportedFinding :=
  findings.foldl (fun found finding => insertFinding finding found) []

/-- A finding at a keyword of a schema, or at the schema itself. -/
def LocatedSchema.finding (located : LocatedSchema) (code : String) (keywords : List String)
    (parameters : Value) : UnsupportedFinding :=
  ⟨code, located.pointer ++ keywords, located.resource, parameters⟩

/-! ## Validation resources -/

variable (graph : ResourceGraph)

/-- A graph that does not answer has a reference that is not supported. -/
def orUnsupported {α : Type} (reference : String) (answer : Except GraphError α) :
    Except CompileError α :=
  answer.mapError fun
    | .invalidGraph => .unsupportedReference reference
    | .panic message => .panic message

def textKeyword (schema : Value) (keyword : String) : Option String :=
  (schema.get keyword).bind Value.asString

structure ValidationState where
  traversal : ProjectionTraversal
  usedResources : List String
  visited : List SchemaIdentity

/-- The targets of the references come above the subschemas before them, the last one on top. -/
def includeLocation (location : GraphLocation) (state : ValidationState) :
    Except CompileError (ValidationState × List GraphLocation) := do
  let traversal ← state.traversal.visit
  if state.visited.contains (schemaIdentity location) then pure ({ state with traversal }, [])
  else do
    let references := ["$ref", "$dynamicRef"].filterMap (textKeyword location.schema)
    let targets ← references.mapM fun reference =>
      orUnsupported reference (graph.resolveReference location.resource reference)
    let children ← orUnsupported "$dynamicRef" (graph.applicableChildren location)
    pure (⟨traversal, insertValue state.usedResources location.resource,
      schemaIdentity location :: state.visited⟩, (targets ++ children).reverse)

def exhausted : CompileError := .panic "every visited schema lowers the bound"

/-- The resources of all schemas that `initial` leads to. -/
def includeValidationResources (initial : GraphLocation) (usedResources : List String)
    (traversal : ProjectionTraversal) : Except CompileError (List String × ProjectionTraversal) := do
  let state ← Worklist.run (includeLocation graph) exhausted (traversal.maximum + 1) [initial]
    ⟨traversal, usedResources, []⟩
  pure (state.usedResources, state.traversal)

/-! ## Expansion -/

/-- What a schema is remembered by: where it is and which branches it is in. -/
structure ExpansionKey where
  resource : String
  pointer : Pointer
  memberships : List (String × Pointer × Option Nat)

namespace ApplicableSchema

variable (located : ApplicableSchema)

def allOf : Option (List Value) := (located.schema.get "allOf").bind Value.asArray

def allOfOrigin (branches : List Value) : AllOfOrigin :=
  ⟨located.resource, located.pointer ++ ["allOf"], branches.length⟩

/-- A schema with an `allOf` is of that `allOf` too. -/
def joined : ApplicableSchema :=
  match located.allOf with
  | none => located
  | some branches =>
    { located with
      allOfMemberships :=
        pushMembership located.allOfMemberships ⟨located.allOfOrigin branches, none⟩ }

def expansionKey : ExpansionKey :=
  ⟨located.resource, located.pointer, located.allOfMemberships.map fun membership =>
    (membership.origin.resource, membership.origin.keywordLocation, membership.branchIndex)⟩

end ApplicableSchema

/-- Memberships are compared in a fixed order. -/
def ExpansionKey.same (left right : ExpansionKey) : Bool :=
  left.resource == right.resource && left.pointer == right.pointer &&
    left.memberships.isPerm right.memberships

structure ExpansionState where
  traversal : ProjectionTraversal
  usedResources : List String
  seen : List ExpansionKey
  expanded : List ApplicableSchema
  recursiveFindings : List UnsupportedFinding

/-- The target of `$ref`, unless it is being expanded already. -/
def expandReference (activeLocations : List SchemaIdentity) (located : ApplicableSchema)
    (state : ExpansionState) : Except CompileError (ExpansionState × List ApplicableSchema) :=
  match textKeyword located.schema "$ref" with
  | none => .ok (state, [])
  | some reference => do
    let target ← orUnsupported reference (graph.resolveReference located.resource reference)
    let state := { state with
      usedResources := insertValue state.usedResources target.resource }
    if activeLocations.contains (schemaIdentity target) ||
        located.referencePath.contains (schemaIdentity target) then
      pure ({ state with
        recursiveFindings := insertFinding
          (located.plain.finding "structure.recursive.projection" ["$ref"] emptyParameters)
          state.recursiveFindings }, [])
    else
      pure (state, [⟨target, located.allOfMemberships,
        located.referencePath ++ [schemaIdentity target]⟩])

/-- The validator follows `$dynamicRef` on its own. -/
def expandDynamicReference (located : ApplicableSchema) (state : ExpansionState) :
    Except CompileError ExpansionState :=
  match textKeyword located.schema "$dynamicRef" with
  | none => .ok state
  | some reference => do
    let target ← orUnsupported reference (graph.resolveReference located.resource reference)
    let (usedResources, traversal) ←
      includeValidationResources graph target state.usedResources state.traversal
    pure { state with usedResources, traversal }

def allOfBranch (located : ApplicableSchema) (branches : List Value) (index : Nat)
    (branch : Value) : Except CompileError ApplicableSchema := do
  let tokens := ["allOf", Nat.repr index]
  let location ← orUnsupported "$id" (graph.normalizeLocation { located.location with
    schema := branch
    pointer := located.location.pointer ++ tokens
    documentPointer := located.location.documentPointer ++ tokens })
  pure {
    location
    allOfMemberships :=
      pushMembership located.allOfMemberships ⟨located.allOfOrigin branches, some index⟩
    referencePath := insertValue located.referencePath (schemaIdentity location) }

def expandAllOf (located : ApplicableSchema) (state : ExpansionState) :
    Except CompileError (ExpansionState × List ApplicableSchema) :=
  match located.allOf with
  | none => .ok (state, [])
  | some branches => do
    let schemas ← branches.zipIdx.mapM fun (branch, index) =>
      allOfBranch graph located branches index branch
    pure ({ state with
      usedResources := schemas.foldl (fun used schema => insertValue used schema.resource)
        state.usedResources }, schemas)

/-- One schema is taken from the stack; its branches are pushed above the target of its
reference. -/
def expandSchema (activeLocations : List SchemaIdentity) (located : ApplicableSchema)
    (state : ExpansionState) : Except CompileError (ExpansionState × List ApplicableSchema) := do
  let traversal ← state.traversal.visit
  let state := { state with traversal }
  let located := located.joined
  if state.seen.any located.expansionKey.same then pure (state, [])
  else do
    let state := { state with seen := located.expansionKey :: state.seen }
    let (state, target) ← expandReference graph activeLocations located state
    let state ← expandDynamicReference graph located state
    let (state, branches) ← expandAllOf graph located state
    pure ({ state with expanded := state.expanded ++ [located] }, (target ++ branches).reverse)

def ApplicableSchema.before (left right : ApplicableSchema) : Bool :=
  decide (left.resource < right.resource ∨
    left.resource = right.resource ∧ left.pointer.text ≤ right.pointer.text)

structure SchemaExpansion where
  schemas : List ApplicableSchema
  recursiveFindings : List UnsupportedFinding
  usedResources : List String
  traversal : ProjectionTraversal

/-- The given schemas and all that apply through them, in the order of their places. -/
def expandReferences (schemas : List ApplicableSchema) (activeLocations : List SchemaIdentity)
    (usedResources : List String) (traversal : ProjectionTraversal) :
    Except CompileError SchemaExpansion := do
  let state ← Worklist.run (expandSchema graph activeLocations) exhausted (traversal.maximum + 1)
    schemas.reverse ⟨traversal, usedResources, [], [], []⟩
  pure ⟨state.expanded.mergeSort ApplicableSchema.before, state.recursiveFindings,
    state.usedResources, state.traversal⟩

end Schemaform.Engine
