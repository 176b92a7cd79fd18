import Schemaform.Finding
import Schemaform.Lib.Association
import Schemaform.Resources.Prepare

/-!
# Resources.Queries

What a form compiler, the limits and the validator ask of a prepared graph.

* `applicableChildren`: the subschemas of a location that apply to its instance or to parts of it.
* `rootLocation`, `validatorRootDocument`, `resourceSchemas`, `limitMetrics`.
* `cardinalityBoundLimits`: the values of the array bounds, by schema location.
* `anchorLocations`, `schemaLocationAliases`: the pointers behind anchors, and the locations a
  validator may report relative to an anchor instead of the resource.
* `qualificationLocationForError`: the first place whose value is the one an error is about.
-/

namespace Schemaform.Resources

def ResourceGraph.applicableChildren (graph : ResourceGraph) (location : GraphLocation) :
    Except GraphError (List GraphLocation) :=
  (applicableSchemaChildren location.schema location.documentPointer).mapM fun documentPointer => do
    let document ← orPanic "index out of bounds" graph.documents[location.documentIndex]?
    let schema ← orInvalid (documentPointer.resolve document)
    let relative ← orInvalid (relativePointer location.documentPointer documentPointer)
    graph.normalizeLocation {
      schema
      documentIndex := location.documentIndex
      resource := location.resource
      pointer := location.pointer ++ relative
      documentPointer
      resourceRoot := location.resourceRoot }

namespace ResourceTables

variable (tables : ResourceTables)

def rootLocation (uris : UriRules) : Except GraphError GraphLocation :=
  (tables.graph uris).locationFromRoot tables.root

def validatorRootDocument : Except PrepareError Value := tables.validatorDocument 0 []

def documentForResource (resource : String) : Except PrepareError (Option Value) :=
  match tables.aliases.lookup resource with
  | none => .ok none
  | some root => (tables.document root.documentIndex).map (some ·.document)

/-- The roots of all resources, in order. -/
def roots : List ResourceRoot := sortedRoots (tables.aliases.map Prod.snd)

def resourceSchemas : Except PrepareError (List (String × Value)) :=
  tables.roots.mapM fun root => do
    let document ← tables.document root.documentIndex
    let schema ← orPanicWith "indexed resource roots remain addressable"
      (root.documentPointer.resolve document.document)
    pure (root.resource, schema)

structure LimitMetrics where
  resources : Nat
  references : Nat
  traversal : Nat
  uriBytes : Nat
  pointerBytes : Nat
deriving DecidableEq, Repr

def limitMetrics : Except PrepareError LimitMetrics := do
  let resources ← tables.resourceSchemas
  let uris := tables.aliases.map (·.1.utf8ByteSize) ++ tables.anchors.map fun anchor =>
    anchor.1.1.utf8ByteSize + (anchor.1.2.utf8ByteSize + 1)
  let pointers := tables.indexedSchemas.map (·.2.1.text.utf8ByteSize) ++
    tables.anchors.map (·.2.pointer.text.utf8ByteSize)
  pure {
    resources := resources.length
    references := tables.referenceCount
    traversal := tables.qualificationTraversal
    uriBytes := uris.foldl max 0
    pointerBytes := pointers.foldl max 0 }

/-! ## Bounds -/

def cardinalityKeywords : List String := ["minItems", "maxItems", "minContains", "maxContains"]

/-- The bounds of one indexed schema, located from the deepest root above it. -/
def boundLimitsAt (uris : UriRules) (key : SchemaKey) :
    Except PrepareError (List (SchemaLocation × Value)) := do
  let document ← tables.document key.1
  let schema ← orPanicWith "indexed schemas remain addressable" (key.2.1.resolve document.document)
  let fallback ← orPanicWith "document retrieval identities retain their resource roots"
    (tables.aliases.lookup document.retrievalUri)
  let resourceRoot := (tables.graph uris).deepestResourceRoot key.1 key.2.1 fallback
  let pointer ← orPanicWith "indexed schemas remain within their resource roots"
    (relativePointer resourceRoot.documentPointer key.2.1)
  pure (cardinalityKeywords.filterMap fun keyword => (schema.get keyword).map fun limit =>
    (⟨resourceRoot.resource, pointer ++ [keyword]⟩, limit))

/-- All bounds, in the order in which they are put into the map. -/
def cardinalityBoundLimits (uris : UriRules) : Except PrepareError (List (SchemaLocation × Value)) :=
  (tables.indexedSchemas.mapM (tables.boundLimitsAt uris)).map List.flatten

/-! ## Anchors -/

def anchorLocations : List (String × String) :=
  tables.anchors.map fun anchor => (anchor.1.1 ++ "#" ++ anchor.1.2, anchor.2.pointer.text)

/-- The locations below an anchored schema that mean no place of the resource, with the places they
stand for. -/
def aliasCandidates (anchor : (String × String) × IndexedAnchor) :
    Except PrepareError (List (String × String)) := do
  let target := anchor.2
  let document ← tables.document target.root.documentIndex
  let anchored ← orPanicWith "indexed anchors remain addressable"
    (target.documentPointer.resolve document.document)
  let relatives := (valuePointers anchored).filter fun relative =>
    ((target.root.documentPointer ++ relative).resolve document.document).isNone
  pure (relatives.map fun relative =>
    (anchor.1.1 ++ "#" ++ relative.text, target.pointer.text ++ relative.text))

def schemaLocationAliases : Except PrepareError (List (String × String)) := do
  let candidates ← tables.anchors.mapM tables.aliasCandidates
  pure (Association.settle candidates.flatten)

/-! ## Errors -/

/-- The location below a root where a value is found. -/
def locationBelow (pointer : String) (value : Value) (root : ResourceRoot) :
    Except PrepareError (Option QualificationLocation) :=
  match Pointer.parse (root.documentPointer.text ++ pointer) with
  | none => .ok none
  | some documentPointer => do
    let document ← tables.document root.documentIndex
    pure (if documentPointer.resolve document.document = some value then
      some (qualificationLocation document documentPointer) else none)

def firstLocationBelow (pointer : String) (value : Value) :
    List ResourceRoot → Except PrepareError (Option QualificationLocation)
  | [] => .ok none
  | root :: roots => do
    match ← tables.locationBelow pointer value root with
    | some location => pure (some location)
    | none => firstLocationBelow pointer value roots

def qualificationLocationForError (resource : Option String) (pointer : String) (value : Value) :
    Except PrepareError QualificationLocation := do
  let named := (resource.bind fun uri => tables.aliases.lookup uri).toList
  match ← tables.firstLocationBelow pointer value (named ++ tables.roots) with
  | some location => pure location
  | none => do
    let document ← tables.document 0
    let pointer ← orPanicWith "qualified schema locations are JSON Pointers" (Pointer.parse pointer)
    pure (qualificationLocation document pointer)

end ResourceTables

end Schemaform.Resources
