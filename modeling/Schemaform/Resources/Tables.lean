import Schemaform.Lib.Traversal
import Schemaform.Resources.Graph

/-!
# Resources.Tables

The tables of a resource graph while it is prepared, and how a schema enters them.

* `ResourceTables`: documents, identities, anchors and the schemas indexed so far.
* `schemaChildren`: the subschemas of a schema, by keyword.
* `indexSchema`: an `$id` opens a resource of its own, an anchor names its place in it.
* `indexReferenceTarget`: a target in a region that is no schema position is indexed on the way.
-/

namespace Schemaform.Resources

def draft202012 : String := "https://json-schema.org/draft/2020-12/schema"

/-- The libraries that preparation calls. -/
structure Library where
  uris : UriRules
  /-- Whether a text is an absolute URI, with or without a fragment. -/
  isUri : String → Bool
  /-- The place of the first error of a schema against its meta-schema, none for a valid schema. -/
  validate : Value → Option Pointer
  /-- Whether the bundled specifications resolve a reference against a base. -/
  specifies : String → String → Bool
  /-- Whether the validator's registry finds the schema at a pointer by itself. -/
  isDraftSubresource : Value → Pointer → Bool
  /-- Whether that registry accepts resources under their URIs. -/
  registers : List (String × Value) → Bool

/-! ## Errors -/

inductive QualificationResource where
  | root
  | caller (index : Nat)
  | builtIn
deriving DecidableEq, Repr

structure QualificationLocation where
  resource : QualificationResource
  retrievalUri : String
  pointer : Pointer
deriving DecidableEq, Repr

inductive QualificationError where
  | invalidSchema (location : QualificationLocation)
  | missingDialect (location : QualificationLocation)
  | unsupportedDialect (location : QualificationLocation) (dialect : String)
  | nestedDialectSwitch (location : QualificationLocation) (dialect : String)
  | unsupportedRequiredVocabulary (location : QualificationLocation) (vocabulary : String)
  | invalidCanonicalIdentity (location : QualificationLocation) (identity : String)
  | duplicateRetrievalIdentity (identity : String)
      (firstLocation secondLocation : QualificationLocation)
  | duplicateCanonicalIdentity (identity : String)
      (firstLocation secondLocation : QualificationLocation)
  | duplicateAnchorIdentity (resourceUri anchor : String)
      (firstLocation secondLocation : QualificationLocation)
  | unresolvedReference (location : QualificationLocation) (reference : String)
deriving DecidableEq, Repr

inductive PrepareError where
  | qualification (error : QualificationError)
  | invalidGraph
  | panic (message : String)
  /-- The depth allowed to a traversal is used up. -/
  | exhausted
deriving DecidableEq, Repr

def GraphError.prepareError : GraphError → PrepareError
  | .invalidGraph => .invalidGraph
  | .panic message => .panic message

def orInvalidGraph {α : Type} (answer : Option α) : Except PrepareError α :=
  answer.elim (.error .invalidGraph) .ok

def orPanicWith {α : Type} (message : String) (answer : Option α) : Except PrepareError α :=
  answer.elim (.error (.panic message)) .ok

/-! ## Tables -/

structure ResourceDocument where
  origin : QualificationResource
  retrievalUri : String
  document : Value
deriving DecidableEq, Repr

structure IndexedAnchor extends AnchorTarget where
  location : QualificationLocation
deriving DecidableEq, Repr

/-- A place in a document and the resource it is read under. -/
abbrev SchemaKey := Nat × Pointer × String

instance : LawfulBEq SchemaKey := inferInstance

structure ResourceTables where
  documents : List ResourceDocument
  aliases : List (String × ResourceRoot)
  identityLocations : List (String × QualificationLocation)
  anchors : List ((String × String) × IndexedAnchor)
  indexedSchemas : List SchemaKey
  qualificationTraversal : Nat
  referenceCount : Nat
  root : ResourceRoot

def qualificationLocation (document : ResourceDocument) (pointer : Pointer) :
    QualificationLocation :=
  ⟨document.origin, document.retrievalUri, pointer⟩

namespace ResourceTables

variable (tables : ResourceTables)

def document (documentIndex : Nat) : Except PrepareError ResourceDocument :=
  orPanicWith "index out of bounds" tables.documents[documentIndex]?

/-- The tables as references are resolved in them. -/
def graph (uris : UriRules) : ResourceGraph where
  uris
  documents := tables.documents.map (·.document)
  aliases := tables.aliases
  anchors := tables.anchors.map fun (key, anchored) => (key, anchored.toAnchorTarget)

end ResourceTables

/-! ## Subschemas -/

/-- One place for every member of the object under a keyword. -/
def memberChildren (members : List (String × Value)) (parent : Pointer) (keyword : String) :
    List Pointer :=
  match SortedMap.get keyword members with
  | some (.object values) => values.map fun value => parent ++ [keyword, value.1]
  | _ => []

/-- One place for every item of the array under a keyword. -/
def itemChildren (members : List (String × Value)) (parent : Pointer) (keyword : String) :
    List Pointer :=
  match SortedMap.get keyword members with
  | some (.array values) =>
    (List.range values.length).map fun index => parent ++ [keyword, Nat.repr index]
  | _ => []

/-- The places below a schema that keywords of three kinds name. -/
def keywordChildren (maps arrays singles : List String) (schema : Value) (parent : Pointer) :
    List Pointer :=
  match schema with
  | .object members =>
    maps.flatMap (memberChildren members parent) ++ arrays.flatMap (itemChildren members parent) ++
    (singles.filter fun keyword => (SortedMap.get keyword members).isSome).map fun keyword =>
      parent ++ [keyword]
  | _ => []

def schemaChildren (schema : Value) (parent : Pointer) : List Pointer :=
  keywordChildren ["$defs", "definitions", "dependentSchemas", "patternProperties", "properties"]
    ["allOf", "anyOf", "oneOf", "prefixItems"]
    ["additionalProperties", "contains", "contentSchema", "else", "if", "items", "not",
      "propertyNames", "then", "unevaluatedItems", "unevaluatedProperties"] schema parent

def applicableSchemaChildren (schema : Value) (parent : Pointer) : List Pointer :=
  keywordChildren ["dependentSchemas", "patternProperties", "properties"]
    ["allOf", "anyOf", "oneOf", "prefixItems"]
    ["additionalProperties", "contains", "else", "if", "items", "not", "propertyNames", "then",
      "unevaluatedItems", "unevaluatedProperties"] schema parent

/-- A member of a schema that is a text. -/
def textMember (schema : Value) (keyword : String) : Option String :=
  (schema.get keyword).bind Value.asString

/-- The keywords among a few whose members are texts, with the texts. -/
def textMembers (schema : Value) (keywords : List String) : List (String × String) :=
  keywords.filterMap fun keyword => (textMember schema keyword).map (keyword, ·)

/-! ## Indexing -/

namespace ResourceTables

def addAlias (tables : ResourceTables) (uri : String) (root : ResourceRoot)
    (location : QualificationLocation) : ResourceTables :=
  { tables with
    identityLocations := (uri, location) :: tables.identityLocations
    aliases := (uri, root) :: tables.aliases }

def insertAlias (tables : ResourceTables) (uri : String) (root : ResourceRoot)
    (location : QualificationLocation) : Except PrepareError ResourceTables :=
  match tables.aliases.lookup uri with
  | some existing =>
    if existing ≠ root then do
      let firstLocation ← orPanicWith "indexed aliases retain their source location"
        (tables.identityLocations.lookup uri)
      .error (.qualification (.duplicateCanonicalIdentity uri firstLocation location))
    else .ok tables
  | none =>
    match tables.identityLocations.lookup uri with
    | some firstLocation =>
      if firstLocation ≠ location then
        .error (.qualification (.duplicateCanonicalIdentity uri firstLocation location))
      else .ok (tables.addAlias uri root location)
    | none => .ok (tables.addAlias uri root location)

/-- The root that a schema's `$id` opens, else the one it is read under. -/
def indexIdentity (library : Library) (documentPointer : Pointer) (resourceRoot : ResourceRoot)
    (id : Option String) (tables : ResourceTables) :
    Except PrepareError (ResourceTables × ResourceRoot) :=
  match id with
  | none => .ok (tables, resourceRoot)
  | some id =>
    if documentPointer = resourceRoot.documentPointer then .ok (tables, resourceRoot)
    else do
      let document ← tables.document resourceRoot.documentIndex
      let location := qualificationLocation document (documentPointer ++ ["$id"])
      let canonical ← match resolveResourceUri library.uris resourceRoot.resource id with
        | some canonical => .ok canonical
        | none => .error (.qualification (.invalidCanonicalIdentity location id))
      let root : ResourceRoot := ⟨resourceRoot.documentIndex, canonical, documentPointer⟩
      let tables ← tables.insertAlias canonical root location
      pure (tables, root)

def insertAnchor (documentPointer : Pointer) (resourceRoot : ResourceRoot) (tables : ResourceTables)
    (anchor : String × String) : Except PrepareError ResourceTables := do
  let document ← tables.document resourceRoot.documentIndex
  let location := qualificationLocation document (documentPointer ++ [anchor.1])
  let key := (resourceRoot.resource, anchor.2)
  match tables.anchors.lookup key with
  | some first =>
    .error (.qualification
      (.duplicateAnchorIdentity resourceRoot.resource anchor.2 first.location location))
  | none => do
    let pointer ← orInvalidGraph (relativePointer resourceRoot.documentPointer documentPointer)
    pure { tables with
      anchors := (key, ⟨⟨resourceRoot, documentPointer, pointer⟩, location⟩) :: tables.anchors }

/-- A schema enters the tables, then its children are indexed under the root it is read under. -/
def enterSchema (library : Library) (node : Pointer × ResourceRoot) (tables : ResourceTables) :
    Except PrepareError (Option (ResourceTables × List (Pointer × ResourceRoot))) :=
  let key := (node.2.documentIndex, node.1, node.2.resource)
  if key ∈ tables.indexedSchemas then .ok none
  else do
    let tables := { tables with indexedSchemas := key :: tables.indexedSchemas }
    let document ← tables.document node.2.documentIndex
    let schema ← orInvalidGraph (node.1.resolve document.document)
    let (tables, resourceRoot) ←
      tables.indexIdentity library node.1 node.2 (textMember schema "$id")
    let tables ← (textMembers schema ["$anchor", "$dynamicAnchor"]).foldlM
      (insertAnchor node.1 resourceRoot) tables
    pure (some (tables, (schemaChildren schema node.1).map (·, resourceRoot)))

def indexing (library : Library) :
    Traversal ResourceTables (Pointer × ResourceRoot) (Pointer × ResourceRoot) PrepareError where
  enter := enterSchema library
  follow child tables := .ok (tables, some child)
  exhausted := .exhausted

def indexSchema (library : Library) (fuel : Nat) (documentPointer : Pointer)
    (resourceRoot : ResourceRoot) (tables : ResourceTables) : Except PrepareError ResourceTables :=
  (indexing library).visit fuel (documentPointer, resourceRoot) tables

/-- One token further towards a target: where there is an `$id`, its resource is entered. -/
def indexTowards (library : Library) (fuel : Nat) (documentIndex : Nat) (target : Pointer)
    (reached : Pointer × ResourceRoot × ResourceTables) (token : String) :
    Except PrepareError (Pointer × ResourceRoot × ResourceTables) := do
  let (pointer, resourceRoot, tables) := reached
  let pointer := pointer ++ [token]
  let document ← tables.document documentIndex
  let schema ← orInvalidGraph (pointer.resolve document.document)
  let identity := textMember schema "$id"
  let tables ← (if identity.isSome ∨ pointer = target then
      indexSchema library fuel pointer resourceRoot tables
    else .ok tables)
  match identity with
  | none => pure (pointer, resourceRoot, tables)
  | some identity => do
    let canonical ← orInvalidGraph (resolveResourceUri library.uris resourceRoot.resource identity)
    let resourceRoot ← orPanicWith
      "indexed reference-reached identities retain their resource roots"
      (tables.aliases.lookup canonical)
    pure (pointer, resourceRoot, tables)

def indexReferenceTarget (library : Library) (fuel : Nat) (documentIndex : Nat) (target : Pointer)
    (resourceRoot : ResourceRoot) (tables : ResourceTables) :
    Except PrepareError ResourceTables := do
  let suffix ← orInvalidGraph (relativePointer resourceRoot.documentPointer target)
  let (_, _, tables) ← suffix.foldlM (indexTowards library fuel documentIndex target)
    (resourceRoot.documentPointer, resourceRoot, tables)
  pure tables

end ResourceTables

end Schemaform.Resources
