import Mathlib.Data.List.Destutter
import Schemaform.Json.Positions
import Schemaform.Resources.Tables

/-!
# Resources.Prepare

Preparation of a resource graph: dialects and identities are checked, every schema is indexed, and
every reference is followed, which may index more.

* `schemaPositions`: the schemas of a document with the resource each is read under.
* `qualifyDialect`, `qualifyMissingResourceReferences`: what is checked of a document on its own.
* `qualification`: the traversal over references and subschemas. A reference that a new root moves
  is rewritten.
* `prepare`: all of it, with a bound on the depth of its traversals.
-/

namespace Schemaform.Resources

def builtInResourceUris : List String :=
  [draft202012,
    "https://json-schema.org/draft/2020-12/meta/core",
    "https://json-schema.org/draft/2020-12/meta/applicator",
    "https://json-schema.org/draft/2020-12/meta/unevaluated",
    "https://json-schema.org/draft/2020-12/meta/validation",
    "https://json-schema.org/draft/2020-12/meta/meta-data",
    "https://json-schema.org/draft/2020-12/meta/format-annotation",
    "https://json-schema.org/draft/2020-12/meta/content",
    "https://json-schema.org/draft/2020-12/meta/format-assertion"]

def supportedVocabularies : List String :=
  ["https://json-schema.org/draft/2020-12/vocab/core",
    "https://json-schema.org/draft/2020-12/vocab/applicator",
    "https://json-schema.org/draft/2020-12/vocab/unevaluated",
    "https://json-schema.org/draft/2020-12/vocab/validation",
    "https://json-schema.org/draft/2020-12/vocab/meta-data",
    "https://json-schema.org/draft/2020-12/vocab/format-annotation",
    "https://json-schema.org/draft/2020-12/vocab/content"]

/-! ## Schema positions -/

theorem below_of_mem_keywordChildren {maps arrays singles : List String} {schema : Value}
    {parent p : Pointer} (h : p ∈ keywordChildren maps arrays singles schema parent) :
    ∃ rest, rest ≠ [] ∧ p = parent ++ rest := by
  cases schema with
  | object members =>
    simp only [keywordChildren, List.mem_append, List.mem_flatMap, List.mem_map] at h
    rcases h with (⟨keyword, -, hp⟩ | ⟨keyword, -, hp⟩) | ⟨keyword, -, rfl⟩
    · unfold memberChildren at hp
      split at hp
      · obtain ⟨member, -, rfl⟩ := List.mem_map.mp hp
        exact ⟨_, by simp, rfl⟩
      · cases hp
    · unfold itemChildren at hp
      split at hp
      · obtain ⟨index, -, rfl⟩ := List.mem_map.mp hp
        exact ⟨_, by simp, rfl⟩
      · cases hp
    · exact ⟨_, by simp, rfl⟩
  | _ => cases h

/-- The subschemas of a schema, each with its pointer from the schema. -/
def subschemas (schema : Value) : List (Pointer × Value) :=
  (schemaChildren schema []).filterMap fun pointer =>
    (pointer.resolve schema).map (pointer, ·)

theorem sizeOf_subschema {schema : Value} {child : Pointer × Value} (h : child ∈ subschemas schema) :
    sizeOf child.2 < sizeOf schema := by
  obtain ⟨pointer, hpointer, hresolve⟩ := List.mem_filterMap.mp h
  obtain ⟨value, hvalue, rfl⟩ := Option.map_eq_some_iff.mp hresolve
  obtain ⟨rest, hrest, rfl⟩ := below_of_mem_keywordChildren hpointer
  exact sizeOf_resolve_lt hrest hvalue

structure SchemaPosition where
  pointer : Pointer
  schema : Value
  /-- The resource that references at the position are resolved against. -/
  resource : String

/-- A schema and all below it, parents first. An `$id` that does not resolve is passed over. -/
def schemaPositions (uris : UriRules) (schema : Value) (pointer : Pointer) (inherited : String) :
    List SchemaPosition :=
  let resource :=
    ((textMember schema "$id").bind (resolveResourceUri uris inherited)).getD inherited
  ⟨pointer, schema, resource⟩ :: (subschemas schema).attach.flatMap fun child =>
    schemaPositions uris child.1.2 (pointer ++ child.1.1) resource
termination_by sizeOf schema
decreasing_by exact sizeOf_subschema child.2

def ResourceDocument.schemaPositions (uris : UriRules) (document : ResourceDocument) :
    List SchemaPosition :=
  Resources.schemaPositions uris document.document [] document.retrievalUri

/-! ## Documents on their own -/

def knownResourceIdentities (uris : UriRules) (documents : List ResourceDocument) : List String :=
  documents.flatMap fun document =>
    document.retrievalUri :: (document.schemaPositions uris).map (·.resource)

def qualifyMissingResourceReferences (library : Library) (document : ResourceDocument)
    (knownResources : List String) : Except QualificationError Unit :=
  (document.schemaPositions library.uris).forM fun position =>
    ["$ref", "$dynamicRef"].forM fun keyword =>
      match textMember position.schema keyword with
      | none => .ok ()
      | some reference =>
        let resolvedResource := (library.uris.resolveAgainst position.resource reference).bind
          fun resolved => library.uris.normalize (splitFragment resolved).1
        if resolvedResource.all fun target =>
            !knownResources.contains target && !builtInResourceUris.contains target then
          .error (.unresolvedReference
            (qualificationLocation document (position.pointer ++ [keyword])) reference)
        else .ok ()

def qualifiedCanonicalResourceUri (library : Library) (document : ResourceDocument)
    (pointer : Pointer) (baseUri : String) (schema : Value) : Except PrepareError String :=
  match textMember schema "$id" with
  | none => orInvalidGraph (library.uris.normalize baseUri)
  | some identity =>
    match resolveResourceUri library.uris baseUri identity with
    | some canonical => .ok canonical
    | none => .error (.qualification (.invalidCanonicalIdentity
        (qualificationLocation document (pointer ++ ["$id"])) identity))

def firstNestedDialect (uris : UriRules) (document : ResourceDocument) : Option (Pointer × String) :=
  (document.schemaPositions uris).tail.findSome? fun position =>
    (textMember position.schema "$schema").bind fun dialect =>
      if dialect ≠ draft202012 then some (position.pointer ++ ["$schema"], dialect) else none

def qualifyNestedDialects (uris : UriRules) (document : ResourceDocument) :
    Except QualificationError Unit :=
  match firstNestedDialect uris document with
  | some (pointer, dialect) =>
    .error (.nestedDialectSwitch (qualificationLocation document pointer) dialect)
  | none => .ok ()

def qualifyRequiredVocabularies (document : ResourceDocument) (metaSchema : Value)
    (pointer : Pointer) : Except QualificationError Unit :=
  match metaSchema.get "$vocabulary" with
  | some (.object vocabularies) =>
    vocabularies.forM fun (vocabulary, required) =>
      if required = .bool true ∧ vocabulary ∉ supportedVocabularies then
        .error (.unsupportedRequiredVocabulary
          (qualificationLocation document (pointer ++ ["$vocabulary", vocabulary])) vocabulary)
      else .ok ()
  | _ => .ok ()

/-- The resource at a place: the `$id`s on the way to it, outermost first. -/
def resourceAtPointer (uris : UriRules) (document : ResourceDocument) (target : Pointer) :
    Option String :=
  let pointers := ((valuePointers document.document).filter (·.isPrefixOf target)).mergeSort
    fun left right => left.text.utf8ByteSize ≤ right.text.utf8ByteSize
  pointers.foldlM (fun resource pointer =>
    match (pointer.resolve document.document).bind (textMember · "$id") with
    | some identity => resolveResourceUri uris resource identity
    | none => some resource) document.retrievalUri

/-- Where a dialect leads from one place that may be its resource: an answer, or no answer and the
search goes on. -/
def dialectTargetAt (uris : UriRules) (document : ResourceDocument) (resourceUri fragment : String)
    (pointers : List Pointer) (resourcePointer : Pointer) :
    Option (Option (ResourceDocument × Value × Pointer)) :=
  if resourceAtPointer uris document resourcePointer ≠ some resourceUri then none
  else if fragment = "" then
    some ((resourcePointer.resolve document.document).map (document, ·, resourcePointer))
  else if fragment.toList.head? = some '/' then
    some do
      let relative ← (decodeUriFragment fragment).bind Pointer.parse
      let target ← (resourcePointer ++ relative).resolve document.document
      pure (document, target, resourcePointer ++ relative)
  else
    match decodeUriFragment fragment with
    | none => some none
    | some anchor =>
      (pointers.find? fun pointer : Pointer =>
        resourcePointer.isPrefixOf pointer &&
          resourceAtPointer uris document pointer == some resourceUri &&
          (pointer.resolve document.document).any fun value =>
            ["$anchor", "$dynamicAnchor"].any fun keyword =>
              textMember value keyword == some anchor).map fun pointer =>
        (Pointer.resolve pointer document.document).map (document, ·, pointer)

def findDialectTarget (library : Library) (dialect : String) (documents : List ResourceDocument) :
    Option (ResourceDocument × Value × Pointer) :=
  if library.isUri dialect then
    let (resource, fragment) := splitFragment dialect
    (library.uris.normalize resource).bind fun resourceUri =>
      (documents.findSome? fun document =>
        let pointers := (valuePointers document.document).mergeSort
          fun left right => left.text ≤ right.text
        (pointers.filter fun pointer => pointer.isEmpty ||
            (pointer.resolve document.document).any fun value =>
              (textMember value "$id").isSome).findSome?
          (dialectTargetAt library.uris document resourceUri fragment pointers)).join
  else none

def qualifyDialect (library : Library) (document : ResourceDocument)
    (documents : List ResourceDocument) : Except QualificationError Unit :=
  match document.document.get "$schema" with
  | none => .error (.missingDialect (qualificationLocation document []))
  | some (.string dialect) =>
    if dialect ≠ draft202012 then do
      match findDialectTarget library dialect documents with
      | some (document, metaSchema, pointer) =>
        qualifyRequiredVocabularies document metaSchema pointer
      | none => pure ()
      .error (.unsupportedDialect (qualificationLocation document ["$schema"]) dialect)
    else qualifyNestedDialects library.uris document
  | some _ => .ok ()

/-! ## References -/

def builtInReferenceResolves (library : Library) (baseResource reference : String) : Bool :=
  (library.uris.resolveAgainst baseResource reference).any fun resolved =>
    builtInResourceUris.contains (splitFragment resolved).1 &&
      library.specifies baseResource reference

/-- The tables and the schemas whose references were followed. -/
structure Qualification where
  tables : ResourceTables
  visited : List SchemaKey

structure QualificationNode where
  documentIndex : Nat
  pointer : Pointer
  inheritedResource : String
  /-- Whether an `$id` of the schema itself is still to be applied. -/
  applyIdentity : Bool
deriving DecidableEq, Repr

inductive QualificationEdge where
  | reference (documentIndex : Nat) (pointer : Pointer) (resource keyword reference : String)
  | child (node : QualificationNode)

namespace Qualification

/-- The resource a schema's references are resolved against. -/
def resourceOf (library : Library) (document : ResourceDocument) (node : QualificationNode)
    (schema : Value) : Except PrepareError String :=
  if node.applyIdentity then
    match textMember schema "$id" with
    | none => .ok node.inheritedResource
    | some identity =>
      match resolveResourceUri library.uris node.inheritedResource identity with
      | some resource => .ok resource
      | none => .error (.qualification (.invalidCanonicalIdentity
          (qualificationLocation document (node.pointer ++ ["$id"])) identity))
  else .ok node.inheritedResource

def checkSchema (library : Library) (document : ResourceDocument) (pointer : Pointer)
    (schema : Value) : Except PrepareError Unit :=
  match textMember schema "$schema" with
  | some dialect =>
    if pointer ≠ [] ∧ dialect ≠ draft202012 then
      .error (.qualification (.nestedDialectSwitch
        (qualificationLocation document (pointer ++ ["$schema"])) dialect))
    else checkValid
  | none => checkValid
where
  checkValid : Except PrepareError Unit :=
    match library.validate schema with
    | some path =>
      .error (.qualification (.invalidSchema (qualificationLocation document (pointer ++ path))))
    | none => .ok ()

/-- A schema is checked and counted; its references come before its children. -/
def enter (library : Library) (node : QualificationNode) (state : Qualification) :
    Except PrepareError (Option (Qualification × List QualificationEdge)) := do
  let document ← state.tables.document node.documentIndex
  let schema ← orInvalidGraph (node.pointer.resolve document.document)
  checkSchema library document node.pointer schema
  let resource ← resourceOf library document node schema
  let key := (node.documentIndex, node.pointer, resource)
  if key ∈ state.visited then pure none
  else
    let references := textMembers schema ["$ref", "$dynamicRef"]
    let tables := { state.tables with
      qualificationTraversal := state.tables.qualificationTraversal + 1
      referenceCount := state.tables.referenceCount + references.length }
    pure (some (⟨tables, key :: state.visited⟩,
      (references.map fun reference =>
        .reference node.documentIndex node.pointer resource reference.1 reference.2) ++
      (schemaChildren schema node.pointer).map fun child =>
        .child ⟨node.documentIndex, child, resource, true⟩))

/-- The text of a `$ref` is written over. -/
def rewrite (tables : ResourceTables) (documentIndex : Nat) (pointer : Pointer)
    (rewritten : String) : Except PrepareError ResourceTables := do
  let document ← tables.document documentIndex
  let value ← orInvalidGraph
    ((pointer ++ ["$ref"]).modify (fun _ => some (.string rewritten)) document.document)
  pure { tables with
    documents := tables.documents.set documentIndex { document with document := value } }

/-- A reference to a place below a resource. -/
def referenceText (resource : String) (pointer : Pointer) : String :=
  if pointer = [] then resource else resource ++ "#" ++ pointer.text

/-- The target of a reference is indexed, then the reference is resolved once more: its text is
changed where the target has got another root by that. -/
def followTarget (library : Library) (fuel : Nat) (documentIndex : Nat) (pointer : Pointer)
    (resource keyword reference : String) (target : GraphLocation) (tables : ResourceTables) :
    Except PrepareError (ResourceTables × QualificationNode) := do
  let tables ← tables.indexReferenceTarget library fuel target.documentIndex target.documentPointer
    ⟨target.documentIndex, target.resource, target.resourceRoot⟩
  let settled ← ((tables.graph library.uris).resolveReference resource reference).mapError
    GraphError.prepareError
  let tables ← (if keyword = "$ref" ∧ settled.resource ≠ target.resource then
      rewrite tables documentIndex pointer (referenceText settled.resource settled.pointer)
    else .ok tables)
  pure (tables, ⟨target.documentIndex, settled.documentPointer, settled.resource, false⟩)

def follow (library : Library) (fuel : Nat) (edge : QualificationEdge) (state : Qualification) :
    Except PrepareError (Qualification × Option QualificationNode) :=
  match edge with
  | .child node => .ok (state, some node)
  | .reference documentIndex pointer resource keyword reference =>
    match (state.tables.graph library.uris).resolveReferenceRaw resource reference with
    | .ok target => do
      let (tables, node) ← followTarget library fuel documentIndex pointer resource keyword
        reference target state.tables
      pure (⟨tables, state.visited⟩, some node)
    | .error (.panic message) => .error (.panic message)
    | .error .invalidGraph =>
      if builtInReferenceResolves library resource reference then .ok (state, none)
      else do
        let document ← state.tables.document documentIndex
        .error (.qualification (.unresolvedReference
          (qualificationLocation document (pointer ++ [keyword])) reference))

end Qualification

def qualification (library : Library) (fuel : Nat) :
    Traversal Qualification QualificationNode QualificationEdge PrepareError where
  enter := Qualification.enter library
  follow := Qualification.follow library fuel
  exhausted := .exhausted

def qualifySchemaReferences (library : Library) (fuel : Nat) (node : QualificationNode)
    (state : Qualification) : Except PrepareError Qualification :=
  (qualification library fuel).visit fuel node state

def qualifyReferences (library : Library) (fuel : Nat) (tables : ResourceTables) :
    Except PrepareError Qualification :=
  (List.range tables.documents.length).foldlM (fun state documentIndex => do
    let document ← state.tables.document documentIndex
    qualifySchemaReferences library fuel ⟨documentIndex, [], document.retrievalUri, true⟩ state)
    ⟨tables, []⟩

/-! ## Preparation -/

def resourceDocuments (uris : UriRules) (rootUri : String) (rootDocument : Value)
    (resources : List (String × Value)) : Except PrepareError (List ResourceDocument) := do
  let retrievalUri ← orInvalidGraph (uris.normalize rootUri)
  let callers ← resources.zipIdx.mapM fun ((uri, document), index) => do
    let retrievalUri ← orInvalidGraph (uris.normalize uri)
    pure ({ origin := .caller index, retrievalUri, document } : ResourceDocument)
  pure ({ origin := .root, retrievalUri, document := rootDocument } :: callers)

/-- One document against the retrieval URIs before it, its dialect and its references. -/
def qualifyDocument (library : Library) (defaultDialect : Option String)
    (documents : List ResourceDocument) (retrievalUris : List (String × QualificationLocation))
    (document : ResourceDocument) : Except PrepareError (List (String × QualificationLocation)) := do
  let location := qualificationLocation document []
  match retrievalUris.lookup document.retrievalUri with
  | some firstLocation =>
    .error (.qualification
      (.duplicateRetrievalIdentity document.retrievalUri firstLocation location))
  | none => do
    let usesDefault := (textMember document.document "$schema").isNone &&
      defaultDialect == some draft202012
    (if usesDefault then qualifyNestedDialects library.uris document
      else qualifyDialect library document documents).mapError .qualification
    (qualifyMissingResourceReferences library document
      (knownResourceIdentities library.uris documents)).mapError .qualification
    pure ((document.retrievalUri, location) :: retrievalUris)

def claimIdentity (identityLocations : List (String × QualificationLocation))
    (document : ResourceDocument) : Except PrepareError (List (String × QualificationLocation)) :=
  let location := qualificationLocation document []
  match identityLocations.lookup document.retrievalUri with
  | some firstLocation =>
    .error (.qualification
      (.duplicateCanonicalIdentity document.retrievalUri firstLocation location))
  | none => .ok ((document.retrievalUri, location) :: identityLocations)

def builtInIdentityLocations : List (String × QualificationLocation) :=
  builtInResourceUris.map fun identity => (identity, ⟨.builtIn, identity, []⟩)

/-- The names of a document lead to its root schema, in the first to the root of the graph. -/
def openDocument (library : Library) (tables : ResourceTables) (index : Nat) :
    Except PrepareError (ResourceTables × ResourceRoot) := do
  let document ← tables.document index
  let canonical ← qualifiedCanonicalResourceUri library document [] document.retrievalUri
    document.document
  let canonicalLocation := qualificationLocation document
    (if (document.document.get "$id").isSome then ["$id"] else [])
  let root : ResourceRoot := ⟨index, canonical, []⟩
  let tables ← tables.insertAlias document.retrievalUri root (qualificationLocation document [])
  let tables ← tables.insertAlias canonical root canonicalLocation
  pure (if index = 0 then { tables with root } else tables, root)

def indexDocument (library : Library) (fuel : Nat) (tables : ResourceTables) (index : Nat) :
    Except PrepareError ResourceTables := do
  let (tables, root) ← openDocument library tables index
  tables.indexSchema library fuel [] root

def validateDocument (library : Library) (document : ResourceDocument) : Except PrepareError Unit :=
  match library.validate document.document with
  | some path => .error (.qualification (.invalidSchema (qualificationLocation document path)))
  | none => .ok ()

def ResourceRoot.order : ResourceRoot → ResourceRoot → Ordering :=
  compareLex (compareOn (·.documentIndex))
    (compareLex (compareOn (·.documentPointer.text)) (compareOn (·.resource)))

/-- The roots of all aliases in order, each once. -/
def sortedRoots (roots : List ResourceRoot) : List ResourceRoot :=
  (roots.mergeSort fun left right => (left.order right).isLE).destutter (· ≠ ·)

namespace ResourceTables

def validatorDocument (tables : ResourceTables) (documentIndex : Nat) (root : Pointer) :
    Except PrepareError Value := do
  let document ← tables.document documentIndex
  orPanicWith "indexed validator roots remain addressable" (root.resolve document.document)

/-- Resources that the registry does not find by itself. -/
def undiscoveredResources (library : Library) (tables : ResourceTables) :
    Except PrepareError (List ResourceRoot) := do
  let roots ← (tables.aliases.map Prod.snd).filterM fun root =>
    if root.documentPointer.isEmpty then pure false
    else do
      let document ← tables.document root.documentIndex
      pure ((root.documentPointer.resolve document.document).isSome &&
        !library.isDraftSubresource document.document root.documentPointer)
  pure (sortedRoots roots)

def register (library : Library) (tables : ResourceTables) : Except PrepareError ResourceTables := do
  let documents ← tables.documents.zipIdx.mapM fun (document, index) => do
    pure (document.retrievalUri, ← tables.validatorDocument index [])
  let undiscovered ← (← tables.undiscoveredResources library).mapM fun root => do
    pure (root.resource, ← tables.validatorDocument root.documentIndex root.documentPointer)
  if library.registers (documents ++ undiscovered) then pure tables else .error .invalidGraph

end ResourceTables

/-- The tables before anything is indexed. -/
def initialTables (documents : List ResourceDocument)
    (identityLocations : List (String × QualificationLocation)) (resource : String) :
    ResourceTables where
  documents
  aliases := []
  identityLocations
  anchors := []
  indexedSchemas := []
  qualificationTraversal := 0
  referenceCount := 0
  root := ⟨0, resource, []⟩

/-- What is settled before references are followed. -/
def indexDocuments (library : Library) (fuel : Nat) (documents : List ResourceDocument)
    (defaultDialect : Option String) : Except PrepareError ResourceTables := do
  let _ ← documents.foldlM (qualifyDocument library defaultDialect documents) []
  let identityLocations ← documents.foldlM claimIdentity builtInIdentityLocations
  let first ← orPanicWith "index out of bounds" documents.head?
  let tables ← (List.range documents.length).foldlM (indexDocument library fuel)
    (initialTables documents identityLocations first.retrievalUri)
  tables.documents.forM (validateDocument library)
  pure tables

def prepare (library : Library) (fuel : Nat) (rootUri : String) (rootDocument : Value)
    (resources : List (String × Value)) (defaultDialect : Option String) :
    Except PrepareError ResourceTables := do
  let documents ← resourceDocuments library.uris rootUri rootDocument resources
  let tables ← indexDocuments library fuel documents defaultDialect
  let qualified ← qualifyReferences library fuel tables
  qualified.tables.register library

end Schemaform.Resources
