import Schemaform.Compile.Annotations
import Schemaform.Compile.Findings
import Schemaform.Engine.Cardinality

/-!
# Compile.Graph

The compiler of a data schema, from the prepared graph to the definition.

* `ProjectedSchemas`: the kind and the options of the schemas of one place, with their findings.
* `compileItemTemplate`, `compileHomogeneousArray`, `compileProperty`, `compileProperties`: the
  walk. It records labels, help, schema locations and findings beside the projected places.
* `compileGraph`.
* `FormDefinition.plain`: the projection alone.
-/

namespace Schemaform.Engine.Compiled

open Resources (ResourceGraph GraphLocation)

/-! ## Definitions -/

structure NodePresentation where
  label : String
  help : Option String
  annotations : DataSchemaAnnotations

structure ControlDefinition where
  binding : Pointer
  parentBinding : Option Pointer
  kind : ControlKind
  choices : List CompiledChoice
  acceptsNull : Bool
  schemaLocations : List SchemaLocationDefinition
  presentation : NodePresentation
  creationSeed : Option Value
  required : Bool

structure ObjectDefinition where
  binding : Pointer
  parentBinding : Option Pointer
  schemaLocations : List SchemaLocationDefinition
  presentation : NodePresentation
  required : Bool
  creationSeed : Value

structure ArrayItemTemplate where
  controls : List ControlDefinition
  objects : List ObjectDefinition
  creationSeed : Value

structure ArrayDefinition where
  binding : Pointer
  parentBinding : Option Pointer
  schemaLocations : List SchemaLocationDefinition
  presentation : NodePresentation
  required : Bool
  creationSeed : Value
  minItems : Option Nat
  maxItems : Option Nat
  uniqueItems : Bool
  itemTemplate : ArrayItemTemplate

structure UnsupportedRegion where
  binding : Pointer
  parentBinding : Option Pointer
  schemaLocations : List SchemaLocationDefinition
  presentation : NodePresentation
  required : Bool
  findings : List UnsupportedFinding

/-- The resources go into the fingerprint. -/
structure FormDefinition where
  controls : List ControlDefinition
  objects : List ObjectDefinition
  arrays : List ArrayDefinition
  unsupportedRegions : List UnsupportedRegion
  capabilityWarnings : List (Pointer × UnsupportedFinding)
  rootSchemaLocations : List SchemaLocationDefinition
  rootAnnotations : DataSchemaAnnotations
  rootTitle : Option String
  rootHelp : Option String
  usedResources : List String

/-! ## The projection alone -/

def ControlDefinition.plain (control : ControlDefinition) : Engine.ControlDefinition where
  binding := control.binding
  parentBinding := control.parentBinding
  kind := control.kind
  choices := control.choices.map (·.value)
  acceptsNull := control.acceptsNull
  annotations := control.presentation.annotations
  creationSeed := control.creationSeed
  required := control.required

def ObjectDefinition.plain (object : ObjectDefinition) : Engine.ObjectDefinition where
  binding := object.binding
  parentBinding := object.parentBinding
  annotations := object.presentation.annotations
  required := object.required
  creationSeed := object.creationSeed

def ArrayItemTemplate.plain (template : ArrayItemTemplate) : Engine.ArrayItemTemplate where
  controls := template.controls.map ControlDefinition.plain
  objects := template.objects.map ObjectDefinition.plain
  creationSeed := template.creationSeed

def ArrayDefinition.plain (array : ArrayDefinition) : Engine.ArrayDefinition where
  binding := array.binding
  parentBinding := array.parentBinding
  annotations := array.presentation.annotations
  required := array.required
  creationSeed := array.creationSeed
  minItems := array.minItems
  maxItems := array.maxItems
  uniqueItems := array.uniqueItems
  itemTemplate := array.itemTemplate.plain

def UnsupportedRegion.plain (region : UnsupportedRegion) : Engine.UnsupportedRegion where
  binding := region.binding
  parentBinding := region.parentBinding
  annotations := region.presentation.annotations
  required := region.required

def FormDefinition.plain (definition : FormDefinition) : Engine.FormDefinition where
  controls := definition.controls.map ControlDefinition.plain
  objects := definition.objects.map ObjectDefinition.plain
  arrays := definition.arrays.map ArrayDefinition.plain
  unsupportedRegions := definition.unsupportedRegions.map UnsupportedRegion.plain
  rootAnnotations := definition.rootAnnotations

/-! ## Schemas of one place -/

variable (digest : List UInt8 → Nat) (usizeMax : Nat)

def plainSchemas (applicable : List ApplicableSchema) : List LocatedSchema :=
  applicable.map (·.plain)

/-- The one default of a shape, up to equality. -/
def eligibleDefault (applicable : List LocatedSchema) (test : Value → Bool) (otherwise : Value) :
    Value :=
  match ((applicable.filterMap fun located => located.schema.get "default").filter test).foldl
    pushUniqueValue [] with
  | [default] => default
  | _ => otherwise

def objectCreationSeed (applicable : List LocatedSchema) : Value :=
  eligibleDefault applicable Value.isObject (.object [])

def arrayCreationSeed (applicable : List LocatedSchema) : Value :=
  eligibleDefault applicable Value.isArray (.array [])

def arrayUniqueItems (applicable : List LocatedSchema) : Bool :=
  applicable.any fun located => located.schema.get "uniqueItems" == some (.bool true)

def hasProperties (applicable : List ApplicableSchema) : Bool :=
  anyHas (plainSchemas applicable) "properties"

def properties (located : ApplicableSchema) : List (String × Value) :=
  match located.schema.get "properties" with
  | some (.object properties) => properties
  | _ => []

def propertyNames (applicable : List ApplicableSchema) : List String :=
  applicable.flatMap fun located => (properties located).map Prod.fst

structure ProjectedSchemas where
  schemas : List ApplicableSchema
  kind : Option ProjectedKind
  choices : Option AnnotatedChoices
  findings : List UnsupportedFinding

/-- A choice that fails is a finding. -/
def choicesOrFinding (choices : Except ChoicesError (Option AnnotatedChoices)) :
    Except CompileError (Option AnnotatedChoices × List UnsupportedFinding) :=
  match choices with
  | .ok choices => .ok (choices, [])
  | .error (.unsupported finding) => .ok (none, [finding])
  | .error (.panic message) => .error (.panic message)

variable (graph : ResourceGraph) (fuel : Nat)

def projectedSchemas (expansion : SchemaExpansion) : Except CompileError ProjectedSchemas := do
  let schemas := expansion.schemas
  let kind := inferKind (plainSchemas schemas)
  let (choices, choiceFindings) ← choicesOrFinding (scalarChoices (plainSchemas schemas) kind)
  let deferred ← deferredShapeFindings graph fuel schemas kind choices.isSome
  let dynamic := if kind = some .object then dynamicObjectMapFindings (plainSchemas schemas) else []
  pure ⟨schemas, kind, choices, expansion.recursiveFindings ++ choiceFindings ++ deferred ++ dynamic⟩

def ProjectedSchemas.kindConflictFindings (projected : ProjectedSchemas) :
    List UnsupportedFinding :=
  if projected.choices.isSome then []
  else (allOfKindConflicts projected.schemas).map (allOfUnsupportedFinding · "incompatible-kind")

/-- Title and description, with the warnings about them. -/
def nodePresentation (applicable : List LocatedSchema) (defaultLabel : String) :
    NodePresentation × List UnsupportedFinding :=
  let title := textAnnotation applicable "title"
  let description := textAnnotation applicable "description"
  (⟨title.1.getD defaultLabel, description.1, dataSchemaAnnotations digest applicable⟩,
    description.2.toList ++ title.2.toList)

/-! ## The walk -/

structure ProjectionState where
  controls : List ControlDefinition
  objects : List ObjectDefinition
  arrays : List ArrayDefinition
  unsupportedRegions : List UnsupportedRegion
  capabilityWarnings : List (Pointer × UnsupportedFinding)
  usedResources : List String
  traversal : ProjectionTraversal
  insideArrayTemplate : Bool

namespace ProjectionState

variable (projection : ProjectionState)

def warn (binding : Pointer) (findings : List UnsupportedFinding) : ProjectionState :=
  { projection with
    capabilityWarnings := projection.capabilityWarnings ++ findings.map fun f => (binding, f) }

def pushControl (control : ControlDefinition) : ProjectionState :=
  { projection with controls := projection.controls ++ [control] }

def pushObject (object : ObjectDefinition) : ProjectionState :=
  { projection with objects := projection.objects ++ [object] }

def pushArray (array : ArrayDefinition) : ProjectionState :=
  { projection with arrays := projection.arrays ++ [array] }

def pushUnsupported (region : UnsupportedRegion) : ProjectionState :=
  { projection with unsupportedRegions := projection.unsupportedRegions ++ [region] }

def useResources (schemas : List ApplicableSchema) : ProjectionState :=
  { projection with
    usedResources := schemas.foldl (fun used schema => insertValue used schema.resource)
      projection.usedResources }

/-- `expand_references`, with what it spends and uses. -/
def expand (schemas : List ApplicableSchema) (activeLocations : List SchemaIdentity) :
    Except CompileError (ProjectionState × SchemaExpansion) := do
  let expansion ← expandReferences graph schemas activeLocations projection.usedResources
    projection.traversal
  pure ({ projection with
    usedResources := expansion.usedResources
    traversal := expansion.traversal }, expansion)

end ProjectionState

/-- Where a control stands and what is shown of it. -/
structure Place where
  binding : Pointer
  parentBinding : Option Pointer
  schemaLocations : List SchemaLocationDefinition
  presentation : NodePresentation
  required : Bool

namespace Place

variable (place : Place)

def control (kind : ControlKind) (choices : List CompiledChoice) (acceptsNull : Bool)
    (creationSeed : Option Value) : ControlDefinition where
  binding := place.binding
  parentBinding := place.parentBinding
  kind := kind
  choices := choices
  acceptsNull := acceptsNull
  schemaLocations := place.schemaLocations
  presentation := place.presentation
  creationSeed := creationSeed
  required := place.required

def object (creationSeed : Value) : ObjectDefinition :=
  ⟨place.binding, place.parentBinding, place.schemaLocations, place.presentation, place.required,
    creationSeed⟩

def unsupported (findings : List UnsupportedFinding) : UnsupportedRegion :=
  ⟨place.binding, place.parentBinding, place.schemaLocations, place.presentation, place.required,
    findings⟩

end Place

/-- A list that the walk relies on to have a schema. -/
def firstSchema (applicable : List ApplicableSchema) : Except CompileError LocatedSchema :=
  match applicable with
  | located :: _ => .ok located.plain
  | [] => .error (.panic "there is an applicable schema")

/-- The walk over an object's properties, from inside the walk. -/
abbrev Walk := List ApplicableSchema → Option Pointer → List SchemaIdentity → ProjectionState →
  Except CompileError ProjectionState

/-- The subschema of every schema that has one. -/
def itemSchemas (applicable : List ApplicableSchema) :
    Except CompileError (List ApplicableSchema) :=
  (applicable.filter (·.plain.has "items")).mapM fun located => do
    let location ← qualified
      (locatedSubschema graph located.location ((located.schema.get "items").getD .null) ["items"])
    pure { locatedFromGraph location with allOfMemberships := located.allOfMemberships }

def missingItemsFinding (applicable : List ApplicableSchema) :
    Except CompileError UnsupportedFinding :=
  match firstKeywordOrigin (plainSchemas applicable) "unevaluatedItems" with
  | some origin =>
    .ok (origin.finding "unevaluated.items.shape" ["unevaluatedItems"] emptyParameters)
  | none => do
    let origin ← firstSchema applicable
    pure (origin.finding "structure.array.homogeneous-scalar" []
      (.object [("reason", .string "missing-items")]))

/-- Findings instead of a template where the items are not supported. -/
abbrev ItemsResult := Except (List UnsupportedFinding) ArrayItemTemplate

/-- An object as an item: its own projection, which may not have findings. -/
def compileObjectTemplate (walk : Walk) (binding : Pointer) (label : String)
    (activeLocations : List SchemaIdentity) (projected : ProjectedSchemas)
    (projection : ProjectionState) : Except CompileError (ProjectionState × ItemsResult) := do
  let items := plainSchemas projected.schemas
  let presented := nodePresentation digest items (label ++ " item")
  let projection := projection.warn binding (presented.2 ++ openObjectWarnings items)
  let creationSeed := objectCreationSeed items
  let root := (Place.mk [] none (schemaLocations items) presented.1 true).object creationSeed
  let template ← walk projected.schemas (some [])
    (activeLocations ++ projected.schemas.map (·.identity))
    ⟨[], [root], [], [], [], projection.usedResources, projection.traversal, true⟩
  let projection := { projection with
    usedResources := template.usedResources
    traversal := template.traversal }
  if template.unsupportedRegions.isEmpty then
    pure (projection.warn binding (template.capabilityWarnings.map Prod.snd),
      .ok ⟨template.controls, template.objects, creationSeed⟩)
  else pure (projection, .error (template.unsupportedRegions.flatMap (·.findings)))

/-- The kind, the options and whether null is accepted, of items that are scalars. -/
def scalarItem (projected : ProjectedSchemas) :
    Option (ControlKind × List CompiledChoice × Bool) :=
  match projected.choices with
  | some choices =>
    some (choices.controlKind, choices.values, choices.values.any (·.value.isNull))
  | none => (projected.kind.bind ProjectedKind.controlKind).map fun kind =>
      (kind, [], applicableAcceptsNull (plainSchemas projected.schemas))

def unsupportedItemFinding (projected : ProjectedSchemas) :
    Except CompileError UnsupportedFinding := do
  let origin ← firstSchema projected.schemas
  let code := if projected.kind = some .array then "structure.array.nested"
    else "structure.array.homogeneous-scalar"
  pure (origin.finding code [] emptyParameters)

/-- One control in the place of the item. -/
def scalarItemTemplate (label : String) (items : List LocatedSchema) (kind : ControlKind)
    (choices : List CompiledChoice) (acceptsNull : Bool) : Except CompileError ArrayItemTemplate :=
  let presentation := (nodePresentation digest items (label ++ " item")).1
  match arrayItemCreationSeed kind (choices.map (·.value)) acceptsNull presentation.annotations with
  | none => .error (.panic "supported scalar array items have a creation seed")
  | some seed => .ok ⟨[(Place.mk [] none (schemaLocations items) presentation true).control kind
      choices acceptsNull (some seed)], [], seed⟩

def compileScalarTemplate (label : String) (projected : ProjectedSchemas) :
    Except CompileError ItemsResult :=
  match scalarItem projected with
  | none =>
    if projected.findings.isEmpty then
      (unsupportedItemFinding projected).map fun finding => .error [finding]
    else .ok (.error projected.findings)
  | some (kind, choices, acceptsNull) =>
    if projected.findings.isEmpty then
      (scalarItemTemplate digest label (plainSchemas projected.schemas) kind choices
        acceptsNull).map .ok
    else .ok (.error projected.findings)

def compileItemTemplate (walk : Walk) (binding : Pointer) (label : String)
    (activeLocations : List SchemaIdentity) (projected : ProjectedSchemas)
    (projection : ProjectionState) : Except CompileError (ProjectionState × ItemsResult) :=
  if projected.kind = some .object then
    if projected.findings.isEmpty then
      compileObjectTemplate digest walk binding label activeLocations projected projection
    else .ok (projection, .error projected.findings)
  else (compileScalarTemplate digest label projected).map (projection, ·)

def compileHomogeneousArray (walk : Walk) (applicable : List ApplicableSchema) (place : Place)
    (activeLocations : List SchemaIdentity) (projection : ProjectionState) :
    Except CompileError (ProjectionState × Except (List UnsupportedFinding) ArrayDefinition) := do
  let items ← itemSchemas graph applicable
  if items.isEmpty then
    let finding ← missingItemsFinding applicable
    pure (projection, .error [finding])
  else
    let (projection, expansion) ← (projection.useResources items).expand graph items activeLocations
    let projected ← projectedSchemas graph fuel expansion
    let (projection, template) ← compileItemTemplate digest walk place.binding
      place.presentation.label activeLocations projected projection
    let arrays := plainSchemas applicable
    let bounds := arrayLengthBounds usizeMax (arrays.map (·.schema))
    pure (projection, template.map fun itemTemplate => {
      binding := place.binding
      parentBinding := place.parentBinding
      schemaLocations := place.schemaLocations
      presentation := place.presentation
      required := place.required
      creationSeed := arrayCreationSeed arrays
      minItems := bounds.1
      maxItems := bounds.2
      uniqueItems := arrayUniqueItems arrays
      itemTemplate })

/-- The schemas that give a property, each under the `allOf`s of its parent. -/
def childSchemas (applicable : List ApplicableSchema) (propertyName : String) :
    Except CompileError (List ApplicableSchema) :=
  (applicable.filter fun located => (SortedMap.get propertyName (properties located)).isSome).mapM
    fun located => do
      let tokens := ["properties", propertyName]
      let location ← orUnsupported "$id" (graph.normalizeLocation { located.location with
        schema := (SortedMap.get propertyName (properties located)).getD .null
        pointer := located.pointer ++ tokens
        documentPointer := located.location.documentPointer ++ tokens })
      pure { locatedFromGraph location with allOfMemberships := located.allOfMemberships }

/-- A property without findings, by its choices and its kind. -/
def compileShape (walk : Walk) (place : Place) (activeLocations : List SchemaIdentity)
    (projected : ProjectedSchemas) (projection : ProjectionState) :
    Except CompileError ProjectionState :=
  let children := plainSchemas projected.schemas
  match projected.choices, projected.kind with
  | some choices, _ =>
    let seed := scalarCreationSeed choices.controlKind (choices.values.map (·.value))
      place.presentation.annotations
    .ok (projection.pushControl (place.control choices.controlKind choices.values
      (choices.values.any (·.value.isNull)) seed))
  | none, some .object =>
    let projection := (projection.warn place.binding (openObjectWarnings children)).pushObject
      (place.object (objectCreationSeed children))
    walk projected.schemas (some place.binding)
      (activeLocations ++ projected.schemas.map (·.identity)) projection
  | none, some .array =>
    if projection.insideArrayTemplate then do
      let origin ← firstSchema projected.schemas
      pure (projection.pushUnsupported (place.unsupported
        [origin.finding "structure.array.nested" [] emptyParameters]))
    else do
      let (projection, array) ← compileHomogeneousArray digest usizeMax graph fuel walk
        projected.schemas place activeLocations projection
      match array with
      | .ok array => pure (projection.pushArray array)
      | .error findings => pure (projection.pushUnsupported (place.unsupported findings))
  | none, some .null => .error (.panic "null-only controls have a choice")
  | none, some kind =>
    match kind.controlKind with
    | none => .error (.panic "the other kinds are scalars")
    | some kind =>
      let seed := scalarCreationSeed kind [] place.presentation.annotations
      .ok (projection.pushControl
        (place.control kind [] (applicableAcceptsNull children) seed))
  | none, none => do
    let origin ← firstSchema projected.schemas
    pure (projection.pushUnsupported
      (place.unsupported [unsupportedControlFinding children origin]))

def isRequired (applicable : List ApplicableSchema) (propertyName : String) : Bool :=
  (applicable.flatMap fun located => requiredNames located.location).contains propertyName

/-- One property of an object. -/
def compileProperty (walk : Walk) (applicable : List ApplicableSchema)
    (parentBinding : Option Pointer) (activeLocations : List SchemaIdentity)
    (projection : ProjectionState) (propertyName : String) :
    Except CompileError ProjectionState := do
  let traversal ← projection.traversal.visit
  let projection := { projection with traversal }
  let binding := parentBinding.getD [] ++ [propertyName]
  let children ← childSchemas graph applicable propertyName
  let (projection, expansion) ←
    (projection.useResources children).expand graph children activeLocations
  let expanded := plainSchemas expansion.schemas
  let presented := nodePresentation digest expanded propertyName
  let projection := projection.warn binding presented.2
  let place : Place := {
    binding
    parentBinding
    schemaLocations := schemaLocations expanded
    presentation := presented.1
    required := isRequired applicable propertyName }
  let projected ← projectedSchemas graph fuel expansion
  let findings := projected.findings ++ projected.kindConflictFindings
  if findings.isEmpty then
    compileShape digest usizeMax graph fuel walk place activeLocations projected projection
  else pure (projection.pushUnsupported (place.unsupported findings))

/-- The properties in order, each once. Objects nest at most `depth` deep: every level spends a
visit, so the walk is over its bound before `depth` is. -/
def compileProperties : Nat → Walk
  | 0, _, _, _, projection =>
    .error (.resourceLimit projection.traversal.maximum (projection.traversal.maximum + 1))
  | depth + 1, applicable, parentBinding, activeLocations, projection =>
    let propertyNames := (propertyNames applicable).dedup.insertionSort (· ≤ ·)
    if propertyNames.isEmpty && !hasProperties applicable then
      if isExplicitlyClosedObject (plainSchemas applicable) then .ok projection
      else .error .missingProperties
    else propertyNames.foldlM (compileProperty digest usizeMax graph fuel (compileProperties depth)
      applicable parentBinding activeLocations) projection

/-! ## The graph -/

def rootShapeFindings (schemas : List LocatedSchema) (kind : Option ProjectedKind)
    (choices : Option AnnotatedChoices) (choiceFindings : List UnsupportedFinding) :
    Except CompileError (List UnsupportedFinding) :=
  if kind = some .object then .ok (dynamicObjectMapFindings schemas)
  else if choiceFindings.isEmpty then
    (qualified (unsupportedRootFinding schemas kind choices.isSome)).map ([·])
  else .ok []

/-- The findings of the root in the order in which they are told. -/
def rootFindings (expansion : SchemaExpansion) (kind : Option ProjectedKind)
    (choices : Option AnnotatedChoices) (choiceFindings : List UnsupportedFinding) :
    Except CompileError (List UnsupportedFinding) := do
  let deferred ← deferredShapeFindings graph fuel expansion.schemas kind choices.isSome
  let conflicts :=
    (allOfKindConflicts expansion.schemas).map (allOfUnsupportedFinding · "incompatible-kind")
  let shape ← rootShapeFindings (plainSchemas expansion.schemas) kind choices choiceFindings
  pure (expansion.recursiveFindings ++ deferred ++ choiceFindings ++ conflicts ++ shape)

def rootLabel (title : Option String) : String := title.getD "Form"

def rootProjection (place : Place) (findings warnings : List UnsupportedFinding)
    (expansion : SchemaExpansion) : ProjectionState where
  controls := []
  objects := []
  arrays := []
  unsupportedRegions := if findings.isEmpty then [] else [place.unsupported findings]
  capabilityWarnings := warnings.map fun warning => ([], warning)
  usedResources := expansion.usedResources
  traversal := expansion.traversal
  insideArrayTemplate := false

/-- The properties of the root, where it is an object that has some. -/
def compileRoot (maxTraversal : Nat) (schemas : List ApplicableSchema) (kind : Option ProjectedKind)
    (projection : ProjectionState) : Except CompileError ProjectionState :=
  if kind ≠ some .object then .ok projection
  else if hasProperties schemas then
    compileProperties digest usizeMax graph fuel (maxTraversal + 1) schemas none
      (schemas.map (·.identity)) projection
  else if projection.unsupportedRegions.isEmpty &&
      !isExplicitlyClosedObject (plainSchemas schemas) then
    .error .missingProperties
  else .ok projection

def compileGraph (root : GraphLocation) (maxTraversal : Nat) :
    Except CompileError FormDefinition := do
  let traversal : ProjectionTraversal := ⟨maxTraversal, 0⟩
  let (usedResources, _) ← includeValidationResources graph root [root.resource] traversal
  let expansion ← expandReferences graph [locatedFromGraph root] [] usedResources traversal
  let schemas := plainSchemas expansion.schemas
  let annotations := dataSchemaAnnotations digest schemas
  let title := textAnnotation schemas "title"
  let description := textAnnotation schemas "description"
  let kind := inferKind schemas
  let (choices, choiceFindings) ← choicesOrFinding (scalarChoices schemas kind)
  let warnings := description.2.toList ++ title.2.toList ++
    if kind = some .object then openObjectWarnings schemas else []
  let findings ← rootFindings graph fuel expansion kind choices choiceFindings
  let place : Place :=
    ⟨[], none, schemaLocations schemas, ⟨rootLabel title.1, description.1, annotations⟩, true⟩
  let projection ← compileRoot digest usizeMax graph fuel maxTraversal expansion.schemas kind
    (rootProjection place findings warnings expansion)
  pure {
    controls := projection.controls
    objects := projection.objects
    arrays := projection.arrays
    unsupportedRegions := projection.unsupportedRegions
    capabilityWarnings := projection.capabilityWarnings
    rootSchemaLocations := place.schemaLocations
    rootAnnotations := annotations
    rootTitle := title.1
    rootHelp := description.1
    usedResources := projection.usedResources }

end Schemaform.Engine.Compiled
