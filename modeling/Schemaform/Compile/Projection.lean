import Mathlib.Data.List.Dedup
import Mathlib.Data.List.Sort
import Schemaform.Engine.Definition

/-!
# Compile.Projection

The projection of a data schema onto controls, objects, homogeneous arrays and unsupported regions.

What the schemas that apply at one place say there is read through a `SchemaReader` (references,
`allOf`, kinds, choices and findings are its business); the walk over the properties, its visits
and everything it records are the projection's own.

* `ProjectionTraversal.visit`: the bound on visited schemas.
* `scalarCreationSeed`, `arrayItemCreationSeed`, `objectCreationSeed`, `arrayCreationSeed`.
* `compileProperty`, `compileProperties`, `compileHomogeneousArray`, `compileGraph`.
-/

namespace Schemaform.Engine

inductive CompileError where
  | missingProperties
  | unsupportedReference (reference : String)
  | resourceLimit (maximum observed : Nat)
  | panic (message : String)
deriving DecidableEq, Repr

/-! ## Visits -/

structure ProjectionTraversal where
  maximum : Nat
  observed : Nat
deriving DecidableEq, Repr

namespace ProjectionTraversal

def visit (traversal : ProjectionTraversal) : Except CompileError ProjectionTraversal :=
  if traversal.observed + 1 > traversal.maximum then
    .error (.resourceLimit traversal.maximum (traversal.observed + 1))
  else .ok { traversal with observed := traversal.observed + 1 }

/-- The visits of one expansion of references. -/
def visitTimes (traversal : ProjectionTraversal) : Nat → Except CompileError ProjectionTraversal
  | 0 => .ok traversal
  | visits + 1 => do
    let traversal ← traversal.visit
    traversal.visitTimes visits

end ProjectionTraversal

/-! ## What a schema says -/

inductive ScalarKind where
  | string
  | number
  | integer
  | boolean
deriving DecidableEq, Repr

def ScalarKind.controlKind : ScalarKind → ControlKind
  | .string => .string
  | .number => .number
  | .integer => .integer
  | .boolean => .boolean

structure ScalarChoices where
  values : List Value
  selectable : Bool
  nullOnly : Bool
deriving DecidableEq, Repr

def ScalarChoices.controlKind (choices : ScalarChoices) : ControlKind :=
  if choices.nullOnly then .null else if choices.selectable then .choice else .constant

/-- The items of an array. -/
inductive ItemShape (σ : Type) where
  | unsupported
  | choices (choices : ScalarChoices)
  | scalar (kind : ScalarKind) (acceptsNull : Bool)
  | object (schemas : σ)

structure Items (σ : Type) where
  annotations : DataSchemaAnnotations
  shape : ItemShape σ

structure ArrayShape (σ : Type) where
  minItems : Option Nat
  maxItems : Option Nat
  uniqueItems : Bool
  /-- The visits that expand the item schemas, and what they say. -/
  items : Except CompileError (Nat × Items σ)

/-- A property that has no finding against it, by its choices and its kind; else unsupported. -/
inductive PropertyShape (σ : Type) where
  | unsupported
  | choices (choices : ScalarChoices)
  | scalar (kind : ScalarKind) (acceptsNull : Bool)
  | object (schemas : σ)
  | array (shape : ArrayShape σ)

structure Property (σ : Type) where
  annotations : DataSchemaAnnotations
  required : Bool
  shape : PropertyShape σ

structure RootShape (σ : Type) where
  annotations : DataSchemaAnnotations
  /-- The root schemas when their kind is `object`. -/
  object : Option σ
  findings : Bool

/-- Reads the schemas that apply at one place. -/
structure SchemaReader (σ : Type) where
  root : Except CompileError (Nat × RootShape σ)
  hasProperties : σ → Bool
  propertyNames : σ → List String
  isExplicitlyClosedObject : σ → Bool
  /-- The visits that expand a property's schemas, and what they say. -/
  property : σ → String → Except CompileError (Nat × Property σ)

/-! ## Creation seeds -/

def scalarValueIsCompatible (kind : ControlKind) (choices : List Value) (value : Value) : Bool :=
  match kind with
  | .string => value.isString
  | .number => value.isNumber
  | .integer => value.asNumber.any numberIsInteger
  | .boolean => value.isBoolean
  | .choice | .constant | .null => choices.any (jsonValuesEqual · value)

def minimalScalarSeed (kind : ControlKind) (choices : List Value) : Option Value :=
  match kind with
  | .string => some (.string "")
  | .number | .integer => some (.number "0")
  | .boolean => some (.bool false)
  | .choice | .constant => (choices.find? (!·.isNull)).or choices.head?
  | .null => some .null

def scalarCreationSeed (kind : ControlKind) (choices : List Value)
    (annotations : DataSchemaAnnotations) : Option Value :=
  match annotations.defaults.filter fun value =>
    !value.isNull && scalarValueIsCompatible kind choices value with
  | [default] => some default
  | _ => if kind = .null then none else minimalScalarSeed kind choices

def arrayItemCreationSeed (kind : ControlKind) (choices : List Value) (acceptsNull : Bool)
    (annotations : DataSchemaAnnotations) : Option Value :=
  match annotations.defaults.filter fun value =>
    (value.isNull && acceptsNull) || scalarValueIsCompatible kind choices value with
  | [default] => some default
  | _ => if kind = .null then some .null else minimalScalarSeed kind choices

def objectCreationSeed (annotations : DataSchemaAnnotations) : Value :=
  match annotations.defaults.filter Value.isObject with
  | [default] => default
  | _ => .object []

def arrayCreationSeed (annotations : DataSchemaAnnotations) : Value :=
  match annotations.defaults.filter Value.isArray with
  | [default] => default
  | _ => .array []

/-! ## The walk -/

structure Projection where
  controls : List ControlDefinition
  objects : List ObjectDefinition
  arrays : List ArrayDefinition
  unsupportedRegions : List UnsupportedRegion
  traversal : ProjectionTraversal
  insideArrayTemplate : Bool

namespace Projection

def pushControl (projection : Projection) (control : ControlDefinition) : Projection :=
  { projection with controls := projection.controls ++ [control] }

def pushObject (projection : Projection) (object : ObjectDefinition) : Projection :=
  { projection with objects := projection.objects ++ [object] }

def pushArray (projection : Projection) (array : ArrayDefinition) : Projection :=
  { projection with arrays := projection.arrays ++ [array] }

def pushUnsupported (projection : Projection) (region : UnsupportedRegion) : Projection :=
  { projection with unsupportedRegions := projection.unsupportedRegions ++ [region] }

end Projection

def choicesControl (binding : Pointer) (parentBinding : Option Pointer) (choices : ScalarChoices)
    (annotations : DataSchemaAnnotations) (creationSeed : Option Value) (required : Bool) :
    ControlDefinition where
  binding := binding
  parentBinding := parentBinding
  kind := choices.controlKind
  choices := choices.values
  acceptsNull := choices.values.any Value.isNull
  annotations := annotations
  creationSeed := creationSeed
  required := required

def scalarControl (binding : Pointer) (parentBinding : Option Pointer) (kind : ScalarKind)
    (acceptsNull : Bool) (annotations : DataSchemaAnnotations) (creationSeed : Option Value)
    (required : Bool) : ControlDefinition where
  binding := binding
  parentBinding := parentBinding
  kind := kind.controlKind
  choices := []
  acceptsNull := acceptsNull
  annotations := annotations
  creationSeed := creationSeed
  required := required

/-- The template of an array of scalars: one control in the place of the item. -/
def scalarTemplate (control : ControlDefinition) : Except CompileError ArrayItemTemplate :=
  match control.creationSeed with
  | some seed => .ok ⟨[control], [], seed⟩
  | none => .error (.panic "supported scalar array items have a creation seed")

namespace SchemaReader

variable {σ : Type} (reader : SchemaReader σ)

/-- The walk over an object's properties, from inside the walk. -/
abbrev Walk (σ : Type) := σ → Option Pointer → Projection → Except CompileError Projection

/-- The item template of an array, none when its items are unsupported. -/
def compileItemTemplate (walk : Walk σ) (items : Items σ) (traversal : ProjectionTraversal) :
    Except CompileError (ProjectionTraversal × Option ArrayItemTemplate) :=
  match items.shape with
  | .unsupported => .ok (traversal, none)
  | .choices choices => do
    let seed := arrayItemCreationSeed choices.controlKind choices.values
      (choices.values.any Value.isNull) items.annotations
    let template ← scalarTemplate (choicesControl [] none choices items.annotations seed true)
    pure (traversal, some template)
  | .scalar kind acceptsNull => do
    let seed := arrayItemCreationSeed kind.controlKind [] acceptsNull items.annotations
    let template ←
      scalarTemplate (scalarControl [] none kind acceptsNull items.annotations seed true)
    pure (traversal, some template)
  | .object schemas => do
    let seed := objectCreationSeed items.annotations
    let root : ObjectDefinition := ⟨[], none, items.annotations, true, seed⟩
    let template ← walk schemas (some []) ⟨[], [root], [], [], traversal, true⟩
    if template.unsupportedRegions.isEmpty then
      pure (template.traversal, some ⟨template.controls, template.objects, seed⟩)
    else pure (template.traversal, none)

def compileHomogeneousArray (walk : Walk σ) (binding : Pointer) (parentBinding : Option Pointer)
    (annotations : DataSchemaAnnotations) (required : Bool) (shape : ArrayShape σ)
    (traversal : ProjectionTraversal) :
    Except CompileError (ProjectionTraversal × Option ArrayDefinition) := do
  let (visits, items) ← shape.items
  let traversal ← traversal.visitTimes visits
  let (traversal, template) ← compileItemTemplate walk items traversal
  pure (traversal, template.map fun itemTemplate =>
    { binding, parentBinding, annotations, required
      creationSeed := arrayCreationSeed annotations
      minItems := shape.minItems
      maxItems := shape.maxItems
      uniqueItems := shape.uniqueItems
      itemTemplate })

/-- One property of an object. -/
def compileProperty (walk : Walk σ) (applicable : σ) (parentBinding : Option Pointer)
    (projection : Projection) (propertyName : String) : Except CompileError Projection := do
  let traversal ← projection.traversal.visit
  let binding := parentBinding.getD [] ++ [propertyName]
  let (visits, property) ← reader.property applicable propertyName
  let traversal ← traversal.visitTimes visits
  let projection := { projection with traversal }
  let annotations := property.annotations
  let required := property.required
  match property.shape with
  | .unsupported => pure (projection.pushUnsupported ⟨binding, parentBinding, annotations, required⟩)
  | .choices choices =>
    let seed := scalarCreationSeed choices.controlKind choices.values annotations
    pure (projection.pushControl
      (choicesControl binding parentBinding choices annotations seed required))
  | .scalar kind acceptsNull =>
    let seed := scalarCreationSeed kind.controlKind [] annotations
    pure (projection.pushControl
      (scalarControl binding parentBinding kind acceptsNull annotations seed required))
  | .object schemas =>
    let seed := objectCreationSeed annotations
    walk schemas (some binding)
      (projection.pushObject ⟨binding, parentBinding, annotations, required, seed⟩)
  | .array shape =>
    if projection.insideArrayTemplate then
      pure (projection.pushUnsupported ⟨binding, parentBinding, annotations, required⟩)
    else do
      let (traversal, array) ←
        compileHomogeneousArray walk binding parentBinding annotations required shape traversal
      let projection := { projection with traversal }
      match array with
      | some array => pure (projection.pushArray array)
      | none =>
        pure (projection.pushUnsupported ⟨binding, parentBinding, annotations, required⟩)

/-- The properties in order, each once. Objects nest at most `depth` deep: every level spends a
visit, so the walk is over its bound before `depth` is. -/
def compileProperties : Nat → Walk σ
  | 0, _, _, projection =>
    .error (.resourceLimit projection.traversal.maximum (projection.traversal.maximum + 1))
  | depth + 1, applicable, parentBinding, projection =>
    let propertyNames := (reader.propertyNames applicable).dedup.insertionSort (· ≤ ·)
    if propertyNames.isEmpty && !reader.hasProperties applicable then
      if reader.isExplicitlyClosedObject applicable then .ok projection
      else .error .missingProperties
    else propertyNames.foldlM
      (reader.compileProperty (compileProperties depth) applicable parentBinding) projection

def compileGraph (maxTraversal : Nat) : Except CompileError FormDefinition := do
  let (visits, root) ← reader.root
  let traversal ← (ProjectionTraversal.mk maxTraversal 0).visitTimes visits
  let region : UnsupportedRegion := ⟨[], none, root.annotations, true⟩
  match root.object with
  | none => pure ⟨[], [], [], [region], root.annotations⟩
  | some schemas =>
    let unsupportedRegions := if root.findings then [region] else []
    if reader.hasProperties schemas then do
      let projection ← reader.compileProperties (maxTraversal + 1) schemas none
        ⟨[], [], [], unsupportedRegions, traversal, false⟩
      pure ⟨projection.controls, projection.objects, projection.arrays,
        projection.unsupportedRegions, root.annotations⟩
    else if unsupportedRegions.isEmpty && !reader.isExplicitlyClosedObject schemas then
      throw .missingProperties
    else pure ⟨[], [], [], unsupportedRegions, root.annotations⟩

end SchemaReader

end Schemaform.Engine
