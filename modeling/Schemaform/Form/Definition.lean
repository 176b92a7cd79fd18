import Schemaform.Engine.Lifecycle
import Schemaform.Lib.Forest
import Schemaform.Limits

/-!
# Form.Definition

The immutable definition a form is created from: the engine's projection, the tree of definition
nodes, the scopes of the data schema's annotations, capability findings and the validator.

* `generatedNodes`: a node for everything the projection can bind.
* `DefinitionNode`, `DefinitionInner`, `FormDefinition`.
* `arrayTemplate`, `arrayForTemplate`, `initialTreeMetrics`.
* `bindingHasAnnotation`, `templateHasAnnotation`: inherited `readOnly` and `writeOnly`.
* `DefinitionInner.WellFormed`: bound nodes instantiate generated nodes, nodes form one tree, item
  templates hang below their array and nowhere else.
-/

namespace Schemaform

inductive DefinitionNodeKind where
  | control
  | autoGeneratedLayout
  | stack
  | grid
  | gridCell
  | group
  | tabs
  | tabPanel
  | text
  | unsupported
deriving DecidableEq, Repr

inductive SemanticKind where
  | string
  | number
  | integer
  | boolean
  | null
  | choice
  | fixedObject
  | homogeneousArray
deriving DecidableEq, Repr

def controlSemanticKind (control : Engine.ControlDefinition) : SemanticKind :=
  match control.kind with
  | .string => .string
  | .number => .number
  | .boolean => .boolean
  | .null => .null
  | .constant | .choice => .choice
  | .integer => .integer

/-! ## Generated nodes -/

structure GeneratedNode where
  binding : Pointer
  parentBinding : Option Pointer
  kind : DefinitionNodeKind
  semanticKind : Option SemanticKind
  dataSchemaAnnotations : DataSchemaAnnotations
  creationSeed : Option Value
  required : Bool
  acceptsNull : Bool
  choiceOptions : List Value
  choiceSelectable : Bool
  multipleChoice : Bool
  owningArrayBinding : Option Pointer
deriving DecidableEq, Repr

def generatedObject (owner : Option Pointer) (object : Engine.ObjectDefinition) :
    GeneratedNode where
  binding := object.binding
  parentBinding := object.parentBinding
  kind := .autoGeneratedLayout
  semanticKind := some .fixedObject
  dataSchemaAnnotations := object.annotations
  creationSeed := some object.creationSeed
  required := object.required
  acceptsNull := false
  choiceOptions := []
  choiceSelectable := false
  multipleChoice := false
  owningArrayBinding := owner

def generatedControl (owner : Option Pointer) (control : Engine.ControlDefinition) :
    GeneratedNode where
  binding := control.binding
  parentBinding := control.parentBinding
  kind := .control
  semanticKind := some (controlSemanticKind control)
  dataSchemaAnnotations := control.annotations
  creationSeed := control.creationSeed
  required := control.required
  acceptsNull := control.acceptsNull
  choiceOptions := control.choices
  choiceSelectable := control.kind == .choice
  multipleChoice := false
  owningArrayBinding := owner

def generatedArray (array : Engine.ArrayDefinition) : GeneratedNode where
  binding := array.binding
  parentBinding := array.parentBinding
  kind := .control
  semanticKind := some .homogeneousArray
  dataSchemaAnnotations := array.annotations
  creationSeed := some array.creationSeed
  required := array.required
  acceptsNull := false
  choiceOptions := array.choices
  choiceSelectable := false
  multipleChoice := array.isMultipleChoice
  owningArrayBinding := none

def generatedUnsupported (region : Engine.UnsupportedRegion) : GeneratedNode where
  binding := region.binding
  parentBinding := region.parentBinding
  kind := .unsupported
  semanticKind := none
  dataSchemaAnnotations := region.annotations
  creationSeed := none
  required := region.required
  acceptsNull := false
  choiceOptions := []
  choiceSelectable := false
  multipleChoice := false
  owningArrayBinding := none

/-- The key the generated nodes are sorted by, as spelled. -/
def GeneratedNode.key (node : GeneratedNode) : Option String × String :=
  (node.owningArrayBinding.map Pointer.text, node.binding.text)

def compareKeys (left right : Option String × String) : Ordering :=
  let owners : Ordering :=
    match left.1, right.1 with
    | none, none => .eq
    | none, some _ => .lt
    | some _, none => .gt
    | some left, some right => compare left right
  owners.then (compare left.2 right.2)

def generatedNodes (engine : Engine.FormDefinition) : List GeneratedNode :=
  (engine.objects.map (generatedObject none) ++
    engine.controls.map (generatedControl none) ++
    (engine.arrays.flatMap fun array =>
      generatedArray array ::
        (array.itemTemplate.objects.map (generatedObject (some array.binding)) ++
          array.itemTemplate.controls.map (generatedControl (some array.binding)))) ++
    engine.unsupportedRegions.map generatedUnsupported).insertionSort
      fun left right => (compareKeys left.key right.key).isLE

theorem mem_generatedNodes {engine : Engine.FormDefinition} {g : GeneratedNode} :
    g ∈ generatedNodes engine ↔
      (∃ o ∈ engine.objects, g = generatedObject none o) ∨
      (∃ c ∈ engine.controls, g = generatedControl none c) ∨
      (∃ a ∈ engine.arrays, g = generatedArray a ∨
        (∃ o ∈ a.itemTemplate.objects, g = generatedObject (some a.binding) o) ∨
        ∃ c ∈ a.itemTemplate.controls, g = generatedControl (some a.binding) c) ∨
      ∃ u ∈ engine.unsupportedRegions, g = generatedUnsupported u := by
  simp only [generatedNodes, List.mem_insertionSort, List.mem_append, List.mem_map,
    List.mem_flatMap, List.mem_cons, or_assoc, eq_comm (b := g)]

/-! ## Definition nodes -/

structure DefinitionNode where
  id : Nat
  kind : DefinitionNodeKind
  semanticKind : Option SemanticKind
  binding : Option Pointer
  dataSchemaAnnotations : DataSchemaAnnotations
  creationSeed : Option Value
  required : Bool
  acceptsNull : Bool
  choiceOptions : List Value
  choiceSelectable : Bool
  multipleChoice : Bool
  owningArray : Option Nat
  children : List Nat
deriving DecidableEq, Repr

def DefinitionNode.isItemTemplate (node : DefinitionNode) : Bool := node.owningArray.isSome

structure AnnotationScope where
  binding : Option Pointer
  annotations : DataSchemaAnnotations
deriving DecidableEq, Repr

def annotationScopesOf (engine : Engine.FormDefinition) : List AnnotationScope :=
  ⟨none, engine.rootAnnotations⟩ ::
    ((generatedNodes engine).filter (·.owningArrayBinding.isNone)).map fun node =>
      ⟨some node.binding, node.dataSchemaAnnotations⟩

structure DefinitionInner where
  engine : Engine.FormDefinition
  validator : Validator
  /-- The JSON library the form reads typed numbers with. -/
  parser : Engine.JsonParser
  nodes : List DefinitionNode
  annotationScopes : List AnnotationScope
  capabilityFindings : List CapabilityFinding

namespace DefinitionInner

variable (definition : DefinitionInner)

def node (id : Nat) : Option DefinitionNode := definition.nodes[id]?.filter (·.id == id)

def children (id : Nat) : List Nat := ((definition.node id).map (·.children)).getD []

def arrayTemplate (array : Nat) : Option Nat :=
  (definition.nodes[array]?).bind fun node => node.children.find? fun child =>
    (definition.nodes[child]?).any (·.owningArray == some array)

def arrayForTemplate (template : Nat) : Option Nat :=
  (definition.nodes[template]?).bind (·.owningArray)

def initialTreeMetrics (formData : Value) : Nat × Nat :=
  let arrays := definition.nodes.filter fun node =>
    node.owningArray.isNone && node.semanticKind == some .homogeneousArray
  let itemCount (array : DefinitionNode) : Nat :=
    (array.binding.map fun binding => (Engine.arrayValues binding formData).length).getD 0
  let templateNodes (array : DefinitionNode) : Nat :=
    definition.nodes.countP (·.owningArray == some array.id)
  (definition.nodes.countP (·.owningArray.isNone) +
      (arrays.map fun array => itemCount array * templateNodes array).sum,
    (arrays.map itemCount).sum)

def bindingHasAnnotation (binding : Pointer) (isAnnotated : DataSchemaAnnotations → Bool) :
    Bool :=
  definition.annotationScopes.any fun scope =>
    isAnnotated scope.annotations && scope.binding.all fun ancestor => binding.startsWith ancestor

def templateHasAnnotation (node : Nat) (isAnnotated : DataSchemaAnnotations → Bool) : Bool :=
  match definition.nodes[node]? with
  | none => false
  | some target =>
    match target.owningArray, target.binding with
    | some owner, some targetBinding =>
      definition.nodes.any fun candidate =>
        candidate.owningArray == some owner && isAnnotated candidate.dataSchemaAnnotations &&
        candidate.binding.any fun ancestor => targetBinding.startsWith ancestor
    | _, _ => false

/-! ## Well-formed definitions -/

/-- The binding of the array whose item template the node belongs to. -/
def ownerBinding (node : DefinitionNode) : Option Pointer :=
  node.owningArray.bind fun array => (definition.nodes[array]?).bind (·.binding)

/-- A definition node with the contents of a generated one. -/
structure Instantiates (node : DefinitionNode) (generated : GeneratedNode) : Prop where
  kind : node.kind = generated.kind
  semanticKind : node.semanticKind = generated.semanticKind
  binding : node.binding = some generated.binding
  dataSchemaAnnotations : node.dataSchemaAnnotations = generated.dataSchemaAnnotations
  creationSeed : node.creationSeed = generated.creationSeed
  required : node.required = generated.required
  acceptsNull : node.acceptsNull = generated.acceptsNull
  choiceOptions : node.choiceOptions = generated.choiceOptions
  choiceSelectable : node.choiceSelectable = generated.choiceSelectable
  multipleChoice : node.multipleChoice = generated.multipleChoice
  owner : node.owningArray.isSome = generated.owningArrayBinding.isSome
  ownerBinding : definition.ownerBinding node = generated.owningArrayBinding

/-- The root and authored layout and text: no binding, nothing of the data schema but the root's
annotations. -/
structure Presentation (node : DefinitionNode) : Prop where
  semanticKind : node.semanticKind = none
  binding : node.binding = none
  kind : node.kind ≠ .control ∧ node.kind ≠ .unsupported
  multipleChoice : node.multipleChoice = false
  annotations : node.dataSchemaAnnotations = {} ∨
    node.id = 0 ∧ node.dataSchemaAnnotations = definition.engine.rootAnnotations

structure WellFormed : Prop where
  engine : definition.engine.WellFormed
  ids : ∀ (i : Nat) (node : DefinitionNode), definition.nodes[i]? = some node → node.id = i
  root : ∃ node, definition.nodes[0]? = some node ∧ node.owningArray = none ∧ node.binding = none
  /-- Bound nodes show something generated, the others nothing. -/
  nodes : ∀ node ∈ definition.nodes,
    (∃ generated ∈ generatedNodes definition.engine, definition.Instantiates node generated) ∨
    definition.Presentation node
  /-- One tree from node zero. -/
  children_lt : ∀ node ∈ definition.nodes, ∀ child ∈ node.children, child < definition.nodes.length
  ranked : ∃ rank, Forest.Ranked definition.children rank
  uniqueParent : Forest.UniqueParent definition.children
  covered : ∀ i, i < definition.nodes.length → Forest.Reaches definition.children 0 i
  /-- An array has its item template as its only child. -/
  arrayChildren : ∀ node ∈ definition.nodes, node.semanticKind = some .homogeneousArray →
    ∃ template child, node.children = [template] ∧ definition.nodes[template]? = some child ∧
      child.owningArray = some node.id
  /-- Any other node stands in the scope of its children. -/
  scope : ∀ node ∈ definition.nodes, node.semanticKind ≠ some .homogeneousArray →
    ∀ id ∈ node.children, ∀ child, definition.nodes[id]? = some child →
      child.owningArray = node.owningArray
  /-- Every control and array is shown once. -/
  controlsOnce : ∀ node ∈ definition.nodes, ∀ other ∈ definition.nodes, node.kind = .control →
    other.kind = .control → node.owningArray = other.owningArray → node.binding = other.binding →
    node.id = other.id
  annotationScopes : definition.annotationScopes = annotationScopesOf definition.engine

end DefinitionInner

/-- A compiled definition. -/
structure FormDefinition where
  inner : DefinitionInner
  wellFormed : inner.WellFormed

end Schemaform
