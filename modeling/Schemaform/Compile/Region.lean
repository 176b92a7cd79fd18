import Schemaform.Form.Definition

/-!
# Compile.Region

Definition nodes for a region of the generated projection.

* `CompiledNode`: a definition node with the id its author gave it.
* `UiSchemaInputError`, `CompileState`, `AuthoredBindingContext`.
* `generatedChildIndices`, `includeGeneratedSubtree`: the generated nodes below another.
* `directGeneratedProperties`, `rootAutoRoots`.
* `materializeGeneratedRegion`: a node for every included generated node, with ids assigned ahead.
-/

namespace Schemaform

structure CompiledNode extends DefinitionNode where
  authoredId : Option String
deriving DecidableEq, Repr

/-! ## Errors and state -/

inductive UiSchemaInputErrorKind where
  | invalidBindingOrigin
  | unknownBinding
  | duplicateBinding
  | unsupportedField
  | duplicateElementId
  | invalidPropertySelection
deriving DecidableEq, Repr

structure UiSchemaInputError where
  location : String
  kind : UiSchemaInputErrorKind
deriving DecidableEq, Repr

/-- The bindings of the current scope, the authored ids and the nodes so far. -/
structure CompileState where
  bindings : List Pointer
  authoredIds : List String
  nodes : List CompiledNode
deriving DecidableEq, Repr

inductive BindingOrigin where
  | root
  | itemTemplate
deriving DecidableEq, Repr

structure AuthoredBindingContext where
  origin : BindingOrigin
  owningArrayBinding : Option Pointer
  owningArray : Option Nat
deriving DecidableEq, Repr

def AuthoredBindingContext.root : AuthoredBindingContext := ⟨.root, none, none⟩

def presentationNode (kind : DefinitionNodeKind) (children : List Nat) : CompiledNode where
  id := 0
  kind := kind
  semanticKind := none
  binding := none
  dataSchemaAnnotations := {}
  creationSeed := none
  required := false
  acceptsNull := false
  choiceOptions := []
  choiceSelectable := false
  multipleChoice := false
  owningArray := none
  children := children
  authoredId := none

/-- The node that shows a generated one. -/
def GeneratedNode.definitionNode (generated : GeneratedNode) (id : Nat)
    (owningArray : Option Nat) (children : List Nat) : CompiledNode where
  id := id
  kind := generated.kind
  semanticKind := generated.semanticKind
  binding := some generated.binding
  dataSchemaAnnotations := generated.dataSchemaAnnotations
  creationSeed := generated.creationSeed
  required := generated.required
  acceptsNull := generated.acceptsNull
  choiceOptions := generated.choiceOptions
  choiceSelectable := generated.choiceSelectable
  multipleChoice := generated.multipleChoice
  owningArray := owningArray
  children := children
  authoredId := none

/-- Append a node under the next id. -/
def CompileState.pushDefinitionNode (state : CompileState) (node : CompiledNode) :
    Nat × CompileState :=
  (state.nodes.length,
    { state with nodes := state.nodes ++ [{ node with id := state.nodes.length }] })

/-! ## Generated nodes below another -/

def GeneratedNode.propertyName (node : GeneratedNode) : String :=
  (node.binding.getLast?).getD ""

/-- The indices of the nodes that satisfy a test, in order. -/
def indicesWhere (generated : List GeneratedNode) (test : GeneratedNode → Bool) : List Nat :=
  (List.range generated.length).filter fun index => generated[index]?.any test

/-- An ordinary child or the root of the item template. -/
def GeneratedNode.hasChild (parent child : GeneratedNode) : Bool :=
  (child.owningArrayBinding == parent.owningArrayBinding &&
    child.parentBinding == some parent.binding) ||
  (parent.owningArrayBinding.isNone && parent.semanticKind == some .homogeneousArray &&
    child.owningArrayBinding == some parent.binding && child.parentBinding.isNone)

def propertyNameAt (generated : List GeneratedNode) (index : Nat) : String :=
  ((generated[index]?).map GeneratedNode.propertyName).getD ""

def generatedChildIndices (generated : List GeneratedNode) (index : Nat) : List Nat :=
  match generated[index]? with
  | none => []
  | some parent =>
    (indicesWhere generated parent.hasChild).insertionSort fun left right =>
      propertyNameAt generated left ≤ propertyNameAt generated right

/-- Mark a node and everything below it. A nested call marks one more node first, so there are no
more levels than nodes. -/
def includeGeneratedSubtree (generated : List GeneratedNode) :
    Nat → Nat → List Nat → List Nat
  | 0, _, included => included
  | levels + 1, index, included =>
    if index ∈ included then included
    else (generatedChildIndices generated index).foldl
      (fun included child => includeGeneratedSubtree generated levels child included)
      (index :: included)

def directGeneratedProperties (generated : List GeneratedNode) (context : AuthoredBindingContext)
    (binding : Pointer) : List (String × Nat) :=
  let direct := indicesWhere generated fun node =>
    node.owningArrayBinding == context.owningArrayBinding && node.binding != binding &&
      if binding.isEmpty && context.owningArrayBinding.isNone then node.parentBinding.isNone
      else node.parentBinding == some binding
  direct.foldl
    (fun properties index => SortedMap.insert (propertyNameAt generated index) index properties) []

def rootAutoRoots (generated : List GeneratedNode) (properties : List Nat) : List Nat :=
  match (indicesWhere generated fun node =>
      node.owningArrayBinding.isNone && node.binding.isEmpty && node.kind == .unsupported).head? with
  | some rootUnsupported => rootUnsupported :: properties
  | none => properties

/-! ## Regions -/

/-- What `materializeGeneratedRegion` shows: a parent with a choice of its children, or these
alone. -/
structure GeneratedRegion where
  generated : List GeneratedNode
  parent : Option Nat
  roots : List Nat

namespace GeneratedRegion

variable (region : GeneratedRegion)

def marked : List Nat :=
  region.roots.foldl
    (fun included root =>
      includeGeneratedSubtree region.generated region.generated.length root included)
    region.parent.toList

/-- The included nodes in the order of the generated ones. -/
def included : List Nat :=
  (List.range region.generated.length).filter (· ∈ region.marked)

/-- The id a generated node gets when `base` nodes are there already. -/
def id (base index : Nat) : Nat := base + region.included.idxOf index

def children (index : Nat) : List Nat :=
  (if some index = region.parent then region.roots
    else generatedChildIndices region.generated index).filter (· ∈ region.included)

/-- The id of the array an item node belongs to. -/
def owningArray (context : AuthoredBindingContext) (base : Nat) (generated : GeneratedNode) :
    Option Nat :=
  generated.owningArrayBinding.bind fun owner =>
    match context.owningArray with
    | some owningArray => some owningArray
    | none =>
      ((indicesWhere region.generated fun candidate =>
          candidate.owningArrayBinding.isNone && candidate.binding == owner &&
            candidate.semanticKind == some .homogeneousArray).head?.filter
        (· ∈ region.included)).map (region.id base)

/-- A generated node that takes its binding in the scope of the context. -/
def ownsBinding (context : AuthoredBindingContext) (generated : GeneratedNode) : Bool :=
  generated.owningArrayBinding == context.owningArrayBinding &&
    (generated.kind == .control ||
      (generated.kind == .autoGeneratedLayout && generated.semanticKind == some .fixedObject))

/-- One included node; `base` counts the nodes before the region. -/
def materializeNode (context : AuthoredBindingContext) (errorLocation : String) (base : Nat)
    (state : CompileState) (index : Nat) : Except UiSchemaInputError CompileState :=
  match region.generated[index]? with
  | none => .ok state
  | some generated =>
    let owns := ownsBinding context generated
    if owns && state.bindings.contains generated.binding then
      .error ⟨errorLocation, .duplicateBinding⟩
    else .ok { state with
      bindings := if owns then generated.binding :: state.bindings else state.bindings
      nodes := state.nodes ++
        [generated.definitionNode (region.id base index)
          (region.owningArray context base generated)
          ((region.children index).map (region.id base))] }

end GeneratedRegion

def materializeGeneratedRegion (region : GeneratedRegion) (context : AuthoredBindingContext)
    (errorLocation : String) (state : CompileState) :
    Except UiSchemaInputError (List Nat × CompileState) := do
  let base := state.nodes.length
  let state ← region.included.foldlM (region.materializeNode context errorLocation base) state
  pure ((match region.parent with
    | some parent => [region.id base parent]
    | none => region.roots.map (region.id base)), state)

end Schemaform
