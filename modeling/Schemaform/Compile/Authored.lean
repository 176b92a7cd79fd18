import Schemaform.Compile.Region

/-!
# Compile.Authored

The definition nodes of an authored layout, and of the projection without one.

* `Element`: the seven elements of a UI schema.
* `selectAutoProperties`: the properties an `Auto` shows, in its order.
* `wrapAutoMeta`: an `Auto` with an id or extensions gets a layout node of its own.
* `wrapItemObject`: an item template gets the node of its item object unless it is that node.
* `compileAuthoredElement`, `compileAuthoredNodes`, `compileGeneratedNodes`.
-/

namespace Schemaform

namespace Ui

structure Binding where
  origin : BindingOrigin
  pointer : Pointer
deriving DecidableEq, Repr

structure TextReference where
  fallback : String
  key : Option String
deriving DecidableEq, Repr

structure ElementMeta where
  idValue : Option String := none
  extensionsValue : List (String × Value) := []
deriving DecidableEq, Repr

structure Control where
  metaValue : ElementMeta := {}
  binding : Binding
  itemLabelValue : Option TextReference := none
deriving DecidableEq, Repr

inductive PropertyPosition where
  | property (property : String)
  | remaining
deriving DecidableEq, Repr

structure PropertySelection where
  includeValue : List String := []
  excludeValue : List String := []
  orderValue : List PropertyPosition := []
deriving DecidableEq, Repr

structure Auto where
  metaValue : ElementMeta := {}
  binding : Binding
  propertiesValue : PropertySelection := {}
deriving DecidableEq, Repr

inductive Element where
  | control (control : Control) (itemTemplateValue : Option Element)
  | auto (auto : Auto)
  | stack (metaValue : ElementMeta) (children : List Element)
  | grid (metaValue : ElementMeta) (cells : List Element)
  | group (metaValue : ElementMeta) (child : Element)
  | tabs (metaValue : ElementMeta) (panels : List Element)
  | text (metaValue : ElementMeta)

end Ui

open Ui

/-! ## Authored ids -/

def registerAuthoredId (metaValue : ElementMeta) (valueLocation : String) (state : CompileState) :
    Except UiSchemaInputError (Option String × CompileState) :=
  match metaValue.idValue with
  | none => .ok (none, state)
  | some authoredId =>
    if authoredId ∈ state.authoredIds then .error ⟨valueLocation ++ "/id", .duplicateElementId⟩
    else .ok (some authoredId, { state with authoredIds := authoredId :: state.authoredIds })

/-! ## Properties of an `Auto` -/

/-- The properties an order names, and whether it places the remaining ones. -/
def validateAutoPropertyOrder (valueLocation : String) :
    Nat → List PropertyPosition → List String → Bool → Except UiSchemaInputError (List String × Bool)
  | _, [], explicitlyOrdered, remainingSeen => .ok (explicitlyOrdered, remainingSeen)
  | index, .property property :: order, explicitlyOrdered, remainingSeen =>
    if property ∈ explicitlyOrdered then
      .error ⟨s!"{valueLocation}/properties/order/{index}/property", .invalidPropertySelection⟩
    else
      validateAutoPropertyOrder valueLocation (index + 1) order (property :: explicitlyOrdered)
        remainingSeen
  | index, .remaining :: order, explicitlyOrdered, remainingSeen =>
    if remainingSeen then
      .error ⟨s!"{valueLocation}/properties/order/{index}", .invalidPropertySelection⟩
    else validateAutoPropertyOrder valueLocation (index + 1) order explicitlyOrdered true

/-- Every named property is there. -/
def checkProperties (directProperties : List (String × Nat)) (location : Nat → String) :
    Nat → List String → Except UiSchemaInputError Unit
  | _, [] => .ok ()
  | index, property :: properties =>
    if (SortedMap.get property directProperties).isNone then
      .error ⟨location index, .unknownBinding⟩
    else checkProperties directProperties location (index + 1) properties

def checkOrder (directProperties : List (String × Nat)) (valueLocation : String) :
    Nat → List PropertyPosition → Except UiSchemaInputError Unit
  | _, [] => .ok ()
  | index, .property property :: order =>
    if (SortedMap.get property directProperties).isNone then
      .error ⟨s!"{valueLocation}/properties/order/{index}/property", .unknownBinding⟩
    else checkOrder directProperties valueLocation (index + 1) order
  | index, .remaining :: order => checkOrder directProperties valueLocation (index + 1) order

/-- The selected properties, by name: the included ones or all, less the excluded ones. -/
def selectedProperties (selection : PropertySelection) (directProperties : List (String × Nat)) :
    List (String × Nat) :=
  directProperties.filter fun property =>
    (selection.includeValue.isEmpty || selection.includeValue.contains property.1) &&
      !selection.excludeValue.contains property.1

/-- The selected properties in the authored order. -/
def orderedProperties (selected : List (String × Nat)) (order : List PropertyPosition)
    (explicitlyOrdered : List String) (remainingSeen : Bool) : List Nat :=
  let remaining := (selected.filter fun property => property.1 ∉ explicitlyOrdered).map (·.2)
  let ordered := order.flatMap fun position =>
    match position with
    | .property property => (SortedMap.get property selected).toList
    | .remaining => remaining
  if remainingSeen then ordered else ordered ++ remaining

def selectAutoProperties (selection : PropertySelection) (directProperties : List (String × Nat))
    (valueLocation : String) (explicitlyOrdered : List String) (remainingSeen : Bool) :
    Except UiSchemaInputError (List Nat) := do
  checkProperties directProperties (fun index => s!"{valueLocation}/properties/include/{index}") 0
    selection.includeValue
  checkProperties directProperties (fun index => s!"{valueLocation}/properties/exclude/{index}") 0
    selection.excludeValue
  checkOrder directProperties valueLocation 0 selection.orderValue
  pure (orderedProperties (selectedProperties selection directProperties) selection.orderValue
    explicitlyOrdered remainingSeen)

/-! ## Wrapping nodes -/

/-- A presentation node for an authored element, in the scope of the context. -/
def pushPresentation (kind : DefinitionNodeKind) (authoredId : Option String)
    (context : AuthoredBindingContext) (children : List Nat) (state : CompileState) :
    Nat × CompileState :=
  let node := presentationNode kind children
  state.pushDefinitionNode { node with authoredId, owningArray := context.owningArray }

def wrapAutoMeta (auto : Auto) (authoredId : Option String) (context : AuthoredBindingContext)
    (children : List Nat) (state : CompileState) : List Nat × CompileState :=
  if authoredId.isNone && auto.metaValue.extensionsValue.isEmpty then (children, state)
  else
    let (id, state) := pushPresentation .autoGeneratedLayout authoredId context children state
    ([id], state)

/-- A single node for the item object itself. -/
def isItemObject (nodes : List CompiledNode) (authoredChildren : List Nat) : Bool :=
  match authoredChildren with
  | [authoredRoot] => (nodes[authoredRoot]?).any fun node =>
      node.semanticKind == some .fixedObject && node.binding == some []
  | _ => false

/-- Put the authored template below the node of the item object, if the items are objects and
the template is not that node itself. -/
def wrapItemObject (generated : List GeneratedNode) (binding : Pointer) (id : Nat)
    (authoredChildren : List Nat) (state : CompileState) : List Nat × CompileState :=
  match (generated.find? fun node => node.owningArrayBinding == some binding &&
      node.binding.isEmpty && node.kind == .autoGeneratedLayout &&
      node.semanticKind == some .fixedObject).filter
    fun _ => !isItemObject state.nodes authoredChildren with
  | some itemObject =>
    let (child, state) :=
      state.pushDefinitionNode (itemObject.definitionNode 0 (some id) authoredChildren)
    ([child], state)
  | none => (authoredChildren, state)

def CompileState.setChildren (state : CompileState) (id : Nat) (children : List Nat) :
    CompileState :=
  { state with nodes := state.nodes.modify id fun node => { node with children } }

/-! ## Elements -/

/-- The first generated node that satisfies a test, with its index. -/
def findGenerated (generated : List GeneratedNode) (test : GeneratedNode → Bool) :
    Option (Nat × GeneratedNode) :=
  (generated.zipIdx.find? (test ·.1)).map Prod.swap

/-- A control may bind an array with an item template to instantiate, or a multiple choice. -/
def bindsControl (context : AuthoredBindingContext) (binding : Pointer) (hasTemplate : Bool)
    (node : GeneratedNode) : Bool :=
  node.owningArrayBinding == context.owningArrayBinding && node.binding == binding &&
    node.kind == .control &&
    (node.semanticKind != some .homogeneousArray ||
      (context.origin == .root && (hasTemplate || node.multipleChoice)))

/-- The node of an authored control, before it has children. -/
def compileControl (generated : List GeneratedNode) (context : AuthoredBindingContext)
    (valueLocation : String) (control : Control) (hasTemplate : Bool) (state : CompileState) :
    Except UiSchemaInputError (Nat × GeneratedNode × Nat × CompileState) := do
  let (authoredId, state) ← registerAuthoredId control.metaValue valueLocation state
  if control.binding.origin ≠ context.origin then
    throw ⟨valueLocation ++ "/binding/origin", .invalidBindingOrigin⟩
  let binding := control.binding.pointer
  match findGenerated generated (bindsControl context binding hasTemplate) with
  | none => throw ⟨valueLocation ++ "/binding/pointer", .unknownBinding⟩
  | some (generatedIndex, node) =>
    if state.bindings.contains binding then
      throw ⟨valueLocation ++ "/binding/pointer", .duplicateBinding⟩
    if node.semanticKind ≠ some .homogeneousArray && hasTemplate then
      throw ⟨valueLocation ++ "/item_template", .unsupportedField⟩
    if node.semanticKind ≠ some .homogeneousArray && control.itemLabelValue.isSome then
      throw ⟨valueLocation ++ "/item_label", .unsupportedField⟩
    let state := { state with bindings := binding :: state.bindings }
    let (id, state) := state.pushDefinitionNode
      { node.definitionNode 0 context.owningArray [] with authoredId }
    pure (generatedIndex, node, id, state)

/-- The scope of an item template. -/
def AuthoredBindingContext.itemTemplate (binding : Pointer) (id : Nat) : AuthoredBindingContext :=
  ⟨.itemTemplate, some binding, some id⟩

/-- The compiled template of a multiple choice without an authored one. -/
def compileChoiceTemplate (generated : List GeneratedNode) (valueLocation : String)
    (binding : Pointer) (generatedIndex id : Nat) (state : CompileState) :
    Except UiSchemaInputError CompileState := do
  let region : GeneratedRegion :=
    ⟨generated, none, generatedChildIndices generated generatedIndex⟩
  let (children, template) ← materializeGeneratedRegion region (.itemTemplate binding id)
    (valueLocation ++ "/binding/pointer") { state with bindings := [] }
  pure ({ template with bindings := state.bindings }.setChildren id children)

def compileAuto (generated : List GeneratedNode) (context : AuthoredBindingContext)
    (valueLocation : String) (auto : Auto) (state : CompileState) :
    Except UiSchemaInputError (List Nat × CompileState) := do
  let (authoredId, state) ← registerAuthoredId auto.metaValue valueLocation state
  if auto.binding.origin ≠ context.origin then
    throw ⟨valueLocation ++ "/binding/origin", .invalidBindingOrigin⟩
  let binding := auto.binding.pointer
  let (explicitlyOrdered, remainingSeen) ←
    validateAutoPropertyOrder valueLocation 0 auto.propertiesValue.orderValue [] false
  let isRoot := binding.isEmpty && context.owningArrayBinding.isNone
  let at' (node : GeneratedNode) : Bool :=
    node.owningArrayBinding == context.owningArrayBinding && node.binding == binding
  let generatedParent := if isRoot then none
    else (findGenerated generated fun node =>
      at' node && node.kind == .autoGeneratedLayout && node.semanticKind == some .fixedObject).map
      Prod.fst
  if !isRoot && generatedParent.isNone then
    match findGenerated generated fun node => at' node && node.kind == .unsupported with
    | some (unsupported, _) =>
      let (children, state) ← materializeGeneratedRegion ⟨generated, none, [unsupported]⟩ context
        (valueLocation ++ "/binding/pointer") state
      pure (wrapAutoMeta auto authoredId context children state)
    | none => throw ⟨valueLocation ++ "/binding/pointer", .unknownBinding⟩
  else
    let selected ← selectAutoProperties auto.propertiesValue
      (directGeneratedProperties generated context binding) valueLocation explicitlyOrdered
      remainingSeen
    let selected := if isRoot then rootAutoRoots generated selected else selected
    let (children, state) ← materializeGeneratedRegion ⟨generated, generatedParent, selected⟩
      context (valueLocation ++ "/binding/pointer") state
    pure (wrapAutoMeta auto authoredId context children state)

mutual

/-- The node of an element and everything below it, the ids of its roots first. -/
def compileAuthoredElement (generated : List GeneratedNode) (context : AuthoredBindingContext)
    (location : String) : Element → CompileState →
    Except UiSchemaInputError (List Nat × CompileState)
  | .control control itemTemplate, state => do
    let valueLocation := location ++ "/value"
    let (generatedIndex, node, id, state) ←
      compileControl generated context valueLocation control itemTemplate.isSome state
    let binding := control.binding.pointer
    let template ← compileItemTemplate generated binding id (valueLocation ++ "/item_template")
      itemTemplate { state with bindings := [] }
    match template with
    | some (authoredChildren, template) =>
      let (children, template) := wrapItemObject generated binding id authoredChildren template
      pure ([id], { template with bindings := state.bindings }.setChildren id children)
    | none =>
      if node.multipleChoice then
        let state ←
          compileChoiceTemplate generated valueLocation binding generatedIndex id state
        pure ([id], state)
      else pure ([id], state)
  | .auto auto, state => compileAuto generated context (location ++ "/value") auto state
  | .stack metaValue children, state => do
    let valueLocation := location ++ "/value"
    let (authoredId, state) ← registerAuthoredId metaValue valueLocation state
    let (children, state) ← compileAuthoredElements generated context
      (fun index => s!"{valueLocation}/children/{index}") none 0 children state
    let (id, state) := pushPresentation .stack authoredId context children state
    pure ([id], state)
  | .grid metaValue cells, state => do
    let valueLocation := location ++ "/value"
    let (authoredId, state) ← registerAuthoredId metaValue valueLocation state
    let (cells, state) ← compileAuthoredElements generated context
      (fun index => s!"{valueLocation}/cells/{index}/child") (some .gridCell) 0 cells state
    let (id, state) := pushPresentation .grid authoredId context cells state
    pure ([id], state)
  | .group metaValue child, state => do
    let valueLocation := location ++ "/value"
    let (authoredId, state) ← registerAuthoredId metaValue valueLocation state
    let (children, state) ←
      compileAuthoredElement generated context (valueLocation ++ "/child") child state
    let (id, state) := pushPresentation .group authoredId context children state
    pure ([id], state)
  | .tabs metaValue panels, state => do
    let valueLocation := location ++ "/value"
    let (authoredId, state) ← registerAuthoredId metaValue valueLocation state
    let (panels, state) ← compileAuthoredElements generated context
      (fun index => s!"{valueLocation}/panels/{index}/child") (some .tabPanel) 0 panels state
    let (id, state) := pushPresentation .tabs authoredId context panels state
    pure ([id], state)
  | .text metaValue, state => do
    let (authoredId, state) ← registerAuthoredId metaValue (location ++ "/value") state
    let (id, state) := pushPresentation .text authoredId context [] state
    pure ([id], state)

/-- Elements in a row, each below a node of the given kind if there is one. -/
def compileAuthoredElements (generated : List GeneratedNode) (context : AuthoredBindingContext)
    (location : Nat → String) (wrapper : Option DefinitionNodeKind) : Nat → List Element →
    CompileState → Except UiSchemaInputError (List Nat × CompileState)
  | _, [], state => .ok ([], state)
  | index, element :: elements, state => do
    let (roots, state) ←
      compileAuthoredElement generated context (location index) element state
    let (roots, state) := match wrapper with
      | none => (roots, state)
      | some kind =>
        let (id, state) := pushPresentation kind none context roots state
        ([id], state)
    let (rest, state) ← compileAuthoredElements generated context location wrapper (index + 1)
      elements state
    pure (roots ++ rest, state)

def compileItemTemplate (generated : List GeneratedNode) (binding : Pointer) (id : Nat)
    (location : String) : Option Element → CompileState →
    Except UiSchemaInputError (Option (List Nat × CompileState))
  | none, _ => .ok none
  | some template, state => do
    let compiled ←
      compileAuthoredElement generated (.itemTemplate binding id) location template state
    pure (some compiled)

end

/-! ## Definitions -/

/-- The node everything hangs below. -/
def rootNode (annotations : DataSchemaAnnotations) : CompiledNode :=
  { presentationNode .autoGeneratedLayout [] with dataSchemaAnnotations := annotations }

def compileAuthoredNodes (root : Element) (generated : List GeneratedNode)
    (rootAnnotations : DataSchemaAnnotations) : Except UiSchemaInputError (List CompiledNode) := do
  let (roots, state) ← compileAuthoredElement generated .root "/root" root
    ⟨[], [], [rootNode rootAnnotations]⟩
  pure (state.setChildren 0 roots).nodes

/-- The nodes without an authored layout. -/
def compileGeneratedNodes (generated : List GeneratedNode)
    (rootAnnotations : DataSchemaAnnotations) : Except UiSchemaInputError (List CompiledNode) := do
  let roots := rootAutoRoots generated
    ((directGeneratedProperties generated .root []).map Prod.snd)
  let (children, state) ← materializeGeneratedRegion ⟨generated, none, roots⟩ .root ""
    ⟨[], [], [rootNode rootAnnotations]⟩
  pure (state.setChildren 0 children).nodes

/-- The definition nodes of a projection, under an authored layout or its own. -/
def compileNodes (uiSchema : Option Element) (engine : Engine.FormDefinition) :
    Except UiSchemaInputError (List CompiledNode) :=
  match uiSchema with
  | some root => compileAuthoredNodes root (generatedNodes engine) engine.rootAnnotations
  | none => compileGeneratedNodes (generatedNodes engine) engine.rootAnnotations

end Schemaform
