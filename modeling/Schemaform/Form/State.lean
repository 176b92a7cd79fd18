import Schemaform.Form.Definition

/-!
# Form.State

The state of a form and the nodes that instantiate its definition.

* `InstanceIdentity`, `Form`.
* `Form.node`: the node an identity stands for now, `none` when it stands for nothing.
* `NodeView.binding`, `NodeView.children`.
* `Form.instanceIdentities`, `itemSubtreeIdentities`: traversals in display order.
-/

namespace Schemaform

/-- An array item, across moves and index shifts. -/
structure ItemIdentity where
  form : Nat
  localId : Nat
deriving DecidableEq, Repr

/-- A definition node in one form, in one item when the node belongs to an item template. -/
structure InstanceIdentity where
  form : Nat
  node : Nat
  item : Option ItemIdentity
deriving DecidableEq, Repr

inductive FindingVisibility where
  | immediate
  | touchedOrSubmission
  | submissionOnly
deriving DecidableEq, Repr

structure FindingVisibilityPolicy where
  validation : FindingVisibility := .touchedOrSubmission
  external : FindingVisibility := .touchedOrSubmission
deriving DecidableEq, Repr

structure ExternalFindingLimits where
  maxActiveFindings : Nat := 1024
  maxActiveBytes : Nat := 1024 * 1024
  maxIncomingFindings : Nat := 1024 * 4
  maxIncomingBytes : Nat := 1024 * 1024 * 4
  maxParameterDepth : Nat := 32
  maxParameterNodes : Nat := 4096
  maxParameterCollectionLength : Nat := 1024
  maxParameterScalarBytes : Nat := 64 * 1024
deriving DecidableEq, Repr

structure Form where
  definition : FormDefinition
  engine : Engine.Form
  validation : Outcome
  externalFindingBatches : List ExternalFindingBatch
  externalFindingLimits : ExternalFindingLimits
  limits : FormDataLimits
  findingVisibility : FindingVisibilityPolicy
  readOnly : Bool
  id : Nat

/-- A node of a form as it stands. -/
structure NodeView where
  form : Form
  identity : InstanceIdentity
  definition : DefinitionNode

namespace Form

variable (form : Form)

def formData : Value := form.engine.formData

def dataRevision : DataRevision := ⟨form.id, form.engine.dataRevision⟩

def stateRevision : StateRevision := ⟨form.id, form.engine.stateRevision⟩

def revisions : DataRevision × StateRevision := (form.dataRevision, form.stateRevision)

/-- How typed numbers are read. -/
abbrev numbers : Engine.NumberInput :=
  ⟨form.definition.inner.parser, form.limits.maxCanonicalIntegerDigits⟩

def identity (node : Nat) : InstanceIdentity := ⟨form.id, node, none⟩

def item (localId : Nat) : ItemIdentity := ⟨form.id, localId⟩

def itemIdentity (node : Nat) (item : ItemIdentity) : InstanceIdentity := ⟨form.id, node, some item⟩

def root : InstanceIdentity := form.identity 0

/-- The current pointer of an item of the array a template node belongs to. -/
def itemBinding (template : Nat) (item : ItemIdentity) : Option Pointer := do
  let array ← form.definition.inner.arrayForTemplate template
  let arrayNode ← form.definition.inner.node array
  let binding ← arrayNode.binding
  form.engine.arrayItemBinding binding item.localId

def node (identity : InstanceIdentity) : Option NodeView :=
  if identity.form ≠ form.id then none
  else
    (form.definition.inner.node identity.node).bind fun definition =>
      match identity.item with
      | none => if definition.isItemTemplate then none else some ⟨form, identity, definition⟩
      | some item =>
        if item.form ≠ form.id || !definition.isItemTemplate then none
        else (form.itemBinding identity.node item).map fun _ => ⟨form, identity, definition⟩

end Form

namespace NodeView

variable (node : NodeView)

/-- The current absolute binding. -/
def binding : Option Pointer :=
  match node.identity.item with
  | some item =>
    (node.form.itemBinding node.identity.node item).bind fun pointer =>
      node.definition.binding.map fun relative => pointer ++ relative
  | none => node.definition.binding

/-- One child for each item of an array, else the definition's children in the node's scope. -/
def children : List InstanceIdentity :=
  if node.definition.semanticKind = some .homogeneousArray then
    match node.definition.binding, node.form.definition.inner.arrayTemplate node.identity.node with
    | some array, some template =>
      ((node.form.engine.arrayItemIdentities array).getD []).map fun item =>
        node.form.itemIdentity template (node.form.item item)
    | _, _ => []
  else
    (node.definition.children.filter fun id =>
        (node.form.definition.inner.node id).any fun child =>
          node.identity.item.isSome || !child.isItemTemplate).map fun id =>
      match node.identity.item with
      | some item => node.form.itemIdentity id item
      | none => node.form.identity id

end NodeView

namespace Form

variable (form : Form)

def childrenOf (identity : InstanceIdentity) : List InstanceIdentity :=
  ((form.node identity).map NodeView.children).getD []

def bindingOf (identity : InstanceIdentity) : Option Pointer :=
  (form.node identity).bind NodeView.binding

/-- Enough for every node once and for every template node once in each item. -/
def treeFuel : Nat :=
  form.definition.inner.nodes.length *
    (1 + (form.engine.arrays.map fun array => array.items.length).sum)

def instanceIdentities : List InstanceIdentity :=
  Forest.dfs form.childrenOf form.treeFuel [form.root]

def itemSubtreeIdentities (template : Nat) (item : ItemIdentity) : List InstanceIdentity :=
  (Forest.dfs form.definition.inner.children form.definition.inner.nodes.length [template]).map
    fun node => form.itemIdentity node item

def identityForBinding (binding : Pointer) : Option InstanceIdentity :=
  form.instanceIdentities.find? fun identity => form.bindingOf identity == some binding

end Form

end Schemaform
