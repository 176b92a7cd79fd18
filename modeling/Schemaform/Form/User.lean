import Schemaform.Form.Lifecycle

/-!
# Form.User

Operations attributed to the user. Each checks its permission first, most of them work on a copy of
the engine and commit it after the limits have been checked.

* `inputText`, `blur`, `setValue`, `setNull`, `removeValue`, `replaceValue`, `materialize`.
* `appendItem`, `insertItemBefore`, `removeItem`, `moveItem`, `toggleChoice`.
-/

namespace Schemaform

inductive UserOperationError where
  | unknownTarget
  | operationNotAllowed
  | resourceLimit (error : ResourceLimitError)
deriving DecidableEq, Repr

def mapUserEditError : Engine.EditError → UserOperationError
  | .unknownControl _ => .unknownTarget
  | .unresolvedControl _ | .operationNotAllowed _ => .operationNotAllowed

def SemanticKind.isStructure : SemanticKind → Bool
  | .fixedObject | .homogeneousArray => true
  | _ => false

theorem SemanticKind.not_structure {kind : Option SemanticKind}
    (h : kind.any SemanticKind.isScalar = true) : kind.any SemanticKind.isStructure = false := by
  cases kind with
  | none => rfl
  | some kind => cases kind <;> first | rfl | cases h

namespace Form

variable (form : Form)

def bindingForOperation (target : InstanceIdentity) (allowed : AllowedOperations → Bool) :
    Except UserOperationError Pointer :=
  if target.form ≠ form.id then .error .unknownTarget
  else
    match form.node target with
    | none => .error .unknownTarget
    | some node =>
      if !allowed node.allowedOperations then .error .operationNotAllowed
      else
        match node.binding with
        | none => .error .operationNotAllowed
        | some binding => .ok binding

def checkCandidate (candidate : Value) : Except UserOperationError Unit :=
  (checkRuntimeFormData form.definition candidate form.limits).mapError .resourceLimit

def checkInputAt (value : Value) (binding : Pointer) : Except UserOperationError Unit :=
  (checkRuntimeInputValue value binding form.limits).mapError .resourceLimit

/-! ## Scalars -/

def checkBound (dimension : String) (maximum observed : Nat) (binding : Pointer) :
    Except UserOperationError Unit :=
  if observed > maximum then
    .error (.resourceLimit ⟨.operation, dimension, maximum, observed, binding⟩)
  else .ok ()

/-- Everything `input_text` checks before it touches the form. -/
def checkInputText (target : InstanceIdentity) (text : String) :
    Except UserOperationError Pointer := do
  let binding ← form.bindingForOperation target (·.inputText)
  checkBound "edit_buffer_bytes" form.limits.maxEditBufferBytes text.utf8ByteSize binding
  let (activeBuffers, totalBytes) ←
    (form.engine.prospectiveEditBufferMetrics binding text).mapError mapUserEditError
  checkBound "active_edit_buffers" form.limits.maxActiveEditBuffers activeBuffers binding
  checkBound "total_edit_buffer_bytes" form.limits.maxTotalEditBufferBytes totalBytes binding
  let candidate ← (form.engine.prospectiveTextFormData form.definition.inner.parser binding text
    form.limits.maxCanonicalIntegerDigits).mapError mapUserEditError
  match candidate with
  | some candidate => form.checkCandidate candidate
  | none => pure ()
  return binding

def inputText (target : InstanceIdentity) (text : String) :
    Form × Except UserOperationError Transition :=
  attempt form (form.checkInputText target text) fun binding =>
  let before := form.revisions
  let findingsBefore := form.visibleValidationFindingsByNode
  let externalTargetsBefore := form.visibleExternalFindingTargets
  match form.engine.editTextWithIntegerDigitLimit form.definition.inner.parser binding text
      form.limits.maxCanonicalIntegerDigits with
  | (engine, .error error) => ({ form with engine }, .error (mapUserEditError error))
  | (engine, .ok ()) =>
    let form := { form with engine }.settle before
    (form, .ok (form.userTransition target before findingsBefore externalTargetsBefore
      form.revisions))

def checkBlur (target : InstanceIdentity) : Except UserOperationError Pointer :=
  if target.form ≠ form.id then .error .unknownTarget
  else if (form.node target).any NodeView.isReadOnly then .error .operationNotAllowed
  else
    match ((form.node target).filter (·.definition.kind == .control)).bind NodeView.binding with
    | none => .error .operationNotAllowed
    | some binding => .ok binding

def blur (target : InstanceIdentity) : Form × Except UserOperationError Transition :=
  attempt form (form.checkBlur target) fun binding =>
  let before := form.revisions
  match form.engine.blur binding with
  | (engine, .error _) => ({ form with engine }, .error .unknownTarget)
  | (engine, .ok ()) =>
    let form := { form with engine }
    (form, .ok (transition before form.revisions
      (if before ≠ form.revisions then [target] else [])))

abbrev EngineEdit (α : Type) := Engine.Form → Pointer → Engine.Form × Except Engine.EditError α

/-- Run an edit on a copy of the engine and check the data it leaves. -/
def candidateEngine {α : Type} (binding : Pointer) (edit : EngineEdit α) :
    Except UserOperationError (Engine.Form × α) :=
  match edit form.engine binding with
  | (_, .error error) => .error (mapUserEditError error)
  | (candidate, .ok a) => do
    form.checkCandidate candidate.formData
    return (candidate, a)

def applyScalarEdit (target : InstanceIdentity) (binding : Pointer) (edit : EngineEdit Unit) :
    Form × Except UserOperationError Transition :=
  let before := form.revisions
  let findingsBefore := form.visibleValidationFindingsByNode
  let externalTargetsBefore := form.visibleExternalFindingTargets
  attempt form (form.candidateEngine binding edit) fun (engine, ()) =>
  let form := { form with engine }.settle before
  (form, .ok (form.userTransition target before findingsBefore externalTargetsBefore
    form.revisions))

def checkScalar (binding : Pointer) (value : Value) : Except UserOperationError Unit :=
  if !(form.engine.controlAcceptsValue binding value).getD false || value.isNull then
    .error .operationNotAllowed
  else form.checkInputAt value binding

def setValue (target : InstanceIdentity) (value : Value) :
    Form × Except UserOperationError Transition :=
  attempt form (form.bindingForOperation target (·.setValue)) fun binding =>
  attempt form (form.checkScalar binding value) fun () =>
  form.applyScalarEdit target binding fun engine binding => engine.setValue binding value

def setNull (target : InstanceIdentity) : Form × Except UserOperationError Transition :=
  attempt form (form.bindingForOperation target (·.setNull)) fun binding =>
  form.applyScalarEdit target binding fun engine binding => engine.setValue binding .null

/-! ## Structures -/

def semanticKind (target : InstanceIdentity) : Option SemanticKind :=
  (form.node target).bind (·.definition.semanticKind)

/-- Nodes at, above or below the binding, and nodes with other validation findings. -/
def structurallyChanged (binding : Pointer)
    (findingsBefore : List (InstanceIdentity × List ValidationFinding)) : List InstanceIdentity :=
  form.visibleValidationFindingsByNode.filterMap fun (identity, findingsAfter) =>
    if (form.bindingOf identity).any (Engine.Form.intersects binding) ||
        findingsBefore.lookup identity != some findingsAfter then some identity
    else none

def applyStructuralEdit (binding : Pointer) (edit : EngineEdit Unit) :
    Form × Except UserOperationError Transition :=
  let before := form.revisions
  let identitiesBefore := form.instanceIdentities
  let findingsBefore := form.visibleValidationFindingsByNode
  let externalTargetsBefore := form.visibleExternalFindingTargets
  attempt form (form.candidateEngine binding edit) fun (engine, ()) =>
  let form := { form with engine }.settle before
  let changed := form.structurallyChanged binding findingsBefore ++ externalTargetsBefore
  (form, .ok (form.topologyTransition before form.revisions identitiesBefore changed))

def removeValue (target : InstanceIdentity) : Form × Except UserOperationError Transition :=
  attempt form (form.bindingForOperation target (·.removeValue)) fun binding =>
  if (form.semanticKind target).any SemanticKind.isStructure then
    form.applyStructuralEdit binding Engine.Form.removeValue
  else form.applyScalarEdit target binding Engine.Form.removeValue

def checkStructure (kind : Option SemanticKind) (binding : Pointer) (value : Value) :
    Except UserOperationError Unit :=
  if kind == some .fixedObject && !value.isObject ||
      kind == some .homogeneousArray && !value.isArray then .error .operationNotAllowed
  else form.checkInputAt value binding

def replaceValue (target : InstanceIdentity) (value : Value) :
    Form × Except UserOperationError Transition :=
  attempt form (form.bindingForOperation target (·.replaceValue)) fun binding =>
  let kind := form.semanticKind target
  if kind.any SemanticKind.isStructure then
    attempt form (form.checkStructure kind binding value) fun () =>
    form.applyStructuralEdit binding fun engine binding => engine.replaceStructure binding value
  else
    attempt form (form.checkScalar binding value) fun () =>
    form.applyScalarEdit target binding fun engine binding => engine.setValue binding value

def creationSeed (target : InstanceIdentity) : Except UserOperationError Value :=
  match (form.definition.inner.node target.node).bind (·.creationSeed) with
  | none => .error .operationNotAllowed
  | some seed => .ok seed

def materialize (target : InstanceIdentity) : Form × Except UserOperationError Transition :=
  attempt form (form.bindingForOperation target (·.materialize)) fun binding =>
  attempt form (form.creationSeed target) fun seed =>
  form.applyStructuralEdit binding fun engine binding => engine.materializeStructure binding seed

/-! ## Array items -/

def templateOf (array : InstanceIdentity) : Except UserOperationError Nat :=
  match form.definition.inner.arrayTemplate array.node with
  | none => .error .operationNotAllowed
  | some template => .ok template

def checkItem (item : ItemIdentity) : Except UserOperationError Unit :=
  if item.form ≠ form.id then .error .unknownTarget else .ok ()

/-- What an array operation reports, once it is committed. -/
def arrayTransition (before : Revisions)
    (findingsBefore : List (InstanceIdentity × List ValidationFinding))
    (directlyChanged removed : List InstanceIdentity) : Transition :=
  let after := form.revisions
  { beforeData := before.1
    afterData := after.1
    beforeState := before.2
    afterState := after.2
    changed := form.hostChangedNodes directlyChanged before findingsBefore after
    removed }

def itemSubtrees (template : Nat) (items : List Nat) : List InstanceIdentity :=
  items.flatMap fun item => form.itemSubtreeIdentities template (form.item item)

def appendItem (array : InstanceIdentity) : Form × Except UserOperationError Transition :=
  attempt form (form.bindingForOperation array (·.appendItem)) fun binding =>
  attempt form (form.templateOf array) fun template =>
  let before := form.revisions
  let findingsBefore := form.visibleValidationFindingsByNode
  let externalTargetsBefore := form.visibleExternalFindingTargets
  attempt form (form.candidateEngine binding Engine.Form.appendArrayItem) fun (engine, item) =>
  let form := { form with engine }.revalidate.clearExternalFindings
  let changed := array :: form.itemSubtreeIdentities template (form.item item) ++
    externalTargetsBefore
  (form, .ok (form.arrayTransition before findingsBefore changed []))

def insertItemBefore (array : InstanceIdentity) (beforeItem : ItemIdentity) :
    Form × Except UserOperationError Transition :=
  attempt form (form.checkItem beforeItem) fun () =>
  attempt form (form.bindingForOperation array (·.appendItem)) fun binding =>
  attempt form (form.templateOf array) fun template =>
  let before := form.revisions
  let findingsBefore := form.visibleValidationFindingsByNode
  let externalTargetsBefore := form.visibleExternalFindingTargets
  attempt form (form.candidateEngine binding fun engine binding =>
    engine.insertArrayItemBefore binding beforeItem.localId) fun (engine, inserted) =>
  let form := { form with engine }.revalidate.clearExternalFindings
  let changed := array :: form.itemSubtreeIdentities template (form.item inserted.identity) ++
    form.itemSubtrees template inserted.shifted ++ externalTargetsBefore
  (form, .ok (form.arrayTransition before findingsBefore changed []))

def removeItem (array : InstanceIdentity) (item : ItemIdentity) :
    Form × Except UserOperationError Transition :=
  attempt form (form.checkItem item) fun () =>
  attempt form (form.bindingForOperation array (·.removeItem)) fun binding =>
  attempt form (form.templateOf array) fun template =>
  let removedIdentities := form.itemSubtreeIdentities template item
  -- the first of them is the template node itself
  if (form.node (form.itemIdentity template item)).isNone then (form, .error .unknownTarget)
  else
    let before := form.revisions
    let findingsBefore := form.visibleValidationFindingsByNode
    let externalTargetsBefore := form.visibleExternalFindingTargets
    match form.engine.removeArrayItem binding item.localId with
    | (engine, .error error) => ({ form with engine }, .error (mapUserEditError error))
    | (engine, .ok removed) =>
      let form := { form with engine }.revalidate.clearExternalFindings
      let changed := array :: form.itemSubtrees template removed.shifted ++
        externalTargetsBefore.filter fun identity => !removedIdentities.contains identity
      (form, .ok (form.arrayTransition before findingsBefore changed removedIdentities))

def moveItem (direction : Engine.ArrayMove) (array : InstanceIdentity) (item : ItemIdentity) :
    Form × Except UserOperationError Transition :=
  attempt form (form.checkItem item) fun () =>
  attempt form (form.bindingForOperation array (·.moveItem)) fun binding =>
  attempt form (form.templateOf array) fun template =>
  let before := form.revisions
  let findingsBefore := form.visibleValidationFindingsByNode
  let externalTargetsBefore := form.visibleExternalFindingTargets
  match Engine.Form.moveArrayItem direction form.engine binding item.localId with
  | (engine, .error error) => ({ form with engine }, .error (mapUserEditError error))
  | (engine, .ok moved) =>
    let form := { form with engine }
    let form :=
      if moved.dataChanged then form.revalidate.clearExternalFindings
      else form.moveExternalFindings binding moved.source moved.destination
    let changed := array :: form.itemSubtreeIdentities template item ++
      form.itemSubtreeIdentities template (form.item moved.displaced) ++
      if moved.dataChanged then externalTargetsBefore else []
    (form, .ok (form.arrayTransition before findingsBefore changed []))

/-- The items a toggle inserted, removed and shifted. -/
def toggledItems : Engine.ToggledArrayChoice → List Nat × List Nat × List Nat
  | .included inserted => ([inserted.identity], [], inserted.shifted)
  | .excluded removed shifted => ([], removed, shifted)

def toggleChoice (array : InstanceIdentity) (value : Value) :
    Form × Except UserOperationError Transition :=
  attempt form (form.bindingForOperation array (·.toggleChoice)) fun binding =>
  attempt form (form.templateOf array) fun template =>
  attempt form (form.checkInputAt value binding) fun () =>
  let before := form.revisions
  let findingsBefore := form.visibleValidationFindingsByNode
  let externalTargetsBefore := form.visibleExternalFindingTargets
  attempt form (form.candidateEngine binding fun engine binding =>
    engine.toggleArrayChoice binding value) fun (engine, toggled) =>
  let (inserted, removed, shifted) := toggledItems toggled
  let removedIdentities := form.itemSubtrees template removed
  let form := { form with engine }.revalidate.clearExternalFindings
  let changed := array :: form.itemSubtrees template inserted ++
    form.itemSubtrees template shifted ++
    externalTargetsBefore.filter fun identity => !removedIdentities.contains identity
  (form, .ok (form.arrayTransition before findingsBefore changed removedIdentities))

end Form

end Schemaform
